import ViewCompiler.Model.Header
import ViewCompiler.Proofs.Findings
import ViewCompiler.Proofs.Lookup

/-!
Type names that are resolved in a file. A name is resolved to what its lookup gives
(`SymbolTable.value_resolveType`). Resolution without an error finds a type
(`SymbolTable.resolveType_of_clean`), and the canonical name of a written type is then known
(`SymbolTable.known_resolveRef`).
-/

namespace ViewCompiler.SymbolTable

variable {t : SymbolTable} {scope : FileScope}

/-- A name that means a type has no candidates besides. -/
theorem candidates_of_resolve {name ns : Bytes} {usings : List Bytes} {id : TypeId}
    (h : (t.resolve name ns usings).type = some id) : (t.resolve name ns usings).candidates = [] := by
  unfold resolve at h ⊢
  split
  · rfl
  next hnone =>
  rw [hnone] at h
  dsimp only at h
  split
  · rfl
  next hdot =>
  rw [if_neg hdot] at h
  cases hvia : t.viaUsings name usings with
  | nil => rfl
  | cons p more =>
    cases more with
    | nil => rfl
    | cons q more =>
      rw [hvia] at h
      cases h

/-- What a name is resolved to, reports aside. -/
theorem value_resolveType (name : Bytes) (span : Span) :
    (t.resolveType scope name span).value = (t.resolve name scope.ns scope.usings).type := by
  rw [resolveType]
  cases htype : (t.resolve name scope.ns scope.usings).type with
  | none => split <;> rfl
  | some id =>
    rw [candidates_of_resolve htype]
    dsimp only
    split <;> rfl

theorem resolveType_of_clean {name : Bytes} {span : Span}
    (h : (t.resolveType scope name span).Clean) :
    ∃ id, (t.resolveType scope name span).value = some id ∧
      (t.resolve name scope.ns scope.usings).type = some id := by
  unfold resolveType at h ⊢
  dsimp only at h ⊢
  split at h
  · simp [SemanticError.severity] at h
  · split at h
    · simp [SemanticError.severity] at h
    · next id hid =>
      refine ⟨id, ?_, hid⟩
      split <;> rfl

/-- The canonical name of a type that is resolved without an error means a type. -/
theorem known_resolveRef {ref : TypeRef} (h : (t.resolveRef scope ref).Clean) :
    t.Known (t.resolveRef scope ref).value := by
  unfold resolveRef at h ⊢
  split at h
  · next hbuiltin => exact .inl (by simp [hbuiltin])
  · next hbuiltin =>
    simp only [Checked.clean_bind, Checked.clean_pure, and_true] at h
    obtain ⟨id, hvalue, hresolve⟩ := resolveType_of_clean h
    obtain ⟨fullName, hfind⟩ := find?_of_resolve hresolve
    right
    simp [hbuiltin, hvalue, find?_nameOf hfind]

end ViewCompiler.SymbolTable
