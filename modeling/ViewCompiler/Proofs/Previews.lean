import Mathlib.Data.List.Forall2
import ViewCompiler.Proofs.Outlines

/-!
Units before and after it is known what their types render. A render block adds reports and takes none
away, but for those about fields that nothing reads and usings that nothing needs: what is reported of
the outlines of declarations is reported of the declarations (`CompilationUnit.echoed_diagnostics`).
-/

namespace ViewCompiler

/-! ## Declarations with more to render -/

/-- The same declaration, before and after it is known what it renders. -/
inductive TypeDecl.Preview : TypeDecl → TypeDecl → Prop where
  | same (d : TypeDecl) : Preview d d
  | outline (d : TypeDecl) : Preview d.outline d

theorem TypeDecl.Preview.outline_eq {d d' : TypeDecl} (h : d.Preview d') : d.outline = d'.outline := by
  cases h <;> rfl

/-- The same declaration of a unit, before and after it is known what it renders. -/
inductive Declared.Preview : Declared → Declared → Prop where
  | same (d : Declared) : Preview d d
  | outline (d : Declared) : Preview d.outline d

theorem Declared.Preview.of_decl {d d' : TypeDecl} (h : d.Preview d') (tree : Nat) (scope : FileScope)
    (id : TypeId) : Declared.Preview ⟨tree, scope, d, id⟩ ⟨tree, scope, d', id⟩ := by
  cases h with
  | same => exact .same _
  | outline => exact .outline ⟨tree, scope, d', id⟩

theorem Declared.Preview.scope_eq {d d' : Declared} (h : d.Preview d') : d.scope = d'.scope := by
  cases h <;> rfl

namespace Diagnostic

/-- The diagnostic is reported there, or it is one of syntax and there is one in the same file. -/
def Echoed (d : Diagnostic) (ds : List Diagnostic) : Prop :=
  d ∈ ds ∨ d.code = "IL1001" ∧ ∃ d' ∈ ds, d'.code = d.code ∧ d'.severity = d.severity ∧
    d'.location.map (·.file) = d.location.map (·.file)

/-- Reports about fields that nothing reads and usings that nothing needs. -/
def isUnused (d : Diagnostic) : Bool := d.code == "IL3001" || d.code == "IL4001"

variable {d : Diagnostic} {ds es : List Diagnostic}

theorem Echoed.mono (h : d.Echoed ds) (hes : ds ⊆ es) : d.Echoed es := by
  refine h.imp (fun hd => hes hd) (And.imp_right ?_)
  rintro ⟨d', hd', hsame⟩
  exact ⟨d', hes hd', hsame⟩

/-- Overrides go by the code, and change severities only. -/
theorem override_congr {o : Overrides} {d₀ d₁ : Diagnostic} (h : override o d₀ = some d)
    (hcode : d₁.code = d₀.code) (hseverity : d₁.severity = d₀.severity) :
    d.code = d₀.code ∧ d.location = d₀.location
      ∧ override o d₁ = some { d₁ with severity := d.severity } := by
  obtain ⟨_, message, _, location⟩ := d₁
  cases hcode
  cases hseverity
  rw [override] at h ⊢
  dsimp only
  generalize (o.lookup d₀.code).getD .keep = action at h ⊢
  cases action with
  | suppress => cases h
  | keep | warning | error =>
    cases h
    exact ⟨rfl, rfl, rfl⟩

theorem Echoed.applyOverrides {o : Overrides} (h : ∀ d ∈ ds, d.isUnused = false → d.Echoed es)
    (hd : d ∈ applyOverrides ds o) (hu : d.isUnused = false) :
    d.Echoed (Diagnostic.applyOverrides es o) := by
  obtain ⟨d₀, hd₀, hreport⟩ := List.mem_filterMap.1 hd
  obtain ⟨hcode, hlocation, -⟩ := override_congr hreport rfl rfl
  rcases h d₀ hd₀ (by rwa [isUnused, ← hcode]) with hmem | ⟨hcoded, d₁, hd₁, hcode₁, hseverity, hfile⟩
  · exact .inl (List.mem_filterMap.2 ⟨d₀, hmem, hreport⟩)
  · obtain ⟨-, -, hreport₁⟩ := override_congr hreport hcode₁ hseverity
    refine .inr ⟨hcode.trans hcoded, _, List.mem_filterMap.2 ⟨d₁, hd₁, hreport₁⟩, ?_, rfl, ?_⟩
    · exact hcode₁.trans hcode.symm
    · rw [hlocation]
      exact hfile

end Diagnostic

/-- The same file, before and after it is known what its types render. -/
structure SyntaxTree.Preview (tree tree' : SyntaxTree) : Prop where
  file : tree.file = tree'.file
  ns : tree.ns = tree'.ns
  usings : tree.usings = tree'.usings
  types : List.Forall₂ TypeDecl.Preview tree.types tree'.types
  diagnostics : ∀ d ∈ tree.diagnostics, d.Echoed tree'.diagnostics

namespace SyntaxTree.Preview

variable {tree tree' : SyntaxTree}

theorem refl (tree : SyntaxTree) : tree.Preview tree where
  file := rfl
  ns := rfl
  usings := rfl
  types := List.forall₂_same.2 fun d _ => .same d
  diagnostics _ hd := .inl hd

theorem scope_eq (h : tree.Preview tree') : tree.scope = tree'.scope := by
  rw [scope, scope, h.file, h.ns, h.usings]

theorem outline_eq (h : tree.Preview tree') : tree.outline = tree'.outline := by
  have htypes : tree.types.map (·.outline) = tree'.types.map (·.outline) := by
    rw [← List.forall₂_eq_eq_eq, List.forall₂_map_left_iff, List.forall₂_map_right_iff]
    exact h.types.imp fun _ _ hd => hd.outline_eq
  simp only [outline, h.file, h.ns, h.usings, htypes]

end SyntaxTree.Preview

/-! ## Reports of declarations -/

namespace Checked

variable {α β : Type}

theorem reports_bind_subset {c : Checked α} {f g : α → Checked β}
    (h : (f c.value).findings.reports ⊆ (g c.value).findings.reports) :
    (c >>= f).findings.reports ⊆ (c >>= g).findings.reports :=
  List.append_subset.2 ⟨List.subset_append_left _ _, List.subset_append_of_subset_right _ h⟩

end Checked

namespace SymbolTable

variable (t : SymbolTable) (d : Declared)

theorem reports_header_outline (type : TypeSymbol) :
    (t.header d.outline type).findings.reports ⊆ (t.header d type).findings.reports := by
  rw [header, header]
  cases hrender : d.decl.render with
  | none => exact List.Subset.refl _
  | some block =>
    dsimp only [Declared.outline, TypeDecl.outline]
    cases d.decl.base <;> dsimp only <;> repeat' split
    all_goals
      exact Checked.reports_bind_subset (Checked.reports_bind_subset
        (Checked.reports_bind_subset (List.nil_subset _)))

theorem reports_body_outline : (t.body d.outline).findings.reports ⊆ (t.body d).findings.reports := by
  rw [body, body]
  cases hrender : d.decl.render with
  | none => exact List.Subset.refl _
  | some block =>
    exact Checked.reports_bind_subset (Checked.reports_bind_subset (List.nil_subset _))

theorem announceAll_outline (ds : List Declared) :
    (t.announceAll (ds.map (·.outline))).2 = (t.announceAll ds).2 := by
  induction ds generalizing t with
  | nil => rfl
  | cons d ds ih => exact congrArg ((t.announce d).2 ++ ·) (ih _)

theorem reports_breakCycles_outline (ds : List Declared) :
    (t.breakCycles (ds.map (·.outline))).2 = (t.breakCycles ds).2 := by
  induction ds generalizing t with
  | nil => rfl
  | cons d ds ih => exact congrArg ((t.breakCycle d).2 ++ ·) (ih _)

end SymbolTable

namespace Analysis

variable {refs : List Reference} {trees trees' : List SyntaxTree}

theorem forall₂_zipIdx {α β : Type} {R : α → β → Prop} {xs : List α} {ys : List β}
    (h : List.Forall₂ R xs ys) (n : Nat) :
    List.Forall₂ (fun p q => R p.1 q.1 ∧ p.2 = q.2) (xs.zipIdx n) (ys.zipIdx n) := by
  induction h generalizing n with
  | nil => exact .nil
  | cons hr _ ih => exact .cons ⟨hr, rfl⟩ (ih _)

theorem forall₂_declared (h : List.Forall₂ SyntaxTree.Preview trees trees') :
    List.Forall₂ Declared.Preview (declared refs trees) (declared refs trees') := by
  have hdecls : List.Forall₂ (fun (p q : Nat × FileScope × TypeDecl) =>
        p.1 = q.1 ∧ p.2.1 = q.2.1 ∧ p.2.2.Preview q.2.2)
      (trees.zipIdx.flatMap fun p => p.1.types.map fun decl => (p.2, p.1.scope, decl))
      (trees'.zipIdx.flatMap fun p => p.1.types.map fun decl => (p.2, p.1.scope, decl)) := by
    refine List.rel_flatMap (forall₂_zipIdx h 0) ?_
    rintro ⟨tree, i⟩ ⟨tree', j⟩ ⟨htree, rfl⟩
    exact List.rel_map (fun _ _ hd => ⟨rfl, htree.scope_eq, hd⟩) htree.types
  refine List.rel_map ?_ (forall₂_zipIdx hdecls 0)
  rintro ⟨⟨tree, scope, decl⟩, k⟩ ⟨⟨_, _, decl'⟩, _⟩ ⟨⟨rfl, rfl, hdecl⟩, rfl⟩
  exact .of_decl hdecl _ _ _

theorem forall₂_outline (h : List.Forall₂ SyntaxTree.Preview trees trees') :
    trees.map (·.outline) = trees'.map (·.outline) := by
  rw [← List.forall₂_eq_eq_eq, List.forall₂_map_left_iff, List.forall₂_map_right_iff]
  exact h.imp fun _ _ htree => htree.outline_eq

/-- What is reported of declarations, each in its file. -/
theorem reports_eq {α : Type} (f : Declared → Checked α) (ds : List Declared) :
    ((ds.zip (ds.map f)).flatMap fun (d, c) => c.findings.diagnostics d.scope.file) =
      ds.flatMap fun d => (f d).findings.diagnostics d.scope.file := by
  induction ds with
  | nil => rfl
  | cons d ds ih => rw [List.map_cons, List.zip_cons_cons, List.flatMap_cons, List.flatMap_cons, ih]

/-- More is reported of more. -/
theorem reports_subset {α : Type} {f : Declared → Checked α} {ds ds' : List Declared}
    (hf : ∀ d, (f d.outline).findings.reports ⊆ (f d).findings.reports)
    (h : List.Forall₂ Declared.Preview ds ds') :
    (ds.flatMap fun d => (f d).findings.diagnostics d.scope.file) ⊆
      ds'.flatMap fun d => (f d).findings.diagnostics d.scope.file := by
  induction h with
  | nil => exact List.Subset.refl _
  | cons hd _ ih =>
    rw [List.flatMap_cons, List.flatMap_cons]
    refine List.append_subset.2 ⟨?_, List.subset_append_of_subset_right _ ih⟩
    refine List.subset_append_of_subset_left _ ?_
    cases hd with
    | same => exact List.Subset.refl _
    | outline => exact List.map_subset _ (hf _)

section
variable (refs : List Reference) (trees : List SyntaxTree)

/-- What an analysis reports, but for what is unused. -/
def reported : List Diagnostic :=
  trees.flatMap (·.diagnostics)
    ++ ((SymbolTable.ofReferences refs).announceAll (declared refs trees)).2
    ++ ((declared refs trees).flatMap fun d => ((announced refs trees).header d
      (((announced refs trees).get? d.id).getD default)).findings.diagnostics d.scope.file)
    ++ ((headed refs trees).breakCycles (declared refs trees)).2
    ++ (declared refs trees).flatMap fun d =>
      ((Model.analyze refs trees).table.body d).findings.diagnostics d.scope.file

theorem reported_subset : reported refs trees ⊆ (Model.analyze refs trees).diagnostics := by
  intro d hd
  rw [reported, ← reports_eq, ← reports_eq, analyze_table] at hd
  simp only [Model.analyze]
  exact List.mem_append_left _ (List.mem_append_left _ hd)

theorem mem_reported {d : Diagnostic} (hd : d ∈ (Model.analyze refs trees).diagnostics)
    (hu : d.isUnused = false) : d ∈ reported refs trees := by
  simp only [Model.analyze] at hd
  rcases List.mem_append.1 hd with hd | hd
  · rcases List.mem_append.1 hd with hd | hd
    · rw [reported, ← reports_eq, ← reports_eq, analyze_table]
      exact hd
    · obtain ⟨x, -, hd⟩ := List.mem_flatMap.1 hd
      obtain ⟨_, _, _, rfl⟩ := SymbolTable.exists_of_mem_unreadFields hd
      cases hu
  · obtain ⟨p, -, hd⟩ := List.mem_flatMap.1 hd
    obtain ⟨_, -, rfl⟩ := SyntaxTree.exists_of_mem_unusedUsings hd
    cases hu

end

/-- Every report about declarations is made of them when they render something, too. -/
theorem echoed_reported (refs : List Reference) (h : List.Forall₂ SyntaxTree.Preview trees trees') :
    ∀ d ∈ reported refs trees, d.Echoed (reported refs trees') := by
  have hdeclared := @forall₂_declared refs _ _ h
  have houtline : (declared refs trees).map (·.outline) = (declared refs trees').map (·.outline) := by
    rw [← declared_outline, ← declared_outline, forall₂_outline h]
  have hannounced : announced refs trees = announced refs trees' := by
    rw [← announced_outline, forall₂_outline h, announced_outline]
  have hheaded : headed refs trees = headed refs trees' := by
    rw [← headed_outline, forall₂_outline h, headed_outline]
  have htable : (Model.analyze refs trees).table = (Model.analyze refs trees').table := by
    rw [← table_outline, forall₂_outline h, table_outline]
  have hannounce : ((SymbolTable.ofReferences refs).announceAll (declared refs trees)).2 =
      ((SymbolTable.ofReferences refs).announceAll (declared refs trees')).2 := by
    rw [← SymbolTable.announceAll_outline, houtline, SymbolTable.announceAll_outline]
  have hcycles : ((headed refs trees).breakCycles (declared refs trees)).2 =
      ((headed refs trees').breakCycles (declared refs trees')).2 := by
    rw [← SymbolTable.reports_breakCycles_outline, houtline, SymbolTable.reports_breakCycles_outline,
      hheaded]
  have hheaders := reports_subset (f := fun d => (announced refs trees').header d
    (((announced refs trees').get? d.id).getD default))
    (fun d => SymbolTable.reports_header_outline _ d _) hdeclared
  have hbodies := reports_subset (SymbolTable.reports_body_outline (Model.analyze refs trees').table)
    hdeclared
  intro d hd
  simp only [reported, hannounced, hannounce, hcycles, htable, List.mem_append] at hd
  rcases hd with (((hd | hd) | hd) | hd) | hd
  · obtain ⟨tree, htree, hd⟩ := List.mem_flatMap.1 hd
    obtain ⟨tree', htree', hpreview⟩ := exists_mem_of_forall₂ h.flip tree htree
    refine (hpreview.diagnostics d hd).mono fun d hd => ?_
    simp only [reported, List.mem_append]
    exact .inl (.inl (.inl (.inl (List.mem_flatMap.2 ⟨tree', htree', hd⟩))))
  all_goals
    left
    simp only [reported, List.mem_append]
  · exact .inl (.inl (.inl (.inr hd)))
  · exact .inl (.inl (.inr (hheaders hd)))
  · exact .inl (.inr hd)
  · exact .inr (hbodies hd)

end Analysis

namespace CompilationUnit

variable {u u' : CompilationUnit}

/-- What a unit reports of declarations, it reports of them when they render something, too. -/
theorem echoed_diagnostics (hrefs : u.references = u'.references) (hoptions : u.options = u'.options)
    (htrees : List.Forall₂ SyntaxTree.Preview u.trees u'.trees) {d : Diagnostic}
    (hd : d ∈ u.diagnostics) (hu : d.isUnused = false) : d.Echoed u'.diagnostics := by
  rw [diagnostics, model, hrefs, hoptions] at hd
  refine Diagnostic.Echoed.applyOverrides (fun d hd hu => ?_) hd hu
  have hreported := Analysis.echoed_reported u'.references htrees d (Analysis.mem_reported _ _ hd hu)
  exact hreported.mono (Analysis.reported_subset _ _)

end CompilationUnit

end ViewCompiler
