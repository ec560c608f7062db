import ViewCompiler.Model.Analyze
import ViewCompiler.Proofs.TypeNames

/-!
The table of a unit. Announcing puts the declared types behind those of the references, in the
order of the declarations; headers add members and methods and leave the names alone; breaking
cycles changes bases only. So every name is found in the same place at every stage
(`Analysis.find?_table`), and a unit over closed references whose headers have no error has a closed
table (`Analysis.closed_table`).
-/

namespace ViewCompiler

/-- A set of references in which every member and every parameter has a type that is built in or
among the types of the set. -/
def Reference.Closed (refs : List Reference) : Prop := (SymbolTable.ofReferences refs).Closed

instance (refs : List Reference) : Decidable (Reference.Closed refs) :=
  inferInstanceAs (Decidable (SymbolTable.Closed _))

namespace SymbolTable

variable {t : SymbolTable} {d : Declared}

/-! ## Announcing -/

theorem announceAll_types (t : SymbolTable) (ds : List Declared) :
    (t.announceAll ds).1.types = t.types ++ ds.map fun d => announced d.scope d.decl := by
  induction ds generalizing t with
  | nil => simp [announceAll]
  | cons d ds ih => simp [announceAll, announce, ih, push]

/-! ## Headers -/

theorem headerMembers_length (scope : FileScope) (type : Bytes) (seen : List Bytes)
    (ms : List DataMember) : (t.headerMembers scope type seen ms).value.length = ms.length := by
  induction ms generalizing seen with
  | nil => rfl
  | cons m ms ih =>
    rw [headerMembers]
    split <;> simp only [Checked.value_bind] <;> split <;> simp [ih]

theorem headerParams_length (scope : FileScope) (seen : List Bytes) (ps : List Parameter) :
    (t.headerParams scope seen ps).value.length = ps.length := by
  induction ps generalizing seen with
  | nil => rfl
  | cons p ps ih =>
    rw [headerParams]
    split <;> simp [ih]

theorem headerMethods_length (scope : FileScope) (type : Bytes) (seen : List Bytes)
    (ms : List MethodDecl) : (t.headerMethods scope type seen ms).value.length = ms.length := by
  induction ms generalizing seen with
  | nil => rfl
  | cons m ms ih =>
    rw [headerMethods]
    split <;> simp [ih]

theorem headerMethods_paramNames (scope : FileScope) (type : Bytes) (seen : List Bytes)
    (ms : List MethodDecl) : ∀ f ∈ (t.headerMethods scope type seen ms).value,
      f.paramNames.length = f.paramTypes.length := by
  induction ms generalizing seen with
  | nil => simp [headerMethods]
  | cons m ms ih =>
    rw [headerMethods]
    split <;>
      simpa [headerParams_length] using ih (m.name :: seen)

theorem known_headerMembers {scope : FileScope} {type : Bytes} {seen : List Bytes}
    {ms : List DataMember} (h : (t.headerMembers scope type seen ms).Clean) :
    ∀ m ∈ (t.headerMembers scope type seen ms).value, t.Known m.type := by
  induction ms generalizing seen with
  | nil => simp [headerMembers]
  | cons m ms ih =>
    rw [headerMembers] at h ⊢
    split at h
    · simp [SemanticError.severity] at h
    · next hseen =>
      simp only [Checked.clean_bind, Checked.value_bind, if_neg hseen] at h ⊢
      obtain ⟨href, h⟩ := h
      split at h
      · simp [SemanticError.severity] at h
      · next hinject =>
        simp only [Checked.clean_bind, Checked.clean_pure, and_true] at h
        simp only [if_neg hinject, Checked.value_bind, Checked.value_pure, List.forall_mem_cons]
        exact ⟨known_resolveRef href, ih h⟩

theorem known_headerParams {scope : FileScope} {seen : List Bytes} {ps : List Parameter}
    (h : (t.headerParams scope seen ps).Clean) :
    ∀ p ∈ (t.headerParams scope seen ps).value, t.Known p := by
  induction ps generalizing seen with
  | nil => simp [headerParams]
  | cons p ps ih =>
    rw [headerParams] at h ⊢
    split at h
    · simp [SemanticError.severity] at h
    · next hseen =>
      simp only [Checked.clean_bind, Checked.clean_pure, and_true] at h
      simp only [if_neg hseen, Checked.value_bind, Checked.value_pure, List.forall_mem_cons]
      exact ⟨known_resolveRef h.1, ih h.2⟩

theorem known_headerMethods {scope : FileScope} {type : Bytes} {seen : List Bytes}
    {ms : List MethodDecl} (h : (t.headerMethods scope type seen ms).Clean) :
    ∀ f ∈ (t.headerMethods scope type seen ms).value, ∀ p ∈ f.paramTypes, t.Known p := by
  induction ms generalizing seen with
  | nil => simp [headerMethods]
  | cons m ms ih =>
    rw [headerMethods] at h ⊢
    split at h
    · simp [SemanticError.severity] at h
    · next hseen =>
      simp only [Checked.clean_bind, Checked.clean_pure, and_true] at h
      simp only [if_neg hseen, Checked.value_bind, Checked.value_pure, List.forall_mem_cons]
      exact ⟨known_headerParams h.1, ih h.2⟩

/-- A header resolves the base, the members and the methods, and changes nothing else. -/
theorem header_value (t : SymbolTable) (d : Declared) (type : TypeSymbol) :
    ∃ base, (t.header d type).value = { type with
      base
      members := (t.headerMembers d.scope type.name [] d.decl.members).value
      methods := (t.headerMethods d.scope type.name (d.decl.members.map (·.name))
        d.decl.methods).value } := by
  rw [header]
  cases d.decl.base <;> cases d.decl.render <;> dsimp only
  all_goals
    repeat' split
    all_goals exact ⟨_, rfl⟩

theorem clean_header {type : TypeSymbol} (h : (t.header d type).Clean) :
    (t.headerMembers d.scope type.name [] d.decl.members).Clean ∧
      (t.headerMethods d.scope type.name (d.decl.members.map (·.name)) d.decl.methods).Clean := by
  rw [header] at h
  cases hbase : d.decl.base with
  | none =>
    simp only [hbase] at h
    split at h <;> simp only [Checked.clean_bind] at h
    · exact ⟨h.2.1, h.2.2.1⟩
    · exact ⟨h.2.1, h.2.2.1⟩
  | some ref =>
    simp only [hbase, Checked.clean_bind] at h
    exact ⟨h.2.1, h.2.2.1⟩

/-! ## Cycles -/

end SymbolTable

/-- A symbol without what the breaking of cycles may change. -/
def TypeSymbol.withoutBase (s : TypeSymbol) : TypeSymbol := { s with base := [] }

namespace SymbolTable

/-- Breaking a cycle changes bases only. -/
theorem breakCycle_types (t : SymbolTable) (d : Declared) :
    (t.breakCycle d).1.types.map (·.withoutBase) = t.types.map (·.withoutBase) := by
  rw [breakCycle]
  split
  · next via type _ htype =>
    rw [set, List.map_set]
    apply List.ext_getElem?
    intro i
    rw [List.getElem?_set]
    split
    · next hi =>
      subst hi
      split
      · rw [get?] at htype
        simp [htype, TypeSymbol.withoutBase]
      · next hlt => simp [List.getElem?_eq_none (Nat.le_of_not_lt hlt)]
    · rfl
  · rfl

theorem breakCycles_types (t : SymbolTable) (ds : List Declared) :
    (t.breakCycles ds).1.types.map (·.withoutBase) = t.types.map (·.withoutBase) := by
  induction ds generalizing t with
  | nil => rfl
  | cons d ds ih =>
    rw [breakCycles]
    exact (ih _).trans (breakCycle_types t d)

end SymbolTable

/-- What a type is found by and used as. -/
def TypeSymbol.face (s : TypeSymbol) : Bytes × Bool := (s.fullName, s.isComponent)

theorem SymbolTable.names_of_faces {t u : SymbolTable}
    (h : t.types.map (·.face) = u.types.map (·.face)) :
    t.types.map (·.fullName) = u.types.map (·.fullName) := by
  simpa [Function.comp_def, TypeSymbol.face] using congrArg (List.map Prod.fst) h

/-! ## Reports of the passes -/

namespace SymbolTable

variable {t : SymbolTable} {d : Declared} {ds : List Declared} {r : Diagnostic}

/-- Announcing reports names that are taken and routes of classes. -/
theorem exists_of_mem_announceAll (h : r ∈ (t.announceAll ds).2) : ∃ d ∈ ds, ∃ e : SemanticError,
    (e = .duplicateType d.scope.ns d.decl.name ∨ e = .routeOnClass d.decl.name) ∧
      r = e.diagnostic d.scope.file d.decl.span := by
  induction ds generalizing t with
  | nil => cases h
  | cons d ds ih =>
    rcases List.mem_append.1 h with h | h
    · obtain ⟨e, he, rfl⟩ := List.mem_map.1 h
      refine ⟨d, List.mem_cons_self, e, ?_, rfl⟩
      rcases List.mem_append.1 he with he | he
      · split at he
        · exact .inl (List.mem_singleton.1 he)
        · cases he
      · split at he
        · exact .inr (List.mem_singleton.1 he)
        · cases he
    · obtain ⟨d', hd', hr⟩ := ih h
      exact ⟨d', List.mem_cons_of_mem d hd', hr⟩

/-- Breaking cycles reports circular bases. -/
theorem exists_of_mem_breakCycles (h : r ∈ (t.breakCycles ds).2) : ∃ d ∈ ds, ∃ span type via,
    r = SemanticError.diagnostic d.scope.file span (.circularBase type via) := by
  induction ds generalizing t with
  | nil => cases h
  | cons d ds ih =>
    rcases List.mem_append.1 h with h | h
    · change r ∈ (t.breakCycle d).2 at h
      rw [breakCycle] at h
      split at h
      · exact ⟨d, List.mem_cons_self, _, _, _, List.mem_singleton.1 h⟩
      · cases h
    · obtain ⟨d', hd', hr⟩ := ih h
      exact ⟨d', List.mem_cons_of_mem d hd', hr⟩

theorem exists_of_mem_unreadFields {reads : List MemberId} (h : r ∈ t.unreadFields reads d) :
    ∃ span type field, r = SemanticError.diagnostic d.scope.file span (.neverRead type field) := by
  rw [unreadFields] at h
  split at h
  · cases h
  · obtain ⟨p, -, hp⟩ := List.mem_filterMap.1 h
    dsimp only at hp
    split at hp <;> cases hp
    exact ⟨_, _, _, rfl⟩

end SymbolTable

theorem SyntaxTree.exists_of_mem_unusedUsings {tree : SyntaxTree} {needed : List Bytes}
    {r : Diagnostic} (h : r ∈ tree.unusedUsings needed) : ∃ u ∈ tree.usings,
      r = SemanticError.diagnostic tree.file u.span (.unnecessaryUsing u.ns) := by
  obtain ⟨u, hu, hr⟩ := List.mem_filterMap.1 h
  split at hr <;> cases hr
  exact ⟨u, hu, rfl⟩

/-! ## The stages of an analysis -/

namespace Analysis

section
variable (refs : List Reference) (trees : List SyntaxTree)

def declared : List Declared :=
  declarations (SymbolTable.ofReferences refs).types.length trees

/-- The table with the names of the declared types. -/
def announced : SymbolTable := ((SymbolTable.ofReferences refs).announceAll (declared refs trees)).1

/-- The table with the headers of the declared types. -/
def headed : SymbolTable where
  types := (SymbolTable.ofReferences refs).types ++
    ((announced refs trees).headers (declared refs trees)).map (·.value)

end

variable {refs : List Reference} {trees : List SyntaxTree}

theorem analyze_table : (Model.analyze refs trees).table =
    ((headed refs trees).breakCycles (declared refs trees)).1 := rfl

theorem analyze_types : (Model.analyze refs trees).types =
    (declared refs trees).map fun d => ((Model.analyze refs trees).table.body d).value := by
  simp only [Model.analyze, List.map_map]
  rfl

theorem hasErrors_append (ds es : List Diagnostic) :
    Diagnostic.hasErrors (ds ++ es) = (Diagnostic.hasErrors ds || Diagnostic.hasErrors es) :=
  List.any_append

theorem clean_of_reports {α : Type} {ds : List Declared} {f : Declared → Checked α}
    (h : Diagnostic.hasErrors ((ds.zip (ds.map f)).flatMap fun (d, c) =>
      c.findings.diagnostics d.scope.file) = false) : ∀ d ∈ ds, (f d).Clean := by
  intro d hd
  have hmem : (d, f d) ∈ ds.zip (ds.map f) := by
    obtain ⟨i, hi⟩ := List.getElem?_of_mem hd
    apply List.mem_of_getElem? (i := i)
    rw [List.getElem?_zip_eq_some]
    simp [hi]
  rw [Checked.Clean, Findings.clean_iff_hasErrors d.scope.file]
  rw [Diagnostic.hasErrors, List.any_flatMap, List.any_eq_false] at h
  exact Bool.eq_false_iff.2 (h _ hmem)

/-- Without an error every header and every body is bound without one. -/
theorem clean_of_not_hasErrors (h : (Model.analyze refs trees).hasErrors = false) :
    ∀ d ∈ declared refs trees,
      ((announced refs trees).header d (((announced refs trees).get? d.id).getD default)).Clean ∧
        ((Model.analyze refs trees).table.body d).Clean := by
  rw [Model.hasErrors] at h
  simp only [Model.analyze, hasErrors_append, Bool.or_eq_false_iff] at h
  obtain ⟨⟨⟨⟨⟨_, hheaders⟩, _⟩, hbodies⟩, _⟩, _⟩ := h
  exact fun d hd => ⟨clean_of_reports hheaders d hd, clean_of_reports hbodies d hd⟩

/-! ## The table of the unit -/

theorem id_of_getElem? {first : TypeId} {k : Nat} {d : Declared}
    (h : (declarations first trees)[k]? = some d) : d.id = first + k := by
  rw [declarations, List.getElem?_map, List.getElem?_zipIdx] at h
  obtain ⟨_, hi, rfl⟩ := Option.map_eq_some_iff.1 h
  obtain ⟨_, _, rfl⟩ := Option.map_eq_some_iff.1 hi
  simp

theorem announced_types : (announced refs trees).types = (SymbolTable.ofReferences refs).types ++
    (declared refs trees).map fun d => SymbolTable.announced d.scope d.decl :=
  SymbolTable.announceAll_types _ _

theorem get?_announced {d : Declared} (hd : d ∈ declared refs trees) :
    (announced refs trees).get? d.id = some (SymbolTable.announced d.scope d.decl) := by
  obtain ⟨k, hk⟩ := List.getElem?_of_mem hd
  rw [SymbolTable.get?, announced_types, id_of_getElem? hk,
    List.getElem?_append_right (Nat.le_add_right _ _), Nat.add_sub_cancel_left, List.getElem?_map,
    hk]
  rfl

/-- The symbol that the header of a declaration gives. -/
theorem get?_headed {d : Declared} (hd : d ∈ declared refs trees) :
    (headed refs trees).get? d.id =
      some ((announced refs trees).header d (SymbolTable.announced d.scope d.decl)).value := by
  obtain ⟨k, hk⟩ := List.getElem?_of_mem hd
  rw [headed, SymbolTable.get?, SymbolTable.headers, id_of_getElem? hk,
    List.getElem?_append_right (Nat.le_add_right _ _), Nat.add_sub_cancel_left, List.getElem?_map,
    List.getElem?_map, hk]
  simp [get?_announced hd]

theorem get?_table {id : TypeId} {s : TypeSymbol} (h : (headed refs trees).get? id = some s) :
    ∃ base, (Model.analyze refs trees).table.get? id = some { s with base } := by
  have h' := congrArg (·[id]?) (SymbolTable.breakCycles_types (headed refs trees)
    (declared refs trees))
  rw [SymbolTable.get?] at h
  simp only [List.getElem?_map, h, Option.map_some] at h'
  obtain ⟨u, hu, hus⟩ := Option.map_eq_some_iff.1 h'
  refine ⟨u.base, ?_⟩
  rw [analyze_table, SymbolTable.get?, hu]
  cases u
  cases s
  simp_all [TypeSymbol.withoutBase]

/-- The symbol of a declared type has what its header resolves; of its base it is not said what it is. -/
theorem get?_declared {d : Declared} (hd : d ∈ declared refs trees) :
    ∃ base, (Model.analyze refs trees).table.get? d.id = some { SymbolTable.announced d.scope d.decl with
      base
      members := ((announced refs trees).headerMembers d.scope d.decl.name [] d.decl.members).value
      methods := ((announced refs trees).headerMethods d.scope d.decl.name (d.decl.members.map (·.name))
        d.decl.methods).value } := by
  obtain ⟨base, htable⟩ := get?_table (get?_headed hd)
  obtain ⟨_, hvalue⟩ := (announced refs trees).header_value d (SymbolTable.announced d.scope d.decl)
  rw [hvalue] at htable
  exact ⟨base, htable⟩

theorem faces_headed : (headed refs trees).types.map (·.face) =
    (announced refs trees).types.map (·.face) := by
  rw [announced_types, headed, List.map_append, List.map_append, SymbolTable.headers]
  simp only [List.map_map, List.append_cancel_left_eq, List.map_inj_left, Function.comp_apply]
  intro d hd
  rw [get?_announced hd, Option.getD_some]
  obtain ⟨base, h⟩ := (announced refs trees).header_value d (SymbolTable.announced d.scope d.decl)
  rw [h]
  rfl

theorem faces_table : (Model.analyze refs trees).table.types.map (·.face) =
    (announced refs trees).types.map (·.face) := by
  have h := congrArg (List.map (·.face)) (SymbolTable.breakCycles_types (headed refs trees)
    (declared refs trees))
  rw [List.map_map, List.map_map] at h
  exact h.trans faces_headed

theorem names_table : (Model.analyze refs trees).table.types.map (·.fullName) =
    (announced refs trees).types.map (·.fullName) := SymbolTable.names_of_faces faces_table

/-- A name means the same type before and after the headers are resolved. -/
theorem find?_table (name : Bytes) :
    (Model.analyze refs trees).table.find? name = (announced refs trees).find? name :=
  SymbolTable.find?_congr names_table

theorem known_table {name : Bytes} :
    (Model.analyze refs trees).table.Known name ↔ (announced refs trees).Known name := by
  rw [SymbolTable.Known, SymbolTable.Known, find?_table]

theorem known_announced {name : Bytes} (h : (SymbolTable.ofReferences refs).Known name) :
    (announced refs trees).Known name := by
  refine h.imp_right fun h => ?_
  obtain ⟨id, hid⟩ := Option.isSome_iff_exists.1 h
  have happend := SymbolTable.find?_append hid
    ((declared refs trees).map fun d => SymbolTable.announced d.scope d.decl)
  rw [← announced_types] at happend
  exact Option.isSome_iff_exists.2 ⟨id, happend⟩

/-- Every type of the table is a type of the references or has the header of a declaration, but
for its base. -/
theorem mem_table {s : TypeSymbol} (hs : s ∈ (Model.analyze refs trees).table.types) :
    (∃ r ∈ (SymbolTable.ofReferences refs).types, s.withoutBase = r.withoutBase) ∨
      ∃ d ∈ declared refs trees, s.withoutBase = TypeSymbol.withoutBase
        ((announced refs trees).header d (SymbolTable.announced d.scope d.decl)).value := by
  have h : s.withoutBase ∈ (headed refs trees).types.map (·.withoutBase) := by
    rw [← SymbolTable.breakCycles_types (headed refs trees) (declared refs trees)]
    exact List.mem_map.2 ⟨s, hs, rfl⟩
  rw [headed, List.map_append, List.mem_append] at h
  rcases h with h | h
  · obtain ⟨r, hr, heq⟩ := List.mem_map.1 h
    exact .inl ⟨r, hr, heq.symm⟩
  · rw [List.map_map, SymbolTable.headers, List.map_map] at h
    obtain ⟨d, hd, heq⟩ := List.mem_map.1 h
    refine .inr ⟨d, hd, ?_⟩
    simpa [get?_announced hd] using heq.symm

/-- A unit over closed references has a closed table when its headers are resolved without an
error. -/
theorem closed_table (hrefs : Reference.Closed refs)
    (hheaders : ∀ d ∈ declared refs trees,
      ((announced refs trees).header d (SymbolTable.announced d.scope d.decl)).Clean) :
    (Model.analyze refs trees).table.Closed := by
  suffices h : ∀ s ∈ (Model.analyze refs trees).table.types,
      (∀ m ∈ s.members, (announced refs trees).Known m.type) ∧
        ∀ f ∈ s.methods, ∀ p ∈ f.paramTypes, (announced refs trees).Known p by
    exact ⟨fun s hs m hm => known_table.2 ((h s hs).1 m hm),
      fun s hs f hf p hp => known_table.2 ((h s hs).2 f hf p hp)⟩
  intro s hs
  rcases mem_table hs with ⟨r, hr, heq⟩ | ⟨d, hd, heq⟩
  · have hmembers : s.members = r.members := congrArg (·.members) heq
    have hmethods : s.methods = r.methods := congrArg (·.methods) heq
    rw [hmembers, hmethods]
    exact ⟨fun m hm => known_announced (hrefs.member r hr m hm),
      fun f hf p hp => known_announced (hrefs.param r hr f hf p hp)⟩
  · obtain ⟨base, hvalue⟩ := (announced refs trees).header_value d
      (SymbolTable.announced d.scope d.decl)
    obtain ⟨hmembers, hmethods⟩ := SymbolTable.clean_header (hheaders d hd)
    rw [hvalue] at heq
    have hm : s.members = _ := congrArg (·.members) heq
    have hf : s.methods = _ := congrArg (·.methods) heq
    rw [hm, hf]
    exact ⟨SymbolTable.known_headerMembers hmembers, SymbolTable.known_headerMethods hmethods⟩

end Analysis

end ViewCompiler
