import ViewCompiler.Proofs.NamedMethods

/-!
Names of a unit without errors. Each declared type is the only one of its full name, its methods
have names of their own, and only components render. `Model.WellNamed` puts together what the
symbols of a module rest on.
-/

namespace ViewCompiler

namespace SymbolTable

variable {t : SymbolTable}

/-! ## Full names -/

/-- Types that are announced without an error have full names of their own. -/
theorem nodup_announceAll {ds : List Declared}
    (h : Diagnostic.hasErrors (t.announceAll ds).2 = false) :
    (ds.map fun d => (announced d.scope d.decl).fullName).Nodup ∧
      ∀ d ∈ ds, (announced d.scope d.decl).fullName ∉ t.types.map (·.fullName) := by
  induction ds generalizing t with
  | nil => simp
  | cons d ds ih =>
    simp only [announceAll, announce, Analysis.hasErrors_append, Bool.or_eq_false_iff,
      List.map_append] at h
    obtain ⟨⟨hdup, -⟩, hrest⟩ := h
    obtain ⟨hnodup, hfresh⟩ := ih hrest
    simp only [push, List.map_append, List.map_cons, List.map_nil, List.mem_append,
      List.mem_singleton, not_or] at hfresh
    refine ⟨?_, List.forall_mem_cons.2 ⟨fun hmem => ?_, fun e he => (hfresh e he).1⟩⟩
    · refine List.nodup_cons.2 ⟨fun hmem => ?_, hnodup⟩
      obtain ⟨e, he, heq⟩ := List.mem_map.1 hmem
      exact (hfresh e he).2 heq
    · obtain ⟨s, hs, heq⟩ := List.mem_map.1 hmem
      have hfind : (t.find? (announced d.scope d.decl).fullName).isSome := by
        rw [find?, List.findIdx?_isSome, List.any_eq_true]
        exact ⟨s, hs, by simpa using heq⟩
      simp [hfind, Diagnostic.hasErrors, Diagnostic.isError, SemanticError.diagnostic,
        Diagnostic.located, SemanticError.severity] at hdup

/-! ## Headers -/

theorem headerMethods_names (scope : FileScope) (type : Bytes) (seen : List Bytes)
    (ms : List MethodDecl) :
    (t.headerMethods scope type seen ms).value.map (·.name) = ms.map (·.name) := by
  induction ms generalizing seen with
  | nil => rfl
  | cons m ms ih =>
    rw [headerMethods]
    split <;> simp [ih]

/-- Methods that are declared without an error have names of their own. -/
theorem nodup_headerMethods {scope : FileScope} {type : Bytes} {seen : List Bytes}
    {ms : List MethodDecl} (h : (t.headerMethods scope type seen ms).Clean) :
    (ms.map (·.name)).Nodup ∧ ∀ m ∈ ms, m.name ∉ seen := by
  induction ms generalizing seen with
  | nil => simp
  | cons m ms ih =>
    rw [headerMethods] at h
    split at h
    · simp [SemanticError.severity] at h
    · next hseen =>
      simp only [Checked.clean_bind, Checked.clean_pure, and_true] at h
      obtain ⟨hnodup, hfresh⟩ := ih h.2
      refine ⟨List.nodup_cons.2 ⟨fun hmem => ?_, hnodup⟩, List.forall_mem_cons.2 ⟨hseen, ?_⟩⟩
      · obtain ⟨n, hn, heq⟩ := List.mem_map.1 hmem
        exact hfresh n hn (heq ▸ List.mem_cons_self)
      · exact fun n hn hmem => hfresh n hn (List.mem_cons_of_mem _ hmem)

/-- Only components render. -/
theorem kind_of_clean_header {d : Declared} {type : TypeSymbol} (h : (t.header d type).Clean)
    (hrender : d.decl.render.isSome) : type.kind = .component := by
  obtain ⟨block, hblock⟩ := Option.isSome_iff_exists.1 hrender
  by_contra hkind
  rw [header] at h
  simp only [hblock, if_pos hkind] at h
  cases hbase : d.decl.base with
  | none =>
    simp only [hbase] at h
    split at h <;> simp [SemanticError.severity] at h
  | some ref => simp [hbase, SemanticError.severity] at h

theorem isSome_render_body (t : SymbolTable) (d : Declared) :
    (t.body d).value.render.isSome = d.decl.render.isSome := by
  cases hrender : d.decl.render <;> simp [body, hrender]

end SymbolTable

/-! ## Declared types -/

/-- What the symbols of the declared types rest on. -/
structure BoundType.WellNamed (table : SymbolTable) (t : BoundType) (type : TypeSymbol) : Prop where
  alone : ∀ {id s}, table.get? id = some s → s.fullName = type.fullName → id = t.id
  words : ∀ f ∈ type.methods, f.name.IsWord
  methods : (type.methods.map (·.name)).Nodup
  render : t.render.isSome → type.isComponent
  names : t.Names table.Named

/-- All declared types are known by their names. -/
structure Model.WellNamed (m : Model) : Prop where
  ids : (m.types.map (·.id)).Nodup
  types : ∀ t ∈ m.types, ∃ type, m.table.get? t.id = some type ∧ t.WellNamed m.table type

theorem Model.WellNamed.of_get? {m : Model} (h : m.WellNamed) {t : BoundType} (ht : t ∈ m.types)
    {type : TypeSymbol} (htype : m.table.get? t.id = some type) : t.WellNamed m.table type := by
  obtain ⟨type', htype', hnamed⟩ := h.types t ht
  cases htype.symm.trans htype'
  exact hnamed

namespace Analysis

variable {refs : List Reference} {trees : List SyntaxTree}

theorem nodup_of_not_hasErrors (h : (Model.analyze refs trees).hasErrors = false) :
    ((declared refs trees).map fun d => (SymbolTable.announced d.scope d.decl).fullName).Nodup ∧
      ∀ d ∈ declared refs trees, (SymbolTable.announced d.scope d.decl).fullName ∉
        (SymbolTable.ofReferences refs).types.map (·.fullName) := by
  rw [Model.hasErrors] at h
  simp only [Model.analyze, hasErrors_append, Bool.or_eq_false_iff] at h
  exact SymbolTable.nodup_announceAll h.1.1.1.1.1.2

/-- Without an error a declared type is the only one of its full name. -/
theorem eq_id_of_fullName (h : (Model.analyze refs trees).hasErrors = false) {d : Declared}
    (hd : d ∈ declared refs trees) {id : TypeId} {s : TypeSymbol}
    (hs : (Model.analyze refs trees).table.get? id = some s)
    (heq : s.fullName = (SymbolTable.announced d.scope d.decl).fullName) : id = d.id := by
  obtain ⟨hnodup, hfresh⟩ := nodup_of_not_hasErrors h
  obtain ⟨k, hk⟩ := List.getElem?_of_mem hd
  have hname : ((announced refs trees).types.map (·.fullName))[id]? = some s.fullName := by
    rw [← names_table, List.getElem?_map, ← SymbolTable.get?, hs, Option.map_some]
  rw [List.getElem?_map, announced_types] at hname
  obtain ⟨u, hu, hus⟩ := Option.map_eq_some_iff.1 hname
  rcases Nat.lt_or_ge id (SymbolTable.ofReferences refs).types.length with hlt | hge
  · rw [List.getElem?_append_left hlt] at hu
    exact absurd (List.mem_map.2 ⟨u, List.mem_of_getElem? hu, hus.trans heq⟩) (hfresh d hd)
  · rw [List.getElem?_append_right hge, List.getElem?_map] at hu
    obtain ⟨e, he, rfl⟩ := Option.map_eq_some_iff.1 hu
    have hindex : id - (SymbolTable.ofReferences refs).types.length = k := by
      refine (List.getElem?_inj ?_ hnodup).1 ?_
      · simpa using (List.getElem?_eq_some_iff.1 he).1
      · rw [List.getElem?_map, List.getElem?_map, he, hk, Option.map_some, Option.map_some, hus, heq]
    rw [id_of_getElem? hk, ← hindex]
    exact (Nat.add_sub_of_le hge).symm

/-- The symbol of a declared type. -/
theorem exists_symbol {d : Declared} (hd : d ∈ declared refs trees) :
    ∃ type, (Model.analyze refs trees).table.get? d.id = some type ∧
      type.face = (SymbolTable.announced d.scope d.decl).face ∧
      type.methods = ((announced refs trees).headerMethods d.scope d.decl.name
        (d.decl.members.map (·.name)) d.decl.methods).value := by
  obtain ⟨base, htable⟩ := get?_declared hd
  exact ⟨_, htable, rfl, rfl⟩

/-- Methods of the types of parsed files are named by words. -/
theorem isWord_of_mem_methods (htrees : ∀ tree ∈ trees, ∀ d ∈ tree.types, d.Worded) {d : Declared}
    (hd : d ∈ declared refs trees) {type : TypeSymbol}
    (htype : (Model.analyze refs trees).table.get? d.id = some type) {f : MethodSymbol}
    (hf : f ∈ type.methods) : f.name.IsWord := by
  obtain ⟨type', htype', -, hmethods⟩ := exists_symbol hd
  obtain rfl := Option.some.inj (htype.symm.trans htype')
  obtain ⟨tree, htree, -, hdecl⟩ := exists_tree hd
  have hmem : f.name ∈ d.decl.methods.map (·.name) := by
    rw [hmethods] at hf
    rw [← SymbolTable.headerMethods_names]
    exact List.mem_map_of_mem hf
  obtain ⟨m, hm, heq⟩ := List.mem_map.1 hmem
  exact heq ▸ ((htrees tree htree _ hdecl).methods m hm).1

theorem nodup_ids (refs : List Reference) (trees : List SyntaxTree) :
    ((declared refs trees).map (·.id)).Nodup := by
  have hids : (declared refs trees).map (·.id) =
      List.range' (SymbolTable.ofReferences refs).types.length (declared refs trees).length := by
    refine List.ext_getElem (by simp) fun k hk _ => ?_
    rw [List.length_map] at hk
    rw [List.getElem_map, List.getElem_range', Nat.one_mul]
    exact id_of_getElem? (List.getElem?_eq_getElem hk)
  rw [hids]
  exact List.nodup_range'

end Analysis

/-- A type that is the only one of its full name is found by it. -/
theorem SymbolTable.found_of_alone {t : SymbolTable} {id : TypeId} {type : TypeSymbol}
    (htype : t.get? id = some type)
    (h : ∀ {j s}, t.get? j = some s → s.fullName = type.fullName → j = id) : t.Found id := by
  have hsome : (t.find? type.fullName).isSome := by
    rw [find?, List.findIdx?_isSome, List.any_eq_true]
    exact ⟨type, List.mem_of_getElem? htype, by simp⟩
  obtain ⟨j, hj⟩ := Option.isSome_iff_exists.1 hsome
  obtain ⟨s, hs, hsname⟩ := get?_of_find? hj
  rw [Found, nameOf_of_get? htype, hj, h hs hsname]

open Analysis in
/-- Without an error the types of parsed files are known by their names. -/
theorem Model.wellNamed_analyze {refs : List Reference} {trees : List SyntaxTree}
    (htrees : ∀ tree ∈ trees, ∀ d ∈ tree.types, d.Worded)
    (h : (Model.analyze refs trees).hasErrors = false) : (Model.analyze refs trees).WellNamed := by
  constructor
  · rw [analyze_types, List.map_map]
    refine Eq.mp (congrArg List.Nodup (List.map_congr_left fun d _ => ?_)) (nodup_ids refs trees)
    exact (SymbolTable.body_id _ d).symm
  intro t ht
  rw [analyze_types] at ht
  obtain ⟨d, hd, rfl⟩ := List.mem_map.1 ht
  obtain ⟨type, htype, hface, hmethods⟩ := exists_symbol hd
  obtain ⟨hname, hkind⟩ := Prod.mk.inj hface
  obtain ⟨tree, htree, -, hdecl⟩ := exists_tree hd
  have hworded := htrees tree htree _ hdecl
  have hheader := (clean_of_not_hasErrors h d hd).1
  rw [get?_announced hd, Option.getD_some] at hheader
  have halone {id : TypeId} {s : TypeSymbol}
      (hs : (Model.analyze refs trees).table.get? id = some s)
      (heq : s.fullName = type.fullName) : id = d.id := eq_id_of_fullName h hd hs (heq.trans hname)
  rw [SymbolTable.body_id]
  refine ⟨type, htype, ?_, ?_, ?_, ?_, ?_⟩
  · intro id s hs heq
    rw [SymbolTable.body_id]
    exact halone hs heq
  · exact fun f hf => isWord_of_mem_methods htrees hd htype hf
  · rw [hmethods, SymbolTable.headerMethods_names]
    exact (SymbolTable.nodup_headerMethods (SymbolTable.clean_header hheader).2).1
  · rw [SymbolTable.isSome_render_body, hkind]
    intro hrender
    exact beq_iff_eq.2 (SymbolTable.kind_of_clean_header hheader hrender)
  · exact SymbolTable.names_body (SymbolTable.found_of_alone htype halone) hworded

end ViewCompiler
