import ViewCompiler.Unit
import ViewCompiler.Proofs.Inheritance
import ViewCompiler.Proofs.LegibleModules

/-!
Units that are compiled against each other. A unit that refers to another one sees its types at the
places that they have there, with the same bases, so names mean the same members and methods and
objects look the same (`SymbolTable.Continues`). All that such a unit takes from elsewhere for a type
of the other is defined there (`CompilationUnit.agrees_reference`).
-/

namespace ViewCompiler

/-- A symbol without the name of the library that it comes from. -/
def TypeSymbol.withoutLibrary (s : TypeSymbol) : TypeSymbol := { s with library := [] }

namespace SymbolTable

open Relation (TransGen)

variable {t u w : SymbolTable} {id b : TypeId} {name : Bytes}

/-! ## Longer tables -/

/-- The second table begins with the types of the first, which need no others as bases. Which library
a type comes from does not matter. -/
structure Continues (t u : SymbolTable) : Prop where
  types : t.types.map (·.withoutLibrary) <+: u.types.map (·.withoutLibrary)
  bases : ∀ s ∈ t.types, s.base ≠ [] → (t.find? s.base).isSome

namespace Continues

/-- What is read from a symbol is the same in both tables, unless it is the library. -/
theorem bind_get? (h : t.Continues u) (hid : id < t.types.length) {α : Type}
    {f : TypeSymbol → Option α} (hf : ∀ s, f s.withoutLibrary = f s) :
    (u.get? id).bind f = (t.get? id).bind f := by
  obtain ⟨rest, hrest⟩ := h.types
  have hsame : (u.types.map (·.withoutLibrary))[id]? = (t.types.map (·.withoutLibrary))[id]? := by
    rw [← hrest, List.getElem?_append_left (by simpa using hid)]
  rw [List.getElem?_map, List.getElem?_map] at hsame
  have hread (s : Option TypeSymbol) : s.bind f = (s.map (·.withoutLibrary)).bind f := by
    cases s with
    | none => rfl
    | some s => exact (hf s).symm
  rw [hread, hread (t.get? id), get?, get?, hsame]

theorem map_get? (h : t.Continues u) (hid : id < t.types.length) {α : Type} {f : TypeSymbol → α}
    (hf : ∀ s, f s.withoutLibrary = f s) : (u.get? id).map f = (t.get? id).map f := by
  rw [Option.map_eq_bind, Option.map_eq_bind]
  exact h.bind_get? hid fun s => congrArg some (hf s)

theorem find? (h : t.Continues u) (hfind : t.find? name = some id) : u.find? name = some id := by
  obtain ⟨rest, hrest⟩ := h.types
  have hnames : u.types.map (·.fullName) = t.types.map (·.fullName) ++ rest.map (·.fullName) := by
    have hnames := congrArg (List.map (·.fullName)) hrest
    rw [List.map_append, List.map_map, List.map_map] at hnames
    exact hnames.symm
  rw [find?_eq_findIdx?] at hfind ⊢
  rw [hnames, List.findIdx?_append, hfind]
  rfl

/-! ### Bases -/

/-- Types of the first table have the same bases in both. -/
theorem base?_eq (h : t.Continues u) (hid : id < t.types.length) : u.base? id = t.base? id := by
  have hs : t.get? id = some t.types[id] := List.getElem?_eq_getElem hid
  have hbase : (u.get? id).map (·.base) = some t.types[id].base := by
    rw [h.map_get? hid fun _ => rfl, hs, Option.map_some]
  obtain ⟨s, hs', hsame⟩ := Option.map_eq_some_iff.1 hbase
  rw [base?, base?, hs, hs', Option.bind_some, Option.bind_some, hsame]
  split
  · rfl
  · next hne =>
    obtain ⟨b, hb⟩ := Option.isSome_iff_exists.1 (h.bases _ (List.getElem_mem hid) hne)
    rw [hb, h.find? hb]

theorem extends_iff (h : t.Continues u) (hid : id < t.types.length) :
    u.Extends id b ↔ t.Extends id b := by
  rw [Extends, Extends, h.base?_eq hid]

theorem chain (h : t.Continues u) {seen bs : List TypeId} (hid : id < t.types.length)
    (hchain : t.Chain seen id bs) : u.Chain seen id bs := by
  induction hchain with
  | stop hstop => exact .stop fun b hb => hstop b ((h.extends_iff hid).1 hb)
  | step hext hb _ ih => exact .step ((h.extends_iff hid).2 hext) hb (ih hext.lt_right)

theorem lineage_eq (h : t.Continues u) (hid : id < t.types.length) :
    u.lineage id = t.lineage id := by
  rw [lineage, lineage, (u.chain_bases id).unique (h.chain hid (t.chain_bases id))]

end Continues

theorem lt_of_mem_lineage (hid : id < t.types.length) (hb : b ∈ t.lineage id) :
    b < t.types.length := by
  rcases List.mem_cons.1 hb with rfl | hb
  · exact hid
  · obtain ⟨_, hs, -⟩ := get?_of_find? (found_basesFrom _ _ _ b hb)
    exact lt_of_get? hs

namespace Continues

/-! ### Members and methods -/

theorem member?_eq (h : t.Continues u) {m : MemberId} (hid : m.owner < t.types.length) :
    u.member? m = t.member? m := h.bind_get? hid fun _ => rfl

theorem method?_eq (h : t.Continues u) {m : MethodId} (hid : m.owner < t.types.length) :
    u.method? m = t.method? m := h.bind_get? hid fun _ => rfl

theorem layout_eq (h : t.Continues u) (hid : id < t.types.length) :
    u.layout id = t.layout id := by
  rw [layout, layout, h.lineage_eq hid]
  apply List.flatMap_congr
  intro owner howner
  have hlt := lt_of_mem_lineage hid (List.mem_reverse.1 howner)
  rw [h.map_get? hlt fun _ => rfl]

/-- A name is looked up in the same types, with the same result. -/
theorem findSome?_lineage (h : t.Continues u) (hid : id < t.types.length) {α : Type}
    {f : TypeSymbol → Option Nat} (hf : ∀ s, f s.withoutLibrary = f s) (make : TypeId → Nat → α) :
    ((u.lineage id).findSome? fun owner => ((u.get? owner).bind f).map (make owner)) =
      (t.lineage id).findSome? fun owner => ((t.get? owner).bind f).map (make owner) := by
  have howners := fun owner => t.lt_of_mem_lineage (b := owner) hid
  rw [h.lineage_eq hid]
  generalize t.lineage id = owners at howners
  induction owners with
  | nil => rfl
  | cons owner owners ih =>
    rw [List.findSome?_cons, List.findSome?_cons, h.bind_get? (howners owner List.mem_cons_self) hf,
      ih fun owner howner => howners owner (List.mem_cons_of_mem _ howner)]

theorem findMember?_eq (h : t.Continues u) (hid : id < t.types.length) (name : Bytes) :
    u.findMember? id name = t.findMember? id name :=
  h.findSome?_lineage hid (f := (·.ownMember? name)) (fun _ => rfl) MemberId.mk

theorem findMethod?_eq (h : t.Continues u) (hid : id < t.types.length) (name : Bytes) :
    u.findMethod? id name = t.findMethod? id name :=
  h.findSome?_lineage hid (f := (·.ownMethod? name)) (fun _ => rfl) MethodId.mk

end Continues

/-- A type is the same in both tables: it is found by the same name, its objects have the same data
members, and names mean the same on it. -/
structure AgreesOn (t u : SymbolTable) (id : TypeId) : Prop where
  found : u.find? (t.nameOf id) = some id
  layout : (u.layout id).map u.member? = (t.layout id).map t.member?
  member : ∀ name, u.findMember? id name = t.findMember? id name ∧
    (u.findMember? id name).bind u.member? = (t.findMember? id name).bind t.member?
  method : ∀ name, u.findMethod? id name = t.findMethod? id name ∧
    (u.findMethod? id name).bind u.method? = (t.findMethod? id name).bind t.method?

theorem Continues.agreesOn (h : t.Continues u) (hfound : t.Found id) : t.AgreesOn u id := by
  obtain ⟨_, hs, -⟩ := get?_of_find? hfound
  have hid := lt_of_get? hs
  refine ⟨h.find? hfound, ?_, ?_, ?_⟩
  · rw [h.layout_eq hid]
    apply List.map_congr_left
    intro m hm
    exact h.member?_eq (lt_of_mem_lineage hid (mem_layout.1 hm).1)
  · intro name
    refine ⟨h.findMember?_eq hid name, ?_⟩
    rw [h.findMember?_eq hid name]
    apply Option.bind_congr
    intro m hm
    exact h.member?_eq (lt_of_mem_lineage hid (mem_layout.1 (mem_layout_of_findMember? hm)).1)
  · intro name
    refine ⟨h.findMethod?_eq hid name, ?_⟩
    rw [h.findMethod?_eq hid name]
    apply Option.bind_congr
    intro m hm
    exact h.method?_eq (lt_of_mem_lineage hid (method?_of_findMethod? hm).1)

/-- Closed tables are told by names, members and methods. -/
theorem Closed.of_withoutLibrary (h : t.Closed)
    (hsame : t.types.map (·.withoutLibrary) = u.types.map (·.withoutLibrary)) : u.Closed := by
  have hnames : t.types.map (·.fullName) = u.types.map (·.fullName) := by
    have hnames := congrArg (List.map (·.fullName)) hsame
    rw [List.map_map, List.map_map] at hnames
    exact hnames
  have hknown {name : Bytes} : t.Known name → u.Known name := by
    rw [Known, Known, find?_congr hnames]
    exact fun h => h
  have hmem {s : TypeSymbol} (hs : s ∈ u.types) :
      ∃ s' ∈ t.types, s'.withoutLibrary = s.withoutLibrary := by
    have hs : s.withoutLibrary ∈ t.types.map (·.withoutLibrary) := hsame ▸ List.mem_map_of_mem hs
    exact List.mem_map.1 hs
  constructor
  · intro s hs m hm
    obtain ⟨s', hs', heq⟩ := hmem hs
    have hmembers : s'.members = s.members := congrArg (·.members) heq
    exact hknown (h.member s' hs' m (hmembers ▸ hm))
  · intro s hs f hf p hp
    obtain ⟨s', hs', heq⟩ := hmem hs
    have hmethods : s'.methods = s.methods := congrArg (·.methods) heq
    exact hknown (h.param s' hs' f (hmethods ▸ hf) p hp)

/-! ## Headers and cycles -/

/-- What a written type name is resolved to is found by its full name. -/
theorem found_of_resolveType {scope : FileScope} {span : Span}
    (h : (t.resolveType scope name span).value = some id) : t.Found id := by
  rw [resolveType] at h
  split at h
  · cases h
  · split at h
    · cases h
    · next b hresolve =>
      have hvalue : b = id := by split at h <;> exact Option.some.inj h
      obtain ⟨_, hfind⟩ := find?_of_resolve hresolve
      exact hvalue ▸ find?_nameOf hfind

/-- The name of a base that can be found, or of none. -/
def IsBase (t : SymbolTable) (base : Bytes) : Prop := base ≠ [] → (t.find? base).isSome

instance (t : SymbolTable) (base : Bytes) : Decidable (t.IsBase base) :=
  inferInstanceAs (Decidable (_ → _))

theorem isBase_headerBase (d : Declared) (type : TypeSymbol) (ref : TypeRef) :
    t.IsBase (t.headerBase d type ref).value := by
  rw [headerBase]
  split
  · exact fun hne => absurd rfl hne
  · rw [Checked.value_bind]
    split
    · exact fun hne => absurd rfl hne
    · next hvalue =>
      split
      · exact fun hne => absurd rfl hne
      · split
        · exact fun hne => absurd rfl hne
        · intro _
          exact Option.isSome_iff_exists.2 ⟨_, found_of_resolveType hvalue⟩

theorem isBase_header (d : Declared) (type : TypeSymbol) :
    t.IsBase (t.header d type).value.base := by
  have hnone : t.IsBase [] := fun hne => absurd rfl hne
  -- Whether there is a render block changes what is reported only.
  rw [header]
  cases d.decl.base with
  | some ref =>
    have hbase := isBase_headerBase d type ref (t := t)
    cases d.decl.render with
    | none => exact hbase
    | some block =>
      dsimp only
      split <;> exact hbase
  | none =>
    dsimp only
    split
    · next h =>
      have hbase : t.IsBase defaultComponentBase := fun _ => h.2.2
      cases d.decl.render with
      | none => exact hbase
      | some block =>
        dsimp only
        split <;> exact hbase
    · cases d.decl.render with
      | none => exact hnone
      | some block =>
        dsimp only
        split <;> exact hnone

/-- When a cycle is broken, types keep their bases or lose them. -/
theorem get?_of_breakCycle {d : Declared} {s : TypeSymbol}
    (h : (t.breakCycle d).1.get? id = some s) : s.base = [] ∨ t.get? id = some s := by
  rw [breakCycle] at h
  split at h
  · rw [get?, set, List.getElem?_set] at h
    split at h
    · split at h
      · cases h
        exact .inl rfl
      · cases h
    · exact .inr h
  · exact .inr h

theorem get?_of_breakCycles {ds : List Declared} {s : TypeSymbol}
    (h : (t.breakCycles ds).1.get? id = some s) : s.base = [] ∨ t.get? id = some s := by
  induction ds generalizing t with
  | nil => exact .inr h
  | cons d ds ih =>
    rcases ih h with hbase | hs
    · exact .inl hbase
    · exact get?_of_breakCycle hs

/-- Types that are not declared stay as they are. -/
theorem get?_breakCycles {ds : List Declared} (h : ∀ d ∈ ds, d.id ≠ id) :
    (t.breakCycles ds).1.get? id = t.get? id := by
  induction ds generalizing t with
  | nil => rfl
  | cons d ds ih =>
    obtain ⟨hd, hds⟩ := List.forall_mem_cons.1 h
    exact (ih hds).trans (get?_breakCycle hd.symm)

end SymbolTable

/-! ## Exported types -/

/-- A set of references in which every base is among the types of the set. -/
def Reference.Based (refs : List Reference) : Prop :=
  ∀ s ∈ (SymbolTable.ofReferences refs).types, (SymbolTable.ofReferences refs).IsBase s.base

instance (refs : List Reference) : Decidable (Reference.Based refs) :=
  inferInstanceAs (Decidable (∀ s ∈ _, SymbolTable.IsBase _ _))

namespace Analysis

open SymbolTable

variable {refs : List Reference} {trees : List SyntaxTree}

theorem length_le_id {d : Declared} (hd : d ∈ declared refs trees) :
    (ofReferences refs).types.length ≤ d.id := by
  obtain ⟨k, hk⟩ := List.getElem?_of_mem hd
  rw [id_of_getElem? hk]
  exact Nat.le_add_right _ _

/-- The references are at the front of the table, as they are. -/
theorem references_first (refs : List Reference) (trees : List SyntaxTree) :
    (ofReferences refs).types <+: (Model.analyze refs trees).table.types := by
  rw [List.prefix_iff_getElem?]
  intro i hi
  have hlt : ∀ d ∈ declared refs trees, d.id ≠ i := by
    intro d hd heq
    exact Nat.not_le.2 hi (heq ▸ length_le_id hd)
  have hget := get?_breakCycles (t := headed refs trees) hlt
  rw [← analyze_table, SymbolTable.get?, SymbolTable.get?, headed,
    List.getElem?_append_left hi] at hget
  rw [hget, List.getElem?_eq_getElem hi]

/-- A type that is known to the references is known to the unit. -/
theorem find?_of_references {name : Bytes} {id : TypeId}
    (h : (ofReferences refs).find? name = some id) :
    (Model.analyze refs trees).table.find? name = some id := by
  obtain ⟨rest, hrest⟩ := references_first refs trees
  have happend := find?_append h rest
  rwa [hrest] at happend

/-- All bases of a unit are found in its table if those of the references are found there. -/
theorem isBase_table (hbases : Reference.Based refs) :
    ∀ s ∈ (Model.analyze refs trees).table.types, (Model.analyze refs trees).table.IsBase s.base := by
  intro s hs hne
  obtain ⟨id, hid⟩ := List.getElem?_of_mem hs
  rcases get?_of_breakCycles (t := headed refs trees) hid with hbase | hget
  · exact absurd hbase hne
  have hmem := List.mem_of_getElem? hget
  rw [headed, List.mem_append] at hmem
  rcases hmem with hmem | hmem
  · obtain ⟨b, hb⟩ := Option.isSome_iff_exists.1 (hbases s hmem hne)
    exact Option.isSome_iff_exists.2 ⟨b, find?_of_references hb⟩
  · rw [headers, List.map_map] at hmem
    obtain ⟨d, -, rfl⟩ := List.mem_map.1 hmem
    rw [find?_table]
    exact isBase_header d _ hne

theorem table_length (refs : List Reference) (trees : List SyntaxTree) :
    (Model.analyze refs trees).table.types.length =
    (ofReferences refs).types.length + (declared refs trees).length := by
  have hnames : (Model.analyze refs trees).table.types.map (·.fullName) = _ := names_table
  simpa [announced_types] using congrArg List.length hnames

/-- Behind the references the table has the declared types. -/
theorem table_types (refs : List Reference) (trees : List SyntaxTree) :
    (Model.analyze refs trees).table.types =
      (ofReferences refs).types ++ (Model.analyze refs trees).declared := by
  obtain ⟨rest, hrest⟩ := references_first refs trees
  have hlength : rest.length = (declared refs trees).length := by
    have hlength := table_length refs trees
    rw [← hrest, List.length_append] at hlength
    exact Nat.add_left_cancel hlength
  have hget : (declared refs trees).map (fun d => (Model.analyze refs trees).table.get? d.id) =
      rest.map some := by
    apply List.ext_getElem (by simp [hlength])
    intro k hk hk'
    rw [List.length_map] at hk hk'
    rw [List.getElem_map, List.getElem_map, id_of_getElem? (List.getElem?_eq_getElem hk),
      SymbolTable.get?, ← hrest, List.getElem?_append_right (Nat.le_add_right _ _),
      Nat.add_sub_cancel_left, List.getElem?_eq_getElem hk']
  have hdeclared : (Model.analyze refs trees).declared = rest := by
    have hids : (fun d : Declared => (Model.analyze refs trees).table.get?
        ((Model.analyze refs trees).table.body d).value.id) =
        fun d => (Model.analyze refs trees).table.get? d.id :=
      funext fun d => by rw [body_id]
    rw [Model.declared, analyze_types, List.filterMap_map, Function.comp_def, hids,
      ← Function.id_comp fun d : Declared => (Model.analyze refs trees).table.get? d.id,
      ← List.filterMap_map, hget, List.filterMap_map]
    exact List.filterMap_some
  rw [hdeclared, hrest]

end Analysis

/-! ## Symbols of another unit -/

namespace Code

/-- The module defines what is declared: a function of that symbol that takes the same, or the
descriptor. -/
def Module.Defines (M : Module) : Declaration → Prop
  | .runtime _ => False
  | .function symbol params => ∃ f ∈ M.functions, f.symbol = symbol ∧ f.prototype.params = params
  | .descriptor symbol => ∃ d ∈ M.descriptors, descriptorSymbol d.type = symbol

/-- What a longer model imports of a declared type is defined by the module of the shorter one. -/
theorem Links.defines_imports {m m' : Model} {M : Module} (h : Links m M) (hnames : m.WellNamed)
    (hcontinues : m.table.Continues m'.table) {t : BoundType} (ht : t ∈ m.types) {type : TypeSymbol}
    (htype : m.table.get? t.id = some type) {d : Declaration} (hd : m'.Imports d) {name : Bytes}
    (hname : Ascii.dot ∉ name) (hsymbol : d.symbol = type.fullName ++ Ascii.dot :: name) :
    M.Defines d := by
  have hnamed := hnames.of_get? ht htype
  cases hd with
  | @init type' id hid =>
    obtain ⟨hsame, -⟩ := Bytes.append_dot_inj (Part.dot_notMem_text (p := .init) trivial) hname hsymbol
    rw [hsame]
    exact h.exists_function_of_takes hnames ht htype (by simp [BoundType.parts]) .init
  | @descriptor type' id hid =>
    obtain ⟨hsame, -⟩ :=
      Bytes.append_dot_inj (Part.dot_notMem_text (p := .descriptor) trivial) hname hsymbol
    obtain ⟨D, hD, htypeD⟩ := h.exists_descriptor ht htype
    exact ⟨D, hD, by rw [hsame, htypeD, descriptorSymbol_eq]⟩
  | @method id owner f howns =>
    obtain ⟨hsame, -⟩ :=
      Bytes.append_dot_inj (Part.dot_notMem_text (p := .method f.name) howns.word) hname hsymbol
    -- The declared type is the one that its name means, so the method is one of its own.
    have hfound : m'.table.find? type.fullName = some t.id := by
      have hfound := SymbolTable.found_of_alone htype hnamed.alone
      rw [SymbolTable.Found, SymbolTable.nameOf_of_get? htype] at hfound
      exact hcontinues.find? hfound
    have howner : id.owner = t.id := by
      have hid := howns.found
      rw [SymbolTable.Found, SymbolTable.nameOf_of_get? howns.type, hsame, hfound] at hid
      exact (Option.some.inj hid).symm
    have hmethod : type.methods[id.index]? = some f := by
      have hlt : id.owner < m.table.types.length := howner ▸ SymbolTable.lt_of_get? htype
      have hmethod := hcontinues.method?_eq hlt
      rwa [howns.method, SymbolTable.method?, howner, htype, Option.bind_some, eq_comm] at hmethod
    rw [hsame]
    apply h.exists_function_of_takes hnames ht htype
    · simp only [BoundType.parts, List.mem_append, List.mem_cons, List.mem_map]
      exact .inl (.inr ⟨f, List.mem_of_getElem? hmethod, rfl⟩)
    · exact .method (hnamed.owns htype hmethod) rfl

end Code

/-! ## References to a unit -/

namespace CompilationUnit

open Analysis SymbolTable Code

variable {u v : CompilationUnit}

/-- With a unit behind its references the types are those of its table. -/
theorem types_reference (u : CompilationUnit) :
    (ofReferences (u.references ++ [u.reference])).types.map (·.withoutLibrary) =
      u.model.table.types.map (·.withoutLibrary) := by
  rw [model, table_types, ofReferences, ofReferences, List.flatMap_append, List.flatMap_singleton,
    List.map_append, List.map_append, reference, List.map_map]
  rfl

/-- A unit that refers to another one continues its table. -/
theorem continues_reference (hbases : Reference.Based u.references)
    (hrefs : v.references = u.references ++ [u.reference]) :
    u.model.table.Continues v.model.table where
  types := by
    rw [← types_reference, ← hrefs]
    exact (references_first v.references v.trees).map _
  bases := isBase_table hbases

/-- A unit without errors over closed references can be added to them. -/
theorem closed_reference (hclosed : Reference.Closed u.references)
    (hu : u.model.hasErrors = false) : Reference.Closed (u.references ++ [u.reference]) := by
  have hclean := clean_of_not_hasErrors hu
  have htable : u.model.table.Closed := by
    apply closed_table hclosed
    intro d hd
    simpa [get?_announced hd] using (hclean d hd).1
  exact htable.of_withoutLibrary u.types_reference.symm

/-- Two units without errors, the second over the first. A type of the first is the same in both, and
what the module of the second takes from elsewhere for it is defined by the module of the first. Both modules
are what is read from their texts, if the types of the references have names that can be written. -/
theorem agrees_reference (hclosed : Reference.Closed u.references)
    (hbases : Reference.Based u.references)
    (hrefs : v.references = u.references ++ [u.reference])
    (hutrees : ∀ tree ∈ u.trees, ∃ source file, tree = SyntaxTree.parse source file)
    (hvtrees : ∀ tree ∈ v.trees, ∃ source file, tree = SyntaxTree.parse source file)
    (hu : u.model.hasErrors = false) (hv : v.model.hasErrors = false) :
    ∃ M N, lower u.model u.options.assembly = .ok M ∧ lower v.model v.options.assembly = .ok N ∧
      (∀ t ∈ u.model.types, u.model.table.AgreesOn v.model.table t.id ∧
        ∀ d ∈ N.declarations, ∀ name, Ascii.dot ∉ name →
          d.symbol = u.model.table.nameOf t.id ++ Ascii.dot :: name → M.Defines d) ∧
      ((∀ r ∈ u.references, r.Nameable) → M.Legible ∧ N.Legible) := by
  have hutyped : u.model.Typed := Model.typed_analyze hclosed hu
  have hvclosed : Reference.Closed v.references := by
    rw [hrefs]
    exact closed_reference hclosed hu
  have hvtyped : v.model.Typed := Model.typed_analyze hvclosed hv
  have hunames : u.model.WellNamed :=
    Model.wellNamed_analyze (SyntaxTree.worded_of_parsed hutrees) hu
  have hvnames : v.model.WellNamed :=
    Model.wellNamed_analyze (SyntaxTree.worded_of_parsed hvtrees) hv
  have hcontinues := continues_reference hbases hrefs
  obtain ⟨M, hM⟩ := exists_lower hutyped.resolved u.options.assembly
  obtain ⟨N, hN⟩ := exists_lower hvtyped.resolved v.options.assembly
  have hM' := links_of_lower hutyped hunames hM
  have hN' := links_of_lower hvtyped hvnames hN
  refine ⟨M, N, hM, hN, fun t ht => ?_, fun hnameable => ?_⟩
  · obtain ⟨type, htype, hnamed⟩ := hunames.types t ht
    refine ⟨hcontinues.agreesOn (SymbolTable.found_of_alone htype hnamed.alone), ?_⟩
    intro d hd name hname hsymbol
    rw [SymbolTable.nameOf_of_get? htype] at hsymbol
    rcases hN'.imports hd with ⟨f, rfl⟩ | himports
    · refine absurd ?_ (dot_notMem_runtime f)
      rw [show f.symbol = _ from hsymbol]
      simp
    · exact hM'.defines_imports hunames hcontinues ht htype himports hname hsymbol
  · have hvnameable : ∀ r ∈ v.references, r.Nameable := by
      rw [hrefs]
      exact List.forall_mem_append.2 ⟨hnameable, List.forall_mem_singleton.2
        (nameable_reference (SyntaxTree.nameable_of_parsed hutrees))⟩
    exact ⟨Model.legible_of_parsed hclosed hnameable hutrees hu hM,
      Model.legible_of_parsed hvclosed hvnameable hvtrees hv hN⟩

/-- The unit of `counterModel`. -/
def counterUnit : CompilationUnit where
  references := [panelLibrary]
  options := { assembly := "App" }
  trees := [.parse counterSource "counter.il"]

/-- A component that derives from another unit's and calls its methods. -/
def stepperSource : Bytes :=
  "namespace Web;
  component Stepper : App.Counter {
    param App.Counter Other;
    method Twice() { Add(2); Other.Reset(); }
    render { component App.Counter { attr OnClose = Twice; } }
  }"

def stepperUnit : CompilationUnit where
  references := [panelLibrary, counterUnit.reference]
  options := { assembly := "Web" }
  trees := [.parse stepperSource "stepper.il"]

theorem agrees_reference_stepper :
    Reference.Closed [panelLibrary] ∧ Reference.Based [panelLibrary] ∧
      counterUnit.model.hasErrors = false ∧ stepperUnit.model.hasErrors = false ∧
      ∃ M N, lower counterUnit.model "App" = .ok M ∧ lower stepperUnit.model "Web" = .ok N ∧
        Bytes.ofString "App.Counter.Add" ∈ N.declared ∧ (∀ t ∈ counterUnit.model.types,
          counterUnit.model.table.AgreesOn stepperUnit.model.table t.id ∧
          ∀ d ∈ N.declarations, ∀ name, Ascii.dot ∉ name →
            d.symbol = counterUnit.model.table.nameOf t.id ++ Ascii.dot :: name → M.Defines d) ∧
        M.Legible ∧ N.Legible := by
  have hbased : Reference.Based [panelLibrary] := by decide +kernel
  -- Both are one computation: the unit is analysed once for them.
  obtain ⟨hstepper, hdeclared⟩ : stepperUnit.model.hasErrors = false ∧
      ((lower stepperUnit.model "Web").toOption.map fun N =>
        decide (Bytes.ofString "App.Counter.Add" ∈ N.declared)) = some true := by
    rw [stepperUnit, counterUnit, counterSource, stepperSource]
    repeat rw [Bytes.ofString_ofList]
    decide +kernel
  have hparsed (source file : Bytes) : ∀ tree ∈ [SyntaxTree.parse source file],
      ∃ source file, tree = SyntaxTree.parse source file :=
    List.forall_mem_singleton.2 ⟨source, file, rfl⟩
  obtain ⟨M, N, hM, hN, hagrees, hlegible⟩ := agrees_reference (u := counterUnit) (v := stepperUnit)
    closed_panelLibrary hbased rfl (hparsed counterSource _) (hparsed stepperSource _)
    counterModel_hasErrors hstepper
  change lower stepperUnit.model "Web" = .ok N at hN
  rw [hN] at hdeclared
  have hadd := of_decide_eq_true (Option.some.inj hdeclared)
  exact ⟨closed_panelLibrary, hbased, counterModel_hasErrors, hstepper, M, N, hM, hN, hadd, hagrees,
    hlegible nameable_panelLibrary⟩

end CompilationUnit

end ViewCompiler
