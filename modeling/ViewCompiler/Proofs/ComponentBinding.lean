import ViewCompiler.Proofs.MarkupReading
import ViewCompiler.Proofs.Outlines

/-!
Binding components that are written by their full names. A full name is looked up like any other
name, in the enclosing namespaces first, so it means the type it belongs to exactly when no enclosing
namespace captures it (`SymbolTable.resolve_of_find?`). The components of a bound render block are
those that the operations name, each bound on its own (`BodyScope.components_renderOps`).
-/

namespace ViewCompiler

/-! ## Captured names -/

theorem exists_enclosingNamespaces (ns : Bytes) :
    ∃ inner, enclosingNamespaces ns = inner ++ [[]] ∧ ∀ n ∈ inner, n ≠ [] := by
  fun_induction enclosingNamespaces ns with
  | case1 => exact ⟨[], rfl, by simp⟩
  | case2 ns hns outer _ ih =>
    obtain ⟨inner, heq, hinner⟩ := ih
    exact ⟨ns :: inner, by rw [heq]; rfl, by simpa using ⟨hns, hinner⟩⟩
  | case3 ns hns => exact ⟨[ns], rfl, by simpa using hns⟩

namespace TypeSymbol

theorem qualify_ne {ns name : Bytes} (h : ns ≠ []) : qualify ns name ≠ name := by
  intro heq
  have hlen := congrArg List.length heq
  have hpos := List.length_pos_iff.2 h
  rw [qualify, if_neg h, List.length_append, List.length_append] at hlen
  omega

end TypeSymbol

namespace SymbolTable

/-- Inside of `ns` the full name `name` means a type of an enclosing namespace. -/
def Captured (t : SymbolTable) (ns name : Bytes) : Prop :=
  ∃ n ∈ enclosingNamespaces ns, n ≠ [] ∧ (t.find? (TypeSymbol.qualify n name)).isSome = true

instance (t : SymbolTable) (ns name : Bytes) : Decidable (t.Captured ns name) :=
  inferInstanceAs (Decidable (∃ n ∈ enclosingNamespaces ns, _))

theorem captured_congr {t u : SymbolTable} (h : t.types.map (·.fullName) = u.types.map (·.fullName))
    {ns name : Bytes} : t.Captured ns name ↔ u.Captured ns name := by
  simp only [Captured, find?_congr h]

/-- What the full name of a type means inside of a namespace: that type, unless the name is
captured. -/
theorem resolve_of_find? {t : SymbolTable} {name : Bytes} {id : TypeId} (h : t.find? name = some id)
    (ns : Bytes) (usings : List Bytes) :
    ∃ id', t.resolve name ns usings = { type := some id' }
      ∧ (¬ t.Captured ns name → id' = id) ∧ (t.Captured ns name → t.nameOf id' ≠ name) := by
  obtain ⟨inner, heq, hinner⟩ := exists_enclosingNamespaces ns
  have hglobal : ([[]] : List Bytes).findSome? (fun n => t.find? (TypeSymbol.qualify n name)) = some id := by
    simpa [TypeSymbol.qualify] using h
  cases hs : inner.findSome? fun n => t.find? (TypeSymbol.qualify n name) with
  | none =>
    refine ⟨id, by simp [resolve, heq, List.findSome?_append, hs, hglobal], fun _ => rfl, ?_⟩
    rintro ⟨n, hn, hne, hsome⟩
    rw [heq, List.mem_append] at hn
    rw [List.findSome?_eq_none_iff.1 hs n (hn.resolve_right (by simpa using hne))] at hsome
    cases hsome
  | some id' =>
    refine ⟨id', by simp [resolve, heq, List.findSome?_append, hs], ?_, fun _ => ?_⟩
    · intro hfree
      obtain ⟨n, hn, hfound⟩ := List.exists_of_findSome?_eq_some hs
      exact absurd ⟨n, by simp [heq, hn], hinner n hn, by simp [hfound]⟩ hfree
    · obtain ⟨n, hn, hfound⟩ := List.exists_of_findSome?_eq_some hs
      rw [nameOf_of_find? hfound]
      exact TypeSymbol.qualify_ne (hinner n hn)

end SymbolTable

/-! ## Bound components -/

namespace BoundOp

mutual

/-- What the components of a bound render operation are bound to, in order. -/
def components : BoundOp → List (Option TypeId)
  | .component _ type _ _ child _ => type :: allComponents child
  | _ => []

def allComponents : List BoundOp → List (Option TypeId)
  | [] => []
  | op :: ops => components op ++ allComponents ops

end

end BoundOp

namespace Bytes

/-- No built-in type has a name that is written as a word. -/
theorem IsQualified.not_isBuiltinType {n : Bytes} (h : n.IsQualified) : isBuiltinType n = false := by
  cases hb : isBuiltinType n with
  | false => rfl
  | true =>
    simp only [isBuiltinType, Bool.or_eq_true, decide_eq_true_eq] at hb
    cases h with
    | word hw => rcases hb with (((rfl | rfl) | rfl) | rfl) | rfl <;> cases hw.2
    | @dot w m =>
      have hdot : Ascii.dot ∈ w ++ Ascii.dot :: m := by simp
      rcases hb with (((hb | hb) | hb) | hb) | hb <;> exact absurd (hb ▸ hdot) (by decide)

end Bytes

namespace BodyScope

variable {c : BodyScope}

/-- A component that is written by its full name is bound to the type of that name exactly when the
name is not captured. -/
theorem name_componentType {ref : TypeRef} {id : TypeId} {symbol : TypeSymbol}
    (hname : ref.name.IsQualified) (hfind : c.table.find? ref.name = some id)
    (hget : c.table.get? id = some symbol) (hcomp : symbol.isComponent = true) :
    (c.componentType ref).value.map c.table.nameOf = some ref.name ↔
      ¬ c.table.Captured c.file.ns ref.name := by
  obtain ⟨id', hresolve, hfree, hcaptured⟩ := SymbolTable.resolve_of_find? hfind c.file.ns c.file.usings
  have hvalue : (c.componentType ref).value =
      if ((c.table.get? id').map (·.isComponent)).getD false then some id' else none := by
    have htype : (c.table.resolveType c.file ref.name ref.span).value = some id' := by
      simp [SymbolTable.resolveType, hresolve]
    simp only [componentType, hname.not_isBuiltinType, Bool.false_eq_true, if_false,
      Checked.value_bind, htype]
    split <;> rfl
  rw [hvalue]
  constructor
  · intro heq h
    split at heq
    · exact hcaptured h (by simpa using heq)
    · cases heq
  · intro h
    obtain rfl := hfree h
    simp [hget, hcomp, SymbolTable.nameOf_of_find? hfind]

mutual

theorem components_renderOp : (op : RenderOp) →
    (c.renderOp op).value.components = op.components.map fun ref => (c.componentType ref).value
  | .openElement .. | .closeElement .. | .text .. => rfl
  | .attr .. => rfl
  | .value span value => by
    simp only [renderOp, Checked.value_bind]
    split <;> rfl
  | .component span ref args childSpan child => by
    have hchild := @components_renderOps [] false child
    simp only [renderOp, Checked.value_bind, RenderOp.components, List.map_cons]
    split <;> simp [BoundOp.components, hchild]

/-- The components of a render block are bound one by one. -/
theorem components_renderOps {opened : List (Span × Bytes)} {attributes : Bool} :
    (ops : List RenderOp) → BoundOp.allComponents (c.renderOps opened attributes ops).value =
      (RenderOp.allComponents ops).map fun ref => (c.componentType ref).value
  | [] => rfl
  | op :: ops => by
    obtain ⟨opened', attributes', hvalue, -⟩ := renderOps_cons c opened attributes op ops
    rw [hvalue, BoundOp.allComponents, RenderOp.allComponents, List.map_append,
      components_renderOp op, components_renderOps ops]

end

end BodyScope

/-- The components of a type's render block are bound one by one. -/
theorem SymbolTable.components_body {t : SymbolTable} {d : Declared} {block : RenderBlock}
    (h : d.decl.render = some block) : ∃ ops, (t.body d).value.render = some ops ∧
      BoundOp.allComponents ops = (RenderOp.allComponents block.ops).map fun ref =>
        (BodyScope.componentType { table := t, file := d.scope, current := d.id } ref).value := by
  refine ⟨_, ?_, @BodyScope.components_renderOps _ [] false block.ops⟩
  rw [body, h]
  rfl

/-! ## Tables -/

namespace SymbolTable

/-- Tables that agree in the faces of their types agree in which of them are components. -/
theorem isComponent_congr {t u : SymbolTable} (h : t.types.map (·.face) = u.types.map (·.face))
    {id : TypeId} {s : TypeSymbol} (hs : t.get? id = some s) :
    ∃ s', u.get? id = some s' ∧ s'.isComponent = s.isComponent := by
  have hface := congrArg (·[id]?) h
  rw [get?] at hs
  simp only [List.getElem?_map, hs, Option.map_some] at hface
  obtain ⟨s', hs', heq⟩ := Option.map_eq_some_iff.1 hface.symm
  exact ⟨s', hs', congrArg Prod.snd heq⟩

end SymbolTable

namespace Analysis

variable {refs : List Reference} {trees : List SyntaxTree}

theorem faces_declared : (Model.analyze refs trees).declared.map (·.face) =
    (declared refs trees).map fun d => (SymbolTable.announced d.scope d.decl).face := by
  rw [declared_eq, List.map_filterMap, ← List.filterMap_eq_map]
  refine List.filterMap_congr fun d hd => ?_
  obtain ⟨base, htable⟩ := get?_declared hd
  rw [htable]
  rfl

theorem exists_declared {k : Nat} {tree : SyntaxTree} {decl : TypeDecl} (htree : trees[k]? = some tree)
    (hdecl : decl ∈ tree.types) :
    ∃ d ∈ declared refs trees, d.tree = k ∧ d.scope = tree.scope ∧ d.decl = decl := by
  have hmem : (k, tree.scope, decl) ∈ trees.zipIdx.flatMap fun p =>
      p.1.types.map fun decl => (p.2, p.1.scope, decl) :=
    List.mem_flatMap.2 ⟨(tree, k), List.mem_zipIdx_iff_getElem?.2 htree, List.mem_map.2 ⟨decl, hdecl, rfl⟩⟩
  obtain ⟨j, hj⟩ := List.getElem?_of_mem hmem
  exact ⟨⟨k, tree.scope, decl, (SymbolTable.ofReferences refs).types.length + j⟩,
    List.mem_map.2 ⟨((k, tree.scope, decl), j), List.mem_zipIdx_iff_getElem?.2 hj, rfl⟩, rfl, rfl, rfl⟩

end Analysis

/-- A unit and its own reference beside the references it was compiled against have the same types. -/
theorem CompilationUnit.faces_reference (u : CompilationUnit) :
    (SymbolTable.ofReferences (u.references ++ [u.reference])).types.map (·.face) =
      u.model.table.types.map (·.face) := by
  have hown : u.reference.types.map (·.face) = u.model.declared.map (·.face) := by
    rw [reference, List.map_map]
    rfl
  rw [model, Analysis.faces_table, Analysis.announced_types, List.map_append, List.map_map]
  rw [model, Analysis.faces_declared] at hown
  simp only [SymbolTable.ofReferences, List.flatMap_append, List.flatMap_singleton, List.map_append, hown]
  rfl

/-! ## Components that are meant -/

namespace SymbolTable

/-- A component that is the first type of its full name. -/
def Means (t : SymbolTable) (id : TypeId) : Prop :=
  t.find? (t.nameOf id) = some id ∧ ∃ s, t.get? id = some s ∧ s.isComponent = true

end SymbolTable

namespace WriteScope

variable {c : WriteScope}

theorem means_of_meaning? {span : Span} {tag : Bytes} {type : TypeId}
    (h : c.meaning? span tag = some type) : c.table.Means type := by
  obtain ⟨hresolve, hs⟩ := resolve_of_meaning? h
  obtain ⟨fullName, hfind⟩ := SymbolTable.find?_of_resolve hresolve
  exact ⟨SymbolTable.find?_nameOf hfind, hs⟩

mutual

theorem means_components : (n : Node) → ∀ type ∈ c.components n, c.table.Means type
  | .text .. | .expr .. => by simp [components]
  | .element span tag _ children => by
    rw [components]
    refine List.forall_mem_append.2 ⟨fun type htype => ?_, means_allComponents children⟩
    exact means_of_meaning? (Option.mem_toList.1 htype)

theorem means_allComponents : (ns : List Node) → ∀ type ∈ c.allComponents ns, c.table.Means type
  | [] => by simp [allComponents]
  | n :: ns => by
    rw [allComponents]
    exact List.forall_mem_append.2 ⟨means_components n, means_allComponents ns⟩

end

end WriteScope

namespace CompilationUnit

/-- The components of a unit's render block that names components of a table by their full names.
Each of them is bound to the type of that name exactly when the name is not captured. -/
theorem forall₂_components {u : CompilationUnit} {t : SymbolTable} (ht : t.Nameable)
    (hfaces : t.types.map (·.face) = u.model.table.types.map (·.face)) {d : Declared}
    {block : RenderBlock} (hblock : d.decl.render = some block) {types : List TypeId}
    (hnames : RenderOp.names block.ops = types.map t.nameOf) (htypes : ∀ type ∈ types, t.Means type) :
    ∃ ops, (u.model.table.body d).value.render = some ops ∧
      List.Forall₂ (fun type bound => bound.map u.model.table.nameOf = some (t.nameOf type) ↔
        ¬ t.Captured d.scope.ns (t.nameOf type)) types (BoundOp.allComponents ops) := by
  obtain ⟨ops, hops, hbound⟩ := u.model.table.components_body hblock
  refine ⟨ops, hops, ?_⟩
  have heq : List.Forall₂ (· = ·) (types.map t.nameOf) (RenderOp.names block.ops) := by
    rw [List.forall₂_eq_eq_eq, hnames]
  have hrefs := List.forall₂_map_right_iff.1 (List.forall₂_map_left_iff.1 heq)
  rw [hbound, List.forall₂_map_right_iff]
  refine ((List.forall₂_and_left _ _).2 ⟨htypes, hrefs⟩).imp fun type ref h => ?_
  obtain ⟨⟨hfind, s, hs, hcomp⟩, hname⟩ := h
  obtain ⟨s', hs', hcomp'⟩ := SymbolTable.isComponent_congr hfaces hs
  have hall := SymbolTable.names_of_faces hfaces
  rw [hname, SymbolTable.captured_congr hall]
  rw [hname, SymbolTable.find?_congr hall] at hfind
  exact BodyScope.name_componentType (hname ▸ ht.nameOf hs) hfind hs' (hcomp'.trans hcomp)

end CompilationUnit

end ViewCompiler
