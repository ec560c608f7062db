import ViewCompiler.Ast.Parse
import ViewCompiler.Code.Lower
import ViewCompiler.Proofs.Inheritance
import ViewCompiler.Proofs.TypedModel

/-!
Objects of derived types. The data members of a base stand at the front of the layout of a derived
type, in the same order, so code of the base finds them in objects of the derived type
(`SymbolTable.layout_of_extends`, `Code.LowerScope.slotOf_eq_of_extends`). Members are told apart by
their declarations; two of one name, kind and type still have two slots.

All this is about members of the layout, and those that a body names are among them: the binder finds
them by name, whether there are errors or not (`SymbolTable.namesMember_body`).
-/

namespace ViewCompiler

namespace SymbolTable

variable {t : SymbolTable} {type b : TypeId} {id : MemberId} {name : Bytes}

/-! ## Layouts -/

/-- The data members that a type declares itself, in the order of their declarations. -/
def ownMembers (t : SymbolTable) (type : TypeId) : List MemberId :=
  (List.range (((t.get? type).map (·.members.length)).getD 0)).map fun index =>
    { owner := type, index }

theorem ownMembers_symbols {s : TypeSymbol} (h : t.get? type = some s) :
    (t.ownMembers type).map t.member? = s.members.map some := by
  apply List.ext_getElem?
  intro i
  simp only [ownMembers, h, Option.map_some, Option.getD_some, List.getElem?_map]
  by_cases hi : i < s.members.length
  · simp [member?, h, hi]
  · simp [Nat.le_of_not_lt hi]

theorem owner_of_mem_ownMembers (h : id ∈ t.ownMembers type) : id.owner = type := by
  obtain ⟨index, -, rfl⟩ := List.mem_map.1 h
  rfl

theorem layout_eq (t : SymbolTable) (type : TypeId) :
    t.layout type = (t.bases type).reverse.flatMap t.ownMembers ++ t.ownMembers type := by
  rw [layout, lineage, List.reverse_cons, List.flatMap_append, List.flatMap_singleton]
  rfl

/-- The layout of a type that is on no cycle is that of its base with its own members behind. -/
theorem layout_of_extends (h : t.Extends type b)
    (hcycle : ¬ Relation.TransGen t.Extends type type) :
    t.layout type = t.layout b ++ t.ownMembers type := by
  rw [layout_eq, bases_eq h hcycle, layout_eq t b, List.reverse_cons, List.flatMap_append,
    List.flatMap_singleton]

/-- The member is what some name means on the type. -/
def NamesMember (t : SymbolTable) (type : TypeId) (id : MemberId) : Prop :=
  ∃ name, t.findMember? type name = some id

theorem NamesMember.mem_layout (h : t.NamesMember type id) : id ∈ t.layout type := by
  obtain ⟨_, hfind⟩ := h
  exact mem_layout_of_findMember? hfind

end SymbolTable

/-! ## Slots -/

namespace Code.LowerScope

variable {c b : LowerScope} {id id' : MemberId}

theorem slotOf_eq (h : id ∈ c.table.layout c.current) :
    c.slotOf id = (c.table.layout c.current).idxOf id + 1 := by
  have hfind : (c.table.layout c.current).findIdx? (· = id) =
      some ((c.table.layout c.current).idxOf id) :=
    List.findIdx?_eq_some_of_exists ⟨id, h, by simp⟩
  simp [slotOf, hfind]

/-- A member of the layout has a slot behind the descriptor. -/
theorem slotOf_bounds (h : id ∈ c.table.layout c.current) :
    1 ≤ c.slotOf id ∧ c.slotOf id ≤ (c.table.layout c.current).length := by
  have hlt := List.idxOf_lt_length_of_mem h
  rw [slotOf_eq h]
  omega

theorem slotOf_inj (h : id ∈ c.table.layout c.current) (h' : id' ∈ c.table.layout c.current)
    (heq : c.slotOf id = c.slotOf id') : id = id' := by
  rw [slotOf_eq h, slotOf_eq h'] at heq
  exact (List.idxOf_inj h).1 (Nat.succ.inj heq)

/-- Inherited members keep their slots. -/
theorem slotOf_eq_of_extends (hmodel : b.model = c.model)
    (h : c.table.Extends c.current b.current)
    (hcycle : ¬ Relation.TransGen c.table.Extends c.current c.current)
    (hid : id ∈ c.table.layout c.current) (hinherited : id.owner ≠ c.current) :
    b.slotOf id = c.slotOf id := by
  have hlayout := SymbolTable.layout_of_extends h hcycle
  have htable : b.table = c.table := congrArg Model.table hmodel
  have hbase : id ∈ c.table.layout b.current := by
    rw [hlayout, List.mem_append] at hid
    exact hid.resolve_right fun hown => hinherited (SymbolTable.owner_of_mem_ownMembers hown)
  rw [slotOf_eq hid, hlayout, List.idxOf_append_of_mem hbase, slotOf_eq (htable ▸ hbase), htable]

end Code.LowerScope

/-! ## Members that a body names -/

/-- The data member that a name means. -/
def Binding.members : Binding → List MemberId
  | .member id => [id]
  | _ => []

/-- The data member that a call goes through: its receiver, or the callback that it runs. -/
def CallBinding.members : CallBinding → List MemberId
  | .method _ receiver => receiver.toList.flatMap Binding.members
  | .callback target => target.members

namespace BoundExpr

/-- The data members that an expression names. -/
def members : BoundExpr → List MemberId
  | name _ _ binding _ => binding.toList.flatMap Binding.members
  | unary _ _ operand _ => operand.members
  | binary _ _ left right _ => left.members ++ right.members
  | _ => []

end BoundExpr

namespace BoundStmt

mutual

/-- The data members that a statement names, assigns or calls. -/
def members : BoundStmt → List MemberId
  | assign _ _ binding value => binding.toList.flatMap Binding.members ++ value.members
  | call _ binding args =>
    binding.toList.flatMap CallBinding.members ++ args.flatMap BoundExpr.members
  | cond _ condition thenBody elseBody =>
    condition.members ++ (allMembers thenBody ++ allMembers elseBody)
  | ret _ => []

def allMembers : List BoundStmt → List MemberId
  | [] => []
  | s :: ss => members s ++ allMembers ss

end

end BoundStmt

namespace BoundOp

mutual

/-- The data members that a render operation names. The parameters that it sets belong to another
component and are set by name. -/
def members : BoundOp → List MemberId
  | attr _ _ e | value _ e => e.members
  | component _ _ args _ child _ => args.flatMap (·.value.members) ++ allMembers child
  | _ => []

def allMembers : List BoundOp → List MemberId
  | [] => []
  | op :: ops => members op ++ allMembers ops

end

end BoundOp

/-- The data members of `this` that the bodies of a type name. -/
def BoundType.members (t : BoundType) : List MemberId :=
  t.inits.flatMap (fun init => init.toList.flatMap BoundExpr.members) ++
    (t.methods.flatMap fun m => BoundStmt.allMembers m.body) ++
    t.render.toList.flatMap BoundOp.allMembers

namespace BodyScope

variable {c : BodyScope}

/-- All of these members are found by name on the current type. -/
def NamesMembers (c : BodyScope) (ids : List MemberId) : Prop :=
  ∀ id ∈ ids, c.table.NamesMember c.current id

@[simp] theorem namesMembers_nil : c.NamesMembers [] := by simp [NamesMembers]

@[simp] theorem namesMembers_append {ids ids' : List MemberId} :
    c.NamesMembers (ids ++ ids') ↔ c.NamesMembers ids ∧ c.NamesMembers ids' :=
  List.forall_mem_append

theorem namesMembers_of_bind? {name : Bytes} {b : Binding} (h : c.bind? name = some b) :
    c.NamesMembers b.members := by
  rw [bind?] at h
  split at h
  · cases h
    exact namesMembers_nil
  · split at h
    · next id hid =>
      cases h
      intro id' hmem
      cases List.mem_singleton.1 hmem
      exact ⟨name, hid⟩
    · obtain ⟨id, -, rfl⟩ := Option.map_eq_some_iff.1 h
      exact namesMembers_nil

theorem namesMembers_expr (inInit : Bool) (e : Expr) :
    c.NamesMembers (c.expr inInit e).value.members := by
  induction e with
  | int | string | bool => simp [expr, BoundExpr.members]
  | name span name =>
    rw [expr]
    split
    · split <;> simp [BoundExpr.members]
    · split
      · simp [BoundExpr.members]
      · next b hb => simpa [BoundExpr.members] using namesMembers_of_bind? hb
  | unary span op operand ih =>
    rw [expr, Checked.value_bind]
    split
    · exact ih
    · split <;> exact ih
  | binary span op left right ihl ihr =>
    have hboth := namesMembers_append.2 ⟨ihl, ihr⟩
    rw [expr, Checked.value_bind, Checked.value_bind]
    split
    · exact hboth
    · split <;> exact hboth

theorem namesMembers_exprs (es : List Expr) :
    c.NamesMembers ((c.exprs es).value.flatMap BoundExpr.members) := by
  induction es with
  | nil => exact namesMembers_nil
  | cons e es ih =>
    simp only [exprs, Checked.value_bind, Checked.value_pure, List.flatMap_cons]
    exact namesMembers_append.2 ⟨namesMembers_expr false e, ih⟩

theorem namesMembers_assignment {span : Span} {target : Bytes} {value : BoundExpr} :
    c.NamesMembers ((c.assignment span target value).value.toList.flatMap Binding.members) := by
  rw [assignment]
  split
  · exact namesMembers_nil
  · exact namesMembers_nil
  · next b _ hb =>
    have hmembers := namesMembers_of_bind? hb
    cases b with
    | member id =>
      dsimp only
      split
      · exact namesMembers_nil
      · simpa using hmembers
    | param | method => simpa using hmembers

theorem namesMembers_receiver {span : Span} {name method : Bytes} {b : Binding} {type : TypeId}
    (h : (c.receiver span name method).value = some (b, type)) : c.NamesMembers b.members := by
  rw [receiver] at h
  split at h
  · cases h
  · cases h
  · next b' _ hb =>
    rw [Checked.value_bind] at h
    split at h
    · cases h
      exact namesMembers_of_bind? hb
    · cases h
    · cases h

theorem namesMembers_callOn {span : Span} {target : TypeId} {receiver : Option Binding}
    (hreceiver : ∀ b ∈ receiver, c.NamesMembers b.members) {method : Bytes}
    {args : List BoundExpr} :
    c.NamesMembers ((c.callOn span target receiver method args).value.toList.flatMap
      CallBinding.members) := by
  rw [callOn]
  split
  · split
    · next b hb =>
      have hbind : c.bind? method = some b := by
        split at hb
        · exact (Option.filter_eq_some_iff.1 hb).1
        · cases hb
      split
      · exact namesMembers_nil
      · simpa [CallBinding.members] using namesMembers_of_bind? hbind
    · exact namesMembers_nil
  · dsimp only
    split
    · exact namesMembers_nil
    · cases receiver with
      | none => exact namesMembers_nil
      | some b => simpa [CallBinding.members] using hreceiver b rfl

theorem namesMembers_call {span : Span} {on : Option Bytes} {method : Bytes}
    {args : List BoundExpr} :
    c.NamesMembers ((c.call span on method args).value.toList.flatMap CallBinding.members) := by
  cases on with
  | none => exact namesMembers_callOn (by simp)
  | some name =>
    rw [call, Checked.value_bind]
    split
    · exact namesMembers_nil
    · next b target hvalue =>
      apply namesMembers_callOn
      rintro _ ⟨⟩
      exact namesMembers_receiver hvalue

mutual

theorem namesMembers_stmt : (s : Stmt) → c.NamesMembers (c.stmt s).value.members
  | .assign span target value => by
    simp only [stmt, Checked.value_bind, Checked.value_pure, BoundStmt.members]
    exact namesMembers_append.2 ⟨namesMembers_assignment, namesMembers_expr false value⟩
  | .call span on method args => by
    simp only [stmt, Checked.value_bind, Checked.value_pure, BoundStmt.members]
    exact namesMembers_append.2 ⟨namesMembers_call, namesMembers_exprs args⟩
  | .cond span condition thenBody elseBody => by
    have hbodies := namesMembers_append.2 ⟨namesMembers_stmts thenBody, namesMembers_stmts elseBody⟩
    simp only [stmt, Checked.value_bind]
    split <;> exact namesMembers_append.2 ⟨namesMembers_expr false condition, hbodies⟩
  | .ret span => namesMembers_nil

theorem namesMembers_stmts : (ss : List Stmt) →
    c.NamesMembers (BoundStmt.allMembers (c.stmts ss).value)
  | [] => namesMembers_nil
  | s :: ss => by
    simp only [stmts, Checked.value_bind, Checked.value_pure]
    exact namesMembers_append.2 ⟨namesMembers_stmt s, namesMembers_stmts ss⟩

end

theorem namesMembers_componentArgs {type : Option TypeId} {seen : List Bytes}
    (args : List ComponentArg) :
    c.NamesMembers ((c.componentArgs type seen args).value.flatMap (·.value.members)) := by
  induction args generalizing seen with
  | nil => exact namesMembers_nil
  | cons arg args ih =>
    simp only [componentArgs, Checked.value_bind]
    cases type <;> exact namesMembers_append.2 ⟨namesMembers_expr false arg.value, ih⟩

mutual

theorem namesMembers_renderOp : (op : RenderOp) → c.NamesMembers (c.renderOp op).value.members
  | .openElement .. | .closeElement .. | .text .. => namesMembers_nil
  | .attr span name value => namesMembers_expr false value
  | .value span value => by
    simp only [renderOp, Checked.value_bind]
    split <;> exact namesMembers_expr false value
  | .component span ref args childSpan child => by
    simp only [renderOp, Checked.value_bind]
    split <;>
      exact namesMembers_append.2 ⟨namesMembers_componentArgs args, namesMembers_renderOps child⟩

theorem namesMembers_renderOps {opened : List (Span × Bytes)} {attributes : Bool} :
    (ops : List RenderOp) →
    c.NamesMembers (BoundOp.allMembers (c.renderOps opened attributes ops).value)
  | [] => namesMembers_nil
  | op :: ops => by
    obtain ⟨opened', attributes', hvalue, -⟩ := renderOps_cons c opened attributes op ops
    rw [hvalue]
    exact namesMembers_append.2 ⟨namesMembers_renderOp op, namesMembers_renderOps ops⟩

end

theorem namesMembers_inits (ms : List DataMember) (ss : List MemberSymbol) :
    c.NamesMembers ((c.inits ms ss).value.flatMap fun init =>
      init.toList.flatMap BoundExpr.members) := by
  induction ms generalizing ss with
  | nil => exact namesMembers_nil
  | cons m ms ih =>
    cases ss with
    | nil => exact namesMembers_nil
    | cons s ss =>
      cases hinit : m.init with
      | none => simpa [inits, hinit] using ih ss
      | some e => simpa [inits, hinit] using ⟨namesMembers_expr true e, ih ss⟩

theorem namesMembers_methods (ms : List MethodDecl) (ss : List MethodSymbol) :
    c.NamesMembers ((c.methods ms ss).value.flatMap fun m => BoundStmt.allMembers m.body) := by
  induction ms generalizing ss with
  | nil => exact namesMembers_nil
  | cons m ms ih =>
    cases ss with
    | nil => exact namesMembers_nil
    | cons s ss =>
      simp only [methods, Checked.value_bind, Checked.value_pure]
      exact namesMembers_append.2
        ⟨namesMembers_stmts (c := { c with params := s.paramNames.zip s.paramTypes }) m.body, ih ss⟩

end BodyScope

/-- The bodies of a type name members that are found on the type. -/
theorem SymbolTable.namesMember_body (t : SymbolTable) (d : Declared) :
    ∀ id ∈ (t.body d).value.members, t.NamesMember d.id id := by
  let c : BodyScope := { table := t, file := d.scope, current := d.id }
  have hbodies (ms : List MemberSymbol) (fs : List MethodSymbol) :=
    BodyScope.namesMembers_append.2
      ⟨c.namesMembers_inits d.decl.members ms, c.namesMembers_methods d.decl.methods fs⟩
  show c.NamesMembers (t.body d).value.members
  cases hr : d.decl.render with
  | none =>
    simp only [body, hr, Checked.value_bind, Checked.value_pure, BoundType.members]
    exact BodyScope.namesMembers_append.2 ⟨hbodies _ _, BodyScope.namesMembers_nil⟩
  | some block =>
    simp only [body, hr, Checked.value_bind, Checked.value_pure, BoundType.members]
    apply BodyScope.namesMembers_append.2
    exact ⟨hbodies _ _, by simpa using c.namesMembers_renderOps block.ops⟩

/-! ## Declared types -/

theorem SymbolTable.headerMembers_named (t : SymbolTable) (scope : FileScope) (type : Bytes)
    (seen : List Bytes) (ms : List DataMember) :
    (t.headerMembers scope type seen ms).value.map (fun s => (s.kind, s.name)) =
      ms.map fun m => (m.kind, m.name) := by
  induction ms generalizing seen with
  | nil => rfl
  | cons m ms ih =>
    rw [headerMembers]
    split <;> simp only [Checked.value_bind] <;> split <;> simp [ih]

namespace Analysis

variable {refs : List Reference} {trees : List SyntaxTree} {d : Declared}

/-- The members of a declared type are those of its declaration. -/
theorem exists_members (hd : d ∈ declared refs trees) :
    ∃ s, (Model.analyze refs trees).table.get? d.id = some s ∧
      s.members.map (fun m => (m.kind, m.name)) = d.decl.members.map fun m => (m.kind, m.name) := by
  obtain ⟨base, htable⟩ := get?_declared hd
  exact ⟨_, htable, SymbolTable.headerMembers_named ..⟩

end Analysis

open Code in
/-- Objects of a type begin like those of its base. What its bodies name has a slot there: one of its
own, and if it is inherited the one that it has in the base. -/
structure Model.LaysOut (m : Model) (t : BoundType) (s : TypeSymbol) : Prop where
  layout : ∀ b, s.base ≠ [] → m.table.find? s.base = some b →
    m.table.layout t.id = m.table.layout b ++ m.table.ownMembers t.id
  slot : ∀ id ∈ t.members, 1 ≤ (LowerScope.mk m t.id []).slotOf id ∧
    (LowerScope.mk m t.id []).slotOf id ≤ (m.table.layout t.id).length
  inherited : ∀ b, s.base ≠ [] → m.table.find? s.base = some b → ∀ id ∈ t.members,
    id.owner ≠ t.id → (LowerScope.mk m b []).slotOf id = (LowerScope.mk m t.id []).slotOf id
  distinct : ∀ id ∈ m.table.layout t.id, ∀ id' ∈ m.table.layout t.id, id ≠ id' →
    (LowerScope.mk m t.id []).slotOf id ≠ (LowerScope.mk m t.id []).slotOf id'

open Code in
theorem Model.laysOut {m : Model} {t : BoundType} {s : TypeSymbol}
    (hs : m.table.get? t.id = some s) (hcycle : ¬ Relation.TransGen m.table.Extends t.id t.id)
    (hnamed : ∀ id ∈ t.members, m.table.NamesMember t.id id) : m.LaysOut t s where
  layout := by
    intro b hbase hb
    exact SymbolTable.layout_of_extends (SymbolTable.extends_iff.2 ⟨s, hs, hbase, hb⟩) hcycle
  slot := by
    intro id hid
    exact LowerScope.slotOf_bounds (c := .mk m t.id []) (hnamed id hid).mem_layout
  inherited := by
    intro b hbase hb id hid hinherited
    have hext : m.table.Extends t.id b := SymbolTable.extends_iff.2 ⟨s, hs, hbase, hb⟩
    exact LowerScope.slotOf_eq_of_extends (c := .mk m t.id []) (b := .mk m b []) rfl hext hcycle
      (hnamed id hid).mem_layout hinherited
  distinct := by
    intro id hid id' hid' hne heq
    exact hne (LowerScope.slotOf_inj (c := .mk m t.id []) hid hid' heq)

open Analysis in
/-- In every unit, whatever its references are, declared types are laid out behind their bases, each
with the members of its declaration in their order. -/
theorem Model.layout_analyze (refs : List Reference) (trees : List SyntaxTree) :
    ∀ t ∈ (Model.analyze refs trees).types, ∃ d ∈ Analysis.declared refs trees, ∃ s, t.id = d.id ∧
      (Model.analyze refs trees).table.get? t.id = some s ∧
      s.members.map (fun f => (f.kind, f.name)) = d.decl.members.map (fun f => (f.kind, f.name)) ∧
      ((Model.analyze refs trees).table.ownMembers t.id).map
        (Model.analyze refs trees).table.member? = s.members.map some ∧
      (Model.analyze refs trees).LaysOut t s := by
  intro t ht
  rw [analyze_types] at ht
  obtain ⟨d, hd, rfl⟩ := List.mem_map.1 ht
  obtain ⟨s, hs, hmembers⟩ := exists_members hd
  have hid : ((analyze refs trees).table.body d).value.id = d.id := SymbolTable.body_id ..
  have hlaysOut : (analyze refs trees).LaysOut ((analyze refs trees).table.body d).value s := by
    apply laysOut
    · rw [hid]
      exact hs
    · rw [hid]
      exact not_cyclic hd
    · rw [hid]
      exact SymbolTable.namesMember_body _ d
  refine ⟨d, hd, s, hid, ?_, hmembers, ?_, hlaysOut⟩
  · rw [hid]
    exact hs
  · rw [hid]
    exact SymbolTable.ownMembers_symbols hs

/-- A library of two classes, each the base of the other. -/
def ringLibrary : Reference where
  name := "Ring"
  types := [
    { ns := "Ring", name := "First", base := "Ring.Second", members := [⟨.field, "Size", "int"⟩] },
    { ns := "Ring", name := "Second", base := "Ring.First", members := [⟨.field, "Count", "int"⟩] }]

/-- Classes on top of `ringLibrary`. The data member of one name and type is declared three times. -/
def leafSource : Bytes :=
  "namespace App;
  class Node : Ring.First {
    field int Size = 1;
    method Grow() { Size = Size + Count; }
  }
  class Leaf : Node {
    field int Size = 2;
    method Shrink() { Size = Size - Count; }
  }"

def leafModel : Model := Model.analyze [ringLibrary] [.parse leafSource "leaf.il"]

theorem Model.layout_analyze_leaf : ∃ t ∈ leafModel.types, ∃ s,
    t.members = [⟨3, 0⟩, ⟨3, 0⟩, ⟨1, 0⟩] ∧ leafModel.table.get? t.id = some s ∧
      leafModel.table.find? s.base = some 2 ∧
      leafModel.table.layout t.id = [⟨1, 0⟩, ⟨0, 0⟩, ⟨2, 0⟩, ⟨3, 0⟩] ∧ leafModel.LaysOut t s := by
  have hleaf : ∃ t ∈ leafModel.types, t.members = [⟨3, 0⟩, ⟨3, 0⟩, ⟨1, 0⟩] ∧
      ((leafModel.table.get? t.id).bind fun s => leafModel.table.find? s.base) = some 2 ∧
      leafModel.table.layout t.id = [⟨1, 0⟩, ⟨0, 0⟩, ⟨2, 0⟩, ⟨3, 0⟩] := by
    rw [leafModel, leafSource, Bytes.ofString_ofList]
    decide +kernel
  obtain ⟨t, ht, hmembers, hbase, hlayout⟩ := hleaf
  obtain ⟨_, _, s, _, hs, _, _, hlaysOut⟩ :=
    Model.layout_analyze [ringLibrary] [.parse leafSource "leaf.il"] t ht
  change leafModel.table.get? t.id = some s at hs
  rw [hs, Option.bind_some] at hbase
  exact ⟨t, ht, s, hmembers, hs, hbase, hlayout, hlaysOut⟩

end ViewCompiler
