import ViewCompiler.Ast.Parse
import ViewCompiler.Code.Lower
import ViewCompiler.Proofs.Resolved

/-!
Lowering a resolved model never fails (`Code.exists_lower`). Each step of lowering is `Total`: it
gives a result in every state, whatever was produced before, and keeps the string constants that
there are.
-/

namespace ViewCompiler

namespace Code

namespace Lower

/-- The step gives a result in every state, and constants only come to the end. -/
structure Total {α : Type} (x : Lower α) : Prop where
  run : ∀ s, ∃ a s', StateT.run x s = .ok (a, s') ∧ s.strings <+: s'.strings

section
variable {α β : Type}

theorem Total.keeps_strings {x : Lower α} (hx : Total x) {s s' : LowerState} {a : α}
    (h : StateT.run x s = .ok (a, s')) : s.strings <+: s'.strings := by
  obtain ⟨_, _, hrun, hstrings⟩ := hx.run s
  obtain ⟨rfl, rfl⟩ : _ = a ∧ _ = s' := by simpa [hrun] using h
  exact hstrings

theorem total_pure (a : α) : Total (pure a) := ⟨fun s => ⟨a, s, rfl, List.prefix_rfl⟩⟩

theorem Total.bind {x : Lower α} {f : α → Lower β} (hx : Total x) (hf : ∀ a, Total (f a)) :
    Total (x >>= f) := by
  refine ⟨fun s => ?_⟩
  obtain ⟨a, s', ha, hs'⟩ := hx.run s
  obtain ⟨b, s'', hb, hs''⟩ := (hf a).run s'
  refine ⟨b, s'', ?_, hs'.trans hs''⟩
  rw [StateT.run_bind, ha]
  exact hb

/-- A step that continues with what is bound. -/
theorem Total.bound_bind {o : Option α} {f : α → Lower β} (h : ∃ a, o = some a ∧ Total (f a)) :
    Total (bound o >>= f) := by
  obtain ⟨a, rfl, ha⟩ := h
  exact ha

theorem Total.ite {p : Prop} [Decidable p] {x y : Lower α} (hx : Total x) (hy : Total y) :
    Total (if p then x else y) := by
  split
  · exact hx
  · exact hy

/-- A step that leaves the constants alone. -/
theorem total_modifyGet {f : LowerState → α × LowerState}
    (h : ∀ s, (f s).2.strings = s.strings) : Total (modifyGet f : Lower α) :=
  ⟨fun s => ⟨(f s).1, (f s).2, rfl, (h s).symm ▸ List.prefix_rfl⟩⟩

theorem total_modify {f : LowerState → LowerState} (h : ∀ s, (f s).strings = s.strings) :
    Total (modify f) :=
  total_modifyGet h

theorem total_get : Total (get : Lower LowerState) := ⟨fun s => ⟨s, s, rfl, List.prefix_rfl⟩⟩

end

theorem total_emit (i : Instr) : Total (emit i) := total_modify fun _ => rfl

theorem total_declare (d : Declaration) : Total (declare d) := total_modify fun _ => rfl

theorem total_freshTemp : Total freshTemp := total_modifyGet fun _ => rfl

theorem total_freshLabel (kind : LabelKind) : Total (freshLabel kind) :=
  total_modifyGet fun _ => rfl

theorem total_setTerminated (b : Bool) : Total (setTerminated b) := total_modify fun _ => rfl

theorem total_string (text : Bytes) : Total (string text) := by
  refine ⟨fun s => ⟨_, _, rfl, ?_⟩⟩
  split
  · exact List.prefix_rfl
  · exact List.prefix_append ..

theorem total_compute (f : Runtime) (type : ValueType) (args : List Value) :
    Total (compute f type args) :=
  total_freshTemp.bind fun _ => (total_emit _).bind fun _ => total_pure _

end Lower

open Lower

namespace LowerScope

/-- What the names of a body mean where it is lowered. -/
structure Fits (c : LowerScope) (Γ : TypingContext) : Prop where
  table : c.table = Γ.table
  current : c.current = Γ.current
  params : c.params.length = Γ.params.length

variable {c : LowerScope} {Γ : TypingContext}

/-! ## Expressions -/

theorem total_method {id : MethodId} (h : (c.table.method? id).isSome) : Total (c.method id) := by
  obtain ⟨f, hf⟩ := Option.isSome_iff_exists.1 h
  obtain ⟨owner, howner, _⟩ := Option.bind_eq_some_iff.1 hf
  refine Total.bound_bind ⟨owner, howner, Total.bound_bind ⟨f, hf, ?_⟩⟩
  exact Total.ite ((total_declare _).bind fun _ => total_pure _) (total_pure _)

theorem total_fieldAddress (id : MemberId) : Total (c.fieldAddress id) :=
  total_freshTemp.bind fun _ => (total_emit _).bind fun _ => total_pure _

theorem total_read (hc : c.Fits Γ) {b : Binding} (h : Γ.Resolves b) : Total (c.read b) := by
  cases b with
  | param i =>
    have hi : i < c.params.length := by rw [hc.params]; exact h
    refine Total.bound_bind ⟨c.params[i], List.getElem?_eq_getElem hi, ?_⟩
    exact total_freshTemp.bind fun _ => (total_emit _).bind fun _ => total_pure _
  | member id =>
    exact (total_fieldAddress id).bind fun _ =>
      total_freshTemp.bind fun _ => (total_emit _).bind fun _ => total_pure _
  | method id =>
    have hid : (c.table.method? id).isSome := by rw [hc.table]; exact h
    exact (total_method hid).bind fun _ => total_compute ..

theorem total_arith (op : ArithOp) (l r : Operand) : Total (arith op l r) :=
  total_freshTemp.bind fun _ => (total_emit _).bind fun _ => total_pure _

theorem total_logic (op : LogicOp) (l r : Operand) : Total (logic op l r) :=
  total_freshTemp.bind fun _ => (total_emit _).bind fun _ => total_pure _

theorem total_compare (p : Predicate) (type : ValueType) (l r : Operand) :
    Total (compare p type l r) :=
  total_freshTemp.bind fun _ => (total_emit _).bind fun _ => total_pure _

theorem total_toText (value : Value) (type : Ty) : Total (toText value type) := by
  unfold toText
  split
  · exact total_pure _
  · exact total_compute ..
  · exact total_compute ..

theorem total_equality (equal : Bool) (l r : Value) (type : Ty) :
    Total (equality equal l r type) := by
  refine Total.ite ((total_compute ..).bind fun _ => ?_) (total_compare ..)
  exact Total.ite (total_pure _) (total_logic ..)

theorem total_binary (op : BinaryOp) (l r : Value) (lt rt : Ty) : Total (binary op l r lt rt) := by
  cases op with
  | add =>
    refine Total.ite (total_arith ..) ?_
    exact (total_toText ..).bind fun _ => (total_toText ..).bind fun _ => total_compute ..
  | sub | mul | div | mod => exact total_arith ..
  | eq | ne => exact total_equality ..
  | lt | gt | le | ge => exact total_compare ..
  | and | or => exact total_logic ..

theorem total_expr (hc : c.Fits Γ) {e : BoundExpr} (h : Γ.ResolvedExpr e) : Total (c.expr e) := by
  induction e with
  | int | bool => exact total_pure _
  | string _ text => exact (total_string text).bind fun _ => total_pure _
  | name =>
    obtain ⟨b, rfl, hb⟩ := h
    exact Total.bound_bind ⟨b, rfl, total_read hc hb⟩
  | unary _ op _ _ ih =>
    refine (ih h).bind fun _ => ?_
    cases op with
    | not => exact total_logic ..
    | neg => exact total_arith ..
  | binary _ op _ _ _ ihl ihr =>
    exact (ihl h.1).bind fun _ => (ihr h.2).bind fun _ => total_binary ..

/-! ## Statements -/

theorem total_write {b : Binding} (h : ∀ id, b ≠ .method id) (value : Value) :
    Total (c.write value b) := by
  cases b with
  | param i => exact total_emit _
  | member id => exact (total_fieldAddress id).bind fun _ => total_emit _
  | method id => exact absurd rfl (h id)

theorem total_arguments (hc : c.Fits Γ) (types : List ValueType) {es : List BoundExpr}
    (h : ∀ e ∈ es, Γ.ResolvedExpr e) : Total (c.arguments types es) := by
  induction es generalizing types with
  | nil => cases types <;> exact total_pure _
  | cons e es ih =>
    obtain ⟨he, hes⟩ := List.forall_mem_cons.1 h
    cases types with
    | nil => exact total_pure _
    | cons => exact (total_expr hc he).bind fun _ => (ih _ hes).bind fun _ => total_pure _

theorem total_call (hc : c.Fits Γ) {args : List BoundExpr} {b : CallBinding} {count : Nat}
    (h : Γ.ResolvedCall count b) (hargs : ∀ e ∈ args, Γ.ResolvedExpr e) :
    Total (c.call args b) := by
  cases b with
  | callback target => exact (total_read hc h.1).bind fun _ => total_emit _
  | method id receiver =>
    obtain ⟨⟨f, hf, _⟩, hreceiver⟩ := h
    rw [← hc.table] at hf
    have hrest (object : Operand) : Total (do
        let method ← bound (c.table.method? id)
        let args ← c.arguments (method.paramTypes.map ValueType.ofName) args
        let symbol ← c.method id
        emit (.call none (.method symbol) (⟨object, .ptr⟩ :: args))) := by
      refine Total.bound_bind ⟨f, hf, (total_arguments hc _ hargs).bind fun _ => ?_⟩
      exact (total_method (by simp [hf])).bind fun _ => total_emit _
    cases receiver with
    | none => exact (total_pure _).bind hrest
    | some b =>
      exact (total_read hc (hreceiver b rfl)).bind fun _ => hrest _

theorem total_close (target : Label) : Total (close target) :=
  total_get.bind fun _ => Total.ite (total_emit _) (total_pure _)

theorem total_openBlock (l : Label) : Total (openBlock l) :=
  (total_emit _).bind fun _ => total_setTerminated _

/-- Statements are total when each of them is. -/
theorem total_stmts_of_forall {ss : List BoundStmt} (h : ∀ s ∈ ss, Total (c.stmt s)) :
    Total (c.stmts ss) := by
  induction ss with
  | nil => rw [stmts]; exact total_pure _
  | cons s ss ih =>
    rw [stmts]
    obtain ⟨hs, hss⟩ := List.forall_mem_cons.1 h
    exact total_get.bind fun _ => Total.ite (hs.bind fun _ => ih hss) (total_pure _)

theorem total_stmt (hc : c.Fits Γ) {s : BoundStmt} (h : Γ.ResolvedStmt s) : Total (c.stmt s) := by
  induction h with
  | assign _ hb he =>
    rw [stmt]
    exact (total_expr hc he).bind fun _ => Total.bound_bind ⟨_, rfl, total_write hb _⟩
  | call hb hargs =>
    rw [stmt]
    exact Total.bound_bind ⟨_, rfl, total_call hc hb hargs⟩
  | cond he _ _ ihthen ihelse =>
    rw [stmt]
    have hthen := total_stmts_of_forall ihthen
    have helse := total_stmts_of_forall ihelse
    refine (total_expr hc he).bind fun _ => ?_
    refine (total_freshLabel _).bind fun _ => (total_freshLabel _).bind fun _ =>
      (total_freshLabel _).bind fun _ => (total_emit _).bind fun _ => ?_
    refine (total_openBlock _).bind fun _ => hthen.bind fun _ => (total_close _).bind fun _ => ?_
    refine Total.ite ?_ (total_openBlock _)
    exact (total_openBlock _).bind fun _ => helse.bind fun _ => (total_close _).bind fun _ =>
      total_openBlock _
  | ret =>
    rw [stmt]
    exact (total_emit _).bind fun _ => total_setTerminated _

theorem total_stmts (hc : c.Fits Γ) {ss : List BoundStmt} (h : ∀ s ∈ ss, Γ.ResolvedStmt s) :
    Total (c.stmts ss) :=
  total_stmts_of_forall fun s hs => total_stmt hc (h s hs)

/-! ## Render operations -/

theorem total_attr (hc : c.Fits Γ) {e : BoundExpr} (h : Γ.ResolvedExpr e) (name : Bytes) :
    Total (c.attr name e) :=
  (total_expr hc h).bind fun _ => (total_string name).bind fun _ => total_emit _

theorem total_attributes (hc : c.Fits Γ) {as : List BoundArg}
    (h : ∀ a ∈ as, Γ.ResolvedExpr a.value) : Total (c.attributes as) := by
  induction as with
  | nil => exact total_pure _
  | cons a as ih =>
    obtain ⟨ha, has⟩ := List.forall_mem_cons.1 h
    exact (total_attr hc ha a.name).bind fun _ => ih has

theorem total_fragment (content : MemberId) : Total (c.fragment content) :=
  (total_modifyGet fun _ => rfl).bind fun _ => (total_compute ..).bind fun _ =>
    (total_string _).bind fun _ => total_emit _

theorem total_descriptor (id : TypeId) : Total (c.descriptor id) :=
  Total.ite ((total_declare _).bind fun _ => total_pure _) (total_pure _)

theorem total_renderOp (hc : c.Fits Γ) {op : BoundOp} (h : Γ.ResolvedOp op) :
    Total (c.renderOp op) := by
  cases h with
  | openElement | text => exact (total_string _).bind fun _ => total_emit _
  | attr he => exact total_attr hc he _
  | closeElement => exact total_emit _
  | value he => exact (total_expr hc he).bind fun _ => total_emit _
  | component _ hargs =>
    refine Total.bound_bind ⟨_, rfl, (total_descriptor _).bind fun _ => ?_⟩
    refine (total_emit _).bind fun _ => (total_attributes hc hargs).bind fun _ => ?_
    split
    · exact (total_fragment _).bind fun _ => total_emit _
    · exact total_emit _

theorem total_renderOps (hc : c.Fits Γ) {ops : List BoundOp} (h : ∀ op ∈ ops, Γ.ResolvedOp op) :
    Total (c.renderOps ops) := by
  induction ops with
  | nil => exact total_pure _
  | cons op ops ih =>
    obtain ⟨hop, hops⟩ := List.forall_mem_cons.1 h
    exact (total_renderOp hc hop).bind fun _ => ih hops

end LowerScope

end Code

namespace TypingContext

variable {Γ : TypingContext}

theorem resolved_childBlocks {ops : List BoundOp} (h : ∀ op ∈ ops, Γ.ResolvedOp op) :
    ∀ block ∈ BoundOp.childBlocks ops, ∀ op ∈ block, Γ.ResolvedOp op := by
  intro block hblock
  obtain ⟨op, hop, hchild⟩ := List.mem_filterMap.1 hblock
  split at hchild
  · obtain rfl : _ = block := by simpa using hchild
    cases h _ hop with
    | component _ _ hops => exact hops
  · simp at hchild

theorem resolved_levels (depth : Nat) {blocks : List (List BoundOp)}
    (h : ∀ block ∈ blocks, ∀ op ∈ block, Γ.ResolvedOp op) :
    ∀ block ∈ BoundOp.levels depth blocks, ∀ op ∈ block, Γ.ResolvedOp op := by
  induction depth generalizing blocks with
  | zero => simp [BoundOp.levels]
  | succ depth ih =>
    intro block hblock
    rcases List.mem_append.1 hblock with hblock | hblock
    · exact h block hblock
    · refine ih (fun inner hinner => ?_) block hblock
      obtain ⟨outer, houter, hinner⟩ := List.mem_flatMap.1 hinner
      exact resolved_childBlocks (h outer houter) inner hinner

end TypingContext

namespace Code

open Lower

/-! ## Functions -/

theorem total_function (f : Function) {body : Lower Unit} (h : Total body) :
    Total (function f body) := by
  refine (total_modify fun _ => by rfl).bind fun _ => h.bind fun _ => total_get.bind fun _ => ?_
  exact Total.ite ((total_emit _).bind fun _ => total_get.bind fun _ => total_pure _)
    (total_get.bind fun _ => total_pure _)

namespace LowerScope

variable {c : LowerScope} {Γ : TypingContext}

theorem total_defaultValue (type : Bytes) : Total (defaultValue type) :=
  (total_pure _).ite ((total_pure _).ite ((total_string []).ite (total_pure _)))

theorem total_initMembers (hc : c.Fits Γ) (index : Nat) (ms : List MemberSymbol)
    {inits : List (Option BoundExpr)} (h : ∀ init ∈ inits, ∀ e ∈ init, Γ.ResolvedExpr e) :
    Total (c.initMembers index ms inits) := by
  induction inits generalizing index ms with
  | nil => cases ms <;> exact total_pure _
  | cons init inits ih =>
    obtain ⟨hinit, hinits⟩ := List.forall_mem_cons.1 h
    cases ms with
    | nil => exact total_pure _
    | cons m ms =>
      have hrest (value : Operand) : Total (do
          let address ← c.fieldAddress { owner := c.current, index }
          emit (.store (.ofName m.type) value address)
          c.initMembers (index + 1) ms inits) :=
        (total_fieldAddress _).bind fun _ => (total_emit _).bind fun _ => ih _ _ hinits
      cases init with
      | none => exact (total_defaultValue _).bind hrest
      | some e => exact (total_expr hc (hinit e rfl)).bind fun _ => hrest _

theorem total_initFunction (hc : c.Fits Γ) (type : TypeSymbol)
    {inits : List (Option BoundExpr)} (h : ∀ init ∈ inits, ∀ e ∈ init, Γ.ResolvedExpr e) :
    Total (c.initFunction type inits) := by
  have hrest : Total (do
      let slot ← freshTemp
      emit (.field slot type.fullName 0)
      let descriptor ← c.descriptor c.current
      emit (.store .ptr descriptor.operand (.temp slot))
      c.initMembers 0 type.members inits) :=
    total_freshTemp.bind fun _ => (total_emit _).bind fun _ => (total_descriptor _).bind fun _ =>
      (total_emit _).bind fun _ => total_initMembers hc _ _ h
  refine total_function _ ?_
  split
  · exact Total.ite ((total_declare _).bind fun _ => (total_emit _).bind fun _ => hrest)
      ((total_emit _).bind fun _ => hrest)
  · exact hrest

theorem total_paramSlots (index : Nat) (types : List ValueType) :
    Total (paramSlots index types) := by
  induction types generalizing index with
  | nil => exact total_pure _
  | cons type types ih => exact (total_emit _).bind fun _ => (total_emit _).bind fun _ => ih _

theorem total_methodFunctions (hc : c.Fits Γ) (type : TypeSymbol) {fs : List MethodSymbol}
    {bs : List BoundMethod}
    (h : List.Forall₂ (fun (b : BoundMethod) (f : MethodSymbol) =>
      ∀ s ∈ b.body, { Γ with params := f.paramTypes }.ResolvedStmt s) bs fs) :
    Total (c.methodFunctions type fs bs) := by
  induction h with
  | nil => exact total_pure _
  | @cons b f bs fs hbody _ ih =>
    have hfits : Fits { c with params := f.paramTypes.map ValueType.ofName }
        { Γ with params := f.paramTypes } := ⟨hc.table, hc.current, by simp⟩
    have hf : Total (c.methodFunction type f b.body) :=
      total_function _ ((total_paramSlots ..).bind fun _ => total_stmts hfits hbody)
    exact hf.bind fun _ => ih.bind fun _ => total_pure _

theorem total_fragmentFunctions (hc : c.Fits Γ) (index : Nat) {blocks : List (List BoundOp)}
    (h : ∀ block ∈ blocks, ∀ op ∈ block, Γ.ResolvedOp op) :
    Total (c.fragmentFunctions index blocks) := by
  induction blocks generalizing index with
  | nil => exact total_pure _
  | cons ops blocks ih =>
    obtain ⟨hops, hblocks⟩ := List.forall_mem_cons.1 h
    exact (total_function _ (total_renderOps hc hops)).bind fun _ =>
      (ih _ hblocks).bind fun _ => total_pure _

theorem total_renderFunctions (hc : c.Fits Γ) {ops : List BoundOp}
    (h : ∀ op ∈ ops, Γ.ResolvedOp op) : Total (c.renderFunctions ops) := by
  have hfragments := Γ.resolved_levels (BoundOp.depths ops) (Γ.resolved_childBlocks h)
  exact (total_modify fun _ => by rfl).bind fun _ => (total_function _ (total_renderOps hc h)).bind fun _ =>
    (total_fragmentFunctions hc 0 hfragments).bind fun _ => total_pure _

end LowerScope

/-! ## Modules -/

variable {m : Model}

theorem total_typeFunctions {t : BoundType} {symbol : TypeSymbol}
    (hsymbol : m.table.get? t.id = some symbol) (h : t.Resolved m.table symbol) :
    Total (typeFunctions m t) := by
  have hfits : LowerScope.Fits { model := m, current := t.id }
      { table := m.table, current := t.id } := ⟨rfl, rfl, rfl⟩
  refine Total.bound_bind ⟨symbol, hsymbol, ?_⟩
  refine (LowerScope.total_initFunction hfits _ h.inits).bind fun _ => ?_
  refine (LowerScope.total_methodFunctions hfits _ h.methods).bind fun _ => ?_
  split
  · next ops hrender =>
    exact Total.ite ((LowerScope.total_renderFunctions hfits (h.render ops hrender)).bind
      fun _ => total_pure _) (total_pure _)
  · exact total_pure _

theorem total_functions {ts : List BoundType}
    (h : ∀ t ∈ ts, ∃ symbol, m.table.get? t.id = some symbol ∧ t.Resolved m.table symbol) :
    Total (functions m ts) := by
  induction ts with
  | nil => exact total_pure _
  | cons t ts ih =>
    obtain ⟨⟨symbol, hsymbol, ht⟩, hts⟩ := List.forall_mem_cons.1 h
    exact (total_typeFunctions hsymbol ht).bind fun _ => (ih hts).bind fun _ => total_pure _

theorem total_descriptors {ts : List BoundType} (h : ∀ t ∈ ts, (m.table.get? t.id).isSome) :
    Total (descriptors m ts) := by
  induction ts with
  | nil => exact total_pure _
  | cons t ts ih =>
    obtain ⟨ht, hts⟩ := List.forall_mem_cons.1 h
    obtain ⟨symbol, hsymbol⟩ := Option.isSome_iff_exists.1 ht
    have hd : Total (descriptorOf m t) := by
      refine Total.bound_bind ⟨symbol, hsymbol, ?_⟩
      refine Total.ite ((total_pure _).bind fun _ => ?_) ((total_string _).bind fun _ =>
        (total_pure _).bind fun _ => ?_)
      · exact (total_string _).bind fun _ => total_pure _
      · exact (total_string _).bind fun _ => total_pure _
    exact hd.bind fun _ => (ih hts).bind fun _ => total_pure _

theorem exists_lower (h : m.Resolved) (name : Bytes) : ∃ module, lower m name = .ok module := by
  have htypes : ∀ t ∈ m.types, (m.table.get? t.id).isSome := fun t ht => by
    obtain ⟨_, hsymbol, _⟩ := h t ht
    simp [hsymbol]
  have htotal : Total (do
      let fs ← functions m m.types
      let ds ← descriptors m m.types
      let manifest ← string name
      pure (fs, ds, manifest)) :=
    (total_functions h).bind fun _ => (total_descriptors htypes).bind fun _ =>
      (total_string name).bind fun _ => total_pure _
  obtain ⟨⟨fs, ds, manifest⟩, s, hrun, _⟩ := htotal.run
    { declarations := Runtime.all.foldl (fun ds f => Declaration.insert (.runtime f) ds) [] }
  unfold lower
  dsimp only
  exact ⟨_, by rw [hrun]; rfl⟩

end Code

/-! ## Analyses without errors -/

/-- Over closed references, an analysis without errors leaves nothing unbound: all that lowering
looks up is there, and it gives a module. -/
theorem Model.resolved_and_lowered {refs : List Reference} {trees : List SyntaxTree}
    (hrefs : Reference.Closed refs) (h : (Model.analyze refs trees).hasErrors = false) :
    (Model.analyze refs trees).Resolved ∧
      ∀ name, ∃ module, Code.lower (Model.analyze refs trees) name = .ok module := by
  have hresolved := (Model.typed_analyze hrefs h).resolved
  exact ⟨hresolved, Code.exists_lower hresolved⟩

/-- A library with one component. -/
def panelLibrary : Reference where
  name := "Kit"
  types := [
    { ns := "Kit", name := "Panel", kind := .component
      members := [⟨.param, "Title", "string"⟩, ⟨.param, "OnClose", "callback"⟩,
        ⟨.param, "ChildContent", "fragment"⟩]
      methods := [⟨"Show", ["int"], ["n"]⟩] }]

/-- A component on top of `panelLibrary` that uses every kind of binding. -/
def counterSource : Bytes :=
  "using Kit; namespace App;
  component Counter : Panel {
    field int count = 1; param callback Done;
    method Add(int n) {
      if (n > 0) { count = count + n; Show(count); } else { return; }
      Done();
    }
    method Reset() { count = 0; }
    render { component Panel { attr Title = Title + count; attr OnClose = Reset;
      child { expr count; } } }
  }"

def counterModel : Model := Model.analyze [panelLibrary] [.parse counterSource "counter.il"]

theorem closed_panelLibrary : Reference.Closed [panelLibrary] := by
  decide +kernel

theorem counterModel_hasErrors : counterModel.hasErrors = false := by
  rw [counterModel, counterSource, Bytes.ofString_ofList]
  decide +kernel

theorem Model.resolved_and_lowered_counter :
    Reference.Closed [panelLibrary] ∧ counterModel.hasErrors = false ∧ counterModel.Resolved ∧
      ∃ module, Code.lower counterModel "App" = .ok module := by
  have hmodel := Model.resolved_and_lowered closed_panelLibrary counterModel_hasErrors
  exact ⟨closed_panelLibrary, counterModel_hasErrors, hmodel.1, hmodel.2 "App"⟩

end ViewCompiler
