import ViewCompiler.Proofs.FunctionTyping
import ViewCompiler.Proofs.StringRequests

/-!
Where the string constants in code come from. `Lower.Draws` says of a step that its run can be read as a
sequence of requests, and that each string constant in what it emits or gives was there before, was handed to
it, or was given to one of these requests. Lowering a model draws on nothing (`draws_contents`): whatever the
code of a module refers to was requested while the module was made.

Nothing is asked of the model here. A step that fails gives no code.
-/

namespace ViewCompiler.Code

open Lower

/-! ## Operands of code -/

@[simp] def Operand.isString : Operand → Bool
  | str .. => true
  | _ => false

@[simp] def Instr.operands : Instr → List Operand
  | store _ value _ => [value]
  | arith _ _ left right | logic _ _ left right | compare _ _ _ left right => [left, right]
  | call _ _ args => args.map (·.operand)
  | branch condition _ _ => [condition]
  | _ => []

def Function.operands (f : Function) : List Operand := f.body.flatMap Instr.operands

def Descriptor.operands (d : Descriptor) : List Operand := d.name :: d.route.toList

/-- The operands in the functions, the descriptors and the manifest of a module. -/
def Module.operands (M : Module) : List Operand :=
  M.functions.flatMap Function.operands ++ M.descriptors.flatMap Descriptor.operands ++ [M.manifest]

def LowerState.operands (s : LowerState) : List Operand := s.body.flatMap Instr.operands

/-- The string constants among `os` are among the `given` operands. -/
def Supplies (given os : List Operand) : Prop := ∀ o ∈ os, o.isString = true → o ∈ given

section
variable {given os : List Operand} {o : Operand}

@[simp] theorem supplies_nil : Supplies given [] := by simp [Supplies]

@[simp] theorem supplies_cons :
    Supplies given (o :: os) ↔ (o.isString = true → o ∈ given) ∧ Supplies given os :=
  List.forall_mem_cons

theorem Supplies.append {ps : List Operand} (h : Supplies given os) (h' : Supplies given ps) :
    Supplies given (os ++ ps) :=
  List.forall_mem_append.2 ⟨h, h'⟩

theorem Supplies.mono {more : List Operand} (h : Supplies given os) (hmore : given ⊆ more) :
    Supplies more os :=
  fun o ho hstring => hmore (h o ho hstring)

theorem supplies_of_subset (h : os ⊆ given) : Supplies given os := fun _ ho _ => h ho

end

namespace Lower

section
variable {α β : Type} {given : List Operand} {x : Lower α} {f : α → Lower β} {out : α → List Operand}
  {out' : β → List Operand}

/-- The string constants that a run emits or gives as `out` were in the code before, are among the `given`
ones, or were given to one of its requests. -/
def Draws (given : List Operand) (x : Lower α) (out : α → List Operand) : Prop :=
  ∀ s a s', StateT.run x s = .ok (a, s') → ∃ requests, Makes x s requests a s' ∧
    Supplies (s.operands ++ given ++ requests.map (·.constant)) (s'.operands ++ out a)

namespace Draws

theorem bind (hx : Draws given x out) (hf : ∀ a, Draws (given ++ out a) (f a) out') :
    Draws given (x >>= f) out' := by
  intro s b s'' hrun
  obtain ⟨a, s', hxrun, hfrun⟩ := run_bind_eq_ok.1 hrun
  obtain ⟨rs, hmakes, hsupplies⟩ := hx s a s' hxrun
  obtain ⟨rs', hmakes', hsupplies'⟩ := hf a s' b s'' hfrun
  refine ⟨rs ++ rs', hmakes.bind hmakes', fun o ho hstring => ?_⟩
  have hfirst (h : o ∈ s'.operands ++ out a) : o ∈ s.operands ++ given ++ rs.map (·.constant) :=
    hsupplies o h hstring
  have hsecond := hsupplies' o ho hstring
  simp only [List.mem_append, List.map_append] at hfirst hsecond ⊢
  tauto

/-- A step without requests. -/
theorem ignores (hx : Ignores x) (h : ∀ s a s', StateT.run x s = .ok (a, s') →
    Supplies (s.operands ++ given) (s'.operands ++ out a)) : Draws given x out := by
  intro s a s' hrun
  refine ⟨[], .ignores hx hrun, ?_⟩
  rw [List.map_nil, List.append_nil]
  exact h s a s' hrun

theorem pure {a : α} (h : Supplies given (out a)) : Draws given (pure a : Lower α) out := by
  refine .ignores (ignores_pure a) ?_
  rintro s _ _ ⟨⟩ o ho hstring
  rcases List.mem_append.1 ho with ho | ho
  · exact List.mem_append_left _ ho
  · exact List.mem_append_right _ (h o ho hstring)

theorem bound (o : Option α) : Draws given (bound o) fun _ => [] := by
  refine .ignores (ignores_bound o) ?_
  cases o with
  | none => rintro s a s' ⟨⟩
  | some a =>
    rintro s _ _ ⟨⟩ o ho -
    rw [List.append_nil] at ho
    exact List.mem_append_left _ ho

theorem ite {p : Prop} [Decidable p] {y : Lower α} (hx : Draws given x out) (hy : Draws given y out) :
    Draws given (if p then x else y) out := by
  split
  · exact hx
  · exact hy

/-- A step that leaves code and constants alone. -/
theorem modifyGet {g : LowerState → α × LowerState} (hbody : ∀ s, (g s).2.body = s.body)
    (hstrings : ∀ s strings, g { s with strings } = ((g s).1, { (g s).2 with strings })) :
    Draws given (modifyGet g : Lower α) fun _ => [] := by
  refine .ignores (ignores_modifyGet hstrings) ?_
  intro s a s' hrun o ho _
  obtain rfl : (g s).2 = s' := congrArg Prod.snd (Except.ok.inj hrun)
  rw [List.append_nil, LowerState.operands, hbody] at ho
  exact List.mem_append_left _ ho

theorem emit {i : Instr} (h : Supplies given i.operands) : Draws given (emit i) fun _ => [] := by
  refine .ignores (ignores_modifyGet fun _ _ => rfl) ?_
  rintro s _ _ ⟨⟩ o ho hstring
  rw [List.append_nil, LowerState.operands, List.flatMap_append, List.flatMap_singleton] at ho
  rcases List.mem_append.1 ho with ho | ho
  · exact List.mem_append_left _ ho
  · exact List.mem_append_right _ (h o ho hstring)

theorem string (text : Bytes) : Draws given (string text) fun o => [o] := by
  intro s o s' hrun
  refine ⟨[⟨text, o⟩], .string hrun, fun p hp _ => ?_⟩
  have hbody : s'.operands = s.operands := by
    replace hrun := Except.ok.inj hrun
    dsimp only at hrun
    split at hrun <;> exact congrArg (LowerState.operands ∘ Prod.snd) hrun.symm
  rw [hbody] at hp
  rcases List.mem_append.1 hp with hp | hp
  · exact List.mem_append_left _ (List.mem_append_left _ hp)
  · exact List.mem_append_right _ hp

/-- What follows a step that gives no operands. -/
theorem skip (hx : Draws given x fun _ => []) (hf : ∀ a, Draws given (f a) out') :
    Draws given (x >>= f) out' := by
  rw [← List.append_nil given] at hf
  exact hx.bind hf

theorem bound_bind {o : Option α} (hf : ∀ a, Draws given (f a) out') :
    Draws given (Lower.bound o >>= f) out' := (bound o).skip hf

theorem freshTemp : Draws given freshTemp fun _ => [] := .modifyGet (fun _ => rfl) fun _ _ => rfl

theorem freshLabel (kind : LabelKind) : Draws given (freshLabel kind) fun _ => [] :=
  .modifyGet (fun _ => rfl) fun _ _ => rfl

theorem declare (d : Declaration) : Draws given (declare d) fun _ => [] :=
  .modifyGet (fun _ => rfl) fun _ _ => rfl

theorem setTerminated (b : Bool) : Draws given (setTerminated b) fun _ => [] :=
  .modifyGet (fun _ => rfl) fun _ _ => rfl

/-- What follows depends on whether the block is closed. -/
theorem terminated (g : Bool → Lower α) (h : ∀ b, Draws given (g b) out) :
    Draws given (get >>= fun s : LowerState => g s.terminated) out := by
  have hview : Draws given (MonadStateOf.modifyGet fun s : LowerState => (s.terminated, s) : Lower Bool)
      fun _ => [] := .modifyGet (fun _ => rfl) fun _ _ => rfl
  exact hview.skip h

/-- A step that is left out in a closed block. -/
theorem unlessTerminated {x : Lower Unit} (hx : Draws given x fun _ => []) :
    Draws given (do let s ← get; if ¬ s.terminated then x) fun _ => [] :=
  .terminated (fun b => if ¬ b then x else Pure.pure ()) fun _ => .ite hx (.pure (by simp))

/-- An instruction whose result is a temporary. -/
theorem value {i : Nat → Instr} {type : ValueType} (h : ∀ d, Supplies given (i d).operands) :
    Draws given (do let d ← Lower.freshTemp; Lower.emit (i d); Pure.pure (⟨.temp d, type⟩ : Value))
      fun v => [v.operand] :=
  freshTemp.skip fun d => (emit (h d)).skip fun _ => .pure (by simp)

theorem compute {fn : Runtime} {type : ValueType} {args : List Value}
    (h : Supplies given (args.map (·.operand))) :
    Draws given (compute fn type args) fun v => [v.operand] :=
  .value fun _ => h

end Draws

end

end Lower

namespace LowerScope

variable {given : List Operand} {c : LowerScope}

/-! ## Expressions -/

theorem draws_method (id : MethodId) : Draws given (c.method id) fun _ => [] :=
  .bound_bind fun _ => .bound_bind fun _ =>
    .ite ((Draws.declare _).skip fun _ => .pure (by simp)) (.pure (by simp))

theorem draws_descriptor (id : TypeId) : Draws given (c.descriptor id) fun v => [v.operand] :=
  .ite ((Draws.declare _).skip fun _ => .pure (by simp)) (.pure (by simp))

theorem draws_fieldAddress (id : MemberId) : Draws given (c.fieldAddress id) fun _ => [] :=
  Draws.freshTemp.skip fun _ => (Draws.emit (by simp)).skip fun _ => .pure (by simp)

theorem draws_read (b : Binding) : Draws given (c.read b) fun v => [v.operand] := by
  cases b with
  | param i => exact .bound_bind fun _ => .value fun _ => by simp
  | member id => exact (draws_fieldAddress id).skip fun _ => .value fun _ => by simp
  | method id => exact (draws_method id).skip fun _ => .compute (by simp)

section
variable {l r : Operand} (h : Supplies given [l, r])
include h

theorem draws_arith (op : ArithOp) : Draws given (arith op l r) fun v => [v.operand] :=
  .value fun _ => h

theorem draws_logic (op : LogicOp) : Draws given (logic op l r) fun v => [v.operand] :=
  .value fun _ => h

theorem draws_compare (p : Predicate) (type : ValueType) :
    Draws given (compare p type l r) fun v => [v.operand] :=
  .value fun _ => h

end

theorem draws_toText {value : Value} (h : Supplies given [value.operand]) (type : Ty) :
    Draws given (toText value type) fun v => [v.operand] := by
  unfold toText
  split
  · exact .pure h
  · exact .compute h
  · exact .compute h

section
variable {l r : Value} (h : Supplies given [l.operand, r.operand])
include h

theorem draws_concat (lt rt : Ty) : Draws given (concat l r lt rt) fun v => [v.operand] := by
  simp only [supplies_cons, supplies_nil, and_true] at h
  refine (draws_toText (by simpa using h.1) lt).bind fun _ => ?_
  refine (draws_toText ?_ rt).bind fun _ => .compute (by simp)
  simpa using fun hstring => .inl (h.2 hstring)

theorem draws_equality (equal : Bool) (lt : Ty) :
    Draws given (equality equal l r lt) fun v => [v.operand] :=
  .ite ((Draws.compute h).bind fun _ => .ite (.pure (by simp)) (draws_logic (by simp) .xor))
    (draws_compare h _ _)

theorem draws_binary (op : BinaryOp) (lt rt : Ty) :
    Draws given (binary op l r lt rt) fun v => [v.operand] := by
  cases op with
  | add => exact .ite (draws_arith h _) (draws_concat h _ _)
  | sub | mul | div | mod => exact draws_arith h _
  | eq | ne => exact draws_equality h _ _
  | lt | gt | le | ge => exact draws_compare h _ _
  | and | or => exact draws_logic h _

end

theorem draws_expr (e : BoundExpr) : Draws given (c.expr e) fun v => [v.operand] := by
  induction e generalizing given with
  | int | bool => exact .pure (by simp)
  | string _ text => exact (Draws.string text).bind fun _ => .pure (by simp)
  | name => exact .bound_bind fun _ => draws_read _
  | unary _ op _ _ ih =>
    refine ih.bind fun _ => ?_
    cases op with
    | not => exact draws_logic (by simp) _
    | neg => exact draws_arith (by simp) _
  | binary _ op _ _ _ ihl ihr => exact ihl.bind fun _ => ihr.bind fun _ => draws_binary (by simp) _ _ _

/-! ## Statements -/

theorem draws_write {value : Value} (h : Supplies given [value.operand]) (b : Binding) :
    Draws given (c.write value b) fun _ => [] := by
  cases b with
  | param i => exact .emit h
  | member id => exact (draws_fieldAddress id).skip fun _ => .emit h
  | method id => exact .bound none

theorem draws_arguments (types : List ValueType) (es : List BoundExpr) :
    Draws given (c.arguments types es) fun vs => vs.map (·.operand) := by
  induction es generalizing given types with
  | nil => cases types <;> exact .pure (by simp)
  | cons e es ih =>
    cases types with
    | nil => exact .pure (by simp)
    | cons => exact (draws_expr e).bind fun _ => (ih _).bind fun _ => .pure (supplies_of_subset (by simp))

theorem draws_call (args : List BoundExpr) (b : CallBinding) : Draws given (c.call args b) fun _ => [] := by
  cases b with
  | callback target => exact (draws_read target).bind fun _ => .emit (by simp)
  | method id receiver =>
    have hrest {given : List Operand} {object : Operand} (hobject : Supplies given [object]) :
        Draws given (do
          let method ← bound (c.table.method? id)
          let args ← c.arguments (method.paramTypes.map ValueType.ofName) args
          let symbol ← c.method id
          emit (.call none (.method symbol) (⟨object, .ptr⟩ :: args))) fun _ => [] := by
      refine .bound_bind fun _ => (draws_arguments _ _).bind fun vs => (draws_method id).skip fun _ => ?_
      refine .emit (Supplies.append (hobject.mono (List.subset_append_left ..)) (supplies_of_subset ?_))
      exact List.subset_append_right ..
    cases receiver with
    | none =>
      have hself : Draws given (pure .self : Lower Operand) fun o => [o] := .pure (by simp)
      exact hself.bind fun _ => hrest (by simp)
    | some b => exact (draws_read b).bind fun _ => hrest (by simp)

theorem draws_close (target : Label) : Draws given (close target) fun _ => [] :=
  .unlessTerminated (.emit (by simp))

theorem draws_openBlock (l : Label) : Draws given (openBlock l) fun _ => [] :=
  (Draws.emit (by simp)).skip fun _ => .setTerminated false

mutual

theorem draws_stmt {given : List Operand} : (s : BoundStmt) → Draws given (c.stmt s) fun _ => []
  | .assign .. => by
    rw [stmt]
    exact (draws_expr _).bind fun _ => .bound_bind fun _ => draws_write (by simp) _
  | .call .. => by
    rw [stmt]
    exact .bound_bind fun _ => draws_call _ _
  | .cond _ _ thenBody elseBody => by
    rw [stmt]
    refine (draws_expr _).bind fun _ => (Draws.freshLabel _).skip fun _ => (Draws.freshLabel _).skip fun _ =>
      (Draws.freshLabel _).skip fun _ => (Draws.emit (by simp)).skip fun _ => ?_
    refine (draws_openBlock _).skip fun _ => (draws_stmts thenBody).skip fun _ =>
      (draws_close _).skip fun _ => .ite ?_ (draws_openBlock _)
    exact (draws_openBlock _).skip fun _ => (draws_stmts elseBody).skip fun _ =>
      (draws_close _).skip fun _ => draws_openBlock _
  | .ret _ => by
    rw [stmt]
    exact (Draws.emit (by simp)).skip fun _ => .setTerminated true

theorem draws_stmts {given : List Operand} : (ss : List BoundStmt) → Draws given (c.stmts ss) fun _ => []
  | [] => by
    rw [stmts]
    exact .pure (by simp)
  | s :: ss => by
    rw [stmts]
    exact .unlessTerminated ((draws_stmt s).skip fun _ => draws_stmts ss)

end

/-! ## Render operations -/

theorem draws_attr (name : Bytes) (e : BoundExpr) : Draws given (c.attr name e) fun _ => [] :=
  (draws_expr e).bind fun _ => (Draws.string name).bind fun _ => .emit (by simp)

theorem draws_attributes (as : List BoundArg) : Draws given (c.attributes as) fun _ => [] := by
  induction as with
  | nil => exact .pure (by simp)
  | cons a as ih => exact (draws_attr a.name a.value).skip fun _ => ih

theorem draws_fragment (content : MemberId) : Draws given (c.fragment content) fun _ => [] := by
  refine Draws.skip (.modifyGet (fun _ => rfl) fun _ _ => rfl) fun _ => ?_
  exact (Draws.compute (by simp)).bind fun _ => (Draws.string _).bind fun _ => .emit (by simp)

theorem draws_renderOp (op : BoundOp) : Draws given (c.renderOp op) fun _ => [] := by
  cases op with
  | openElement | text => exact (Draws.string _).bind fun _ => .emit (by simp)
  | attr => exact draws_attr _ _
  | closeElement => exact .emit (by simp)
  | value => exact (draws_expr _).bind fun _ => .emit (by simp)
  | component =>
    refine .bound_bind fun _ => (draws_descriptor _).bind fun _ => (Draws.emit (by simp)).skip fun _ =>
      (draws_attributes _).skip fun _ => ?_
    split
    · exact (draws_fragment _).skip fun _ => .emit (by simp)
    · exact .emit (by simp)

theorem draws_renderOps (ops : List BoundOp) : Draws given (c.renderOps ops) fun _ => [] := by
  induction ops with
  | nil => exact .pure (by simp)
  | cons op ops ih => exact (draws_renderOp op).skip fun _ => ih

end LowerScope

/-! ## Functions -/

/-- A function keeps the code of its body. -/
theorem draws_function {given : List Operand} {body : Lower Unit} (f : Function)
    (h : Draws given body fun _ => []) : Draws given (function f body) Function.operands := by
  have hreset : Draws given (modify LowerState.fresh : Lower Unit) fun _ => [] := by
    refine .ignores (ignores_modifyGet fun _ _ => rfl) ?_
    rintro s _ _ ⟨⟩
    exact supplies_nil
  have hkeep : Draws given (get >>= fun s : LowerState => pure { f with body := s.body } : Lower Function)
      Function.operands := by
    refine .ignores (fun _ _ => rfl) ?_
    rintro s _ _ ⟨⟩
    exact supplies_of_subset (by simp [Function.operands, LowerState.operands])
  refine hreset.skip fun _ => h.skip fun _ => .terminated (fun b =>
    if ¬ b then emit .ret >>= fun _ => get >>= fun s : LowerState => pure { f with body := s.body }
    else get >>= fun s : LowerState => pure { f with body := s.body }) fun _ => ?_
  exact .ite ((Draws.emit (by simp)).skip fun _ => hkeep) hkeep

namespace LowerScope

variable {given : List Operand} {c : LowerScope}

theorem draws_defaultValue (type : Bytes) : Draws given (defaultValue type) fun o => [o] :=
  .ite (.pure (by simp)) (.ite (.pure (by simp)) (.ite (.string _) (.pure (by simp))))

theorem draws_initMembers (index : Nat) (ms : List MemberSymbol) (inits : List (Option BoundExpr)) :
    Draws given (c.initMembers index ms inits) fun _ => [] := by
  induction inits generalizing given index ms with
  | nil => cases ms <;> exact .pure (by simp)
  | cons init inits ih =>
    cases ms with
    | nil => exact .pure (by simp)
    | cons m ms =>
      have hrest {given : List Operand} {value : Operand} (hvalue : Supplies given [value]) :
          Draws given (do
            let address ← c.fieldAddress { owner := c.current, index }
            emit (.store (.ofName m.type) value address)
            c.initMembers (index + 1) ms inits) fun _ => [] :=
        (draws_fieldAddress _).skip fun _ => (Draws.emit hvalue).skip fun _ => ih _ _
      cases init with
      | none => exact (draws_defaultValue _).bind fun _ => hrest (by simp)
      | some e => exact (draws_expr e).bind fun _ => hrest (by simp)

theorem draws_initFunction (type : TypeSymbol) (inits : List (Option BoundExpr)) :
    Draws given (c.initFunction type inits) Function.operands := by
  have hrest : Draws given (do
      let slot ← freshTemp
      emit (.field slot type.fullName 0)
      let descriptor ← c.descriptor c.current
      emit (.store .ptr descriptor.operand (.temp slot))
      c.initMembers 0 type.members inits) fun _ => [] :=
    Draws.freshTemp.skip fun _ => (Draws.emit (by simp)).skip fun _ => (draws_descriptor _).bind fun _ =>
      (Draws.emit (by simp)).skip fun _ => draws_initMembers _ _ _
  refine draws_function _ ?_
  split
  · have hcall {x : Lower Unit} (hx : Draws given x fun _ => []) (symbol : Bytes) : Draws given (do
        emit (.call none (.method symbol) [⟨.self, .ptr⟩])
        x) fun _ => [] := (Draws.emit (by simp)).skip fun _ => hx
    exact .ite ((Draws.declare _).skip fun _ => hcall hrest _) (hcall hrest _)
  · exact hrest

theorem draws_paramSlots (index : Nat) (types : List ValueType) :
    Draws given (paramSlots index types) fun _ => [] := by
  induction types generalizing index with
  | nil => exact .pure (by simp)
  | cons type types ih =>
    exact (Draws.emit (by simp)).skip fun _ => (Draws.emit (by simp)).skip fun _ => ih _

theorem draws_methodFunctions (type : TypeSymbol) (ms : List MethodSymbol) (bs : List BoundMethod) :
    Draws given (c.methodFunctions type ms bs) (·.flatMap Function.operands) := by
  induction ms generalizing given bs with
  | nil => exact .pure (by simp)
  | cons m ms ih =>
    cases bs with
    | nil => exact .pure (by simp)
    | cons b bs =>
      refine (draws_function _ ((draws_paramSlots _ _).skip fun _ => draws_stmts _)).bind fun _ => ?_
      exact (ih _).bind fun _ => .pure (supplies_of_subset (by simp))

theorem draws_fragmentFunctions (index : Nat) (blocks : List (List BoundOp)) :
    Draws given (c.fragmentFunctions index blocks) (·.flatMap Function.operands) := by
  induction blocks generalizing given index with
  | nil => exact .pure (by simp)
  | cons ops blocks ih =>
    exact (draws_function _ (draws_renderOps _)).bind fun _ => (ih _).bind fun _ =>
      .pure (supplies_of_subset (by simp))

theorem draws_renderFunctions (ops : List BoundOp) :
    Draws given (c.renderFunctions ops) (·.flatMap Function.operands) := by
  refine Draws.skip (.modifyGet (fun _ => rfl) fun _ _ => rfl) fun _ => ?_
  exact (draws_function _ (draws_renderOps _)).bind fun _ => (draws_fragmentFunctions _ _).bind fun _ =>
    .pure (supplies_of_subset (by simp))

end LowerScope

/-! ## Modules -/

section
variable {given : List Operand} (m : Model)

theorem draws_typeFunctions (t : BoundType) :
    Draws given (typeFunctions m t) (·.flatMap Function.operands) := by
  refine .bound_bind fun type => (LowerScope.draws_initFunction type _).bind fun init =>
    (LowerScope.draws_methodFunctions type _ _).bind fun methods => ?_
  split
  · refine .ite ((LowerScope.draws_renderFunctions _).bind fun _ => ?_) ?_
    · exact .pure (supplies_of_subset (by simp))
    · exact .pure (supplies_of_subset (by simp))
  · exact .pure (supplies_of_subset (by simp))

theorem draws_functions (ts : List BoundType) :
    Draws given (functions m ts) (·.flatMap Function.operands) := by
  induction ts generalizing given with
  | nil => exact .pure (by simp)
  | cons t ts ih =>
    exact (draws_typeFunctions m t).bind fun _ => ih.bind fun _ => .pure (supplies_of_subset (by simp))

theorem draws_descriptorOf (t : BoundType) : Draws given (descriptorOf m t) Descriptor.operands := by
  refine .bound_bind fun type => ?_
  have hname {given : List Operand} {route : Option Operand} (hroute : Supplies given route.toList) :
      Draws given (do
        let name ← string type.fullName
        pure { type := type.fullName, name, route, isComponent := type.isComponent, render := renderOf m t })
      Descriptor.operands := by
    refine (Draws.string _).bind fun name => .pure ?_
    exact supplies_cons.2 ⟨by simp, hroute.mono (List.subset_append_left ..)⟩
  have hroute {given : List Operand} {route : Option Operand} (h : Supplies given route.toList) :
      Draws given (pure route : Lower (Option Operand)) Option.toList := .pure h
  refine .ite ?_ ((Draws.string _).bind fun constant => ?_)
  · exact (hroute supplies_nil).bind fun _ => hname (supplies_of_subset (by simp))
  · exact (hroute (by simp)).bind fun _ => hname (supplies_of_subset (by simp))

theorem draws_descriptors (ts : List BoundType) :
    Draws given (descriptors m ts) (·.flatMap Descriptor.operands) := by
  induction ts generalizing given with
  | nil => exact .pure (by simp)
  | cons t ts ih =>
    exact (draws_descriptorOf m t).bind fun _ => ih.bind fun _ => .pure (supplies_of_subset (by simp))

/-- The code of a module under the given assembly name: its functions, its descriptors and its manifest. -/
def contents (name : Bytes) : Lower (List Function × List Descriptor × Operand) := do
  let fs ← functions m m.types
  let ds ← descriptors m m.types
  let manifest ← string name
  pure (fs, ds, manifest)

theorem draws_contents (name : Bytes) : Draws [] (contents m name) fun (fs, ds, manifest) =>
    fs.flatMap Function.operands ++ ds.flatMap Descriptor.operands ++ [manifest] := by
  refine (draws_functions m _).bind fun _ => (draws_descriptors m _).bind fun _ =>
    (Draws.string name).bind fun _ => .pure (supplies_of_subset (by simp))

end

end ViewCompiler.Code
