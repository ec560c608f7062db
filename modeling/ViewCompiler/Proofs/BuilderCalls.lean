import Mathlib.Data.List.Intervals
import ViewCompiler.Proofs.FunctionTyping

/-!
What lowered render operations do with the builder. Their code appends to the body
(`LowerState.Adds`): evaluating an expression calls nothing on the builder, each operation makes its
own calls (`BoundOp.calls`), and child blocks become fragments in the order of their numbers.

Operations that the analysis accepts nest (`BoundOp.Nested`), so the calls of a block are a word of
the grammar that the builder expects (`Content`).
-/

namespace ViewCompiler

namespace Code

namespace Runtime

/-- Adds an attribute to the element or component that was opened last. -/
def addsAttribute : Runtime → Bool
  | addAttribute | addAttributeInt | addAttributeBool | addAttributeCallback
  | addAttributeFragment | addAttributeObject => true
  | _ => false

/-- Adds a text, a value or a fragment. -/
def addsContent : Runtime → Bool
  | addText | addContent | addContentInt | addContentBool | addFragment => true
  | _ => false

end Runtime

/-- The calls that a builder takes: texts, values and fragments among elements and components. All
attributes come first; an element has content again, a component has none here. -/
inductive Content : List Runtime → Prop
  | nil : Content []
  | leaf : f.addsContent → Content w → Content (f :: w)
  | element : (∀ f ∈ attrs, f.addsAttribute) → Content v → Content w →
    Content (.openElement :: attrs ++ v ++ .closeElement :: w)
  | component : (∀ f ∈ attrs, f.addsAttribute) → Content w →
    Content (.openComponent :: attrs ++ .closeComponent :: w)

/-- What is left of content while `n` elements are open. -/
inductive Rest : Nat → List Runtime → Prop
  | done : Content w → Rest 0 w
  | close : Content v → Rest n w → Rest (n + 1) (v ++ .closeElement :: w)

section
variable {u w : List Runtime} {n : Nat}

theorem Content.append (hu : Content u) (hw : Content w) : Content (u ++ w) := by
  induction hu with
  | nil => exact hw
  | leaf hf _ ih => exact .leaf hf ih
  | element hattrs hinner _ _ ih => simpa using Content.element hattrs hinner ih
  | component hattrs _ ih => simpa using Content.component hattrs ih

theorem Rest.append (hu : Content u) (hw : Rest n w) : Rest n (u ++ w) := by
  cases hw with
  | done hw => exact .done (hu.append hw)
  | close hinner hw =>
    rw [← List.append_assoc]
    exact .close (hu.append hinner) hw

end

/-! ## Instructions -/

namespace Instr

/-- The runtime function that an instruction calls on the builder. -/
def builderCall? : Instr → Option Runtime
  | .call _ (.runtime f) args => if args.any (·.operand = .builder) then some f else none
  | _ => none

/-- What an instruction makes a fragment of. -/
def madeFragment? : Instr → Option (List Operand)
  | .call _ (.runtime .makeFragment) args => some (args.map (·.operand))
  | _ => none

/-- The instruction neither takes the builder nor makes a fragment. -/
structure Quiet (i : Instr) : Prop where
  call : i.builderCall? = none
  fragment : i.madeFragment? = none

theorem quiet_call {dest : Option (Nat × ValueType)} {f : Runtime} {args : List Value}
    (hf : f ≠ .makeFragment) (hargs : ∀ a ∈ args, a.operand ≠ .builder) :
    Quiet (.call dest (.runtime f) args) where
  call := by
    have hnone : args.any (·.operand = .builder) = false := by simpa using hargs
    simp [builderCall?, hnone]
  fragment := by
    cases f with
    | makeFragment => exact absurd rfl hf
    | _ => rfl

end Instr

end Code

namespace BoundOp

open Code

/-- The block that stands inside a component. -/
def child? : BoundOp → Option (List BoundOp)
  | .component _ _ _ (some _) child _ => some child
  | _ => none

/-- The calls on the builder that an operation becomes. -/
def calls : BoundOp → List Runtime
  | .openElement _ _ => [.openElement]
  | .attr _ _ e => [(LowerScope.attributeRuntime e.type).1]
  | .closeElement _ => [.closeElement]
  | .text _ _ => [.addText]
  | .value _ e => [(LowerScope.contentRuntime e.type).1]
  | .component _ _ args childSpan _ content =>
    .openComponent :: (args.map (fun a => (LowerScope.attributeRuntime a.value.type).1) ++
      match childSpan, content with
      | some _, some _ => [.addAttributeFragment, .closeComponent]
      | _, _ => [.closeComponent])

end BoundOp

namespace Code

open Lower

/-! ## Steps of lowering -/

/-- From `s` to `s'` code is added that makes these calls on the builder, and fragments of the next
functions of `owner`. -/
structure LowerState.Adds (owner : Bytes) (s : LowerState) (calls : List Runtime)
    (s' : LowerState) : Prop where
  code : ∃ code, s'.body = s.body ++ code ∧ code.filterMap Instr.builderCall? = calls ∧
    code.filterMap Instr.madeFragment? = (List.Ico s.fragments s'.fragments).map fun i =>
      [.function (fragmentSymbol owner i), .self]
  fragments : s.fragments ≤ s'.fragments
  strings : s.strings <+: s'.strings
  terminated : s'.terminated = s.terminated

namespace LowerState

variable {owner : Bytes} {s s' s'' : LowerState} {calls calls' : List Runtime}

theorem Adds.trans (h : s.Adds owner calls s') (h' : s'.Adds owner calls' s'') :
    s.Adds owner (calls ++ calls') s'' := by
  obtain ⟨⟨code, hbody, hcalls, hmade⟩, hle, hstrings, hopen⟩ := h
  obtain ⟨⟨code', hbody', hcalls', hmade'⟩, hle', hstrings', hopen'⟩ := h'
  refine ⟨⟨code ++ code', ?_, ?_, ?_⟩, Nat.le_trans hle hle', hstrings.trans hstrings',
    hopen'.trans hopen⟩
  · rw [hbody', hbody, List.append_assoc]
  · rw [List.filterMap_append, hcalls, hcalls']
  · rw [List.filterMap_append, hmade, hmade', ← List.map_append,
      List.Ico.append_consecutive hle hle']

/-- A state with the same body. -/
theorem adds_nil (hbody : s'.body = s.body) (hfragments : s'.fragments = s.fragments)
    (hopen : s'.terminated = s.terminated) (hstrings : s.strings <+: s'.strings) :
    s.Adds owner [] s' :=
  ⟨⟨[], by simp [hbody], rfl, by simp [hfragments]⟩, hfragments.ge, hstrings, hopen⟩

end LowerState

/-- The step adds code that makes these calls on the builder, and its result has the property
`Q`. -/
def Lower.Calls (owner : Bytes) (calls : List Runtime) {α : Type} (x : Lower α) (Q : α → Prop) :
    Prop :=
  ∀ s a s', StateT.run x s = .ok (a, s') → Q a ∧ s.Adds owner calls s'

/-- The value is not the builder. -/
def Value.Plain (v : Value) : Prop := v.operand ≠ .builder

namespace Lower.Calls

variable {owner : Bytes} {calls calls' : List Runtime} {α β : Type} {x : Lower α} {f : α → Lower β}
  {Q : α → Prop} {R : β → Prop}

theorem pure {a : α} (ha : Q a) : Calls owner [] (pure a : Lower α) Q := by
  rintro s _ _ ⟨⟩
  exact ⟨ha, LowerState.adds_nil rfl rfl rfl List.prefix_rfl⟩

theorem bind (hx : Calls owner calls x Q) (hf : ∀ a, Q a → Calls owner calls' (f a) R) :
    Calls owner (calls ++ calls') (x >>= f) R := by
  intro s b s'' hrun
  obtain ⟨a, s', hxrun, hfrun⟩ := run_bind_eq_ok.1 hrun
  obtain ⟨ha, hadds⟩ := hx s a s' hxrun
  obtain ⟨hb, hadds'⟩ := hf a ha s' b s'' hfrun
  exact ⟨hb, hadds.trans hadds'⟩

/-- What follows a step that leaves the builder alone. -/
theorem skip (hx : Calls owner [] x Q) (hf : ∀ a, Q a → Calls owner calls (f a) R) :
    Calls owner calls (x >>= f) R := hx.bind hf

theorem bound_bind {o : Option α} (hf : ∀ a, Calls owner calls (f a) R) :
    Calls owner calls (bound o >>= f) R := by
  intro s b s' hrun
  cases o with
  | none => cases hrun
  | some a => exact hf a s b s' hrun

theorem ite {p : Prop} [Decidable p] {y : Lower α} (hx : Calls owner calls x Q)
    (hy : Calls owner calls y Q) : Calls owner calls (if p then x else y) Q := by
  split
  · exact hx
  · exact hy

/-- A step that leaves the body alone. -/
theorem modifyGet {g : LowerState → α × LowerState} (hbody : ∀ s, (g s).2.body = s.body)
    (hfragments : ∀ s, (g s).2.fragments = s.fragments)
    (hopen : ∀ s, (g s).2.terminated = s.terminated)
    (hstrings : ∀ s, s.strings <+: (g s).2.strings) (hQ : ∀ s, Q (g s).1) :
    Calls owner [] (modifyGet g : Lower α) Q := by
  intro s a s' hrun
  obtain rfl : (g s).1 = a := congrArg Prod.fst (Except.ok.inj hrun)
  obtain rfl : (g s).2 = s' := congrArg Prod.snd (Except.ok.inj hrun)
  exact ⟨hQ s, LowerState.adds_nil (hbody s) (hfragments s) (hopen s) (hstrings s)⟩

/-- An instruction that makes no fragment. -/
theorem emit {i : Instr} (hi : i.madeFragment? = none) :
    Calls owner i.builderCall?.toList (emit i) fun _ => True := by
  rintro s _ _ ⟨⟩
  refine ⟨trivial, ⟨[i], rfl, ?_, by simp [hi]⟩, Nat.le_refl _, List.prefix_rfl, rfl⟩
  cases hcall : i.builderCall? <;> simp [hcall]

theorem emit_quiet {i : Instr} (hi : i.Quiet) : Calls owner [] (Lower.emit i) fun _ => True := by
  have h : Calls owner i.builderCall?.toList (Lower.emit i) fun _ => True := emit hi.fragment
  rwa [hi.call] at h

theorem freshTemp : Calls owner [] freshTemp fun _ => True :=
  modifyGet (fun _ => rfl) (fun _ => rfl) (fun _ => rfl) (fun _ => List.prefix_rfl) fun _ => trivial

theorem declare (d : Declaration) : Calls owner [] (declare d) fun _ => True :=
  modifyGet (fun _ => rfl) (fun _ => rfl) (fun _ => rfl) (fun _ => List.prefix_rfl) fun _ => trivial

theorem string (text : Bytes) : Calls owner [] (string text) (· ≠ .builder) := by
  refine modifyGet (fun s => ?_) (fun s => ?_) (fun s => ?_) (fun s => ?_) fun s => ?_
  · split <;> rfl
  · split <;> rfl
  · split <;> rfl
  · split
    · exact List.prefix_rfl
    · exact List.prefix_append ..
  · split <;> simp

/-- A temporary that a quiet instruction computes. -/
theorem value {type : ValueType} {i : Nat → Instr} (hi : ∀ dest, (i dest).Quiet) :
    Calls owner [] (do
      let dest ← Lower.freshTemp
      Lower.emit (i dest)
      Pure.pure (⟨.temp dest, type⟩ : Value)) Value.Plain :=
  freshTemp.skip fun dest _ => (emit_quiet (hi dest)).skip fun _ _ => pure (by simp [Value.Plain])

theorem compute {f : Runtime} {type : ValueType} {args : List Value} (hf : f ≠ .makeFragment)
    (hargs : ∀ a ∈ args, a.Plain) : Calls owner [] (compute f type args) Value.Plain :=
  value fun _ => Instr.quiet_call hf hargs

/-- A call on the builder. -/
theorem run {f : Runtime} {args : List Value} (hf : f ≠ .makeFragment) :
    Calls owner [f] (run f (⟨.builder, .ptr⟩ :: args)) fun _ => True := by
  have hmade : Instr.madeFragment? (.call none (.runtime f) (⟨.builder, .ptr⟩ :: args)) = none := by
    cases f with
    | makeFragment => exact absurd rfl hf
    | _ => rfl
  have h : Calls owner _ (Lower.emit _) fun _ => True := emit hmade
  simpa [Instr.builderCall?] using! h

end Lower.Calls

namespace LowerScope

variable {c : LowerScope} {owner : Bytes}

/-! ## Expressions -/

theorem calls_method (id : MethodId) : Calls owner [] (c.method id) fun _ => True :=
  .bound_bind fun _ => .bound_bind fun _ =>
    .ite ((Calls.declare _).skip fun _ _ => .pure trivial) (.pure trivial)

theorem calls_fieldAddress (id : MemberId) : Calls owner [] (c.fieldAddress id) fun _ => True :=
  Calls.freshTemp.skip fun _ _ => (Calls.emit_quiet ⟨rfl, rfl⟩).skip fun _ _ => .pure trivial

theorem calls_read (b : Binding) : Calls owner [] (c.read b) Value.Plain := by
  cases b with
  | param i => exact .bound_bind fun _ => .value fun _ => ⟨rfl, rfl⟩
  | member id => exact (calls_fieldAddress id).skip fun _ _ => .value fun _ => ⟨rfl, rfl⟩
  | method id =>
    exact (calls_method id).skip fun _ _ => .compute (by simp) (by simp [Value.Plain])

theorem calls_toText {v : Value} (hv : v.Plain) (τ : Ty) :
    Calls owner [] (toText v τ) Value.Plain := by
  cases τ with
  | string => exact .pure hv
  | _ => exact .compute (by simp) (by simpa [Value.Plain] using hv)

theorem calls_equality (equal : Bool) {l r : Value} (hl : l.Plain) (hr : r.Plain) (τ : Ty) :
    Calls owner [] (equality equal l r τ) Value.Plain := by
  have hargs : ∀ a ∈ [⟨l.operand, .ptr⟩, ⟨r.operand, .ptr⟩], Value.Plain a := by
    simpa [Value.Plain] using ⟨hl, hr⟩
  exact .ite ((Calls.compute (by simp) hargs).skip fun _ hsame =>
    .ite (.pure hsame) (.value fun _ => ⟨rfl, rfl⟩)) (.value fun _ => ⟨rfl, rfl⟩)

theorem calls_binary (op : BinaryOp) {l r : Value} (hl : l.Plain) (hr : r.Plain) (lt rt : Ty) :
    Calls owner [] (binary op l r lt rt) Value.Plain := by
  cases op with
  | add =>
    refine .ite (.value fun _ => ⟨rfl, rfl⟩) ((calls_toText hl lt).skip fun l hl =>
      (calls_toText hr rt).skip fun r hr => .compute (by simp) ?_)
    simpa [Value.Plain] using ⟨hl, hr⟩
  | eq | ne => exact calls_equality _ hl hr _
  | _ => exact .value fun _ => ⟨rfl, rfl⟩

/-- Evaluating an expression leaves the builder alone. -/
theorem calls_expr (e : BoundExpr) : Calls owner [] (c.expr e) Value.Plain := by
  induction e with
  | int | bool => exact .pure (by simp [Value.Plain])
  | string _ text => exact (Calls.string text).skip fun _ hconstant => .pure hconstant
  | name => exact .bound_bind fun b => calls_read b
  | unary _ op _ _ ih => cases op <;> exact ih.skip fun _ _ => .value fun _ => ⟨rfl, rfl⟩
  | binary _ op _ _ _ ihl ihr =>
    exact ihl.skip fun _ hl => ihr.skip fun _ hr => calls_binary _ hl hr _ _

theorem calls_descriptor (id : TypeId) : Calls owner [] (c.descriptor id) Value.Plain :=
  .ite ((Calls.declare _).skip fun _ _ => .pure (by simp [Value.Plain]))
    (.pure (by simp [Value.Plain]))

/-! ## Render operations -/

theorem addsAttribute_attributeRuntime (τ : Ty) : (attributeRuntime τ).1.addsAttribute := by
  cases τ <;> rfl

theorem addsContent_contentRuntime (τ : Ty) : (contentRuntime τ).1.addsContent := by
  cases τ <;> rfl

theorem calls_attr (name : Bytes) (e : BoundExpr) :
    Calls owner [(attributeRuntime e.type).1] (c.attr name e) fun _ => True := by
  refine (calls_expr e).skip fun _ _ => (Calls.string name).skip fun _ _ => .run ?_
  cases e.type <;> simp [attributeRuntime]

theorem calls_attributes (as : List BoundArg) :
    Calls owner (as.map fun a => (attributeRuntime a.value.type).1) (c.attributes as)
      fun _ => True := by
  induction as with
  | nil => exact .pure trivial
  | cons a as ih => exact (calls_attr a.name a.value).bind fun _ _ => ih

/-- A child block becomes a fragment of the next function. -/
theorem calls_fragment (content : MemberId) :
    Calls c.typeName [.addAttributeFragment] (c.fragment content) fun _ => True := by
  intro s a s' hrun
  obtain ⟨index, _, ⟨⟩, hrun⟩ := run_bind_eq_ok.1 hrun
  obtain ⟨value, s₁, ⟨⟩, hrun⟩ := run_bind_eq_ok.1 hrun
  have hrest : Calls c.typeName [.addAttributeFragment] (do
      let key ← string (((c.table.member? content).map (·.name)).getD [])
      Lower.run .addAttributeFragment
        [⟨.builder, .ptr⟩, ⟨key, .ptr⟩, ⟨.temp s.temps, .ptr⟩]) fun _ => True :=
    (Calls.string _).skip fun _ _ => .run (by simp)
  obtain ⟨-, hadds⟩ := hrest _ _ _ hrun
  have hmade : s.Adds c.typeName ([] ++ [Runtime.addAttributeFragment]) s' := by
    refine LowerState.Adds.trans ?_ hadds
    refine ⟨⟨_, rfl, rfl, ?_⟩, ?_, ?_, rfl⟩
    · simp [Instr.madeFragment?]
    · exact Nat.le_succ _
    · exact List.prefix_rfl
  exact ⟨trivial, hmade⟩

theorem calls_renderOp (op : BoundOp) :
    Calls c.typeName op.calls (c.renderOp op) fun _ => True := by
  cases op with
  | openElement | text => exact (Calls.string _).skip fun _ _ => .run (by simp)
  | attr _ name e => exact calls_attr name e
  | closeElement => exact .run (by simp)
  | value _ e =>
    refine (calls_expr e).skip fun _ _ => .run ?_
    cases e.type <;> simp [contentRuntime]
  | component _ type args childSpan child content =>
    refine .bound_bind fun type => (calls_descriptor type).skip fun _ _ => ?_
    refine (Calls.run (by simp)).bind fun _ _ => (calls_attributes args).bind fun _ _ => ?_
    have hclose : Calls c.typeName [.closeComponent]
        (Lower.run .closeComponent [⟨.builder, .ptr⟩]) fun _ => True := .run (by simp)
    cases childSpan with
    | none => exact hclose
    | some span =>
      cases content with
      | none => exact hclose
      | some content => exact (calls_fragment content).bind fun _ _ => hclose

theorem calls_renderOps (ops : List BoundOp) :
    Calls c.typeName (ops.flatMap BoundOp.calls) (c.renderOps ops) fun _ => True := by
  induction ops with
  | nil => exact .pure trivial
  | cons op ops ih => exact (calls_renderOp op).bind fun _ _ => ih

end LowerScope

end Code

/-! ## Nesting -/

/-- Operations in places where they may stand, with `n` open elements; `attributes` tells whether an
attribute may stand next. -/
inductive BoundOp.Nested : Nat → Bool → List BoundOp → Prop
  | nil : Nested 0 attributes []
  | openElement : Nested (n + 1) true ops → Nested n attributes (.openElement s tag :: ops)
  | attr : Nested n true ops → Nested n true (.attr s name e :: ops)
  | closeElement : Nested n false ops → Nested (n + 1) attributes (.closeElement s :: ops)
  | text : Nested n false ops → Nested n attributes (.text s t :: ops)
  | value : Nested n false ops → Nested n attributes (.value s e :: ops)
  | component : Nested 0 false child → Nested n false ops →
    Nested n attributes (.component s type args childSpan child content :: ops)

namespace BodyScope

variable {c : BodyScope}

theorem renderOp_value (span : Span) (e : Expr) :
    (c.renderOp (.value span e)).value = .value span (c.expr false e).value := by
  simp only [renderOp, Checked.value_bind]
  split <;> rfl

theorem renderOp_component (span : Span) (ref : TypeRef) (args : List ComponentArg)
    (childSpan : Option Span) (child : List RenderOp) : ∃ type args' content,
      (c.renderOp (.component span ref args childSpan child)).value =
        .component span type args' childSpan (c.renderOps [] false child).value content ∧
      ((c.renderOp (.component span ref args childSpan child)).Clean →
        (c.renderOps [] false child).Clean) := by
  simp only [renderOp, Checked.value_bind, Checked.clean_bind]
  split <;> exact ⟨_, _, _, rfl, fun h => h.2.2.1⟩

/-- Operations that are bound without an error nest. -/
theorem nested_renderOps {opened : List (Span × Bytes)} {attributes : Bool} :
    (ops : List RenderOp) → (c.renderOps opened attributes ops).Clean →
      BoundOp.Nested opened.length attributes (c.renderOps opened attributes ops).value
  | [], h => by
    cases opened with
    | nil => exact .nil
    | cons top opened =>
      refine absurd rfl (h (top.1, .unclosedElement top.2) ?_)
      simp [renderOps]
  | .openElement span tag :: ops, h => by
    simp only [renderOps, Checked.clean_bind, Checked.value_bind] at h ⊢
    exact .openElement (nested_renderOps ops h.2.2.1)
  | .attr span name e :: ops, h => by
    simp only [renderOps] at h ⊢
    cases attributes with
    | false => simp [SemanticError.severity] at h
    | true =>
      simp only [not_true_eq_false, if_false, Checked.clean_bind, Checked.value_bind] at h ⊢
      exact .attr (nested_renderOps ops h.2.2.1)
  | .closeElement span :: ops, h => by
    simp only [renderOps] at h ⊢
    cases opened with
    | nil => simp [SemanticError.severity] at h
    | cons top opened =>
      simp only [List.isEmpty_cons, Bool.false_eq_true, if_false, Checked.clean_bind,
        Checked.value_bind] at h ⊢
      exact .closeElement (nested_renderOps ops h.2.2.1)
  | .text span text :: ops, h => by
    simp only [renderOps, Checked.clean_bind, Checked.value_bind] at h ⊢
    exact .text (nested_renderOps ops h.2.2.1)
  | .value span e :: ops, h => by
    simp only [renderOps, Checked.clean_bind, Checked.value_bind, renderOp_value] at h ⊢
    exact .value (nested_renderOps ops h.2.2.1)
  | .component span ref args childSpan child :: ops, h => by
    obtain ⟨type, args', content, hvalue, hchild⟩ :=
      renderOp_component (c := c) span ref args childSpan child
    simp only [renderOps, Checked.clean_bind, Checked.value_bind, hvalue] at h ⊢
    exact .component (nested_renderOps child (hchild h.2.1)) (nested_renderOps ops h.2.2.1)
termination_by ops => ops

end BodyScope

namespace Code

/-- Calls while `n` elements are open: first attributes, if they may stand next, then what is left of
the content. -/
def Continues (n : Nat) (attributes : Bool) (calls : List Runtime) : Prop :=
  ∃ attrs w, calls = attrs ++ w ∧ (∀ f ∈ attrs, f.addsAttribute) ∧
    (attributes = false → attrs = []) ∧ Rest n w

theorem Rest.continues {n : Nat} {w : List Runtime} (h : Rest n w) (attributes : Bool) :
    Continues n attributes w := ⟨[], w, rfl, by simp, fun _ => rfl, h⟩

theorem Continues.rest {n : Nat} {w : List Runtime} (h : Continues n false w) : Rest n w := by
  obtain ⟨attrs, w, rfl, -, hnone, hw⟩ := h
  rw [hnone rfl]
  exact hw

theorem content_component (args : List BoundArg) (childSpan : Option Span)
    (content : Option MemberId) :
    Content (BoundOp.component span type args childSpan child content).calls := by
  have hargs : ∀ f ∈ args.map fun a => (LowerScope.attributeRuntime a.value.type).1,
      f.addsAttribute := by
    simp [LowerScope.addsAttribute_attributeRuntime]
  have hnone := Content.component hargs .nil
  cases childSpan with
  | none => exact hnone
  | some =>
    cases content with
    | none => exact hnone
    | some =>
      have hall := List.forall_mem_append.2 ⟨hargs, List.forall_mem_singleton.2
        (show Runtime.addAttributeFragment.addsAttribute from rfl)⟩
      simpa [BoundOp.calls] using Content.component hall .nil

/-- Operations that nest make calls that nest. -/
theorem continues_of_nested {n : Nat} {attributes : Bool} {ops : List BoundOp}
    (h : BoundOp.Nested n attributes ops) :
    Continues n attributes (ops.flatMap BoundOp.calls) := by
  induction h with
  | nil => exact (Rest.done .nil).continues _
  | @openElement _ _ attributes _ _ _ ih =>
    obtain ⟨attrs, w, hcalls, hattrs, -, hw⟩ := ih
    cases hw with
    | @close v _ w hinner hw =>
      rw [List.flatMap_cons, hcalls]
      have hrest := Rest.append (.element hattrs hinner .nil) hw
      exact Rest.continues (by simpa [BoundOp.calls] using hrest) attributes
  | attr _ ih =>
    obtain ⟨attrs, w, hcalls, hattrs, -, hw⟩ := ih
    rw [List.flatMap_cons, hcalls]
    refine ⟨_ :: attrs, w, rfl, List.forall_mem_cons.2 ⟨?_, hattrs⟩, by simp, hw⟩
    exact LowerScope.addsAttribute_attributeRuntime _
  | closeElement _ ih => exact (Rest.close .nil ih.rest).continues _
  | text _ ih => exact (Rest.append (.leaf (f := .addText) rfl .nil) ih.rest).continues _
  | @value _ _ _ _ e _ ih =>
    have hleaf := Content.leaf (LowerScope.addsContent_contentRuntime e.type) .nil
    exact (Rest.append hleaf ih.rest).continues _
  | component _ _ _ ih => exact (Rest.append (content_component ..) ih.rest).continues _

/-- The calls of operations that nest are content. -/
theorem content_of_nested {ops : List BoundOp} (h : BoundOp.Nested 0 false ops) :
    Content (ops.flatMap BoundOp.calls) := by
  cases (continues_of_nested h).rest with
  | done hw => exact hw

end Code

end ViewCompiler
