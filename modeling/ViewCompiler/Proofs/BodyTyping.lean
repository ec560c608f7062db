import ViewCompiler.Proofs.TypeNames
import ViewCompiler.Proofs.Typing

/-!
Binding without an error gives a typed body. The main statements follow the binder: expressions
(`BodyScope.hasType_expr`), conversions (`BodyScope.accepts_of_clean`), statements
(`BodyScope.typedStmts`), render operations (`BodyScope.typedOps`) and whole types
(`SymbolTable.typed_body`).

Some steps of the binder give up without a report because a type is the error type. In a closed
table that type belongs to what was reported already, so such a step is not reached.
-/

namespace ViewCompiler

open TypingContext

namespace BodyScope

/-- The typing context of a scope. -/
def typing (c : BodyScope) : TypingContext where
  table := c.table
  current := c.current
  params := c.params.map (·.2)

/-- All types that the scope mentions are known. -/
structure Closed (c : BodyScope) : Prop where
  table : c.table.Closed
  params : ∀ p ∈ c.params, c.table.Known p.2

variable {c : BodyScope}

/-! ## Names -/

theorem binds_of_bind? (hc : c.Closed) {name : Bytes} {b : Binding} (h : c.bind? name = some b) :
    c.typing.Binds b (c.typeOf b) := by
  rw [bind?] at h
  split at h
  · next i hi =>
    cases h
    obtain ⟨hlt, _⟩ := List.findIdx?_eq_some_iff_getElem.1 hi
    have hp : c.params[i]? = some c.params[i] := List.getElem?_eq_getElem hlt
    simp only [typeOf, hp, Option.map_some, Option.getD_some]
    exact .param (by simp [typing, hlt]) (hc.params _ (List.getElem_mem hlt))
  · split at h
    · next id hid =>
      cases h
      obtain ⟨m, hm⟩ := SymbolTable.member?_of_findMember? hid
      simp only [typeOf, hm, Option.map_some, Option.getD_some]
      exact .member (SymbolTable.mem_layout_of_findMember? hid) hm (hc.table.known_of_member? hm)
    · obtain ⟨id, hid, rfl⟩ := Option.map_eq_some_iff.1 h
      obtain ⟨howner, f, hf⟩ := SymbolTable.method?_of_findMethod? hid
      exact .method howner hf

@[simp] theorem clean_read (b : Binding) : (read b).Clean := by
  cases b <;> simp [read]

/-! ## Expressions -/

/-- An expression that is bound without an error has the type that the binder gave it. -/
theorem hasType_expr (hc : c.Closed) {inInit : Bool} {e : Expr} (h : (c.expr inInit e).Clean) :
    c.typing.HasType (c.expr inInit e).value (c.expr inInit e).value.type := by
  induction e with
  | int => exact .int
  | string => exact .string
  | bool => exact .bool
  | name span name =>
    rw [expr] at h ⊢
    split at h
    · exfalso
      split at h <;> simp [SemanticError.severity] at h
    · next hinit =>
      rw [if_neg hinit]
      split at h
      · simp [SemanticError.severity] at h
      · next b hb =>
        exact .name (binds_of_bind? hc hb)
  | unary span op operand ih =>
    rw [expr] at h ⊢
    simp only [Checked.clean_bind, Checked.value_bind] at h ⊢
    obtain ⟨hop, h⟩ := h
    have ih := ih hop
    rw [if_neg ih.ne_error] at h ⊢
    split at h
    · next hτ =>
      rw [if_pos hτ]
      rw [hτ] at ih
      exact .unary ih
    · simp [SemanticError.severity] at h
  | binary span op left right ihl ihr =>
    rw [expr] at h ⊢
    simp only [Checked.clean_bind, Checked.value_bind] at h ⊢
    obtain ⟨hl, hr, h⟩ := h
    have ihl := ihl hl
    have ihr := ihr hr
    rw [if_neg (by simp [ihl.ne_error, ihr.ne_error])] at h ⊢
    split at h
    · next τ hτ =>
      exact .binary ihl ihr hτ
    · simp [SemanticError.severity] at h

/-- A conversion without an error. -/
theorem accepts_of_clean {target τ : Ty} {e : BoundExpr} (he : c.typing.HasType e τ)
    (htarget : target ≠ .error) (hm : target ≠ .methodGroup) (h : (c.conversion target e).Clean) :
    c.typing.Accepts target e := by
  unfold conversion at h
  rw [if_neg (by simp [he.type_eq, he.ne_error, htarget])] at h
  split at h
  · next s n id =>
    obtain ⟨_, _, _, f, heq, howner, hf⟩ := HasType.eq_name_of_methodGroup (he.type_eq.symm ▸ he)
    cases heq
    split at h
    · next ht =>
      change c.table.method? id = some f at hf
      split at h
      · next hps => exact .method ht howner hf (by simpa [hf] using hps)
      · simp [SemanticError.severity] at h
    · simp [SemanticError.severity] at h
  · split at h
    · next base type htype =>
      have hfits : c.table.derivesFrom type base := by
        simpa [Checked.clean_ite, SemanticError.severity] using h
      exact .derived rfl (by rw [← htype, he.type_eq]; exact he) hfits
    · next target _ _ _ =>
      have hfits : target = e.type := by
        simpa [Checked.clean_ite, SemanticError.severity] using h
      exact .same (by rw [hfits, he.type_eq]; exact he) hm

theorem exprs_length (es : List Expr) : (c.exprs es).value.length = es.length := by
  induction es with
  | nil => rfl
  | cons e es ih => simpa [exprs] using ih

/-- Arguments that are bound and converted without an error fit the parameters one by one. -/
theorem accepts_args (hc : c.Closed) {types : List Bytes} {es : List Expr}
    (htypes : ∀ p ∈ types, c.table.Known p) (hlen : types.length = es.length)
    (hes : (c.exprs es).Clean) (h : (c.conversions types (c.exprs es).value).Clean) :
    List.Forall₂ (fun p e => c.typing.Accepts (.ofName c.table p) e) types (c.exprs es).value := by
  induction es generalizing types with
  | nil =>
    obtain rfl := List.eq_nil_of_length_eq_zero hlen
    exact .nil
  | cons e es ih =>
    cases types with
    | nil => simp at hlen
    | cons p types =>
      simp only [exprs, conversions, Checked.clean_bind, Checked.value_bind, Checked.value_pure,
        Checked.clean_pure, and_true] at hes h ⊢
      have hp := Ty.ofName_ne_error (htypes p List.mem_cons_self)
      refine .cons (accepts_of_clean (hasType_expr hc hes.1) hp (Ty.ofName_ne_methodGroup _ _) h.1) ?_
      exact ih (fun q hq => htypes q (List.mem_cons_of_mem _ hq)) (by simpa using hlen) hes.2 h.2

/-! ## Statements -/

theorem typeOf_ne_methodGroup {b : Binding} (h : ∀ id, b ≠ .method id) :
    c.typeOf b ≠ .methodGroup := by
  cases b with
  | param | member => exact Ty.ofName_ne_methodGroup _ _
  | method id => exact absurd rfl (h id)

theorem typed_assign (hc : c.Closed) {span : Span} {target : Bytes} {e : BoundExpr} {τ : Ty}
    (he : c.typing.HasType e τ) (h : (c.assignment span target e).Clean) :
    c.typing.TypedStmt (.assign span target (c.assignment span target e).value e) := by
  unfold assignment at h ⊢
  split at h
  · simp [SemanticError.severity] at h
  · simp [SemanticError.severity] at h
  · next b hm hb =>
    have hbinds := binds_of_bind? hc hb
    have hne := typeOf_ne_methodGroup (c := c) hm
    have hassign (h : (c.conversion (c.typeOf b) e).Clean) :
        c.typing.TypedStmt (.assign span target (some b) e) :=
      .assign hbinds hne (accepts_of_clean he hbinds.ne_error hne h)
    cases b with
    | method id => exact absurd rfl (hm id)
    | param i => exact hassign (by simpa using h)
    | member id =>
      dsimp only at h ⊢
      split at h
      · simp [SemanticError.severity] at h
      · next hinj =>
        rw [if_neg hinj]
        exact hassign (by simpa using h)

theorem receiver_eq_of_clean (hc : c.Closed) {span : Span} {name method : Bytes}
    (h : (c.receiver span name method).Clean) : ∃ b type,
      (c.receiver span name method).value = some (b, type) ∧ c.typing.Binds b (.object type) := by
  unfold receiver at h ⊢
  split at h
  · simp [SemanticError.severity] at h
  · simp [SemanticError.severity] at h
  · next b hm hb =>
    have hbinds := binds_of_bind? hc hb
    simp only [Checked.clean_bind, Checked.value_bind] at h ⊢
    replace h := h.2
    split at h
    · next type htype => exact ⟨b, type, rfl, htype ▸ hbinds⟩
    · next htype => exact absurd htype hbinds.ne_error
    · simp [SemanticError.severity] at h

theorem binds_of_callback? (hc : c.Closed) {name : Bytes} {b : Binding}
    (h : c.callback? name = some b) : c.typing.Binds b .callback := by
  obtain ⟨hb, hty⟩ := Option.filter_eq_some_iff.1 h
  have hbinds := binds_of_bind? hc hb
  rwa [eq_of_beq hty] at hbinds

/-- A call that is bound without an error. The receiver was found before. -/
theorem typed_callOn (hc : c.Closed) {span : Span} {target : TypeId} {receiver : Option Binding}
    {method : Bytes} {es : List Expr} (hes : (c.exprs es).Clean)
    (hreceives : ∀ id : MethodId, id.owner ∈ c.table.lineage target →
      c.typing.Receives id receiver)
    (h : (c.callOn span target receiver method (c.exprs es).value).Clean) :
    c.typing.TypedStmt (.call span (c.callOn span target receiver method (c.exprs es).value).value
      (c.exprs es).value) := by
  unfold callOn at h ⊢
  split at h
  · split at h
    · next b hb =>
      split at h
      · simp [SemanticError.severity] at h
      · next hargs =>
        rw [if_neg hargs]
        simp only [ne_eq, Decidable.not_not] at hargs
        split at hb
        · rw [hargs]
          exact .callback (binds_of_callback? hc hb)
        · cases hb
    · simp [SemanticError.severity] at h
  · next id hid =>
    obtain ⟨howner, f, hf⟩ := SymbolTable.method?_of_findMethod? hid
    simp only [hf, Option.map_some, Option.getD_some] at h ⊢
    rw [Checked.clean_ite] at h
    split
    · next hlen => simpa [SemanticError.severity] using h.1 hlen
    · next hlen =>
      have hconv := h.2 hlen
      simp only [Checked.clean_bind, Checked.clean_pure, and_true] at hconv
      rw [exprs_length, ne_eq, Decidable.not_not] at hlen
      exact .call hf (hreceives id howner)
        (accepts_args hc (hc.table.known_of_method? hf) hlen hes hconv)

theorem typed_call (hc : c.Closed) {span : Span} {on : Option Bytes} {method : Bytes}
    {es : List Expr} (hes : (c.exprs es).Clean)
    (h : (c.call span on method (c.exprs es).value).Clean) :
    c.typing.TypedStmt (.call span (c.call span on method (c.exprs es).value).value
      (c.exprs es).value) := by
  cases on with
  | none => exact typed_callOn hc hes (fun _ howner => .this howner) h
  | some name =>
    simp only [call, Checked.clean_bind, Checked.value_bind] at h ⊢
    obtain ⟨b, type, hvalue, hbinds⟩ := receiver_eq_of_clean hc h.1
    rw [hvalue] at h ⊢
    exact typed_callOn hc hes (fun _ howner => .object hbinds howner) h.2

mutual

theorem typedStmt (hc : c.Closed) : (s : Stmt) → (c.stmt s).Clean →
    c.typing.TypedStmt (c.stmt s).value
  | .assign span target value, h => by
    simp only [stmt, Checked.clean_bind, Checked.value_bind, Checked.value_pure,
      Checked.clean_pure, and_true] at h ⊢
    exact typed_assign hc (hasType_expr hc h.1) h.2
  | .call span on method args, h => by
    simp only [stmt, Checked.clean_bind, Checked.value_bind, Checked.value_pure,
      Checked.clean_pure, and_true] at h ⊢
    exact typed_call hc h.1 h.2
  | .cond span condition thenBody elseBody, h => by
    simp only [stmt, Checked.clean_bind, Checked.value_bind] at h ⊢
    have he := hasType_expr hc h.1
    replace h := h.2
    split at h
    · simp [SemanticError.severity] at h
    · next hbool =>
      simp only [Checked.clean_bind, Checked.value_bind, Checked.value_pure, Checked.clean_pure,
        and_true, if_neg hbool] at h ⊢
      refine .cond ?_ (typedStmts hc thenBody h.1) (typedStmts hc elseBody h.2)
      have htype : (c.expr false condition).value.type = .bool := by
        by_contra hne
        exact hbool ⟨he.ne_error, hne⟩
      rwa [htype] at he
  | .ret span, _ => .ret

/-- Statements that are bound without an error are typed. -/
theorem typedStmts (hc : c.Closed) : (ss : List Stmt) → (c.stmts ss).Clean →
    ∀ s ∈ (c.stmts ss).value, c.typing.TypedStmt s
  | [], _ => by simp [stmts]
  | s :: ss, h => by
    simp only [stmts, Checked.clean_bind, Checked.value_bind, Checked.value_pure,
      Checked.clean_pure, and_true, List.forall_mem_cons] at h ⊢
    exact ⟨typedStmt hc s h.1, typedStmts hc ss h.2⟩

end

/-! ## Render operations -/

theorem typed_attr (hc : c.Closed) {e : Expr} (he : (c.expr false e).Clean)
    (h : (c.attributeValue (c.expr false e).value).Clean) :
    c.typing.TypedAttr (c.expr false e).value := by
  have htype := hasType_expr hc he
  unfold attributeValue at h
  split at h
  · next ht => exact absurd ht htype.ne_error
  · next ht => exact .plain htype (.inl ht)
  · next ht => exact .plain htype (.inr (.inl ht))
  · next ht => exact .plain htype (.inr (.inr (.inl ht)))
  · next ht => exact .plain htype (.inr (.inr (.inr ht)))
  · next ht => exact .method (ht ▸ htype) (accepts_of_clean htype (by decide) (by decide) h)
  · simp [SemanticError.severity] at h

theorem componentType_of_clean {ref : TypeRef} (h : (c.componentType ref).Clean) :
    ∃ id symbol, (c.componentType ref).value = some id ∧ c.table.get? id = some symbol ∧
      symbol.isComponent := by
  unfold componentType at h ⊢
  split at h
  · simp [SemanticError.severity] at h
  · next hbuiltin =>
    simp only [Checked.clean_bind, Checked.value_bind, if_neg hbuiltin] at h ⊢
    obtain ⟨id, hvalue, _⟩ := SymbolTable.resolveType_of_clean h.1
    rw [hvalue] at h ⊢
    dsimp only at h ⊢
    replace h := h.2
    split at h
    · next hcomp =>
      rw [if_pos hcomp]
      cases hs : c.table.get? id with
      | none => simp [hs] at hcomp
      | some symbol => exact ⟨id, symbol, rfl, hs, by simpa [hs] using hcomp⟩
    · simp [SemanticError.severity] at h

/-- The lookup that finds the parameter for an argument or for child content. -/
theorem isParameter_of_found {type : TypeId} {name : Bytes} {id : MemberId} {m : MemberSymbol}
    (h : ((c.table.findMember? type name).bind fun id =>
      (c.table.member? id).map fun m => (id, m)) = some (id, m)) (hkind : m.kind = .param) :
    c.typing.IsParameter type id m := by
  obtain ⟨id', hid, hm⟩ := Option.bind_eq_some_iff.1 h
  obtain ⟨m', hm', heq⟩ := Option.map_eq_some_iff.1 hm
  obtain ⟨rfl, rfl⟩ := Prod.mk.inj heq
  exact ⟨SymbolTable.mem_layout_of_findMember? hid, hm', hkind⟩

theorem typed_arg (hc : c.Closed) {type : TypeId} {seen : List Bytes} {arg : ComponentArg}
    (he : (c.expr false arg.value).Clean)
    (h : (c.parameter type seen arg (c.expr false arg.value).value).Clean) :
    c.typing.TypedArg type
      { name := arg.name, span := arg.span, value := (c.expr false arg.value).value,
        param := (c.parameter type seen arg (c.expr false arg.value).value).value } := by
  unfold parameter at h ⊢
  split at h
  · simp [SemanticError.severity] at h
  · next hseen =>
    rw [if_neg hseen]
    dsimp only at h ⊢
    split at h
    · next id n paramType hfound =>
      simp only [Checked.clean_bind, Checked.clean_pure, and_true] at h
      have hparam := isParameter_of_found hfound rfl
      have hknown := hc.table.known_of_member? hparam.symbol
      exact ⟨id, _, rfl, hparam, accepts_of_clean (hasType_expr hc he) (Ty.ofName_ne_error hknown)
        (Ty.ofName_ne_methodGroup _ _) h⟩
    · simp [SemanticError.severity] at h

theorem typed_args (hc : c.Closed) {type : TypeId} {seen : List Bytes} {args : List ComponentArg}
    (h : (c.componentArgs (some type) seen args).Clean) :
    ∀ a ∈ (c.componentArgs (some type) seen args).value, c.typing.TypedArg type a := by
  induction args generalizing seen with
  | nil => simp [componentArgs]
  | cons arg args ih =>
    simp only [componentArgs, Checked.clean_bind, Checked.value_bind, Checked.value_pure,
      Checked.clean_pure, and_true, List.forall_mem_cons] at h ⊢
    exact ⟨typed_arg hc h.1 h.2.1, ih h.2.2⟩

theorem childContent_of_clean {type : TypeId} {span : Span}
    (h : (c.childContent type span).Clean) :
    ∃ id m, (c.childContent type span).value = some id ∧ c.typing.IsParameter type id m ∧
      m.type = Bytes.ofString "fragment" := by
  unfold childContent at h ⊢
  dsimp only at h ⊢
  split at h
  · next id hid =>
    obtain ⟨⟨id', m⟩, hfound, hm⟩ := Option.bind_eq_some_iff.1 hid
    dsimp only at hm
    split at hm
    · next hkind =>
      cases hm
      exact ⟨id, m, rfl, isParameter_of_found hfound hkind.1, hkind.2⟩
    · cases hm
  · simp [SemanticError.severity] at h

/-- One step of a render block. Which elements are open matters for the reports only. -/
theorem renderOps_cons (c : BodyScope) (opened : List (Span × Bytes)) (attributes : Bool)
    (op : RenderOp) (ops : List RenderOp) : ∃ opened' attributes',
      (c.renderOps opened attributes (op :: ops)).value =
        (c.renderOp op).value :: (c.renderOps opened' attributes' ops).value ∧
      ((c.renderOps opened attributes (op :: ops)).Clean →
        (c.renderOp op).Clean ∧ (c.renderOps opened' attributes' ops).Clean) := by
  cases op with
  | openElement span tag => exact ⟨(span, tag) :: opened, true, rfl, by simp [renderOps]⟩
  | attr =>
    refine ⟨opened, attributes, ?_, ?_⟩ <;> simp only [renderOps]
    · split <;> rfl
    · split <;> simp +contextual
  | closeElement =>
    refine ⟨opened.tail, false, ?_, ?_⟩ <;> simp only [renderOps]
    · split <;> rfl
    · split <;> simp +contextual
  | text | value | component => exact ⟨opened, false, rfl, by simp [renderOps]⟩

mutual

theorem typedOp (hc : c.Closed) : (op : RenderOp) → (c.renderOp op).Clean →
    c.typing.TypedOp (c.renderOp op).value
  | .openElement .., _ => .openElement
  | .attr span name value, h => by
    simp only [renderOp, Checked.clean_bind, Checked.value_bind, Checked.value_pure,
      Checked.clean_pure, and_true] at h ⊢
    exact .attr (typed_attr hc h.1 h.2)
  | .closeElement .., _ => .closeElement
  | .text .., _ => .text
  | .value span value, h => by
    simp only [renderOp, Checked.clean_bind, Checked.value_bind] at h ⊢
    have he := hasType_expr hc h.1
    replace h := h.2
    split at h
    · simp [SemanticError.severity] at h
    · next hr =>
      rw [if_neg hr]
      refine .value he ?_
      by_contra hne
      exact hr ⟨he.ne_error, hne⟩
  | .component span ref args childSpan child, h => by
    simp only [renderOp, Checked.clean_bind, Checked.value_bind] at h ⊢
    obtain ⟨hcomp, hargs, hchild, hcontent⟩ := h
    obtain ⟨type, symbol, hvalue, hs, hsc⟩ := componentType_of_clean hcomp
    rw [hvalue] at hargs hcontent ⊢
    have hargs := typed_args hc hargs
    have hchild := typedOps hc child hchild
    cases childSpan with
    | none => exact .component hs hsc hargs hchild (by simp)
    | some childSpan =>
      simp only [Checked.clean_bind, Checked.clean_pure, and_true] at hcontent
      exact .component hs hsc hargs hchild fun _ => childContent_of_clean hcontent

/-- Render operations that are bound without an error are typed. -/
theorem typedOps (hc : c.Closed) {opened : List (Span × Bytes)} {attributes : Bool} :
    (ops : List RenderOp) → (c.renderOps opened attributes ops).Clean →
    ∀ op ∈ (c.renderOps opened attributes ops).value, c.typing.TypedOp op
  | [], _ => by simp [renderOps]
  | op :: ops, h => by
    obtain ⟨opened', attributes', hvalue, hclean⟩ := renderOps_cons c opened attributes op ops
    rw [hvalue, List.forall_mem_cons]
    exact ⟨typedOp hc op (hclean h).1, typedOps hc ops (hclean h).2⟩

end

/-! ## Types -/

/-- The initialisers fit the members; a member without one has none to fit. -/
theorem accepts_inits (hc : c.Closed) {ms : List DataMember} {ss : List MemberSymbol}
    (hlen : ms.length = ss.length) (hss : ∀ s ∈ ss, c.table.Known s.type)
    (h : (c.inits ms ss).Clean) :
    List.Forall₂ (fun init s => ∀ e ∈ init, c.typing.Accepts (.ofName c.table s.type) e)
      (c.inits ms ss).value ss := by
  induction ms generalizing ss with
  | nil =>
    obtain rfl := List.eq_nil_of_length_eq_zero hlen.symm
    exact .nil
  | cons m ms ih =>
    cases ss with
    | nil => simp at hlen
    | cons s ss =>
      have hs := Ty.ofName_ne_error (hss s List.mem_cons_self)
      have ih := @ih ss (by simpa using hlen) fun s hs => hss s (List.mem_cons_of_mem _ hs)
      simp only [inits] at h ⊢
      cases hinit : m.init with
      | none =>
        simp only [hinit, Checked.clean_bind, Checked.clean_pure, Checked.value_bind,
          Checked.value_pure, and_true, true_and] at h ⊢
        exact .cons (by simp) (ih h)
      | some e =>
        simp only [hinit, Checked.clean_bind, Checked.clean_pure, Checked.value_bind,
          Checked.value_pure, and_true, true_and] at h ⊢
        refine .cons ?_ (ih h.2.2)
        rintro _ ⟨⟩
        exact accepts_of_clean (hasType_expr hc h.1) hs (Ty.ofName_ne_methodGroup _ _) h.2.1

/-- The bodies of methods are typed, each with the parameters of its symbol. -/
theorem typed_methods (hc : c.Closed) {ms : List MethodDecl} {ss : List MethodSymbol}
    (hlen : ms.length = ss.length) (hss : ∀ s ∈ ss, ∀ p ∈ s.paramTypes, c.table.Known p)
    (hnames : ∀ s ∈ ss, s.paramNames.length = s.paramTypes.length)
    (h : (c.methods ms ss).Clean) :
    List.Forall₂ (fun (m : BoundMethod) (s : MethodSymbol) =>
        ∀ b ∈ m.body, { c.typing with params := s.paramTypes }.TypedStmt b)
      (c.methods ms ss).value ss := by
  induction ms generalizing ss with
  | nil =>
    obtain rfl := List.eq_nil_of_length_eq_zero hlen.symm
    exact .nil
  | cons m ms ih =>
    cases ss with
    | nil => simp at hlen
    | cons s ss =>
      simp only [methods, Checked.clean_bind, Checked.clean_pure, Checked.value_bind,
        Checked.value_pure, and_true, List.forall_mem_cons] at h hss hnames ⊢
      refine .cons ?_ (ih (by simpa using hlen) hss.2 hnames.2 h.2)
      let d : BodyScope := { c with params := s.paramNames.zip s.paramTypes }
      have htyping : d.typing = { c.typing with params := s.paramTypes } := by
        simp only [d, typing, List.map_snd_zip (Nat.le_of_eq hnames.1.symm)]
      have hd : d.Closed := ⟨hc.table, fun p hp => hss.1 _ (List.of_mem_zip hp).2⟩
      rw [← htyping]
      exact typedStmts hd m.body h.1

end BodyScope

/-- The bodies of a type fit its symbol. -/
structure BoundType.Typed (table : SymbolTable) (t : BoundType) (symbol : TypeSymbol) : Prop where
  inits : List.Forall₂ (fun (init : Option BoundExpr) (m : MemberSymbol) =>
      ∀ e ∈ init, TypingContext.Accepts { table, current := t.id } (.ofName table m.type) e)
    t.inits symbol.members
  methods : List.Forall₂ (fun (b : BoundMethod) (f : MethodSymbol) =>
      ∀ s ∈ b.body, TypingContext.TypedStmt { table, current := t.id, params := f.paramTypes } s)
    t.methods symbol.methods
  render : ∀ ops ∈ t.render, ∀ op ∈ ops, TypingContext.TypedOp { table, current := t.id } op

/-- A declaration whose symbol has its members and methods, in the same order. -/
structure Declared.Matches (d : Declared) (symbol : TypeSymbol) : Prop where
  members : d.decl.members.length = symbol.members.length
  methods : d.decl.methods.length = symbol.methods.length
  params : ∀ f ∈ symbol.methods, f.paramNames.length = f.paramTypes.length

@[simp] theorem SymbolTable.body_id (t : SymbolTable) (d : Declared) :
    (t.body d).value.id = d.id := by
  rw [body]
  split <;> rfl

/-- Bodies that are bound without an error are typed. -/
theorem SymbolTable.typed_body {t : SymbolTable} {d : Declared} {symbol : TypeSymbol}
    (ht : t.Closed) (hs : t.get? d.id = some symbol) (hd : d.Matches symbol)
    (h : (t.body d).Clean) : (t.body d).value.Typed t symbol := by
  have hmem : symbol ∈ t.types := List.mem_of_getElem? hs
  have hc : BodyScope.Closed { table := t, file := d.scope, current := d.id } := ⟨ht, by simp⟩
  cases hr : d.decl.render with
  | none =>
    simp only [body, hs, hr, Option.getD_some, Checked.clean_bind, Checked.value_bind,
      Checked.value_pure, Checked.clean_pure, and_true] at h ⊢
    exact ⟨BodyScope.accepts_inits hc hd.members (ht.member _ hmem) h.1,
      BodyScope.typed_methods hc hd.methods (ht.param _ hmem) hd.params h.2, by simp⟩
  | some block =>
    simp only [body, hs, hr, Option.getD_some, Checked.clean_bind, Checked.value_bind,
      Checked.value_pure, Checked.clean_pure, and_true] at h ⊢
    refine ⟨BodyScope.accepts_inits hc hd.members (ht.member _ hmem) h.1,
      BodyScope.typed_methods hc hd.methods (ht.param _ hmem) hd.params h.2.1, ?_⟩
    rintro _ ⟨⟩
    exact BodyScope.typedOps hc block.ops h.2.2

end ViewCompiler
