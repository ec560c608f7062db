import ViewCompiler.Proofs.TypedModel

/-!
Resolved models: everything that lowering looks up is there. This is what typing leaves when values
are forgotten (`Model.Typed.resolved`). It asks only that every name, assignment, call and component
has a binding, that the binding leads to a parameter, member or method that exists, and that a call
has as many arguments as its method has parameters.
-/

namespace ViewCompiler

namespace TypingContext

section
variable (Γ : TypingContext)

/-- The binding leads to a parameter of the method at hand, to a data member with a slot in the
object, or to a method. -/
def Resolves : Binding → Prop
  | .param i => i < Γ.params.length
  | .member id => (Γ.table.member? id).isSome ∧ id ∈ Γ.table.layout Γ.current
  | .method id => (Γ.table.method? id).isSome

/-- Every name in the expression is bound. -/
def ResolvedExpr : BoundExpr → Prop
  | .int _ _ | .string _ _ | .bool _ _ => True
  | .name _ _ binding _ => ∃ b, binding = some b ∧ Γ.Resolves b
  | .unary _ _ operand _ => ResolvedExpr operand
  | .binary _ _ left right _ => ResolvedExpr left ∧ ResolvedExpr right

/-- The call has a callee and a receiver, and as many arguments as the callee takes. -/
def ResolvedCall (count : Nat) : CallBinding → Prop
  | .method id receiver =>
    (∃ f, Γ.table.method? id = some f ∧ f.paramTypes.length = count) ∧
      ∀ b ∈ receiver, Γ.Resolves b
  | .callback target => Γ.Resolves target ∧ count = 0

/-- Every assignment and call in the statement is bound. Only parameters and data members are
assigned. -/
inductive ResolvedStmt : BoundStmt → Prop
  | assign {b} : Γ.Resolves b → (∀ id, b ≠ .method id) → Γ.ResolvedExpr e →
    ResolvedStmt (.assign s n (some b) e)
  | call {b} : Γ.ResolvedCall args.length b → (∀ e ∈ args, Γ.ResolvedExpr e) →
    ResolvedStmt (.call s (some b) args)
  | cond : Γ.ResolvedExpr e → (∀ t ∈ thenBody, ResolvedStmt t) → (∀ t ∈ elseBody, ResolvedStmt t) →
    ResolvedStmt (.cond s e thenBody elseBody)
  | ret : ResolvedStmt (.ret s)

/-- Every component in the operation is bound to a type that exists, and a child block to a member
of it. -/
inductive ResolvedOp : BoundOp → Prop
  | openElement : ResolvedOp (.openElement s tag)
  | attr : Γ.ResolvedExpr e → ResolvedOp (.attr s n e)
  | closeElement : ResolvedOp (.closeElement s)
  | text : ResolvedOp (.text s t)
  | value : Γ.ResolvedExpr e → ResolvedOp (.value s e)
  | component {type} : (Γ.table.get? type).isSome → (∀ a ∈ args, Γ.ResolvedExpr a.value) →
    (∀ op ∈ child, ResolvedOp op) →
    (childSpan.isSome → ∃ id, content = some id ∧ (Γ.table.member? id).isSome) →
    ResolvedOp (.component s (some type) args childSpan child content)

end

variable {Γ : TypingContext}

/-! ## From typing -/

/-- What a relation says of each element on the right. -/
theorem forall_mem_right {R : α → β → Prop} {p : β → Prop} (hp : ∀ a b, R a b → p b)
    {as : List α} {bs : List β} (h : List.Forall₂ R as bs) : ∀ b ∈ bs, p b := by
  intro b hb
  obtain ⟨a, -, hab⟩ := exists_mem_of_forall₂ h b hb
  exact hp a b hab

theorem Binds.resolves {b : Binding} {τ : Ty} (h : Γ.Binds b τ) : Γ.Resolves b := by
  cases h with
  | param hi => exact (List.getElem?_eq_some_iff.1 hi).1
  | member hlayout hm => exact ⟨by simp [hm], hlayout⟩
  | method _ hf => exact Option.isSome_iff_exists.2 ⟨_, hf⟩

theorem Binds.ne_method {b : Binding} {τ : Ty} (h : Γ.Binds b τ) (hτ : τ ≠ .methodGroup)
    (id : MethodId) : b ≠ .method id := by
  rintro rfl
  cases h
  exact hτ rfl

theorem HasType.resolved {e : BoundExpr} {τ : Ty} (h : Γ.HasType e τ) : Γ.ResolvedExpr e := by
  induction h with
  | int | string | bool => trivial
  | name hb => exact ⟨_, rfl, hb.resolves⟩
  | unary _ ih => exact ih
  | binary _ _ _ ihl ihr => exact ⟨ihl, ihr⟩

theorem Accepts.resolved {target : Ty} {e : BoundExpr} (h : Γ.Accepts target e) :
    Γ.ResolvedExpr e := by
  cases h with
  | same h => exact h.resolved
  | derived _ h => exact h.resolved
  | method _ _ hf => exact ⟨_, rfl, Option.isSome_iff_exists.2 ⟨_, hf⟩⟩

theorem Receives.resolves {id : MethodId} {receiver : Option Binding}
    (h : Γ.Receives id receiver) : ∀ b ∈ receiver, Γ.Resolves b := by
  rintro b ⟨⟩
  cases h with
  | object hb => exact hb.resolves

theorem TypedStmt.resolved {s : BoundStmt} (h : Γ.TypedStmt s) : Γ.ResolvedStmt s := by
  induction h with
  | assign hb hτ he => exact .assign hb.resolves (hb.ne_method hτ) he.resolved
  | call hf hreceiver hargs =>
    exact .call ⟨⟨_, hf, hargs.length_eq⟩, hreceiver.resolves⟩
      (forall_mem_right (fun _ _ haccepts => haccepts.resolved) hargs)
  | callback hb => exact .call ⟨hb.resolves, rfl⟩ (by simp)
  | cond he _ _ ihthen ihelse => exact .cond he.resolved ihthen ihelse
  | ret => exact .ret

theorem TypedAttr.resolved {e : BoundExpr} (h : Γ.TypedAttr e) : Γ.ResolvedExpr e := by
  cases h with
  | plain h => exact h.resolved
  | method h => exact h.resolved

theorem TypedArg.resolved {type : TypeId} {a : BoundArg} (h : Γ.TypedArg type a) :
    Γ.ResolvedExpr a.value := by
  obtain ⟨_, _, _, _, haccepts⟩ := h
  exact haccepts.resolved

theorem TypedOp.resolved {op : BoundOp} (h : Γ.TypedOp op) : Γ.ResolvedOp op := by
  induction h with
  | openElement => exact .openElement
  | attr h => exact .attr h.resolved
  | closeElement => exact .closeElement
  | text => exact .text
  | value h => exact .value h.resolved
  | component htype _ hargs _ hcontent ihchild =>
    refine .component (by simp [htype]) (fun a ha => (hargs a ha).resolved) ihchild fun hspan => ?_
    obtain ⟨id, m, rfl, hparam, _⟩ := hcontent hspan
    exact ⟨id, rfl, by simp [hparam.symbol]⟩

end TypingContext

/-- The bodies of a type are resolved. The parameters in scope are those of the symbol of each
method, and initialisers and render blocks have none. -/
structure BoundType.Resolved (table : SymbolTable) (t : BoundType) (symbol : TypeSymbol) :
    Prop where
  inits : ∀ init ∈ t.inits, ∀ e ∈ init, TypingContext.ResolvedExpr { table, current := t.id } e
  methods : List.Forall₂ (fun (b : BoundMethod) (f : MethodSymbol) =>
      ∀ s ∈ b.body, TypingContext.ResolvedStmt { table, current := t.id, params := f.paramTypes } s)
    t.methods symbol.methods
  render : ∀ ops ∈ t.render, ∀ op ∈ ops, TypingContext.ResolvedOp { table, current := t.id } op

/-- Every declared type has a symbol that its bodies are resolved against. -/
def Model.Resolved (m : Model) : Prop :=
  ∀ t ∈ m.types, ∃ symbol, m.table.get? t.id = some symbol ∧ t.Resolved m.table symbol

theorem BoundType.Typed.resolved {table : SymbolTable} {t : BoundType} {symbol : TypeSymbol}
    (h : t.Typed table symbol) : t.Resolved table symbol where
  inits := by
    refine TypingContext.forall_mem_right (R := flip _) ?_ (List.Forall₂.flip h.inits)
    exact fun _ _ haccepts e he => (haccepts e he).resolved
  methods := h.methods.imp fun _ _ hbody s hs => (hbody s hs).resolved
  render ops hops op hop := (h.render ops hops op hop).resolved

theorem Model.Typed.resolved {m : Model} (h : m.Typed) : m.Resolved := by
  intro t ht
  obtain ⟨symbol, hsymbol, htyped⟩ := h t ht
  exact ⟨symbol, hsymbol, htyped.resolved⟩

end ViewCompiler
