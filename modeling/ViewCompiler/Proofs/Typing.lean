import Mathlib.Data.List.Forall2
import ViewCompiler.Model.Body
import ViewCompiler.Proofs.Findings
import ViewCompiler.Proofs.Lookup

/-!
Typing of bound bodies, as a relation beside the binder. A typed tree has no open end: every name
is bound to something that exists, every call has one argument per parameter, and every value fits
where it goes.

The error type never occurs in a typed tree (`TypingContext.HasType.ne_error`). It is the type of
what was reported, and of members and parameters whose type is unknown.
-/

namespace ViewCompiler

/-- Elements of a list that is related to another have partners there. -/
theorem exists_mem_of_forall₂ {α β : Type*} {R : α → β → Prop} {as : List α} {bs : List β}
    (h : List.Forall₂ R as bs) : ∀ b ∈ bs, ∃ a ∈ as, R a b := by
  induction h with
  | nil => simp
  | @cons a b as bs hab _ ih =>
    refine List.forall_mem_cons.2 ⟨⟨a, List.mem_cons_self, hab⟩, fun b' hb' => ?_⟩
    obtain ⟨a', ha', hab'⟩ := ih b' hb'
    exact ⟨a', List.mem_cons_of_mem _ ha', hab'⟩

/-- What the typing of a body depends on: the visible types, the type whose body it is, and the
canonical types of the method's parameters. -/
structure TypingContext where
  table : SymbolTable
  current : TypeId
  params : List Bytes := []
deriving DecidableEq, Repr, Inhabited

namespace TypingContext

section
variable (Γ : TypingContext)

/-! ## Names -/

/-- A binding that exists, with its type. -/
inductive Binds : Binding → Ty → Prop
  | param {i name} : Γ.params[i]? = some name → Γ.table.Known name →
    Binds (.param i) (.ofName Γ.table name)
  | member {id m} : id ∈ Γ.table.layout Γ.current → Γ.table.member? id = some m →
    Γ.table.Known m.type → Binds (.member id) (.ofName Γ.table m.type)
  | method {id f} : id.owner ∈ Γ.table.lineage Γ.current → Γ.table.method? id = some f →
    Binds (.method id) .methodGroup

/-! ## Expressions -/

inductive HasType : BoundExpr → Ty → Prop
  | int : HasType (.int s v) .int
  | string : HasType (.string s v) .string
  | bool : HasType (.bool s v) .bool
  | name : Γ.Binds b τ → HasType (.name s n (some b) τ) τ
  | unary : HasType e (BodyScope.unaryType op) →
    HasType (.unary s op e (BodyScope.unaryType op)) (BodyScope.unaryType op)
  | binary : HasType l τ₁ → HasType r τ₂ → BodyScope.binaryType? op τ₁ τ₂ = some τ →
    HasType (.binary s op l r τ) τ

/-- The value can be stored where `target` is expected. A method can be stored as a callback if it
has no parameters. -/
inductive Accepts (target : Ty) : BoundExpr → Prop
  | same : Γ.HasType e target → target ≠ .methodGroup → Accepts target e
  | derived : target = .object base → Γ.HasType e (.object type) →
    Γ.table.derivesFrom type base → Accepts target e
  | method {id} : target = .callback → id.owner ∈ Γ.table.lineage Γ.current →
    Γ.table.method? id = some f → f.paramTypes = [] →
    Accepts target (.name s n (some (.method id)) .methodGroup)

/-! ## Statements -/

/-- The object whose method `id` is called: `this`, or a parameter or data member. -/
inductive Receives (id : MethodId) : Option Binding → Prop
  | this : id.owner ∈ Γ.table.lineage Γ.current → Receives id none
  | object : Γ.Binds b (.object type) → id.owner ∈ Γ.table.lineage type → Receives id (some b)

inductive TypedStmt : BoundStmt → Prop
  | assign : Γ.Binds b τ → τ ≠ .methodGroup → Γ.Accepts τ e → TypedStmt (.assign s n (some b) e)
  | call {id} : Γ.table.method? id = some f → Γ.Receives id receiver →
    List.Forall₂ (fun p e => Γ.Accepts (.ofName Γ.table p) e) f.paramTypes args →
    TypedStmt (.call s (some (.method id receiver)) args)
  | callback : Γ.Binds b .callback → TypedStmt (.call s (some (.callback b)) [])
  | cond : Γ.HasType e .bool → (∀ t ∈ thenBody, TypedStmt t) → (∀ t ∈ elseBody, TypedStmt t) →
    TypedStmt (.cond s e thenBody elseBody)
  | ret : TypedStmt (.ret s)

/-! ## Render operations -/

/-- A value that an attribute of an element can have. -/
inductive TypedAttr : BoundExpr → Prop
  | plain : Γ.HasType e τ → τ = .int ∨ τ = .string ∨ τ = .bool ∨ τ = .callback → TypedAttr e
  | method : Γ.HasType e .methodGroup → Γ.Accepts .callback e → TypedAttr e

/-- A parameter of the component `type`. -/
structure IsParameter (type : TypeId) (id : MemberId) (m : MemberSymbol) : Prop where
  inLayout : id ∈ Γ.table.layout type
  symbol : Γ.table.member? id = some m
  kind : m.kind = .param

/-- An argument that sets a parameter of the component `type`. -/
def TypedArg (type : TypeId) (a : BoundArg) : Prop :=
  ∃ id m, a.param = some id ∧ Γ.IsParameter type id m ∧ Γ.Accepts (.ofName Γ.table m.type) a.value

inductive TypedOp : BoundOp → Prop
  | openElement : TypedOp (.openElement s tag)
  | attr : Γ.TypedAttr e → TypedOp (.attr s n e)
  | closeElement : TypedOp (.closeElement s)
  | text : TypedOp (.text s t)
  | value : Γ.HasType e τ → τ.isRenderable → TypedOp (.value s e)
  | component : Γ.table.get? type = some symbol → symbol.isComponent →
    (∀ a ∈ args, Γ.TypedArg type a) → (∀ op ∈ child, TypedOp op) →
    (childSpan.isSome → ∃ id m, content = some id ∧ Γ.IsParameter type id m ∧
      m.type = Bytes.ofString "fragment") →
    TypedOp (.component s (some type) args childSpan child content)

end

variable {Γ : TypingContext}

theorem Binds.ne_error {b : Binding} {τ : Ty} (h : Γ.Binds b τ) : τ ≠ .error := by
  cases h with
  | param _ h => exact Ty.ofName_ne_error h
  | member _ _ h => exact Ty.ofName_ne_error h
  | method => decide

theorem HasType.type_eq {e : BoundExpr} {τ : Ty} (h : Γ.HasType e τ) : e.type = τ := by
  cases h <;> rfl

theorem HasType.ne_error {e : BoundExpr} {τ : Ty} (h : Γ.HasType e τ) : τ ≠ .error := by
  cases h with
  | int | string | bool => decide
  | name h => exact h.ne_error
  | unary h => cases ‹UnaryOp› <;> decide
  | binary _ _ h =>
    rintro rfl
    cases ‹BinaryOp› <;> simp only [BodyScope.binaryType?] at h <;> grind

/-- Only the name of a method has the type of a method. -/
theorem HasType.eq_name_of_methodGroup {e : BoundExpr} (h : Γ.HasType e .methodGroup) :
    ∃ s n id f, e = .name s n (some (.method id)) .methodGroup ∧
      id.owner ∈ Γ.table.lineage Γ.current ∧ Γ.table.method? id = some f := by
  generalize hτ : Ty.methodGroup = τ at h
  cases h with
  | int | string | bool => cases hτ
  | name hb =>
    cases hb with
    | param _ _ | member _ _ _ => simp only [Ty.ofName] at hτ; grind
    | method howner hf => exact ⟨_, _, _, _, rfl, howner, hf⟩
  | unary _ => cases ‹UnaryOp› <;> cases hτ
  | binary _ _ h =>
    subst hτ
    cases ‹BinaryOp› <;> simp only [BodyScope.binaryType?] at h <;> grind

end TypingContext

end ViewCompiler
