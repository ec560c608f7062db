import ViewCompiler.Proofs.LegibleModules

/-!
Lowering preserves types. Every expression of a typed body is lowered to a value that is represented
as its type says (`LowerScope.gives_expr`), and the module is typed: each operand has the type that
is written for it (`Model.lowered_typed`).
-/

namespace ViewCompiler

/-! ## Expressions of a model -/

namespace BoundExpr

/-- An expression and the expressions in it. -/
def subterms : BoundExpr → List BoundExpr
  | unary span op e type => unary span op e type :: e.subterms
  | binary span op left right type =>
    binary span op left right type :: (left.subterms ++ right.subterms)
  | e => [e]

end BoundExpr

namespace BoundStmt

mutual

/-- All expressions in a statement. -/
def exprs : BoundStmt → List BoundExpr
  | assign _ _ _ value => value.subterms
  | call _ _ args => args.flatMap BoundExpr.subterms
  | cond _ condition thenBody elseBody =>
    condition.subterms ++ (allExprs thenBody ++ allExprs elseBody)
  | ret _ => []

def allExprs : List BoundStmt → List BoundExpr
  | [] => []
  | s :: ss => exprs s ++ allExprs ss

end

theorem mem_allExprs {ss : List BoundStmt} {e : BoundExpr} :
    e ∈ allExprs ss ↔ ∃ s ∈ ss, e ∈ exprs s := by
  induction ss with
  | nil => simp [allExprs]
  | cons s ss ih => simp [allExprs, ih]

end BoundStmt

namespace BoundOp

mutual

/-- All expressions in a render operation. -/
def exprs : BoundOp → List BoundExpr
  | attr _ _ e | value _ e => e.subterms
  | component _ _ args _ child _ => args.flatMap (·.value.subterms) ++ allExprs child
  | _ => []

def allExprs : List BoundOp → List BoundExpr
  | [] => []
  | op :: ops => exprs op ++ allExprs ops

end

theorem mem_allExprs {ops : List BoundOp} {e : BoundExpr} :
    e ∈ allExprs ops ↔ ∃ op ∈ ops, e ∈ exprs op := by
  induction ops with
  | nil => simp [allExprs]
  | cons op ops ih => simp [allExprs, ih]

end BoundOp

open Code

/-- An expression of a declared type, with the types of the parameters that it can name. -/
inductive BoundType.Contains (t : BoundType) (type : TypeSymbol) :
    List Bytes → BoundExpr → Prop
  | init : some e ∈ t.inits → x ∈ e.subterms → Contains t type [] x
  | method : (b, f) ∈ t.methods.zip type.methods → x ∈ BoundStmt.allExprs b.body →
    Contains t type f.paramTypes x
  | render : t.render = some ops → x ∈ BoundOp.allExprs ops → Contains t type [] x

/-! ## Expressions of typed bodies -/

namespace TypingContext

variable {Γ : TypingContext}

/-- The expression has a type. -/
def IsTyped (Γ : TypingContext) (e : BoundExpr) : Prop := ∃ τ, Γ.HasType e τ

theorem HasType.subterms {e : BoundExpr} {τ : Ty} (h : Γ.HasType e τ) :
    ∀ x ∈ e.subterms, Γ.IsTyped x := by
  induction h with
  | int => simpa [BoundExpr.subterms] using ⟨_, .int⟩
  | string => simpa [BoundExpr.subterms] using ⟨_, .string⟩
  | bool => simpa [BoundExpr.subterms] using ⟨_, .bool⟩
  | name hb => simpa [BoundExpr.subterms] using ⟨_, .name hb⟩
  | unary he ih => exact List.forall_mem_cons.2 ⟨⟨_, .unary he⟩, ih⟩
  | binary hl hr hop ihl ihr =>
    exact List.forall_mem_cons.2 ⟨⟨_, .binary hl hr hop⟩, List.forall_mem_append.2 ⟨ihl, ihr⟩⟩

theorem Accepts.subterms {e : BoundExpr} {τ : Ty} (h : Γ.Accepts τ e) :
    ∀ x ∈ e.subterms, Γ.IsTyped x := by
  obtain ⟨σ, he, -⟩ := h.exists_hasType
  exact he.subterms

theorem TypedStmt.exprs {b : BoundStmt} (h : Γ.TypedStmt b) : ∀ x ∈ b.exprs, Γ.IsTyped x := by
  induction h with
  | assign _ _ he => exact he.subterms
  | call _ _ hargs =>
    intro x hx
    obtain ⟨e, he, hx⟩ := List.mem_flatMap.1 hx
    exact forall_mem_right (fun _ _ he => he.subterms) hargs e he x hx
  | callback => simp [BoundStmt.exprs]
  | cond he _ _ ihthen ihelse =>
    refine List.forall_mem_append.2 ⟨he.subterms, List.forall_mem_append.2 ⟨fun x hx => ?_, fun x hx => ?_⟩⟩
    · obtain ⟨b, hb, hx⟩ := BoundStmt.mem_allExprs.1 hx
      exact ihthen b hb x hx
    · obtain ⟨b, hb, hx⟩ := BoundStmt.mem_allExprs.1 hx
      exact ihelse b hb x hx
  | ret => simp [BoundStmt.exprs]

theorem TypedOp.exprs {op : BoundOp} (h : Γ.TypedOp op) : ∀ x ∈ op.exprs, Γ.IsTyped x := by
  induction h with
  | openElement | closeElement | text => simp [BoundOp.exprs]
  | attr he =>
    cases he with
    | plain he => exact he.subterms
    | method he => exact he.subterms
  | value he => exact he.subterms
  | component _ _ hargs _ _ ih =>
    refine List.forall_mem_append.2 ⟨fun x hx => ?_, fun x hx => ?_⟩
    · obtain ⟨a, ha, hx⟩ := List.mem_flatMap.1 hx
      obtain ⟨_, _, -, -, haccepts⟩ := hargs a ha
      exact haccepts.subterms x hx
    · obtain ⟨op, hop, hx⟩ := BoundOp.mem_allExprs.1 hx
      exact ih op hop x hx

end TypingContext

theorem BoundType.Typed.contains {table : SymbolTable} {t : BoundType} {type : TypeSymbol}
    (h : t.Typed table type) {params : List Bytes} {e : BoundExpr} (he : t.Contains type params e) :
    TypingContext.IsTyped { table, current := t.id, params } e := by
  cases he with
  | init hinit hx =>
    exact TypingContext.forall_mem_right (fun _ _ hr x hx => (hr x hx).subterms) h.inits.flip _ hinit _ rfl _ hx
  | method hmem hx =>
    obtain ⟨b, hb, hx⟩ := BoundStmt.mem_allExprs.1 hx
    exact (List.forall₂_zip h.methods hmem b hb).exprs _ hx
  | render hrender hx =>
    obtain ⟨op, hop, hx⟩ := BoundOp.mem_allExprs.1 hx
    exact (h.render _ hrender op hop).exprs _ hx

/-! ## Types of lowered values -/

namespace Code

open Lower

/-- A value that the step gives has this type. -/
def Gives (x : Lower Value) (type : ValueType) : Prop :=
  ∀ s v s', StateT.run x s = .ok (v, s') → v.type = type

theorem Gives.pure {v : Value} {type : ValueType} (h : v.type = type) : Gives (pure v) type := by
  rintro s _ _ ⟨⟩
  exact h

theorem Gives.bind {α : Type} {x : Lower α} {f : α → Lower Value} {type : ValueType}
    (h : ∀ a, Gives (f a) type) : Gives (x >>= f) type := by
  intro s v s'' hrun
  obtain ⟨a, s', -, hrun⟩ := run_bind_eq_ok.1 hrun
  exact h a s' v s'' hrun

theorem Gives.bound_bind {α : Type} {o : Option α} {f : α → Lower Value} {type : ValueType}
    (h : ∀ a ∈ o, Gives (f a) type) : Gives (bound o >>= f) type := by
  cases o with
  | none =>
    intro s v s' hrun
    cases hrun
  | some a =>
    intro s v s'' hrun
    obtain ⟨_, s', ⟨⟩, hrun⟩ := run_bind_eq_ok.1 hrun
    exact h a rfl s v s'' hrun

namespace LowerScope

variable {c : LowerScope} {Γ : TypingContext}

theorem gives_compute (f : Runtime) (type : ValueType) (args : List Value) :
    Gives (compute f type args) type :=
  .bind fun _ => .bind fun _ => .pure rfl

theorem gives_read (hc : c.Agrees Γ) {b : Binding} {τ : Ty} (hb : Γ.Binds b τ) :
    Gives (c.read b) τ.valueType := by
  cases hb with
  | @param i name hi =>
    rw [Ty.valueType_ofName]
    refine .bound_bind fun type htype => .bind fun _ => .bind fun _ => .pure ?_
    rw [hc.params, List.getElem?_map, hi] at htype
    exact (Option.some.inj htype).symm
  | @member id m _ hm =>
    rw [Ty.valueType_ofName, ← CodeScope.memberType_eq (hc.table ▸ hm)]
    exact .bind fun _ => .bind fun _ => .bind fun _ => .pure rfl
  | method => exact .bind fun _ => gives_compute _ _ _

theorem gives_arith (op : ArithOp) (l r : Operand) : Gives (arith op l r) .i32 :=
  .bind fun _ => .bind fun _ => .pure rfl

theorem gives_logic (op : LogicOp) (l r : Operand) : Gives (logic op l r) .i1 :=
  .bind fun _ => .bind fun _ => .pure rfl

theorem gives_compare (pred : Predicate) (type : ValueType) (l r : Operand) :
    Gives (compare pred type l r) .i1 :=
  .bind fun _ => .bind fun _ => .pure rfl

theorem gives_equality (equal : Bool) (l r : Value) (τ : Ty) : Gives (equality equal l r τ) .i1 := by
  rw [equality]
  split
  · intro s v s' hrun
    obtain ⟨same, s₁, hsame, hrun⟩ := run_bind_eq_ok.1 hrun
    have htype : same.type = .i1 := gives_compute .stringEquals .i1 _ s same s₁ hsame
    cases equal with
    | true =>
      cases hrun
      exact htype
    | false => exact gives_logic _ _ _ _ v s' hrun
  · exact gives_compare _ _ _ _

theorem gives_binary {op : BinaryOp} {l r : Value} {τ₁ τ₂ τ : Ty}
    (h : BodyScope.binaryType? op τ₁ τ₂ = some τ) : Gives (binary op l r τ₁ τ₂) τ.valueType := by
  cases op with
  | add =>
    simp only [BodyScope.binaryType?] at h
    rw [binary]
    split at h
    · next hint =>
      cases h
      rw [if_pos hint]
      exact gives_arith _ _ _
    · next hint =>
      split at h
      · cases h
        rw [if_neg hint]
        exact .bind fun _ => .bind fun _ => gives_compute _ _ _
      · cases h
  | sub | mul | div | mod =>
    simp only [BodyScope.binaryType?] at h
    split at h <;> cases h
    exact gives_arith _ _ _
  | eq | ne =>
    simp only [BodyScope.binaryType?] at h
    split at h <;> cases h
    exact gives_equality _ _ _ _
  | lt | gt | le | ge =>
    simp only [BodyScope.binaryType?] at h
    split at h <;> cases h
    exact gives_compare _ _ _ _
  | and | or =>
    simp only [BodyScope.binaryType?] at h
    split at h <;> cases h
    exact gives_logic _ _ _

/-- An expression is lowered to a value that is represented as its type says. -/
theorem gives_expr (hc : c.Agrees Γ) {e : BoundExpr} {τ : Ty} (he : Γ.HasType e τ) :
    Gives (c.expr e) τ.valueType := by
  cases he with
  | int => exact .pure rfl
  | string => exact .bind fun _ => .pure rfl
  | bool => exact .pure rfl
  | name hb =>
    refine .bound_bind fun b hsome => ?_
    cases hsome
    exact gives_read hc hb
  | @unary e op s he =>
    refine .bind fun v => ?_
    cases op <;> exact .bind fun _ => .bind fun _ => .pure rfl
  | binary hl hr hop =>
    rw [← hl.type_eq, ← hr.type_eq] at hop
    exact .bind fun _ => .bind fun _ => gives_binary hop

end LowerScope

end Code

namespace Code.Links

variable {m : Model} {M : Module}

theorem symbols_prototypes_sublist (M : Module) :
    (M.prototypes.map (·.symbol)).Sublist (M.defined ++ M.declared) := by
  have hdeclared : ((M.declarations.filterMap (·.prototype?)).map (·.symbol)).Sublist M.declared := by
    rw [Module.declared]
    induction M.declarations with
    | nil => exact .slnil
    | cons d ds ih =>
      cases d with
      | runtime | function => exact ih.cons_cons _
      | descriptor => exact ih.cons _
  rw [Module.prototypes, List.map_append, List.map_map]
  refine List.Sublist.append ?_ hdeclared
  exact List.sublist_append_right _ _

/-- The module of a typed model is typed. -/
theorem wellTyped (h : Links m M) (hnames : m.WellNamed) : M.WellTyped where
  prototypes := (symbols_prototypes_sublist M).nodup (h.nodup_symbols hnames)
  layouts := by
    rw [h.layouts, List.map_map]
    exact hnames.nodup_names
  functions := h.typed hnames

end Code.Links

/-- Where an expression of a declared type is lowered. -/
def Code.LowerScope.ofType (m : Model) (t : BoundType) (params : List Bytes) : LowerScope where
  model := m
  current := t.id
  params := params.map ValueType.ofName

/-- Over closed references, parsed files without errors are lowered to a typed module: every operand
has the type that is written for it, every call passes what the line of its callee takes, and every
store writes what its address points to. This is what is read from its text, if the types of the references
have names that can be written. Each expression becomes a value that is represented as the type of the
expression says. -/
theorem Model.lowered_typed {refs : List Reference} {trees : List SyntaxTree}
    (hrefs : Reference.Closed refs)
    (htrees : ∀ tree ∈ trees, ∃ source file, tree = SyntaxTree.parse source file)
    (h : (Model.analyze refs trees).hasErrors = false) :
    (∀ name, ∃ M, lower (Model.analyze refs trees) name = .ok M ∧ M.WellTyped ∧
        ((∀ r ∈ refs, r.Nameable) → M.Legible)) ∧
      ∀ t ∈ (Model.analyze refs trees).types, ∀ type,
        (Model.analyze refs trees).table.get? t.id = some type →
        ∀ params e, t.Contains type params e → e.type ≠ .error ∧ ∀ s, ∃ v s',
          StateT.run ((LowerScope.ofType (Model.analyze refs trees) t params).expr e) s =
              .ok (v, s') ∧ v.type = e.type.valueType := by
  have htyped := Model.typed_analyze hrefs h
  have hnames := Model.wellNamed_analyze (SyntaxTree.worded_of_parsed htrees) h
  constructor
  · intro name
    obtain ⟨M, hM⟩ := exists_lower htyped.resolved name
    refine ⟨M, hM, (links_of_lower htyped hnames hM).wellTyped hnames, fun hnameable => ?_⟩
    exact Model.legible_of_parsed hrefs hnameable htrees h hM
  · intro t ht type htype params e he
    obtain ⟨type', htype', ht⟩ := htyped t ht
    cases htype.symm.trans htype'
    obtain ⟨τ, hτ⟩ := ht.contains he
    obtain rfl := hτ.type_eq
    refine ⟨hτ.ne_error, fun s => ?_⟩
    have hfits : (LowerScope.ofType (Model.analyze refs trees) t params).Fits
        { table := (Model.analyze refs trees).table, current := t.id, params } :=
      ⟨rfl, rfl, List.length_map _⟩
    obtain ⟨v, s', hrun, -⟩ := (LowerScope.total_expr hfits hτ.resolved).run s
    exact ⟨v, s', hrun, LowerScope.gives_expr ⟨rfl, rfl, rfl⟩ hτ s v s' hrun⟩

theorem Model.lowered_typed_counter :
    Reference.Closed [panelLibrary] ∧ counterModel.hasErrors = false ∧
      ∃ M, lower counterModel "App" = .ok M ∧ M.WellTyped ∧ M.Legible := by
  have htrees : ∀ tree ∈ [SyntaxTree.parse counterSource "counter.il"],
      ∃ source file, tree = SyntaxTree.parse source file :=
    List.forall_mem_singleton.2 ⟨_, _, rfl⟩
  obtain ⟨hmodule, -⟩ := Model.lowered_typed closed_panelLibrary htrees counterModel_hasErrors
  obtain ⟨M, hM, htyped, hlegible⟩ := hmodule "App"
  exact ⟨closed_panelLibrary, counterModel_hasErrors, M, hM, htyped, hlegible nameable_panelLibrary⟩

end ViewCompiler
