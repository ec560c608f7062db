import ViewCompiler.Model.Body
import ViewCompiler.Proofs.Relabelling

/-!
Analysis over a relabelled table. Each step finds the same over both tables and gives the same
value, with the positions of types translated: the headers of declarations
(`SymbolTable.Relabels.header_eq`), expressions, statements and render blocks, and so whole bodies
(`SymbolTable.Relabels.body_eq`).
-/

namespace ViewCompiler

/-! ## Findings -/

/-- The members that are read are those of the relabelled types. -/
def Findings.relabel (σ : TypeId → TypeId) (f : Findings) : Findings :=
  { f with reads := f.reads.map (·.relabel σ) }

theorem Findings.relabel_append (σ : TypeId → TypeId) (f g : Findings) :
    (f ++ g).relabel σ = f.relabel σ ++ g.relabel σ :=
  congrArg (Findings.mk _ _) List.map_append

namespace Checked

variable {α β : Type} {σ : TypeId → TypeId}

protected theorem ext {c d : Checked α} (hvalue : c.value = d.value)
    (hreports : c.findings.reports = d.findings.reports)
    (husings : c.findings.usings = d.findings.usings)
    (hreads : c.findings.reads = d.findings.reads) : c = d := by
  obtain ⟨_, _, _, _⟩ := c
  obtain ⟨_, _, _, _⟩ := d
  cases hvalue
  cases hreports
  cases husings
  cases hreads
  rfl

theorem lawful : LawfulMonad Checked :=
  .mk' Checked
    (fun _ => Checked.ext rfl (List.append_nil _) (List.append_nil _) (List.append_nil _))
    (fun _ _ => rfl)
    fun _ _ _ => Checked.ext rfl (List.append_assoc _ _ _) (List.append_assoc _ _ _)
      (List.append_assoc _ _ _)

/-- The same value, found over the relabelled types. -/
def relabel (σ : TypeId → TypeId) (c : Checked α) : Checked α :=
  { c with findings := c.findings.relabel σ }

@[simp] theorem relabel_pure (a : α) : (pure a : Checked α).relabel σ = pure a := rfl

@[simp] theorem relabel_bind (c : Checked α) (f : α → Checked β) :
    (c >>= f).relabel σ = c.relabel σ >>= fun a => (f a).relabel σ :=
  Checked.ext rfl rfl rfl List.map_append

theorem findings_map (f : α → β) (c : Checked α) : (f <$> c).findings = c.findings :=
  congr (congr (congrArg Findings.mk (List.append_nil _)) (List.append_nil _)) (List.append_nil _)

@[simp] theorem relabel_map (f : α → β) (c : Checked α) :
    (f <$> c).relabel σ = f <$> c.relabel σ :=
  Checked.ext rfl rfl rfl List.map_append

theorem map_ite {p : Prop} [Decidable p] (f : α → β) (c d : Checked α) :
    f <$> (if p then c else d) = if p then f <$> c else f <$> d := apply_ite _ _ _ _

@[simp] theorem relabel_report (span : Span) (e : SemanticError) :
    (report span e).relabel σ = report span e := rfl

@[simp] theorem relabel_needs (ns : Bytes) : (needs ns).relabel σ = needs ns := rfl

@[simp] theorem relabel_reads (id : MemberId) : (reads id).relabel σ = reads (id.relabel σ) := rfl

@[simp] theorem relabel_ite {p : Prop} [Decidable p] (c d : Checked α) :
    (if p then c else d).relabel σ = if p then c.relabel σ else d.relabel σ := apply_ite _ _ _ _

end Checked

-- The other proofs about checking take a bind apart where the laws would turn it into a map.
attribute [local instance] Checked.lawful
attribute [local simp] Checked.map_ite

/-! ## Headers -/

/-- The same declaration, at the other position. -/
structure Declared.Relabels (σ : TypeId → TypeId) (d e : Declared) : Prop where
  scope_eq : e.scope = d.scope
  decl_eq : e.decl = d.decl
  id_eq : e.id = σ d.id

namespace SymbolTable.Relabels

variable {σ : TypeId → TypeId} {t u : SymbolTable} {d e : Declared}

theorem resolveType_eq (h : Relabels σ t u) (scope : FileScope) (name : Bytes) (span : Span) :
    u.resolveType scope name span = Option.map σ <$> (t.resolveType scope name span).relabel σ := by
  rw [resolveType, resolveType, h.resolve_eq]
  obtain ⟨type, candidates, viaUsing⟩ := t.resolve name scope.ns scope.usings
  rcases candidates with _ | ⟨first, _ | ⟨second, more⟩⟩
  case cons.cons => simp [TypeLookup.relabel, h.nameOf_eq]
  -- With at most one candidate the error, if any, names no type.
  all_goals
    cases type with
    | none => simp [TypeLookup.relabel]
    | some id =>
      by_cases hvia : viaUsing = [] <;> simp [TypeLookup.relabel, hvia]

theorem resolveRef_eq (h : Relabels σ t u) (scope : FileScope) (ref : TypeRef) :
    u.resolveRef scope ref = (t.resolveRef scope ref).relabel σ := by
  rw [resolveRef, resolveRef, h.resolveType_eq]
  split
  · rfl
  · simp [Function.comp_def, h.nameOf_eq]

theorem headerMembers_eq (h : Relabels σ t u) (scope : FileScope) (type : Bytes)
    (seen : List Bytes) (ms : List DataMember) :
    u.headerMembers scope type seen ms = (t.headerMembers scope type seen ms).relabel σ := by
  induction ms generalizing seen with
  | nil => rfl
  | cons m ms ih => simp [headerMembers, h.resolveRef_eq, ih]

theorem headerParams_eq (h : Relabels σ t u) (scope : FileScope) (seen : List Bytes)
    (ps : List Parameter) :
    u.headerParams scope seen ps = (t.headerParams scope seen ps).relabel σ := by
  induction ps generalizing seen with
  | nil => rfl
  | cons p ps ih => simp [headerParams, h.resolveRef_eq, ih]

theorem headerMethods_eq (h : Relabels σ t u) (scope : FileScope) (type : Bytes)
    (seen : List Bytes) (ms : List MethodDecl) :
    u.headerMethods scope type seen ms = (t.headerMethods scope type seen ms).relabel σ := by
  induction ms generalizing seen with
  | nil => rfl
  | cons m ms ih => simp [headerMethods, h.headerParams_eq, ih]

theorem headerBase_eq (h : Relabels σ t u) (hd : d.Relabels σ e) (type : TypeSymbol)
    (ref : TypeRef) : u.headerBase e type ref = (t.headerBase d type ref).relabel σ := by
  rw [headerBase, headerBase, hd.scope_eq, hd.id_eq, h.resolveType_eq]
  split
  · rfl
  · rw [Checked.relabel_bind, bind_map_left]
    congr 1
    funext base
    cases base with
    | none => rfl
    | some base => simp [h.injective.eq_iff, h.get?_eq, h.nameOf_eq]

theorem header_eq (h : Relabels σ t u) (hd : d.Relabels σ e) (type : TypeSymbol) :
    u.header e type = (t.header d type).relabel σ := by
  rw [header, header, hd.scope_eq, hd.decl_eq]
  cases hbase : d.decl.base with
  | none =>
    cases d.decl.render <;>
      simp [h.isSome_find?, h.headerMembers_eq, h.headerMethods_eq]
  | some ref =>
    cases d.decl.render <;>
      simp [h.headerBase_eq hd, h.headerMembers_eq, h.headerMethods_eq]

end SymbolTable.Relabels

/-! ## Relabelled bodies -/

section
variable (σ : TypeId → TypeId)

def Ty.relabel : Ty → Ty
  | .object type => .object (σ type)
  | .error => .error
  | .int => .int
  | .string => .string
  | .bool => .bool
  | .fragment => .fragment
  | .callback => .callback
  | .methodGroup => .methodGroup

def Binding.relabel : Binding → Binding
  | .param index => .param index
  | .member id => .member (id.relabel σ)
  | .method id => .method (id.relabel σ)

def CallBinding.relabel : CallBinding → CallBinding
  | .method id receiver => .method (id.relabel σ) (receiver.map (·.relabel σ))
  | .callback target => .callback (target.relabel σ)

def BoundExpr.relabel : BoundExpr → BoundExpr
  | .int span value => .int span value
  | .string span text => .string span text
  | .bool span value => .bool span value
  | .name span word binding type =>
    .name span word (binding.map (·.relabel σ)) (type.relabel σ)
  | .unary span op operand type => .unary span op operand.relabel (type.relabel σ)
  | .binary span op left right type =>
    .binary span op left.relabel right.relabel (type.relabel σ)

mutual

def BoundStmt.relabel : BoundStmt → BoundStmt
  | .assign span target binding value =>
    .assign span target (binding.map (·.relabel σ)) (value.relabel σ)
  | .call span binding args =>
    .call span (binding.map (·.relabel σ)) (args.map (·.relabel σ))
  | .cond span condition thenBody elseBody =>
    .cond span (condition.relabel σ) (BoundStmt.relabelAll thenBody) (BoundStmt.relabelAll elseBody)
  | .ret span => .ret span

def BoundStmt.relabelAll : List BoundStmt → List BoundStmt
  | [] => []
  | s :: ss => s.relabel :: BoundStmt.relabelAll ss

end

def BoundArg.relabel (arg : BoundArg) : BoundArg :=
  { arg with value := arg.value.relabel σ, param := arg.param.map (·.relabel σ) }

mutual

def BoundOp.relabel : BoundOp → BoundOp
  | .openElement span tag => .openElement span tag
  | .attr span name content => .attr span name (content.relabel σ)
  | .closeElement span => .closeElement span
  | .text span content => .text span content
  | .value span content => .value span (content.relabel σ)
  | .component span type args childSpan child content =>
    .component span (type.map σ) (args.map (·.relabel σ)) childSpan (BoundOp.relabelAll child)
      (content.map (·.relabel σ))

def BoundOp.relabelAll : List BoundOp → List BoundOp
  | [] => []
  | op :: ops => op.relabel :: BoundOp.relabelAll ops

end

def BoundMethod.relabel (m : BoundMethod) : BoundMethod :=
  { m with body := BoundStmt.relabelAll σ m.body }

/-- A bound type whose ids are those of the relabelled types. -/
def BoundType.relabel (t : BoundType) : BoundType where
  id := σ t.id
  inits := t.inits.map (Option.map (·.relabel σ))
  methods := t.methods.map (·.relabel σ)
  render := t.render.map (BoundOp.relabelAll σ)

end

variable {σ : TypeId → TypeId} {t u : SymbolTable}

namespace Ty

/-- Only types of objects change. -/
@[simp] theorem relabel_of_ne {a : Ty} (ha : ∀ id, a ≠ .object id) : a.relabel σ = a := by
  cases a with
  | object id => exact absurd rfl (ha id)
  | _ => rfl

@[simp] theorem relabel_eq_iff {a c : Ty} (hc : ∀ id, c ≠ .object id) :
    a.relabel σ = c ↔ a = c := by
  cases a with
  | object id => simp [relabel, Ne.symm (hc _)]
  | _ => rfl

theorem relabel_injective (h : Function.Injective σ) : Function.Injective (relabel σ) := by
  intro a b heq
  cases b with
  | object id =>
    cases a with
    | object id' => rw [h (Ty.object.inj heq)]
    | _ => cases heq
  | _ => exact (relabel_eq_iff (by simp)).1 heq

@[simp] theorem isScalar_relabel (a : Ty) : (a.relabel σ).isScalar = a.isScalar := by
  cases a <;> rfl

@[simp] theorem isRenderable_relabel (a : Ty) : (a.relabel σ).isRenderable = a.isRenderable := by
  cases a <;> rfl

end Ty

namespace BoundExpr

@[simp] theorem type_relabel (e : BoundExpr) : (e.relabel σ).type = e.type.relabel σ := by
  cases e <;> rfl

@[simp] theorem span_relabel (e : BoundExpr) : (e.relabel σ).span = e.span := by
  cases e <;> rfl

/-- The place and the method of an expression that names one. -/
def method? : BoundExpr → Option (Span × MethodId)
  | .name span _ (some (.method id)) .methodGroup => some (span, id)
  | _ => none

theorem method?_relabel (e : BoundExpr) :
    (e.relabel σ).method? = e.method?.map (Prod.map id (·.relabel σ)) := by
  cases e with
  | name span word binding type =>
    match binding with
    | none | some (.param _) | some (.member _) => rfl
    | some (.method id) => cases type <;> rfl
  | _ => rfl

end BoundExpr

namespace SymbolTable.Relabels

theorem ofName_eq (h : Relabels σ t u) (name : Bytes) :
    Ty.ofName u name = (Ty.ofName t name).relabel σ := by
  rw [Ty.ofName, Ty.ofName, h.find?_eq]
  split
  · rfl
  split
  · rfl
  split
  · rfl
  split
  · rfl
  split
  · rfl
  cases t.find? name <;> rfl

theorem display_eq (h : Relabels σ t u) (a : Ty) : (a.relabel σ).display u = a.display t := by
  cases a with
  | object id => exact h.nameOf_eq id
  | _ => rfl

end SymbolTable.Relabels

/-! ## Bodies -/

namespace BodyScope

/-- The scope of the same body over a relabelled table. -/
def relabel (σ : TypeId → TypeId) (u : SymbolTable) (c : BodyScope) : BodyScope :=
  { c with table := u, current := σ c.current }

@[simp] theorem table_relabel (c : BodyScope) : (c.relabel σ u).table = u := rfl

@[simp] theorem file_relabel (c : BodyScope) : (c.relabel σ u).file = c.file := rfl

variable {c : BodyScope}

section
variable (h : c.table.Relabels σ u)
include h

theorem bind?_relabel (name : Bytes) :
    (c.relabel σ u).bind? name = (c.bind? name).map (·.relabel σ) := by
  simp only [bind?, relabel, h.findMember?_eq, h.findMethod?_eq]
  cases c.params.findIdx? (·.1 = name) with
  | some i => rfl
  | none =>
    cases c.table.findMember? c.current name with
    | some id => rfl
    | none => cases c.table.findMethod? c.current name <;> rfl

theorem typeOf_relabel (binding : Binding) :
    (c.relabel σ u).typeOf (binding.relabel σ) = (c.typeOf binding).relabel σ := by
  cases binding with
  | param i => exact h.ofName_eq _
  | member id => simp only [typeOf, relabel, Binding.relabel, h.member?_eq, h.ofName_eq]
  | method id => rfl

theorem display_relabel (a : Ty) : (c.relabel σ u).display (a.relabel σ) = c.display a :=
  h.display_eq a

theorem methodName_relabel (id : MethodId) :
    (c.relabel σ u).methodName (id.relabel σ) = c.methodName id := by
  simp only [methodName, relabel, h.method?_eq]

omit h in
theorem read_relabel (binding : Binding) : read (binding.relabel σ) = (read binding).relabel σ := by
  cases binding <;> rfl

omit h in
theorem binaryType?_relabel (hσ : Function.Injective σ) (op : BinaryOp) (left right : Ty) :
    binaryType? op (left.relabel σ) (right.relabel σ) =
      (binaryType? op left right).map (·.relabel σ) := by
  have hsame := (Ty.relabel_injective hσ).eq_iff (a := left) (b := right)
  cases op with
  | add =>
    simp only [binaryType?, Ty.isScalar_relabel, ne_eq, reduceCtorEq, not_false_eq_true,
      implies_true, Ty.relabel_eq_iff]
    split
    · rfl
    · split <;> rfl
  | _ =>
    simp only [binaryType?, Ty.isScalar_relabel, ne_eq, reduceCtorEq, not_false_eq_true,
      implies_true, Ty.relabel_eq_iff, hsame]
    split <;> rfl

omit h in
theorem unaryType_ne (op : UnaryOp) (id : TypeId) : unaryType op ≠ .object id := by
  cases op <;> simp [unaryType]

/-- Whether a value of the second type can be stored as one of the first. -/
def fits (c : BodyScope) : Ty → Ty → Bool
  | .object base, .object type => c.table.derivesFrom type base
  | target, type => target = type

theorem expr_relabel (inInit : Bool) (e : Expr) :
    (c.relabel σ u).expr inInit e = BoundExpr.relabel σ <$> (c.expr inInit e).relabel σ := by
  induction e with
  | int | string | bool => rfl
  | name span name =>
    cases inInit with
    | true =>
      simp only [expr, if_true, relabel, h.findMember?_eq, h.findMethod?_eq, Option.isSome_map]
      split <;> rfl
    | false =>
      simp only [expr, bind?_relabel h]
      cases c.bind? name with
      | none => rfl
      | some binding =>
        simp [read_relabel, typeOf_relabel h, BoundExpr.relabel]
  | unary span op operand ih =>
    simp [expr, ih, display_relabel h, BoundExpr.relabel, unaryType_ne]
  | binary span op left right ihl ihr =>
    simp only [expr, ihl, ihr, bind_map_left, Checked.relabel_bind, map_bind, Checked.map_ite,
      Checked.relabel_ite, BoundExpr.type_relabel, display_relabel h, binaryType?_relabel h.injective]
    congr 1
    funext left
    congr 1
    funext right
    simp
    cases binaryType? op left.type right.type with
    | some type => rfl
    | none => simp [BoundExpr.relabel]

omit h in
/-- A conversion looks at the method that a value names, if it names one. -/
theorem conversion_eq (c : BodyScope) (target : Ty) (value : BoundExpr) :
    c.conversion target value =
      if target = .error ∨ value.type = .error then pure ()
      else match value.method? with
        | some (span, id) =>
          if target = .callback then
            if ((c.table.method? id).map (·.paramTypes)).getD [] = [] then pure ()
            else .report span (.callbackWithParameters (c.methodName id))
          else .report span (.methodConversion (c.methodName id) (c.display target))
        | none =>
          if c.fits target value.type then pure ()
          else .report value.span (.conversion (c.display value.type) (c.display target)) := by
  unfold conversion
  split
  · rfl
  · cases value with
    | name span word binding type =>
      match binding with
      | none | some (.param _) | some (.member _) => rfl
      | some (.method id) => cases type <;> rfl
    | _ => rfl

theorem fits_relabel (target type : Ty) :
    (c.relabel σ u).fits (target.relabel σ) (type.relabel σ) = c.fits target type := by
  have hsame := (Ty.relabel_injective h.injective).eq_iff (a := target) (b := type)
  cases target with
  | object base =>
    cases type with
    | object type => exact h.derivesFrom_eq type base
    | _ => rfl
  | _ => cases type <;> rfl

theorem conversion_relabel (target : Ty) (value : BoundExpr) :
    (c.relabel σ u).conversion (target.relabel σ) (value.relabel σ) =
      (c.conversion target value).relabel σ := by
  rw [conversion_eq, conversion_eq, BoundExpr.method?_relabel]
  simp only [BoundExpr.type_relabel, BoundExpr.span_relabel, display_relabel h, fits_relabel h,
    Checked.relabel_ite, Checked.relabel_pure]
  cases value.method? with
  | none => simp
  | some named => simp [h.method?_eq, methodName_relabel h]

theorem exprs_relabel (es : List Expr) :
    (c.relabel σ u).exprs es = List.map (·.relabel σ) <$> (c.exprs es).relabel σ := by
  induction es with
  | nil => rfl
  | cons e es ih => simp [exprs, expr_relabel h, ih]

theorem conversions_relabel (types : List Bytes) (values : List BoundExpr) :
    (c.relabel σ u).conversions types (values.map (·.relabel σ)) =
      (c.conversions types values).relabel σ := by
  induction types generalizing values with
  | nil => rfl
  | cons type types ih =>
    cases values with
    | nil => rfl
    | cons value values => simp [conversions, h.ofName_eq, conversion_relabel h, ih]

/-! ### Statements -/

theorem assignment_relabel (span : Span) (target : Bytes) (value : BoundExpr) :
    (c.relabel σ u).assignment span target (value.relabel σ) =
      Option.map (·.relabel σ) <$> (c.assignment span target value).relabel σ := by
  rw [assignment, assignment, bind?_relabel h]
  match c.bind? target with
  | none => rfl
  | some (.method id) => rfl
  | some (.param i) =>
    simp [Binding.relabel, ← typeOf_relabel h, ← conversion_relabel h]
  | some (.member id) =>
    simp [Binding.relabel, ← typeOf_relabel h, ← conversion_relabel h, relabel, h.member?_eq]

theorem receiver_relabel (span : Span) (name method : Bytes) :
    (c.relabel σ u).receiver span name method =
      Option.map (Prod.map (·.relabel σ) σ) <$> (c.receiver span name method).relabel σ := by
  rw [receiver, receiver, bind?_relabel h]
  cases c.bind? name with
  | none => rfl
  | some binding =>
    have htype := typeOf_relabel h binding
    have hread : read (binding.relabel σ) = (read binding).relabel σ := read_relabel binding
    have hdisplay := display_relabel h (c.typeOf binding)
    cases binding with
    | method id => rfl
    | param i =>
      simp only [Option.map_some, Binding.relabel] at htype hread ⊢
      rw [htype, hread]
      cases c.typeOf (.param i) <;> rfl
    | member id =>
      simp only [Option.map_some, Binding.relabel] at htype hread ⊢
      rw [htype, hread]
      cases c.typeOf (.member id) <;> rfl

theorem callback?_relabel (name : Bytes) :
    (c.relabel σ u).callback? name = (c.callback? name).map (·.relabel σ) := by
  rw [callback?, callback?, bind?_relabel h, Option.filter_map]
  congr 2
  funext binding
  simp [typeOf_relabel h]

theorem callOn_relabel (span : Span) (target : TypeId) (receiver : Option Binding) (method : Bytes)
    (args : List BoundExpr) :
    (c.relabel σ u).callOn span (σ target) (receiver.map (·.relabel σ)) method
        (args.map (·.relabel σ)) =
      Option.map (·.relabel σ) <$> (c.callOn span target receiver method args).relabel σ := by
  rw [callOn, callOn, table_relabel, h.findMethod?_eq, callback?_relabel h, Option.isNone_map]
  cases c.table.findMethod? target method with
  | some id =>
    simp [h.method?_eq, conversions_relabel h, CallBinding.relabel]
  | none =>
    have hcallback : (if receiver.isNone then (c.callback? method).map (·.relabel σ) else none) =
        (if receiver.isNone then c.callback? method else none).map (·.relabel σ) := by
      split <;> rfl
    rw [Option.map_none, hcallback]
    cases (if receiver.isNone then c.callback? method else none) with
    | none => simp [h.nameOf_eq]
    | some binding => simp [read_relabel, CallBinding.relabel]

theorem call_relabel (span : Span) (on : Option Bytes) (method : Bytes) (args : List BoundExpr) :
    (c.relabel σ u).call span on method (args.map (·.relabel σ)) =
      Option.map (·.relabel σ) <$> (c.call span on method args).relabel σ := by
  cases on with
  | none => exact callOn_relabel h span c.current none method args
  | some name =>
    rw [call, call, receiver_relabel h, bind_map_left, Checked.relabel_bind, map_bind]
    congr 1
    funext found
    cases found with
    | none => rfl
    | some found => exact callOn_relabel h span found.2 (some found.1) method args

end

mutual

theorem stmt_relabel (h : c.table.Relabels σ u) (s : Stmt) :
    (c.relabel σ u).stmt s = BoundStmt.relabel σ <$> (c.stmt s).relabel σ := by
  cases s with
  | assign span target value =>
    simp [stmt, expr_relabel h, assignment_relabel h, BoundStmt.relabel]
  | call span on method args =>
    simp [stmt, exprs_relabel h, call_relabel h, BoundStmt.relabel]
  | cond span condition thenBody elseBody =>
    simp [stmt, expr_relabel h, stmts_relabel h thenBody, stmts_relabel h elseBody,
      display_relabel h, BoundStmt.relabel]
  | ret span => rfl

theorem stmts_relabel (h : c.table.Relabels σ u) (ss : List Stmt) :
    (c.relabel σ u).stmts ss = BoundStmt.relabelAll σ <$> (c.stmts ss).relabel σ := by
  cases ss with
  | nil => rfl
  | cons s ss => simp [stmts, stmt_relabel h s, stmts_relabel h ss, BoundStmt.relabelAll]

end

/-! ### Render blocks -/

section
variable (h : c.table.Relabels σ u)
include h

theorem attributeValue_relabel (value : BoundExpr) :
    (c.relabel σ u).attributeValue (value.relabel σ) = (c.attributeValue value).relabel σ := by
  have hcallback := conversion_relabel h .callback value
  rw [attributeValue, attributeValue, BoundExpr.type_relabel, BoundExpr.span_relabel]
  cases value.type with
  | methodGroup => exact hcallback
  | object id => exact congrArg (fun name => Checked.report _ (.attributeValue name)) (h.nameOf_eq id)
  | _ => rfl

theorem componentType_relabel (ref : TypeRef) :
    (c.relabel σ u).componentType ref = Option.map σ <$> (c.componentType ref).relabel σ := by
  rw [componentType, componentType, table_relabel, file_relabel, h.resolveType_eq]
  split
  · rfl
  · rw [bind_map_left, Checked.relabel_bind, map_bind]
    congr 1
    funext type
    cases type with
    | none => rfl
    | some id => simp [h.get?_eq, h.nameOf_eq]

/-- The member that a name means, with its symbol. -/
theorem found_relabel (type : TypeId) (name : Bytes) :
    ((u.findMember? (σ type) name).bind fun id => (u.member? id).map fun m => (id, m)) =
      ((c.table.findMember? type name).bind fun id => (c.table.member? id).map fun m => (id, m)).map
        (Prod.map (·.relabel σ) id) := by
  rw [h.findMember?_eq]
  cases c.table.findMember? type name with
  | none => rfl
  | some id => simp [h.member?_eq, Function.comp_def]

theorem parameter_relabel (type : TypeId) (seen : List Bytes) (arg : ComponentArg)
    (value : BoundExpr) : (c.relabel σ u).parameter (σ type) seen arg (value.relabel σ) =
      Option.map (·.relabel σ) <$> (c.parameter type seen arg value).relabel σ := by
  rw [parameter, parameter, table_relabel, found_relabel h]
  match ((c.table.findMember? type arg.name).bind fun id =>
      (c.table.member? id).map fun m => (id, m)) with
  | none => simp [h.nameOf_eq]
  | some (id, { kind := .param, type := paramType, .. }) =>
    simp [h.ofName_eq, conversion_relabel h]
  | some (id, { kind := .field, .. }) => simp [h.nameOf_eq]
  | some (id, { kind := .inject, .. }) => simp [h.nameOf_eq]

theorem componentArgs_relabel (type : Option TypeId) (seen : List Bytes)
    (args : List ComponentArg) : (c.relabel σ u).componentArgs (type.map σ) seen args =
      List.map (·.relabel σ) <$> (c.componentArgs type seen args).relabel σ := by
  induction args generalizing seen with
  | nil => rfl
  | cons arg args ih =>
    cases type with
    | none =>
      rw [Option.map_none] at ih
      simp [componentArgs, expr_relabel h, ih, BoundArg.relabel]
    | some type =>
      rw [Option.map_some] at ih
      simp [componentArgs, expr_relabel h, parameter_relabel h, ih, BoundArg.relabel]

theorem childContent_relabel (type : TypeId) (span : Span) :
    (c.relabel σ u).childContent (σ type) span =
      Option.map (·.relabel σ) <$> (c.childContent type span).relabel σ := by
  rw [childContent, childContent, table_relabel, found_relabel h, h.nameOf_eq]
  cases ((c.table.findMember? type "ChildContent").bind fun id =>
      (c.table.member? id).map fun m => (id, m)) with
  | none => rfl
  | some found =>
    by_cases haccepted : found.2.kind = .param ∧ found.2.type = "fragment" <;> simp [haccepted]

end

mutual

theorem renderOp_relabel (h : c.table.Relabels σ u) (op : RenderOp) :
    (c.relabel σ u).renderOp op = BoundOp.relabel σ <$> (c.renderOp op).relabel σ := by
  cases op with
  | openElement span tag => rfl
  | attr span name value =>
    simp [renderOp, expr_relabel h, attributeValue_relabel h, BoundOp.relabel]
  | closeElement span => rfl
  | text span text => rfl
  | value span value =>
    simp [renderOp, expr_relabel h, display_relabel h, BoundOp.relabel]
  | component span ref args childSpan child =>
    simp only [renderOp, componentType_relabel h, componentArgs_relabel h,
      renderOps_relabel h [] false child, bind_map_left, Checked.relabel_bind, map_bind]
    congr 1
    funext type
    congr 1
    funext args
    congr 1
    funext ops
    cases childSpan with
    | none => rfl
    | some childSpan =>
      cases type with
      | none => rfl
      | some type => simp [childContent_relabel h, BoundOp.relabel]

theorem renderOps_relabel (h : c.table.Relabels σ u) (opened : List (Span × Bytes))
    (attributes : Bool) (ops : List RenderOp) : (c.relabel σ u).renderOps opened attributes ops =
      BoundOp.relabelAll σ <$> (c.renderOps opened attributes ops).relabel σ := by
  cases ops with
  | nil => exact Checked.ext rfl (List.append_nil _).symm rfl rfl
  | cons op ops =>
    cases op <;> simp [renderOps, renderOp_relabel h, renderOps_relabel h, BoundOp.relabelAll]

end

/-! ### Types -/

section
variable (h : c.table.Relabels σ u)
include h

theorem inits_relabel (ms : List DataMember) (ss : List MemberSymbol) :
    (c.relabel σ u).inits ms ss =
      List.map (Option.map (·.relabel σ)) <$> (c.inits ms ss).relabel σ := by
  induction ms generalizing ss with
  | nil => rfl
  | cons m ms ih =>
    cases ss with
    | nil => rfl
    | cons s ss =>
      cases hinit : m.init with
      | none => simp [inits, hinit, ih]
      | some e => simp [inits, hinit, ih, expr_relabel h, h.ofName_eq, conversion_relabel h]

theorem methods_relabel (ms : List MethodDecl) (ss : List MethodSymbol) :
    (c.relabel σ u).methods ms ss =
      List.map (·.relabel σ) <$> (c.methods ms ss).relabel σ := by
  induction ms generalizing ss with
  | nil => rfl
  | cons m ms ih =>
    cases ss with
    | nil => rfl
    | cons s ss =>
      let inner : BodyScope := { c with params := s.paramNames.zip s.paramTypes }
      have hinner : inner.table.Relabels σ u := h
      have hbody := stmts_relabel hinner m.body
      rw [methods, methods, ih]
      change (inner.relabel σ u).stmts m.body >>= _ = _ <$> (inner.stmts m.body >>= _).relabel σ
      rw [hbody]
      simp [BoundMethod.relabel]

end

end BodyScope

namespace SymbolTable.Relabels

variable {d e : Declared}

/-- A body is bound over both tables alike. -/
theorem body_eq (h : Relabels σ t u) (hd : d.Relabels σ e) :
    u.body e = BoundType.relabel σ <$> (t.body d).relabel σ := by
  let c : BodyScope := { table := t, file := d.scope, current := d.id }
  have hc : c.table.Relabels σ u := h
  have hscope : ({ table := u, file := d.scope, current := σ d.id } : BodyScope) = c.relabel σ u :=
    rfl
  rw [body, body, hd.id_eq, hd.decl_eq, hd.scope_eq, h.get?_eq, hscope]
  cases d.decl.render with
  | none =>
    simp only [c, BodyScope.inits_relabel hc, BodyScope.methods_relabel hc, bind_map_left,
      Checked.relabel_bind, map_bind, pure_bind]
    rfl
  | some block =>
    simp only [c, BodyScope.inits_relabel hc, BodyScope.methods_relabel hc,
      BodyScope.renderOps_relabel hc, bind_map_left, Checked.relabel_bind, map_bind, pure_bind]
    rfl

end SymbolTable.Relabels

end ViewCompiler
