import ViewCompiler.Proofs.MarkupReading
import ViewCompiler.Proofs.ObjectLayout

/-!
What analysis notes besides binding errors. Headers and the binding of bodies report these errors and,
in headers, bases that are the declared type itself; what else they leave is the usings through which
type names were found and the members that are read. Both are told by the trees: the usings are those
that the written types need (`SymbolTable.notes_header`), and the members are those that the bound
names, receivers and callbacks mean (`SymbolTable.notes_body`).

Only a call has to be bound without an error for that: a receiver counts as read before it is known
whether its type has the method.
-/

namespace ViewCompiler

/-! ## Members that are read -/

namespace BoundStmt

mutual

/-- The data members that a statement reads: by a name in an expression, as the receiver of a call or
as the callback that is called. An assignment does not read what it stores to. -/
def reads : BoundStmt → List MemberId
  | assign _ _ _ value => value.members
  | call _ binding args =>
    args.flatMap BoundExpr.members ++ binding.toList.flatMap CallBinding.members
  | cond _ condition thenBody elseBody =>
    condition.members ++ (allReads thenBody ++ allReads elseBody)
  | ret _ => []

def allReads : List BoundStmt → List MemberId
  | [] => []
  | s :: ss => reads s ++ allReads ss

end

end BoundStmt

/-- The data members that the bodies of a type read. -/
def BoundType.reads (t : BoundType) : List MemberId :=
  t.inits.flatMap (fun init => init.toList.flatMap BoundExpr.members) ++
    ((t.methods.flatMap fun m => BoundStmt.allReads m.body) ++
      t.render.toList.flatMap BoundOp.allMembers)

/-- The data members that are read anywhere in the unit. -/
def Model.reads (m : Model) : List MemberId := m.types.flatMap BoundType.reads

/-! ## Types that are written -/

/-- The types that the header of a declaration writes: its base, and those of members and parameters. -/
def TypeDecl.headerRefs (d : TypeDecl) : List TypeRef :=
  d.base.toList ++ (d.members.map (·.type) ++ d.methods.flatMap fun m => m.params.map (·.type))

/-- The types that a declaration writes, those of the components that it renders last. -/
def TypeDecl.typeRefs (d : TypeDecl) : List TypeRef :=
  d.headerRefs ++ d.render.toList.flatMap fun block => RenderOp.allComponents block.ops

/-- The types that a file writes. -/
def SyntaxTree.typeRefs (tree : SyntaxTree) : List TypeRef := tree.types.flatMap TypeDecl.typeRefs

/-! ## Findings besides binding errors -/

/-- An error about what names, types and shapes mean. Bases that lead back to their own type are told
apart, and what is unused is no error. -/
def SemanticError.isBinding : SemanticError → Bool
  | .ownBase _ | .circularBase _ _ | .neverRead _ _ | .unnecessaryUsing _ => false
  | _ => true

theorem SemanticError.severity_of_isBinding {e : SemanticError} (h : e.isBinding = true) :
    e.severity = .error := by
  cases e <;> first | rfl | cases h

namespace Findings

@[simp] theorem mk_append_mk (r r' : List (Span × SemanticError)) (u u' : List Bytes)
    (m m' : List MemberId) :
    (⟨r, u, m⟩ ++ ⟨r', u', m'⟩ : Findings) = ⟨r ++ r', u ++ u', m ++ m'⟩ := rfl

@[simp] theorem nil_append (f : Findings) : {} ++ f = f := rfl

@[simp] theorem reports_append (f g : Findings) : (f ++ g).reports = f.reports ++ g.reports := rfl

/-- The findings without the binding errors among the reports. -/
def notes (f : Findings) : Findings :=
  { f with reports := f.reports.filter fun r => !r.2.isBinding }

theorem notes_append (f g : Findings) : (f ++ g).notes = f.notes ++ g.notes :=
  congrArg (fun rs => (⟨rs, f.usings ++ g.usings, f.reads ++ g.reads⟩ : Findings))
    (List.filter_append f.reports g.reports)

theorem Clean.notes_eq {f : Findings} (h : f.Clean) : f.notes = f := by
  have hbinding : ∀ r ∈ f.reports, (!r.2.isBinding) = true := by
    intro r hr
    simpa using fun hbinding => h r hr (SemanticError.severity_of_isBinding hbinding)
  rw [notes, List.filter_eq_self.2 hbinding]

end Findings

namespace Checked

variable {α β : Type}

/-- What is found besides binding errors. -/
def notes (c : Checked α) : Findings := c.findings.notes

@[simp] theorem notes_pure (a : α) : (pure a : Checked α).notes = {} := rfl

@[simp] theorem notes_bind (c : Checked α) (f : α → Checked β) :
    (c >>= f).notes = c.notes ++ (f c.value).notes :=
  Findings.notes_append c.findings (f c.value).findings

@[simp] theorem notes_report (span : Span) (e : SemanticError) : (report span e).notes =
    { reports := if e.isBinding then [] else [(span, e)] } := by
  cases he : e.isBinding <;> simp [notes, report, Findings.notes, he]

@[simp] theorem notes_needs (ns : Bytes) : (needs ns).notes = { usings := [ns] } := rfl

@[simp] theorem notes_reads (id : MemberId) : (reads id).notes = { reads := [id] } := rfl

@[simp] theorem notes_ite {p : Prop} [Decidable p] (c d : Checked α) :
    (if p then c else d).notes = if p then c.notes else d.notes := by
  split <;> rfl

@[simp] theorem value_ite {p : Prop} [Decidable p] (c d : Checked α) :
    (if p then c else d).value = if p then c.value else d.value := by
  split <;> rfl

end Checked

open Checked SemanticError

/-! ## Headers -/

namespace SymbolTable

/-- The using through which a type name is found, if it is found through one. -/
def usingOf (t : SymbolTable) (scope : FileScope) (name : Bytes) : List Bytes :=
  let lookup := t.resolve name scope.ns scope.usings
  if lookup.type.isSome ∧ lookup.viaUsing ≠ [] then [lookup.viaUsing] else []

/-- The using that a written type needs, if it needs one. -/
def neededBy (t : SymbolTable) (scope : FileScope) (ref : TypeRef) : List Bytes :=
  if isBuiltinType ref.name then [] else t.usingOf scope ref.name

variable {t : SymbolTable} {scope : FileScope}

@[simp] theorem notes_resolveType (name : Bytes) (span : Span) :
    (t.resolveType scope name span).notes = { usings := t.usingOf scope name } := by
  rw [resolveType, usingOf]
  cases htype : (t.resolve name scope.ns scope.usings).type with
  | none =>
    dsimp only
    split <;> simp [isBinding]
  | some id =>
    simp only [candidates_of_resolve htype]
    split <;> simp [*]

@[simp] theorem notes_resolveRef (ref : TypeRef) :
    (t.resolveRef scope ref).notes = { usings := t.neededBy scope ref } := by
  rw [resolveRef, neededBy]
  split <;> simp

@[simp] theorem notes_headerMembers (type : Bytes) (seen : List Bytes) (ms : List DataMember) :
    (t.headerMembers scope type seen ms).notes =
      { usings := (ms.map (·.type)).flatMap (t.neededBy scope) } := by
  induction ms generalizing seen with
  | nil => rfl
  | cons m ms ih => simp [headerMembers, ih, isBinding]

@[simp] theorem notes_headerParams (seen : List Bytes) (ps : List Parameter) :
    (t.headerParams scope seen ps).notes =
      { usings := (ps.map (·.type)).flatMap (t.neededBy scope) } := by
  induction ps generalizing seen with
  | nil => rfl
  | cons p ps ih => simp [headerParams, ih, isBinding]

@[simp] theorem notes_headerMethods (type : Bytes) (seen : List Bytes) (ms : List MethodDecl) :
    (t.headerMethods scope type seen ms).notes =
      { usings := (ms.flatMap (fun m => m.params.map (·.type))).flatMap (t.neededBy scope) } := by
  induction ms generalizing seen with
  | nil => rfl
  | cons m ms ih => simp [headerMethods, ih, isBinding]

/-- The report of a base that is the declared type itself. -/
def selfBase (t : SymbolTable) (d : Declared) (type : TypeSymbol) (ref : TypeRef) :
    List (Span × SemanticError) :=
  if !isBuiltinType ref.name && (t.resolve ref.name d.scope.ns d.scope.usings).type == some d.id then
    [(ref.span, .ownBase type.fullName)]
  else []

theorem notes_headerBase (d : Declared) (type : TypeSymbol) (ref : TypeRef) :
    (t.headerBase d type ref).notes =
      { reports := t.selfBase d type ref, usings := t.neededBy d.scope ref } := by
  rw [headerBase, neededBy, selfBase]
  cases isBuiltinType ref.name with
  | true => simp [isBinding]
  | false =>
    simp only [Bool.false_eq_true, if_false, notes_bind, notes_resolveType, value_resolveType]
    cases (t.resolve ref.name d.scope.ns d.scope.usings).type with
    | none => simp
    | some base => by_cases hbase : base = d.id <;> simp [hbase, isBinding]

/-- Besides binding errors a header finds the usings that its types need, and whether the type is its
own base. -/
theorem notes_header (d : Declared) (type : TypeSymbol) : (t.header d type).notes =
    { reports := d.decl.base.toList.flatMap (t.selfBase d type)
      usings := d.decl.headerRefs.flatMap (t.neededBy d.scope) } := by
  rw [header, TypeDecl.headerRefs]
  cases d.decl.base <;> cases d.decl.render <;> simp [notes_headerBase, isBinding]

/-- A header without an error finds the usings that its types need. -/
theorem findings_header {d : Declared} {type : TypeSymbol} (h : (t.header d type).Clean) :
    (t.header d type).findings = { usings := d.decl.headerRefs.flatMap (t.neededBy d.scope) } := by
  have hfindings := h.notes_eq.symm.trans (notes_header d type)
  have hown : d.decl.base.toList.flatMap (t.selfBase d type) = [] := by
    refine List.flatMap_eq_nil_iff.2 fun ref href => ?_
    rw [selfBase]
    split
    · next hself =>
      have hmem : (ref.span, SemanticError.ownBase type.fullName) ∈ (t.header d type).findings.reports := by
        rw [hfindings]
        exact List.mem_flatMap.2 ⟨ref, href, by rw [selfBase, if_pos hself]; simp⟩
      exact absurd rfl (h _ hmem)
    · rfl
  rw [hfindings, hown]

end SymbolTable

/-! ## Bodies -/

namespace BodyScope

variable {c : BodyScope}

@[simp] theorem notes_read (b : Binding) : (read b).notes = { reads := b.members } := by
  cases b <;> rfl

@[simp] theorem notes_expr (inInit : Bool) (e : Expr) : (c.expr inInit e).notes =
    { reads := (c.expr inInit e).value.members } := by
  induction e with
  | int | string | bool => rfl
  | name span name =>
    rw [expr]
    split
    · simp [isBinding, BoundExpr.members]
    · split <;> simp [isBinding, BoundExpr.members]
  | unary span op operand ih =>
    simp only [expr, notes_bind, value_bind, ih]
    split
    · simp [BoundExpr.members]
    · split <;> simp [isBinding, BoundExpr.members]
  | binary span op left right ihl ihr =>
    simp only [expr, notes_bind, value_bind, ihl, ihr]
    split
    · simp [BoundExpr.members]
    · split <;> simp [isBinding, BoundExpr.members]

@[simp] theorem notes_conversion (target : Ty) (value : BoundExpr) :
    (c.conversion target value).notes = {} := by
  unfold conversion
  split
  · rfl
  split <;> simp [isBinding]

@[simp] theorem notes_exprs (es : List Expr) : (c.exprs es).notes =
    { reads := (c.exprs es).value.flatMap BoundExpr.members } := by
  induction es with
  | nil => rfl
  | cons e es ih => simp [exprs, ih]

@[simp] theorem notes_conversions (types : List Bytes) (values : List BoundExpr) :
    (c.conversions types values).notes = {} := by
  induction types generalizing values with
  | nil => rfl
  | cons type types ih =>
    cases values with
    | nil => rfl
    | cons value values => simp [conversions, ih]

@[simp] theorem notes_assignment (span : Span) (target : Bytes) (value : BoundExpr) :
    (c.assignment span target value).notes = {} := by
  rw [assignment]
  split <;> simp [isBinding]

/-! ### Calls -/

/-- A receiver without an error is read. -/
theorem notes_receiver (hc : c.Closed) {span : Span} {name method : Bytes}
    (h : (c.receiver span name method).Clean) : ∃ b type,
      (c.receiver span name method).value = some (b, type) ∧
        (c.receiver span name method).notes = { reads := b.members } := by
  obtain ⟨b, type, hvalue, -⟩ := receiver_eq_of_clean hc h
  refine ⟨b, type, hvalue, ?_⟩
  unfold receiver at hvalue ⊢
  split at hvalue
  · cases hvalue
  · cases hvalue
  · simp only [value_bind] at hvalue
    split at hvalue <;> cases hvalue
    simp

/-- What a call without an error reads besides its receiver and its arguments. -/
theorem notes_callOn {span : Span} {target : TypeId} {receiver : Option Binding} {method : Bytes}
    {args : List BoundExpr} (h : (c.callOn span target receiver method args).Clean) :
    ∃ b, (c.callOn span target receiver method args).value = some b ∧
      ({ reads := receiver.toList.flatMap Binding.members } : Findings) ++
        (c.callOn span target receiver method args).notes = { reads := b.members } := by
  unfold callOn at h ⊢
  split at h
  · split at h
    · next b hb =>
      have hreceiver : receiver = none := by
        cases receiver with
        | none => rfl
        | some r => cases hb
      rw [clean_ite] at h
      split
      · next hargs => simpa [severity] using h.1 hargs
      · exact ⟨.callback b, rfl, by simp [hreceiver, CallBinding.members]⟩
    · simp [severity] at h
  · next id _ =>
    dsimp only at h ⊢
    rw [clean_ite] at h
    split
    · next hlen => simpa [severity] using h.1 hlen
    · exact ⟨.method id receiver, rfl, by simp [CallBinding.members]⟩

theorem notes_call (hc : c.Closed) {span : Span} {on : Option Bytes} {method : Bytes}
    {args : List BoundExpr} (h : (c.call span on method args).Clean) :
    (c.call span on method args).notes =
      { reads := (c.call span on method args).value.toList.flatMap CallBinding.members } := by
  cases on with
  | none =>
    obtain ⟨b, hvalue, hnotes⟩ := notes_callOn h
    simpa [call, hvalue] using hnotes
  | some name =>
    simp only [call, clean_bind, notes_bind, value_bind] at h ⊢
    obtain ⟨b, type, hreceiver, hread⟩ := notes_receiver hc h.1
    rw [hreceiver] at h ⊢
    obtain ⟨binding, hvalue, hnotes⟩ := notes_callOn h.2
    simpa [hread, hvalue] using hnotes

/-! ### Statements -/

mutual

theorem notes_stmt (hc : c.Closed) : (s : Stmt) → (c.stmt s).Clean →
    (c.stmt s).notes = { reads := (c.stmt s).value.reads }
  | .assign span target value, _ => by simp [stmt, BoundStmt.reads]
  | .call span on method args, h => by
    simp only [stmt, clean_bind] at h
    simp [stmt, BoundStmt.reads, notes_call hc h.2.1]
  | .cond span condition thenBody elseBody, h => by
    simp only [stmt, clean_bind, clean_ite, clean_report] at h
    by_cases hbool : (c.expr false condition).value.type ≠ .error ∧
        (c.expr false condition).value.type ≠ .bool
    · exact absurd rfl (h.2.1 hbool).1
    · obtain ⟨hthen, helse, -⟩ := h.2.2 hbool
      simp [stmt, if_neg hbool, BoundStmt.reads, notes_stmts hc thenBody hthen,
        notes_stmts hc elseBody helse]
  | .ret span, _ => rfl

/-- Besides errors, statements whose calls are bound find what they read. -/
theorem notes_stmts (hc : c.Closed) : (ss : List Stmt) → (c.stmts ss).Clean →
    (c.stmts ss).notes = { reads := BoundStmt.allReads (c.stmts ss).value }
  | [], _ => rfl
  | s :: ss, h => by
    simp only [stmts, clean_bind] at h
    simp [stmts, BoundStmt.allReads, notes_stmt hc s h.1, notes_stmts hc ss h.2.1]

end

/-! ### Render operations -/

@[simp] theorem notes_attributeValue (value : BoundExpr) : (c.attributeValue value).notes = {} := by
  rw [attributeValue]
  split <;> simp [isBinding]

@[simp] theorem notes_componentType (ref : TypeRef) : (c.componentType ref).notes =
    { usings := c.table.neededBy c.file ref } := by
  rw [componentType, SymbolTable.neededBy]
  split
  · simp [isBinding]
  · simp only [notes_bind, SymbolTable.notes_resolveType]
    split <;> simp [isBinding]

@[simp] theorem notes_parameter (type : TypeId) (seen : List Bytes) (arg : ComponentArg)
    (value : BoundExpr) : (c.parameter type seen arg value).notes = {} := by
  unfold parameter
  dsimp only
  split <;> split <;> simp [isBinding]

@[simp] theorem notes_componentArgs (type : Option TypeId) (seen : List Bytes)
    (args : List ComponentArg) : (c.componentArgs type seen args).notes =
      { reads := (c.componentArgs type seen args).value.flatMap (·.value.members) } := by
  induction args generalizing seen with
  | nil => rfl
  | cons arg args ih => cases type <;> simp [componentArgs, ih]

@[simp] theorem notes_childContent (type : TypeId) (span : Span) :
    (c.childContent type span).notes = {} := by
  rw [childContent]
  dsimp only
  split <;> simp [isBinding]

mutual

theorem notes_renderOp (op : RenderOp) : (c.renderOp op).notes =
    { usings := op.components.flatMap (c.table.neededBy c.file)
      reads := (c.renderOp op).value.members } := by
  cases op with
  | openElement | closeElement | text =>
    simp [renderOp, RenderOp.components, BoundOp.members]
  | attr => simp [renderOp, RenderOp.components, BoundOp.members]
  | value => simp [renderOp, RenderOp.components, BoundOp.members, isBinding]
  | component span ref args childSpan child =>
    simp only [renderOp, notes_bind, value_bind, notes_componentType, notes_componentArgs,
      notes_renderOps [] false child]
    split <;> simp [RenderOp.components, BoundOp.members]

/-- Besides errors, render operations find the usings that their components need and what they read. -/
theorem notes_renderOps (opened : List (Span × Bytes)) (attributes : Bool) (ops : List RenderOp) :
    (c.renderOps opened attributes ops).notes =
      { usings := (RenderOp.allComponents ops).flatMap (c.table.neededBy c.file)
        reads := BoundOp.allMembers (c.renderOps opened attributes ops).value } := by
  cases ops with
  | nil =>
    have hreports : (opened.reverse.map fun p => (p.1, SemanticError.unclosedElement p.2)).filter
        (fun r => !r.2.isBinding) = [] := by
      simp [List.filter_map, Function.comp_def, isBinding]
    rw [renderOps, notes, Findings.notes, hreports]
    rfl
  | cons op ops =>
    cases op <;>
      simp [renderOps, notes_renderOp, notes_renderOps, RenderOp.allComponents, BoundOp.allMembers,
        isBinding]

end

/-! ### Types -/

@[simp] theorem notes_inits (ms : List DataMember) (ss : List MemberSymbol) :
    (c.inits ms ss).notes =
      { reads := (c.inits ms ss).value.flatMap (fun init => init.toList.flatMap BoundExpr.members) } := by
  induction ms generalizing ss with
  | nil => rfl
  | cons m ms ih =>
    cases ss with
    | nil => rfl
    | cons s ss => cases hinit : m.init <;> simp [inits, hinit, ih]

theorem notes_methods (hc : c.Closed) {ms : List MethodDecl} {ss : List MethodSymbol}
    (hss : ∀ s ∈ ss, ∀ p ∈ s.paramTypes, c.table.Known p) (h : (c.methods ms ss).Clean) :
    (c.methods ms ss).notes =
      { reads := (c.methods ms ss).value.flatMap (fun m => BoundStmt.allReads m.body) } := by
  induction ms generalizing ss with
  | nil => rfl
  | cons m ms ih =>
    cases ss with
    | nil => rfl
    | cons s ss =>
      rw [BodyScope.methods] at h
      simp only [clean_bind, List.forall_mem_cons] at h hss
      have hbody : BodyScope.Closed { c with params := s.paramNames.zip s.paramTypes } :=
        ⟨hc.table, fun p hp => hss.1 _ (List.of_mem_zip hp).2⟩
      simp [methods, notes_stmts hbody m.body h.1, ih hss.2 h.2.1]

end BodyScope

/-- Besides errors, the bodies of a type whose calls are bound find the usings that the components
which it renders need, and what they read. -/
theorem SymbolTable.notes_body {t : SymbolTable} {d : Declared} {symbol : TypeSymbol} (ht : t.Closed) (hs : t.get? d.id = some symbol) (h : (t.body d).Clean) :
    (t.body d).notes =
      { usings := (d.decl.render.toList.flatMap (fun block =>
          RenderOp.allComponents block.ops)).flatMap (t.neededBy d.scope)
        reads := (t.body d).value.reads } := by
  have hc : BodyScope.Closed { table := t, file := d.scope, current := d.id } := ⟨ht, by simp⟩
  have hparams := ht.param symbol (List.mem_of_getElem? hs)
  cases hrender : d.decl.render with
  | none =>
    simp only [body, hs, hrender, Option.getD_some, clean_bind] at h
    have hmethods := BodyScope.notes_methods hc hparams h.2.1
    simp [body, hs, hrender, hmethods, BoundType.reads]
  | some block =>
    simp only [body, hs, hrender, Option.getD_some, clean_bind] at h
    have hmethods := BodyScope.notes_methods hc hparams h.2.1
    simp [body, hs, hrender, hmethods, BodyScope.notes_renderOps, BoundType.reads]

end ViewCompiler
