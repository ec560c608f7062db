import ViewCompiler.Proofs.NotedFindings

/-!
Where circular bases are reported. The binding of bodies reports binding errors only, so it never
reports one (`SymbolTable.circular_body`), and a header reports one exactly if the base that it names is
the declared type itself (`SymbolTable.circular_header`). All others are reported when cycles are broken.
-/

namespace ViewCompiler

/-- The error is a base that leads back to its own type. -/
def SemanticError.isCircular : SemanticError → Bool
  | .ownBase _ | .circularBase _ _ => true
  | _ => false

/-- A report of a circular base. -/
def Diagnostic.isCircular (d : Diagnostic) : Bool := d.code == "IL2017"

@[simp] theorem SemanticError.isCircular_diagnostic (file : Bytes) (span : Span) (e : SemanticError) :
    (e.diagnostic file span).isCircular = e.isCircular := by
  cases e <;> simp only [diagnostic, Diagnostic.isCircular, Diagnostic.located, code, isCircular] <;>
    decide

namespace Checked

variable {α : Type}

/-- The number of circular bases that are reported. -/
def circular (c : Checked α) : Nat := c.findings.reports.countP (·.2.isCircular)

/-- Circular bases are not binding errors. -/
theorem circular_eq (c : Checked α) : c.circular = c.notes.reports.countP (·.2.isCircular) := by
  have hboth (e : SemanticError) : (e.isCircular && !e.isBinding) = e.isCircular := by
    cases e <;> rfl
  simp only [circular, notes, Findings.notes, List.countP_filter, hboth]

theorem countP_diagnostics (c : Checked α) (file : Bytes) :
    (c.findings.diagnostics file).countP (·.isCircular) = c.circular := by
  rw [Findings.diagnostics, List.countP_map, circular]
  congr 1
  funext r
  exact SemanticError.isCircular_diagnostic file r.1 r.2

end Checked

open Checked SemanticError

/-! ## Headers -/

/-- The base that the declaration names is the declared type itself. -/
def Declared.namesItself (d : Declared) (t : SymbolTable) : Bool :=
  d.decl.base.any fun ref => !isBuiltinType ref.name &&
    (t.resolve ref.name d.scope.ns d.scope.usings).type == some d.id

theorem SymbolTable.circular_header {t : SymbolTable} (d : Declared) (type : TypeSymbol) :
    (t.header d type).circular = if d.namesItself t then 1 else 0 := by
  rw [circular_eq, notes_header, Declared.namesItself]
  cases d.decl.base with
  | none => rfl
  | some ref =>
    rw [Option.any_some, Option.toList_some, List.flatMap_singleton, selfBase]
    split <;> rfl

/-! ## Bodies -/

namespace BodyScope

variable {c : BodyScope}

theorem reports_receiver (span : Span) (name method : Bytes) :
    (c.receiver span name method).notes.reports = [] := by
  rw [receiver]
  split
  · simp [isBinding]
  · simp [isBinding]
  · simp only [notes_bind, notes_read]
    split <;> simp [isBinding]

theorem reports_callOn (span : Span) (target : TypeId) (receiver : Option Binding) (method : Bytes)
    (args : List BoundExpr) : (c.callOn span target receiver method args).notes.reports = [] := by
  rw [callOn]
  split
  · split
    · split <;> simp [isBinding]
    · simp [isBinding]
  · dsimp only
    split <;> simp [isBinding]

theorem reports_call (span : Span) (on : Option Bytes) (method : Bytes) (args : List BoundExpr) :
    (c.call span on method args).notes.reports = [] := by
  cases on with
  | none => exact reports_callOn span c.current none method args
  | some name =>
    simp only [call, notes_bind, Findings.reports_append, reports_receiver, List.nil_append]
    split
    · rfl
    · exact reports_callOn ..

mutual

theorem reports_stmt (s : Stmt) : (c.stmt s).notes.reports = [] := by
  cases s with
  | assign | ret => simp [stmt]
  | call => simp [stmt, reports_call]
  | cond span condition thenBody elseBody =>
    simp only [stmt, notes_bind, notes_ite, notes_expr, Findings.reports_append]
    split <;> simp [reports_stmts thenBody, reports_stmts elseBody, isBinding]

/-- Statements report binding errors only. -/
theorem reports_stmts (ss : List Stmt) : (c.stmts ss).notes.reports = [] := by
  cases ss with
  | nil => rfl
  | cons s ss => simp [stmts, reports_stmt s, reports_stmts ss]

end

theorem reports_methods (ms : List MethodDecl) (ss : List MethodSymbol) :
    (c.methods ms ss).notes.reports = [] := by
  induction ms generalizing ss with
  | nil => rfl
  | cons m ms ih =>
    cases ss with
    | nil => rfl
    | cons s ss => simp [methods, reports_stmts, ih]

end BodyScope

theorem SymbolTable.circular_body (t : SymbolTable) (d : Declared) : (t.body d).circular = 0 := by
  rw [circular_eq, body]
  cases d.decl.render <;>
    simp [BodyScope.reports_methods, BodyScope.notes_renderOps]

end ViewCompiler
