import ViewCompiler.Bytes

/-!
Diagnostics: what every stage of the compiler reports. A diagnostic has a code, a message, a
severity and, when it is about a place in a file, a location. `applyOverrides` lets a project drop
diagnostics or change their severity by code.
-/

namespace ViewCompiler

/-- A place in a source text: line and byte column, both counted from 1 in 32-bit words. -/
structure Span where
  line : UInt32 := 1
  column : UInt32 := 1
deriving DecidableEq, Repr, Inhabited

inductive Severity where
  | info | warning | error
deriving DecidableEq, Repr, Inhabited

namespace Severity

def text : Severity → Bytes
  | info => "info"
  | warning => "warning"
  | error => "error"

end Severity

structure Location where
  file : Bytes
  span : Span
deriving DecidableEq, Repr, Inhabited

structure Diagnostic where
  code : Bytes
  message : Bytes
  severity : Severity := .error
  location : Option Location := none
deriving DecidableEq, Repr, Inhabited

namespace Diagnostic

/-- A report about a place in a file. -/
def located (file : Bytes) (span : Span) (severity : Severity) (code message : Bytes) : Diagnostic :=
  { code, message, severity, location := some { file, span } }

def isError (d : Diagnostic) : Bool := d.severity == .error

def hasErrors (ds : List Diagnostic) : Bool := ds.any isError

/-- `file(line,column): severity code: message`; the place is left out when there is none. -/
def format (d : Diagnostic) : Bytes :=
  let place : Bytes := match d.location with
    | some l =>
      l.file ++ "(" ++ Bytes.ofNat l.span.line.toNat ++ "," ++ Bytes.ofNat l.span.column.toNat
        ++ "): "
    | none => []
  place ++ d.severity.text ++ " " ++ d.code ++ ": " ++ d.message

end Diagnostic

/-! ## Overrides -/

/-- What to do with the diagnostics of a code. -/
inductive ReportAction where
  | keep | suppress | warning | error
deriving DecidableEq, Repr, Inhabited

namespace ReportAction

/-- The diagnostic as it is reported under the action, if it is reported at all. -/
def apply (a : ReportAction) (d : Diagnostic) : Option Diagnostic :=
  match a with
  | keep => some d
  | suppress => none
  | warning => some { d with severity := .warning }
  | error => some { d with severity := .error }

end ReportAction

/-- Actions by diagnostic code; the first entry of a code counts. -/
abbrev Overrides := List (Bytes × ReportAction)

namespace Diagnostic

def override (overrides : Overrides) (d : Diagnostic) : Option Diagnostic :=
  ((overrides.lookup d.code).getD .keep).apply d

/-- The diagnostics as the overrides want them reported, in the same order. -/
def applyOverrides (ds : List Diagnostic) (overrides : Overrides) : List Diagnostic :=
  ds.filterMap (override overrides)

end Diagnostic

end ViewCompiler
