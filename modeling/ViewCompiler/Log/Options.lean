import ViewCompiler.Log.Logger

/-!
Logging options on the command line and in the environment.
-/

namespace ViewCompiler.Log

/-- `-v`, `-vv` and so on. -/
def isVerbosity (arg : Bytes) : Bool :=
  match arg with
  | b :: c :: cs => b = Ascii.minus && (c :: cs).all (· = 118)
  | _ => false

/-- Whether an argument is about logging. -/
def isOption (arg : Bytes) : Bool :=
  arg.startsWith "--log-level=" || arg.startsWith "--log-filter=" || arg.startsWith "--log-file="
    || arg.startsWith "--log-format=" || arg = "-q" || arg = "--quiet" || arg = "--verbose"
    || isVerbosity arg

/-- What the arguments read so far ask for. -/
structure Options where
  config : Config := {}
  hasLevel : Bool := false
  hasFilter : Bool := false
  verbosity : Nat := 0
deriving DecidableEq, Repr, Inhabited

namespace Options

/-- Takes one argument into account. -/
def apply (o : Options) (arg : Bytes) : Options :=
  if arg.startsWith "--log-level=" then
    { o with config := { o.config with level := .parse (arg.drop 12) }, hasLevel := true }
  else if arg.startsWith "--log-filter=" then
    { o with config := { o.config with filter := arg.drop 13 }, hasFilter := true }
  else if arg.startsWith "--log-file=" then
    { o with config := { o.config with file := arg.drop 11 } }
  else if arg.startsWith "--log-format=" then
    let name : Bytes := arg.drop 13
    { o with config := { o.config with
        format := if name = "json" ∨ name = "JSON" then .json else .text } }
  else if arg = "-q" ∨ arg = "--quiet" then
    { o with config := { o.config with level := .error }, hasLevel := true }
  else if arg = "--verbose" then { o with verbosity := max o.verbosity 1 }
  else if isVerbosity arg then { o with verbosity := max o.verbosity (arg.length - 1) }
  else o

/-- The level of a verbosity: one step shows information, two debugging, more everything. -/
def verbosityLevel (n : Nat) : Level :=
  if 3 ≤ n then .trace else if n = 2 then .debug else .info

/-- The configuration that the arguments ask for. Verbosity counts only without a level, and the
environment variable only without level, verbosity and filter; it holds a filter if it has an
equality sign or a comma, else a level. -/
def finish (o : Options) (env : Option Bytes) : Config :=
  if o.hasLevel then o.config
  else if 0 < o.verbosity then { o.config with level := verbosityLevel o.verbosity }
  else if o.hasFilter then o.config
  else match env with
    | none | some [] => o.config
    | some value =>
      if value.contains Ascii.equal ∨ value.contains Ascii.comma then
        { o.config with filter := value }
      else { o.config with level := .parse value }

end Options

namespace Config

/-- The configuration of arguments and environment variable. -/
def ofArguments (args : List Bytes) (env : Option Bytes) : Config :=
  (args.foldl Options.apply {}).finish env

end Config

end ViewCompiler.Log
