import ViewCompiler.GeneratedFile

/-!
Linking generated files to an assembly: their diagnostics and, if there is no error, an image.
-/

namespace ViewCompiler

structure Assembly where
  diagnostics : List Diagnostic
  image : Option Bytes := none
deriving DecidableEq, Repr, Inhabited

/-- Why there is no assembly at all. -/
inductive PipelineError where
  | notInitialized
  | rejected (path : Bytes)
  | emit (e : EmitError)
deriving DecidableEq, Repr, Inhabited

namespace PipelineError

/-- The kind of the failure, in words. -/
def kind : PipelineError → Bytes
  | notInitialized => "environment not initialized"
  | rejected _ => "backend failure"
  | emit _ => "emit failed"

def message : PipelineError → Bytes
  | notInitialized => "The base environment has not been initialized"
  | rejected path => CompilationUnit.rejection path
  | emit e => e.message

end PipelineError

namespace Environment

/-- Links generated files. Errors reported with them are final; otherwise the problems of the linked
unit come before what was reported with them. -/
def link (env : Environment) (g : Generator) (files : List GeneratedFile) :
    Logged (Except PipelineError Assembly) := do
  let generated := files.flatMap (·.diagnostics)
  if Diagnostic.hasErrors generated then
    Logged.log .debug "link" "Skipping link: translation reported errors"
    return .ok { diagnostics := generated }
  match ← (env.unitOf files).run with
  | .error path =>
    Logged.log .error "link" (CompilationUnit.rejection path)
    return .error (.rejected path)
  | .ok unit =>
    let problems := unit.diagnostics.filter (·.isProblem)
    let diagnostics := problems ++ generated
    if Diagnostic.hasErrors problems then
      Logged.log .debug "link" ("Link reported " ++ Bytes.ofNat diagnostics.length
        ++ " diagnostic(s); no image emitted")
      return .ok { diagnostics }
    match ← unit.emit g with
    | .error e => return .error (.emit e)
    | .ok image =>
      Logged.log .info "link" ("Emitted " ++ Bytes.ofNat image.length ++ " byte image from "
        ++ Bytes.ofNat files.length ++ " file(s)")
      return .ok { diagnostics, image := some image }

end Environment

end ViewCompiler
