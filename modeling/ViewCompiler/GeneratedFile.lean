import ViewCompiler.Environment
import ViewCompiler.Template.Write

/-!
The source files that are generated for a project. Each template becomes a component declaration:
first without its markup, so that every component is known, then with it.
-/

namespace ViewCompiler

/-! ## Status -/

/-- What a sink does with a step: it may write to the log, and fail in the end, with a reason or
without. -/
structure SinkReply where
  records : List Log.Record := []
  failure : Option (Option Bytes) := none
deriving DecidableEq, Repr, Inhabited

/-- Who is told about the steps of a compilation, if there is anybody, and what it does with each. -/
structure StatusSink where
  take? : Option (Bytes → SinkReply) := none
deriving Inhabited

namespace StatusSink

/-- Nobody is told. -/
def none : StatusSink := {}

/-- One who listens. -/
def listener : StatusSink where
  take? := some fun _ => {}

/-- One who always fails. -/
def failing (reason : Option Bytes) : StatusSink where
  take? := some fun _ => { failure := some reason }

/-- One who logs. -/
def logger : StatusSink where
  take? := some fun label => { records := [{ level := .info, tag := "driver", message := label }] }

/-- Announces a step. If the sink fails that is noted in the log and does not disturb the
compilation. -/
def notify (sink : StatusSink) (label : Bytes) : Logged Unit :=
  match sink.take? with
  | Option.none => pure ()
  | some take => do
    let reply := take label
    Logged.announce label
    { value := (), records := reply.records }
    match reply.failure with
    | Option.none => pure ()
    | some reason => Logged.log .warn "project" (match reason with
      | some reason =>
        "Status sink threw while reporting " ++ label.quoted ++ ": " ++ reason
      | Option.none =>
        "Status sink threw a non-standard exception while reporting " ++ label.quoted)

end StatusSink

def preparingProject : Bytes := "Preparing Project"

def compilingAssembly : Bytes := "Compiling Assembly"

/-! ## Generated files -/

/-- A file as source text of the component language. What a template generates keeps its item. -/
structure GeneratedFile where
  path : Bytes := []
  code : Bytes := []
  diagnostics : List Diagnostic := []
  item : Option Item := none
deriving DecidableEq, Repr, Inhabited

namespace GeneratedFile

/-- Stands for a project for which nothing could be generated. -/
def failed (diagnostics : List Diagnostic) : GeneratedFile := { diagnostics }

end GeneratedFile

namespace Diagnostic

/-- Whether a diagnostic is more than information. -/
def isProblem (d : Diagnostic) : Bool := d.severity ≠ .info

def duplicatePath (path : Bytes) : Diagnostic :=
  .located path {} .error "PRJ0001" ("The file path " ++ path.quoted ++ " is used by more than one file")

/-- A file that cannot be compiled. -/
def backendFailure (path : Bytes) : Diagnostic :=
  { code := "PRJ0002", message := CompilationUnit.rejection path }

end Diagnostic

namespace SourceFile

/-- The paths that occur more than once, each at its second occurrence. -/
def repeatedPaths (seen repeated : List Bytes) : List SourceFile → List Bytes
  | [] => []
  | f :: fs =>
    if f.path ∈ seen then
      if f.path ∈ repeated then repeatedPaths seen repeated fs
      else f.path :: repeatedPaths seen (f.path :: repeated) fs
    else repeatedPaths (f.path :: seen) repeated fs

end SourceFile

namespace ProjectOptions

def templateOptions (o : ProjectOptions) : TemplateOptions where
  rootNamespace := o.rootNamespace
  imports := o.imports

end ProjectOptions

namespace Environment

/-- Declares the component of a file. The first file of a project starts with the boilerplate. -/
def declare (env : Environment) (file : SourceFile) (index : Nat) : Logged GeneratedFile :=
  match file.kind with
  | .source => pure { path := file.path, code := file.content }
  | .template => do
    let item := Item.ofFile file (if index = 0 then env.options.boilerplate else [])
      env.options.workingDirectory
    let doc ← item.generate env.options.templateOptions none
    pure { path := file.path, code := doc.code, diagnostics := doc.diagnostics, item := some item }

/-- The unit of some files. Fails with the path of a file that cannot be compiled. -/
def unitOf (env : Environment) (files : List GeneratedFile) :
    ExceptT Bytes Logged CompilationUnit := do
  let units ← files.mapM fun f => env.frontEnd.parse f.code f.path
  env.base.add units

/-- The components that the declarations declare. -/
def linkDeclarations (env : Environment) (declared : List GeneratedFile) :
    ExceptT (List Diagnostic) Logged Reference := do
  match ← (env.unitOf declared).run with
  | .error path => do
    Logged.log .error "compile" (CompilationUnit.rejection path)
    throw [.backendFailure path]
  | .ok unit =>
    let problems := unit.diagnostics.filter (·.isProblem)
    if Diagnostic.hasErrors problems then throw problems
    pure unit.reference

/-- Adds the markup of a declared file. -/
def complete (env : Environment) (table : SymbolTable) (declared : GeneratedFile) :
    Logged GeneratedFile :=
  match declared.item with
  | none => pure declared
  | some item => do
    let doc ← item.generate env.options.templateOptions (some table)
    pure { declared with code := doc.code, diagnostics := doc.diagnostics }

/-- Generates a source file for each file of a project. If that is not possible the result is a
single failed file. -/
def generate (env : Environment) (sink : StatusSink) (files : List SourceFile) :
    Logged (List GeneratedFile) := do
  if files = [] then return []
  let repeated := SourceFile.repeatedPaths [] [] files
  if repeated ≠ [] then
    Logged.log .info "project" ("Rejected request with " ++ Bytes.ofNat repeated.length
      ++ " duplicate file path(s)")
    return [.failed (repeated.map .duplicatePath)]
  let declared ← files.zipIdx.mapM fun (file, i) => env.declare file i
  let diagnostics := declared.flatMap (·.diagnostics)
  if Diagnostic.hasErrors diagnostics then
    Logged.log .debug "project" ("Declaration pass failed with " ++ Bytes.ofNat diagnostics.length
      ++ " diagnostic(s)")
    return [.failed diagnostics]
  match ← (env.linkDeclarations declared).run with
  | .error diagnostics =>
    Logged.log .debug "project" ("Declarations do not link: " ++ Bytes.ofNat diagnostics.length
      ++ " diagnostic(s)")
    return [.failed diagnostics]
  | .ok reference =>
    sink.notify preparingProject
    let table := SymbolTable.ofReferences (env.references ++ [reference])
    let results ← declared.mapM (env.complete table)
    Logged.log .debug "project" ("Translated " ++ Bytes.ofNat results.length ++ " file(s)")
    return results

end Environment

end ViewCompiler
