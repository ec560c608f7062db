import ViewCompiler.Catalog.Builtin
import ViewCompiler.Unit

/-!
The environment of a compilation: the libraries that all its units refer to, loaded once, and the
options of the project.
-/

namespace ViewCompiler

/-- The components that the first template of a project starts with. -/
def providerBoilerplate : Bytes :=
  "\n<ToolkitDialogProvider FullWidth=\"true\" MaxWidth=\"ExtraSmall\" />\n<ToolkitSnackbarProvider/>\n\n"

/-- The namespaces that every template imports. -/
def defaultImports : List Bytes :=
  ["System", "System.Net.Http", "Framework.Components.Forms", "Framework.Components.Routing",
    "Framework.Components.Web", "Toolkit"]

/-- The options of a project. Its root namespace is also the name of its assembly. -/
structure ProjectOptions where
  rootNamespace : Bytes := "Try.UserComponents"
  workingDirectory : Bytes := "/playground/"
  imports : List Bytes := defaultImports
  boilerplate : Bytes := providerBoilerplate
  optimization : Int := 2
  target : Bytes := []
  cpu : Bytes := "generic"
  overrides : Overrides := []
deriving DecidableEq, Repr, Inhabited

namespace ProjectOptions

def unitOptions (o : ProjectOptions) : UnitOptions where
  assembly := o.rootNamespace
  optimization := o.optimization
  target := o.target
  cpu := o.cpu
  overrides := o.overrides

end ProjectOptions

structure EnvironmentOptions where
  roots : List Bytes := ["Toolkit", "Runtime.Net.Http.Json"]
  project : ProjectOptions := {}
deriving DecidableEq, Repr, Inhabited

/-- The references, options and front end of a project, and the unit that its files are added to. -/
structure Environment where
  frontEnd : FrontEnd := .il
  references : List Reference
  options : ProjectOptions
  base : CompilationUnit
deriving Inhabited

/-- Why there is no environment. -/
inductive BuildError where
  | closure (e : ClosureError)
  | generator (e : EmitError)
  | rejected (library path : Bytes)
  | invalid (library : Bytes) (report : Diagnostic)
deriving DecidableEq, Repr, Inhabited

namespace BuildError

def message : BuildError → Bytes
  | closure e => e.message
  | generator e => e.message
  | rejected library path =>
    "Metadata of library " ++ library.quoted ++ " could not be bound: "
      ++ CompilationUnit.rejection path
  | invalid library report =>
    "Metadata of library " ++ library.quoted ++ " is invalid: " ++ report.format

end BuildError

/-- Computations that log and may fail to build an environment. -/
abbrev Build := ExceptT BuildError Logged

namespace Library

/-- The name under which the source of that number is parsed. -/
def sourcePath (l : Library) (index : Nat) : Bytes := l.name ++ "/" ++ Bytes.ofNat index ++ ".il"

/-- Parses the sources of a library. -/
def parse (l : Library) : Logged (List SyntaxUnit) :=
  l.sources.zipIdx.mapM fun (source, i) => FrontEnd.parse .il source (l.sourcePath i)

/-- Compiles a library to the reference that other units see. -/
def load (l : Library) (dependencies : List Reference) : Build Reference := do
  let units ← l.parse
  let base ← CompilationUnit.create dependencies { assembly := l.name } []
  let unit ← (base.add units).adapt (.rejected l.name)
  match unit.diagnostics.find? (·.isError) with
  | some d => throw (.invalid l.name d)
  | none => pure unit.reference

end Library

namespace Environment

/-- Loads libraries one after the other. Each sees the closure of its dependencies, which were
loaded before it. -/
def loadAll (c : Catalog) (loaded : List Reference) : List Library → Build (List Reference)
  | [] => pure loaded
  | l :: ls => do
    match c.closure l.dependencies with
    | .error e => throw (.closure e)
    | .ok needed =>
      let dependencies := needed.filterMap fun d => loaded.find? (·.name = d.name)
      let r ← l.load dependencies
      Logged.log .debug "env" ("Loaded library " ++ l.name ++ " (" ++ Bytes.ofNat r.types.length
        ++ " types)")
      loadAll c (loaded ++ [r]) ls

/-- Builds the environment of a project from the libraries of a catalog. -/
def build (g : Generator) (c : Catalog) (o : EnvironmentOptions) : Build Environment :=
  match c.closure o.roots with
  | .error e => throw (.closure e)
  | .ok libraries => do
    if ¬ g.available then throw (.generator .unavailable)
    let references ← loadAll c [] libraries
    let base ← CompilationUnit.create references o.project.unitOptions []
    Logged.log .info "env" ("Base environment ready: " ++ Bytes.ofNat references.length
      ++ " libraries, backend " ++ FrontEnd.il.name ++ ", LLVM " ++ Generator.version)
    pure { references, options := o.project, base }

def find? (env : Environment) (name : Bytes) : Option Reference :=
  env.references.find? (·.name = name)

end Environment

end ViewCompiler
