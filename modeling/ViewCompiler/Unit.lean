import ViewCompiler.Ast.Parse
import ViewCompiler.Model.Analyze
import ViewCompiler.Code.Lower
import ViewCompiler.Code.Text
import ViewCompiler.Log

/-!
Compilation units: syntax trees that are compiled together against references. A unit reports the
diagnostics of its analysis, can be seen as a reference by other units, and is emitted as an image
by the code generator of the host.
-/

namespace ViewCompiler

/-! ## Front ends -/

/-- A file that a front end has read. Only those with a syntax tree can be compiled. -/
inductive SyntaxUnit where
  | parsed (tree : SyntaxTree)
  | foreign (path : Bytes)
deriving Inhabited

namespace SyntaxUnit

def path : SyntaxUnit → Bytes
  | parsed tree => tree.file
  | foreign path => path

def diagnostics : SyntaxUnit → List Diagnostic
  | parsed tree => tree.diagnostics
  | foreign _ => []

end SyntaxUnit

/-- What reads source files: the compiler's own language, or one that it cannot compile. -/
inductive FrontEnd where
  | il | foreign
deriving DecidableEq, Repr, Inhabited

namespace FrontEnd

def name : FrontEnd → Bytes
  | il => "il"
  | foreign => "foreign"

def parse (f : FrontEnd) (code path : Bytes) : Logged SyntaxUnit :=
  match f with
  | il => do
    let tree := SyntaxTree.parse code path
    Logged.log .trace "il" ("Parsed " ++ path ++ ": " ++ Bytes.ofNat tree.types.length
      ++ " type(s), " ++ Bytes.ofNat tree.diagnostics.length ++ " diagnostic(s)")
    pure (.parsed tree)
  | foreign => pure (.foreign path)

end FrontEnd

/-! ## The code generator -/

structure UnitOptions where
  assembly : Bytes := "Try.UserComponents"
  optimization : Int := 2
  target : Bytes := []
  cpu : Bytes := "generic"
  overrides : Overrides := []
deriving DecidableEq, Repr, Inhabited

/-- What the code generator of the host makes of a module text: the image, or the message why there
is none, and what it warns of. -/
structure Emission where
  result : Except Bytes Bytes
  warnings : List Bytes := []

/-- What the stand-in for the code generator makes of a module text: the text itself, unless the
target is one that it pretends not to know. -/
def Emission.standIn (options : UnitOptions) (text : Bytes) : Emission :=
  if options.target.startsWith "fail" then
    { result := .error ("Failed to get target: " ++ options.target) }
  else if options.cpu = "warn" then
    { result := .ok text,
      warnings := ["Optimization pipeline failed: O" ++ Bytes.ofInt options.optimization] }
  else { result := .ok text }

/-- The code generator of the host, which is the stand-in unless another one is given. -/
structure Generator where
  available : Bool := true
  emission : UnitOptions → Bytes → Emission := Emission.standIn
deriving Inhabited

/-- Why there is no image. -/
inductive EmitError where
  | hasErrors
  | lowering (e : Code.LoweringError)
  | unavailable
  | failed (message : Bytes)
deriving DecidableEq, Repr, Inhabited

namespace EmitError

def message : EmitError → Bytes
  | hasErrors => "Cannot emit a compilation unit that has errors"
  | lowering _ => "A name was never bound"
  | unavailable => "Failed to initialize the native LLVM target"
  | failed message => message

end EmitError

namespace Generator

def version : Bytes := "0.0.0"

/-- Makes the image of a module text. -/
def image (g : Generator) (options : UnitOptions) (text : Bytes) : Logged (Except EmitError Bytes) := do
  let made := g.emission options text
  let _ ← made.warnings.mapM (Logged.log .warn "llvm")
  match made.result with
  | .error message =>
    Logged.log .error "llvm" message
    pure (.error (.failed message))
  | .ok image => pure (.ok image)

end Generator

/-! ## Units -/

structure CompilationUnit where
  references : List Reference
  options : UnitOptions
  trees : List SyntaxTree := []
deriving Inhabited

namespace CompilationUnit

def model (u : CompilationUnit) : Model := Model.analyze u.references u.trees

/-- A unit of the given trees; it is analysed at once. -/
def create (references : List Reference) (options : UnitOptions) (trees : List SyntaxTree) :
    Logged CompilationUnit := do
  let u : CompilationUnit := { references, options, trees }
  let m := u.model
  Logged.log .debug "il" ("Bound " ++ Bytes.ofNat m.types.length ++ " type(s) from "
    ++ Bytes.ofNat trees.length ++ " tree(s) with " ++ Bytes.ofNat m.diagnostics.length
    ++ " diagnostic(s)")
  pure u

/-- The trees of parsed files, or the path of the first file that has none. -/
def treesOf : List SyntaxUnit → Except Bytes (List SyntaxTree)
  | [] => .ok []
  | .foreign path :: _ => .error path
  | .parsed tree :: units => (treesOf units).map (tree :: ·)

/-- The unit together with more files. Fails with the path of a file that cannot be compiled. -/
def add (u : CompilationUnit) (units : List SyntaxUnit) : ExceptT Bytes Logged CompilationUnit :=
  match treesOf units with
  | .error path => throw path
  | .ok trees => create u.references u.options (u.trees ++ trees)

/-- What is said of a file that cannot be compiled. -/
def rejection (path : Bytes) : Bytes :=
  "Syntax unit " ++ path.quoted ++ " was not produced by the IL backend"

/-- The diagnostics of the analysis as the options want them reported. -/
def diagnostics (u : CompilationUnit) : List Diagnostic :=
  Diagnostic.applyOverrides u.model.diagnostics u.options.overrides

def hasErrors (u : CompilationUnit) : Bool := Diagnostic.hasErrors u.diagnostics

/-- The text of the module of the unit. -/
def code (u : CompilationUnit) : Logged (Except Code.LoweringError Bytes) :=
  match Code.lower u.model u.options.assembly with
  | .error e => pure (.error e)
  | .ok m => do
    Logged.log .debug "il" ("Lowered " ++ Bytes.ofNat m.layouts.length ++ " type(s) into "
      ++ Bytes.ofNat m.strings.length ++ " string literal(s)")
    pure (.ok m.text)

/-- The image of the unit. -/
def emit (g : Generator) (u : CompilationUnit) : Logged (Except EmitError Bytes) :=
  if u.hasErrors then pure (.error .hasErrors)
  else do
    match ← u.code with
    | .error e => pure (.error (.lowering e))
    | .ok text =>
      if g.available then g.image u.options text else pure (.error .unavailable)

/-- The unit as other units see it. -/
def reference (u : CompilationUnit) : Reference where
  name := u.options.assembly
  dependencies := u.references.map (·.name)
  types := u.model.declared.map fun t => { t with library := u.options.assembly }

end CompilationUnit

end ViewCompiler
