import ViewCompiler.Log.Options
import ViewCompiler.Service

/-!
The command line. A run is a function of the arguments, the environment variable for logging, the
terminal and the files; its outcome is an exit code, what was written to the two output streams,
and the files afterwards.
-/

namespace ViewCompiler.CommandLine

def version : Bytes := "0.3.0"

def usage : Bytes :=
  "tryc " ++ version ++ " - component playground compiler\n\n"
    ++ "Usage: tryc [options] <files...>\n\n"
    ++ "Files ending in .view are templates; any other file is component IL.\n"
    ++ "\nOptions:\n"
    ++ "  --help, -h            Show this help\n"
    ++ "  --version, -V         Show version\n"
    ++ "  -o <file>             Write the object image to <file>\n"
    ++ "  -O0...-O3             Set optimization level (default -O2)\n"
    ++ "  --target=<triple>     Target triple (default: host)\n"
    ++ "  --cpu=<name>          Target CPU (default: generic)\n"
    ++ "  --emit-il             Print the generated IL and stop\n"
    ++ "  --emit-llvm           Print the LLVM IR and stop\n"
    ++ "  --no-boilerplate      Do not prepend the Toolkit providers\n"
    ++ "  --nowarn=<code>       Suppress a diagnostic code\n"
    ++ "  --warnaserror=<code>  Report a diagnostic code as an error\n"
    ++ "\nLogging:\n"
    ++ "  -v, -vv, -vvv         Increase log verbosity\n"
    ++ "  -q, --quiet           Only log errors\n"
    ++ "  --log-level=<level>   trace, debug, info, warn, error, off\n"
    ++ "  --log-filter=<spec>   Per-module levels, e.g. cache=debug,*=warn\n"
    ++ "  --log-file=<path>     Also write logs to <path>\n"
    ++ "  --log-format=<fmt>    text or json\n"

/-! ## Arguments -/

/-- What a run does with the files: it compiles them, or prints one of the two forms in between. -/
inductive Action where
  | compile | printIl | printModule
deriving DecidableEq, Repr, Inhabited

/-- What the arguments ask for. Without an output file the image is not kept. -/
structure Options where
  action : Action := .compile
  inputs : List Bytes := []
  output : Bytes := []
  environment : EnvironmentOptions := {}
deriving DecidableEq, Repr, Inhabited

inductive UsageError where
  | missingOutput
  | unknownOption (arg : Bytes)
deriving DecidableEq, Repr, Inhabited

namespace UsageError

def message : UsageError → Bytes
  | missingOutput => "-o requires a file name"
  | unknownOption arg => "unknown option " ++ arg.quoted

end UsageError

namespace Options

/-- Changes the options of the project. -/
def project (o : Options) (f : ProjectOptions → ProjectOptions) : Options :=
  { o with environment := { o.environment with project := f o.environment.project } }

/-- Sets the action for a diagnostic code; the last one given counts. -/
def override (o : Options) (code : Bytes) (action : ReportAction) : Options :=
  o.project fun p => { p with overrides := (code, action) :: p.overrides }

/-- The level of an argument such as `-O2`. -/
def level? (arg : Bytes) : Option Nat :=
  match arg with
  | [b, c, d] =>
    if b = Ascii.minus ∧ c = 79 ∧ Ascii.zero ≤ d ∧ d ≤ Ascii.zero + 3 then
      some (d - Ascii.zero).toNat
    else none
  | _ => none

/-- Takes an argument into account that stands for itself. -/
def apply (o : Options) (arg : Bytes) : Except UsageError Options :=
  if Log.isOption arg then .ok o
  else if let some level := level? arg then .ok (o.project fun p => { p with optimization := level })
  else if arg.startsWith "--target=" then .ok (o.project fun p => { p with target := arg.drop 9 })
  else if arg.startsWith "--cpu=" then .ok (o.project fun p => { p with cpu := arg.drop 6 })
  else if arg = "--emit-il" then .ok { o with action := .printIl }
  else if arg = "--emit-llvm" then .ok { o with action := .printModule }
  else if arg = "--no-boilerplate" then .ok (o.project fun p => { p with boilerplate := [] })
  else if arg.startsWith "--nowarn=" then .ok (o.override (arg.drop 9) .suppress)
  else if arg.startsWith "--warnaserror=" then .ok (o.override (arg.drop 14) .error)
  else if arg.startsWith "-" then .error (.unknownOption arg)
  else .ok { o with inputs := o.inputs ++ [arg] }

/-- Reads the arguments. Only `-o` takes the argument after it. -/
def parse (o : Options) : List Bytes → Except UsageError Options
  | [] => .ok o
  | arg :: args =>
    if arg = "-o" then
      match args with
      | [] => .error .missingOutput
      | file :: args => parse { o with output := file } args
    else do
      let o ← o.apply arg
      o.parse args

end Options

/-! ## Runs -/

/-- What a run starts from. -/
structure Setup where
  args : List Bytes
  logVariable : Option Bytes := none
  terminal : Option Log.Terminal := none
  files : Files := {}
  time : Log.Time := default
  generator : Generator := {}
deriving Inhabited

structure Outcome where
  exit : UInt8
  output : Bytes
  errors : Bytes
  files : Files
deriving DecidableEq, Repr, Inhabited

/-- The state of a run: the logger, which also holds standard error and the files, and standard
output. -/
structure State where
  logger : Log.Logger
  time : Log.Time
  output : Bytes := []
deriving DecidableEq, Repr, Inhabited

abbrev Run := StateT State (Except Code.LoweringError)

namespace Run

def print (text : Bytes) : Run Unit := modify fun s => { s with output := s.output ++ text }

/-- Writes to standard error. -/
def complain (text : Bytes) : Run Unit :=
  modify fun s => { s with logger := s.logger.display text }

/-- Does what logs. -/
def logged {α : Type} (c : Logged α) : Run α := do
  modify fun s => { s with logger := s.logger.logAll s.time c.records }
  pure c.value

/-- Ends the run with a complaint. -/
def fail (exit : UInt8) (message : Bytes) : Run UInt8 := do
  complain ("error: " ++ message ++ "\n")
  pure exit

def count (severity : Severity) (ds : List Diagnostic) : Nat :=
  ds.countP (·.severity = severity)

/-- Shows diagnostics and how many errors and warnings they are. -/
def report (ds : List Diagnostic) : Run Unit := do
  complain (ds.flatMap fun d => d.format ++ [Ascii.lf])
  let errors := count .error ds
  let warnings := count .warning ds
  if 0 < errors ∨ 0 < warnings then
    complain (Bytes.ofNat errors ++ " error(s), " ++ Bytes.ofNat warnings ++ " warning(s)\n")

/-- Reads the input files, or says which one cannot be read. -/
def readInputs (fs : Files) : List Bytes → Except Bytes (List SourceFile)
  | [] => .ok []
  | path :: paths =>
    match fs.read? path with
    | none => .error path
    | some content =>
      (readInputs fs paths).map ({ path, content, kind := .ofPath path } :: ·)

/-- A generated file as it is printed. -/
def sourceText (f : GeneratedFile) : Bytes :=
  if f.path = [] then [] else "// " ++ f.path ++ "\n" ++ f.code ++ "\n"

/-- Prints the generated sources. -/
def printIl (files : List GeneratedFile) : Run UInt8 := do
  let diagnostics := files.flatMap (·.diagnostics)
  print (files.flatMap sourceText)
  report diagnostics
  pure (if Diagnostic.hasErrors diagnostics then 1 else 0)

/-- Prints the module of the generated sources. -/
def printModule (env : Environment) (files : List GeneratedFile) : Run UInt8 := do
  let diagnostics := files.flatMap (·.diagnostics)
  if Diagnostic.hasErrors diagnostics then
    report diagnostics
    return 1
  match ← logged (env.unitOf files).run with
  | .error path => fail 1 (CompilationUnit.rejection path)
  | .ok unit =>
    if unit.hasErrors then
      report unit.diagnostics
      return 1
    match ← logged unit.code with
    | .error e => throw e
    | .ok code =>
      print code
      return 0

/-- Keeps the image in a file, or only says how large it is. -/
def deliver (output : Bytes) (files : List SourceFile) (image : Bytes) : Run UInt8 := do
  if output = [] then
    print ("Compiled " ++ Bytes.ofNat files.length ++ " file(s) into a "
      ++ Bytes.ofNat image.length ++ " byte image\n")
    return 0
  let s ← get
  match s.logger.files.write? output image with
  | none => fail 1 ("cannot write " ++ output.quoted)
  | some fs =>
    set { s with logger := { s.logger with files := fs } }
    return 0

def compile (env : Environment) (g : Generator) (output : Bytes) (files : List SourceFile) :
    Run UInt8 := do
  let service : Service := { environment := some env }
  let (result, _) ← logged (service.compile none g .logger files)
  match result with
  | .error (.emit (.lowering e)) => throw e
  | .error e => fail 1 (e.kind ++ ": " ++ e.message)
  | .ok assembly =>
    report assembly.diagnostics
    match assembly.image with
    | none => return 1
    | some image => deliver output files image

/-- Does what the options ask for. -/
def perform (g : Generator) (o : Options) : Run UInt8 := do
  match readInputs (← get).logger.files o.inputs with
  | .error path => fail 2 ("cannot read " ++ path.quoted)
  | .ok files =>
    let (built, _) ← logged (ProcessState.init {} g o.environment)
    match built with
    | .error e => fail 1 e.message
    | .ok env =>
      match o.action with
      | .compile => compile env g o.output files
      | .printIl => do printIl (← logged (env.generate .none files))
      | .printModule => do printModule env (← logged (env.generate .none files))

/-- The text that an argument asks for before all others. -/
def information? (args : List Bytes) : Option Bytes :=
  args.findSome? fun (arg : Bytes) =>
    if arg = "--help" ∨ arg = "-h" then some usage
    else if arg = "--version" ∨ arg = "-V" then some ("tryc " ++ version ++ "\n")
    else none

def start (g : Generator) (args : List Bytes) : Run UInt8 := do
  match information? args with
  | some text =>
    print text
    return 0
  | none =>
    match Options.parse {} args with
    | .error e => fail 2 e.message
    | .ok o => perform g o

end Run

/-- Runs the compiler. -/
def run (s : Setup) : Except Code.LoweringError Outcome := do
  let config := Log.Config.ofArguments s.args s.logVariable
  let logger := (Log.Logger.fresh s.terminal s.files).init config
  let (exit, state) ← (Run.start s.generator s.args).run { logger, time := s.time }
  let logger := state.logger.clearSinks
  pure { exit, output := state.output, errors := logger.shown, files := logger.files }

end ViewCompiler.CommandLine
