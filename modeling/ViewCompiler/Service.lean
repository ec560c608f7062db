import ViewCompiler.Assembly
import ViewCompiler.Fingerprint

/-!
The compilation service: it compiles requests and remembers the last assembly, so that the same
request is answered without work.
-/

namespace ViewCompiler

/-- A remembered assembly and the request that it answers. -/
structure CacheSlot where
  key : Fingerprint
  assembly : Assembly
deriving DecidableEq, Repr, Inhabited

/-- A service without an environment of its own takes that of the process when it first needs one. -/
structure Service where
  environment : Option Environment := none
  slot : Option CacheSlot := none
  hits : Nat := 0
  misses : Nat := 0
deriving Inhabited

namespace Service

/-- Whether the remembered assembly answers a request. -/
def lookup? (s : Service) (key : Fingerprint) : Option Assembly :=
  s.slot.bind fun e => if e.key = key then some e.assembly else none

/-- What the log says of a request. -/
def requestText (files : List SourceFile) (key : Fingerprint) : Bytes :=
  Bytes.ofNat files.length ++ " file(s) [" ++ key.text ++ "]"

/-- Generates the sources of a request and links them. -/
def run (env : Environment) (g : Generator) (sink : StatusSink) (files : List SourceFile) :
    Logged (Except PipelineError Assembly) := do
  let generated ← env.generate sink files
  sink.notify compilingAssembly
  env.link g generated

/-- Answers a request; `shared` is the environment of the process. Failures are not remembered. -/
def compile (s : Service) (shared : Option Environment) (g : Generator) (sink : StatusSink)
    (files : List SourceFile) : Logged (Except PipelineError Assembly × Service) := do
  let key := Fingerprint.ofFiles files
  match s.lookup? key with
  | some assembly =>
    Logged.log .debug "cache" ("Cache hit for " ++ requestText files key)
    pure (.ok assembly, { s with hits := s.hits + 1 })
  | none =>
    match s.environment.or shared with
    | none => pure (.error .notInitialized, s)
    | some env =>
      let s := { s with environment := some env, misses := s.misses + 1 }
      Logged.log .info "cache" ("Cache miss for " ++ requestText files key)
      match ← run env g sink files with
      | .error (.emit (.lowering e)) => pure (.error (.emit (.lowering e)), s)
      | .error e =>
        Logged.log .error "cache" ("Compilation failed (" ++ e.kind ++ "): " ++ e.message)
        pure (.error e, s)
      | .ok assembly => pure (.ok assembly, { s with slot := some { key, assembly } })

/-- Forgets the remembered assembly. -/
def clear (s : Service) : Logged Service := do
  Logged.log .debug "cache" "Cache cleared"
  pure { s with slot := none }

end Service

/-! ## The process -/

/-- The environment of a process is built once; later options are ignored, and a failure stays. -/
structure ProcessState where
  built : Option (Except BuildError Environment) := none
deriving Inhabited

namespace ProcessState

def environment (p : ProcessState) : Option Environment :=
  match p.built with
  | some (.ok env) => some env
  | _ => none

/-- Builds the environment if that has not been tried before. -/
def init (p : ProcessState) (g : Generator) (o : EnvironmentOptions) :
    Logged (Except BuildError Environment × ProcessState) :=
  match p.built with
  | some result => pure (result, p)
  | none => do
    let result ← (Environment.build g .builtin o).run
    match result with
    | .ok _ => pure ()
    | .error e =>
      Logged.log .error "env" ("Base environment initialization failed: " ++ e.message)
    pure (result, { built := some result })

end ProcessState

end ViewCompiler
