import ViewCompiler.CommandLine
import ViewCompiler.Proofs.ProcessHistory

/-!
The module that is printed. Compiling files and printing their module are two ways through the same
steps; from any state, both end as linking the files says (`CommandLine.Run.Follows`): at the image if
there is one, with the exit code 1 if there is none, and not at all if the unit cannot be lowered. So
what is printed is the image (`CommandLine.Run.printed_module`).
-/

namespace ViewCompiler

/-! ## Emitting a unit -/

/-- The image of any module is its text. -/
def Generator.Shows (g : Generator) (options : UnitOptions) : Prop :=
  ∀ text, g.answer options text = .ok text

/-- The stand-in shows what it is given, unless it pretends not to know the target. -/
theorem Generator.shows_standIn {g : Generator} {options : UnitOptions}
    (hstandIn : g.emission = .standIn) (havailable : g.available = true)
    (htarget : options.target.startsWith "fail" = false) : g.Shows options := by
  intro text
  rw [answer_standIn hstandIn, havailable, htarget]
  rfl

/-- If the image of any module is its text, the image of a unit is its code. -/
theorem CompilationUnit.value_emit_of_code {u : CompilationUnit} {g : Generator}
    (hhost : g.Shows u.options) (h : u.hasErrors = false) :
    (u.emit g).value = u.code.value.mapError .lowering := by
  cases hcode : Code.lower u.model u.options.assembly with
  | error e =>
    have hvalue : u.code.value = .error e := by rw [code, hcode]; rfl
    rw [emit, if_neg (by simp [h]), Logged.value_bind, hvalue]
    rfl
  | ok M =>
    have hvalue : u.code.value = .ok M.text := by rw [code, hcode]; rfl
    rw [value_emit hcode g h, hhost M.text, hvalue]
    rfl

/-- The first answer of a service with an environment. -/
theorem Service.value_compile_first (env : Environment) (g : Generator) (sink : StatusSink)
    (files : List SourceFile) :
    (({ environment := some env } : Service).compile none g sink files).value.1 =
      answer env g files := by
  have htracks : Tracks env g [] { environment := some env } := ⟨rfl, rfl, rfl⟩
  rw [(htracks.compile_miss none sink rfl).2]
  cases answer env g files <;> rfl

namespace CommandLine.Run

variable {α β : Type} {r : Run α} {f : α → Run β} {a : α} {b : β} {text : Bytes}
  {e : Code.LoweringError}

/-! ## Runs from any state -/

/-- The run ends with this value after it has printed the text. -/
def Gives (r : Run α) (a : α) (text : Bytes) : Prop :=
  ∀ s, ∃ s', r.run s = .ok (a, s') ∧ s'.output = s.output ++ text

/-- The run does not end because of this error. -/
def Throws (r : Run α) (e : Code.LoweringError) : Prop := ∀ s, r.run s = .error e

theorem gives_pure (a : α) : Gives (pure a) a [] := fun s => ⟨s, rfl, (List.append_nil _).symm⟩

/-- What is done before may log and complain, but not print. -/
theorem Gives.quietly (hr : r.Gives a []) (hf : (f a).Gives b text) : Gives (r >>= f) b text := by
  intro s
  obtain ⟨s', hs', hnothing⟩ := hr s
  obtain ⟨s'', hs'', htext⟩ := hf s'
  refine ⟨s'', ?_, by rw [htext, hnothing, List.append_nil]⟩
  rw [StateT.run_bind, hs']
  exact hs''

theorem Gives.throws (hr : r.Gives a []) (hf : (f a).Throws e) : Throws (r >>= f) e := by
  intro s
  obtain ⟨s', hs', -⟩ := hr s
  rw [StateT.run_bind, hs']
  exact hf s'

theorem gives_print_pure (text : Bytes) (exit : UInt8) :
    Gives (do print text; pure exit) exit text := fun _ => ⟨_, rfl, rfl⟩

theorem gives_complain (text : Bytes) : Gives (complain text) () [] :=
  fun _ => ⟨_, rfl, (List.append_nil _).symm⟩

theorem gives_logged (c : Logged α) : Gives (logged c) c.value [] :=
  fun _ => ⟨_, rfl, (List.append_nil _).symm⟩

theorem gives_fail (exit : UInt8) (message : Bytes) : Gives (fail exit message) exit [] :=
  (gives_complain _).quietly (gives_pure exit)

theorem gives_report (ds : List Diagnostic) : Gives (report ds) () [] := by
  apply (gives_complain _).quietly
  dsimp only
  split
  · exact gives_complain _
  · exact gives_pure ()

theorem Gives.not_exit_zero {r : Run UInt8} {exit : UInt8} (h : r.Gives exit text) (hne : exit ≠ 0)
    (s : State) : ¬ ∃ s', r.run s = .ok (0, s') := by
  rintro ⟨s', hs'⟩
  obtain ⟨s'', hs'', -⟩ := h s
  rw [hs''] at hs'
  cases hs'
  exact hne rfl

/-! ## Runs that end at an image -/

/-- The run ends as the answer says: with the exit code 0 if there is an image, after it has printed
what it shows of the image, and with 1 if there is none. -/
def Follows (r : Run UInt8) (shown : Bytes → Bytes) : Except PipelineError Assembly → Prop
  | .error (.emit (.lowering e)) => r.Throws e
  | .error _ => r.Gives 1 []
  | .ok { image := none, .. } => r.Gives 1 []
  | .ok { image := some image, .. } => r.Gives 0 (shown image)

theorem Gives.follows {f : α → Run UInt8} {shown : Bytes → Bytes}
    {answer : Except PipelineError Assembly} (hr : r.Gives a []) (hf : (f a).Follows shown answer) :
    Follows (r >>= f) shown answer := by
  match answer with
  | .error (.emit (.lowering e)) => exact hr.throws hf
  | .error .notInitialized | .error (.rejected _) | .error (.emit .hasErrors)
  | .error (.emit .unavailable) | .error (.emit (.failed _)) => exact hr.quietly hf
  | .ok { image := none, .. } => exact hr.quietly hf
  | .ok { image := some image, .. } => exact hr.quietly hf

/-- The run ends with the exit code 0 exactly if there is an image. -/
theorem Follows.exit_eq_zero {r : Run UInt8} {shown : Bytes → Bytes}
    {answer : Except PipelineError Assembly} (h : r.Follows shown answer) {s s' : State}
    (hrun : r.run s = .ok (0, s')) :
    ∃ assembly image, answer = .ok assembly ∧ assembly.image = some image ∧
      s'.output = s.output ++ shown image := by
  have hfails (h : r.Gives 1 []) : False := h.not_exit_zero (by decide) s ⟨s', hrun⟩
  match answer with
  | .error (.emit (.lowering e)) =>
    rw [h s] at hrun
    cases hrun
  | .error .notInitialized | .error (.rejected _) | .error (.emit .hasErrors)
  | .error (.emit .unavailable) | .error (.emit (.failed _)) => exact (hfails h).elim
  | .ok { image := none, .. } => exact (hfails h).elim
  | .ok { image := some image, diagnostics } =>
    obtain ⟨s'', hs'', htext⟩ := h s
    rw [hs''] at hrun
    cases hrun
    exact ⟨_, image, rfl, rfl, htext⟩

theorem Follows.exists_exit {r : Run UInt8} {shown : Bytes → Bytes} {assembly : Assembly}
    {image : Bytes} (h : r.Follows shown (.ok assembly)) (himage : assembly.image = some image)
    (s : State) : ∃ s', r.run s = .ok (0, s') := by
  obtain ⟨diagnostics, _⟩ := assembly
  cases himage
  obtain ⟨s', hs', -⟩ := h s
  exact ⟨s', hs'⟩

theorem Follows.exit_iff {r r' : Run UInt8} {shown shown' : Bytes → Bytes}
    {answer : Except PipelineError Assembly} (h : r.Follows shown answer)
    (h' : r'.Follows shown' answer) (s t : State) :
    (∃ s', r.run s = .ok (0, s')) ↔ ∃ t', r'.run t = .ok (0, t') := by
  constructor
  · rintro ⟨s', hs'⟩
    obtain ⟨assembly, image, rfl, himage, -⟩ := h.exit_eq_zero hs'
    exact h'.exists_exit himage t
  · rintro ⟨t', ht'⟩
    obtain ⟨assembly, image, rfl, himage, -⟩ := h'.exit_eq_zero ht'
    exact h.exists_exit himage s

/-! ## The two runs -/

/-- Compiling files without an output file. -/
theorem follows_compile (env : Environment) (g : Generator) (files : List SourceFile) :
    (compile env g [] files).Follows
      (fun image => "Compiled " ++ Bytes.ofNat files.length ++ " file(s) into a "
        ++ Bytes.ofNat image.length ++ " byte image\n") (Service.answer env g files) := by
  have hvalue := Service.value_compile_first env g .logger files
  rw [compile]
  apply (gives_logged _).follows
  rw [show ((⟨some env, none, 0, 0⟩ : Service).compile none g .logger files).value =
    (Service.answer env g files, _) from Prod.ext hvalue rfl]
  dsimp only
  match Service.answer env g files with
  | .error (.emit (.lowering e)) => exact fun _ => rfl
  | .error .notInitialized | .error (.rejected _) | .error (.emit .hasErrors)
  | .error (.emit .unavailable) | .error (.emit (.failed _)) => exact gives_fail _ _
  | .ok { image := none, diagnostics } => exact (gives_report diagnostics).quietly (gives_pure 1)
  | .ok { image := some image, diagnostics } =>
    exact (gives_report diagnostics).quietly (gives_print_pure _ 0)

/-- Printing the module of generated files. -/
theorem follows_printModule {env : Environment} {g : Generator} {files : List GeneratedFile}
    (hhost : g.Shows env.base.options) :
    (printModule env files).Follows id (env.link g files).value := by
  rw [printModule, Environment.link]
  dsimp only
  split
  · exact (gives_report _).quietly (gives_pure 1)
  · apply (gives_logged _).follows
    rw [Logged.value_bind]
    cases hunit : (env.unitOf files).run.value with
    | error path => exact gives_fail 1 _
    | ok unit =>
      have hhost : g.Shows unit.options := by rwa [Environment.options_of_unitOf hunit]
      dsimp only
      rw [CompilationUnit.hasErrors_problems]
      cases herrors : unit.hasErrors with
      | true => exact (gives_report _).quietly (gives_pure 1)
      | false =>
        simp only [Bool.false_eq_true, if_false]
        apply (gives_logged _).follows
        rw [Logged.value_bind, CompilationUnit.value_emit_of_code hhost herrors]
        cases unit.code.value with
        | error e => exact fun _ => rfl
        | ok text => exact gives_print_pure text 0

/-- Generates the sources of files and prints their module. -/
def showModule (env : Environment) (files : List SourceFile) : Run UInt8 := do
  printModule env (← logged (env.generate .none files))

theorem follows_showModule {env : Environment} {g : Generator}
    (hhost : g.Shows env.base.options) (files : List SourceFile) :
    (showModule env files).Follows id (Service.answer env g files) :=
  (gives_logged _).follows (follows_printModule hhost)

/-- What is printed is the image. If the host is the stand-in and can make images, printing the module of some files ends
with the exit code 0 exactly if compiling them does, and then it has printed the image that a service
answers with. So the two agree whatever the files and the front end are, whether paths are repeated,
the first pass fails, files are rejected or overrides turn reports into errors. -/
theorem printed_module {env : Environment} {g : Generator} (hstandIn : g.emission = .standIn)
    (havailable : g.available = true)
    (htarget : env.base.options.target.startsWith "fail" = false) (files : List SourceFile)
    (s t : State) :
    ((∃ s', (showModule env files).run s = .ok (0, s')) ↔
      ∃ t', (compile env g [] files).run t = .ok (0, t')) ∧
    ∀ s', (showModule env files).run s = .ok (0, s') → ∀ sink, ∃ assembly image,
      (({ environment := some env } : Service).compile none g sink files).value.1 = .ok assembly ∧
        assembly.image = some image ∧ s'.output = s.output ++ image := by
  have hshown := follows_showModule (Generator.shows_standIn hstandIn havailable htarget) files
  refine ⟨hshown.exit_iff (follows_compile env g files) s t, ?_⟩
  intro s' hs' sink
  rw [Service.value_compile_first]
  exact hshown.exit_eq_zero hs'

/-- A run that has printed nothing yet. -/
def freshState : State where
  logger := .fresh none {}
  time := default

/-- The module of a template is printed, and it is its image. -/
theorem printed_module_note :
    Environment.bareEnvironment.base.options.target.startsWith "fail" = false ∧
    ∃ s', (showModule Environment.bareEnvironment [Service.noteFile]).run freshState = .ok (0, s') ∧
      s'.output ≠ [] ∧ ∃ assembly,
        (({ environment := some Environment.bareEnvironment } : Service).compile none {} .listener
          [Service.noteFile]).value.1 = .ok assembly ∧ assembly.image = some s'.output := by
  have htarget : Environment.bareEnvironment.base.options.target.startsWith "fail" = false := by
    decide
  have hends : (showModule Environment.bareEnvironment [Service.noteFile]).run freshState |>.toOption
      |>.any fun p => p.1 == 0 && p.2.output != [] := by
    decide +kernel
  cases hrun : (showModule Environment.bareEnvironment [Service.noteFile]).run freshState with
  | error e =>
    rw [hrun] at hends
    cases hends
  | ok p =>
    obtain ⟨exit, s'⟩ := p
    rw [hrun] at hends
    obtain ⟨hexit, houtput⟩ := Bool.and_eq_true_iff.1 hends
    cases beq_iff_eq.1 hexit
    obtain ⟨assembly, image, hanswer, himage, htext⟩ :=
      (printed_module (g := {}) rfl rfl htarget [Service.noteFile] freshState freshState).2 s' hrun .listener
    refine ⟨htarget, s', rfl, bne_iff_ne.1 houtput, assembly, hanswer, ?_⟩
    rw [himage, htext]
    rfl

/-! ## The command line -/

variable {g : Generator} {o : Options} {s : State} {files : List SourceFile}

theorem not_exit_zero_of_unreadable {path : Bytes}
    (hread : readInputs s.logger.files o.inputs = .error path) :
    ¬ ∃ s', (perform g o).run s = .ok (0, s') := by
  rw [perform, StateT.run_bind, StateT.run_get, pure_bind]
  dsimp only
  rw [hread]
  exact (gives_fail 2 _).not_exit_zero (by decide) s

theorem not_exit_zero_of_unbuilt {e : BuildError}
    (hread : readInputs s.logger.files o.inputs = .ok files)
    (hbuilt : Process.outcome g o.environment = .error e) :
    ¬ ∃ s', (perform g o).run s = .ok (0, s') := by
  obtain ⟨s', hs', -⟩ := gives_logged (ProcessState.init {} g o.environment) s
  rw [ProcessState.value_init, Option.getD_none, hbuilt] at hs'
  rw [perform, StateT.run_bind, StateT.run_get, pure_bind]
  dsimp only
  rw [hread]
  dsimp only
  rw [StateT.run_bind, hs']
  exact (gives_fail 1 e.message).not_exit_zero (by decide) s'

/-- With files and an environment, the action is done from one state, whichever it is. -/
theorem perform_of_built {env : Environment} (hread : readInputs s.logger.files o.inputs = .ok files)
    (hbuilt : Process.outcome g o.environment = .ok env) (output : Bytes) :
    ∃ s', (perform g { o with action := .printModule }).run s = (showModule env files).run s' ∧
      (perform g { o with action := .compile, output }).run s =
        (compile env g output files).run s' := by
  obtain ⟨s', hs', -⟩ := gives_logged (ProcessState.init {} g o.environment) s
  rw [ProcessState.value_init, Option.getD_none, hbuilt] at hs'
  refine ⟨s', ?_, ?_⟩
  all_goals
    rw [perform, StateT.run_bind, StateT.run_get, pure_bind]
    dsimp only
    rw [hread]
    dsimp only
    rw [StateT.run_bind, hs']
    rfl

/-- The same for the command line: with the options of a compilation, the module is printed exactly
if the files can be compiled. -/
theorem perform_module (hstandIn : g.emission = .standIn)
    (htarget : o.environment.project.target.startsWith "fail" = false)
    (s : State) :
    (∃ s', (perform g { o with action := .printModule }).run s = .ok (0, s')) ↔
      ∃ s', (perform g { o with action := .compile, output := [] }).run s = .ok (0, s') := by
  cases hread : readInputs s.logger.files o.inputs with
  | error path =>
    exact iff_of_false (not_exit_zero_of_unreadable hread) (not_exit_zero_of_unreadable hread)
  | ok files =>
    cases hbuilt : Process.outcome g o.environment with
    | error e =>
      exact iff_of_false (not_exit_zero_of_unbuilt hread hbuilt)
        (not_exit_zero_of_unbuilt hread hbuilt)
    | ok env =>
      obtain ⟨havailable, libraries, references, -, -, henv⟩ := Environment.eq_of_build hbuilt
      have hhost : g.Shows env.base.options := by
        rw [henv]
        exact Generator.shows_standIn hstandIn havailable htarget
      obtain ⟨s', hmodule, hcompile⟩ := perform_of_built hread hbuilt []
      rw [hmodule, hcompile]
      exact (follows_showModule hhost files).exit_iff (follows_compile env g files) s' s'

end CommandLine.Run

end ViewCompiler
