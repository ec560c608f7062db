import ViewCompiler.Proofs.ComponentIdentity
import ViewCompiler.Service

/-!
Overrides of a project, from what reports to the assembly. They are applied where a unit reports
(`CompilationUnit.diagnostics`), and diagnostics of units reach an assembly on three ways: with the
declarations that do not link, with the files that are completed, and with the linked unit. On all of
them they are reported as the overrides want it (`Service.assembly_honours`). What is reported of a
template, or of the list of files, is not a unit's and is reported as it is.
-/

namespace ViewCompiler

/-! ## Single diagnostics -/

namespace Overrides

/-- The diagnostic is reported as the overrides want diagnostics of its code reported. -/
structure Honours (o : Overrides) (d : Diagnostic) : Prop where
  reported : o.lookup d.code ≠ some .suppress
  error : o.lookup d.code = some .error → d.severity = .error
  warning : o.lookup d.code = some .warning → d.severity = .warning

theorem honours_of_mem {o : Overrides} {ds : List Diagnostic} {d : Diagnostic}
    (h : d ∈ Diagnostic.applyOverrides ds o) : o.Honours d := by
  obtain ⟨d₀, -, hd⟩ := List.mem_filterMap.1 h
  rw [Diagnostic.override] at hd
  cases hlookup : o.lookup d₀.code with
  | none =>
    rw [hlookup] at hd
    cases hd
    constructor <;> simp [hlookup]
  | some action =>
    rw [hlookup, Option.getD_some] at hd
    cases action with
    | suppress => cases hd
    | keep | warning | error =>
      cases hd
      constructor <;> simp [hlookup]

end Overrides

namespace Diagnostic

/-- Reports about templates and about the list of files, which no unit makes. -/
def isOutside (d : Diagnostic) : Bool := d.code.startsWith "TX" || d.code.startsWith "PRJ"

/-- A diagnostic of a unit is reported as the overrides want it. -/
def Heeds (o : Overrides) (d : Diagnostic) : Prop := d.isOutside = true ∨ o.Honours d

end Diagnostic

/-- What is reported of a template has a code of templates. -/
theorem Item.code_of_mem_generate {i : Item} {o : TemplateOptions} {table : Option SymbolTable}
    {d : Diagnostic} (h : d ∈ (i.generate o table).value.diagnostics) :
    d.code.startsWith "TX" = true := by
  have hcode {rs : List TemplateReport} (hd : d ∈ rs.map i.diagnostic) :
      d.code.startsWith "TX" = true := by
    obtain ⟨r, -, rfl⟩ := List.mem_map.1 hd
    change r.2.code.startsWith "TX" = true
    unfold TemplateError.code
    split <;> rfl
  rw [value_generate] at h
  split at h
  · rcases List.mem_append.1 h with h | h
    · exact hcode h
    · exact hcode h
  · rcases List.mem_append.1 h with h | h
    · exact hcode h
    · rw [List.mem_singleton.1 h]
      rfl

theorem Diagnostic.isOutside_of_template {d : Diagnostic} (h : d.code.startsWith "TX" = true) :
    d.isOutside = true := by
  rw [isOutside, h, Bool.true_or]

/-! ## Generated files -/

namespace Environment

variable {env : Environment} {files : List SourceFile} {sink : StatusSink}

/-- The unit of files reports with the overrides of the unit that the files are added to. -/
theorem options_of_unitOf {generated : List GeneratedFile} {u : CompilationUnit}
    (h : (env.unitOf generated).run.value = .ok u) : u.options = env.base.options := by
  obtain ⟨units, -, h⟩ := Logged.run_bind_eq_ok h
  rw [CompilationUnit.add] at h
  split at h
  · cases h
  · cases h
    rfl

/-- What becomes of files with different paths. -/
theorem value_generate_of_paths (hnil : files ≠ []) (hpaths : SourceFile.repeatedPaths [] [] files = []) :
    (env.generate sink files).value =
      if Diagnostic.hasErrors ((env.declared files).flatMap (·.diagnostics)) then
        [.failed ((env.declared files).flatMap (·.diagnostics))]
      else match (env.linkDeclarations (env.declared files)).run.value with
        | .error ds => [.failed ds]
        | .ok reference => env.completed reference files := by
  rw [generate, if_neg hnil, if_neg (not_not_intro hpaths), Logged.value_bind, Logged.value_mapM]
  change (if Diagnostic.hasErrors ((env.declared files).flatMap (·.diagnostics)) = true then _
    else _ : Logged (List GeneratedFile)).value = _
  split
  · rfl
  · have hlinked : (env.linkDeclarations (files.zipIdx.map fun p => (env.declare p.1 p.2).value)).run.value
        = (env.linkDeclarations (env.declared files)).run.value := rfl
    rw [Logged.value_bind, hlinked]
    cases (env.linkDeclarations (env.declared files)).run.value with
    | error ds => rfl
    | ok reference =>
      simp only [Logged.value_bind, Logged.value_mapM]
      rfl

/-- What can become of the files of a project. -/
theorem generate_cases (env : Environment) (sink : StatusSink) (files : List SourceFile) :
    (env.generate sink files).value = []
      ∨ (env.generate sink files).value =
        [.failed ((SourceFile.repeatedPaths [] [] files).map .duplicatePath)]
      ∨ (env.generate sink files).value = [.failed ((env.declared files).flatMap (·.diagnostics))]
      ∨ (∃ ds, (env.linkDeclarations (env.declared files)).run.value = .error ds
        ∧ (env.generate sink files).value = [.failed ds])
      ∨ ∃ reference, (env.generate sink files).value = env.completed reference files := by
  by_cases hnil : files = []
  · left
    rw [generate, if_pos hnil]
    rfl
  right
  by_cases hpaths : SourceFile.repeatedPaths [] [] files = []
  · right
    rw [value_generate_of_paths hnil hpaths]
    split
    · exact .inl rfl
    right
    split
    · next ds hlinked => exact .inl ⟨ds, hlinked, rfl⟩
    · next reference _ => exact .inr ⟨reference, rfl⟩
  · left
    rw [generate, if_neg hnil, if_pos hpaths]
    rfl

theorem code_of_mem_declared {f : GeneratedFile} (hf : f ∈ env.declared files) :
    ∀ d ∈ f.diagnostics, d.code.startsWith "TX" = true := by
  obtain ⟨p, -, rfl⟩ := List.mem_map.1 hf
  intro d hd
  rw [declare] at hd
  split at hd
  · cases hd
  · exact Item.code_of_mem_generate hd

theorem code_of_mem_completed {reference : Reference} {f : GeneratedFile}
    (hf : f ∈ env.completed reference files) : ∀ d ∈ f.diagnostics, d.code.startsWith "TX" = true := by
  obtain ⟨declared, hdeclared, rfl⟩ := List.mem_map.1 hf
  intro d hd
  rw [complete] at hd
  split at hd
  · exact code_of_mem_declared hdeclared d hd
  · exact Item.code_of_mem_generate hd

/-- Why declarations do not link: a file cannot be compiled, or their unit has errors. -/
theorem linkDeclarations_eq_error {declared : List GeneratedFile} {ds : List Diagnostic}
    (h : (env.linkDeclarations declared).run.value = .error ds) :
    (∃ path, ds = [.backendFailure path]) ∨ ∃ u, (env.unitOf declared).run.value = .ok u ∧
      ds = u.diagnostics.filter (·.isProblem) ∧ Diagnostic.hasErrors ds = true := by
  rw [linkDeclarations, Logged.value_run_lift_bind] at h
  cases hunit : (env.unitOf declared).run.value with
  | error path =>
    rw [hunit] at h
    cases h
    exact .inl ⟨path, rfl⟩
  | ok u =>
    rw [hunit] at h
    dsimp only at h
    split at h
    · next herrors =>
      cases h
      exact .inr ⟨u, rfl, rfl, herrors⟩
    · cases h

theorem heeds_linkDeclarations {declared : List GeneratedFile} {ds : List Diagnostic}
    (h : (env.linkDeclarations declared).run.value = .error ds) :
    ∀ d ∈ ds, d.Heeds env.base.options.overrides := by
  intro d hd
  rcases linkDeclarations_eq_error h with ⟨path, rfl⟩ | ⟨u, hunit, rfl, -⟩
  · rw [List.mem_singleton.1 hd]
    exact .inl rfl
  · right
    rw [← options_of_unitOf hunit]
    exact Overrides.honours_of_mem (List.mem_of_mem_filter hd)

/-- What is reported with generated files. -/
theorem heeds_generate (env : Environment) (sink : StatusSink) (files : List SourceFile) :
    ∀ d ∈ (env.generate sink files).value.flatMap (·.diagnostics),
      d.Heeds env.base.options.overrides := by
  intro d hd
  obtain ⟨f, hf, hd⟩ := List.mem_flatMap.1 hd
  rcases generate_cases env sink files with h | h | h | ⟨ds, hlinked, h⟩ | ⟨reference, h⟩
  all_goals rw [h] at hf
  · cases hf
  · rw [List.mem_singleton.1 hf] at hd
    obtain ⟨path, -, rfl⟩ := List.mem_map.1 hd
    exact .inl rfl
  · rw [List.mem_singleton.1 hf] at hd
    obtain ⟨f, hf, hd⟩ := List.mem_flatMap.1 hd
    exact .inl (Diagnostic.isOutside_of_template (code_of_mem_declared hf d hd))
  · rw [List.mem_singleton.1 hf] at hd
    exact heeds_linkDeclarations hlinked d hd
  · exact .inl (Diagnostic.isOutside_of_template (code_of_mem_completed hf d hd))

end Environment

/-! ## Assemblies -/

/-- The diagnostics of units are reported as the overrides want it, and there is an image only without
errors. -/
structure Assembly.Heeds (o : Overrides) (a : Assembly) : Prop where
  diagnostics : ∀ d ∈ a.diagnostics, d.Heeds o
  image : Diagnostic.hasErrors a.diagnostics = true → a.image = none

namespace Environment

variable {env : Environment}

theorem heeds_link {g : Generator} {generated : List GeneratedFile} {a : Assembly}
    (hg : ∀ d ∈ generated.flatMap (·.diagnostics), d.Heeds env.base.options.overrides)
    (h : (env.link g generated).value = .ok a) : a.Heeds env.base.options.overrides := by
  rw [link] at h
  dsimp only at h
  split at h
  · cases h
    exact ⟨hg, fun _ => rfl⟩
  next hclean =>
  rw [Logged.value_bind] at h
  cases hunit : (env.unitOf generated).run.value with
  | error path =>
    rw [hunit] at h
    cases h
  | ok u =>
    rw [hunit] at h
    dsimp only at h
    have hproblems : ∀ d ∈ u.diagnostics.filter (·.isProblem) ++ generated.flatMap (·.diagnostics),
        d.Heeds env.base.options.overrides := by
      refine List.forall_mem_append.2 ⟨fun d hd => ?_, hg⟩
      rw [← options_of_unitOf hunit]
      exact .inr (Overrides.honours_of_mem (List.mem_of_mem_filter hd))
    split at h
    · cases h
      exact ⟨hproblems, fun _ => rfl⟩
    next hnone =>
    rw [Logged.value_bind] at h
    cases himage : (u.emit g).value with
    | error e =>
      rw [himage] at h
      cases h
    | ok image =>
      rw [himage] at h
      cases h
      refine ⟨hproblems, fun herror => ?_⟩
      rw [Analysis.hasErrors_append] at herror
      simp [hclean, hnone] at herror

end Environment

namespace Service

variable {shared : Option Environment} {env : Environment} {s : Service}

/-- The states of a service that answers requests with `env`. It starts with nothing remembered;
`shared` is the environment of the process. -/
inductive Serves (shared : Option Environment) (env : Environment) : Service → Prop where
  | start {s : Service} : s.environment.or shared = some env → s.slot = none → Serves shared env s
  | compile {s : Service} (g : Generator) (sink : StatusSink) (files : List SourceFile) :
      Serves shared env s → Serves shared env (s.compile shared g sink files).value.2
  | clear {s : Service} : Serves shared env s → Serves shared env s.clear.value

/-- The service answers with `env`, and so did it with what it remembers. -/
structure Faithful (shared : Option Environment) (env : Environment) (s : Service) : Prop where
  environment : s.environment.or shared = some env
  slot : ∀ e ∈ s.slot, e.assembly.Heeds env.base.options.overrides

theorem heeds_run {g : Generator} {sink : StatusSink} {files : List SourceFile} {a : Assembly}
    (h : (run env g sink files).value = .ok a) : a.Heeds env.base.options.overrides := by
  rw [run, Logged.value_bind, Logged.value_bind] at h
  exact Environment.heeds_link (env.heeds_generate sink files) h

/-- One request: the answer heeds the overrides, remembered or not, and so does what is remembered
then. -/
theorem Faithful.compile (h : s.Faithful shared env) (g : Generator) (sink : StatusSink)
    (files : List SourceFile) :
    (s.compile shared g sink files).value.2.Faithful shared env ∧
      ∀ a, (s.compile shared g sink files).value.1 = .ok a → a.Heeds env.base.options.overrides := by
  rw [Service.compile]
  cases hlookup : s.lookup? (Fingerprint.ofFiles files) with
  | some assembly =>
    refine ⟨⟨h.environment, h.slot⟩, ?_⟩
    rintro a ⟨⟩
    obtain ⟨e, he, hkey⟩ := Option.bind_eq_some_iff.1 hlookup
    split at hkey
    · cases hkey
      exact h.slot e he
    · cases hkey
  | none =>
    rw [h.environment]
    have heeds : ∀ a, (run env g sink files).value = .ok a → a.Heeds env.base.options.overrides :=
      fun a => heeds_run
    simp only [Logged.value_bind]
    generalize (run env g sink files).value = answer at heeds
    cases answer with
    | ok assembly =>
      refine ⟨⟨rfl, ?_⟩, ?_⟩
      · rintro e ⟨⟩
        exact heeds assembly rfl
      · rintro a ⟨⟩
        exact heeds assembly rfl
    | error e =>
      have hfails : ({ s with environment := some env, misses := s.misses + 1 } : Service).Faithful
          shared env := ⟨rfl, h.slot⟩
      split
      · exact ⟨hfails, by simp⟩
      · rw [Logged.value_bind]
        exact ⟨hfails, by simp⟩
      · next heq => cases heq

theorem Serves.faithful (h : Serves shared env s) : s.Faithful shared env := by
  induction h with
  | start henv hslot => exact ⟨henv, by simp [hslot]⟩
  | compile g sink files _ ih => exact (ih.compile g sink files).1
  | clear _ ih => exact ⟨ih.environment, by rintro e ⟨⟩⟩

/-- All assemblies of an environment that was built, whether its files are generated and linked or a
service answers with them, now or from what it remembers: the diagnostics of units are reported as
the overrides of the environment want it, and with an error there is no image. -/
theorem assembly_heeds {g : Generator} {c : Catalog} {o : EnvironmentOptions}
    (hbuild : (Environment.build g c o).run.value = .ok env) :
    (∀ (g' : Generator) (sink : StatusSink) (files : List SourceFile) (a : Assembly),
        (env.link g' (env.generate sink files).value).value = .ok a → a.Heeds env.options.overrides)
      ∧ ∀ (shared : Option Environment) (s : Service), Serves shared env s →
        ∀ (g' : Generator) (sink : StatusSink) (files : List SourceFile) (a : Assembly),
          (s.compile shared g' sink files).value.1 = .ok a → a.Heeds env.options.overrides := by
  have hoverrides : env.options.overrides = env.base.options.overrides := by
    rw [(Environment.built_of_build hbuild).base]
    rfl
  rw [hoverrides]
  refine ⟨fun g' sink files a h => ?_, fun shared s hs g' sink files => ?_⟩
  · exact Environment.heeds_link (env.heeds_generate sink files) h
  · exact (hs.faithful.compile g' sink files).2

/-! ### A field that is never read -/

def strictOptions : EnvironmentOptions where
  roots := []
  project := { rootNamespace := "App", imports := [], boilerplate := []
               overrides := [("IL3001", .error), ("IL4001", .suppress)] }

def strictEnvironment : Environment :=
  (Environment.build {} (.ofList []) strictOptions).run.value.toOption.getD default

theorem build_strictEnvironment :
    (Environment.build {} (.ofList []) strictOptions).run.value = .ok strictEnvironment := by
  have h : (Environment.build {} (.ofList []) strictOptions).run.value.toOption.isSome = true := by
    decide +kernel
  rw [strictEnvironment]
  cases hb : (Environment.build {} (.ofList []) strictOptions).run.value with
  | ok env => rfl
  | error e =>
    rw [hb] at h
    cases h

/-- A template with a using that does nothing and a field that is never read. -/
def strictFiles : List SourceFile := [
  { path := "Page.view", content := "@using App\n<p>Hi</p>\n@code { field int Count = 1; }"
    kind := .template }]

def strictAnswer : Except PipelineError Assembly × Service :=
  (Service.compile { environment := some strictEnvironment } none {} .none strictFiles).value

/-- The report about the using is dropped and that about the field is an error, so there is no
image. -/
theorem assembly_heeds_strict :
    (Environment.build {} (.ofList []) strictOptions).run.value = .ok strictEnvironment
      ∧ Serves none strictEnvironment { environment := some strictEnvironment }
      ∧ ∃ a, strictAnswer.1 = .ok a
        ∧ a.diagnostics.map (fun d => (d.code, d.severity)) = [(("IL3001" : Bytes), Severity.error)]
        ∧ a.image = none ∧ a.Heeds strictEnvironment.options.overrides := by
  have hserves : Serves none strictEnvironment { environment := some strictEnvironment } := .start rfl rfl
  have hcodes : strictAnswer.1.toOption.map (fun a => a.diagnostics.map fun d => (d.code, d.severity))
      = some [(("IL3001" : Bytes), Severity.error)] := by
    rw [strictAnswer, strictFiles]
    repeat rw [Bytes.ofString_ofList]
    decide +kernel
  refine ⟨build_strictEnvironment, hserves, ?_⟩
  cases hanswer : strictAnswer.1 with
  | error e =>
    rw [hanswer] at hcodes
    cases hcodes
  | ok a =>
    rw [hanswer] at hcodes
    have hheeds := (assembly_heeds build_strictEnvironment).2 none _ hserves {} .none strictFiles a hanswer
    have hdiagnostics := Option.some.inj hcodes
    refine ⟨a, rfl, hdiagnostics, hheeds.image ?_, hheeds⟩
    obtain ⟨d, hd, hcode⟩ := List.mem_map.1 (hdiagnostics ▸ List.mem_singleton_self _)
    exact List.any_eq_true.2 ⟨d, hd, by simp [Diagnostic.isError, (Prod.mk.inj hcode).2]⟩

end Service

end ViewCompiler
