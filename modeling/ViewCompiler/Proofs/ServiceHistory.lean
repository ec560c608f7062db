import Mathlib.Data.List.Induction
import ViewCompiler.Proofs.BitwiseChecksum
import ViewCompiler.Proofs.DeclarationPass
import ViewCompiler.Proofs.LinkedImage
import ViewCompiler.Proofs.QuietSteps

/-!
A service over its whole life. What a service remembers is told by the calls that it has answered
(`Service.lastAnswered`): each call keeps that so (`Service.Tracks`), whether it is answered from what
is remembered, with work or not at all. So as long as fingerprints tell requests apart, nobody sees
from an answer what was asked before (`Service.compile_after`).
-/

namespace ViewCompiler

namespace Service

/-! ## Calls -/

/-- A call of a service. -/
inductive Call where
  | compile (sink : StatusSink) (files : List SourceFile)
  | clear

/-- The files of a call that asks for an assembly. -/
def Call.request? : Call → Option (List SourceFile)
  | compile _ files => some files
  | clear => none

/-- The requests among calls, in order. -/
def requests (calls : List Call) : List (List SourceFile) := calls.filterMap Call.request?

/-- The service after a call. -/
def step (shared : Option Environment) (g : Generator) (s : Service) : Call → Service
  | .compile sink files => (s.compile shared g sink files).value.2
  | .clear => s.clear.value

/-- The service after calls. -/
def after (shared : Option Environment) (g : Generator) (s : Service) (calls : List Call) : Service :=
  calls.foldl (step shared g) s

/-- Files that are translated and linked. -/
def answer (env : Environment) (g : Generator) (files : List SourceFile) :
    Except PipelineError Assembly := (env.link g (env.generate .none files).value).value

/-- The request of a call and the assembly that answers it, if there is one. -/
def answered? (env : Environment) (g : Generator) (call : Call) : Option CacheSlot :=
  call.request?.bind fun files =>
    (answer env g files).toOption.map fun assembly => { key := .ofFiles files, assembly }

/-- The last request since the last clearing that is answered by an assembly. -/
def lastAnswered (env : Environment) (g : Generator) (calls : List Call) : Option CacheSlot :=
  (calls.reverse.takeWhile fun call => call.request?.isSome).findSome? (answered? env g)

variable {shared : Option Environment} {env : Environment} {g : Generator} {s : Service}
  {calls : List Call} {sink : StatusSink} {files : List SourceFile}

theorem lastAnswered_clear : lastAnswered env g (calls ++ [Call.clear]) = none := by
  simp [lastAnswered, Call.request?]

theorem lastAnswered_compile (env : Environment) (g : Generator) (calls : List Call)
    (sink : StatusSink) (files : List SourceFile) :
    lastAnswered env g (calls ++ [Call.compile sink files]) = match answer env g files with
    | .ok assembly => some { key := .ofFiles files, assembly }
    | .error _ => lastAnswered env g calls := by
  simp only [lastAnswered, List.reverse_append, List.reverse_singleton, List.singleton_append,
    List.takeWhile_cons, Call.request?, Option.isSome_some, if_true, List.findSome?_cons, answered?,
    Option.bind_some]
  cases answer env g files <;> rfl

/-- What was answered last was asked for. -/
theorem exists_of_lastAnswered {e : CacheSlot} (h : lastAnswered env g calls = some e) :
    ∃ files ∈ requests calls, e.key = .ofFiles files ∧ answer env g files = .ok e.assembly := by
  obtain ⟨call, hcall, hanswered⟩ := List.exists_of_findSome?_eq_some h
  obtain ⟨files, hfiles, hassembly⟩ := Option.bind_eq_some_iff.1 hanswered
  obtain ⟨assembly, hanswer, rfl⟩ := Option.map_eq_some_iff.1 hassembly
  have hmem := List.mem_reverse.1 ((List.takeWhile_prefix _).mem hcall)
  refine ⟨files, List.mem_filterMap.2 ⟨call, hmem, hfiles⟩, rfl, ?_⟩
  cases hvalue : answer env g files with
  | ok a =>
    rw [hvalue] at hanswer
    cases hanswer
    rfl
  | error e =>
    rw [hvalue] at hanswer
    cases hanswer

/-! ## One call -/

/-- Different requests have different fingerprints. -/
def Distinct (requests : List (List SourceFile)) : Prop :=
  ∀ files ∈ requests, ∀ files' ∈ requests,
    Fingerprint.ofFiles files = Fingerprint.ofFiles files' → files = files'

/-- The state of a service with environment `env` that has answered these calls. -/
structure Tracks (env : Environment) (g : Generator) (calls : List Call) (s : Service) : Prop where
  environment : s.environment = some env
  slot : s.slot = lastAnswered env g calls
  count : s.hits + s.misses = (requests calls).length

/-- What a call of a service is answered with: `out` is the answer, with all that happens on the
way. -/
structure Answers (env : Environment) (g : Generator) (s : Service) (sink : StatusSink)
    (files : List SourceFile) (out : Logged (Except PipelineError Assembly × Service)) : Prop where
  answer : out.value.1 = (env.link g (env.generate sink files).value).value
  lowered : ∀ e, out.value.1 ≠ .error (.emit (.lowering e))
  hit : (s.lookup? (.ofFiles files)).isSome → out.status = [] ∧
    out.records = [{ level := .debug, tag := "cache"
                     message := "Cache hit for " ++ requestText files (.ofFiles files) }]
  prepared : s.lookup? (.ofFiles files) = none →
    (files ≠ [] ∧ ∃ reference, env.Declares files reference) →
    out.status = sink.told [preparingProject, compilingAssembly]
  unprepared : s.lookup? (.ofFiles files) = none →
    ¬ (files ≠ [] ∧ ∃ reference, env.Declares files reference) →
    out.status = sink.told [compilingAssembly]
  failed : ∀ e, out.value.1 = .error e → out.value.2.slot = s.slot

theorem value_run_eq (env : Environment) (g : Generator) (sink : StatusSink)
    (files : List SourceFile) : (run env g sink files).value = answer env g files := by
  rw [value_run, env.value_generate_congr sink .none, answer]

theorem requests_compile : requests (calls ++ [Call.compile sink files]) = requests calls ++ [files] :=
  List.filterMap_append

theorem requests_clear : requests (calls ++ [Call.clear]) = requests calls := by
  rw [requests, List.filterMap_append]
  exact List.append_nil _

/-- The service remembers the answer to these files. -/
theorem lookup?_eq_some {assembly : Assembly} (h : s.lookup? (.ofFiles files) = some assembly) :
    s.slot = some { key := .ofFiles files, assembly } := by
  obtain ⟨e, he, hkey⟩ := Option.bind_eq_some_iff.1 h
  split at hkey
  · next hsame =>
    cases hkey
    rw [he, ← hsame]
  · cases hkey

namespace Tracks

/-- A call that is answered from what is remembered. -/
theorem compile_hit (shared : Option Environment) (sink : StatusSink) (h : s.Tracks env g calls)
    (hdistinct : Distinct (requests calls ++ [files]))
    {assembly : Assembly} (hlookup : s.lookup? (.ofFiles files) = some assembly) :
    answer env g files = .ok assembly ∧
      s.compile shared g sink files =
        { value := (.ok assembly, { s with hits := s.hits + 1 })
          records := [{ level := .debug, tag := "cache"
                        message := "Cache hit for " ++ requestText files (.ofFiles files) }] } := by
  have hslot := lookup?_eq_some hlookup
  rw [h.slot] at hslot
  obtain ⟨files', hmem, hkey, hanswer⟩ := exists_of_lastAnswered hslot
  obtain rfl : files = files' := hdistinct files (List.mem_append_right _ List.mem_cons_self) files'
    (List.mem_append_left _ hmem) hkey
  refine ⟨hanswer, ?_⟩
  rw [Service.compile, hlookup]
  rfl

/-- A call that takes work. -/
theorem compile_miss (shared : Option Environment) (sink : StatusSink) (h : s.Tracks env g calls)
    (hlookup : s.lookup? (.ofFiles files) = none) :
    (s.compile shared g sink files).status = (run env g sink files).status ∧
      (s.compile shared g sink files).value = match answer env g files with
        | .ok assembly =>
          (.ok assembly, { s with environment := some env, misses := s.misses + 1
                                  slot := some { key := .ofFiles files, assembly } })
        | .error e => (.error e, { s with environment := some env, misses := s.misses + 1 }) := by
  rw [Service.compile, hlookup, h.environment, ← value_run_eq env g sink files]
  simp only [Option.some_or, Logged.status_bind, Logged.value_bind]
  cases (run env g sink files).value with
  | ok assembly => exact ⟨List.append_nil _, rfl⟩
  | error e =>
    split
    · next heq =>
      cases heq
      exact ⟨List.append_nil _, rfl⟩
    · next heq =>
      cases heq
      exact ⟨List.append_nil _, rfl⟩
    · next heq => cases heq

theorem answers_hit (h : s.Tracks env g calls) (hdistinct : Distinct (requests calls ++ [files]))
    {assembly : Assembly} (hlookup : s.lookup? (.ofFiles files) = some assembly) :
    Answers env g s sink files (s.compile shared g sink files) ∧
      Tracks env g (calls ++ [Call.compile sink files]) (s.compile shared g sink files).value.2 := by
  obtain ⟨hanswer, hcompile⟩ := compile_hit shared sink h hdistinct hlookup
  have hvalue : (env.link g (env.generate sink files).value).value = answer env g files :=
    value_run_eq env g sink files
  rw [hcompile]
  constructor
  · refine ⟨?_, by simp, fun _ => ⟨rfl, rfl⟩, by simp [hlookup], by simp [hlookup], by simp⟩
    rw [hvalue, hanswer]
  · refine ⟨h.environment, ?_, ?_⟩
    · rw [lastAnswered_compile, hanswer]
      exact lookup?_eq_some hlookup
    · rw [requests_compile, List.length_append, ← h.count]
      show s.hits + 1 + s.misses = s.hits + s.misses + 1
      omega

theorem answers_miss (h : s.Tracks env g calls)
    (hlowered : ∀ e, answer env g files ≠ .error (.emit (.lowering e)))
    (hlookup : s.lookup? (.ofFiles files) = none) :
    Answers env g s sink files (s.compile shared g sink files) ∧
      Tracks env g (calls ++ [Call.compile sink files]) (s.compile shared g sink files).value.2 := by
  obtain ⟨hstatus, hcompile⟩ := compile_miss shared sink h hlookup
  have hvalue : (env.link g (env.generate sink files).value).value = answer env g files :=
    value_run_eq env g sink files
  have hprepared (hp : files ≠ [] ∧ ∃ reference, env.Declares files reference) :
      (s.compile shared g sink files).status = sink.told [preparingProject, compilingAssembly] := by
    obtain ⟨hnil, reference, hdeclares⟩ := hp
    rw [hstatus, status_run, Environment.status_generate_of_declares hnil hdeclares,
      ← sink.told_append]
    rfl
  have hunprepared (hp : ¬ (files ≠ [] ∧ ∃ reference, env.Declares files reference)) :
      (s.compile shared g sink files).status = sink.told [compilingAssembly] := by
    rw [hstatus, status_run, Environment.status_generate_of_not_declares (by tauto)]
    rfl
  have hcount : s.hits + (s.misses + 1) = (requests (calls ++ [Call.compile sink files])).length := by
    rw [requests_compile, List.length_append, ← h.count]
    rfl
  have hlast := lastAnswered_compile env g calls sink files
  cases hanswer : answer env g files with
  | ok assembly =>
    rw [hanswer] at hcompile hlast hvalue
    constructor
    · refine ⟨?_, ?_, by simp [hlookup], fun _ => hprepared, fun _ => hunprepared, ?_⟩
      · rw [hcompile, hvalue]
      · simp [hcompile]
      · simp [hcompile]
    · rw [hcompile]
      exact ⟨rfl, hlast.symm, hcount⟩
  | error e =>
    rw [hanswer] at hcompile hlast hvalue hlowered
    constructor
    · refine ⟨?_, ?_, by simp [hlookup], fun _ => hprepared, fun _ => hunprepared, ?_⟩
      · rw [hcompile, hvalue]
      · rw [hcompile]
        exact hlowered
      · intro _ _
        rw [hcompile]
    · rw [hcompile]
      exact ⟨rfl, h.slot.trans hlast.symm, hcount⟩

/-- Each call is answered as if it was the first, and is told by the state of the service. -/
theorem compile (shared : Option Environment) (sink : StatusSink) (h : s.Tracks env g calls)
    (hdistinct : Distinct (requests calls ++ [files]))
    (hlowered : ∀ e, answer env g files ≠ .error (.emit (.lowering e))) :
    Answers env g s sink files (s.compile shared g sink files) ∧
      Tracks env g (calls ++ [Call.compile sink files]) (s.compile shared g sink files).value.2 := by
  cases hlookup : s.lookup? (.ofFiles files) with
  | some assembly => exact h.answers_hit hdistinct hlookup
  | none => exact h.answers_miss hlowered hlookup

theorem clear (h : s.Tracks env g calls) : Tracks env g (calls ++ [Call.clear]) s.clear.value where
  environment := h.environment
  slot := lastAnswered_clear.symm
  count := by
    rw [requests_clear]
    exact h.count

end Tracks

/-! ## All calls -/

theorem Distinct.mono {requests requests' : List (List SourceFile)} (h : Distinct requests')
    (hsubset : requests ⊆ requests') : Distinct requests :=
  fun files hfiles files' hfiles' => h files (hsubset hfiles) files' (hsubset hfiles')

/-- Whatever was called, the service remembers what was answered last. -/
theorem tracks_after (hlowered : ∀ files e, answer env g files ≠ .error (.emit (.lowering e)))
    (hdistinct : Distinct (requests calls)) :
    (after shared g { environment := some env } calls).Tracks env g calls := by
  induction calls using List.reverseRecOn with
  | nil => exact ⟨rfl, rfl, rfl⟩
  | append_singleton calls call ih =>
    rw [after, List.foldl_append]
    cases call with
    | compile sink files =>
      rw [requests_compile] at hdistinct
      have h := ih (hdistinct.mono (List.subset_append_left _ _))
      exact (h.compile shared sink hdistinct (hlowered files)).2
    | clear =>
      rw [requests_clear] at hdistinct
      exact (ih hdistinct).clear

open Environment in
/-- In an environment that was built, code that was reported without errors is lowered. -/
theorem answer_ne_lowering {g₀ : Generator} {c : Catalog} {o : EnvironmentOptions}
    (hbuild : (build g₀ c o).run.value = .ok env)
    (hkeep : env.options.overrides.Uphold Diagnostic.errorCodes) (frontEnd : FrontEnd) (g : Generator)
    (files : List SourceFile) (e : Code.LoweringError) :
    answer { env with frontEnd } g files ≠ .error (.emit (.lowering e)) := by
  have hanswer := linkAnswer hbuild hkeep frontEnd g (generate { env with frontEnd } .none files).value
  intro h
  rw [answer] at h
  rw [h] at hanswer
  cases hanswer with
  | failed _ _ _ _ hfailed => exact g.answer_ne_lowering _ _ _ hfailed

open Environment in
/-- A service in an environment that was built, also with a front end whose files cannot be compiled,
after any calls whose requests have different fingerprints. It remembers the last answer since it was
cleared, it has counted the requests, and it answers the next one as if it was the first, whoever is
told of the steps. -/
theorem compile_after {g₀ : Generator} {c : Catalog} {o : EnvironmentOptions}
    (hbuild : (build g₀ c o).run.value = .ok env)
    (hkeep : env.options.overrides.Uphold Diagnostic.errorCodes) (frontEnd : FrontEnd)
    (shared : Option Environment) (g : Generator) {calls : List Call}
    (hdistinct : Distinct (requests calls)) :
    let env := { env with frontEnd }
    let fresh : Service := { environment := some env }
    ∀ before rest, calls = before ++ rest →
      let s := after shared g fresh before
      s.slot = lastAnswered env g before ∧ s.hits + s.misses = (requests before).length ∧
        ∀ sink files rest', rest = .compile sink files :: rest' →
          Answers env g s sink files (s.compile shared g sink files) ∧
            ∀ sink', (s.compile shared g sink files).value.1 =
              (fresh.compile shared g sink' files).value.1 := by
  intro env' fresh before rest hcalls s
  have hlowered := answer_ne_lowering hbuild hkeep frontEnd g
  rw [hcalls, requests, List.filterMap_append] at hdistinct
  have htracks : s.Tracks env' g before :=
    tracks_after hlowered (hdistinct.mono (List.subset_append_left _ _))
  refine ⟨htracks.slot, htracks.count, ?_⟩
  rintro sink files rest' rfl
  have hfiles : requests before ++ [files] ⊆ requests before ++
      (Call.compile sink files :: rest').filterMap Call.request? :=
    List.append_subset.2 ⟨List.subset_append_left _ _, by simp [Call.request?]⟩
  have hanswers := (htracks.compile shared sink (hdistinct.mono hfiles) (hlowered files)).1
  refine ⟨hanswers, fun sink' => ?_⟩
  have hfresh : Tracks env' g [] fresh := ⟨rfl, rfl, rfl⟩
  have hfirst : Distinct ([] ++ [files]) := by simp [Distinct]
  rw [hanswers.answer, (hfresh.compile shared sink' hfirst (hlowered files)).1.answer,
    Environment.value_generate_congr _ sink sink']

/-- A template without code. -/
def noteFile : SourceFile where
  path := "Note.view"
  content := "<p>Note</p>"
  kind := .template

/-- The same request twice, the second time with a sink that fails, and none after clearing. -/
def noteCalls : List Call :=
  [.compile .listener [noteFile], .compile (.failing none) [noteFile], .clear, .compile .logger []]

/-- The second call is answered as a first one, and the third forgets that. -/
theorem compile_after_note :
    let fresh : Service := { environment := some Environment.bareEnvironment }
    (Environment.build {} (.ofList []) Environment.bareOptions).run.value =
        .ok Environment.bareEnvironment ∧
      Environment.bareEnvironment.options.overrides.Uphold Diagnostic.errorCodes ∧
      Distinct (requests noteCalls) ∧
      ((after none {} fresh (noteCalls.take 1)).compile none {} (.failing none) [noteFile]).value.1 =
        (fresh.compile none {} .listener [noteFile]).value.1 ∧
      (after none {} fresh (noteCalls.take 3)).slot = none ∧
      (after none {} fresh (noteCalls.take 3)).hits
        + (after none {} fresh (noteCalls.take 3)).misses = 2 := by
  intro fresh
  have hkeep : Environment.bareEnvironment.options.overrides.Uphold Diagnostic.errorCodes :=
    Overrides.uphold_nil _
  have hne : Fingerprint.ofFiles [noteFile] ≠ Fingerprint.ofFiles [] := by
    -- bit by bit, since computing with the table means to fill it first
    simp only [Fingerprint.ofFiles, Fingerprint.absorbFiles, Fingerprint.absorbFile,
      Fingerprint.absorbText, Checksum.crc32c, Checksum.finish_updateAll_start]
    decide +kernel
  have hrequests : requests noteCalls = [[noteFile], [noteFile], []] := rfl
  have hdistinct : Distinct (requests noteCalls) := by
    rw [Distinct, hrequests]
    simp [hne, hne.symm]
  have hafter := compile_after Environment.build_bareEnvironment hkeep .il none {} hdistinct
  obtain ⟨-, -, hanswers⟩ := hafter (noteCalls.take 1) (noteCalls.drop 1) rfl
  obtain ⟨hslot, hcount, -⟩ := hafter (noteCalls.take 3) (noteCalls.drop 3) rfl
  refine ⟨Environment.build_bareEnvironment, hkeep, hdistinct, ?_, ?_, hcount⟩
  · exact (hanswers (.failing none) [noteFile] (noteCalls.drop 2) rfl).2 .listener
  · exact hslot.trans rfl

end Service

end ViewCompiler
