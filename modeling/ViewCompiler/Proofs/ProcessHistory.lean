import ViewCompiler.Proofs.ServiceHistory

/-!
A process over its whole life: its environment is asked for and looked at, and services that were
made without one are called. What a process has is told by the first of its attempts to build an
environment (`Process.Tracks`): each event keeps that so, whichever service is called and whatever
comes of later attempts. A service is refused until there is an environment, and then it cannot be
told from one that was made with it (`Process.written_once`).
-/

namespace ViewCompiler

/-! ## A service that waits for its environment -/

namespace Service

variable {env : Environment} {g : Generator} {calls : List Call} {s : Service}

/-- A service that was made with its environment, after calls. -/
def made (env : Environment) (g : Generator) (calls : List Call) : Service :=
  after none g { environment := some env } calls

/-- After these calls the service is like one that was made with the environment, but as long as it
was not asked for an assembly, it has yet to take the environment. -/
inductive Awaits (env : Environment) (g : Generator) (calls : List Call) : Service → Prop where
  | bound : Awaits env g calls (made env g calls)
  | unbound : requests calls = [] → (made env g calls).slot = none →
    Awaits env g calls { made env g calls with environment := none }

/-- The answer of a service that finds no environment changes nothing. -/
theorem compile_of_unbound (henv : s.environment = none) (hslot : s.slot = none) (g : Generator)
    (sink : StatusSink) (files : List SourceFile) :
    s.compile none g sink files = { value := (.error .notInitialized, s) } := by
  rw [compile, lookup?, hslot, henv]
  rfl

/-- A service that remembers nothing takes the environment that it is offered. -/
theorem compile_of_offered (henv : s.environment = some env) (hslot : s.slot = none)
    (shared : Option Environment) (g : Generator) (sink : StatusSink) (files : List SourceFile) :
    ({ s with environment := none } : Service).compile (some env) g sink files =
      s.compile shared g sink files := by
  rw [compile, compile, lookup?, lookup?, hslot, henv]
  rfl

/-- A service keeps its environment when it is called. -/
theorem environment_step (henv : s.environment = some env) (shared : Option Environment)
    (g : Generator) (call : Call) : (s.step shared g call).environment = some env := by
  cases call with
  | clear => exact henv
  | compile sink files =>
    rw [step, compile, henv]
    cases s.lookup? (.ofFiles files) with
    | some assembly => rfl
    | none =>
      dsimp only [Option.some_or, Logged.value_bind]
      split <;> rfl

theorem made_append (calls : List Call) (call : Call) :
    made env g (calls ++ [call]) = (made env g calls).step none g call := List.foldl_append ..

theorem environment_made (calls : List Call) : (made env g calls).environment = some env := by
  induction calls using List.reverseRecOn with
  | nil => rfl
  | append_singleton calls call ih =>
    rw [made_append]
    exact environment_step ih none g call

namespace Awaits

/-- A service that was asked for an assembly has taken the environment. -/
theorem environment (h : Awaits env g calls s) (hrequests : requests calls ≠ []) :
    s.environment = some env := by
  cases h with
  | bound => exact environment_made calls
  | unbound hnil _ => exact absurd hnil hrequests

/-- Both services answer alike, and are the same from then on. -/
theorem compile_eq (h : Awaits env g calls s) (sink : StatusSink) (files : List SourceFile) :
    s.compile (some env) g sink files = (made env g calls).compile none g sink files := by
  have henv : (made env g calls).environment = some env := environment_made calls
  cases h with
  | bound =>
    rw [compile, compile, henv]
    rfl
  | unbound _ hslot => exact compile_of_offered henv hslot none g sink files

/-- Each call keeps the two services alike. -/
theorem step (h : Awaits env g calls s) (call : Call) :
    Awaits env g (calls ++ [call]) (s.step (some env) g call) := by
  cases call with
  | compile sink files =>
    have hsame : s.step (some env) g (.compile sink files) =
        made env g (calls ++ [Call.compile sink files]) := by
      rw [made_append]
      exact congrArg (fun out => out.value.2) (h.compile_eq sink files)
    rw [hsame]
    exact .bound
  | clear =>
    have hmade : made env g (calls ++ [Call.clear]) = { made env g calls with slot := none } :=
      made_append calls .clear
    cases h with
    | bound =>
      have hsame : (made env g calls).step (some env) g .clear = made env g (calls ++ [Call.clear]) :=
        (made_append calls .clear).symm
      rw [hsame]
      exact .bound
    | unbound hnil _ =>
      have hsame : ({ made env g calls with environment := none } : Service).step (some env) g .clear =
          { made env g (calls ++ [Call.clear]) with environment := none } := by
        rw [hmade]
        rfl
      rw [hsame]
      exact .unbound (requests_clear.trans hnil) (by rw [hmade])

end Awaits

end Service

/-! ## Events of a process -/

/-- A process with services that were made without an environment. Making one does nothing, so all
that will ever be called are there from the start. -/
structure Process where
  state : ProcessState := {}
  services : Nat → Service := fun _ => {}

namespace Process

/-- What happens in a process: the environment is to be built, it is looked at, or a service is
called. -/
inductive Event where
  | init (options : EnvironmentOptions)
  | current
  | call (service : Nat) (call : Service.Call)

/-- The options of an event that asks for the environment to be built. -/
def Event.options? : Event → Option EnvironmentOptions
  | init options => some options
  | current => none
  | call .. => none

/-- The call that an event makes of a service. -/
def Event.callOf? (i : Nat) : Event → Option Service.Call
  | call j made => if j = i then some made else none
  | init _ => none
  | current => none

/-- The process after an event. -/
def step (g : Generator) (p : Process) : Event → Process
  | .init options => { p with state := (p.state.init g options).value.2 }
  | .current => p
  | .call i call =>
    { p with services := Function.update p.services i
                ((p.services i).step p.state.environment g call) }

/-- The process after events. -/
def after (g : Generator) (events : List Event) : Process := events.foldl (step g) {}

/-- What building the environment with these options gives. -/
def outcome (g : Generator) (options : EnvironmentOptions) : Except BuildError Environment :=
  (Environment.build g .builtin options).run.value

/-- The options of the first attempt to build the environment. -/
def firstOptions? (events : List Event) : Option EnvironmentOptions :=
  events.findSome? Event.options?

/-- The environment that the first attempt has built. -/
def built? (g : Generator) (events : List Event) : Option Environment :=
  (firstOptions? events).bind fun options => (outcome g options).toOption

/-- The calls of a service since the first attempt to build the environment. -/
def calls (i : Nat) (events : List Event) : List Service.Call :=
  (events.dropWhile (·.options?.isNone)).filterMap (Event.callOf? i)

variable {g : Generator} {events : List Event} {p : Process} {env : Environment}

/-- The first attempt stays the first. -/
theorem firstOptions?_append (before rest : List Event) :
    firstOptions? (before ++ rest) = (firstOptions? before).or (firstOptions? rest) :=
  List.findSome?_append

theorem firstOptions?_append_of_options? (events : List Event) {event : Event}
    (h : event.options? = none) : firstOptions? (events ++ [event]) = firstOptions? events := by
  have hnone : firstOptions? [event] = none := by rw [firstOptions?, List.findSome?_singleton, h]
  rw [firstOptions?_append, hnone, Option.or_none]

/-- An environment that was built stays. -/
theorem built?_append (h : built? g events = some env) (rest : List Event) :
    built? g (events ++ rest) = some env := by
  obtain ⟨options, hoptions, henv⟩ := Option.bind_eq_some_iff.1 h
  rw [built?, firstOptions?_append, hoptions]
  exact henv

/-- Before the first attempt, no call counts. -/
theorem calls_init (h : firstOptions? events = none) (options : EnvironmentOptions) (i : Nat) :
    calls i (events ++ [Event.init options]) = [] := by
  rw [firstOptions?, List.findSome?_eq_none_iff] at h
  have hnone : events.dropWhile (·.options?.isNone) = [] :=
    List.dropWhile_eq_nil_iff.2 fun e he => Option.isNone_iff_eq_none.2 (h e he)
  rw [calls, List.dropWhile_append, hnone, List.isEmpty_nil, if_pos rfl]
  rfl

/-- After the first attempt, every call counts. -/
theorem calls_append {options : EnvironmentOptions} (h : firstOptions? events = some options)
    (i : Nat) (event : Event) :
    calls i (events ++ [event]) = calls i events ++ (event.callOf? i).toList := by
  have hne : events.dropWhile (·.options?.isNone) ≠ [] := by
    intro hnil
    obtain ⟨e, he, hoptions⟩ := List.exists_of_findSome?_eq_some h
    have hnone := List.dropWhile_eq_nil_iff.1 hnil e he
    rw [hoptions] at hnone
    cases hnone
  rw [calls, List.dropWhile_append, if_neg (by simpa using hne), List.filterMap_append, ← calls]
  cases h : event.callOf? i with
  | none => simp [h]
  | some call => simp [h]

/-! ## One event -/

/-- What there is in a process after these events. -/
structure Tracks (g : Generator) (events : List Event) (p : Process) : Prop where
  built : p.state.built = (firstOptions? events).map (outcome g)
  idle : built? g events = none → ∀ i, p.services i = {}
  awaits : ∀ env, built? g events = some env → ∀ i,
    Service.Awaits env g (calls i events) (p.services i)

end Process

/-- The environment of a process is what was built, if that succeeded. -/
theorem ProcessState.environment_eq (p : ProcessState) :
    p.environment = p.built.bind Except.toOption := by
  rw [environment]
  match p.built with
  | none | some (.ok _) | some (.error _) => rfl

/-- Building the environment gives what was built before, if that was tried. -/
theorem ProcessState.value_init (p : ProcessState) (g : Generator) (options : EnvironmentOptions) :
    (p.init g options).value =
      (p.built.getD (Process.outcome g options),
        { built := some (p.built.getD (Process.outcome g options)) }) := by
  obtain ⟨built⟩ := p
  cases built with
  | some result => rfl
  | none =>
    rw [init, Process.outcome]
    dsimp only [Logged.value_bind]
    cases (Environment.build g .builtin options).run.value <;> rfl

namespace Process

variable {g : Generator} {events : List Event} {p : Process} {env : Environment}

namespace Tracks

theorem environment (h : p.Tracks g events) : p.state.environment = built? g events := by
  rw [ProcessState.environment_eq, h.built, built?]
  cases firstOptions? events <;> rfl

/-- Any attempt has the outcome of the first one. -/
theorem value_init (h : p.Tracks g events) (options : EnvironmentOptions) :
    (p.state.init g options).value.1 = outcome g ((firstOptions? events).getD options) := by
  rw [ProcessState.value_init, h.built]
  cases firstOptions? events <;> rfl

/-- As long as there is no environment, a service is refused and stays as it is. -/
theorem compile_idle (h : p.Tracks g events) (hnone : built? g events = none) (i : Nat)
    (sink : StatusSink) (files : List SourceFile) :
    (p.services i).compile p.state.environment g sink files =
      { value := (.error .notInitialized, p.services i) } := by
  rw [h.environment, hnone, h.idle hnone]
  exact Service.compile_of_unbound rfl rfl g sink files

theorem init (h : p.Tracks g events) (options : EnvironmentOptions) :
    Tracks g (events ++ [Event.init options]) (p.step g (.init options)) := by
  have hbuilt : (p.step g (.init options)).state.built =
      (firstOptions? (events ++ [Event.init options])).map (outcome g) := by
    rw [step, ProcessState.value_init, h.built, firstOptions?_append]
    cases firstOptions? events <;> rfl
  cases hfirst : firstOptions? events with
  | none =>
    have hnone : built? g events = none := by
      rw [built?, hfirst]
      rfl
    refine ⟨hbuilt, fun _ => h.idle hnone, fun env henv i => ?_⟩
    have hidle : (p.step g (.init options)).services i = {} := h.idle hnone i
    rw [calls_init hfirst, hidle]
    exact .unbound rfl rfl
  | some first =>
    have hsame : built? g (events ++ [Event.init options]) = built? g events := by
      rw [built?, firstOptions?_append, hfirst, Option.some_or, built?, hfirst]
    refine ⟨hbuilt, fun hnone => h.idle (hsame ▸ hnone), fun env henv i => ?_⟩
    rw [calls_append hfirst, Event.callOf?, Option.toList_none, List.append_nil]
    exact h.awaits env (hsame ▸ henv) i

theorem current (h : p.Tracks g events) :
    Tracks g (events ++ [Event.current]) (p.step g .current) := by
  have hfirst := firstOptions?_append_of_options? events (rfl : Event.current.options? = none)
  have hsame : built? g (events ++ [Event.current]) = built? g events := by
    rw [built?, hfirst, built?]
  refine ⟨hfirst ▸ h.built, hsame ▸ h.idle, fun env henv i => ?_⟩
  rw [hsame] at henv
  obtain ⟨first, hoptions, -⟩ := Option.bind_eq_some_iff.1 henv
  rw [calls_append hoptions, Event.callOf?, Option.toList_none, List.append_nil]
  exact h.awaits env henv i

theorem call (h : p.Tracks g events) (i : Nat) (call : Service.Call) :
    Tracks g (events ++ [Event.call i call]) (p.step g (.call i call)) := by
  have hfirst := firstOptions?_append_of_options? events (rfl : (Event.call i call).options? = none)
  have hsame : built? g (events ++ [Event.call i call]) = built? g events := by
    rw [built?, hfirst, built?]
  have hservice (j : Nat) : (p.step g (.call i call)).services j =
      if j = i then (p.services i).step p.state.environment g call else p.services j :=
    Function.update_apply ..
  refine ⟨hfirst ▸ h.built, fun hnone j => ?_, fun env henv j => ?_⟩
  · rw [hsame] at hnone
    rw [hservice, h.idle hnone j]
    split
    · cases call with
      | compile sink files =>
        rw [← h.idle hnone i]
        exact congrArg (fun out => out.value.2) (h.compile_idle hnone i sink files)
      | clear =>
        rw [h.idle hnone]
        rfl
    · rfl
  · rw [hsame] at henv
    obtain ⟨first, hoptions, -⟩ := Option.bind_eq_some_iff.1 henv
    rw [hservice, calls_append hoptions, Event.callOf?, h.environment, henv]
    by_cases hj : j = i
    · subst hj
      rw [if_pos rfl, if_pos rfl]
      exact (h.awaits env henv j).step call
    · rw [if_neg hj, if_neg (Ne.symm hj), Option.toList_none, List.append_nil]
      exact h.awaits env henv j

/-- Each event keeps what is known of a process. -/
theorem step (h : p.Tracks g events) (event : Event) :
    Tracks g (events ++ [event]) (p.step g event) := by
  cases event with
  | init options => exact h.init options
  | current => exact h.current
  | call i call => exact h.call i call

end Tracks

/-! ## All events -/

theorem tracks_after (g : Generator) (events : List Event) : (after g events).Tracks g events := by
  induction events using List.reverseRecOn with
  | nil => exact ⟨rfl, fun _ _ => rfl, fun _ h => by cases h⟩
  | append_singleton events event ih =>
    rw [after, List.foldl_append]
    exact ih.step event

/-- A process after any events. Every attempt to build the environment has the outcome of the first
one, and there is an environment if that has built one. As long as there is none, a service refuses
a request, announces nothing and stays as it is. Once there is one it stays, a service takes it with
its first request and keeps it, and answers in all as if it was made with it. -/
theorem written_once (g : Generator) (events : List Event) :
    let p := after g events
    (∀ options, (p.state.init g options).value.1 =
        outcome g ((firstOptions? events).getD options)) ∧
      p.state.environment = built? g events ∧
      (p.state.environment = none → ∀ i sink files,
        (p.services i).compile p.state.environment g sink files =
          { value := (.error .notInitialized, p.services i), records := [], status := [] }) ∧
      ∀ env, p.state.environment = some env →
        (∀ rest, (after g (events ++ rest)).state.environment = some env) ∧
          ∀ i, (Service.requests (calls i events) ≠ [] → (p.services i).environment = some env) ∧
            ∀ sink files, (p.services i).compile p.state.environment g sink files =
              (Service.made env g (calls i events)).compile none g sink files := by
  intro p
  have htracks : p.Tracks g events := tracks_after g events
  rw [htracks.environment]
  refine ⟨htracks.value_init, rfl, fun hnone i sink files => ?_, fun env henv => ⟨fun rest => ?_, ?_⟩⟩
  · rw [← htracks.environment]
    exact htracks.compile_idle hnone i sink files
  · rw [(tracks_after g (events ++ rest)).environment]
    exact built?_append henv rest
  · intro i
    have hawaits := htracks.awaits env henv i
    rw [henv]
    exact ⟨hawaits.environment, hawaits.compile_eq⟩

/-- A service is asked too early, an environment is built and then attempted again with a library
that does not exist, and the service is asked again. -/
def lateEvents : List Event :=
  [.call 0 (.compile .listener [Service.noteFile]), .init Environment.bareOptions,
    .init { roots := ["Missing"] }, .call 0 (.compile .listener [Service.noteFile])]

/-- The service is refused at first, takes the environment, and answers like one that was made with
it and was asked once. -/
theorem written_once_late :
    (after {} (lateEvents.take 1)).state.environment = none ∧
      ((after {} (lateEvents.take 1)).services 0).compile none {} .logger [] =
        { value := (.error .notInitialized, (after {} (lateEvents.take 1)).services 0) } ∧
      (after {} lateEvents).state.environment = some Environment.bareEnvironment ∧
      ((after {} lateEvents).services 0).environment = some Environment.bareEnvironment ∧
      ((after {} lateEvents).services 0).compile (some Environment.bareEnvironment) {} .logger [] =
        (Service.made Environment.bareEnvironment {}
          [.compile .listener [Service.noteFile]]).compile none {} .logger [] := by
  obtain ⟨-, hnone, hrefused, -⟩ := written_once {} (lateEvents.take 1)
  obtain ⟨-, hsome, -, hbound⟩ := written_once {} lateEvents
  have henv : (after {} lateEvents).state.environment = some Environment.bareEnvironment :=
    hsome.trans rfl
  obtain ⟨-, hservices⟩ := hbound _ henv
  obtain ⟨hkept, hsame⟩ := hservices 0
  have hrequests : Service.requests (calls 0 lateEvents) ≠ [] := List.cons_ne_nil _ _
  refine ⟨hnone, ?_, henv, hkept hrequests, ?_⟩
  · have := hrefused hnone 0 .logger []
    rwa [hnone] at this
  · have := hsame .logger []
    rwa [henv] at this

end Process

end ViewCompiler
