import ViewCompiler.Proofs.LibraryOrder
import ViewCompiler.Proofs.LinkedImage

/-!
How the libraries of an environment are loaded. A library is compiled against the compiled libraries
that it needs (`Catalog.Compiles`). They are in the environment when its turn comes, since a closure
lists libraries after their dependencies, and so an environment is built exactly if each library of
the closure compiles. What it refers to is among its references (`Environment.build_loads`).
-/

namespace ViewCompiler

/-! ## Compiled libraries -/

namespace Catalog

mutual

/-- The library has no error when it is compiled against the libraries of the closure of its
dependencies, and is seen as the reference. -/
inductive Compiles (c : Catalog) : Library → Reference → Prop where
  | unit {l : Library} {needed : List Library} {refs : List Reference} :
    c.closure l.dependencies = .ok needed → CompilesAll c needed refs →
    (l.unit refs).model.hasErrors = false → Compiles c l (l.unit refs).reference

/-- The libraries compile, each by itself. -/
inductive CompilesAll (c : Catalog) : List Library → List Reference → Prop where
  | nil : CompilesAll c [] []
  | cons {l : Library} {r : Reference} {ls : List Library} {refs : List Reference} :
    Compiles c l r → CompilesAll c ls refs → CompilesAll c (l :: ls) (r :: refs)

end

variable {c : Catalog} {l : Library} {ls ls' : List Library} {r r' : Reference}
  {refs refs' : List Reference}

mutual

/-- A library is compiled in one way only. -/
theorem Compiles.unique {l : Library} {r r' : Reference} :
    c.Compiles l r → c.Compiles l r' → r = r'
  | .unit hneeded hrefs _, .unit hneeded' hrefs' _ => by
    cases hneeded.symm.trans hneeded'
    rw [hrefs.unique hrefs']

theorem CompilesAll.unique {ls : List Library} {refs refs' : List Reference} :
    c.CompilesAll ls refs → c.CompilesAll ls refs' → refs = refs'
  | .nil, .nil => rfl
  | .cons hfirst hrest, .cons hfirst' hrest' => by
    rw [hfirst.unique hfirst', hrest.unique hrest']

end

theorem Compiles.name_eq (h : c.Compiles l r) : r.name = l.name := by
  cases h with
  | unit => rfl

theorem CompilesAll.append (h : c.CompilesAll ls refs) (h' : c.CompilesAll ls' refs') :
    c.CompilesAll (ls ++ ls') (refs ++ refs') := by
  induction ls generalizing refs with
  | nil =>
    cases h
    exact h'
  | cons l ls ih =>
    cases h with
    | cons hfirst hrest => exact .cons hfirst (ih hrest)

/-- References stand in the order of their libraries. -/
theorem CompilesAll.names_eq (h : c.CompilesAll ls refs) :
    refs.map (·.name) = ls.map (·.name) := by
  induction ls generalizing refs with
  | nil =>
    cases h
    rfl
  | cons l ls ih =>
    cases h with
    | cons hfirst hrest => rw [List.map_cons, List.map_cons, hfirst.name_eq, ih hrest]

theorem CompilesAll.exists_of_mem (h : c.CompilesAll ls refs) (hl : l ∈ ls) :
    ∃ r, c.Compiles l r := by
  induction ls generalizing refs with
  | nil => cases hl
  | cons l' ls ih =>
    cases h with
    | cons hfirst hrest =>
      rcases List.mem_cons.1 hl with rfl | hl
      · exact ⟨_, hfirst⟩
      · exact ih hrest hl

/-- A compiled library is found among the references by its name, if no other has that name. -/
theorem CompilesAll.find? (h : c.CompilesAll ls refs) (hl : l ∈ ls)
    (hnames : ∀ l' ∈ ls, l'.name = l.name → l' = l) :
    ∃ r, refs.find? (·.name = l.name) = some r ∧ c.Compiles l r := by
  induction ls generalizing refs with
  | nil => cases hl
  | cons l' ls ih =>
    cases h with
    | @cons _ r _ refs hfirst hrest =>
      rw [List.find?_cons]
      by_cases hname : l'.name = l.name
      · cases hnames l' List.mem_cons_self hname
        exact ⟨r, by rw [hfirst.name_eq, decide_eq_true rfl], hfirst⟩
      · rw [hfirst.name_eq, decide_eq_false hname]
        have hmem : l ∈ ls := (List.mem_cons.1 hl).resolve_left fun heq => hname (heq ▸ rfl)
        exact ih hrest hmem fun l' hl' => hnames l' (List.mem_cons_of_mem _ hl')

/-- Libraries of an order are told apart by their names. -/
theorem Ordered.eq_of_name_eq {order : List Library} (h : c.Ordered order) {l' : Library}
    (hl : l ∈ order) (hl' : l' ∈ order) (hname : l'.name = l.name) : l' = l := by
  obtain ⟨before, rest, heq⟩ := List.append_of_mem hl
  obtain ⟨before', rest', heq'⟩ := List.append_of_mem hl'
  have hfind := (h before l rest heq).1
  have hfind' := (h before' l' rest' heq').1
  rw [hname, hfind] at hfind'
  exact (Option.some.inj hfind').symm

/-- Compiled libraries that are looked up by name are all found. -/
theorem CompilesAll.lookup {order needed : List Library} (h : c.CompilesAll order refs)
    (hordered : c.Ordered order) (hsubset : needed ⊆ order) :
    (∀ d ∈ needed, (refs.find? (·.name = d.name)).isSome) ∧
      c.CompilesAll needed (needed.filterMap fun d => refs.find? (·.name = d.name)) := by
  induction needed with
  | nil => exact ⟨by simp, .nil⟩
  | cons d needed ih =>
    obtain ⟨hd, hsubset⟩ := List.cons_subset.1 hsubset
    obtain ⟨r, hfind, hr⟩ := h.find? hd fun l' hl' hname => hordered.eq_of_name_eq hd hl' hname
    obtain ⟨hfound, hall⟩ := ih hsubset
    rw [List.filterMap_cons_some (f := fun d : Library => refs.find? (·.name = d.name)) hfind]
    exact ⟨List.forall_mem_cons.2 ⟨Option.isSome_iff_exists.2 ⟨r, hfind⟩, hfound⟩, .cons hr hall⟩

end Catalog

/-! ## Bases -/

theorem SymbolTable.IsBase.mono {t u : SymbolTable} {base : Bytes} (h : t.IsBase base)
    (hnames : t.types.map (·.fullName) ⊆ u.types.map (·.fullName)) : u.IsBase base :=
  fun hne => isSome_find?_mono (h hne) hnames

namespace CompilationUnit

open Analysis SymbolTable

/-- The bases of the types that a unit exports are found in it. -/
theorem isBase_reference (u : CompilationUnit) : ∀ s ∈ u.reference.types,
    (ofReferences (u.references ++ [u.reference])).IsBase s.base := by
  intro s hs
  obtain ⟨s', hs', rfl⟩ := List.mem_map.1 hs
  obtain ⟨t, ht, hget⟩ := List.mem_filterMap.1 hs'
  rw [model, analyze_types] at ht
  obtain ⟨d, hd, rfl⟩ := List.mem_map.1 ht
  rw [body_id, model, analyze_table] at hget
  have hbase : u.model.table.IsBase s'.base := by
    rcases get?_of_breakCycles hget with hnone | hheaded
    · exact fun hne => absurd hnone hne
    · rw [get?_headed hd] at hheaded
      cases hheaded
      intro hne
      rw [model, find?_table]
      exact isBase_header d _ hne
  exact hbase.mono (u.names_reference ▸ List.Subset.refl _)

end CompilationUnit

open SymbolTable in
/-- The references of an environment have their bases among them. -/
theorem Environment.based_loadAll {c : Catalog} {refs : List Reference} {ls : List Library}
    (h : (loadAll c [] ls).run.value = .ok refs) : Reference.Based refs := by
  refine loadAll_induction (P := Reference.Based) ?_ (by simp [Reference.Based, ofReferences]) h
  intro loaded dependencies l r hloaded hsubset hr s hs
  obtain ⟨-, rfl⟩ := Library.unit_of_load hr
  obtain ⟨r, hr, hs⟩ := List.mem_flatMap.1 hs
  rcases List.mem_append.1 hr with hr | hr
  · exact (hloaded s (List.mem_flatMap.2 ⟨r, hr, hs⟩)).mono
      (names_subset (List.subset_append_left _ _))
  · rw [List.mem_singleton.1 hr] at hs
    apply ((l.unit dependencies).isBase_reference s hs).mono
    apply names_subset
    exact List.append_subset.2 ⟨List.subset_append_of_subset_left _ hsubset,
      List.subset_append_right _ _⟩

/-! ## Loading -/

namespace Library

/-- A library is loaded as its unit, unless that has an error. -/
theorem value_load (l : Library) (dependencies : List Reference) :
    (l.load dependencies).run.value =
      match (l.unit dependencies).model.diagnostics.find? (·.isError) with
      | some d => .error (.invalid l.name d)
      | none => .ok (l.unit dependencies).reference := by
  have hadd : (((⟨dependencies, { assembly := l.name }, []⟩ : CompilationUnit).add
      l.parse.value).adapt (BuildError.rejected l.name)).run.value = .ok (l.unit dependencies) := by
    change Except.mapError _ (CompilationUnit.add _ l.parse.value).run.value = _
    rw [value_parse, CompilationUnit.add_parsed]
    rfl
  have hreports : (l.unit dependencies).diagnostics = (l.unit dependencies).model.diagnostics :=
    Diagnostic.applyOverrides_nil _
  rw [load, Logged.value_run_bind (a := l.parse.value) rfl,
    Logged.value_run_bind (a := ⟨dependencies, { assembly := l.name }, []⟩) rfl,
    Logged.value_run_bind hadd, hreports]
  cases (l.unit dependencies).model.diagnostics.find? (·.isError) <;> rfl

end Library

/-- The first error of a library that does not compile. -/
def Catalog.Fails (c : Catalog) (l : Library) (d : Diagnostic) : Prop :=
  ∃ needed refs, c.closure l.dependencies = .ok needed ∧ c.CompilesAll needed refs ∧
    (l.unit refs).model.diagnostics.find? (·.isError) = some d

open Catalog

/-- A library does not compile and fail. -/
theorem Catalog.Fails.not_compiles {c : Catalog} {l : Library} {d : Diagnostic} {r : Reference}
    (h : c.Fails l d) : ¬ c.Compiles l r := by
  rintro (⟨hneeded, hrefs, hclean⟩)
  obtain ⟨needed, refs, hneeded', hrefs', hfind⟩ := h
  cases hneeded.symm.trans hneeded'
  rw [hrefs.unique hrefs'] at hclean
  have herror := List.any_eq_false.1 hclean d (List.mem_of_find?_eq_some hfind)
  exact herror (List.find?_some hfind :)

namespace Environment

variable {c : Catalog} {before ls : List Library} {loaded : List Reference} {l : Library}

/-- When the turn of a library comes, all that it needs is loaded. -/
theorem exists_needed (hordered : c.Ordered (before ++ l :: ls))
    (hloaded : c.CompilesAll before loaded) :
    ∃ needed, c.closure l.dependencies = .ok needed ∧
      (∀ d ∈ needed, (loaded.find? (·.name = d.name)).isSome) ∧
      c.CompilesAll needed (needed.filterMap fun d => loaded.find? (·.name = d.name)) := by
  obtain ⟨-, -, hdependencies⟩ := hordered before l ls rfl
  obtain ⟨needed, hneeded, hsubset⟩ := exists_closure hordered.of_append hdependencies
  exact ⟨needed, hneeded, hloaded.lookup hordered.of_append hsubset⟩

/-- Libraries are loaded until one has an error. -/
theorem loadAll_cases (hordered : c.Ordered (before ++ ls)) (hloaded : c.CompilesAll before loaded) :
    (∃ refs, (loadAll c loaded ls).run.value = .ok refs ∧ c.CompilesAll (before ++ ls) refs) ∨
      ∃ l ∈ ls, ∃ d, (loadAll c loaded ls).run.value = .error (.invalid l.name d) ∧ c.Fails l d := by
  induction ls generalizing before loaded with
  | nil => exact .inl ⟨loaded, rfl, by rwa [List.append_nil]⟩
  | cons l ls ih =>
    obtain ⟨needed, hneeded, -, hrefs⟩ := exists_needed hordered hloaded
    have hload := l.value_load (needed.filterMap fun d => loaded.find? (·.name = d.name))
    rw [loadAll, hneeded]
    dsimp only
    cases hfind : (l.unit (needed.filterMap fun d =>
        loaded.find? (·.name = d.name))).model.diagnostics.find? (·.isError) with
    | some d =>
      rw [hfind] at hload
      refine .inr ⟨l, List.mem_cons_self, d, Logged.value_run_bind_error hload _, ?_⟩
      exact ⟨needed, _, hneeded, hrefs, hfind⟩
    | none =>
      rw [hfind] at hload
      have hclean := List.any_eq_false.2 (List.find?_eq_none.1 hfind)
      have hcompiled := hloaded.append (.cons (.unit hneeded hrefs hclean) .nil)
      rw [Logged.value_run_bind hload]
      have hordered' : c.Ordered ((before ++ [l]) ++ ls) := by simpa using hordered
      rcases ih hordered' hcompiled with ⟨refs, hrest, hall⟩ | ⟨l', hl', d, hrest, hfails⟩
      · exact .inl ⟨refs, hrest, by simpa using hall⟩
      · exact .inr ⟨l', List.mem_cons_of_mem _ hl', d, hrest, hfails⟩

/-- What building an environment comes to. -/
theorem value_build {g : Generator} (hg : g.available = true) (c : Catalog) (o : EnvironmentOptions) :
    (build g c o).run.value = match c.closure o.roots with
      | .error e => .error (.closure e)
      | .ok libraries => (loadAll c [] libraries).run.value.map fun references =>
          { references, options := o.project, base := ⟨references, o.project.unitOptions, []⟩ } := by
  rw [build]
  cases c.closure o.roots with
  | error e => rfl
  | ok libraries =>
    dsimp only
    rw [if_neg (not_not_intro hg)]
    cases hload : (loadAll c [] libraries).run.value with
    | error e => exact Logged.value_run_bind_error hload _
    | ok references => exact Logged.value_run_bind hload _

/-- What an environment refers to: the compiled libraries of a closure, in its order. All types that
their types mention are among them. -/
structure Loads (c : Catalog) (libraries : List Library) (refs : List Reference) : Prop where
  names : refs.map (·.name) = libraries.map (·.name)
  compiles : c.CompilesAll libraries refs
  parts : ∀ r ∈ refs, ∀ s ∈ r.types, (SymbolTable.ofReferences refs).KnowsParts s
  bases : ∀ r ∈ refs, ∀ s ∈ r.types, (SymbolTable.ofReferences refs).IsBase s.base

theorem loads_of_loadAll {libraries : List Library} {refs : List Reference}
    (hall : c.CompilesAll libraries refs) (h : (loadAll c [] libraries).run.value = .ok refs) :
    Loads c libraries refs where
  names := hall.names_eq
  compiles := hall
  parts r hr s hs := SymbolTable.closed_iff.1 (closed_loadAll h) s (List.mem_flatMap.2 ⟨r, hr, hs⟩)
  bases r hr s hs := based_loadAll h s (List.mem_flatMap.2 ⟨r, hr, hs⟩)

/-- Where the code generator is there, whatever the libraries are. When the turn of a library comes,
its dependencies have a closure and all of it is loaded. So there is an environment exactly if the
roots have a closure and each library of it compiles, otherwise it is known why, and what the
environment refers to is closed. -/
theorem build_loads {g : Generator} (hg : g.available = true) (c : Catalog) (o : EnvironmentOptions) :
    (∀ libraries, c.closure o.roots = .ok libraries →
      ∀ before l rest loaded, libraries = before ++ l :: rest →
        (loadAll c [] before).run.value = .ok loaded →
        ∃ needed, c.closure l.dependencies = .ok needed ∧
          ∀ d ∈ needed, (loaded.find? (·.name = d.name)).isSome) ∧
    ((∃ env, (build g c o).run.value = .ok env) ↔
      ∃ libraries, c.closure o.roots = .ok libraries ∧ ∀ l ∈ libraries, ∃ r, c.Compiles l r) ∧
    (∀ e, (build g c o).run.value = .error e →
      (∃ e', c.closure o.roots = .error e' ∧ e = .closure e') ∨
      ∃ libraries, c.closure o.roots = .ok libraries ∧
        ∃ l ∈ libraries, ∃ d, c.Fails l d ∧ e = .invalid l.name d) ∧
    ∀ env, (build g c o).run.value = .ok env →
      ∃ libraries, c.closure o.roots = .ok libraries ∧ Loads c libraries env.references := by
  have hbuild := value_build hg c o
  refine ⟨?_, ?_⟩
  · rintro _ hlibraries before l rest loaded rfl hload
    obtain ⟨hordered, -⟩ := ordered_closure hlibraries
    have hbefore : c.Ordered ([] ++ before) := hordered.of_append
    rcases loadAll_cases hbefore .nil with ⟨_, hrefs, hall⟩ | ⟨_, _, _, hfails, _⟩
    · cases hload.symm.trans hrefs
      obtain ⟨needed, hneeded, hfound, -⟩ := exists_needed hordered hall
      exact ⟨needed, hneeded, hfound⟩
    · cases hload.symm.trans hfails
  cases hclosure : c.closure o.roots with
  | error e =>
    rw [hclosure] at hbuild
    rw [hbuild]
    refine ⟨⟨?_, ?_⟩, ?_, ?_⟩
    · rintro ⟨_, ⟨⟩⟩
    · rintro ⟨_, ⟨⟩, -⟩
    · rintro _ ⟨⟩
      exact .inl ⟨e, rfl, rfl⟩
    · rintro _ ⟨⟩
  | ok libraries =>
    have hordered : c.Ordered ([] ++ libraries) := (ordered_closure hclosure).1
    rw [hclosure] at hbuild
    dsimp only at hbuild
    rcases loadAll_cases hordered .nil with ⟨refs, hrefs, hall⟩ | ⟨l, hl, d, hload, hfails⟩
    · rw [hrefs] at hbuild
      rw [hbuild]
      refine ⟨⟨fun _ => ⟨libraries, rfl, fun l hl => hall.exists_of_mem hl⟩, fun _ => ⟨_, rfl⟩⟩, ?_, ?_⟩
      · rintro _ ⟨⟩
      · rintro _ ⟨⟩
        exact ⟨libraries, rfl, loads_of_loadAll hall hrefs⟩
    · rw [hload] at hbuild
      rw [hbuild]
      refine ⟨⟨?_, ?_⟩, ?_, ?_⟩
      · rintro ⟨_, ⟨⟩⟩
      · rintro ⟨_, ⟨⟩, hcompiles⟩
        obtain ⟨r, hr⟩ := hcompiles l hl
        exact absurd hr hfails.not_compiles
      · rintro _ ⟨⟩
        exact .inr ⟨libraries, rfl, l, hl, d, hfails, rfl⟩
      · rintro _ ⟨⟩

/-- A library that extends a type of another one, which is listed behind it. -/
def treeCatalog : Catalog := .ofList [
  { name := "Tree", dependencies := ["Node"]
    sources := ["using Node; namespace Tree; class Leaf : Item { field Item next; }"] },
  { name := "Node", sources := ["namespace Node; class Item { method Visit(Item other) { } }"] }]

/-- Both libraries are loaded, in the order in which they need each other. -/
theorem build_loads_tree : Generator.available {} = true ∧
    ∃ env libraries, (build {} treeCatalog { roots := ["Tree"] }).run.value = .ok env ∧
      treeCatalog.closure ["Tree"] = .ok libraries ∧
      libraries.map (·.name) = [("Node" : Bytes), "Tree"] ∧ Loads treeCatalog libraries env.references := by
  obtain ⟨-, -, -, hloads⟩ := build_loads (g := {}) rfl treeCatalog { roots := ["Tree"] }
  have hbuilt : (build {} treeCatalog { roots := ["Tree"] }).run.value.toOption.isSome = true := by
    decide +kernel
  have hnames : (treeCatalog.closure ["Tree"]).toOption.map (List.map (·.name)) =
      some [("Node" : Bytes), "Tree"] := by
    decide +kernel
  cases hbuild : (build {} treeCatalog { roots := ["Tree"] }).run.value with
  | error e =>
    rw [hbuild] at hbuilt
    cases hbuilt
  | ok env =>
    obtain ⟨libraries, hclosure, hall⟩ := hloads env hbuild
    rw [hclosure] at hnames
    exact ⟨rfl, env, libraries, rfl, hclosure, Option.some.inj hnames, hall⟩

end Environment

end ViewCompiler
