import ViewCompiler.GeneratedFile
import ViewCompiler.Proofs.SimilarReadings

/-!
Environments that were built. The names of the types of their libraries can be written
(`Environment.Built.nameable`); the unit of some files has one tree a file
(`Environment.Built.unitOf_eq`).
-/

namespace ViewCompiler

/-! ## Values of computations that log -/

namespace Logged

variable {α β ε : Type}

protected theorem ext {x y : Logged α} (hv : x.value = y.value) (hr : x.records = y.records)
    (hs : x.status = y.status) : x = y := by
  cases x
  cases y
  simp_all

instance : LawfulMonad Logged :=
  .mk' Logged (fun _ => Logged.ext rfl (List.append_nil _) (List.append_nil _)) (fun _ _ => rfl)
    fun _ _ _ => Logged.ext rfl (List.append_assoc _ _ _) (List.append_assoc _ _ _)

theorem value_mapM (f : α → Logged β) (xs : List α) :
    (xs.mapM f).value = xs.map fun x => (f x).value := by
  induction xs with
  | nil => rfl
  | cons x xs ih =>
    rw [List.mapM_cons, value_bind, value_bind, ih]
    rfl

theorem value_run_bind {x : ExceptT ε Logged α} {a : α} (h : x.run.value = .ok a)
    (f : α → ExceptT ε Logged β) : (x >>= f).run.value = (f a).run.value := by
  change (x.run >>= ExceptT.bindCont f).value = _
  rw [value_bind, h]
  rfl

theorem value_run_bind_error {x : ExceptT ε Logged α} {e : ε} (h : x.run.value = .error e)
    (f : α → ExceptT ε Logged β) : (x >>= f).run.value = .error e := by
  change (x.run >>= ExceptT.bindCont f).value = _
  rw [value_bind, h]
  rfl

theorem value_run_mapM_lift (f : α → Logged β) (xs : List α) :
    (xs.mapM fun x => (liftM (f x) : ExceptT ε Logged β)).run.value =
      .ok (xs.map fun x => (f x).value) := by
  induction xs with
  | nil => rfl
  | cons x xs ih =>
    rw [List.mapM_cons, value_run_bind (a := (f x).value) rfl, value_run_bind ih]
    rfl

theorem run_bind_eq_ok {x : ExceptT ε Logged α} {f : α → ExceptT ε Logged β} {b : β}
    (h : (x >>= f).run.value = .ok b) : ∃ a, x.run.value = .ok a ∧ (f a).run.value = .ok b := by
  change (x.run >>= ExceptT.bindCont f).value = .ok b at h
  rw [value_bind] at h
  cases hx : x.run.value with
  | error e =>
    rw [hx] at h
    cases h
  | ok a =>
    rw [hx] at h
    exact ⟨a, rfl, h⟩

theorem value_run_lift_bind (x : Logged α) (f : α → ExceptT ε Logged β) :
    (liftM x >>= f : ExceptT ε Logged β).run.value = (f x.value).run.value := rfl

theorem run_lift_bind_eq_ok {x : Logged α} {f : α → ExceptT ε Logged β} {b : β}
    (h : (liftM x >>= f : ExceptT ε Logged β).run.value = .ok b) : (f x.value).run.value = .ok b := h

end Logged

/-! ## Units -/

namespace CompilationUnit

theorem treesOf_map_parsed (trees : List SyntaxTree) :
    treesOf (trees.map .parsed) = .ok trees := by
  induction trees with
  | nil => rfl
  | cons tree trees ih => rw [List.map_cons, treesOf, ih]; rfl

theorem add_parsed (u : CompilationUnit) (trees : List SyntaxTree) :
    (u.add (trees.map .parsed)).run.value = .ok { u with trees := u.trees ++ trees } := by
  rw [add, treesOf_map_parsed]
  rfl

end CompilationUnit

theorem Diagnostic.applyOverrides_nil (ds : List Diagnostic) : applyOverrides ds [] = ds :=
  List.filterMap_some

/-- Errors of these codes stay errors. -/
def Overrides.Uphold (o : Overrides) (codes : List Bytes) : Prop :=
  ∀ code ∈ codes, (o.lookup code).getD .keep = .keep ∨ (o.lookup code).getD .keep = .error

instance (o : Overrides) (codes : List Bytes) : Decidable (o.Uphold codes) :=
  inferInstanceAs (Decidable (∀ code ∈ codes, _))

theorem Overrides.uphold_nil (codes : List Bytes) : Overrides.Uphold [] codes := fun _ _ => .inl rfl

theorem Overrides.Uphold.hasErrors {o : Overrides} {codes : List Bytes} (h : o.Uphold codes)
    {ds : List Diagnostic} {d : Diagnostic} (hd : d ∈ ds) (he : d.isError = true)
    (hcode : d.code ∈ codes) : Diagnostic.hasErrors (Diagnostic.applyOverrides ds o) = true := by
  have reported {d' : Diagnostic} (hd' : Diagnostic.override o d = some d') (he' : d'.isError = true) :
      Diagnostic.hasErrors (Diagnostic.applyOverrides ds o) = true :=
    List.any_eq_true.2 ⟨d', List.mem_filterMap.2 ⟨d, hd, hd'⟩, he'⟩
  rcases h d.code hcode with hkeep | herror
  · exact reported (by rw [Diagnostic.override, hkeep]; rfl) he
  · exact reported (by rw [Diagnostic.override, herror]; rfl) rfl

namespace SyntaxTree

/-- The codes of all that is reported about the text of a file. -/
def textCodes : List Bytes := "IL2003" :: syntaxCodes

theorem report_of_mem_parse {source file : Bytes} {d : Diagnostic}
    (h : d ∈ (parse source file).diagnostics) : d.isError = true ∧ d.code ∈ textCodes := by
  rcases List.mem_append.1 h with h | h
  · obtain ⟨e, -, rfl⟩ := List.mem_map.1 h
    exact ⟨rfl, List.mem_cons_of_mem _ (mem_syntaxCodes e.2)⟩
  · obtain ⟨e, -, rfl⟩ := List.mem_map.1 h
    refine ⟨rfl, ?_⟩
    change e.2.code ∈ textCodes
    unfold SyntaxError.code
    split <;> decide

end SyntaxTree

/-- If errors in the text of files stay errors, nothing is wrong with the text of the files of a unit
without errors. -/
theorem CompilationUnit.diagnostics_eq_nil {u : CompilationUnit}
    (ho : u.options.overrides.Uphold SyntaxTree.textCodes) (h : u.hasErrors = false)
    {source file : Bytes} (ht : SyntaxTree.parse source file ∈ u.trees) :
    (SyntaxTree.parse source file).diagnostics = [] := by
  refine List.eq_nil_iff_forall_not_mem.2 fun d hd => ?_
  have hmodel : d ∈ u.model.diagnostics := by
    simp only [model, Model.analyze, List.mem_append]
    exact .inl (.inl (.inl (.inl (.inl (.inl (List.mem_flatMap.2 ⟨_, ht, hd⟩))))))
  obtain ⟨he, hcode⟩ := SyntaxTree.report_of_mem_parse hd
  rw [hasErrors, diagnostics, ho.hasErrors hmodel he hcode] at h
  cases h

namespace Library

theorem value_parse (l : Library) : l.parse.value =
    (l.sources.zipIdx.map fun p => SyntaxTree.parse p.1 (l.sourcePath p.2)).map .parsed := by
  rw [parse, Logged.value_mapM, List.map_map]
  rfl

/-- The unit of a library over the references that it depends on. -/
def unit (l : Library) (dependencies : List Reference) : CompilationUnit where
  references := dependencies
  options := { assembly := l.name }
  trees := l.sources.zipIdx.map fun p => SyntaxTree.parse p.1 (l.sourcePath p.2)

/-- A library that is loaded is the reference of its unit, which has no error. -/
theorem unit_of_load {l : Library} {dependencies : List Reference} {r : Reference}
    (h : (l.load dependencies).run.value = .ok r) :
    (l.unit dependencies).model.hasErrors = false ∧ r = (l.unit dependencies).reference := by
  have h := Logged.run_lift_bind_eq_ok h
  have h := Logged.run_lift_bind_eq_ok h
  obtain ⟨unit, hunit, h⟩ := Logged.run_bind_eq_ok h
  change Except.mapError _ (CompilationUnit.add _ l.parse.value).run.value = .ok unit at hunit
  rw [value_parse, CompilationUnit.add_parsed] at hunit
  cases hunit
  split at h
  · cases h
  · next hclean =>
    cases h
    change (l.unit dependencies).diagnostics.find? (·.isError) = none at hclean
    have hreports : (l.unit dependencies).diagnostics = (l.unit dependencies).model.diagnostics :=
      Diagnostic.applyOverrides_nil _
    rw [hreports, List.find?_eq_none] at hclean
    exact ⟨List.any_eq_false.2 hclean, rfl⟩

theorem nameable_load {l : Library} {dependencies : List Reference} {r : Reference}
    (h : (l.load dependencies).run.value = .ok r) : r.Nameable := by
  rw [(unit_of_load h).2]
  apply CompilationUnit.nameable_reference
  intro tree htree
  obtain ⟨p, -, rfl⟩ := List.mem_map.1 htree
  exact SyntaxTree.nameable_parse _ _

end Library

namespace Environment

/-- What holds of the references loaded so far, and is kept by each library that is loaded over some
of them, holds of all. -/
theorem loadAll_induction {P : List Reference → Prop} {c : Catalog} {loaded refs : List Reference}
    {ls : List Library}
    (step : ∀ {loaded dependencies : List Reference} {l : Library} {r : Reference}, P loaded →
      dependencies ⊆ loaded → (l.load dependencies).run.value = .ok r → P (loaded ++ [r]))
    (hloaded : P loaded) (h : (loadAll c loaded ls).run.value = .ok refs) : P refs := by
  induction ls generalizing loaded with
  | nil =>
    cases h
    exact hloaded
  | cons l ls ih =>
    rw [loadAll] at h
    split at h
    · cases h
    · obtain ⟨r, hr, h⟩ := Logged.run_bind_eq_ok h
      have h := Logged.run_lift_bind_eq_ok h
      apply ih (step hloaded _ hr) h
      intro d hd
      obtain ⟨_, -, hfind⟩ := List.mem_filterMap.1 hd
      exact List.mem_of_find?_eq_some hfind

theorem nameable_loadAll {c : Catalog} {refs : List Reference} {ls : List Library}
    (h : (loadAll c [] ls).run.value = .ok refs) : ∀ r ∈ refs, r.Nameable := by
  refine loadAll_induction (P := fun refs => ∀ r ∈ refs, r.Nameable) ?_ (by simp) h
  intro loaded dependencies l r hloaded _ hr
  exact List.forall_mem_append.2 ⟨hloaded, List.forall_mem_singleton.2 (Library.nameable_load hr)⟩

/-- What building an environment makes. -/
structure Built (env : Environment) : Prop where
  nameable : ∀ r ∈ env.references, r.Nameable
  frontEnd : env.frontEnd = .il
  base : env.base = ⟨env.references, env.options.unitOptions, []⟩

/-- An environment is built from all libraries that its options ask for. -/
theorem eq_of_build {g : Generator} {c : Catalog} {o : EnvironmentOptions} {env : Environment}
    (h : (build g c o).run.value = .ok env) :
    g.available = true ∧ ∃ libraries references, c.closure o.roots = .ok libraries ∧
      (loadAll c [] libraries).run.value = .ok references ∧
      env = { references, options := o.project
              base := ⟨references, o.project.unitOptions, []⟩ } := by
  rw [build] at h
  split at h
  · cases h
  · next libraries hlibraries =>
    split at h
    · cases h
    · next havailable =>
      obtain ⟨refs, hrefs, h⟩ := Logged.run_bind_eq_ok h
      have h := Logged.run_lift_bind_eq_ok h
      have h := Logged.run_lift_bind_eq_ok h
      cases h
      exact ⟨not_not.1 havailable, libraries, refs, hlibraries, hrefs, rfl⟩

theorem built_of_build {g : Generator} {c : Catalog} {o : EnvironmentOptions} {env : Environment}
    (h : (build g c o).run.value = .ok env) : env.Built := by
  obtain ⟨-, libraries, references, -, hloaded, rfl⟩ := eq_of_build h
  exact ⟨nameable_loadAll hloaded, rfl, rfl⟩

/-- The tree of a generated file. -/
def treeOf (f : GeneratedFile) : SyntaxTree := SyntaxTree.parse f.code f.path

/-- The unit of generated files. -/
def unit (env : Environment) (files : List GeneratedFile) : CompilationUnit where
  references := env.references
  options := env.options.unitOptions
  trees := files.map treeOf

theorem Built.unitOf_eq {env : Environment} (h : env.Built) (files : List GeneratedFile) :
    (env.unitOf files).run.value = .ok (env.unit files) := by
  have hadd := CompilationUnit.add_parsed env.base (files.map treeOf)
  rw [unitOf, Logged.value_run_bind (Logged.value_run_mapM_lift _ files), h.frontEnd]
  rw [List.map_map] at hadd
  rw [h.base] at hadd ⊢
  exact hadd

end Environment

end ViewCompiler
