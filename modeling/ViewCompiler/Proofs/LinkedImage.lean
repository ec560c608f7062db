import ViewCompiler.Assembly
import ViewCompiler.Proofs.ErrorCodes
import ViewCompiler.Proofs.SeparateUnits

/-!
What becomes of files that are linked. The libraries of an environment are compiled without
overrides, so the references of an environment are closed (`Environment.closed_of_build`), and what is
linked without errors is lowered. So there is an image exactly if no error is reported, unless a file
cannot be compiled or the code generator fails (`Environment.link_image`).
-/

namespace ViewCompiler

/-! ## Closed environments -/

namespace SymbolTable

variable {t u : SymbolTable} {name : Bytes}

/-- A name that is found is found among more types. -/
theorem isSome_find?_mono (h : (t.find? name).isSome)
    (hnames : t.types.map (·.fullName) ⊆ u.types.map (·.fullName)) : (u.find? name).isSome := by
  rw [find?, List.findIdx?_isSome, List.any_eq_true] at h ⊢
  obtain ⟨s, hs, hname⟩ := h
  obtain ⟨s', hs', hsame⟩ := List.mem_map.1 (hnames (List.mem_map_of_mem hs))
  exact ⟨s', hs', by rwa [hsame]⟩

/-- A name that is known stays known among more types. -/
theorem Known.mono (h : t.Known name)
    (hnames : t.types.map (·.fullName) ⊆ u.types.map (·.fullName)) : u.Known name :=
  h.imp_right fun hfind => isSome_find?_mono hfind hnames

/-- The types that a type mentions are known. -/
def KnowsParts (t : SymbolTable) (s : TypeSymbol) : Prop :=
  (∀ m ∈ s.members, t.Known m.type) ∧ ∀ f ∈ s.methods, ∀ p ∈ f.paramTypes, t.Known p

theorem KnowsParts.mono {s : TypeSymbol} (h : t.KnowsParts s)
    (hnames : t.types.map (·.fullName) ⊆ u.types.map (·.fullName)) : u.KnowsParts s :=
  ⟨fun m hm => (h.1 m hm).mono hnames, fun f hf p hp => (h.2 f hf p hp).mono hnames⟩

theorem closed_iff : t.Closed ↔ ∀ s ∈ t.types, t.KnowsParts s := by
  constructor
  · exact fun h s hs => ⟨h.member s hs, h.param s hs⟩
  · exact fun h => ⟨fun s hs => (h s hs).1, fun s hs => (h s hs).2⟩

end SymbolTable

open Analysis in
/-- A declared type whose header has no error mentions types of the unit. -/
theorem Analysis.knowsParts_of_clean {refs : List Reference} {trees : List SyntaxTree} {d : Declared}
    (hd : d ∈ declared refs trees)
    (hclean : ((announced refs trees).header d (SymbolTable.announced d.scope d.decl)).Clean)
    {s : TypeSymbol} (hs : (Model.analyze refs trees).table.get? d.id = some s) :
    (Model.analyze refs trees).table.KnowsParts s := by
  obtain ⟨base, htable⟩ := get?_declared hd
  obtain ⟨hmembers, hmethods⟩ := SymbolTable.clean_header hclean
  rw [hs] at htable
  cases htable
  constructor
  · intro m hm
    exact known_table.2 (SymbolTable.known_headerMembers hmembers m hm)
  · intro f hf p hp
    exact known_table.2 (SymbolTable.known_headerMethods hmethods f hf p hp)

namespace CompilationUnit

variable {u : CompilationUnit}

open SymbolTable in
/-- A unit has the names of its references and of its own types. -/
theorem names_reference (u : CompilationUnit) : u.model.table.types.map (·.fullName) =
    (ofReferences (u.references ++ [u.reference])).types.map (·.fullName) := by
  have hsame := congrArg (List.map (·.fullName)) u.types_reference
  rw [List.map_map, List.map_map] at hsame
  exact hsame.symm

open Analysis SymbolTable in
/-- What a unit without errors exports mentions types of its references and its own. -/
theorem knowsParts_reference (h : u.model.hasErrors = false) :
    ∀ s ∈ u.reference.types, (ofReferences (u.references ++ [u.reference])).KnowsParts s := by
  intro s hs
  obtain ⟨s', hs', rfl⟩ := List.mem_map.1 hs
  obtain ⟨t, ht, hget⟩ := List.mem_filterMap.1 hs'
  rw [model, analyze_types] at ht
  obtain ⟨d, hd, rfl⟩ := List.mem_map.1 ht
  rw [body_id] at hget
  have hheader := (clean_of_not_hasErrors h d hd).1
  rw [get?_announced hd, Option.getD_some] at hheader
  exact (knowsParts_of_clean hd hheader hget).mono (u.names_reference ▸ List.Subset.refl _)

end CompilationUnit

/-- More references have more names. -/
theorem SymbolTable.names_subset {refs refs' : List Reference} (h : refs ⊆ refs') :
    (ofReferences refs).types.map (·.fullName) ⊆ (ofReferences refs').types.map (·.fullName) := by
  apply List.map_subset
  intro s hs
  obtain ⟨r, hr, hs⟩ := List.mem_flatMap.1 hs
  exact List.mem_flatMap.2 ⟨r, h hr, hs⟩

namespace Environment

open SymbolTable in
theorem closed_loadAll {c : Catalog} {refs : List Reference} {ls : List Library}
    (h : (loadAll c [] ls).run.value = .ok refs) : Reference.Closed refs := by
  refine loadAll_induction (P := Reference.Closed) ?_ (closed_iff.2 (by simp [ofReferences])) h
  intro loaded dependencies l r hloaded hsubset hr
  obtain ⟨hclean, rfl⟩ := Library.unit_of_load hr
  apply closed_iff.2
  intro s hs
  obtain ⟨r, hr, hs⟩ := List.mem_flatMap.1 hs
  rcases List.mem_append.1 hr with hr | hr
  · have hknows := closed_iff.1 hloaded s (List.mem_flatMap.2 ⟨r, hr, hs⟩)
    exact hknows.mono (names_subset (List.subset_append_left _ _))
  · rw [List.mem_singleton.1 hr] at hs
    apply (CompilationUnit.knowsParts_reference hclean s hs).mono
    apply names_subset
    exact List.append_subset.2 ⟨List.subset_append_of_subset_left _ hsubset,
      List.subset_append_right _ _⟩

/-- The references of an environment that was built are closed. -/
theorem closed_of_build {g : Generator} {c : Catalog} {o : EnvironmentOptions} {env : Environment}
    (h : (build g c o).run.value = .ok env) : Reference.Closed env.references := by
  obtain ⟨-, libraries, references, -, hloaded, rfl⟩ := eq_of_build h
  exact closed_loadAll hloaded

end Environment

/-! ## Images -/

/-- The image that the host makes of a module text, or why it makes none. -/
def Generator.answer (g : Generator) (options : UnitOptions) (text : Bytes) :
    Except EmitError Bytes :=
  if ¬ g.available then .error .unavailable
  else (g.emission options text).result.mapError .failed

theorem Generator.value_image (g : Generator) (options : UnitOptions) (text : Bytes) :
    (g.image options text).value = (g.emission options text).result.mapError .failed := by
  rw [image, Logged.value_bind]
  cases (g.emission options text).result <;> rfl

theorem Generator.answer_ne_lowering (g : Generator) (options : UnitOptions) (text : Bytes)
    (e : Code.LoweringError) : g.answer options text ≠ .error (.lowering e) := by
  rw [answer]
  split_ifs
  · cases (g.emission options text).result <;> simp [Except.mapError]
  · simp

/-- The stand-in makes the text itself the image, unless it is told not to be there or pretends not to
know the target. -/
theorem Generator.answer_standIn {g : Generator} (hstandIn : g.emission = .standIn)
    (options : UnitOptions) (text : Bytes) : g.answer options text =
      if ¬ g.available then .error .unavailable
      else if options.target.startsWith "fail" then
        .error (.failed ("Failed to get target: " ++ options.target))
      else .ok text := by
  rw [answer, hstandIn, Emission.standIn]
  split_ifs <;> rfl

theorem Generator.eq_of_answer_standIn {g : Generator} {options : UnitOptions} {text image : Bytes}
    (h : g.answer options text = .ok image) (hstandIn : g.emission = .standIn) : image = text := by
  rw [answer_standIn hstandIn] at h
  split_ifs at h
  cases h
  rfl

namespace CompilationUnit

variable {u : CompilationUnit}

/-- A unit without errors has code if its references are closed. -/
theorem exists_code (hclosed : Reference.Closed u.references)
    (htrees : ∀ tree ∈ u.trees, ∃ source file, tree = SyntaxTree.parse source file)
    (hkeep : u.options.overrides.Uphold Diagnostic.errorCodes) (h : u.hasErrors = false) :
    ∃ M, Code.lower u.model u.options.assembly = .ok M :=
  Code.exists_lower (Model.typed_analyze hclosed (hasErrors_model htrees hkeep h)).resolved _

/-- A unit with code is emitted as the host answers to the text of its module. -/
theorem value_emit {M : Code.Module} (hcode : Code.lower u.model u.options.assembly = .ok M)
    (g : Generator) (h : u.hasErrors = false) :
    (u.emit g).value = g.answer u.options M.text := by
  have hvalue : u.code.value = .ok M.text := by
    rw [code, hcode]
    rfl
  rw [emit, h, if_neg Bool.false_ne_true, Logged.value_bind, hvalue, Generator.answer]
  cases g.available with
  | false => rfl
  | true => exact g.value_image u.options M.text

/-- The errors of a unit are among its problems. -/
theorem hasErrors_problems (u : CompilationUnit) :
    Diagnostic.hasErrors (u.diagnostics.filter (·.isProblem)) = u.hasErrors := by
  rw [hasErrors, Diagnostic.hasErrors, Diagnostic.hasErrors, List.any_filter]
  congr 1
  funext d
  cases hseverity : d.severity <;> simp [Diagnostic.isProblem, Diagnostic.isError, hseverity]

/-- Files that were read have trees if none of them is foreign. -/
theorem treesOf_cases (units : List SyntaxUnit) :
    (∃ path, treesOf units = .error path ∧ .foreign path ∈ units) ∨
      ∃ trees, treesOf units = .ok trees ∧ units = trees.map .parsed := by
  induction units with
  | nil => exact .inr ⟨[], rfl, rfl⟩
  | cons unit units ih =>
    cases unit with
    | foreign path => exact .inl ⟨path, rfl, List.mem_cons_self⟩
    | parsed tree =>
      rcases ih with ⟨path, herror, hmem⟩ | ⟨trees, hok, rfl⟩
      · exact .inl ⟨path, by rw [treesOf, herror]; rfl, List.mem_cons_of_mem _ hmem⟩
      · exact .inr ⟨tree :: trees, by rw [treesOf, hok]; rfl, rfl⟩

end CompilationUnit

namespace Environment

variable {env : Environment} {files : List GeneratedFile} {g : Generator}

/-- The file is of a language that cannot be compiled. -/
def IsForeign (env : Environment) (f : GeneratedFile) : Prop :=
  ∃ path, (env.frontEnd.parse f.code f.path).value = .foreign path

theorem value_unitOf (env : Environment) (files : List GeneratedFile) :
    (env.unitOf files).run.value =
      (env.base.add (files.map fun f => (env.frontEnd.parse f.code f.path).value)).run.value := by
  rw [unitOf, Logged.value_run_bind (Logged.value_run_mapM_lift _ files)]

/-- Errors that were reported with the files are all that is reported. -/
theorem value_link_of_reported (h : Diagnostic.hasErrors (files.flatMap (·.diagnostics)) = true) :
    (env.link g files).value = .ok { diagnostics := files.flatMap (·.diagnostics) } := by
  rw [link]
  dsimp only
  rw [if_pos h]
  rfl

theorem value_link_of_foreign
    (hreported : Diagnostic.hasErrors (files.flatMap (·.diagnostics)) = false)
    (h : ∃ f ∈ files, env.IsForeign f) :
    ∃ path, (env.link g files).value = .error (.rejected path) := by
  obtain ⟨f, hf, path, hforeign⟩ := h
  rcases CompilationUnit.treesOf_cases (files.map fun f =>
    (env.frontEnd.parse f.code f.path).value) with ⟨path, htrees, -⟩ | ⟨trees, -, hparsed⟩
  · have hunit : (env.unitOf files).run.value = .error path := by
      rw [value_unitOf, CompilationUnit.add, htrees]
      rfl
    refine ⟨path, ?_⟩
    rw [link]
    dsimp only
    rw [if_neg (by simp [hreported]), Logged.value_bind, hunit]
    rfl
  · have hmem : SyntaxUnit.foreign path ∈ trees.map .parsed := by
      rw [← hparsed, ← hforeign]
      exact List.mem_map_of_mem hf
    obtain ⟨_, -, heq⟩ := List.mem_map.1 hmem
    cases heq

/-- Files that can be compiled have a unit. -/
theorem unitOf_of_parsed (hbase : env.base = ⟨env.references, env.options.unitOptions, []⟩)
    (h : ¬ ∃ f ∈ files, env.IsForeign f) : (env.unitOf files).run.value = .ok (env.unit files) := by
  rw [value_unitOf, hbase]
  cases hfrontEnd : env.frontEnd with
  | il =>
    have hadd := CompilationUnit.add_parsed ⟨env.references, env.options.unitOptions, []⟩
      (files.map treeOf)
    rwa [List.map_map] at hadd
  | foreign =>
    cases files with
    | nil => rfl
    | cons f files =>
      refine absurd ⟨f, List.mem_cons_self, f.path, ?_⟩ h
      rw [hfrontEnd]
      rfl

/-- The unit of files is reported on, and it has an image if it has no errors. -/
theorem value_link_of_unit {u : CompilationUnit} {M : Code.Module}
    (hreported : Diagnostic.hasErrors (files.flatMap (·.diagnostics)) = false)
    (hunit : (env.unitOf files).run.value = .ok u)
    (hcode : u.hasErrors = false → Code.lower u.model u.options.assembly = .ok M) :
    (env.link g files).value =
      let diagnostics := u.diagnostics.filter (·.isProblem) ++ files.flatMap (·.diagnostics)
      if u.hasErrors then .ok { diagnostics }
      else match g.answer u.options M.text with
        | .error e => .error (.emit e)
        | .ok image => .ok { diagnostics, image := some image } := by
  rw [link]
  dsimp only
  rw [if_neg (by simp [hreported]), Logged.value_bind, hunit]
  dsimp only
  rw [CompilationUnit.hasErrors_problems]
  split
  · rfl
  · next herrors =>
    have herrors := Bool.eq_false_iff.2 herrors
    rw [Logged.value_bind, CompilationUnit.value_emit (hcode herrors) g herrors]
    cases g.answer u.options M.text <;> rfl

/-- What can become of files that are linked: `reported` was reported with them, `u` is their unit
unless a file is `foreign`. -/
inductive LinkAnswer (foreign : Prop) (u : CompilationUnit) (g : Generator)
    (reported : List Diagnostic) : Except PipelineError Assembly → Prop
  | reported : Diagnostic.hasErrors reported = true →
    LinkAnswer foreign u g reported (.ok { diagnostics := reported })
  | rejected {path : Bytes} : Diagnostic.hasErrors reported = false → foreign →
    LinkAnswer foreign u g reported (.error (.rejected path))
  | errors : Diagnostic.hasErrors reported = false → ¬ foreign → u.hasErrors = true →
    LinkAnswer foreign u g reported
      (.ok { diagnostics := u.diagnostics.filter (·.isProblem) ++ reported })
  | failed {M : Code.Module} {e : EmitError} : Diagnostic.hasErrors reported = false → ¬ foreign →
    u.hasErrors = false → Code.lower u.model u.options.assembly = .ok M →
    g.answer u.options M.text = .error e → LinkAnswer foreign u g reported (.error (.emit e))
  | image {M : Code.Module} {image : Bytes} : Diagnostic.hasErrors reported = false → ¬ foreign →
    u.hasErrors = false → Code.lower u.model u.options.assembly = .ok M →
    g.answer u.options M.text = .ok image → LinkAnswer foreign u g reported
      (.ok { diagnostics := u.diagnostics.filter (·.isProblem) ++ reported, image := some image })

/-- Linking gives one of these answers in an environment that was built, also with another front end:
what has no errors is lowered. -/
theorem linkAnswer {g : Generator} {c : Catalog} {o : EnvironmentOptions}
    (hbuild : (build g c o).run.value = .ok env)
    (hkeep : env.options.overrides.Uphold Diagnostic.errorCodes) (frontEnd : FrontEnd)
    (g' : Generator) (files : List GeneratedFile) :
    LinkAnswer (∃ f ∈ files, IsForeign { env with frontEnd } f) (env.unit files) g'
      (files.flatMap (·.diagnostics)) (link { env with frontEnd } g' files).value := by
  cases hreported : Diagnostic.hasErrors (files.flatMap (·.diagnostics)) with
  | true =>
    rw [value_link_of_reported hreported]
    exact .reported hreported
  | false =>
    by_cases hforeign : ∃ f ∈ files, IsForeign { env with frontEnd } f
    · obtain ⟨path, hvalue⟩ := value_link_of_foreign (g := g') hreported hforeign
      rw [hvalue]
      exact .rejected hreported hforeign
    have hunit : (unitOf { env with frontEnd } files).run.value = .ok (env.unit files) :=
      unitOf_of_parsed (built_of_build hbuild).base hforeign
    have htrees : ∀ tree ∈ (env.unit files).trees,
        ∃ source file, tree = SyntaxTree.parse source file := by
      intro tree htree
      obtain ⟨f, -, rfl⟩ := List.mem_map.1 htree
      exact ⟨f.code, f.path, rfl⟩
    cases herrors : (env.unit files).hasErrors with
    | true =>
      rw [value_link_of_unit (M := default) hreported hunit fun h => by simp [herrors] at h, herrors]
      exact .errors hreported hforeign herrors
    | false =>
      obtain ⟨M, hM⟩ := CompilationUnit.exists_code (closed_of_build hbuild) htrees hkeep herrors
      rw [value_link_of_unit hreported hunit fun _ => hM, herrors]
      cases hanswer : g'.answer (env.unit files).options M.text with
      | error e => exact .failed hreported hforeign herrors hM hanswer
      | ok image => exact .image hreported hforeign herrors hM hanswer

/-- What becomes of files that are linked in an environment that was built, also by a front end whose
files cannot be compiled. An assembly has an image exactly if it reports no error; it reports the
problems of the unit and then what was reported with the files, or only that if there is an error
among it. The image is what the host makes of the text of the unit's module, so it is that text where
the code generator is the stand-in. Without an assembly, a file cannot be compiled or the host makes
no image of that text. -/
theorem link_image {g : Generator} {c : Catalog} {o : EnvironmentOptions}
    (hbuild : (build g c o).run.value = .ok env)
    (hkeep : env.options.overrides.Uphold Diagnostic.errorCodes) (frontEnd : FrontEnd)
    (g' : Generator) (files : List GeneratedFile) :
    let foreign := ∃ f ∈ files, IsForeign { env with frontEnd } f
    let reported := files.flatMap (·.diagnostics)
    let unit := env.unit files
    let answer := (link { env with frontEnd } g' files).value
    (∀ a, answer = .ok a →
      (a.image.isSome ↔ Diagnostic.hasErrors a.diagnostics = false) ∧
        (a.diagnostics = if Diagnostic.hasErrors reported then reported
          else unit.diagnostics.filter (·.isProblem) ++ reported) ∧
        ∀ image ∈ a.image, ∃ M, Code.lower unit.model unit.options.assembly = .ok M ∧
          g'.answer unit.options M.text = .ok image ∧ (g'.emission = .standIn → image = M.text)) ∧
      ((∃ path, answer = .error (.rejected path)) ↔
        Diagnostic.hasErrors reported = false ∧ foreign) ∧
      (∀ e, answer = .error (.emit e) ↔ Diagnostic.hasErrors reported = false ∧ ¬ foreign ∧
        unit.hasErrors = false ∧ ∃ M, Code.lower unit.model unit.options.assembly = .ok M ∧
          g'.answer unit.options M.text = .error e) ∧
      answer ≠ .error .notInitialized := by
  intro foreign reported unit answer
  have hanswer : LinkAnswer foreign unit g' reported answer :=
    linkAnswer hbuild hkeep frontEnd g' files
  clear_value answer
  have hproblems (h : Diagnostic.hasErrors reported = false) :
      Diagnostic.hasErrors (unit.diagnostics.filter (·.isProblem) ++ reported) = unit.hasErrors := by
    rw [Analysis.hasErrors_append, h, Bool.or_false, CompilationUnit.hasErrors_problems]
  cases hanswer with
  | reported h => simp [h]
  | rejected h hforeign => simp [h, hforeign]
  | errors h hforeign herrors => simp [h, hforeign, herrors, hproblems h]
  | failed h hforeign herrors hM hanswer => simp [h, hforeign, herrors, hM, hanswer]
  | image h hforeign herrors hM hanswer =>
    have hstandIn := Generator.eq_of_answer_standIn hanswer
    simpa [h, hforeign, herrors, hproblems h, hM, hanswer] using hstandIn

/-- An environment without libraries. -/
def bareOptions : EnvironmentOptions where
  roots := []
  project := { rootNamespace := "App", imports := [], boilerplate := [] }

def bareEnvironment : Environment where
  references := []
  options := bareOptions.project
  base := ⟨[], bareOptions.project.unitOptions, []⟩

theorem build_bareEnvironment :
    (build {} (.ofList []) bareOptions).run.value = .ok bareEnvironment := rfl

/-- A file of which something was reported that is no error. -/
def countFile : GeneratedFile where
  path := "count.il"
  code := "namespace App; component Count { field int n = 1; render { expr n; } }"
  diagnostics := [{ code := "TX2001", message := "", severity := .warning }]

/-- The file has an image, unless the front end is another one. -/
theorem link_image_count :
    (build {} (.ofList []) bareOptions).run.value = .ok bareEnvironment ∧
      bareEnvironment.options.overrides.Uphold Diagnostic.errorCodes ∧
      (∃ a, (link bareEnvironment {} [countFile]).value = .ok a ∧
        a.diagnostics.map (·.code) = [Bytes.ofString "TX2001"] ∧ a.image.isSome) ∧
      ∃ path, (link { bareEnvironment with frontEnd := .foreign } {} [countFile]).value =
        .error (.rejected path) := by
  have hkeep : bareEnvironment.options.overrides.Uphold Diagnostic.errorCodes :=
    Overrides.uphold_nil _
  have hlinked : ((link bareEnvironment {} [countFile]).value.toOption.map fun a =>
      (a.diagnostics.map (·.code), Diagnostic.hasErrors a.diagnostics)) =
        some ([Bytes.ofString "TX2001"], false) := by
    decide +kernel
  obtain ⟨himage, -⟩ := link_image build_bareEnvironment hkeep .il {} [countFile]
  obtain ⟨-, hforeign, -⟩ := link_image build_bareEnvironment hkeep .foreign {} [countFile]
  refine ⟨build_bareEnvironment, hkeep, ?_, hforeign.2 ⟨rfl, ?_⟩⟩
  · cases hanswer : (link bareEnvironment {} [countFile]).value with
    | error e =>
      rw [hanswer] at hlinked
      cases hlinked
    | ok a =>
      rw [hanswer] at hlinked
      obtain ⟨hcodes, herrors⟩ := Prod.mk.inj (Option.some.inj hlinked)
      exact ⟨a, rfl, hcodes, (himage a hanswer).1.2 herrors⟩
  · exact ⟨countFile, List.mem_singleton_self _, _, rfl⟩

end Environment

end ViewCompiler
