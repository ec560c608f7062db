import ViewCompiler.Proofs.LinkedImage
import ViewCompiler.Proofs.LookupReports
import ViewCompiler.Proofs.QuietSteps

/-!
What a project becomes. Generating its files gives nothing, a single failed file, or one file for each
(`Environment.Shape`). Who reports what can be told by the codes: templates, units and the list of files
have codes of their own, so a failed file that speaks of paths is the answer to paths that are used
twice (`Environment.generate_shape`).
-/

namespace ViewCompiler

/-! ## Repeated paths -/

namespace SourceFile

variable {seen repeated before : List Bytes} {path : Bytes} {files : List SourceFile}

/-- The names of a list that stand at their second place. -/
def secondUses (names : List Bytes) : List Bytes :=
  (names.zipIdx.filter fun p => (names.take p.2).count p.1 = 1).map (·.1)

/-- What the search knows of the paths before: which there are, and which were used twice. -/
structure Knows (before seen repeated : List Bytes) : Prop where
  seen : ∀ path, path ∈ seen ↔ 0 < before.count path
  repeated : ∀ path, path ∈ repeated ↔ 1 < before.count path

theorem knows_nil : Knows [] [] [] := ⟨by simp, by simp⟩

/-- A path more: only its own count changes. -/
theorem lt_count_concat {n : Nat} {other : Bytes} : n < (before ++ [path]).count other ↔
    n < before.count other ∨ other = path ∧ before.count path = n := by
  rw [List.count_append]
  by_cases hsame : other = path
  · subst hsame
    simp only [List.count_singleton_self, true_and]
    omega
  · have hother : [path].count other = 0 := List.count_eq_zero_of_not_mem (by simpa using hsame)
    simp [hsame, hother]

/-- A path that is new. -/
theorem Knows.first (h : Knows before seen repeated) (hpath : before.count path = 0) :
    Knows (before ++ [path]) (path :: seen) repeated where
  seen other := by rw [lt_count_concat, List.mem_cons, h.seen, or_comm, and_iff_left hpath]
  repeated other := by
    rw [lt_count_concat, h.repeated, or_iff_left]
    omega

/-- A path that was used once. -/
theorem Knows.second (h : Knows before seen repeated) (hpath : before.count path = 1) :
    Knows (before ++ [path]) seen (path :: repeated) where
  seen other := by
    rw [lt_count_concat, h.seen, or_iff_left]
    omega
  repeated other := by rw [lt_count_concat, List.mem_cons, h.repeated, or_comm, and_iff_left hpath]

/-- A path that was used more often. -/
theorem Knows.again (h : Knows before seen repeated) (hpath : 1 < before.count path) :
    Knows (before ++ [path]) seen repeated where
  seen other := by
    rw [lt_count_concat, h.seen, or_iff_left]
    omega
  repeated other := by
    rw [lt_count_concat, h.repeated, or_iff_left]
    omega

/-- What the search does with the next file. -/
theorem Knows.cases (h : Knows before seen repeated) (f : SourceFile) (files : List SourceFile) :
    ∃ seen' repeated', Knows (before ++ [f.path]) seen' repeated' ∧
      repeatedPaths seen repeated (f :: files) =
        (if before.count f.path = 1 then [f.path] else []) ++ repeatedPaths seen' repeated' files := by
  rw [repeatedPaths]
  by_cases hseen : f.path ∈ seen
  · have hsome := (h.seen _).1 hseen
    rw [if_pos hseen]
    by_cases hrepeated : f.path ∈ repeated
    · have hmany := (h.repeated _).1 hrepeated
      rw [if_pos hrepeated, if_neg (Nat.ne_of_gt hmany)]
      exact ⟨_, _, h.again hmany, rfl⟩
    · have hmost := mt (h.repeated _).2 hrepeated
      have honce : before.count f.path = 1 := by omega
      rw [if_neg hrepeated, if_pos honce]
      exact ⟨_, _, h.second honce, rfl⟩
  · have hzero := mt (h.seen _).2 hseen
    rw [if_neg hseen, if_neg (by omega)]
    exact ⟨_, _, h.first (by omega), rfl⟩

/-- The paths that are reported are those at their second place. -/
theorem repeatedPaths_eq (h : Knows before seen repeated) :
    repeatedPaths seen repeated files =
      (((files.map (·.path)).zipIdx before.length).filter fun p =>
        ((before ++ files.map (·.path)).take p.2).count p.1 = 1).map (·.1) := by
  induction files generalizing before seen repeated with
  | nil => rfl
  | cons f files ih =>
    obtain ⟨seen', repeated', h', hstep⟩ := h.cases f files
    have hcount : ((before ++ f.path :: files.map (·.path)).take before.length).count f.path =
        before.count f.path := by rw [List.take_left]
    rw [hstep, ih h', List.length_append, List.length_singleton, List.append_assoc, List.map_cons,
      List.zipIdx_cons, List.filter_cons]
    simp only [hcount, List.singleton_append, decide_eq_true_eq]
    split <;> rfl

theorem repeatedPaths_eq_secondUses (files : List SourceFile) :
    repeatedPaths [] [] files = secondUses (files.map (·.path)) := repeatedPaths_eq knows_nil

/-- A path is reported if it comes to be used twice. -/
theorem mem_repeatedPaths (h : Knows before seen repeated) :
    path ∈ repeatedPaths seen repeated files ↔
      before.count path ≤ 1 ∧ 1 < (before ++ files.map (·.path)).count path := by
  induction files generalizing before seen repeated with
  | nil =>
    rw [List.map_nil, List.append_nil, repeatedPaths]
    simp
  | cons f files ih =>
    obtain ⟨seen', repeated', h', hstep⟩ := h.cases f files
    rw [hstep, List.mem_append, List.mem_ite_nil_right, List.mem_singleton, ih h', List.append_assoc,
      List.singleton_append, List.map_cons]
    by_cases hsame : path = f.path
    · subst hsame
      simp only [List.count_append, List.count_cons_self, List.count_nil, and_true]
      omega
    · have hother : [f.path].count path = 0 := List.count_eq_zero_of_not_mem (by simpa using hsame)
      simp [hsame, hother]

theorem nodup_repeatedPaths (h : Knows before seen repeated) :
    (repeatedPaths seen repeated files).Nodup := by
  induction files generalizing before seen repeated with
  | nil => exact List.nodup_nil
  | cons f files ih =>
    obtain ⟨seen', repeated', h', hstep⟩ := h.cases f files
    rw [hstep]
    split
    · next honce =>
      refine List.nodup_cons.2 ⟨fun hmem => ?_, ih h'⟩
      have hmost := ((mem_repeatedPaths h').1 hmem).1
      rw [List.count_append, honce, List.count_singleton_self] at hmost
      omega
    · exact ih h'

end SourceFile

/-! ## Codes of reports -/

/-- Reports that are not about templates are about no lookup. -/
theorem Diagnostic.isLookup_eq_false {d : Diagnostic} (h : d.code.startsWith "TX" = false) :
    d.isLookup = false := by
  have hne (code : Bytes) (hcode : code.startsWith "TX" = true) : (d.code == code) = false := by
    rw [beq_eq_false_iff_ne]
    rintro rfl
    rw [h] at hcode
    cases hcode
  rw [isLookup, hne "TX2001" rfl, hne "TX2002" rfl]
  rfl

theorem Diagnostic.code_of_mem_applyOverrides {ds : List Diagnostic} {o : Overrides} {d : Diagnostic}
    (h : d ∈ applyOverrides ds o) : ∃ d₀ ∈ ds, d.code = d₀.code := by
  obtain ⟨d₀, hd₀, hd⟩ := List.mem_filterMap.1 h
  refine ⟨d₀, hd₀, ?_⟩
  rw [override] at hd
  generalize (o.lookup d₀.code).getD .keep = action at hd
  cases action with
  | suppress => cases hd
  | keep | warning | error =>
    cases hd
    rfl

/-- All that a unit of files that were read reports has a code of the language. -/
theorem CompilationUnit.code_of_mem_diagnostics {u : CompilationUnit}
    (htrees : ∀ tree ∈ u.trees, ∃ source file, tree = SyntaxTree.parse source file) {d : Diagnostic}
    (h : d ∈ u.diagnostics) : d.code.startsWith "IL" = true := by
  obtain ⟨d₀, hd₀, hcode⟩ := Diagnostic.code_of_mem_applyOverrides h
  rw [hcode]
  rcases Analysis.isSemantic_of_mem hd₀ with ⟨tree, htree, hd₀⟩ | ⟨file, span, e, rfl⟩
  · obtain ⟨source, file, rfl⟩ := htrees tree htree
    have htext : ∀ code ∈ SyntaxTree.textCodes, code.startsWith "IL" = true := by decide
    exact htext _ (SyntaxTree.report_of_mem_parse hd₀).2
  · change e.code.startsWith "IL" = true
    unfold SemanticError.code
    split <;> rfl

namespace Environment

variable {env : Environment} {files : List SourceFile}

/-- The base unit has no files but such that were read. -/
def OfParsed (env : Environment) : Prop :=
  ∀ tree ∈ env.base.trees, ∃ source file, tree = SyntaxTree.parse source file

theorem OfParsed.unitOf (h : env.OfParsed) {generated : List GeneratedFile} {u : CompilationUnit}
    (hunit : (env.unitOf generated).run.value = .ok u) :
    ∀ tree ∈ u.trees, ∃ source file, tree = SyntaxTree.parse source file := by
  rw [value_unitOf] at hunit
  rcases CompilationUnit.treesOf_cases (generated.map fun f =>
    (env.frontEnd.parse f.code f.path).value) with ⟨path, htrees, -⟩ | ⟨trees, -, hparsed⟩
  · rw [CompilationUnit.add, htrees] at hunit
    cases hunit
  · rw [hparsed, CompilationUnit.add_parsed] at hunit
    cases hunit
    refine List.forall_mem_append.2 ⟨h, fun tree htree => ?_⟩
    have hmem : SyntaxUnit.parsed tree ∈ generated.map fun f =>
        (env.frontEnd.parse f.code f.path).value := by
      rw [hparsed]
      exact List.mem_map_of_mem htree
    obtain ⟨f, -, hf⟩ := List.mem_map.1 hmem
    cases hfrontEnd : env.frontEnd with
    | il =>
      rw [hfrontEnd] at hf
      cases hf
      exact ⟨f.code, f.path, rfl⟩
    | foreign =>
      rw [hfrontEnd] at hf
      cases hf

/-- What is reported when declarations do not link is about no template, nor about the paths. -/
theorem OfParsed.code_of_mem_linkDeclarations (h : env.OfParsed) {declared : List GeneratedFile}
    {ds : List Diagnostic} (hlinked : (env.linkDeclarations declared).run.value = .error ds) :
    ∀ d ∈ ds, d.code.startsWith "TX" = false ∧ d.code ≠ "PRJ0001" := by
  intro d hd
  rcases linkDeclarations_eq_error hlinked with ⟨path, rfl⟩ | ⟨u, hunit, rfl, -⟩
  · rw [List.mem_singleton.1 hd]
    have hne : ("PRJ0002" : Bytes) ≠ "PRJ0001" := by decide
    exact ⟨rfl, hne⟩
  · have hcode := CompilationUnit.code_of_mem_diagnostics (h.unitOf hunit) (List.mem_of_mem_filter hd)
    obtain ⟨rest, hrest⟩ := List.isPrefixOf_iff_prefix.1 hcode
    have hhead : d.code.head? = some 73 := by
      rw [← hrest]
      rfl
    refine ⟨by rw [← hrest]; rfl, fun heq => ?_⟩
    rw [heq] at hhead
    exact absurd hhead (by decide)

theorem hasErrors_linkDeclarations {declared : List GeneratedFile} {ds : List Diagnostic}
    (hlinked : (env.linkDeclarations declared).run.value = .error ds) :
    Diagnostic.hasErrors ds = true := by
  rcases linkDeclarations_eq_error hlinked with ⟨path, rfl⟩ | ⟨u, -, -, herrors⟩
  · rfl
  · exact herrors

/-! ## The shape of a project -/

/-- What becomes of the file that stands at that number: a source stays as it is, and a template has an
item, which starts with the boilerplate if the file is the first one. -/
structure Becomes (env : Environment) (p : SourceFile × Nat) (f : GeneratedFile) : Prop where
  path : f.path = p.1.path
  item : f.item = match p.1.kind with
    | .source => none
    | .template => some (Item.ofFile p.1 (if p.2 = 0 then env.options.boilerplate else [])
        env.options.workingDirectory)
  source : p.1.kind = .source → f.code = p.1.content ∧ f.diagnostics = []

/-- What generating the files of a project gives, with the steps that are announced: nothing, a single
failed file with errors that are no lookups, or a file for each. -/
inductive Shape (env : Environment) (files : List SourceFile) : List GeneratedFile → List Bytes → Prop
  | nothing : files = [] → Shape env files [] []
  | failed {ds : List Diagnostic} : files ≠ [] → Diagnostic.hasErrors ds = true →
    (∀ d ∈ ds, d.isLookup = false) → Shape env files [.failed ds] []
  | each {fs : List GeneratedFile} : files ≠ [] → List.Forall₂ env.Becomes files.zipIdx fs →
    Shape env files fs [preparingProject]

theorem Shape.eq_nil_iff {fs : List GeneratedFile} {labels : List Bytes}
    (h : env.Shape files fs labels) : fs = [] ↔ files = [] := by
  cases h with
  | nothing hnil => exact iff_of_true rfl hnil
  | failed hnil => exact iff_of_false (List.cons_ne_nil _ _) hnil
  | each hnil hfiles =>
    refine iff_of_false ?_ hnil
    rintro rfl
    exact hnil (List.zipIdx_eq_nil_iff.1 (List.forall₂_nil_right_iff.1 hfiles))

theorem becomes_complete (table : SymbolTable) (p : SourceFile × Nat) :
    env.Becomes p (env.complete table (env.declare p.1 p.2).value).value := by
  obtain ⟨file, index⟩ := p
  cases hkind : file.kind with
  | source =>
    have hdeclared : (env.declare file index).value = { path := file.path, code := file.content } := by
      rw [declare, hkind]
      rfl
    rw [hdeclared]
    exact ⟨rfl, by rw [hkind]; rfl, fun _ => ⟨rfl, rfl⟩⟩
  | template =>
    have hdeclared : (env.declare file index).value.path = file.path ∧
        (env.declare file index).value.item = some (Item.ofFile file
          (if index = 0 then env.options.boilerplate else []) env.options.workingDirectory) := by
      rw [declare, hkind]
      exact ⟨rfl, rfl⟩
    rw [complete, hdeclared.2]
    refine ⟨hdeclared.1, ?_, fun hsource => ?_⟩
    · rw [hkind]
      rfl
    · rw [hkind] at hsource
      cases hsource

theorem becomes_completed (reference : Reference) (files : List SourceFile) :
    List.Forall₂ env.Becomes files.zipIdx (env.completed reference files) := by
  rw [completed, declared, List.map_map, List.forall₂_map_right_iff]
  exact List.forall₂_same.2 fun p _ => becomes_complete _ p

/-- In the first pass no component is looked up. -/
theorem not_isLookup_declared : ∀ d ∈ (env.declared files).flatMap (·.diagnostics),
    d.isLookup = false := by
  intro d hd
  obtain ⟨f, hf, hd⟩ := List.mem_flatMap.1 hd
  obtain ⟨p, -, rfl⟩ := List.mem_map.1 hf
  rw [declare] at hd
  split at hd
  · cases hd
  · exact Item.not_isLookup_of_mem_generate hd

/-- Files of which two have one path. -/
theorem generate_of_repeated (env : Environment) (hnil : files ≠ [])
    (hpaths : SourceFile.repeatedPaths [] [] files ≠ []) (sink : StatusSink) :
    (env.generate sink files).value =
        [.failed ((SourceFile.repeatedPaths [] [] files).map .duplicatePath)] ∧
      (env.generate sink files).status = [] := by
  rw [generate, if_neg hnil, if_pos hpaths]
  exact ⟨rfl, rfl⟩

theorem shape_generate (h : env.OfParsed) (sink : StatusSink) (files : List SourceFile) :
    ∃ labels, env.Shape files (env.generate sink files).value labels ∧
      (env.generate sink files).status = sink.told labels := by
  have htold : sink.told [] = [] := by simp [StatusSink.told]
  by_cases hnil : files = []
  · refine ⟨[], ?_, ?_⟩
    · rw [generate, if_pos hnil]
      exact .nothing hnil
    · rw [generate, if_pos hnil, htold]
      rfl
  by_cases hpaths : SourceFile.repeatedPaths [] [] files = []
  · rw [value_generate_of_paths hnil hpaths, status_generate_of_paths hnil hpaths]
    split
    · next herrors => exact ⟨[], .failed hnil herrors not_isLookup_declared, htold.symm⟩
    cases hlinked : (env.linkDeclarations (env.declared files)).run.value with
    | error ds =>
      refine ⟨[], .failed hnil (hasErrors_linkDeclarations hlinked) ?_, htold.symm⟩
      intro d hd
      exact Diagnostic.isLookup_eq_false (h.code_of_mem_linkDeclarations hlinked d hd).1
    | ok reference => exact ⟨_, .each hnil (becomes_completed reference files), rfl⟩
  · obtain ⟨hvalue, hstatus⟩ := generate_of_repeated env hnil hpaths sink
    rw [hvalue, hstatus]
    refine ⟨[], .failed hnil ?_ ?_, htold.symm⟩
    · obtain ⟨path, hpath⟩ := List.exists_mem_of_ne_nil _ hpaths
      exact List.any_eq_true.2 ⟨_, List.mem_map_of_mem hpath, rfl⟩
    · intro d hd
      obtain ⟨path, -, rfl⟩ := List.mem_map.1 hd
      rfl

/-- Of files with paths of their own nothing is said about paths. -/
theorem OfParsed.code_ne_of_paths (h : env.OfParsed) (hnil : files ≠ [])
    (hpaths : SourceFile.repeatedPaths [] [] files = []) (sink : StatusSink) :
    ∀ f ∈ (env.generate sink files).value, ∀ d ∈ f.diagnostics, d.code ≠ "PRJ0001" := by
  have htemplate {d : Diagnostic} (hcode : d.code.startsWith "TX" = true) : d.code ≠ "PRJ0001" := by
    intro heq
    rw [heq] at hcode
    exact absurd hcode (by decide)
  rw [value_generate_of_paths hnil hpaths]
  split
  · refine List.forall_mem_singleton.2 fun d hd => ?_
    obtain ⟨f, hf, hd⟩ := List.mem_flatMap.1 hd
    exact htemplate (code_of_mem_declared hf d hd)
  cases hlinked : (env.linkDeclarations (env.declared files)).run.value with
  | error ds =>
    exact List.forall_mem_singleton.2 fun d hd => (h.code_of_mem_linkDeclarations hlinked d hd).2
  | ok reference => exact fun f hf d hd => htemplate (code_of_mem_completed hf d hd)

/-- What the files of a project become, with any front end and any overrides. It is nothing if there
are no files; else it is one failed file, with errors of which none is about a lookup, and nothing is
announced; or it is a file for each, in order, and it is announced once that the project is prepared.
The failure speaks of paths exactly if two files have one path, and then it names each such path once,
in the order of their second places. -/
theorem generate_shape (h : env.OfParsed) (sink : StatusSink) (files : List SourceFile) :
    (∃ labels, env.Shape files (env.generate sink files).value labels ∧
      (env.generate sink files).status = sink.told labels) ∧
    ((env.generate sink files).value = [] ↔ files = []) ∧
    ((∃ f ∈ (env.generate sink files).value, ∃ d ∈ f.diagnostics, d.code = "PRJ0001") ↔
      ¬ (files.map (·.path)).Nodup) ∧
    (¬ (files.map (·.path)).Nodup → (env.generate sink files).value =
      [.failed ((SourceFile.secondUses (files.map (·.path))).map .duplicatePath)]) ∧
    (SourceFile.secondUses (files.map (·.path))).Nodup ∧
    ∀ path, path ∈ SourceFile.secondUses (files.map (·.path)) ↔
      1 < (files.map (·.path)).count path := by
  have hrepeated := SourceFile.repeatedPaths_eq_secondUses files
  have hmem (path : Bytes) : path ∈ SourceFile.secondUses (files.map (·.path)) ↔
      1 < (files.map (·.path)).count path := by
    rw [← hrepeated, SourceFile.mem_repeatedPaths SourceFile.knows_nil]
    simp
  have hnodup : SourceFile.secondUses (files.map (·.path)) = [] ↔ (files.map (·.path)).Nodup := by
    simp only [List.eq_nil_iff_forall_not_mem, hmem, List.nodup_iff_count_le_one, not_lt]
  have hfailed (htwice : ¬ (files.map (·.path)).Nodup) : (env.generate sink files).value =
      [.failed ((SourceFile.secondUses (files.map (·.path))).map .duplicatePath)] := by
    have hpaths : SourceFile.repeatedPaths [] [] files ≠ [] := by rwa [hrepeated, Ne, hnodup]
    have hnil : files ≠ [] := by
      rintro rfl
      exact htwice List.nodup_nil
    rw [(generate_of_repeated _ hnil hpaths sink).1, hrepeated]
  obtain ⟨labels, hshape, hstatus⟩ := shape_generate h sink files
  refine ⟨⟨labels, hshape, hstatus⟩, hshape.eq_nil_iff, ⟨?_, ?_⟩, hfailed, ?_, hmem⟩
  · rintro ⟨f, hf, d, hd, hcode⟩ hunique
    have hpaths : SourceFile.repeatedPaths [] [] files = [] := by rwa [hrepeated, hnodup]
    have hnil : files ≠ [] := by
      rintro rfl
      cases hf
    exact h.code_ne_of_paths hnil hpaths sink f hf d hd hcode
  · intro htwice
    obtain ⟨path, hpath⟩ := List.exists_mem_of_ne_nil _ (mt hnodup.1 htwice)
    rw [hfailed htwice]
    exact ⟨_, List.mem_singleton_self _, _, List.mem_map_of_mem hpath, rfl⟩
  · rw [← hrepeated]
    exact SourceFile.nodup_repeatedPaths SourceFile.knows_nil

/-- A template and a source. -/
def pairFiles : List SourceFile := [
  { path := "Page.view", content := "<p>Hi</p>", kind := .template },
  { path := "Note.il", content := "namespace App; class Note { }", kind := .source }]

/-- Each of the files becomes one, and when they come again in another order, and once more, they are
named as they come for the second time. -/
theorem generate_shape_pair : bareEnvironment.OfParsed ∧
    bareEnvironment.Shape pairFiles (bareEnvironment.generate .listener pairFiles).value
      [preparingProject] ∧
    (bareEnvironment.generate .listener (pairFiles ++ pairFiles.reverse ++ pairFiles)).value =
      [.failed [.duplicatePath "Note.il", .duplicatePath "Page.view"]] := by
  have hparsed : bareEnvironment.OfParsed := by simp [OfParsed, bareEnvironment]
  obtain ⟨⟨labels, hshape, hstatus⟩, -⟩ := generate_shape hparsed .listener pairFiles
  obtain ⟨-, -, -, hfailed, -⟩ :=
    generate_shape hparsed .listener (pairFiles ++ pairFiles.reverse ++ pairFiles)
  have hannounced : (bareEnvironment.generate .listener pairFiles).status = [preparingProject] := by
    decide +kernel
  refine ⟨hparsed, ?_, hfailed (by decide)⟩
  rw [hannounced] at hstatus
  obtain rfl : [preparingProject] = labels := hstatus
  exact hshape

end Environment

end ViewCompiler
