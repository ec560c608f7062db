import ViewCompiler.Proofs.BuiltEnvironment
import ViewCompiler.Proofs.TemplateSoundness

/-!
The two passes over the templates of a project. The first writes declarations without markup and
links them to a reference; the second writes them again, now with markup that may refer to all
components. What the first pass said about the components stays true: the files of the second pass
make the same reference (`Environment.reference_generate`).
-/

namespace ViewCompiler

/-! ## A template, declared and completed -/

namespace WriteScope

/-- The text of a declaration in front of its last line. -/
def opening (c : WriteScope) (t : Template) (name : Bytes) : Bytes :=
  c.header t name ++ t.injections.flatMap c.injectLine ++ t.code.flatMap c.codeLines
    ++ "#line default"

theorem getLast?_opening (c : WriteScope) (t : Template) (name : Bytes) :
    (c.opening t name).getLast? ≠ some Ascii.backslash := by
  have hlast : ("#line default" : Bytes).getLast? = some 116 := rfl
  rw [opening, List.getLast?_append, hlast, Option.some_or]
  decide

end WriteScope

namespace Template

/-- Where a template is written. -/
def writeScope (t : Template) (i : Item) (o : TemplateOptions) (table : SymbolTable) : WriteScope where
  item := i
  ns := ComponentName.namespaceOf o.rootNamespace i.path
  usings := t.allUsings o.imports
  table

variable {t : Template} {i : Item} {o : TemplateOptions} {table : SymbolTable} {name file : Bytes}

theorem code_write_none : (t.write i o none name).code =
    (t.writeScope i o {}).opening t name ++ Ascii.lf :: ("\x7d\n" : Bytes) := by
  have hline : ("#line default\n" : Bytes) = ("#line default" : Bytes) ++ [Ascii.lf] := rfl
  simp only [write, WriteScope.code_append, WriteScope.code_text, WriteScope.opening,
    WriteScope.members, hline, List.append_assoc]
  rfl

theorem code_write_some : (t.write i o (some table) name).code =
    (t.writeScope i o {}).opening t name ++
      Ascii.lf :: (((t.writeScope i o table).render t).code ++ ("\x7d\n" : Bytes)) := by
  have hline : ("#line default\n" : Bytes) = ("#line default" : Bytes) ++ [Ascii.lf] := rfl
  simp only [write, WriteScope.code_append, WriteScope.code_text, WriteScope.opening,
    WriteScope.members, hline, List.append_assoc]
  rfl

/-- The end of a type and of its file. -/
theorem scanFrom_rbrace (c : Cursor) : ∃ b e, TokenStream.scanFrom c ("\x7d\n" : Bytes) = ⟨[b, e], []⟩
    ∧ b.kind = .punct .rbrace ∧ e.kind = .eof := by
  obtain ⟨s, c', hs⟩ := WriteScope.scans_rbrace c []
  rw [List.append_nil] at hs
  rw [hs.scanFrom_eq, TokenStream.scanFrom]
  exact ⟨_, _, rfl, rfl, rfl⟩

/-- Adding the markup to a declaration changes its last type only, which then renders the components
that the markup means. -/
theorem lastDiffers_write (ht : table.Nameable) (hs : ∀ n ∈ t.nodes, n.Sound)
    (hd : (SyntaxTree.parse (t.write i o none name).code file).WellRead)
    (hg : (SyntaxTree.parse (t.write i o (some table) name).code file).WellRead) :
    ∃ k, Tokens.MarkupTail (((t.writeScope i o table).allComponents t.nodes).map table.nameOf) k
      ∧ Tokens.LastDiffers k
        (Tokens.unitItems false false (TokenStream.scan (t.write i o none name).code).tokens)
        (Tokens.unitItems false false (TokenStream.scan (t.write i o (some table) name).code).tokens) := by
  rw [SyntaxTree.wellRead_parse, code_write_none] at hd
  rw [SyntaxTree.wellRead_parse, code_write_some] at hg
  rw [code_write_none, code_write_some]
  obtain ⟨ts, c, hscans⟩ := TokenStream.exists_scans_lines (WriteScope.getLast?_opening _ t name)
    (by decide) hd.1
  simp only [TokenStream.scan, (hscans _).scanFrom_eq] at hd hg ⊢
  obtain ⟨b, e, htail, hb, he⟩ := scanFrom_rbrace c
  rw [htail] at hd ⊢
  have hmarkup := WriteScope.markupTail_of_clean (c := t.writeScope i o table) ht hs hg.1
  exact ⟨_, hmarkup, Tokens.unitItems_append hb he (hscans []).ne_eof hmarkup.renderTail hd.2 hg.2⟩

theorem outline_write (ht : table.Nameable) (hs : ∀ n ∈ t.nodes, n.Sound)
    (hd : (SyntaxTree.parse (t.write i o none name).code file).WellRead)
    (hg : (SyntaxTree.parse (t.write i o (some table) name).code file).WellRead) :
    (SyntaxTree.parse (t.write i o (some table) name).code file).outline =
      (SyntaxTree.parse (t.write i o none name).code file).outline := by
  obtain ⟨k, -, front, d, d', hvalue, hvalue', houtline, -⟩ := lastDiffers_write ht hs hd hg
  rw [SyntaxTree.parse, SyntaxTree.parse, SyntaxTree.outline_ofItems, SyntaxTree.outline_ofItems, hvalue,
    hvalue']
  simp [Tokens.UnitItem.outline, houtline]

end Template

namespace Item

variable {i : Item} {o : TemplateOptions} {table : SymbolTable} {file : Bytes}

theorem value_generate (i : Item) (o : TemplateOptions) (table : Option SymbolTable) :
    (i.generate o table).value =
      if ComponentName.isValid (ComponentName.ofPath i.path) then
        { code := ((Template.parse i.content).write i o table (ComponentName.ofPath i.path)).code
          diagnostics := (Template.parse i.content).errors.map i.diagnostic ++ ((Template.parse
            i.content).write i o table (ComponentName.ofPath i.path)).reports.map i.diagnostic }
      else
        { diagnostics := (Template.parse i.content).errors.map i.diagnostic ++
            [i.invalidName (ComponentName.ofPath i.path)] } := by
  rw [generate]
  by_cases hvalid : ComponentName.isValid (ComponentName.ofPath i.path) = true
  · simp only [hvalid, if_true]
    rfl
  · simp only [hvalid]
    rfl

/-- The template of an item that was written without errors has none. -/
theorem not_faulty_of_generate {symbols : Option SymbolTable}
    (h : Diagnostic.hasErrors (i.generate o symbols).value.diagnostics = false) :
    ¬ Faulty (Template.parse i.content).errors := by
  rintro ⟨r, hr, he⟩
  have hmem : i.diagnostic r ∈ (i.generate o symbols).value.diagnostics := by
    rw [value_generate]
    split <;> exact List.mem_append_left _ (List.mem_map.2 ⟨r, hr, rfl⟩)
  have hne := List.any_eq_false.1 h _ hmem
  simp [Diagnostic.isError, diagnostic, Diagnostic.located, he] at hne

theorem outline_generate (ht : table.Nameable)
    (h : Diagnostic.hasErrors (i.generate o none).value.diagnostics = false)
    (hd : (SyntaxTree.parse (i.generate o none).value.code file).WellRead)
    (hg : (SyntaxTree.parse (i.generate o (some table)).value.code file).WellRead) :
    (SyntaxTree.parse (i.generate o (some table)).value.code file).outline =
      (SyntaxTree.parse (i.generate o none).value.code file).outline := by
  have hs := Template.sound_parse (not_faulty_of_generate h)
  rw [value_generate] at hd hg ⊢
  rw [value_generate]
  split
  · next hvalid =>
    rw [if_pos hvalid] at hd hg
    exact Template.outline_write ht hs hd hg
  · rfl

end Item

/-! ## A project, declared and completed -/

namespace Environment

variable (env : Environment)

/-- The files of a project after the first pass. -/
def declared (files : List SourceFile) : List GeneratedFile :=
  files.zipIdx.map fun p => (env.declare p.1 p.2).value

/-- The types that the markup of a project may refer to, with `reference` from the first pass. -/
def markupTable (reference : Reference) : SymbolTable := .ofReferences (env.references ++ [reference])

/-- The files of a project after the second pass. -/
def completed (reference : Reference) (files : List SourceFile) : List GeneratedFile :=
  (env.declared files).map fun f => (env.complete (env.markupTable reference) f).value

/-- The first pass over the files succeeds, with `reference` as its result. -/
structure Declares (files : List SourceFile) (reference : Reference) : Prop where
  paths : SourceFile.repeatedPaths [] [] files = []
  clean : Diagnostic.hasErrors ((env.declared files).flatMap (·.diagnostics)) = false
  linked : (env.linkDeclarations (env.declared files)).run.value = .ok reference

variable {env} {files : List SourceFile} {reference : Reference}

theorem value_generate (h : env.Declares files reference) (sink : StatusSink) :
    (env.generate sink files).value = env.completed reference files := by
  rw [generate]
  split
  · next hnil =>
    subst hnil
    rfl
  · rw [if_neg (not_not_intro h.paths)]
    simp only [Logged.value_bind]
    rw [Logged.value_mapM]
    change (if Diagnostic.hasErrors ((env.declared files).flatMap (·.diagnostics)) = true then _
      else _ : Logged (List GeneratedFile)).value = _
    rw [if_neg (by simp [h.clean]), Logged.value_bind]
    have hlinked : (env.linkDeclarations (files.zipIdx.map fun p => (env.declare p.1 p.2).value)).run.value
        = .ok reference := h.linked
    rw [hlinked]
    simp only [Logged.value_bind, Logged.value_mapM]
    rfl

/-- The first pass makes the unit of the declared files. -/
theorem Declares.reference_eq (h : env.Declares files reference) (hb : env.Built) :
    (env.unit (env.declared files)).reference = reference := by
  have hlinked := h.linked
  rw [linkDeclarations] at hlinked
  have hlinked := Logged.run_lift_bind_eq_ok hlinked
  rw [hb.unitOf_eq] at hlinked
  dsimp only at hlinked
  split at hlinked
  · cases hlinked
  · cases hlinked
    rfl

/-- The names of what the markup of a project may refer to can be written. -/
theorem Built.nameable_markupTable (hb : env.Built) (files : List GeneratedFile) :
    (env.markupTable (env.unit files).reference).Nameable := by
  have hr : (env.unit files).reference.Nameable := by
    refine CompilationUnit.nameable_reference fun tree htree => ?_
    obtain ⟨f, -, rfl⟩ := List.mem_map.1 htree
    exact SyntaxTree.nameable_parse _ _
  exact SymbolTable.nameable_ofReferences (List.forall_mem_append.2 ⟨hb.nameable, by simpa using hr⟩)

/-- Files without errors are files of which each has none. -/
theorem not_hasErrors_of_mem {generated : List GeneratedFile} {f : GeneratedFile} (hf : f ∈ generated)
    (h : Diagnostic.hasErrors (generated.flatMap (·.diagnostics)) = false) :
    Diagnostic.hasErrors f.diagnostics = false := by
  rw [Diagnostic.hasErrors, List.any_flatMap, List.any_eq_false] at h
  simpa [Diagnostic.hasErrors] using h f hf

theorem outline_complete {table : SymbolTable} (ht : table.Nameable) {file : SourceFile} {index : Nat}
    (hclean : Diagnostic.hasErrors (env.declare file index).value.diagnostics = false)
    (hd : (treeOf (env.declare file index).value).WellRead)
    (hc : (treeOf (env.complete table (env.declare file index).value).value).WellRead) :
    (treeOf (env.complete table (env.declare file index).value).value).outline =
      (treeOf (env.declare file index).value).outline := by
  rw [declare] at hclean hd hc ⊢
  split
  · rfl
  · next hkind =>
    rw [hkind] at hclean hd hc
    exact Item.outline_generate ht hclean hd hc

/-- If all files are read cleanly in both passes, the second pass does not change what the files
declare. -/
theorem Declares.outline_completed (h : env.Declares files reference) (hb : env.Built)
    (hd : ∀ f ∈ env.declared files, (treeOf f).WellRead)
    (hc : ∀ f ∈ env.completed reference files, (treeOf f).WellRead) :
    (env.unit (env.completed reference files)).trees.map (·.outline) =
      (env.unit (env.declared files)).trees.map (·.outline) := by
  simp only [unit, completed, List.map_map]
  refine List.map_congr_left fun f hf => ?_
  have hclean := not_hasErrors_of_mem hf h.clean
  have hwell := hd f hf
  have hwell' := hc _ (List.mem_map.2 ⟨f, hf, rfl⟩)
  obtain ⟨p, -, rfl⟩ := List.mem_map.1 hf
  exact outline_complete (h.reference_eq hb ▸ hb.nameable_markupTable _) hclean hwell hwell'

/-- The second pass makes the same reference as the first. -/
theorem Declares.reference_completed (h : env.Declares files reference) (hb : env.Built)
    (hd : ∀ f ∈ env.declared files, (treeOf f).WellRead)
    (hc : ∀ f ∈ env.completed reference files, (treeOf f).WellRead) :
    (env.unit (env.completed reference files)).reference = reference := by
  have hsame : (env.unit (env.completed reference files)).reference =
      (env.unit (env.declared files)).reference :=
    CompilationUnit.reference_congr rfl rfl (h.outline_completed hb hd hc)
  exact hsame.trans (h.reference_eq hb)

/-- What the first pass says about the components of a project stays true: the units of both passes
exist, the reference of the first pass is that of its unit, and if all files are read cleanly the
unit of the second pass is the same reference. -/
theorem reference_generate {g : Generator} {c : Catalog} {o : EnvironmentOptions}
    (hbuild : (build g c o).run.value = .ok env) (h : env.Declares files reference)
    (sink : StatusSink) :
    ∃ D G : CompilationUnit, (env.unitOf (env.declared files)).run.value = .ok D
      ∧ (env.unitOf (env.generate sink files).value).run.value = .ok G
      ∧ D.reference = reference
      ∧ ((∀ tree ∈ D.trees ++ G.trees, tree.WellRead) → G.reference = D.reference) := by
  have hb := built_of_build hbuild
  rw [value_generate h]
  refine ⟨_, _, hb.unitOf_eq _, hb.unitOf_eq _, h.reference_eq hb, fun hwell => ?_⟩
  simp only [unit, List.forall_mem_append, List.forall_mem_map] at hwell
  rw [h.reference_completed hb hwell.1 hwell.2, h.reference_eq hb]

/-! ## A project with one page -/

/-- A library with one component. -/
def kitCatalog : Catalog := .ofList [
  { name := "Kit"
    sources := ["namespace Kit; component Panel { param string Title; param fragment ChildContent; }"] }]

def kitOptions : EnvironmentOptions where
  roots := ["Kit"]
  project := { rootNamespace := "App", imports := ["Kit"], boilerplate := [] }

def kitEnvironment : Environment := (build {} kitCatalog kitOptions).run.value.toOption.getD default

/-- A template that renders an element and a component with content. -/
def pageFiles : List SourceFile := [
  { path := "Page.view"
    content := "<p class=\"note\">@Count</p>
      <Panel Title=\"Next\">@(Count + 1)</Panel>
      @code { param int Count; method Reset() { Count = 0; } }"
    kind := .template }]

def pageReference : Reference where
  name := "App"
  dependencies := ["Kit"]
  types := [
    { ns := "App", name := "Page", kind := .component, library := "App"
      members := [⟨.param, "Count", "int"⟩]
      methods := [⟨"Reset", [], []⟩] }]

theorem build_kitEnvironment : (build {} kitCatalog kitOptions).run.value = .ok kitEnvironment := by
  have h : (build {} kitCatalog kitOptions).run.value.toOption.isSome = true := by
    rw [kitCatalog]
    repeat rw [Bytes.ofString_ofList]
    decide +kernel
  rw [kitEnvironment]
  cases hb : (build {} kitCatalog kitOptions).run.value with
  | ok env => rfl
  | error e =>
    rw [hb] at h
    cases h

theorem declares_pageFiles : kitEnvironment.Declares pageFiles pageReference where
  paths := by decide +kernel
  clean := by
    rw [kitEnvironment, kitCatalog, pageFiles]
    repeat rw [Bytes.ofString_ofList]
    decide +kernel
  linked := by
    rw [kitEnvironment, kitCatalog, pageFiles]
    repeat rw [Bytes.ofString_ofList]
    decide +kernel

theorem reference_generate_page :
    (build {} kitCatalog kitOptions).run.value = .ok kitEnvironment
      ∧ kitEnvironment.Declares pageFiles pageReference
      ∧ ∃ D G : CompilationUnit, (kitEnvironment.unitOf (kitEnvironment.declared pageFiles)).run.value
          = .ok D
        ∧ (kitEnvironment.unitOf (kitEnvironment.generate .none pageFiles).value).run.value = .ok G
        ∧ (∀ tree ∈ D.trees ++ G.trees, tree.WellRead)
        ∧ D.reference = pageReference ∧ G.reference = pageReference := by
  have hb := built_of_build build_kitEnvironment
  obtain ⟨D, G, hD, hG, href, hsame⟩ :=
    reference_generate build_kitEnvironment declares_pageFiles .none
  have hwell : ∀ tree ∈ D.trees ++ G.trees, tree.WellRead := by
    rw [hb.unitOf_eq] at hD hG
    cases hD
    cases hG
    rw [kitEnvironment, kitCatalog, pageFiles]
    repeat rw [Bytes.ofString_ofList]
    decide +kernel
  exact ⟨build_kitEnvironment, declares_pageFiles, D, G, hD, hG, hwell, href, (hsame hwell).trans href⟩

end Environment

end ViewCompiler
