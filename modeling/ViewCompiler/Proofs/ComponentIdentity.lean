import ViewCompiler.Assembly
import ViewCompiler.Proofs.ComponentBinding
import ViewCompiler.Proofs.DeclarationPass

/-!
Components in markup keep their identity through linking, or lose it. A template writes a component
that an element means by its full name, and linking looks that name up again where it was written.
The component is bound to the type that was meant exactly when no namespace around the template
captures the name (`Environment.bound_components`).
-/

namespace ViewCompiler

/-! ## The render block of a template -/

namespace SyntaxTree

theorem getLast?_types_ofItems {file : Bytes} {front : List Tokens.UnitItem} {decl : TypeDecl}
    {ds : List Diagnostic} :
    (ofItems file (front ++ [Tokens.UnitItem.type decl]) ds).types.getLast? = some decl := by
  simp [ofItems, List.filterMap_append]

theorem errors_of_parse {source file : Bytes} (h : (parse source file).diagnostics = []) :
    (Tokens.unitItems false false (TokenStream.scan source).tokens).errors = [] := by
  have hreader := (List.append_eq_nil_iff.1 h).2
  simpa using hreader

theorem wellRead_of_nil {tree : SyntaxTree} (h : tree.diagnostics = []) : tree.WellRead := by
  simp [WellRead, h]

end SyntaxTree

namespace Template

variable {t : Template} {i : Item} {o : TemplateOptions} {table : SymbolTable} {name file : Bytes}

/-- The last type of a template that is read without reports renders the components that the markup
means, by their full names. -/
theorem render_write (ht : table.Nameable) (hs : ∀ n ∈ t.nodes, n.Sound)
    (hd : (SyntaxTree.parse (t.write i o none name).code file).WellRead)
    (hg : (SyntaxTree.parse (t.write i o (some table) name).code file).diagnostics = []) :
    ∃ decl block, (SyntaxTree.parse (t.write i o (some table) name).code file).types.getLast? = some decl
      ∧ decl.render = some block ∧ RenderOp.names block.ops =
        ((t.writeScope i o table).allComponents t.nodes).map table.nameOf := by
  obtain ⟨k, hk, front, d, decl, -, hvalue, -, hrenders⟩ :=
    lastDiffers_write ht hs hd (SyntaxTree.wellRead_of_nil hg)
  obtain ⟨block, hblock, hnames⟩ := hk.names_render (hrenders (SyntaxTree.errors_of_parse hg))
  refine ⟨decl, block, ?_, hblock, hnames⟩
  rw [SyntaxTree.parse, hvalue]
  exact SyntaxTree.getLast?_types_ofItems

end Template

namespace Item

variable {i : Item} {o : TemplateOptions} {table : SymbolTable} {file : Bytes}

theorem isValid_of_generate {symbols : Option SymbolTable}
    (h : Diagnostic.hasErrors (i.generate o symbols).value.diagnostics = false) :
    ComponentName.isValid (ComponentName.ofPath i.path) = true := by
  refine Decidable.byContradiction fun hvalid => ?_
  rw [value_generate, if_neg hvalid, Diagnostic.hasErrors, List.any_append] at h
  simp [Diagnostic.isError, invalidName, Diagnostic.located] at h

theorem render_generate (ht : table.Nameable)
    (h : Diagnostic.hasErrors (i.generate o none).value.diagnostics = false)
    (hd : (SyntaxTree.parse (i.generate o none).value.code file).WellRead)
    (hg : (SyntaxTree.parse (i.generate o (some table)).value.code file).diagnostics = []) :
    ∃ decl block, (SyntaxTree.parse (i.generate o (some table)).value.code file).types.getLast? = some decl
      ∧ decl.render = some block ∧ RenderOp.names block.ops =
        (((Template.parse i.content).writeScope i o table).allComponents
          (Template.parse i.content).nodes).map table.nameOf := by
  have hs := Template.sound_parse (not_faulty_of_generate h)
  have hvalid := isValid_of_generate h
  rw [value_generate, if_pos hvalid] at hd hg ⊢
  exact Template.render_write ht hs hd hg

end Item

/-! ## Linking without errors -/

namespace Environment

variable {env : Environment} {files : List SourceFile} {reference : Reference}

theorem hasErrors_filter_isProblem (ds : List Diagnostic) :
    Diagnostic.hasErrors (ds.filter (·.isProblem)) = Diagnostic.hasErrors ds := by
  rw [Diagnostic.hasErrors, Diagnostic.hasErrors, List.any_filter]
  congr 1
  funext d
  cases h : d.severity <;> simp [Diagnostic.isProblem, Diagnostic.isError, h]

/-- The unit that is linked without errors has none. -/
theorem not_hasErrors_of_link {g : Generator} {generated : List GeneratedFile} {a : Assembly}
    {u : CompilationUnit} (hunit : (env.unitOf generated).run.value = .ok u)
    (hlink : (env.link g generated).value = .ok a)
    (hclean : Diagnostic.hasErrors a.diagnostics = false) : u.hasErrors = false := by
  rw [link] at hlink
  dsimp only at hlink
  split at hlink
  · next herror =>
    cases hlink
    rw [herror] at hclean
    cases hclean
  · rw [Logged.value_bind, hunit] at hlink
    dsimp only at hlink
    rw [hasErrors_filter_isProblem] at hlink
    split at hlink
    · next herror =>
      cases hlink
      rw [Analysis.hasErrors_append, hasErrors_filter_isProblem, herror] at hclean
      cases hclean
    · next hnone => simpa [CompilationUnit.hasErrors] using hnone

/-- The unit of a first pass that succeeds has no errors. -/
theorem Declares.not_hasErrors (h : env.Declares files reference) {u : CompilationUnit}
    (hunit : (env.unitOf (env.declared files)).run.value = .ok u) : u.hasErrors = false := by
  have hlinked := h.linked
  rw [linkDeclarations] at hlinked
  have hlinked := Logged.run_lift_bind_eq_ok hlinked
  rw [hunit] at hlinked
  dsimp only at hlinked
  rw [hasErrors_filter_isProblem] at hlinked
  split at hlinked
  · cases hlinked
  · next hnone => simpa [CompilationUnit.hasErrors] using hnone

/-! ## The markup of a project -/

variable (env)

/-- The item of a template at a position of its project. -/
def itemOf (file : SourceFile) (index : Nat) : Item :=
  .ofFile file (if index = 0 then env.options.boilerplate else []) env.options.workingDirectory

/-- The components that the elements of a template mean, in order. -/
def meanings (reference : Reference) (file : SourceFile) (index : Nat) : List TypeId :=
  let item := env.itemOf file index
  let t := Template.parse item.content
  (t.writeScope item env.options.templateOptions (env.markupTable reference)).allComponents t.nodes

variable {env}

theorem means_meanings {file : SourceFile} {index : Nat} :
    ∀ type ∈ env.meanings reference file index, (env.markupTable reference).Means type :=
  WriteScope.means_allComponents (c := Template.writeScope _ _ _ _) _

/-- The last type of a template after the second pass renders what the markup means. -/
theorem render_complete {file : SourceFile} {index : Nat} (hkind : file.kind = .template)
    (ht : (env.markupTable reference).Nameable)
    (hclean : Diagnostic.hasErrors (env.declare file index).value.diagnostics = false)
    (hd : (treeOf (env.declare file index).value).WellRead)
    (hg : (treeOf (env.complete (env.markupTable reference)
      (env.declare file index).value).value).diagnostics = []) :
    ∃ decl block, (treeOf (env.complete (env.markupTable reference)
        (env.declare file index).value).value).types.getLast? = some decl ∧ decl.render = some block
      ∧ RenderOp.names block.ops =
        (env.meanings reference file index).map (env.markupTable reference).nameOf := by
  rw [declare, hkind] at hclean hd hg ⊢
  exact Item.render_generate ht hclean hd hg

theorem getElem?_completed {file : SourceFile} {index : Nat} (h : files[index]? = some file) :
    (env.completed reference files)[index]? =
      some (env.complete (env.markupTable reference) (env.declare file index).value).value := by
  simp [completed, declared, List.getElem?_map, List.getElem?_zipIdx, h]

/-! ## Components after linking -/

/-- The type of `u` with the markup of the file at `index`: the last one that the file declares. Each
component in the markup is bound to the type that is meant exactly when its full name is not
captured where it is written. -/
def BindsMarkup (env : Environment) (reference : Reference) (u : CompilationUnit) (file : SourceFile)
    (index : Nat) : Prop :=
  ∃ tree d ops, u.trees[index]? = some tree ∧ tree.types.getLast? = some d.decl
    ∧ d ∈ Analysis.declared u.references u.trees ∧ d.tree = index
    ∧ (u.model.table.body d).value ∈ u.model.types ∧ (u.model.table.body d).value.render = some ops
    ∧ List.Forall₂ (fun type bound =>
        bound.map u.model.table.nameOf = some ((env.markupTable reference).nameOf type) ↔
          ¬ (env.markupTable reference).Captured tree.ns ((env.markupTable reference).nameOf type))
      (env.meanings reference file index) (BoundOp.allComponents ops)

theorem bindsMarkup_of_render {u : CompilationUnit} {file : SourceFile} {index : Nat}
    (ht : (env.markupTable reference).Nameable)
    (hfaces : (env.markupTable reference).types.map (·.face) = u.model.table.types.map (·.face))
    {tree : SyntaxTree} (htree : u.trees[index]? = some tree) {decl : TypeDecl} {block : RenderBlock}
    (hlast : tree.types.getLast? = some decl) (hblock : decl.render = some block)
    (hnames : RenderOp.names block.ops =
      (env.meanings reference file index).map (env.markupTable reference).nameOf) :
    env.BindsMarkup reference u file index := by
  obtain ⟨d, hd, hindex, hscope, rfl⟩ :=
    @Analysis.exists_declared u.references _ _ _ _ htree (List.mem_of_getLast? hlast)
  obtain ⟨ops, hops, hbound⟩ := u.forall₂_components ht hfaces hblock hnames means_meanings
  have hmem : (u.model.table.body d).value ∈ u.model.types := by
    rw [CompilationUnit.model, Analysis.analyze_types]
    exact List.mem_map.2 ⟨d, hd, rfl⟩
  rw [hscope] at hbound
  exact ⟨tree, d, ops, htree, hlast, hd, hindex, hmem, hops, hbound⟩

/-- If errors in the text of files stay errors, nothing is wrong with the text of the files of a
unit without errors. -/
theorem diagnostics_treeOf (hkeep : env.options.overrides.Uphold SyntaxTree.textCodes)
    {generated : List GeneratedFile}
    (h : (env.unit generated).hasErrors = false) : ∀ f ∈ generated, (treeOf f).diagnostics = [] :=
  fun _ hf => CompilationUnit.diagnostics_eq_nil (u := env.unit generated) hkeep h
    (List.mem_map_of_mem hf)

/-- The markup of a project whose files are read without reports in both passes. -/
theorem Declares.bindsMarkup (h : env.Declares files reference) (hb : env.Built)
    (hd : ∀ f ∈ env.declared files, (treeOf f).WellRead)
    (hc : ∀ f ∈ env.completed reference files, (treeOf f).diagnostics = [])
    {index : Nat} {file : SourceFile} (hfile : files[index]? = some file)
    (hkind : file.kind = .template) :
    env.BindsMarkup reference (env.unit (env.completed reference files)) file index := by
  have ht := h.reference_eq hb ▸ hb.nameable_markupTable (env.declared files)
  have hcompleted := @getElem?_completed env _ reference _ _ hfile
  have hmem : (env.declare file index).value ∈ env.declared files :=
    List.mem_map.2 ⟨(file, index), List.mem_zipIdx_iff_getElem?.2 hfile, rfl⟩
  obtain ⟨decl, block, hlast, hblock, hnames⟩ := render_complete hkind ht
    (not_hasErrors_of_mem hmem h.clean) (hd _ hmem) (hc _ (List.mem_of_getElem? hcompleted))
  have hfaces := (env.unit (env.completed reference files)).faces_reference
  rw [h.reference_completed hb hd fun f hf => SyntaxTree.wellRead_of_nil (hc f hf)] at hfaces
  refine bindsMarkup_of_render ht hfaces ?_ hlast hblock hnames
  rw [unit, List.getElem?_map, hcompleted]
  rfl

/-- The markup of a project that is linked without errors, if errors in the text of files stay
errors: what an element means is what it is bound to, exactly when the name is not captured. -/
theorem bound_components {g : Generator} {c : Catalog} {o : EnvironmentOptions}
    (hbuild : (build g c o).run.value = .ok env)
    (hkeep : env.options.overrides.Uphold SyntaxTree.textCodes)
    (h : env.Declares files reference) (sink : StatusSink) {g' : Generator} {a : Assembly}
    (hlink : (env.link g' (env.generate sink files).value).value = .ok a)
    (hclean : Diagnostic.hasErrors a.diagnostics = false) :
    ∃ G, (env.unitOf (env.generate sink files).value).run.value = .ok G
      ∧ ∀ index file, files[index]? = some file → file.kind = .template →
        env.BindsMarkup reference G file index := by
  have hb := built_of_build hbuild
  have hnone := not_hasErrors_of_link (hb.unitOf_eq _) hlink hclean
  rw [value_generate h] at hnone ⊢
  refine ⟨_, hb.unitOf_eq _, fun index file hfile hkind => ?_⟩
  have hdeclared := diagnostics_treeOf hkeep (h.not_hasErrors (hb.unitOf_eq _))
  exact h.bindsMarkup hb (fun f hf => SyntaxTree.wellRead_of_nil (hdeclared f hf))
    (diagnostics_treeOf hkeep hnone) hfile hkind

/-! ## A project with a namespace of its library -/

def shadowPage : SourceFile := { path := "Page.view", content := "<Panel/><Badge/>", kind := .template }

/-- A project with a component in a directory that has the name of the library. -/
def shadowFiles : List SourceFile := [
  shadowPage,
  { path := "Badge.view", content := "<b>New</b>", kind := .template },
  { path := "Kit/Panel.view", content := "<p>Own</p>", kind := .template }]

def shadowReference : Reference where
  name := "App"
  dependencies := ["Kit"]
  types := [
    { ns := "App", name := "Page", kind := .component, library := "App" },
    { ns := "App", name := "Badge", kind := .component, library := "App" },
    { ns := "App.Kit", name := "Panel", kind := .component, library := "App" }]

theorem declares_shadowFiles : kitEnvironment.Declares shadowFiles shadowReference where
  paths := by decide +kernel
  clean := by decide +kernel
  linked := by decide +kernel

def shadowAssembly : Assembly :=
  (kitEnvironment.link {} (kitEnvironment.generate .none shadowFiles).value).value.toOption.getD default

theorem link_shadowFiles :
    (kitEnvironment.link {} (kitEnvironment.generate .none shadowFiles).value).value = .ok shadowAssembly
      ∧ Diagnostic.hasErrors shadowAssembly.diagnostics = false := by
  have h : (kitEnvironment.link {} (kitEnvironment.generate .none shadowFiles).value).value.toOption.map
      (fun a => Diagnostic.hasErrors a.diagnostics) = some false := by
    rw [kitEnvironment, kitCatalog]
    repeat rw [Bytes.ofString_ofList]
    decide +kernel
  rw [shadowAssembly]
  cases hl : (kitEnvironment.link {} (kitEnvironment.generate .none shadowFiles).value).value with
  | ok a =>
    rw [hl] at h
    exact ⟨rfl, Option.some.inj h⟩
  | error e =>
    rw [hl] at h
    cases h

/-- The page means the panel of the library and the badge of the project. The name of the panel is
captured, so the page renders the panel of the project in its place. -/
theorem bound_components_shadow :
    (build {} kitCatalog kitOptions).run.value = .ok kitEnvironment
      ∧ kitEnvironment.options.overrides.Uphold SyntaxTree.textCodes
      ∧ kitEnvironment.Declares shadowFiles shadowReference
      ∧ (kitEnvironment.link {} (kitEnvironment.generate .none shadowFiles).value).value
        = .ok shadowAssembly
      ∧ Diagnostic.hasErrors shadowAssembly.diagnostics = false
      ∧ (∃ G, (kitEnvironment.unitOf (kitEnvironment.generate .none shadowFiles).value).run.value = .ok G
        ∧ kitEnvironment.BindsMarkup shadowReference G shadowPage 0
        ∧ (G.model.types.head?.bind (·.render)).map (fun ops =>
          (BoundOp.allComponents ops).map (·.map G.model.table.nameOf)) =
            some [some ("App.Kit.Panel" : Bytes), some ("App.Badge" : Bytes)])
      ∧ (kitEnvironment.meanings shadowReference shadowPage 0).map
          (kitEnvironment.markupTable shadowReference).nameOf = ["Kit.Panel", "App.Badge"]
      ∧ (kitEnvironment.markupTable shadowReference).Captured "App" "Kit.Panel"
      ∧ ¬ (kitEnvironment.markupTable shadowReference).Captured "App" "App.Badge" := by
  have hkeep : kitEnvironment.options.overrides.Uphold SyntaxTree.textCodes := by decide +kernel
  obtain ⟨hlink, hclean⟩ := link_shadowFiles
  obtain ⟨G, hG, hbound⟩ := bound_components build_kitEnvironment hkeep declares_shadowFiles .none hlink
    hclean
  have hnames : (G.model.types.head?.bind (·.render)).map (fun ops =>
      (BoundOp.allComponents ops).map (·.map G.model.table.nameOf)) =
        some [some ("App.Kit.Panel" : Bytes), some ("App.Badge" : Bytes)] := by
    rw [(built_of_build build_kitEnvironment).unitOf_eq] at hG
    cases hG
    rw [kitEnvironment, kitCatalog]
    repeat rw [Bytes.ofString_ofList]
    decide +kernel
  have hmeanings : (kitEnvironment.meanings shadowReference shadowPage 0).map
        (kitEnvironment.markupTable shadowReference).nameOf = ["Kit.Panel", "App.Badge"]
      ∧ (kitEnvironment.markupTable shadowReference).Captured "App" "Kit.Panel"
      ∧ ¬ (kitEnvironment.markupTable shadowReference).Captured "App" "App.Badge" := by
    decide +kernel
  exact ⟨build_kitEnvironment, hkeep, declares_shadowFiles, hlink, hclean,
    ⟨G, hG, hbound 0 shadowPage rfl rfl, hnames⟩, hmeanings⟩

end Environment

end ViewCompiler
