import ViewCompiler.Proofs.DeclarationPass
import ViewCompiler.Proofs.DeclarationsInserted
import ViewCompiler.Proofs.MarkupBraces

/-!
Projects that are rejected before their markup is known. The first pass links the declarations of a
project and gives up if there is an error. Such an error is one of the whole project
(`Environment.echoed_declared`): markup is put into a file as a block whose braces match, and a block
takes no error away. But fields and usings that only markup needs are reported as unused by the first
pass, which is an error where the overrides make it one.
-/

namespace ViewCompiler

/-! ## Texts and trees -/

namespace TokenStream

/-- All comments of the text end. -/
def CommentsEnd (s : TokenStream) : Prop := ∀ e ∈ s.errors, e.2 ≠ .unterminatedComment

instance (s : TokenStream) : Decidable s.CommentsEnd :=
  inferInstanceAs (Decidable (∀ e ∈ s.errors, e.2 ≠ .unterminatedComment))

end TokenStream

namespace SyntaxTree

theorem forall₂_getD {α : Type} {R : α → α → Prop} {o o' : Option (List α)}
    (h : Option.Rel (List.Forall₂ R) o o') : List.Forall₂ R (o.getD []) (o'.getD []) := by
  cases h with
  | none => exact .nil
  | some h => exact h

theorem preview_ofItems {file : Bytes} {items items' : List Tokens.UnitItem} {ds ds' : List Diagnostic}
    (h : List.Forall₂ Tokens.UnitItem.Preview items items') (hds : ∀ d ∈ ds, d.Echoed ds') :
    (ofItems file items ds).Preview (ofItems file items' ds') := by
  have same {α : Type} {f : Tokens.UnitItem → Option α}
      (hf : ∀ {i j}, Tokens.UnitItem.Preview i j → f i = f j) :
      items.filterMap f = items'.filterMap f := by
    clear hds
    induction h with
    | nil => rfl
    | cons hi _ ih => rw [List.filterMap_cons, List.filterMap_cons, hf hi, ih]
  refine ⟨rfl, ?_, same ?_, List.rel_filterMap ?_ h, hds⟩
  · rw [ofItems, ofItems, same]
    rintro _ _ (_ | _ | _) <;> rfl
  · rintro _ _ (_ | _ | _) <;> rfl
  · rintro _ _ (_ | _ | hd)
    · exact .none
    · exact .none
    · exact .some hd

theorem echoed_diagnostic {es es' : List (Span × SyntaxError)} (h : Tokens.Echoed es es') (file : Bytes) :
    ∀ d ∈ es.map fun (span, e) => e.diagnostic file span,
      d.Echoed (es'.map fun (span, e) => e.diagnostic file span) := by
  intro d hd
  obtain ⟨e, he, rfl⟩ := List.mem_map.1 hd
  rcases h e he with hmem | ⟨hcode, horder⟩
  · exact .inl (List.mem_map_of_mem hmem)
  · simp only [Reading.Orderly, not_forall, not_not] at horder
    obtain ⟨e', he', hcode'⟩ := horder
    exact .inr ⟨hcode, _, List.mem_map_of_mem he', hcode'.trans hcode.symm, rfl, rfl⟩

/-- If a block has been put into a text, its tree is the same up to what the types render. -/
theorem preview_parse {source source' file : Bytes} {k : Tokens.Insert}
    (htokens : Tokens.Beside k (TokenStream.scan source).tokens (TokenStream.scan source').tokens)
    (herrors : (TokenStream.scan source).errors ⊆ (TokenStream.scan source').errors) :
    (parse source file).Preview (parse source' file) := by
  have hread : Tokens.Follows k (List.Forall₂ Tokens.UnitItem.Preview) _ _ :=
    @Tokens.follows_unitItems _ _ _ false false htokens
  refine preview_ofItems ?_ fun d hd => ?_
  · exact forall₂_getD hread.value
  rcases List.mem_append.1 hd with hscan | hunit
  · obtain ⟨e, he, rfl⟩ := List.mem_map.1 hscan
    exact .inl (List.mem_append_left _ (List.mem_map_of_mem (herrors he)))
  · exact (echoed_diagnostic hread.errors file d hunit).mono (List.subset_append_right _ _)

end SyntaxTree

namespace Template

open TokenStream (scan)

variable {t : Template} {i : Item} {o : TemplateOptions} {table : SymbolTable} {name file : Bytes}

/-- The markup is put into the text of a declaration as a block, in front of its last brace. -/
theorem beside_write (ht : table.Nameable) (hs : ∀ n ∈ t.nodes, n.Sound)
    (hc : (scan (t.write i o none name).code).CommentsEnd) :
    ∃ k, Tokens.Beside k (scan (t.write i o none name).code).tokens
        (scan (t.write i o (some table) name).code).tokens
      ∧ (scan (t.write i o none name).code).errors ⊆
        (scan (t.write i o (some table) name).code).errors := by
  rw [code_write_none] at hc ⊢
  rw [code_write_some]
  obtain ⟨ts, es, c, hlines⟩ := TokenStream.exists_scanFrom_lines
    (WriteScope.getLast?_opening _ t name) (by decide) hc
  obtain ⟨b, e, hend, hb, he⟩ := scanFrom_rbrace c
  have hmarkup := WriteScope.renderTail_render (c := t.writeScope i o table) ht hs c
  simp only [scan, hlines, hend]
  refine ⟨⟨_, hmarkup⟩, .front ts hb he, ?_⟩
  rw [List.append_nil]
  exact List.subset_append_left _ _

theorem preview_write (ht : table.Nameable) (hs : ∀ n ∈ t.nodes, n.Sound)
    (hc : (scan (t.write i o none name).code).CommentsEnd) :
    (SyntaxTree.parse (t.write i o none name).code file).Preview
      (SyntaxTree.parse (t.write i o (some table) name).code file) := by
  obtain ⟨k, htokens, herrors⟩ := beside_write ht hs hc
  exact SyntaxTree.preview_parse htokens herrors

end Template

theorem Item.preview_generate {i : Item} {o : TemplateOptions} {table : SymbolTable} {file : Bytes}
    (ht : table.Nameable) (h : Diagnostic.hasErrors (i.generate o none).value.diagnostics = false)
    (hc : (TokenStream.scan (i.generate o none).value.code).CommentsEnd) :
    (SyntaxTree.parse (i.generate o none).value.code file).Preview
      (SyntaxTree.parse (i.generate o (some table)).value.code file) := by
  have hs := Template.sound_parse (not_faulty_of_generate h)
  rw [value_generate] at hc ⊢
  rw [value_generate]
  split
  · next hvalid =>
    rw [if_pos hvalid] at hc
    exact Template.preview_write ht hs hc
  · exact .refl _

/-! ## Projects -/

theorem Diagnostic.Echoed.hasErrors {d : Diagnostic} {ds : List Diagnostic} (h : d.Echoed ds)
    (he : d.isError = true) : Diagnostic.hasErrors ds = true := by
  rcases h with hd | ⟨-, d', hd', -, hseverity, -⟩
  · exact List.any_eq_true.2 ⟨d, hd, he⟩
  · refine List.any_eq_true.2 ⟨d', hd', ?_⟩
    rwa [isError, hseverity]

namespace Environment

variable {env : Environment} {files : List SourceFile}

/-- The comments of the declarations of templates end. -/
def CommentsEnd (env : Environment) (files : List SourceFile) : Prop :=
  ∀ f ∈ env.declared files, f.item.isSome → (TokenStream.scan f.code).CommentsEnd

instance (env : Environment) (files : List SourceFile) : Decidable (env.CommentsEnd files) :=
  inferInstanceAs (Decidable (∀ f ∈ env.declared files,
    f.item.isSome → (TokenStream.scan f.code).CommentsEnd))

theorem preview_complete {table : SymbolTable} (ht : table.Nameable) {file : SourceFile} {index : Nat}
    (hclean : Diagnostic.hasErrors (env.declare file index).value.diagnostics = false)
    (hc : (env.declare file index).value.item.isSome →
      (TokenStream.scan (env.declare file index).value.code).CommentsEnd) :
    (treeOf (env.declare file index).value).Preview
      (treeOf (env.complete table (env.declare file index).value).value) := by
  rw [declare] at hclean hc ⊢
  split
  · exact .refl _
  · next hkind =>
    rw [hkind] at hclean hc
    exact Item.preview_generate ht hclean (hc rfl)

/-- The second pass changes files only in what their types render. -/
theorem forall₂_completed (hb : env.Built)
    (hclean : Diagnostic.hasErrors ((env.declared files).flatMap (·.diagnostics)) = false)
    (hc : env.CommentsEnd files) :
    List.Forall₂ SyntaxTree.Preview (env.unit (env.declared files)).trees
      (env.unit (env.completed (env.unit (env.declared files)).reference files)).trees := by
  have ht := hb.nameable_markupTable (env.declared files)
  simp only [unit, completed, List.map_map]
  rw [List.forall₂_map_left_iff, List.forall₂_map_right_iff, List.forall₂_same]
  intro f hf
  have hfile := not_hasErrors_of_mem hf hclean
  have hends := hc f hf
  obtain ⟨p, -, rfl⟩ := List.mem_map.1 hf
  exact preview_complete ht hfile hends

/-- The first pass gives up for an error of its unit. -/
theorem Built.exists_of_linkDeclarations (hb : env.Built) {generated : List GeneratedFile}
    {ds : List Diagnostic} (h : (env.linkDeclarations generated).run.value = .error ds) :
    ∃ d ∈ ds, d ∈ (env.unit generated).diagnostics ∧ d.isError = true := by
  have hvalue : (env.linkDeclarations generated).run.value =
      if Diagnostic.hasErrors ((env.unit generated).diagnostics.filter (·.isProblem)) then
        .error ((env.unit generated).diagnostics.filter (·.isProblem))
      else .ok (env.unit generated).reference := by
    rw [linkDeclarations, Logged.value_run_bind (a := (env.unitOf generated).run.value) rfl, hb.unitOf_eq]
    dsimp only
    split <;> rfl
  rw [hvalue] at h
  split at h
  · next herrors =>
    cases h
    obtain ⟨d, hd, he⟩ := List.any_eq_true.1 herrors
    exact ⟨d, hd, List.mem_of_mem_filter hd, he⟩
  · cases h

/-- What the first pass rejects, the second pass would have rejected too. An error of the declarations
is one of the whole project, where a syntax error may name another token, unless it is the report of
a field or a using that only markup needs, made an error by the overrides. -/
theorem echoed_declared {g : Generator} {c : Catalog} {o : EnvironmentOptions}
    (hbuild : (build g c o).run.value = .ok env)
    (hclean : Diagnostic.hasErrors ((env.declared files).flatMap (·.diagnostics)) = false)
    (hc : env.CommentsEnd files) :
    ∃ D F : CompilationUnit, (env.unitOf (env.declared files)).run.value = .ok D
      ∧ (env.unitOf (env.completed D.reference files)).run.value = .ok F
      ∧ (∀ d ∈ D.diagnostics, d.isError = true → d.isUnused = false → d.Echoed F.diagnostics)
      ∧ ∀ ds, (env.linkDeclarations (env.declared files)).run.value = .error ds →
        F.hasErrors = true ∨ ∃ d ∈ ds, d.isError = true ∧ d.isUnused = true := by
  have hb := built_of_build hbuild
  let D := env.unit (env.declared files)
  let F := env.unit (env.completed D.reference files)
  have hechoed {d : Diagnostic} (hd : d ∈ D.diagnostics) (hu : d.isUnused = false) :
      d.Echoed F.diagnostics :=
    @CompilationUnit.echoed_diagnostics D F rfl rfl (forall₂_completed hb hclean hc) _ hd hu
  refine ⟨D, F, hb.unitOf_eq _, hb.unitOf_eq _, fun d hd _ hu => hechoed hd hu, fun ds hds => ?_⟩
  obtain ⟨d, hd, hunit, he⟩ := hb.exists_of_linkDeclarations hds
  cases hu : d.isUnused with
  | true => exact .inr ⟨d, hd, he, hu⟩
  | false => exact .inl ((hechoed hunit hu).hasErrors he)

/-- A template with a field of a type that does not exist. -/
def sumFiles : List SourceFile := [
  { path := "Sum.view"
    content := "<p>@Total</p>\n@code { field Money Total; }"
    kind := .template }]

/-- The first pass rejects the field, and so would the second. -/
theorem echoed_declared_sum :
    (build {} kitCatalog kitOptions).run.value = .ok kitEnvironment
      ∧ Diagnostic.hasErrors ((kitEnvironment.declared sumFiles).flatMap (·.diagnostics)) = false
      ∧ kitEnvironment.CommentsEnd sumFiles
      ∧ ∃ D F : CompilationUnit,
        (kitEnvironment.unitOf (kitEnvironment.declared sumFiles)).run.value = .ok D
        ∧ (kitEnvironment.unitOf (kitEnvironment.completed D.reference sumFiles)).run.value = .ok F
        ∧ ∃ d ∈ D.diagnostics, d.isError = true ∧ d.code = "IL2001" ∧ d ∈ F.diagnostics := by
  have hclean : Diagnostic.hasErrors
      ((kitEnvironment.declared sumFiles).flatMap (·.diagnostics)) = false := by
    rw [kitEnvironment, kitCatalog, sumFiles]
    repeat rw [Bytes.ofString_ofList]
    decide +kernel
  have hc : kitEnvironment.CommentsEnd sumFiles := by
    rw [kitEnvironment, kitCatalog, sumFiles]
    repeat rw [Bytes.ofString_ofList]
    decide +kernel
  have hb := built_of_build build_kitEnvironment
  obtain ⟨D, F, hD, hF, hechoed, -⟩ := echoed_declared build_kitEnvironment hclean hc
  have herror : ∃ d ∈ D.diagnostics, d.isError = true ∧ d.code = "IL2001" := by
    rw [hb.unitOf_eq] at hD
    cases hD
    rw [kitEnvironment, kitCatalog, sumFiles]
    repeat rw [Bytes.ofString_ofList]
    decide +kernel
  obtain ⟨d, hd, he, hcode⟩ := herror
  refine ⟨build_kitEnvironment, hclean, hc, D, F, hD, hF, d, hd, he, hcode, ?_⟩
  refine (hechoed d hd he ?_).resolve_right ?_
  · rw [Diagnostic.isUnused, hcode]
    decide
  · rintro ⟨horder, -⟩
    rw [hcode] at horder
    exact absurd horder (by decide)

/-- A project where it is an error that nothing reads a field. -/
def readOptions : ProjectOptions where
  rootNamespace := "App"
  imports := []
  boilerplate := []
  overrides := [("IL3001", .error)]

def readEnvironment : Environment where
  references := []
  options := readOptions
  base := ⟨[], readOptions.unitOptions, []⟩

/-- A template that reads its field in its markup only. -/
def readFiles : List SourceFile := [
  { path := "Page.view"
    content := "<p>@Count</p>\n@code { field int Count = 1; }"
    kind := .template }]

-- The first pass rejects the template, although nothing is wrong with the whole of it.
example : (readEnvironment.linkDeclarations (readEnvironment.declared readFiles)).run.value.toOption = none
    ∧ (readEnvironment.unit (readEnvironment.completed
      (readEnvironment.unit (readEnvironment.declared readFiles)).reference readFiles)).diagnostics = [] := by
  decide +kernel

end Environment

end ViewCompiler
