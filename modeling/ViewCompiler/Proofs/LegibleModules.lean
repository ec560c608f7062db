import ViewCompiler.Proofs.Listing
import ViewCompiler.Proofs.SimilarReadings
import ViewCompiler.Proofs.SymbolClosure

/-!
The module of a unit is legible (`Model.legible_of_parsed`): its text is read as its parts, so what is proved
of the parts is true of the text. All that stands between quotes is a symbol or the full name of a type. A
symbol that the module uses is one that it introduces, and what it introduces is named after a type or after
the runtime; so it is enough that types have names that can be written.
-/

namespace ViewCompiler

open Code

/-! ## Names -/

theorem Bytes.IsWord.isPlainByte {w : Bytes} (h : w.IsWord) : w.all Read.isPlainByte = true :=
  List.all_eq_true.2 fun b hb => by simp [Read.isPlainByte, h.isNameByte b hb]

theorem Bytes.IsQualified.isPlainByte {n : Bytes} (h : n.IsQualified) : n.all Read.isPlainByte = true := by
  induction h with
  | word hw => exact hw.isPlainByte
  | dot hw _ ih =>
    rw [List.all_append, List.all_cons, hw.isPlainByte, ih]
    rfl

namespace Code

theorem Part.isPlainByte_text {p : Part} (h : p.Plain) : p.text.all Read.isPlainByte = true := by
  cases p with
  | init | render | descriptor => decide
  | fragment i =>
    rw [Part.text, List.all_append, Read.isPlainByte_ofNat, Bool.and_true]
    decide
  | method name => exact Bytes.IsWord.isPlainByte h
  | constant i => exact Read.isPlainByte_ofNat i

theorem quotable_symbolOf {type : Bytes} {part : Part} (htype : type.IsQualified) (hpart : part.Plain) :
    Quotable (symbolOf type part) := by
  refine Read.quotable_of_plain ?_
  rw [symbolOf, List.all_append, List.all_cons, htype.isPlainByte, Part.isPlainByte_text hpart]
  rfl

end Code

theorem SyntaxTree.nameable_of_parsed {trees : List SyntaxTree}
    (h : ∀ tree ∈ trees, ∃ source file, tree = SyntaxTree.parse source file) :
    ∀ tree ∈ trees, tree.Nameable := by
  intro tree htree
  obtain ⟨source, file, rfl⟩ := h tree htree
  exact nameable_parse source file

/-- Types of references and parsed files have names that can be written. -/
theorem Analysis.nameable_table {refs : List Reference} {trees : List SyntaxTree}
    (hrefs : ∀ r ∈ refs, r.Nameable) (htrees : ∀ tree ∈ trees, tree.Nameable) :
    (Model.analyze refs trees).table.Nameable := by
  intro s hs
  have hname : s.fullName ∈ (announced refs trees).types.map (·.fullName) :=
    names_table ▸ List.mem_map_of_mem hs
  rw [announced_types, List.map_append, List.map_map] at hname
  rcases List.mem_append.1 hname with hname | hname
  · obtain ⟨r, hr, heq⟩ := List.mem_map.1 hname
    exact heq ▸ SymbolTable.nameable_ofReferences hrefs r hr
  · obtain ⟨d, hd, heq⟩ := List.mem_map.1 hname
    obtain ⟨tree, htree, hscope, hdecl⟩ := exists_tree hd
    have hns : d.scope.ns = tree.ns := by rw [hscope]; rfl
    have hqualified := TypeSymbol.isQualified_qualify (htrees tree htree).ns
      ((htrees tree htree).types _ hdecl)
    rw [← heq]
    rwa [← hns] at hqualified

/-! ## Names of a module -/

namespace Code.Links

variable {m : Model} {M : Module}

section
variable (hnames : m.WellNamed) (htable : m.table.Nameable)
include hnames htable

theorem quotable_name {t : BoundType} (ht : t ∈ m.types) : Quotable (m.table.nameOf t.id) := by
  obtain ⟨type, htype, -⟩ := hnames.types t ht
  exact Read.quotable_of_plain (htable.nameOf htype).isPlainByte

theorem quotable_of_defines {symbol : Bytes} (hs : m.linkage.Defines symbol) : Quotable symbol := by
  obtain ⟨t, ht, type, htype, part, hpart, rfl⟩ := hs
  have hfull := htable type (List.mem_of_getElem? htype)
  exact quotable_symbolOf hfull ((hnames.of_get? ht htype).plain part hpart)

omit hnames in
theorem quotable_of_imports {d : Declaration} (hd : m.Imports d) : Quotable d.symbol := by
  cases hd with
  | init hid | descriptor hid => exact quotable_symbolOf (htable _ (List.mem_of_getElem? hid)) trivial
  | method howns => exact quotable_symbolOf (htable _ (List.mem_of_getElem? howns.type)) howns.word

end

variable (h : Links m M) (hnames : m.WellNamed) (htable : m.table.Nameable)
include h hnames htable

/-- What the module introduces can be quoted. -/
theorem quotable_of_introduces {symbol : Bytes} (hs : M.Introduces symbol) : Quotable symbol := by
  rcases List.mem_append.1 hs with hs | hs
  · simp only [Module.defined, List.mem_append] at hs
    rcases hs with ((hs | hs) | hs) | hs
    · obtain ⟨i, -, rfl⟩ := List.mem_map.1 hs
      exact Read.quotable_of_plain (Read.isPlainByte_stringSymbol i)
    · exact quotable_of_defines hnames htable (h.defines_descriptor hnames hs)
    · rcases List.mem_pair.1 hs with rfl | rfl <;> exact Read.quotable_of_plain (by decide)
    · exact quotable_of_defines hnames htable (h.defines_function hnames hs)
  · obtain ⟨d, hd, rfl⟩ := List.mem_map.1 hs
    rcases h.imports hd with ⟨f, rfl⟩ | himports
    · exact Read.quotable_of_plain (Read.isPlainByte_symbol f).1
    · exact quotable_of_imports htable himports

theorem quotable_of_used {symbol : Bytes} (hs : symbol ∈ M.used) : Quotable symbol :=
  h.quotable_of_introduces hnames htable (h.introduces_used hnames hs)

theorem quotable_descriptor {d : Descriptor} (hd : d ∈ M.descriptors) : d.Quotable := by
  have hname : d.type ∈ m.types.map fun t => m.table.nameOf t.id :=
    h.types_descriptors ▸ List.mem_map_of_mem hd
  obtain ⟨t, ht, heq⟩ := List.mem_map.1 hname
  refine ⟨heq ▸ quotable_name hnames htable ht, ?_, fun s hs => ?_⟩
  · exact h.quotable_of_introduces hnames htable (Module.introduces_descriptor hd)
  · refine h.quotable_of_used hnames htable ?_
    simp only [Module.used, List.mem_append]
    exact .inl (.inl (.inl (.inl (List.mem_flatMap.2 ⟨d, hd, hs⟩))))

theorem quotable_function {f : Function} (hf : f ∈ M.functions) : f.Quotable := by
  obtain ⟨t, ht, type, htype, hhead, -⟩ := h.checked f hf
  have howner : f.owner = m.table.nameOf t.id :=
    (owner_eq hhead).trans (SymbolTable.nameOf_of_get? htype).symm
  have hquotable : Quotable f.owner := howner ▸ quotable_name hnames htable ht
  refine ⟨h.quotable_of_introduces hnames htable (Module.introduces_function hf), hquotable, fun i hi => ?_⟩
  obtain ⟨τ, hτ⟩ := h.typed hnames f hf
  have htyped := hτ i hi
  refine ⟨fun s hs => h.quotable_of_introduces hnames htable (htyped.introduces s hs), ?_⟩
  -- The only struct type in the code is the one of the object.
  cases htyped with
  | field =>
    rintro _ ⟨⟩
    exact hquotable
  | _ => rintro _ ⟨⟩

theorem quotable : M.Quotable where
  layouts l hl := by
    rw [h.layouts] at hl
    obtain ⟨t, ht, rfl⟩ := List.mem_map.1 hl
    exact quotable_name hnames htable ht
  descriptors _ hd := h.quotable_descriptor hnames htable hd
  manifest s hs := by
    refine h.quotable_of_used hnames htable ?_
    simp only [Module.used, List.mem_append]
    exact .inl (.inl (.inr hs))
  functions _ hf := h.quotable_function hnames htable hf
  declarations _ hd := h.quotable_of_introduces hnames htable (Module.introduces_declaration hd)

theorem legible : M.Legible := by
  refine (h.quotable hnames htable).legible ?_
  obtain ⟨i, text, hi, -⟩ := h.manifest
  exact List.ne_nil_of_mem (List.mem_of_getElem? hi)

end Code.Links

/-- Over closed references whose types have names that can be written, the text of the module of parsed files
without errors is read as its parts. -/
theorem Model.legible_of_parsed {refs : List Reference} {trees : List SyntaxTree}
    (hrefs : Reference.Closed refs) (hnameable : ∀ r ∈ refs, r.Nameable)
    (htrees : ∀ tree ∈ trees, ∃ source file, tree = SyntaxTree.parse source file)
    (h : (Model.analyze refs trees).hasErrors = false) {name : Bytes} {M : Module}
    (hM : lower (Model.analyze refs trees) name = .ok M) : M.Legible := by
  have htyped := Model.typed_analyze hrefs h
  have hnames := Model.wellNamed_analyze (SyntaxTree.worded_of_parsed htrees) h
  have htable := Analysis.nameable_table hnameable (SyntaxTree.nameable_of_parsed htrees)
  exact (links_of_lower htyped hnames hM).legible hnames htable

theorem nameable_panelLibrary : ∀ r ∈ [panelLibrary], r.Nameable :=
  List.forall_mem_singleton.2 (List.forall_mem_singleton.2
    (TypeSymbol.isQualified_qualify (.inr (.word (by decide))) (by decide)))

/-! ## What the text of a module says -/

section
variable {refs : List Reference} {trees : List SyntaxTree}

/-- Over closed references, a model without errors is lowered to a module that implements every method of
every declared type. These functions are what is read from its text, if the files are parsed and the types of
the references have names that can be written. -/
theorem Model.methods_implemented (hrefs : Reference.Closed refs)
    (h : (Model.analyze refs trees).hasErrors = false) (name : Bytes) :
    ∃ M, lower (Model.analyze refs trees) name = .ok M ∧
      (∀ t ∈ (Model.analyze refs trees).types, M.ImplementsMethods (Model.analyze refs trees) t) ∧
      ((∀ tree ∈ trees, ∃ source file, tree = SyntaxTree.parse source file) → (∀ r ∈ refs, r.Nameable) →
        M.Legible) := by
  obtain ⟨M, hM⟩ := exists_lower (Model.typed_analyze hrefs h).resolved name
  refine ⟨M, hM, Model.implements_of_lower hrefs h hM, fun htrees hnameable => ?_⟩
  exact Model.legible_of_parsed hrefs hnameable htrees h hM

theorem Model.methods_implemented_counter :
    Reference.Closed [panelLibrary] ∧ counterModel.hasErrors = false ∧
      counterModel.types.map (·.methods.map (·.body.length)) = [[2, 1]] ∧
      ∃ M, lower counterModel "App" = .ok M ∧
        (∀ t ∈ counterModel.types, M.ImplementsMethods counterModel t) ∧ M.Legible := by
  have hbodies : counterModel.types.map (·.methods.map (·.body.length)) = [[2, 1]] := by
    rw [counterModel, counterSource, Bytes.ofString_ofList]
    decide +kernel
  obtain ⟨M, hM, himplements, hlegible⟩ :=
    Model.methods_implemented closed_panelLibrary counterModel_hasErrors "App"
  refine ⟨closed_panelLibrary, counterModel_hasErrors, hbodies, M, hM, himplements, ?_⟩
  exact hlegible (List.forall_mem_singleton.2 ⟨_, _, rfl⟩) nameable_panelLibrary

/-- Over closed references, a model without errors is lowered to functions that are well-formed control-flow
graphs in static single assignment form. They are what is read from the text of the module, if the files are
parsed and the types of the references have names that can be written. -/
theorem Model.functions_wellFormed (hrefs : Reference.Closed refs)
    (h : (Model.analyze refs trees).hasErrors = false) (name : Bytes) :
    ∃ M, lower (Model.analyze refs trees) name = .ok M ∧ (∀ f ∈ M.functions, f.WellFormed) ∧
      ((∀ tree ∈ trees, ∃ source file, tree = SyntaxTree.parse source file) → (∀ r ∈ refs, r.Nameable) →
        M.Legible) := by
  obtain ⟨M, hM⟩ := exists_lower (Model.typed_analyze hrefs h).resolved name
  refine ⟨M, hM, Model.wellFormed_of_lower hrefs h hM, fun htrees hnameable => ?_⟩
  exact Model.legible_of_parsed hrefs hnameable htrees h hM

theorem Model.functions_wellFormed_counter :
    Reference.Closed [panelLibrary] ∧ counterModel.hasErrors = false ∧
      ∃ M, lower counterModel "App" = .ok M ∧ (∀ f ∈ M.functions, f.WellFormed) ∧ M.Legible := by
  obtain ⟨M, hM, hwellFormed, hlegible⟩ :=
    Model.functions_wellFormed closed_panelLibrary counterModel_hasErrors "App"
  refine ⟨closed_panelLibrary, counterModel_hasErrors, M, hM, hwellFormed, ?_⟩
  exact hlegible (List.forall_mem_singleton.2 ⟨_, _, rfl⟩) nameable_panelLibrary

/-- Over closed references whose types have names that can be written, the text of the module of parsed files
without errors introduces no symbol twice, be it by a definition or by a declaration, and introduces every
symbol that it uses. Whatever its name, the module is read like this behind the heading, and from the
beginning if its name has no line feed and no quote. -/
theorem Model.symbols_closed (hrefs : Reference.Closed refs) (hnameable : ∀ r ∈ refs, r.Nameable)
    (htrees : ∀ tree ∈ trees, ∃ source file, tree = SyntaxTree.parse source file)
    (h : (Model.analyze refs trees).hasErrors = false) (name : Bytes) :
    ∃ M code L, lower (Model.analyze refs trees) name = .ok M ∧ M.text = Module.heading name ++ code ∧
      Listing.readCode? code = some L ∧
      (Ascii.lf ∉ name → Ascii.quote ∉ name → Listing.read? M.text = some (name, L)) ∧
      (L.defined ++ L.declared).Nodup ∧ L.used ⊆ L.defined ++ L.declared := by
  have htyped := Model.typed_analyze hrefs h
  have hnames := Model.wellNamed_analyze (SyntaxTree.worded_of_parsed htrees) h
  obtain ⟨M, hM⟩ := exists_lower htyped.resolved name
  have hlinks := links_of_lower htyped hnames hM
  have hlegible := Model.legible_of_parsed hrefs hnameable htrees h hM
  obtain ⟨code, htext, hcode⟩ := id hlegible
  obtain rfl := name_of_lower hM
  refine ⟨M, code, M.listing, hM, htext, hcode, hlegible.read?, ?_⟩
  rw [M.defined_listing, M.declared_listing, M.used_listing]
  exact ⟨hlinks.nodup_symbols hnames, hlinks.introduces_used hnames⟩

theorem Model.symbols_closed_counter :
    Reference.Closed [panelLibrary] ∧ (∀ r ∈ [panelLibrary], r.Nameable) ∧ counterModel.hasErrors = false ∧
      ∃ M L, lower counterModel "App" = .ok M ∧ Listing.read? M.text = some (Bytes.ofString "App", L) ∧
        (L.defined ++ L.declared).Nodup ∧ L.used ⊆ L.defined ++ L.declared := by
  obtain ⟨M, _, L, hM, -, -, hread, hclosed⟩ := Model.symbols_closed closed_panelLibrary nameable_panelLibrary
    (List.forall_mem_singleton.2 ⟨counterSource, "counter.il", rfl⟩) counterModel_hasErrors "App"
  refine ⟨closed_panelLibrary, nameable_panelLibrary, counterModel_hasErrors, M, L, hM, ?_, hclosed⟩
  exact hread (by decide) (by decide)

end

end ViewCompiler
