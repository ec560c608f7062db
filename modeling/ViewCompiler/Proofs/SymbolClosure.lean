import ViewCompiler.Proofs.Linking

/-!
A module introduces each symbol once (`Links.nodup_symbols`), and every symbol that it uses
(`Links.introduces_used`).

What a module defines is named after its own types, what it declares after the types of others or
after the runtime; full names of types are unique, and parts of a type have different symbols.
-/

namespace ViewCompiler

open Code

namespace Model

variable {m : Model}

theorem WellNamed.ne_of_id_ne (h : m.WellNamed) {t u : BoundType} (ht : t ∈ m.types)
    (hu : u ∈ m.types) (hne : t.id ≠ u.id) : m.table.nameOf t.id ≠ m.table.nameOf u.id := by
  obtain ⟨type, htype, -⟩ := h.types t ht
  obtain ⟨type', htype', hnamed⟩ := h.types u hu
  intro heq
  rw [SymbolTable.nameOf_of_get? htype, SymbolTable.nameOf_of_get? htype'] at heq
  exact hne (hnamed.alone htype heq)

/-- Declared types have full names of their own. -/
theorem WellNamed.nodup_names (h : m.WellNamed) :
    (m.types.map fun t => m.table.nameOf t.id).Nodup := by
  have hids : m.types.Pairwise fun t u => t.id ≠ u.id := List.pairwise_map.1 h.ids
  exact List.pairwise_map.2 (hids.imp_of_mem fun ht hu hne => h.ne_of_id_ne ht hu hne)

/-- What others provide is not defined here. -/
theorem WellNamed.not_defines (h : m.WellNamed) {d : Declaration} (hd : m.Imports d) :
    ¬ m.linkage.Defines d.symbol := by
  have hforeign {id : TypeId} {type : TypeSymbol} (hid : m.table.get? id = some type)
      (hdeclares : m.declares id = false) {part : Part} (hpart : part.Plain) :
      ¬ m.linkage.Defines (symbolOf type.fullName part) := by
    rintro ⟨t, ht, type', htype', part', hpart', heq⟩
    have hnamed := h.of_get? ht htype'
    obtain ⟨hname, -⟩ := symbolOf_inj hpart (hnamed.plain part' hpart') heq
    rw [hnamed.alone hid hname, declares, List.any_eq_false] at hdeclares
    exact hdeclares t ht (by simp)
  cases hd with
  | init hid hdeclares | descriptor hid hdeclares => exact hforeign hid hdeclares trivial
  | method howns hdeclares => exact hforeign howns.type hdeclares howns.word

theorem WellNamed.not_defines_string (h : m.WellNamed) (i : Nat) :
    ¬ m.linkage.Defines (stringSymbol i) := by
  rintro ⟨t, ht, type, htype, part, hpart, heq⟩
  rw [stringSymbol_eq] at heq
  obtain ⟨-, rfl⟩ := symbolOf_inj (p := .constant i) trivial
    ((h.of_get? ht htype).plain part hpart) heq
  simp [BoundType.parts] at hpart

theorem Imports.symbol_ne_string {d : Declaration} (h : m.Imports d) (i : Nat) :
    d.symbol ≠ stringSymbol i := by
  have hne {type : Bytes} {part : Part} (hpart : part.Plain) (hpart' : part ≠ .constant i) :
      symbolOf type part ≠ stringSymbol i := by
    rw [stringSymbol_eq]
    exact fun heq => hpart' (symbolOf_inj (q := .constant i) hpart trivial heq).2
  cases h with
  | init | descriptor => exact hne trivial (by simp)
  | method howns => exact hne howns.word (by simp)

theorem Imports.dot_mem {d : Declaration} (h : m.Imports d) : Ascii.dot ∈ d.symbol := by
  cases h <;> simp [Declaration.symbol, symbolOf]

theorem dot_mem_of_defines {symbol : Bytes} (h : m.linkage.Defines symbol) :
    Ascii.dot ∈ symbol := by
  obtain ⟨t, -, type, -, part, -, rfl⟩ := h
  simp [symbolOf]

end Model

namespace Code.Links

variable {m : Model} {M : Module}

theorem types_descriptors (h : Links m M) :
    M.descriptors.map (·.type) = m.types.map fun t => m.table.nameOf t.id := by
  have hdescriptors := h.descriptors
  generalize m.types = ts at hdescriptors
  generalize M.descriptors = ds at hdescriptors
  induction hdescriptors with
  | nil => rfl
  | cons hd _ ih =>
    obtain ⟨type, htype, heq⟩ := hd.type
    rw [List.map_cons, List.map_cons, ih, heq, SymbolTable.nameOf_of_get? htype]

theorem symbols_functions (h : Links m M) (hnames : m.WellNamed) :
    M.functions.map (·.symbol) = m.types.flatMap fun t =>
      (m.table.get? t.id).toList.flatMap fun type => (t.parts type).map (symbolOf type.fullName) := by
  have hheads : M.functions.map (·.symbol) = (M.functions.map Function.head).map (·.symbol) := by
    rw [List.map_map]
    rfl
  rw [hheads, h.heads, List.map_flatMap]
  refine List.flatMap_congr fun t ht => ?_
  obtain ⟨type, htype, hnamed⟩ := hnames.types t ht
  simp [htype, hnamed.symbols_heads]

theorem nodup_descriptors (h : Links m M) (hnames : m.WellNamed) :
    (M.descriptors.map fun d => descriptorSymbol d.type).Nodup := by
  have hinj : Function.Injective descriptorSymbol := fun a b hab =>
    (symbolOf_inj (p := .descriptor) (q := .descriptor) trivial trivial hab).1
  have hnodup := hnames.nodup_names.map hinj
  rwa [← h.types_descriptors, List.map_map] at hnodup

theorem nodup_functions (h : Links m M) (hnames : m.WellNamed) :
    (M.functions.map (·.symbol)).Nodup := by
  rw [h.symbols_functions hnames, List.nodup_flatMap]
  constructor
  · intro t ht
    obtain ⟨type, htype, hnamed⟩ := hnames.types t ht
    rw [htype, Option.toList_some, List.flatMap_singleton]
    refine hnamed.nodup_parts.map_on fun p hp q hq heq => ?_
    exact (symbolOf_inj (hnamed.plain p (List.mem_cons_of_mem _ hp))
      (hnamed.plain q (List.mem_cons_of_mem _ hq)) heq).2
  · have hids : m.types.Pairwise fun t u => t.id ≠ u.id := List.pairwise_map.1 hnames.ids
    refine hids.imp_of_mem fun {t u} ht hu hne => ?_
    obtain ⟨type, htype, hnamed⟩ := hnames.types t ht
    obtain ⟨type', htype', hnamed'⟩ := hnames.types u hu
    have hname := hnames.ne_of_id_ne ht hu hne
    rw [SymbolTable.nameOf_of_get? htype, SymbolTable.nameOf_of_get? htype'] at hname
    simp only [Function.onFun, htype, htype', Option.toList_some, List.flatMap_singleton]
    intro symbol hs hs'
    obtain ⟨p, hp, rfl⟩ := List.mem_map.1 hs
    obtain ⟨q, hq, heq⟩ := List.mem_map.1 hs'
    exact hname (symbolOf_inj (hnamed'.plain q (List.mem_cons_of_mem _ hq))
      (hnamed.plain p (List.mem_cons_of_mem _ hp)) heq).1.symm

theorem defines_function (h : Links m M) (hnames : m.WellNamed) {symbol : Bytes}
    (hs : symbol ∈ M.functions.map (·.symbol)) : m.linkage.Defines symbol := by
  rw [h.symbols_functions hnames] at hs
  obtain ⟨t, ht, hs⟩ := List.mem_flatMap.1 hs
  obtain ⟨type, htype, hs⟩ := List.mem_flatMap.1 hs
  obtain ⟨part, hpart, rfl⟩ := List.mem_map.1 hs
  exact ⟨t, ht, type, Option.mem_toList.1 htype, part, List.mem_cons_of_mem _ hpart, rfl⟩

theorem defines_descriptor (h : Links m M) (hnames : m.WellNamed) {symbol : Bytes}
    (hs : symbol ∈ M.descriptors.map fun d => descriptorSymbol d.type) :
    m.linkage.Defines symbol := by
  obtain ⟨d, hd, rfl⟩ := List.mem_map.1 hs
  have hname : d.type ∈ m.types.map fun t => m.table.nameOf t.id :=
    h.types_descriptors ▸ List.mem_map_of_mem hd
  obtain ⟨t, ht, heq⟩ := List.mem_map.1 hname
  obtain ⟨type, htype, -⟩ := hnames.types t ht
  refine ⟨t, ht, type, htype, .descriptor, List.mem_cons_self, ?_⟩
  rw [← heq, SymbolTable.nameOf_of_get? htype, descriptorSymbol_eq]

theorem disjoint_functions (h : Links m M) (hnames : m.WellNamed) :
    (M.descriptors.map fun d => descriptorSymbol d.type).Disjoint (M.functions.map (·.symbol)) := by
  intro symbol hs hs'
  obtain ⟨d, -, rfl⟩ := List.mem_map.1 hs
  rw [h.symbols_functions hnames] at hs'
  obtain ⟨t, ht, hs'⟩ := List.mem_flatMap.1 hs'
  obtain ⟨type, htype, hs'⟩ := List.mem_flatMap.1 hs'
  obtain ⟨part, hpart, heq⟩ := List.mem_map.1 hs'
  have hplain := (hnames.of_get? ht (Option.mem_toList.1 htype)).plain part
    (List.mem_cons_of_mem _ hpart)
  obtain ⟨-, rfl⟩ := symbolOf_inj (q := .descriptor) hplain trivial heq
  simp [BoundType.parts] at hpart

theorem nodup_declared (h : Links m M) : M.declared.Nodup := by
  obtain ⟨ds, -, hdecls⟩ := h.declarations
  have hsorted : Declaration.Sorted M.declarations := by
    rw [hdecls]
    exact Declaration.Sorted.insertAll (Declaration.Sorted.insertAll .nil)
  exact hsorted.nodup

/-- The symbols of constants, descriptors and functions have dots. -/
theorem dot_mem_defined (h : Links m M) (hnames : m.WellNamed) {symbol : Bytes}
    (hs : symbol ∈ M.defined) (hne : symbol ∉ [tableSymbol, manifestSymbol]) :
    Ascii.dot ∈ symbol := by
  simp only [Module.defined, List.mem_append] at hs
  rcases hs with ((hs | hs) | hs) | hs
  · obtain ⟨i, -, rfl⟩ := List.mem_map.1 hs
    simp [stringSymbol_eq, symbolOf]
  · exact Model.dot_mem_of_defines (h.defines_descriptor hnames hs)
  · exact absurd hs hne
  · exact Model.dot_mem_of_defines (h.defines_function hnames hs)

theorem disjoint_declared (h : Links m M) (hnames : m.WellNamed) :
    M.defined.Disjoint M.declared := by
  intro symbol hs hs'
  obtain ⟨d, hd, rfl⟩ := List.mem_map.1 hs'
  rcases h.imports hd with ⟨f, rfl⟩ | himports
  · by_cases hfixed : f.symbol ∈ [tableSymbol, manifestSymbol]
    · cases f <;> exact absurd hfixed (by decide)
    · exact dot_notMem_runtime f (h.dot_mem_defined hnames hs hfixed)
  · simp only [Module.defined, List.mem_append] at hs
    rcases hs with ((hs | hs) | hs) | hs
    · obtain ⟨i, -, heq⟩ := List.mem_map.1 hs
      exact himports.symbol_ne_string i heq.symm
    · exact hnames.not_defines himports (h.defines_descriptor hnames hs)
    · have hdot := himports.dot_mem
      rcases List.mem_pair.1 hs with heq | heq <;> rw [heq] at hdot <;> revert hdot <;> decide
    · exact hnames.not_defines himports (h.defines_function hnames hs)

/-- The module introduces no symbol twice. -/
theorem nodup_symbols (h : Links m M) (hnames : m.WellNamed) : (M.defined ++ M.declared).Nodup := by
  have hfixed {symbol : Bytes} (hs : symbol ∈ [tableSymbol, manifestSymbol]) :
      Ascii.dot ∉ symbol := by
    rcases List.mem_pair.1 hs with rfl | rfl <;> decide
  have hdot {i : Nat} : Ascii.dot ∈ stringSymbol i := by simp [stringSymbol_eq, symbolOf]
  refine List.Nodup.append ?_ h.nodup_declared (h.disjoint_declared hnames)
  refine List.Nodup.append (List.Nodup.append ((nodup_stringSymbols _).append (h.nodup_descriptors hnames) ?_)
    (by decide) ?_) (h.nodup_functions hnames) ?_
  · intro symbol hs hs'
    obtain ⟨i, -, rfl⟩ := List.mem_map.1 hs
    exact hnames.not_defines_string i (h.defines_descriptor hnames hs')
  · intro symbol hs hs'
    rcases List.mem_append.1 hs with hs | hs
    · obtain ⟨i, -, rfl⟩ := List.mem_map.1 hs
      exact hfixed hs' hdot
    · exact hfixed hs' (Model.dot_mem_of_defines (h.defines_descriptor hnames hs))
  · intro symbol hs hs'
    rcases List.mem_append.1 hs with hs | hs
    · rcases List.mem_append.1 hs with hs | hs
      · obtain ⟨i, -, rfl⟩ := List.mem_map.1 hs
        exact hnames.not_defines_string i (h.defines_function hnames hs')
      · exact h.disjoint_functions hnames hs hs'
    · exact hfixed hs (Model.dot_mem_of_defines (h.defines_function hnames hs'))

/-! ## Symbols that a module uses -/

theorem introduces_part (h : Links m M) (hnames : m.WellNamed) {t : BoundType} (ht : t ∈ m.types)
    {type : TypeSymbol} (htype : m.table.get? t.id = some type) {part : Part}
    (hpart : part ∈ t.parts type) : M.Introduces (symbolOf type.fullName part) := by
  obtain ⟨f, hf, -, hsymbol⟩ := h.exists_function hnames ht htype hpart
  rw [← hsymbol]
  exact Module.introduces_function hf

/-- The render function of a descriptor is one of the module, also when it is inherited. -/
theorem introduces_render (h : Links m M) (hnames : m.WellNamed) {t : BoundType} {symbol : Bytes}
    (hs : renderOf m t = some symbol) : M.Introduces symbol := by
  simp only [renderOf] at hs
  split at hs
  · obtain ⟨id, hid, rfl⟩ := Option.map_eq_some_iff.1 hs
    have hrenders := List.find?_some hid
    obtain ⟨u, hu, hrender⟩ := List.any_eq_true.1 hrenders
    obtain ⟨rfl, hsome⟩ : u.id = id ∧ u.render.isSome := by simpa using hrender
    obtain ⟨type, htype, -⟩ := hnames.types u hu
    obtain ⟨ops, hops⟩ := Option.isSome_iff_exists.1 hsome
    rw [SymbolTable.nameOf_of_get? htype, renderSymbol_eq]
    exact h.introduces_part hnames hu htype (by simp [BoundType.parts, hops])
  · cases hs

theorem introduces_constant {o : Operand} (h : o.IsConstant M.strings) :
    ∀ symbol ∈ o.symbols, M.Introduces symbol := by
  obtain ⟨i, text, hi, rfl⟩ := h
  simpa [Operand.symbols] using Module.introduces_string hi

theorem introduces_descriptor (h : Links m M) (hnames : m.WellNamed) {t : BoundType}
    (ht : t ∈ m.types) {d : Descriptor} (hd : Describes m M.strings t d) :
    ∀ symbol ∈ d.symbols, M.Introduces symbol := by
  obtain ⟨type, htype, heq⟩ := hd.type
  refine List.forall_mem_append.2 ⟨List.forall_mem_append.2 ⟨introduces_constant hd.name, ?_⟩,
    List.forall_mem_cons.2 ⟨?_, ?_⟩⟩
  · intro symbol hs
    obtain ⟨r, hr, hs⟩ := List.mem_flatMap.1 hs
    exact introduces_constant (hd.route r (Option.mem_toList.1 hr)) symbol hs
  · rw [heq, initSymbol_eq]
    exact h.introduces_part hnames ht htype (by simp [BoundType.parts])
  · intro symbol hs
    rw [hd.render] at hs
    exact h.introduces_render hnames (Option.mem_toList.1 hs)

/-- The module introduces what it uses. -/
theorem introduces_used (h : Links m M) (hnames : m.WellNamed) : M.used ⊆ M.defined ++ M.declared := by
  intro symbol hs
  simp only [Module.used, List.mem_append] at hs
  rcases hs with (((hs | hs) | hs) | hs) | hs
  · obtain ⟨d, hd, hs⟩ := List.mem_flatMap.1 hs
    obtain ⟨t, ht, hdescribes⟩ := exists_mem_of_forall₂ h.descriptors d hd
    exact h.introduces_descriptor hnames ht hdescribes symbol hs
  · obtain ⟨d, hd, rfl⟩ := List.mem_map.1 hs
    exact Module.introduces_descriptor hd
  · exact introduces_constant h.manifest symbol hs
  · rw [List.mem_singleton.1 hs]
    simp [Module.defined]
  · obtain ⟨f, hf, hs⟩ := List.mem_flatMap.1 hs
    obtain ⟨i, hi, hs⟩ := List.mem_flatMap.1 hs
    obtain ⟨τ, hτ⟩ := h.typed hnames f hf
    exact (hτ i hi).introduces symbol hs

end Code.Links

end ViewCompiler
