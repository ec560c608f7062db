import ViewCompiler.Proofs.ModuleTyping
import ViewCompiler.Proofs.UniqueNames

/-!
What the symbols of a module mean. A unit without errors provides the functions of its own types and
imports those of others (`Model.linkage`); both are told by their symbols. So its module has exactly
one line for each symbol that its code may rely on (`Links.serves`).
-/

namespace ViewCompiler

namespace Code

/-! ## Declarations -/

namespace Declaration

variable {d e : Declaration} {ds es : List Declaration}

theorem mem_insert (h : e ∈ insert d ds) : e = d ∨ e ∈ ds := by
  induction ds with
  | nil => exact .inl (List.mem_singleton.1 h)
  | cons x xs ih =>
    rw [insert] at h
    split at h
    · exact .inr h
    · split at h
      · exact List.mem_cons.1 h
      · rcases List.mem_cons.1 h with rfl | h
        · exact .inr List.mem_cons_self
        · exact (ih h).imp_right (List.mem_cons_of_mem _)

theorem mem_insertAll (h : e ∈ insertAll es ds) : e ∈ es ∨ e ∈ ds := by
  induction es generalizing ds with
  | nil => exact .inr h
  | cons d es ih =>
    rcases ih h with h | h
    · exact .inl (List.mem_cons_of_mem _ h)
    · rcases mem_insert h with rfl | h
      · exact .inl List.mem_cons_self
      · exact .inr h

/-- Declarations are kept in the order of their symbols. -/
def Sorted (ds : List Declaration) : Prop := ds.Pairwise fun d e => d.symbol < e.symbol

theorem Sorted.insert (h : Sorted ds) : Sorted (insert d ds) := by
  induction ds with
  | nil => exact List.pairwise_singleton _ d
  | cons x xs ih =>
    obtain ⟨hx, hxs⟩ := List.pairwise_cons.1 h
    rw [Declaration.insert]
    split
    · exact h
    · next hne =>
      split
      · next hlt =>
        exact .cons (List.forall_mem_cons.2 ⟨hlt, fun e he => List.lt_trans hlt (hx e he)⟩) h
      · next hge =>
        refine .cons (fun e he => ?_) (ih hxs)
        rcases mem_insert he with rfl | he
        · exact Std.lt_of_le_of_ne hge (Ne.symm hne)
        · exact hx e he

theorem Sorted.insertAll (h : Sorted ds) : Sorted (insertAll es ds) := by
  induction es generalizing ds with
  | nil => exact h
  | cons e es ih => exact ih h.insert

theorem Sorted.nodup (h : Sorted ds) : (ds.map (·.symbol)).Nodup := by
  refine List.pairwise_map.2 (h.imp fun {d e} hlt heq => ?_)
  rw [heq] at hlt
  exact List.lt_irrefl _ hlt

end Declaration

/-! ## Parts of types -/

/-- The types of the parameters that a part of the type takes, if it is a function. -/
inductive Part.Takes (table : SymbolTable) (type : Bytes) : Part → List ValueType → Prop
  | init : Takes table type .init [.ptr]
  | render : Takes table type .render [.ptr, .ptr]
  | fragment : Takes table type (.fragment i) [.ptr, .ptr]
  | method {id owner f} : table.Owns id owner f → owner.fullName = type →
    Takes table type (.method f.name) (.ptr :: f.paramTypes.map ValueType.ofName)

namespace Part

variable {table : SymbolTable} {type : Bytes} {part : Part} {types types' : List ValueType}

theorem Takes.plain (h : part.Takes table type types) : part.Plain := by
  cases h with
  | method h => exact h.word
  | _ => trivial

theorem Takes.unique (h : part.Takes table type types) (h' : part.Takes table type types') :
    types = types' := by
  cases h with
  | @method id owner f h hname =>
    generalize hpart : Part.method f.name = part at h'
    cases h' with
    | @method id' owner' f' h' hname' =>
      have hid := h.unique h' (hname.trans hname'.symm) (Part.method.inj hpart)
      have hf : f = f' := Option.some.inj (by rw [← h.method, ← h'.method, hid])
      rw [hf]
    | _ => cases hpart
  | _ => cases h'; rfl

end Part

end Code

open Code

namespace BoundType

/-- The functions of a declared type. -/
def parts (t : BoundType) (type : TypeSymbol) : List Part :=
  .init :: type.methods.map (fun f => .method f.name) ++ t.render.toList.flatMap fun ops =>
    .render :: (List.range (BoundOp.fragments ops).length).map .fragment

variable {table : SymbolTable} {t : BoundType} {type : TypeSymbol}

theorem WellNamed.symbols_heads (h : t.WellNamed table type) :
    (t.heads type).map (·.symbol) = (t.parts type).map (symbolOf type.fullName) := by
  have hmethods : (type.methods.map (methodHead type)).map (·.symbol) =
      (type.methods.map fun f => Part.method f.name).map (symbolOf type.fullName) := by
    rw [List.map_map, List.map_map]
    exact List.map_congr_left fun f _ => methodSymbol_eq _ _
  rw [heads, parts, List.map_append, List.map_append, List.map_cons, List.map_cons, hmethods]
  congr 1
  cases hrender : t.render with
  | none => simp
  | some ops =>
    rw [if_pos (h.render (by simp [hrender]))]
    simp only [Option.toList_some, List.flatMap_cons, List.flatMap_nil, List.append_nil, renderHeads,
      List.map_cons, List.map_map]
    congr 1
    exact List.map_congr_left fun i _ => fragmentSymbol_eq _ i

theorem WellNamed.plain (h : t.WellNamed table type) :
    ∀ part ∈ .descriptor :: t.parts type, part.Plain := by
  intro part hpart
  rw [parts, List.mem_cons, List.mem_append, List.mem_cons, List.mem_map] at hpart
  rcases hpart with rfl | (rfl | ⟨f, hf, rfl⟩) | hpart
  · trivial
  · trivial
  · exact h.words f hf
  · obtain ⟨ops, -, hpart⟩ := List.mem_flatMap.1 hpart
    rw [List.mem_cons, List.mem_map] at hpart
    rcases hpart with rfl | ⟨i, -, rfl⟩ <;> trivial

theorem WellNamed.nodup_parts (h : t.WellNamed table type) : (t.parts type).Nodup := by
  have hmethods : (type.methods.map fun f => Part.method f.name).Nodup := by
    have hnames := h.methods.map (f := Part.method) fun _ _ => Part.method.inj
    rwa [List.map_map] at hnames
  have hrender (ops : List BoundOp) :
      (Part.render :: (List.range (BoundOp.fragments ops).length).map .fragment).Nodup :=
    List.nodup_cons.2 ⟨by simp, List.nodup_range.map fun _ _ => Part.fragment.inj⟩
  rw [parts]
  cases t.render with
  | none => simpa using hmethods
  | some ops =>
    rw [Option.toList_some, List.flatMap_singleton]
    refine (List.nodup_cons.2 ⟨by simp, hmethods⟩).append (hrender ops) ?_
    simp [List.disjoint_left]

/-- A method of a declared type is what its name means there. -/
theorem WellNamed.owns (h : t.WellNamed table type) (htype : table.get? t.id = some type) {k : Nat}
    {f : MethodSymbol} (hf : type.methods[k]? = some f) : table.Owns ⟨t.id, k⟩ type f where
  found := SymbolTable.found_of_alone htype h.alone
  type := htype
  method := by rw [SymbolTable.method?, htype, Option.bind_some, hf]
  first := by
    obtain ⟨hk, rfl⟩ := List.getElem?_eq_some_iff.1 hf
    refine List.findIdx?_eq_some_iff_getElem.2 ⟨hk, by simp, fun j hj => ?_⟩
    have hj : j < k := hj
    have hne := List.pairwise_iff_getElem.1 h.methods j k (by simp; omega) (by simpa using hk) hj
    simpa using hne
  word := h.words f (List.mem_of_getElem? hf)

/-- A function of a declared type takes what its symbol says. -/
theorem WellNamed.takes (h : t.WellNamed table type) (htype : table.get? t.id = some type)
    {head : Function} (hhead : head ∈ t.heads type) : ∃ part,
      head.symbol = symbolOf type.fullName part ∧
        part.Takes table type.fullName head.prototype.params := by
  rw [heads, List.mem_append, List.mem_cons, List.mem_map] at hhead
  rcases hhead with (rfl | ⟨f, hf, rfl⟩) | hhead
  · exact ⟨.init, rfl, .init⟩
  · obtain ⟨k, hk⟩ := List.getElem?_of_mem hf
    refine ⟨.method f.name, methodSymbol_eq _ _, ?_⟩
    rw [show (methodHead type f).prototype.params = .ptr :: f.paramTypes.map ValueType.ofName by
      simp [Function.prototype, methodHead]]
    exact .method (h.owns htype hk) rfl
  · split at hhead
    · obtain ⟨ops, -, hhead⟩ := List.mem_flatMap.1 hhead
      rw [renderHeads, List.mem_cons, List.mem_map] at hhead
      rcases hhead with rfl | ⟨i, -, rfl⟩
      · exact ⟨.render, rfl, .render⟩
      · exact ⟨.fragment i, fragmentSymbol_eq _ i, .fragment⟩
    · cases hhead

end BoundType

/-! ## The linkage of a model -/

namespace Model

/-- What a module may declare: parts of types that are not its own. -/
inductive Imports (m : Model) : Declaration → Prop
  | init {id} : m.table.get? id = some type → m.declares id = false →
    Imports m (.function (symbolOf type.fullName .init) [.ptr])
  | descriptor {id} : m.table.get? id = some type → m.declares id = false →
    Imports m (.descriptor (symbolOf type.fullName .descriptor))
  | method {id owner f} : m.table.Owns id owner f → m.declares id.owner = false →
    Imports m (.function (symbolOf owner.fullName (.method f.name))
      (.ptr :: f.paramTypes.map ValueType.ofName))

/-- What the code of a model may refer to. -/
def linkage (m : Model) : Linkage where
  Provides symbol types := ∃ type part, symbol = symbolOf type part ∧ part.Takes m.table type types
  Defines symbol := ∃ t ∈ m.types, ∃ type, m.table.get? t.id = some type ∧
    ∃ part ∈ .descriptor :: t.parts type, symbol = symbolOf type.fullName part
  Imports := m.Imports

variable {m : Model}

theorem exists_of_declares {id : TypeId} (h : m.declares id = true) : ∃ t ∈ m.types, t.id = id := by
  simpa [declares] using h

theorem linkage_covers (t : BoundType) :
    (m.linkage.scope m t).Covers { model := m, current := t.id } m.table.Named where
  owner := rfl
  slots := rfl
  params := rfl
  method := by
    intro id owner f hid howner hf
    obtain ⟨owner', f', h⟩ := hid.owns
    cases howner.symm.trans h.type
    cases hf.symm.trans h.method
    rw [methodSymbol_eq]
    refine ⟨⟨_, _, rfl, .method h rfl⟩, ?_⟩
    rw [CodeScope.Has]
    split
    · next hdeclares =>
      obtain ⟨u, hu, hid⟩ := exists_of_declares hdeclares
      refine ⟨u, hu, owner, hid ▸ h.type, .method f.name, ?_, rfl⟩
      obtain ⟨s, hs, hmethod⟩ := Option.bind_eq_some_iff.1 h.method
      cases hs.symm.trans h.type
      simp only [BoundType.parts, List.mem_cons, List.mem_append, List.mem_map]
      exact .inr (.inl (.inr ⟨f, List.mem_of_getElem? hmethod, rfl⟩))
    · next hdeclares => exact .method h (Bool.eq_false_iff.2 hdeclares)
  init := by
    intro id symbol hid
    rw [SymbolTable.nameOf_of_get? hid, initSymbol_eq, CodeScope.Has]
    refine ⟨⟨_, _, rfl, .init⟩, ?_⟩
    split
    · next hdeclares =>
      obtain ⟨u, hu, rfl⟩ := exists_of_declares hdeclares
      exact ⟨u, hu, symbol, hid, .init, by simp [BoundType.parts], rfl⟩
    · next hdeclares => exact .init hid (Bool.eq_false_iff.2 hdeclares)
  descriptor := by
    intro id symbol hid
    rw [SymbolTable.nameOf_of_get? hid, descriptorSymbol_eq, CodeScope.Has]
    split
    · next hdeclares =>
      obtain ⟨u, hu, rfl⟩ := exists_of_declares hdeclares
      exact ⟨u, hu, symbol, hid, .descriptor, by simp, rfl⟩
    · next hdeclares => exact .descriptor hid (Bool.eq_false_iff.2 hdeclares)
  fragment := by
    intro i
    exact ⟨_, _, fragmentSymbol_eq _ i, .fragment⟩

end Model


namespace Code

open Lower

/-! ## Descriptors -/

/-- The operand is a string constant of the module. -/
def Operand.IsConstant (strings : List Bytes) (o : Operand) : Prop :=
  ∃ i text, strings[i]? = some text ∧ o = .str i (text.length + 1)

theorem Operand.IsConstant.mono {strings strings' : List Bytes} {o : Operand}
    (h : o.IsConstant strings) (hs : strings <+: strings') : o.IsConstant strings' := by
  obtain ⟨i, text, hi, rfl⟩ := h
  exact ⟨i, text, Point.getElem?_of_isPrefixOf hs hi, rfl⟩

theorem run_string {text : Bytes} {s s' : LowerState} {o : Operand}
    (h : StateT.run (string text) s = .ok (o, s')) :
    s.strings <+: s'.strings ∧ s'.declarations = s.declarations ∧ o.IsConstant s'.strings := by
  replace h := Except.ok.inj h
  dsimp only at h
  split at h
  · next i hi =>
    obtain ⟨rfl, rfl⟩ := Prod.mk.inj h
    obtain ⟨hlt, htext, -⟩ := List.findIdx?_eq_some_iff_getElem.1 hi
    refine ⟨List.prefix_rfl, rfl, i, text, ?_, rfl⟩
    rw [List.getElem?_eq_getElem hlt]
    simpa using htext
  · obtain ⟨rfl, rfl⟩ := Prod.mk.inj h
    exact ⟨List.prefix_append .., rfl, s.strings.length, text, by simp, rfl⟩

/-- The descriptor of a declared type. -/
structure Describes (m : Model) (strings : List Bytes) (t : BoundType) (d : Descriptor) : Prop where
  type : ∃ type, m.table.get? t.id = some type ∧ d.type = type.fullName
  name : d.name.IsConstant strings
  route : ∀ r ∈ d.route, r.IsConstant strings
  render : d.render = renderOf m t

theorem Describes.mono {m : Model} {strings strings' : List Bytes} {t : BoundType} {d : Descriptor}
    (h : Describes m strings t d) (hs : strings <+: strings') : Describes m strings' t d :=
  ⟨h.type, h.name.mono hs, fun r hr => (h.route r hr).mono hs, h.render⟩

theorem run_descriptorOf {m : Model} {t : BoundType} {s s' : LowerState} {d : Descriptor}
    (h : StateT.run (descriptorOf m t) s = .ok (d, s')) :
    s.strings <+: s'.strings ∧ s'.declarations = s.declarations ∧ Describes m s'.strings t d := by
  rw [descriptorOf] at h
  cases htype : m.table.get? t.id with
  | none =>
    rw [htype] at h
    cases h
  | some type =>
    rw [htype] at h
    obtain ⟨_, _, ⟨⟩, h⟩ := run_bind_eq_ok.1 h
    split at h
    · obtain ⟨_, _, ⟨⟩, h⟩ := run_bind_eq_ok.1 h
      obtain ⟨name, s₁, hname, h⟩ := run_bind_eq_ok.1 h
      cases h
      obtain ⟨hs, hds, hconstant⟩ := run_string hname
      exact ⟨hs, hds, ⟨type, htype, rfl⟩, hconstant, by simp, rfl⟩
    · obtain ⟨constant, s₁, hconstant, h⟩ := run_bind_eq_ok.1 h
      obtain ⟨_, _, ⟨⟩, h⟩ := run_bind_eq_ok.1 h
      obtain ⟨name, s₂, hname, h⟩ := run_bind_eq_ok.1 h
      cases h
      obtain ⟨hs, hds, hroute⟩ := run_string hconstant
      obtain ⟨hs', hds', hname⟩ := run_string hname
      refine ⟨hs.trans hs', hds'.trans hds, ⟨type, htype, rfl⟩, hname, ?_, rfl⟩
      rintro _ ⟨⟩
      exact hroute.mono hs'

theorem run_descriptors {m : Model} {ts : List BoundType} {s s' : LowerState}
    {ds : List Descriptor} (h : StateT.run (descriptors m ts) s = .ok (ds, s')) :
    s.strings <+: s'.strings ∧ s'.declarations = s.declarations ∧
      List.Forall₂ (Describes m s'.strings) ts ds := by
  induction ts generalizing s ds with
  | nil =>
    cases h
    exact ⟨List.prefix_rfl, rfl, .nil⟩
  | cons t ts ih =>
    obtain ⟨d, s₁, hd, h⟩ := run_bind_eq_ok.1 h
    obtain ⟨ds, _, hds, h⟩ := run_bind_eq_ok.1 h
    cases h
    obtain ⟨hs, hdecls, hdescribes⟩ := run_descriptorOf hd
    obtain ⟨hs', hdecls', hrest⟩ := ih hds
    exact ⟨hs.trans hs', hdecls'.trans hdecls, .cons (hdescribes.mono hs') hrest⟩

/-! ## Modules -/

/-- The module of a model, as far as symbols and types matter. -/
structure Links (m : Model) (M : Module) : Prop where
  heads : M.functions.map Function.head =
    m.types.flatMap fun t => (m.table.get? t.id).toList.flatMap t.heads
  checked : ∀ f ∈ M.functions, ∃ t ∈ m.types, ∃ type, m.table.get? t.id = some type ∧
    f.head ∈ t.heads type ∧
      (m.linkage.scope m t).Checked M.strings M.declarations t.fragmentCount f
  declarations : ∃ ds, (∀ d ∈ ds, m.Imports d) ∧
    M.declarations = Declaration.insertAll ds LowerState.initial.declarations
  layouts : M.layouts = m.types.map (layoutOf m)
  descriptors : List.Forall₂ (Describes m M.strings) m.types M.descriptors
  manifest : M.manifest.IsConstant M.strings

theorem links_of_lower {m : Model} (htyped : m.Typed) (hnames : m.WellNamed) {name : Bytes}
    {M : Module} (h : lower m name = .ok M) : Links m M := by
  obtain ⟨s₁, s₂, s₃, hfunctions, hdescriptors, hmanifest, hlayouts, hstrings, hdeclarations⟩ :=
    run_lower h
  obtain ⟨hheads, ⟨hs₁, ds, hds, hdecls⟩, hchecked⟩ := Linkage.lowers_functions
    (fun t _ => m.linkage_covers t) htyped
    (fun t ht => (hnames.types t ht).elim fun _ hn => hn.2.names) hfunctions
  obtain ⟨hs₂, hdecls₂, hdescribes⟩ := run_descriptors hdescriptors
  obtain ⟨hs₃, hdecls₃, hconstant⟩ := run_string hmanifest
  have hlate : s₃.declarations = s₁.declarations := hdecls₃.trans hdecls₂
  rw [← hstrings] at hs₃ hconstant
  rw [hlate] at hdeclarations
  refine ⟨hheads, fun f hf => ?_, ⟨ds, hds, hdeclarations.trans hdecls⟩, hlayouts, ?_, hconstant⟩
  · obtain ⟨t, ht, type, htype, hhead, hf⟩ := hchecked f hf
    refine ⟨t, ht, type, htype, hhead, hf.mono (hs₂.trans hs₃) ?_ (Nat.le_refl _)⟩
    rw [hdeclarations]
    exact List.Subset.refl _
  · exact hdescribes.imp fun t d hd => hd.mono hs₃

/-- The runtime is declared from the start. -/
theorem runtime_mem_initial (f : Runtime) : .runtime f ∈ LowerState.initial.declarations := by
  -- Over the list, so that the declarations are put in order once and not for each function.
  have hall : ∀ f ∈ Runtime.all, .runtime f ∈ LowerState.initial.declarations := by decide +kernel
  exact hall f (by cases f <;> decide)

namespace Links

variable {m : Model} {M : Module}

theorem owner_eq {t : BoundType} {type : TypeSymbol} {head : Function}
    (hhead : head ∈ t.heads type) : head.owner = type.fullName := by
  rw [BoundType.heads, List.mem_append, List.mem_cons, List.mem_map] at hhead
  rcases hhead with (rfl | ⟨f, -, rfl⟩) | hhead
  · rfl
  · rfl
  · split at hhead
    · obtain ⟨ops, -, hhead⟩ := List.mem_flatMap.1 hhead
      rw [renderHeads, List.mem_cons, List.mem_map] at hhead
      rcases hhead with rfl | ⟨i, -, rfl⟩ <;> rfl
    · cases hhead

theorem imports (h : Links m M) {d : Declaration} (hd : d ∈ M.declarations) :
    (∃ f, d = .runtime f) ∨ m.Imports d := by
  obtain ⟨ds, hds, hdecls⟩ := h.declarations
  rw [hdecls] at hd
  rcases Declaration.mem_insertAll hd with hd | hd
  · exact .inr (hds d hd)
  · rcases Declaration.mem_insertAll hd with hd | hd
    · obtain ⟨f, -, rfl⟩ := List.mem_map.1 hd
      exact .inl ⟨f, rfl⟩
    · cases hd

theorem runtime_mem (h : Links m M) (f : Runtime) : .runtime f ∈ M.declarations := by
  obtain ⟨ds, -, hdecls⟩ := h.declarations
  rw [hdecls]
  exact Declaration.subset_insertAll ds _ (runtime_mem_initial f)

/-- Each function of a declared type is in the module. -/
theorem exists_function (h : Links m M) (hnames : m.WellNamed) {t : BoundType} (ht : t ∈ m.types)
    {type : TypeSymbol} (htype : m.table.get? t.id = some type) {part : Part}
    (hpart : part ∈ t.parts type) : ∃ f ∈ M.functions, f.head ∈ t.heads type ∧
      f.symbol = symbolOf type.fullName part := by
  have hsymbol : symbolOf type.fullName part ∈ (t.heads type).map (·.symbol) := by
    rw [(hnames.of_get? ht htype).symbols_heads]
    exact List.mem_map_of_mem hpart
  obtain ⟨head, hhead, hsymbol⟩ := List.mem_map.1 hsymbol
  have hmem : head ∈ M.functions.map Function.head := by
    rw [h.heads]
    exact List.mem_flatMap.2 ⟨t, ht, by simpa [htype] using hhead⟩
  obtain ⟨f, hf, rfl⟩ := List.mem_map.1 hmem
  exact ⟨f, hf, hhead, hsymbol⟩

theorem exists_descriptor (h : Links m M) {t : BoundType} (ht : t ∈ m.types) {type : TypeSymbol}
    (htype : m.table.get? t.id = some type) : ∃ d ∈ M.descriptors, d.type = type.fullName := by
  obtain ⟨d, hd, hdescribes⟩ := exists_mem_of_forall₂ h.descriptors.flip t ht
  obtain ⟨type', htype', heq⟩ := hdescribes.type
  cases htype.symm.trans htype'
  exact ⟨d, hd, heq⟩

/-- The function of a part takes what the part says. -/
theorem exists_function_of_takes (h : Links m M) (hnames : m.WellNamed) {t : BoundType}
    (ht : t ∈ m.types) {type : TypeSymbol} (htype : m.table.get? t.id = some type) {part : Part}
    (hpart : part ∈ t.parts type) {types : List ValueType}
    (htakes : part.Takes m.table type.fullName types) : ∃ f ∈ M.functions,
      f.symbol = symbolOf type.fullName part ∧ f.prototype.params = types := by
  obtain ⟨f, hf, hhead, hsymbol⟩ := h.exists_function hnames ht htype hpart
  obtain ⟨part', hsymbol', htakes'⟩ := (hnames.of_get? ht htype).takes htype hhead
  obtain ⟨-, rfl⟩ := symbolOf_inj htakes.plain htakes'.plain (hsymbol.symm.trans hsymbol')
  exact ⟨f, hf, hsymbol, htakes'.unique htakes⟩

/-- A function that the module has for a symbol of the linkage takes what the symbol says. -/
theorem prototype_mem (h : Links m M) (hnames : m.WellNamed) {symbol : Bytes}
    {types : List ValueType} (htypes : m.linkage.Provides symbol types)
    (hsymbol : m.linkage.Defines symbol ∨ ∃ d ∈ M.declarations, d.symbol = symbol) :
    ⟨symbol, types, none⟩ ∈ M.prototypes := by
  obtain ⟨type, part, rfl, htakes⟩ := htypes
  rcases hsymbol with ⟨t, ht, type', htype', part', hpart', heq⟩ | ⟨d, hd, hd'⟩
  · have hnamed := hnames.of_get? ht htype'
    obtain ⟨rfl, rfl⟩ := symbolOf_inj htakes.plain (hnamed.plain part' hpart') heq
    have hpart : part ∈ t.parts type' := by
      rcases List.mem_cons.1 hpart' with rfl | hpart
      · cases htakes
      · exact hpart
    obtain ⟨f, hf, hsymbol, rfl⟩ := h.exists_function_of_takes hnames ht htype' hpart htakes
    rw [← hsymbol]
    exact List.mem_append_left _ (List.mem_map_of_mem hf)
  · refine List.mem_append_right _ (List.mem_filterMap.2 ⟨d, hd, ?_⟩)
    rcases h.imports hd with ⟨f, rfl⟩ | himports
    · exact absurd hd'.symm (symbolOf_ne (dot_notMem_runtime f) _ _)
    · cases himports with
      | init =>
        obtain ⟨rfl, rfl⟩ := symbolOf_inj (p := .init) trivial htakes.plain hd'
        cases htakes
        rfl
      | descriptor =>
        obtain ⟨-, rfl⟩ := symbolOf_inj (p := .descriptor) trivial htakes.plain hd'
        cases htakes
      | @method id owner f howns =>
        obtain ⟨rfl, rfl⟩ := symbolOf_inj (p := .method f.name) howns.word htakes.plain hd'
        rw [htakes.unique (.method howns rfl)]
        rfl

theorem defines_of_fragment {t : BoundType} (ht : t ∈ m.types) {type : TypeSymbol}
    (htype : m.table.get? t.id = some type) {i : Nat} (hi : i < t.fragmentCount) :
    m.linkage.Defines (fragmentSymbol (m.table.nameOf t.id) i) := by
  rw [SymbolTable.nameOf_of_get? htype, fragmentSymbol_eq]
  refine ⟨t, ht, type, htype, .fragment i, List.mem_cons_of_mem _ ?_, rfl⟩
  rw [BoundType.fragmentCount] at hi
  cases hrender : t.render with
  | none => simp [hrender] at hi
  | some ops =>
    rw [hrender, Option.elim_some] at hi
    simp [BoundType.parts, hrender, hi]

/-- The module has what the code of a declared type relies on. -/
theorem serves (h : Links m M) (hnames : m.WellNamed) {t : BoundType} (ht : t ∈ m.types)
    {type : TypeSymbol} (htype : m.table.get? t.id = some type) (f : Function) :
    ((m.linkage.scope m t).of f).Serves M t.fragmentCount := by
  have hfinds {symbol : Bytes} (hs : ((m.linkage.scope m t).of f).Finds M t.fragmentCount symbol) :
      m.linkage.Defines symbol ∨ ∃ d ∈ M.declarations, d.symbol = symbol := by
    rcases hs with hs | hs | ⟨-, i, hi, rfl⟩
    · exact .inl hs
    · exact .inr hs
    · exact .inl (defines_of_fragment ht htype hi)
  refine ⟨⟨layoutOf m t, ?_, rfl, rfl⟩, h.runtime_mem, ?_, ?_⟩
  · rw [h.layouts]
    exact List.mem_map_of_mem ht
  · exact fun htypes hs => h.prototype_mem hnames htypes (hfinds hs)
  · intro name hs
    rw [descriptorSymbol_eq] at hs ⊢
    rcases hfinds hs with ⟨u, hu, type', htype', part, hpart, heq⟩ | ⟨d, hd, heq⟩
    · have hplain := (hnames.of_get? hu htype').plain part hpart
      obtain ⟨rfl, -⟩ := symbolOf_inj (p := .descriptor) trivial hplain heq
      exact .inl (h.exists_descriptor hu htype')
    · right
      rcases h.imports hd with ⟨g, rfl⟩ | himports
      · exact absurd heq.symm (symbolOf_ne (dot_notMem_runtime g) _ _)
      · cases himports with
        | init => cases (symbolOf_inj (p := .init) (q := .descriptor) trivial trivial heq).2
        | descriptor =>
          rw [← heq]
          exact hd
        | @method id owner g howns =>
          cases (symbolOf_inj (p := .method g.name) (q := .descriptor) howns.word trivial heq).2

/-- The instructions of every function are typed. -/
theorem typed (h : Links m M) (hnames : m.WellNamed) :
    ∀ f ∈ M.functions, ∃ τ, ∀ i ∈ f.body, M.TypedInstr f τ i := by
  intro f hf
  obtain ⟨t, ht, type, htype, hhead, hchecked⟩ := h.checked f hf
  refine hchecked.typed (h.serves hnames ht htype f) ?_
  have howner : f.head.owner = type.fullName := owner_eq hhead
  exact howner.trans (SymbolTable.nameOf_of_get? htype).symm

end Links

end Code

end ViewCompiler
