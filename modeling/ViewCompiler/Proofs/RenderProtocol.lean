import ViewCompiler.Proofs.BuilderCalls
import ViewCompiler.Proofs.LegibleModules

/-!
Render functions keep the protocol of the builder (`Model.render_protocol`): what a function calls on
the builder is content, and a child block becomes one fragment, made of the one function that its
own operations are lowered to.

Child blocks are lowered after the block they stand in, level by level; a child block gets its number
where its component is lowered and its function where its turn comes. Both count the same blocks
(`BoundOp.fragments_eq`).
-/

namespace ViewCompiler

/-! ## Child blocks -/

namespace BoundOp

variable {Γ : TypingContext}

/-- Where a block stands in a component without an error, it becomes a fragment. -/
theorem childBlocks_singleton {op : BoundOp} (h : Γ.TypedOp op) :
    childBlocks [op] = op.child?.toList := by
  cases h with
  | @component _ _ _ _ _ _ childSpan _ _ _ _ hcontent =>
    cases childSpan with
    | none => rfl
    | some span =>
      obtain ⟨id, _, rfl, -⟩ := hcontent rfl
      rfl
  | _ => rfl

theorem Nested.of_mem_childBlocks {n : Nat} {attributes : Bool} {ops block : List BoundOp}
    (h : Nested n attributes ops) (hblock : block ∈ childBlocks ops) : Nested 0 false block := by
  obtain ⟨s, t, as, cs, m, hop⟩ := exists_of_mem_childBlocks hblock
  clear hblock
  induction h with
  | nil => cases hop
  | component hchild _ _ ih =>
    rcases List.mem_cons.1 hop with heq | hop
    · cases heq
      exact hchild
    · exact ih hop
  | _ =>
    rename_i ih
    exact ih ((List.mem_cons.1 hop).resolve_left (by simp))

end BoundOp

namespace Code

open Lower

/-! ## What the functions of a render block are -/

mutual

/-- Lowering the operations takes `s` to `s'`. A component with a child block makes one fragment on
the way, of the only function of `M` with its symbol, and this one renders the child block; other
operations make none. -/
inductive RendersOps (M : Module) (c : LowerScope) : LowerState → List BoundOp → LowerState → Prop
  | nil : RendersOps M c s [] s
  | plain {op : BoundOp} {s s₁ s' : LowerState} : op.child? = none →
    StateT.run (c.renderOp op) s = .ok ((), s₁) →
    s₁.body = s.body ++ code → code.filterMap Instr.madeFragment? = [] →
    RendersOps M c s₁ ops s' → RendersOps M c s (op :: ops) s'
  | child {op : BoundOp} {s s₁ s' : LowerState} : op.child? = some block →
    StateT.run (c.renderOp op) s = .ok ((), s₁) →
    s₁.body = s.body ++ code →
    code.filterMap Instr.madeFragment? = [[.function f.symbol, .self]] →
    M.functions.filter (·.symbol = f.symbol) = [f] → Renders M c f block →
    RendersOps M c s₁ ops s' → RendersOps M c s (op :: ops) s'

/-- The body of `f` is what the operations are lowered to. -/
inductive Renders (M : Module) (c : LowerScope) : Function → List BoundOp → Prop
  | intro {s s' : LowerState} : RendersOps M c s.fresh ops s' → s'.strings <+: M.strings →
    f.body = s'.body ++ [.ret] → Renders M c f ops

end

namespace LowerScope

variable {c : LowerScope} {Γ : TypingContext} {M : Module}

/-- The body of `f` is what the operations are lowered to, when `made` child blocks were made
fragments of before. -/
structure Lowered (c : LowerScope) (strings : List Bytes) (made : Nat) (ops : List BoundOp)
    (f : Function) : Prop where
  run : ∃ s s' : LowerState, StateT.run (c.renderOps ops) s.fresh = .ok ((), s') ∧ s.fragments = made ∧
    s'.strings <+: strings ∧ f.body = s'.body ++ [.ret]

theorem Lowered.mono {strings strings' : List Bytes} {made : Nat} {ops : List BoundOp}
    {f : Function} (h : c.Lowered strings made ops f) (hstrings : strings <+: strings') :
    c.Lowered strings' made ops f := by
  obtain ⟨s, s', hrun, hmade, hs, hbody⟩ := h
  exact ⟨⟨s, s', hrun, hmade, hs.trans hstrings, hbody⟩⟩

theorem lowered_function {head f : Function} {ops : List BoundOp} {s s' : LowerState}
    (h : StateT.run (function head (c.renderOps ops)) s = .ok (f, s')) :
    c.Lowered s'.strings s.fragments ops f ∧ f.symbol = head.symbol ∧ s.strings <+: s'.strings ∧
      s'.fragments = s.fragments + (BoundOp.childBlocks ops).length := by
  have hcount := counts_function (counts_renderOps (c := c) ops) head s f s' h
  obtain ⟨s₁, hrun, rfl, hstrings, -⟩ := CodeScope.run_function h
  obtain ⟨-, hadds⟩ := calls_renderOps ops _ _ _ hrun
  have hopen : s₁.terminated = false := hadds.terminated
  refine ⟨⟨s, s₁, hrun, rfl, hstrings ▸ List.prefix_rfl, ?_⟩, rfl, ?_, hcount⟩
  · rw [hopen]
    rfl
  · rw [hstrings]
    exact hadds.strings

/-- What a lowered block calls on the builder. -/
theorem Lowered.calls {strings : List Bytes} {made : Nat} {ops : List BoundOp} {f : Function}
    (h : c.Lowered strings made ops f) :
    f.body.filterMap Instr.builderCall? = ops.flatMap BoundOp.calls := by
  obtain ⟨s, s', hrun, -, -, hbody⟩ := h
  obtain ⟨-, ⟨⟨code, hcode, hcalls, -⟩, -⟩⟩ := calls_renderOps ops _ _ _ hrun
  have hempty : s'.body = code := hcode
  rw [hbody, hempty, List.filterMap_append, hcalls]
  simp [Instr.builderCall?]

/-! ## Fragments and their functions -/

/-- Operations render what they are lowered to, if the functions of their child blocks render
those. -/
theorem rendersOps_of_run {ops : List BoundOp} (h : ∀ op ∈ ops, Γ.TypedOp op) {s s' : LowerState}
    (hchild : ∀ i block, (BoundOp.childBlocks ops)[i]? = some block → ∃ f,
      f.symbol = fragmentSymbol c.typeName (s.fragments + i) ∧
        M.functions.filter (·.symbol = f.symbol) = [f] ∧ Renders M c f block)
    (hrun : StateT.run (c.renderOps ops) s = .ok ((), s')) : RendersOps M c s ops s' := by
  induction ops generalizing s with
  | nil =>
    cases hrun
    exact .nil
  | cons op ops ih =>
    obtain ⟨hop, hops⟩ := List.forall_mem_cons.1 h
    obtain ⟨_, s₁, hoprun, hopsrun⟩ := run_bind_eq_ok.1 hrun
    obtain ⟨-, ⟨⟨code, hcode, -, hmade⟩, -⟩⟩ := calls_renderOp op _ _ _ hoprun
    have hcount := counts_renderOp op _ _ _ hoprun
    rw [BoundOp.childBlocks_cons, BoundOp.childBlocks_singleton hop] at hchild
    rw [BoundOp.childBlocks_singleton hop] at hcount
    cases hblock : op.child? with
    | none =>
      rw [hblock] at hchild hcount
      have hsame : s₁.fragments = s.fragments := hcount
      refine .plain hblock hoprun hcode (by simp [hmade, hsame]) (ih hops ?_ hopsrun)
      rw [hsame]
      exact hchild
    | some block =>
      rw [hblock] at hchild hcount
      have hnext : s₁.fragments = s.fragments + 1 := hcount
      obtain ⟨f, hsymbol, hf, hrenders⟩ := hchild 0 block rfl
      refine .child hblock hoprun hcode ?_ hf hrenders (ih hops (fun i inner hi => ?_) hopsrun)
      · simp [hmade, hnext, hsymbol]
      · rw [hnext, Nat.add_assoc, Nat.add_comm 1]
        exact hchild (i + 1) inner hi

/-- Each block is lowered to the function at its place, after the child blocks of the blocks before
it were counted. -/
def LoweredFrom (c : LowerScope) (strings : List Bytes) (made : Nat)
    (blocks : List (List BoundOp)) (fs : List Function) : Prop :=
  ∀ (j : Nat) block, blocks[j]? = some block → ∃ f, fs[j]? = some f ∧
    c.Lowered strings (made + ((blocks.take j).flatMap BoundOp.childBlocks).length) block f

/-- The functions of a render block and of its child blocks. -/
structure LoweredAll (c : LowerScope) (strings : List Bytes) (ops : List BoundOp)
    (fs : List Function) : Prop where
  symbols : fs.map (·.symbol) = renderSymbol c.typeName ::
    (List.range (BoundOp.fragments ops).length).map (fragmentSymbol c.typeName)
  lowered : c.LoweredFrom strings 0 (ops :: BoundOp.fragments ops) fs

/-- Where an item of the list for one element stands among those for all. -/
theorem getElem?_flatMap {α β : Type} {f : α → List β} {l : List α} {a : α} {b : β} {i j : Nat}
    (ha : l[j]? = some a) (hb : (f a)[i]? = some b) :
    (l.flatMap f)[((l.take j).flatMap f).length + i]? = some b := by
  obtain ⟨hj, rfl⟩ := List.getElem?_eq_some_iff.1 ha
  have hsplit : l.flatMap f = (l.take j).flatMap f ++ (f l[j] ++ (l.drop (j + 1)).flatMap f) := by
    rw [← List.flatMap_cons, ← List.drop_eq_getElem_cons hj, ← List.flatMap_append,
      List.take_append_drop]
  rw [hsplit, List.getElem?_append_right (Nat.le_add_right _ _), Nat.add_sub_cancel_left,
    List.getElem?_append_left (List.getElem?_eq_some_iff.1 hb).1, hb]

/-- The functions render the blocks that they are lowered from. A child block nests less deep than
what it stands in, so its function is known to render it. -/
theorem LoweredAll.renders {ops : List BoundOp} {fs : List Function}
    (h : c.LoweredAll M.strings ops fs)
    (hfs : ∀ f ∈ fs, M.functions.filter (·.symbol = f.symbol) = [f])
    (htyped : ∀ block ∈ ops :: BoundOp.fragments ops, ∀ op ∈ block, Γ.TypedOp op) {j : Nat}
    {block : List BoundOp} (hblock : (ops :: BoundOp.fragments ops)[j]? = some block) :
    ∃ f, fs[j]? = some f ∧ Renders M c f block := by
  induction hd : BoundOp.depths block using Nat.strong_induction_on generalizing j block with
  | h d ih =>
    obtain ⟨f, hf, s, s', hrun, hmade, hstrings, hbody⟩ := h.lowered j block hblock
    refine ⟨f, hf, .intro (rendersOps_of_run (htyped block (List.mem_of_getElem? hblock))
      (fun i inner hinner => ?_) hrun) hstrings hbody⟩
    have hdepth := BoundOp.depths_lt_of_mem_childBlocks (List.mem_of_getElem? hinner)
    have hfragment := getElem?_flatMap hblock hinner
    rw [← BoundOp.fragments_eq, ← Nat.zero_add (List.length _), ← hmade] at hfragment
    obtain ⟨g, hg, hrenders⟩ := ih _ (hd ▸ hdepth) (j := s.fragments + i + 1) hfragment rfl
    refine ⟨g, ?_, hfs g (List.mem_of_getElem? hg), hrenders⟩
    have hsymbol := congrArg (·[s.fragments + i + 1]?) h.symbols
    have hlt := (List.getElem?_eq_some_iff.1 hfragment).1
    simpa [hg, hlt, LowerState.fresh] using hsymbol

theorem LoweredFrom.cons {head f : Function} {ops : List BoundOp} {blocks : List (List BoundOp)}
    {fs : List Function} {strings : List Bytes} {s s' : LowerState}
    (hf : StateT.run (function head (c.renderOps ops)) s = .ok (f, s'))
    (hstrings : s'.strings <+: strings) (hfs : c.LoweredFrom strings s'.fragments blocks fs) :
    c.LoweredFrom strings s.fragments (ops :: blocks) (f :: fs) := by
  obtain ⟨hlowered, -, -, hcount⟩ := lowered_function hf
  intro j block hblock
  cases j with
  | zero =>
    cases hblock
    exact ⟨f, rfl, hlowered.mono hstrings⟩
  | succ j =>
    obtain ⟨g, hg, hlowered'⟩ := hfs j block hblock
    rw [hcount, Nat.add_assoc, ← List.length_append, ← List.flatMap_cons,
      ← List.take_succ_cons] at hlowered'
    exact ⟨g, hg, hlowered'⟩

theorem lowered_fragmentFunctions {index : Nat} {blocks : List (List BoundOp)}
    {s s' : LowerState} {fs : List Function}
    (h : StateT.run (c.fragmentFunctions index blocks) s = .ok (fs, s')) :
    s.strings <+: s'.strings ∧
      fs.map (·.symbol) = (List.range' index blocks.length).map (fragmentSymbol c.typeName) ∧
      c.LoweredFrom s'.strings s.fragments blocks fs := by
  induction blocks generalizing index s fs with
  | nil =>
    cases h
    exact ⟨List.prefix_rfl, rfl, by simp [LoweredFrom]⟩
  | cons ops blocks ih =>
    obtain ⟨f, s₁, hf, h⟩ := run_bind_eq_ok.1 h
    obtain ⟨gs, _, hgs, h⟩ := run_bind_eq_ok.1 h
    cases h
    obtain ⟨-, hsymbol, hstrings, -⟩ := lowered_function hf
    obtain ⟨hstrings', hsymbols, hrest⟩ := ih hgs
    exact ⟨hstrings.trans hstrings', by simp [hsymbol, hsymbols, List.range'_succ],
      .cons hf hstrings' hrest⟩

theorem loweredAll_renderFunctions {ops : List BoundOp} {s s' : LowerState} {fs : List Function}
    (h : StateT.run (c.renderFunctions ops) s = .ok (fs, s')) :
    c.LoweredAll s'.strings ops fs := by
  obtain ⟨_, _, ⟨⟩, h⟩ := run_bind_eq_ok.1 h
  obtain ⟨f, s₁, hf, h⟩ := run_bind_eq_ok.1 h
  obtain ⟨gs, _, hgs, h⟩ := run_bind_eq_ok.1 h
  cases h
  obtain ⟨-, hsymbol, -⟩ := lowered_function hf
  obtain ⟨hstrings, hsymbols, hrest⟩ := lowered_fragmentFunctions hgs
  exact ⟨by rw [List.map_cons, hsymbol, hsymbols, List.range_eq_range'], .cons hf hstrings hrest⟩

end LowerScope

/-! ## Models -/

section
variable {m : Model}

theorem loweredAll_typeFunctions {t : BoundType} {type : TypeSymbol}
    (htype : m.table.get? t.id = some type) (hcomponent : t.render.isSome → type.isComponent)
    {s s' : LowerState} {fs : List Function}
    (h : StateT.run (typeFunctions m t) s = .ok (fs, s')) {ops : List BoundOp}
    (hops : ops ∈ t.render) : ∃ gs ⊆ fs,
      LowerScope.LoweredAll { model := m, current := t.id } s'.strings ops gs := by
  have hrender : t.render = some ops := hops
  rw [typeFunctions, htype] at h
  obtain ⟨_, _, ⟨⟩, h⟩ := run_bind_eq_ok.1 h
  obtain ⟨init, s₁, -, h⟩ := run_bind_eq_ok.1 h
  obtain ⟨methods, s₂, -, h⟩ := run_bind_eq_ok.1 h
  rw [hrender] at h
  simp only [if_pos (hcomponent (by simp [hrender]))] at h
  obtain ⟨gs, _, hgs, h⟩ := run_bind_eq_ok.1 h
  cases h
  exact ⟨gs, List.subset_append_right _ _, LowerScope.loweredAll_renderFunctions hgs⟩

theorem loweredAll_functions {ts : List BoundType}
    (hresolved : ∀ t ∈ ts, ∃ type, m.table.get? t.id = some type ∧ t.Resolved m.table type)
    (hnamed : ∀ t ∈ ts, ∃ type, m.table.get? t.id = some type ∧ t.WellNamed m.table type)
    {s s' : LowerState} {fs : List Function}
    (h : StateT.run (functions m ts) s = .ok (fs, s')) :
    ∀ t ∈ ts, ∀ ops ∈ t.render, ∃ gs ⊆ fs,
      LowerScope.LoweredAll { model := m, current := t.id } s'.strings ops gs := by
  induction ts generalizing s fs with
  | nil => simp
  | cons t ts ih =>
    obtain ⟨-, hresolved⟩ := List.forall_mem_cons.1 hresolved
    obtain ⟨⟨type, htype, ht⟩, hnamed⟩ := List.forall_mem_cons.1 hnamed
    obtain ⟨hs, s₁, hhs, h⟩ := run_bind_eq_ok.1 h
    obtain ⟨others, _, hothers, h⟩ := run_bind_eq_ok.1 h
    cases h
    refine List.forall_mem_cons.2 ⟨fun ops hops => ?_, fun u hu ops hops => ?_⟩
    · obtain ⟨gs, hgs, hsymbols, hlowered⟩ := loweredAll_typeFunctions htype ht.render hhs hops
      have hstrings := (total_functions hresolved).keeps_strings hothers
      refine ⟨gs, List.Subset.trans hgs (List.subset_append_left _ _), hsymbols, ?_⟩
      intro j block hblock
      obtain ⟨f, hf, hf'⟩ := hlowered j block hblock
      exact ⟨f, hf, hf'.mono hstrings⟩
    · obtain ⟨gs, hgs, hall⟩ := ih hresolved hnamed hothers u hu ops hops
      exact ⟨gs, List.Subset.trans hgs (List.subset_append_right _ _), hall⟩

/-- The render blocks of a model have their functions in its module. -/
theorem loweredAll_of_lower (hresolved : m.Resolved) (hnames : m.WellNamed) {name : Bytes}
    {M : Module} (h : lower m name = .ok M) : ∀ t ∈ m.types, ∀ ops ∈ t.render, ∃ gs ⊆ M.functions,
      LowerScope.LoweredAll { model := m, current := t.id } M.strings ops gs := by
  obtain ⟨s₁, s₂, s₃, hfunctions, hdescriptors, hmanifest, -, hstrings, -⟩ := run_lower h
  obtain ⟨hs₂, -⟩ := run_descriptors hdescriptors
  obtain ⟨hs₃, -⟩ := run_string hmanifest
  intro t ht ops hops
  obtain ⟨gs, hgs, hsymbols, hlowered⟩ :=
    loweredAll_functions hresolved hnames.types hfunctions t ht ops hops
  refine ⟨gs, hgs, hsymbols, fun j block hblock => ?_⟩
  obtain ⟨f, hf, hf'⟩ := hlowered j block hblock
  exact ⟨f, hf, hf'.mono (hstrings ▸ hs₂.trans hs₃)⟩

/-- A function that takes no builder calls nothing on one. -/
theorem Module.TypedInstr.builderCall?_eq_none {M : Module} {f : Function} {τ : List TempType}
    {i : Instr} (hf : f.builder = false) (h : M.TypedInstr f τ i) : i.builderCall? = none := by
  have hargs {callee : Callee} {args : List Value} {result : Option ValueType}
      (happlies : M.Applies f τ callee args result) : args.any (·.operand = .builder) = false := by
    rw [List.any_eq_false]
    rintro ⟨o, type⟩ ha hbuilder
    obtain rfl : o = .builder := of_decide_eq_true hbuilder
    cases happlies.2 _ ha with
    | builder h => simp [hf] at h
  cases h with
  | @run callee args happlies | @compute callee args _ _ happlies =>
    cases callee with
    | runtime g => simp [Instr.builderCall?, hargs happlies]
    | method => rfl
  | _ => rfl

namespace Links

variable {M : Module}

/-- A function of the module is known by its symbol. -/
theorem eq_of_symbol_eq (h : Links m M) (hnames : m.WellNamed) {f g : Function}
    (hf : f ∈ M.functions) (hg : g ∈ M.functions) (hsymbol : f.symbol = g.symbol) : f = g :=
  List.inj_on_of_nodup_map (h.nodup_functions hnames) hf hg hsymbol

theorem filter_symbol (h : Links m M) (hnames : m.WellNamed) {f : Function}
    (hf : f ∈ M.functions) : M.functions.filter (·.symbol = f.symbol) = [f] :=
  filter_key_eq (h.nodup_functions hnames) hf

/-- Functions with a builder are those of render blocks. -/
theorem exists_lowered (h : Links m M) (hresolved : m.Resolved) (hnames : m.WellNamed)
    {name : Bytes} (hM : lower m name = .ok M) {f : Function} (hf : f ∈ M.functions)
    (hbuilder : f.builder = true) :
    ∃ t ∈ m.types, ∃ ops ∈ t.render, ∃ block ∈ ops :: BoundOp.fragments ops, ∃ made,
      LowerScope.Lowered { model := m, current := t.id } M.strings made block f := by
  obtain ⟨t, ht, type, htype, hhead, -⟩ := h.checked f hf
  have hhead' : ∃ ops ∈ t.render, f.head ∈ renderHeads type.fullName ops := by
    rw [BoundType.heads, List.mem_append] at hhead
    rcases hhead with hhead | hhead
    · have hsame : (initHead type :: type.methods.map (methodHead type)).map Function.head =
          initHead type :: type.methods.map (methodHead type) := by
        simp [Function.head, initHead, methodHead]
      have hnone : f.head.builder = false := CodeScope.builder_eq_false hsame _ hhead
      exact absurd (hbuilder.symm.trans hnone) (by simp)
    · split at hhead
      · simpa using hhead
      · cases hhead
  obtain ⟨ops, hops, hhead⟩ := hhead'
  obtain ⟨gs, hgs, hsymbols, hlowered⟩ := loweredAll_of_lower hresolved hnames hM t ht ops hops
  have hsymbol : f.symbol ∈ gs.map (·.symbol) := by
    have hmem : f.head.symbol ∈ (renderHeads type.fullName ops).map (·.symbol) :=
      List.mem_map_of_mem hhead
    rw [hsymbols]
    simpa [Function.head, renderHeads, renderHead, fragmentHead, LowerScope.typeName, LowerScope.table,
      SymbolTable.nameOf_of_get? htype,
      List.map_map, Function.comp_def] using hmem
  obtain ⟨g, hg, heq⟩ := List.mem_map.1 hsymbol
  obtain rfl := h.eq_of_symbol_eq hnames (hgs hg) hf heq
  obtain ⟨j, hj⟩ := List.getElem?_of_mem hg
  have hlength := congrArg List.length hsymbols
  have hlt : j < (ops :: BoundOp.fragments ops).length := by
    have := (List.getElem?_eq_some_iff.1 hj).1
    simp at hlength ⊢
    omega
  obtain ⟨g', hg', hlowered⟩ := hlowered j _ (List.getElem?_eq_getElem hlt)
  obtain rfl : g = g' := Option.some.inj (hj.symm.trans hg')
  exact ⟨t, ht, ops, hops, _, List.getElem_mem hlt, _, hlowered⟩

end Links

end

end Code

/-- The render blocks of a model without errors nest. -/
theorem Model.nested_analyze {refs : List Reference} {trees : List SyntaxTree}
    (h : (Model.analyze refs trees).hasErrors = false) :
    ∀ t ∈ (Model.analyze refs trees).types, ∀ ops ∈ t.render, BoundOp.Nested 0 false ops := by
  intro t ht ops hops
  rw [Analysis.analyze_types] at ht
  obtain ⟨d, hd, rfl⟩ := List.mem_map.1 ht
  have hclean := (Analysis.clean_of_not_hasErrors h d hd).2
  cases hr : d.decl.render with
  | none => simp [SymbolTable.body, hr] at hops
  | some block =>
    simp only [SymbolTable.body, hr, Checked.clean_bind, Checked.value_bind] at hclean hops
    cases hops
    exact BodyScope.nested_renderOps block.ops hclean.2.2.1

open Code in
/-- Over closed references, parsed files without errors give a module whose functions call on the
builder what it expects. Every render block has one function, whose body is the code of its
operations: a component with a child block makes one fragment there, of the one function whose body
is the code of this child block in turn, and other operations make none. The functions are what is read from
the text of the module, if the types of the references have names that can be written. -/
theorem Model.render_protocol {refs : List Reference} {trees : List SyntaxTree}
    (hrefs : Reference.Closed refs)
    (htrees : ∀ tree ∈ trees, ∃ source file, tree = SyntaxTree.parse source file)
    (h : (Model.analyze refs trees).hasErrors = false) (name : Bytes) :
    ∃ M, lower (Model.analyze refs trees) name = .ok M ∧
      (∀ f ∈ M.functions, Content (f.body.filterMap Instr.builderCall?)) ∧
      (∀ t ∈ (Model.analyze refs trees).types, ∀ ops ∈ t.render, ∃ f,
        M.functions.filter
            (·.symbol = renderSymbol ((Model.analyze refs trees).table.nameOf t.id)) = [f] ∧
          Renders M { model := Model.analyze refs trees, current := t.id } f ops) ∧
      ((∀ r ∈ refs, r.Nameable) → M.Legible) := by
  have htyped := Model.typed_analyze hrefs h
  have hnames := Model.wellNamed_analyze (SyntaxTree.worded_of_parsed htrees) h
  have hnested := Model.nested_analyze h
  obtain ⟨M, hM⟩ := exists_lower htyped.resolved name
  have hlinks := links_of_lower htyped hnames hM
  refine ⟨M, hM, fun f hf => ?_, fun t ht ops hops => ?_,
    fun hnameable => Model.legible_of_parsed hrefs hnameable htrees h hM⟩
  · cases hbuilder : f.builder with
    | true =>
      obtain ⟨t, ht, ops, hops, block, hblock, made, hlowered⟩ :=
        hlinks.exists_lowered htyped.resolved hnames hM hf hbuilder
      rw [hlowered.calls]
      have hall := BoundOp.forall_mem_fragments (fun _ h _ => h.of_mem_childBlocks)
        (hnested t ht ops hops)
      exact content_of_nested (List.forall_mem_cons.2 ⟨hnested t ht ops hops, hall⟩ block hblock)
    | false =>
      obtain ⟨τ, hτ⟩ := hlinks.typed hnames f hf
      rw [List.filterMap_eq_nil_iff.2 fun i hi => (hτ i hi).builderCall?_eq_none hbuilder]
      exact .nil
  · obtain ⟨gs, hgs, hall⟩ := loweredAll_of_lower htyped.resolved hnames hM t ht ops hops
    obtain ⟨symbol, -, hsymbol⟩ := htyped t ht
    have hops' := hsymbol.render ops hops
    have hfragments := BoundOp.forall_mem_fragments
      (fun _ hops _ hblock => BoundOp.typed_of_mem_childBlocks hops hblock) hops'
    obtain ⟨f, hf, hrenders⟩ := hall.renders (j := 0)
      (fun g hg => hlinks.filter_symbol hnames (hgs hg))
      (List.forall_mem_cons.2 ⟨hops', hfragments⟩) rfl
    have hname : f.symbol = renderSymbol ((Model.analyze refs trees).table.nameOf t.id) := by
      have hsymbol := congrArg (·[0]?) hall.symbols
      simpa [hf, LowerScope.typeName, LowerScope.table] using hsymbol
    exact ⟨f, hname ▸ hlinks.filter_symbol hnames (hgs (List.mem_of_getElem? hf)), hrenders⟩

open Code in
theorem Model.render_protocol_counter :
    Reference.Closed [panelLibrary] ∧ counterModel.hasErrors = false ∧
      ∃ M, lower counterModel "App" = .ok M ∧
        (∀ f ∈ M.functions, Content (f.body.filterMap Instr.builderCall?)) ∧
        (∀ t ∈ counterModel.types, ∀ ops ∈ t.render, ∃ f,
          M.functions.filter (·.symbol = renderSymbol (counterModel.table.nameOf t.id)) = [f] ∧
            Renders M { model := counterModel, current := t.id } f ops) ∧ M.Legible := by
  have htrees : ∀ tree ∈ [SyntaxTree.parse counterSource "counter.il"],
      ∃ source file, tree = SyntaxTree.parse source file :=
    List.forall_mem_singleton.2 ⟨_, _, rfl⟩
  obtain ⟨M, hM, hcontent, hrenders, hlegible⟩ :=
    Model.render_protocol closed_panelLibrary htrees counterModel_hasErrors "App"
  exact ⟨closed_panelLibrary, counterModel_hasErrors, M, hM, hcontent, hrenders,
    hlegible nameable_panelLibrary⟩

end ViewCompiler
