import ViewCompiler.Proofs.LoweringTotal
import ViewCompiler.Proofs.StmtSimulation

/-!
Lowering preserves meaning (`Model.implements_of_lower`): each method of a model without errors has
a function in the module that makes the same calls and leaves the same members behind as the
evaluation of its body, whatever the host answers.
-/

namespace ViewCompiler

open Code Lower

namespace Code

/-- The function does what the body means: on every host, and from every world, object and
arguments. -/
def Module.Implements (M : Module) (f : Function) (layout : Layout) (Γ : TypingContext)
    (body : List BoundStmt) : Prop :=
  ∀ (W P : Type) (host : Host W P) (world : W) (members : MemberId → Cell P) (args : Nat → Cell P),
    Activation.Ends { host, strings := M.strings, layout, function := f, args } world
      ((Γ.table.layout Γ.current).map members)
      (Evaluator.method { context := Γ, host } body world members args)

/-- For each method of the declared type, the module has a function that does what its body means. -/
def Module.ImplementsMethods (M : Module) (m : Model) (t : BoundType) : Prop :=
  ∃ type, m.table.get? t.id = some type ∧
    List.Forall₂ (fun (b : BoundMethod) (f : MethodSymbol) =>
      ∃ fn ∈ M.functions, fn.symbol = methodSymbol type.fullName f.name ∧
        fn.params = f.paramTypes.map ValueType.ofName ∧
        ∃ layout ∈ M.layouts, layout.type = fn.owner ∧
          M.Implements fn layout { table := m.table, current := t.id, params := f.paramTypes } b.body)
      t.methods type.methods

/-! ## Parameters -/

/-- The code that gives each parameter from `index` on its slot. -/
def slotCode (index : Nat) : List ValueType → List Instr
  | [] => []
  | type :: types =>
    .alloca index type :: .store type (.param index) (.slot index) :: slotCode (index + 1) types

theorem run_paramSlots (index : Nat) (types : List ValueType) (s : LowerState) :
    StateT.run (LowerScope.paramSlots index types) s =
      .ok ((), { s with body := s.body ++ slotCode index types }) := by
  induction types generalizing index s with
  | nil => simp [LowerScope.paramSlots, slotCode]; rfl
  | cons type types ih =>
    rw [LowerScope.paramSlots]
    change StateT.run (LowerScope.paramSlots (index + 1) types) _ = _
    rw [ih]
    simp [slotCode]

theorem straight_slotCode (index : Nat) (types : List ValueType) :
    ∀ i ∈ slotCode index types, i.isStraight := by
  induction types generalizing index with
  | nil => simp [slotCode]
  | cons type types ih => simpa [slotCode, Instr.isStraight] using ih (index + 1)

variable {W P : Type} {A : Activation W P}

/-- Each slot gets its argument. -/
theorem execAll_slotCode (htypes : ∀ type ∈ A.function.params, ∀ cell : Cell P,
      (cell.load type).hasType type) (index : Nat) {types : List ValueType}
    (hdrop : A.function.params.drop index = types) (fr : Frame W P) :
    ∃ slots, A.execAll fr (slotCode index types) = .ok { fr with slots } ∧
      (∀ j < index, slots j = fr.slots j) ∧
      ∀ j ≥ index, ∀ type, A.function.params[j]? = some type →
        slots j = some { type, value := some ((A.args j).load type) } := by
  induction types generalizing index fr with
  | nil =>
    refine ⟨fr.slots, rfl, fun _ _ => rfl, fun j hj type hparam => ?_⟩
    have hlt := (List.getElem?_eq_some_iff.1 hparam).1
    have := List.drop_eq_nil_iff.1 hdrop
    omega
  | cons type types ih =>
    have hparam : A.function.params[index]? = some type := by
      rw [← List.head?_drop, hdrop]
      rfl
    have hdrop' : A.function.params.drop (index + 1) = types := by
      rw [← List.drop_drop, hdrop]
      rfl
    obtain ⟨slots, hexec, hbelow, hfrom⟩ := ih (index + 1) hdrop'
      (fr.setSlot index { type, value := some ((A.args index).load type) })
    refine ⟨slots, ?_, fun j hj => ?_, fun j hj type' hj' => ?_⟩
    · have htype := htypes type (List.mem_of_getElem? hparam) (A.args index)
      have hoperand : A.operand (fr.setSlot index { type }) type (.param index) =
          some ((A.args index).load type) := by
        simp [Activation.operand, Activation.value, hparam, Option.filter, htype]
      have hslot : (fr.setSlot index { type }).slots index = some { type } := by
        simp [Frame.setSlot]
      have hstore : A.exec (fr.setSlot index { type }) (.store type (.param index) (.slot index)) =
          some (fr.setSlot index { type, value := some ((A.args index).load type) }) := by
        simp only [Activation.exec, hoperand, Option.bind_some, Activation.store, hslot, if_true,
          Frame.setSlot_setSlot]
      simp only [slotCode, Activation.execAll, Activation.exec.eq_1, hstore]
      exact hexec
    · rw [hbelow j (by omega)]
      simp [Frame.setSlot, Nat.ne_of_lt hj]
    · by_cases hji : j = index
      · subst hji
        obtain rfl : type = type' := by simpa [hparam] using hj'
        rw [hbelow j (by omega)]
        simp [Frame.setSlot]
      · exact hfrom j (by omega) type' hj'

/-! ## Methods -/

/-- The state in which the body of a function starts. -/
def LowerState.fresh (s : LowerState) : LowerState :=
  { s with body := [], temps := 0, labels := 0, terminated := false }

/-- What a function of a method consists of: the slots of its parameters, the code of its
statements, and a return unless they end with one. -/
theorem run_methodFunction {c : LowerScope} {type : TypeSymbol} {f : MethodSymbol}
    {body : List BoundStmt} {s s' : LowerState} {fn : Function}
    (h : StateT.run (c.methodFunction type f body) s = .ok (fn, s')) :
    ∃ s₁, StateT.run (LowerScope.stmts { c with params := f.paramTypes.map ValueType.ofName } body)
        { s.fresh with body := slotCode 0 (f.paramTypes.map ValueType.ofName) } = .ok ((), s₁) ∧
      s₁.strings = s'.strings ∧
      fn = { symbol := methodSymbol type.fullName f.name, owner := type.fullName
             params := f.paramTypes.map ValueType.ofName
             body := s₁.body ++ if s₁.terminated then [] else [.ret] } := by
  rw [LowerScope.methodFunction, function] at h
  obtain ⟨_, _, ⟨⟩, h⟩ := run_bind_eq_ok.1 h
  obtain ⟨_, s₁, hbody, h⟩ := run_bind_eq_ok.1 h
  obtain ⟨_, _, hslots, hstmts⟩ := run_bind_eq_ok.1 hbody
  rw [run_paramSlots] at hslots
  cases hslots
  refine ⟨s₁, hstmts, ?_⟩
  obtain ⟨_, _, ⟨⟩, h⟩ := run_bind_eq_ok.1 h
  cases hterm : s₁.terminated with
  | true =>
    simp only [hterm, not_true_eq_false, if_false] at h
    cases h
    simp
  | false =>
    simp only [hterm, Bool.false_eq_true, not_false_eq_true, if_true] at h
    cases h
    exact ⟨rfl, rfl⟩

/-- The frame in which the statements of a method start. -/
theorem exists_represents {E : Evaluator W P}
    (hparams : A.function.params = E.context.params.map ValueType.ofName) (world : W)
    (members : MemberId → Cell P) :
    ∃ fr, A.execAll { world, object := E.layout.map members }
        (slotCode 0 A.function.params) = .ok fr ∧
      Represents E A
        { world, members,
          locals := fun i => (A.args i).load
            ((E.context.params.map ValueType.ofName)[i]?.getD .ptr) } fr := by
  have htypes : ∀ type ∈ A.function.params, ∀ cell : Cell P, (cell.load type).hasType type := by
    intro type htype cell
    obtain ⟨name, _, rfl⟩ := List.mem_map.1 (hparams ▸ htype)
    exact Runs.hasType_load cell name
  obtain ⟨slots, hexec, -, hslots⟩ := execAll_slotCode htypes 0 (List.drop_zero ..)
    { world, object := E.layout.map members }
  refine ⟨_, hexec, rfl, rfl, rfl, fun i type hi => ?_⟩
  have hlocal : (E.context.params.map ValueType.ofName)[i]?.getD .ptr = type := by
    rw [← hparams, hi]
    rfl
  simp only [hlocal]
  exact ⟨hslots i (Nat.zero_le i) type hi, htypes type (List.mem_of_getElem? hi) _⟩

/-- A function with the code of typed statements does what they mean. -/
theorem Runs.ends {c : LowerScope} {E : Evaluator W P} (hr : Runs c E A) {body : List BoundStmt}
    (hbody : ∀ b ∈ body, E.context.TypedStmt b) {s s' : LowerState}
    (hrun : StateT.run (c.stmts body) { s.fresh with body := slotCode 0 c.params } = .ok ((), s'))
    (hstrings : s'.strings <+: A.strings)
    (hfunction : A.function.body = s'.body ++ if s'.terminated then [] else [Instr.ret]) (world : W)
    (members : MemberId → Cell P) :
    A.Ends world (E.layout.map members) (E.method body world members A.args) := by
  obtain ⟨fr, hexec, hrep⟩ := exists_represents (hr.function.trans hr.params) world members
  obtain ⟨xs, hxs, hperforms⟩ := hr.performs_stmts hbody _ _ hrun rfl
  rw [hxs.body, List.append_assoc] at hfunction
  rw [hr.function] at hexec
  have hnodup : (labelsOf A.function.body).Nodup := by
    rw [hfunction, labelsOf_append, labelsOf_append,
      labelsOf_of_straight (straight_slotCode 0 c.params)]
    have hret : labelsOf (if s'.terminated then [] else [Instr.ret]) = [] := by
      split <;> rfl
    simpa [hret] using hxs.nodup
  have hstart : A.Reaches A.function.body { world, object := E.layout.map members }
      (xs ++ if s'.terminated then [] else [Instr.ret]) fr := by
    rw [hfunction]
    exact Activation.reaches_of_execAll (straight_slotCode 0 c.params) hexec
  obtain ⟨hleads, hnext⟩ := hperforms hstrings _ ⟨_, hfunction.symm⟩ hnodup _ fr hrep
  have hhalts : A.Halts A.function.body { world, object := E.layout.map members }
      (E.method body world members A.args) := by
    refine hstart.halts ?_
    rw [Evaluator.method]
    rcases hev : StateT.run (E.stmts body) _ with st | ⟨flow, st⟩ <;> rw [hev] at hleads hnext
    · exact hleads
    · cases flow with
      | returned => exact hleads
      | next =>
        -- The statements end in an open block, which the final `return` closes.
        obtain ⟨fr', hrep', hreaches⟩ := hleads
        have hopen : s'.terminated = false := by
          by_contra hterm
          exact hnext (by simpa using hterm) st rfl
        simp only [hopen, Bool.false_eq_true, if_false] at hreaches ⊢
        have hret : A.Halts [Instr.ret] fr' (fr'.outcome true) := Activation.halts_of_step rfl
        rw [hrep'.outcome_eq] at hret
        exact hreaches.halts hret
  obtain ⟨n, hn⟩ := hhalts
  refine ⟨n, fun k hk => ?_⟩
  obtain ⟨j, rfl⟩ := Nat.exists_eq_add_of_le hk
  exact Activation.run_add hn j

/-- The function of a typed method implements it. -/
theorem implements_methodFunction {m : Model} {t : BoundType} {type : TypeSymbol}
    {f : MethodSymbol} {body : List BoundStmt} {s s' : LowerState} {fn : Function} {M : Module}
    (hbody : ∀ b ∈ body, TypingContext.TypedStmt
      { table := m.table, current := t.id, params := f.paramTypes } b)
    (hrun : StateT.run
      (LowerScope.methodFunction { model := m, current := t.id } type f body) s = .ok (fn, s'))
    (hstrings : s'.strings <+: M.strings) :
    M.Implements fn (layoutOf m t)
      { table := m.table, current := t.id, params := f.paramTypes } body := by
  intro W P host world members args
  obtain ⟨s₁, hstmts, hs₁, rfl⟩ := run_methodFunction hrun
  rw [← hs₁] at hstrings
  refine Runs.ends (E := { context := _, host })
    (A := { host, strings := M.strings, layout := layoutOf m t, function := _, args })
    ?_ hbody hstmts hstrings rfl world members
  exact ⟨rfl, rfl, rfl, rfl, rfl, rfl, rfl⟩

/-! ## Modules -/

variable {m : Model}

/-- The functions that were lowered from a list hold what was lowered from its elements. -/
theorem run_functions {ts : List BoundType}
    (hts : ∀ t ∈ ts, ∃ symbol, m.table.get? t.id = some symbol ∧ t.Resolved m.table symbol)
    {s s' : LowerState} {fs : List Function}
    (h : StateT.run (functions m ts) s = .ok (fs, s')) {t : BoundType} (ht : t ∈ ts) :
    ∃ s₁ gs s₂, StateT.run (typeFunctions m t) s₁ = .ok (gs, s₂) ∧ gs ⊆ fs ∧
      s₂.strings <+: s'.strings := by
  induction ts generalizing s fs with
  | nil => cases ht
  | cons u ts ih =>
    obtain ⟨-, htail⟩ := List.forall_mem_cons.1 hts
    obtain ⟨gs, s₁, hu, h⟩ := run_bind_eq_ok.1 h
    obtain ⟨others, s₂, hothers, h⟩ := run_bind_eq_ok.1 h
    cases h
    rcases List.mem_cons.1 ht with rfl | ht
    · exact ⟨s, gs, s₁, hu, List.subset_append_left .., (total_functions htail).keeps_strings hothers⟩
    · obtain ⟨s₃, hs, s₄, hrun, hsub, hstrings⟩ := ih htail hothers ht
      exact ⟨s₃, hs, s₄, hrun, List.Subset.trans hsub (List.subset_append_right ..), hstrings⟩

theorem run_typeFunctions {t : BoundType} {type : TypeSymbol}
    (htype : m.table.get? t.id = some type) (ht : t.Resolved m.table type) {s s' : LowerState}
    {fs : List Function} (h : StateT.run (typeFunctions m t) s = .ok (fs, s')) :
    ∃ s₁ gs s₂, StateT.run (LowerScope.methodFunctions { model := m, current := t.id } type
        type.methods t.methods) s₁ = .ok (gs, s₂) ∧ gs ⊆ fs ∧ s₂.strings <+: s'.strings := by
  rw [typeFunctions, htype] at h
  obtain ⟨_, _, ⟨⟩, h⟩ := run_bind_eq_ok.1 h
  obtain ⟨init, s₁, hinit, h⟩ := run_bind_eq_ok.1 h
  obtain ⟨gs, s₂, hgs, h⟩ := run_bind_eq_ok.1 h
  refine ⟨s₁, gs, s₂, hgs, ?_⟩
  have hfits : LowerScope.Fits { model := m, current := t.id }
      { table := m.table, current := t.id } := ⟨rfl, rfl, rfl⟩
  split at h
  · next ops hrender =>
    split at h
    · obtain ⟨render, s₃, hfunctions, h⟩ := run_bind_eq_ok.1 h
      cases h
      refine ⟨fun f hf => by simp [hf], ?_⟩
      exact (LowerScope.total_renderFunctions hfits (ht.render ops hrender)).keeps_strings
        hfunctions
    · cases h
      exact ⟨fun f hf => by simp [hf], List.prefix_rfl⟩
  · cases h
    exact ⟨fun f hf => by simp [hf], List.prefix_rfl⟩

theorem run_methodFunctions {c : LowerScope} {Γ : TypingContext} (hc : c.Fits Γ)
    {type : TypeSymbol} {bs : List BoundMethod} {ms : List MethodSymbol}
    (hbs : List.Forall₂ (fun (b : BoundMethod) (f : MethodSymbol) =>
      ∀ s ∈ b.body, { Γ with params := f.paramTypes }.ResolvedStmt s) bs ms)
    {s s' : LowerState} {fs : List Function}
    (h : StateT.run (c.methodFunctions type ms bs) s = .ok (fs, s')) :
    List.Forall₂ (fun (b : BoundMethod) (f : MethodSymbol) =>
      ∃ fn ∈ fs, ∃ s₁ s₂, StateT.run (c.methodFunction type f b.body) s₁ = .ok (fn, s₂) ∧
        s₂.strings <+: s'.strings) bs ms := by
  induction hbs generalizing s fs with
  | nil => exact .nil
  | cons _ hbs ih =>
    obtain ⟨fn, s₁, hfn, h⟩ := run_bind_eq_ok.1 h
    obtain ⟨others, s₂, hothers, h⟩ := run_bind_eq_ok.1 h
    cases h
    refine .cons ⟨fn, List.mem_cons_self, s, s₁, hfn, ?_⟩ ((ih hothers).imp ?_)
    · exact (LowerScope.total_methodFunctions hc type hbs).keeps_strings hothers
    · rintro _ _ ⟨gn, hgn, rest⟩
      exact ⟨gn, List.mem_cons_of_mem _ hgn, rest⟩

/-- What a module consists of. -/
theorem lower_eq_ok {name : Bytes} {M : Module} (hm : m.Resolved) (h : lower m name = .ok M) :
    M.layouts = m.types.map (layoutOf m) ∧
      ∃ s s', StateT.run (functions m m.types) s = .ok (M.functions, s') ∧
        s'.strings <+: M.strings := by
  unfold lower at h
  dsimp only at h
  rcases hrun : StateT.run (do
      let fs ← functions m m.types
      let ds ← descriptors m m.types
      let manifest ← string name
      pure (fs, ds, manifest))
    { declarations := Runtime.all.foldl (fun ds f => Declaration.insert (.runtime f) ds) [] }
    with e | ⟨⟨fs, ds, manifest⟩, s⟩
  · rw [hrun] at h
    cases h
  · rw [hrun] at h
    cases h
    obtain ⟨_, s₁, hfs, hrun⟩ := run_bind_eq_ok.1 hrun
    obtain ⟨_, s₂, hds, hrun⟩ := run_bind_eq_ok.1 hrun
    obtain ⟨_, s₃, hmanifest, hrun⟩ := run_bind_eq_ok.1 hrun
    cases hrun
    have htypes : ∀ t ∈ m.types, (m.table.get? t.id).isSome := fun t ht => by
      obtain ⟨_, hsymbol, _⟩ := hm t ht
      simp [hsymbol]
    refine ⟨rfl, _, s₁, hfs, ?_⟩
    exact ((total_descriptors htypes).keeps_strings hds).trans
      ((total_string name).keeps_strings hmanifest)

end Code

/-- Over closed references, the module of a model without errors implements every method of every declared
type. -/
theorem Model.implements_of_lower {refs : List Reference} {trees : List SyntaxTree}
    (hrefs : Reference.Closed refs) (h : (Model.analyze refs trees).hasErrors = false)
    {name : Bytes} {M : Code.Module} (hM : Code.lower (Model.analyze refs trees) name = .ok M) :
    ∀ t ∈ (Model.analyze refs trees).types, M.ImplementsMethods (Model.analyze refs trees) t := by
  generalize hm : Model.analyze refs trees = m at h hM ⊢
  have htyped : m.Typed := hm ▸ Model.typed_analyze hrefs (hm ▸ h)
  obtain ⟨hlayouts, s, s', hfunctions, hstrings⟩ := Code.lower_eq_ok htyped.resolved hM
  intro t ht
  obtain ⟨type, htype, hbodies⟩ := htyped t ht
  refine ⟨type, htype, ?_⟩
  obtain ⟨_, fs, s₁, hfs, hsub, hstrings₁⟩ := Code.run_functions htyped.resolved hfunctions ht
  obtain ⟨_, gs, s₂, hgs, hsub', hstrings₂⟩ :=
    Code.run_typeFunctions htype hbodies.resolved hfs
  have hmethods := Code.run_methodFunctions (Γ := { table := m.table, current := t.id })
    ⟨rfl, rfl, rfl⟩ hbodies.resolved.methods hgs
  refine (List.Forall₂.mp ?_ hbodies.methods hmethods)
  rintro b f hbody ⟨fn, hfn, s₃, s₄, hrun, hstrings₃⟩
  have himplements := Code.implements_methodFunction (M := M) hbody hrun
    (hstrings₃.trans (hstrings₂.trans (hstrings₁.trans hstrings)))
  obtain ⟨_, _, _, rfl⟩ := Code.run_methodFunction hrun
  refine ⟨_, hsub (hsub' hfn), rfl, rfl, Code.layoutOf m t, ?_, ?_, himplements⟩
  · rw [hlayouts]
    exact List.mem_map_of_mem ht
  · simp [Code.layoutOf, SymbolTable.nameOf, htype]

end ViewCompiler
