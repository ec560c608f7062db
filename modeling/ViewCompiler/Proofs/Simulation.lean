import Mathlib.Data.List.Nodup
import ViewCompiler.Code.Lower
import ViewCompiler.Proofs.Evaluation

/-!
Lowering steps that simulate evaluations. A straight piece of code simulates an evaluation when it
makes the same calls and leaves the same members and parameters behind, or gets stuck in the same
state (`Simulates`). Preconditions and postconditions speak of the operands that were evaluated
before; they survive all later code because a temporary is written once (`Stable`).

The rules below are those of a program logic: `Simulates.bind` runs one step after another,
`Simulates.frame` keeps what does not depend on the step.
-/

namespace ViewCompiler

namespace Code

open Lower

/-! ## What lowering emits -/

section
variable {α β : Type}

theorem Lower.run_bind_eq_ok {x : Lower α} {f : α → Lower β} {s s'' : LowerState} {b : β} :
    StateT.run (x >>= f) s = .ok (b, s'') ↔
      ∃ a s', StateT.run x s = .ok (a, s') ∧ StateT.run (f a) s' = .ok (b, s'') := by
  rw [StateT.run_bind]
  cases h : StateT.run x s with
  | error e => simp [bind, Except.bind]
  | ok r =>
    obtain ⟨a, s'⟩ := r
    constructor
    · exact fun hf => ⟨a, s', rfl, hf⟩
    · rintro ⟨_, _, ⟨⟩, hf⟩
      exact hf

end

def labelsOf (code : List Instr) : List Label :=
  code.filterMap fun
    | .label l => some l
    | _ => none

theorem labelsOf_append (xs ys : List Instr) : labelsOf (xs ++ ys) = labelsOf xs ++ labelsOf ys :=
  List.filterMap_append

/-- Lowering went from `s` to `s'` and emitted `code`. Labels are numbered on. -/
structure Emits (s s' : LowerState) (code : List Instr) : Prop where
  body : s'.body = s.body ++ code
  temps : s.temps ≤ s'.temps
  strings : s.strings <+: s'.strings
  labels : s.labels ≤ s'.labels
  nodup : (labelsOf code).Nodup
  fresh : ∀ l ∈ labelsOf code, s.labels ≤ l.index ∧ l.index < s'.labels

namespace Emits

variable {s s' s'' : LowerState} {xs ys : List Instr}

theorem refl (s : LowerState) : Emits s s [] where
  body := by simp
  temps := Nat.le_refl _
  strings := List.prefix_rfl
  labels := Nat.le_refl _
  nodup := List.nodup_nil
  fresh := by simp [labelsOf]

theorem trans (h : Emits s s' xs) (h' : Emits s' s'' ys) : Emits s s'' (xs ++ ys) where
  body := by rw [h'.body, h.body, List.append_assoc]
  temps := Nat.le_trans h.temps h'.temps
  strings := h.strings.trans h'.strings
  labels := Nat.le_trans h.labels h'.labels
  nodup := by
    rw [labelsOf_append]
    refine h.nodup.append h'.nodup fun l hl hl' => ?_
    have := h.fresh l hl
    have := h'.fresh l hl'
    omega
  fresh := by
    intro l hl
    have := h.labels
    have := h'.labels
    rcases List.mem_append.1 (labelsOf_append xs ys ▸ hl) with hl | hl
    · have := h.fresh l hl
      omega
    · have := h'.fresh l hl
      omega

theorem eq_code (h : Emits s s' xs) (h' : Emits s s' ys) : xs = ys :=
  List.append_cancel_left (h.body.symm.trans h'.body)

end Emits

/-- The instruction goes on to the next one. -/
def Instr.isStraight : Instr → Bool
  | .branch _ _ _ | .jump _ | .label _ | .ret => false
  | _ => true

/-- Lowering emitted a piece of straight code. -/
structure EmitsStraight (s s' : LowerState) (code : List Instr) : Prop
    extends Emits s s' code where
  terminated : s'.terminated = s.terminated
  straight : ∀ i ∈ code, i.isStraight

theorem labelsOf_of_straight {code : List Instr} (h : ∀ i ∈ code, i.isStraight) :
    labelsOf code = [] := by
  rw [labelsOf, List.filterMap_eq_nil_iff]
  intro i hi
  have hstraight := h i hi
  cases i with
  | label l => cases hstraight
  | _ => rfl

namespace EmitsStraight

variable {s s' s'' : LowerState} {xs ys : List Instr}

/-- Straight code has no labels to keep apart. -/
theorem mk' (body : s'.body = s.body ++ xs) (temps : s.temps ≤ s'.temps)
    (strings : s.strings <+: s'.strings) (labels : s'.labels = s.labels)
    (terminated : s'.terminated = s.terminated) (straight : ∀ i ∈ xs, i.isStraight) :
    EmitsStraight s s' xs where
  body := body
  temps := temps
  strings := strings
  labels := Nat.le_of_eq labels.symm
  nodup := by rw [labelsOf_of_straight straight]; exact List.nodup_nil
  fresh := by simp [labelsOf_of_straight straight]
  terminated := terminated
  straight := straight

theorem refl (s : LowerState) : EmitsStraight s s [] :=
  ⟨Emits.refl s, rfl, by simp⟩

theorem trans (h : EmitsStraight s s' xs) (h' : EmitsStraight s' s'' ys) :
    EmitsStraight s s'' (xs ++ ys) where
  toEmits := h.toEmits.trans h'.toEmits
  terminated := h'.terminated.trans h.terminated
  straight := by
    intro i hi
    rcases List.mem_append.1 hi with hi | hi
    · exact h.straight i hi
    · exact h'.straight i hi

end EmitsStraight

/-! ## Straight code -/

variable {W P : Type}

/-- Executes instructions in order, up to the end or to one that is stuck. -/
def Activation.execAll (A : Activation W P) (fr : Frame W P) :
    List Instr → Except (Frame W P) (Frame W P)
  | [] => .ok fr
  | i :: is => match A.exec fr i with
    | some fr => A.execAll fr is
    | none => .error fr

theorem Activation.execAll_append (A : Activation W P) (fr : Frame W P) (xs ys : List Instr) :
    A.execAll fr (xs ++ ys) = A.execAll fr xs >>= fun fr => A.execAll fr ys := by
  induction xs generalizing fr with
  | nil => rfl
  | cons i is ih =>
    simp only [List.cons_append, execAll]
    cases A.exec fr i with
    | none => rfl
    | some fr => exact ih fr

/-- The temporaries below `n` are the same. -/
def Frame.Keeps (n : Nat) (fr fr' : Frame W P) : Prop := ∀ i < n, fr'.temps i = fr.temps i

theorem Frame.Keeps.trans {n n' : Nat} {fr fr' fr'' : Frame W P} (h : fr.Keeps n fr')
    (h' : fr'.Keeps n' fr'') (hn : n ≤ n') : fr.Keeps n fr'' :=
  fun i hi => (h' i (by omega)).trans (h i hi)

/-- What is said of a number of temporaries and stays true when others are written. -/
def Stable (p : Nat → Frame W P → Prop) : Prop :=
  ∀ ⦃n n' fr fr'⦄, p n fr → n ≤ n' → fr.Keeps n fr' → p n' fr'

theorem Stable.and {p q : Nat → Frame W P → Prop} (hp : Stable p) (hq : Stable q) :
    Stable fun n fr => p n fr ∧ q n fr :=
  fun _ _ _ _ h hn hk => ⟨hp h.1 hn hk, hq h.2 hn hk⟩

/-- The operand is in use and has this value. -/
def Activation.Denotes (A : Activation W P) (type : ValueType) (o : Operand) (v : Val P) (n : Nat)
    (fr : Frame W P) : Prop :=
  A.operand fr type o = some v ∧ ∀ i, o = .temp i → i < n

theorem Activation.stable_denotes (A : Activation W P) (type : ValueType) (o : Operand)
    (v : Val P) : Stable (A.Denotes type o v) := by
  rintro n n' fr fr' ⟨hv, hlt⟩ hn hkeeps
  refine ⟨?_, fun i hi => by have := hlt i hi; omega⟩
  have hvalue : A.value fr' o = A.value fr o := by
    cases o with
    | temp i => simp only [value, hkeeps i (hlt i rfl)]
    | _ => rfl
  rwa [operand, hvalue]

theorem Activation.Denotes.hasType {A : Activation W P} {type : ValueType} {o : Operand}
    {v : Val P} {n : Nat} {fr : Frame W P} (h : A.Denotes type o v n fr) : v.hasType type := by
  have := h.1
  simp only [operand, Option.filter_eq_some_iff] at this
  exact this.2

/-- A lowered value is in use, and this is its value at its own type. -/
def Activation.HasValue (A : Activation W P) (type : ValueType) (x : Value) (v : Val P) (n : Nat)
    (fr : Frame W P) : Prop :=
  x.type = type ∧ A.Denotes type x.operand v n fr

theorem Activation.stable_hasValue (A : Activation W P) (type : ValueType) (x : Value)
    (v : Val P) : Stable (A.HasValue type x v) :=
  fun _ _ _ _ h hn hkeeps => ⟨h.1, A.stable_denotes type x.operand v h.2 hn hkeeps⟩

/-- A frame that represents a store: members stand in the order of the layout, and each parameter
in its slot. -/
structure Represents (E : Evaluator W P) (A : Activation W P) (st : Store W P) (fr : Frame W P) :
    Prop where
  world : fr.world = st.world
  object : fr.object = E.layout.map st.members
  trace : fr.trace = st.trace
  slots : ∀ i type, A.function.params[i]? = some type →
    fr.slots i = some { type, value := some (st.locals i) } ∧ (st.locals i).hasType type

theorem Represents.setTemp {E : Evaluator W P} {A : Activation W P} {st : Store W P}
    {fr : Frame W P} (h : Represents E A st fr) (i : Nat) (t : Temp P) :
    Represents E A st (fr.setTemp i t) :=
  ⟨h.world, h.object, h.trace, h.slots⟩

theorem Represents.outcome_eq {E : Evaluator W P} {A : Activation W P} {st : Store W P}
    {fr : Frame W P} (h : Represents E A st fr) (finished : Bool) :
    fr.outcome finished = E.outcome st finished := by
  rw [Frame.outcome, Evaluator.outcome, h.world, h.object, h.trace]

/-! ## The logic -/

/-- Straight code went from `fr` where an evaluation ended: both gave a result, or both are
stuck. -/
def Follows (E : Evaluator W P) (A : Activation W P) {β : Type} (n : Nat) (fr : Frame W P)
    (post : β → Frame W P → Prop) :
    Except (Store W P) (β × Store W P) → Except (Frame W P) (Frame W P) → Prop
  | .ok (b, st), .ok fr' => Represents E A st fr' ∧ fr.Keeps n fr' ∧ post b fr'
  | .error st, .error fr' => Represents E A st fr'
  | _, _ => False

/-- The code that the step emits does what the evaluation does. -/
def Simulates (E : Evaluator W P) (A : Activation W P) {α β : Type}
    (pre : Nat → Frame W P → Prop) (x : Lower α) (ev : Eval W P β)
    (post : α → β → Nat → Frame W P → Prop) : Prop :=
  ∀ s a s', StateT.run x s = .ok (a, s') → ∃ code, EmitsStraight s s' code ∧
    (s'.strings <+: A.strings → ∀ st fr, Represents E A st fr → pre s.temps fr →
      Follows E A s.temps fr (fun b fr' => post a b s'.temps fr') (ev.run st) (A.execAll fr code))

namespace Simulates

variable {E : Evaluator W P} {A : Activation W P} {α β γ δ : Type}
  {pre pre' : Nat → Frame W P → Prop} {x : Lower α} {ev : Eval W P β}
  {post post' : α → β → Nat → Frame W P → Prop}

theorem pure {a : α} {b : β} (h : ∀ n fr, pre n fr → post a b n fr) :
    Simulates E A pre (pure a) (pure b) post := by
  rintro s _ _ ⟨⟩
  refine ⟨[], EmitsStraight.refl s, fun _ st fr hrep hpre => ?_⟩
  exact ⟨hrep, fun _ _ => rfl, h _ _ hpre⟩

/-- One step after another. Only the first evaluation can choose how the second goes on. -/
theorem bind [Inhabited β] {f : α → Lower γ} {g : β → Eval W P δ}
    {last : γ → δ → Nat → Frame W P → Prop} (hx : Simulates E A pre x ev post)
    (hf : ∀ a b, Simulates E A (post a b) (f a) (g b) last) :
    Simulates E A pre (x >>= f) (ev >>= g) last := by
  intro s c s'' hrun
  obtain ⟨a, s', hxrun, hfrun⟩ := run_bind_eq_ok.1 hrun
  obtain ⟨xs, hxs, hsim⟩ := hx s a s' hxrun
  obtain ⟨ys, hys, -⟩ := hf a default s' c s'' hfrun
  refine ⟨xs ++ ys, hxs.trans hys, fun hstrings st fr hrep hpre => ?_⟩
  have hfirst := hsim (hys.strings.trans hstrings) st fr hrep hpre
  rw [StateT.run_bind, A.execAll_append]
  cases hev : StateT.run ev st with
  | error st' =>
    cases hexec : A.execAll fr xs with
    | error fr' => rwa [hev, hexec] at hfirst
    | ok fr' => simp [hev, hexec, Follows] at hfirst
  | ok r =>
    obtain ⟨b, st'⟩ := r
    cases hexec : A.execAll fr xs with
    | error fr' => simp [hev, hexec, Follows] at hfirst
    | ok fr' =>
      rw [hev, hexec] at hfirst
      obtain ⟨hrep', hkeeps, hpost⟩ := hfirst
      obtain ⟨ys', hys', hsim'⟩ := hf a b s' c s'' hfrun
      obtain rfl := hys.eq_code hys'.toEmits
      have hsecond := hsim' hstrings st' fr' hrep' hpost
      -- The second piece keeps more temporaries than the first has to.
      change Follows E A s.temps fr _ (StateT.run (g b) st') (A.execAll fr' ys)
      revert hsecond
      rcases StateT.run (g b) st' with _ | ⟨d, st''⟩ <;> rcases A.execAll fr' ys with _ | fr''
      · exact id
      · exact id
      · exact id
      · rintro ⟨hrep'', hkeeps', hlast⟩
        exact ⟨hrep'', hkeeps.trans hkeeps' hxs.temps, hlast⟩

/-- A step that has no counterpart in the evaluation. -/
theorem silent {mid : α → Nat → Frame W P → Prop} {f : α → Lower γ} {ev : Eval W P δ}
    {last : γ → δ → Nat → Frame W P → Prop}
    (hx : Simulates E A pre x (Pure.pure ()) fun a _ => mid a)
    (hf : ∀ a, Simulates E A (mid a) (f a) ev last) : Simulates E A pre (x >>= f) ev last :=
  bind (g := fun _ => ev) hx fun a _ => hf a

theorem consequence (h : Simulates E A pre x ev post) (hpre : ∀ n fr, pre' n fr → pre n fr)
    (hpost : ∀ a b n fr, post a b n fr → post' a b n fr) : Simulates E A pre' x ev post' := by
  intro s a s' hrun
  obtain ⟨code, hcode, hsim⟩ := h s a s' hrun
  refine ⟨code, hcode, fun hstrings st fr hrep hp => ?_⟩
  have := hsim hstrings st fr hrep (hpre _ _ hp)
  revert this
  rcases StateT.run ev st with _ | ⟨b, st'⟩ <;> rcases A.execAll fr code with _ | fr'
  · exact id
  · exact id
  · exact id
  · exact fun h => ⟨h.1, h.2.1, hpost _ _ _ _ h.2.2⟩

/-- What does not depend on the step holds after it. -/
theorem frame {p : Nat → Frame W P → Prop} (hp : Stable p) (h : Simulates E A pre x ev post) :
    Simulates E A (fun n fr => pre n fr ∧ p n fr) x ev
      fun a b n fr => post a b n fr ∧ p n fr := by
  intro s a s' hrun
  obtain ⟨code, hcode, hsim⟩ := h s a s' hrun
  refine ⟨code, hcode, fun hstrings st fr hrep hpre => ?_⟩
  have := hsim hstrings st fr hrep hpre.1
  revert this
  rcases StateT.run ev st with _ | ⟨b, st'⟩ <;> rcases A.execAll fr code with _ | fr'
  · exact id
  · exact id
  · exact id
  · rintro ⟨hrep', hkeeps, hpost⟩
    exact ⟨hrep', hkeeps, hpost, hp hpre.2 hcode.temps hkeeps⟩

/-- The evaluation may be written differently where the precondition allows it. -/
theorem congr (ev' : Eval W P β) (h : Simulates E A pre x ev' post)
    (hev : ∀ n fr, pre n fr → ev = ev') :
    Simulates E A pre x ev post := by
  intro s a s' hrun
  obtain ⟨code, hcode, hsim⟩ := h s a s' hrun
  refine ⟨code, hcode, fun hstrings st fr hrep hpre => ?_⟩
  rw [hev _ _ hpre]
  exact hsim hstrings st fr hrep hpre

/-- Emitting one instruction that is executed like the evaluation. -/
theorem emit {i : Instr} {ev : Eval W P β} {post : β → Nat → Frame W P → Prop}
    (hi : i.isStraight)
    (h : ∀ n st fr, Represents E A st fr → pre n fr →
      Follows E A n fr (fun b => post b n) (ev.run st)
        (match A.exec fr i with
          | some fr' => .ok fr'
          | none => .error fr)) :
    Simulates E A pre (Lower.emit i) ev fun _ => post := by
  rintro s _ _ ⟨⟩
  refine ⟨[i], .mk' rfl (Nat.le_refl _) List.prefix_rfl rfl rfl (by simpa using hi),
    fun _ st fr hrep hpre => ?_⟩
  have := h s.temps st fr hrep hpre
  simp only [Activation.execAll]
  split at this <;> exact this

/-- Emitting an instruction that puts the value of the evaluation into a fresh temporary. -/
theorem dest (mk : Nat → Instr) {type : ValueType} {ev : Eval W P (Val P)}
    (hmk : ∀ d, (mk d).isStraight)
    (h : ∀ d st fr, Represents E A st fr → pre d fr →
      match ev.run st with
      | .ok (v, st') => v.hasType type ∧ ∃ fr', Represents E A st' fr' ∧ fr'.temps = fr.temps ∧
          A.exec fr (mk d) = some (fr'.setTemp d (.value v))
      | .error st' => Represents E A st' fr ∧ A.exec fr (mk d) = none) :
    Simulates E A pre
      (do let d ← freshTemp; Lower.emit (mk d); Pure.pure (⟨.temp d, type⟩ : Value)) ev
      (A.HasValue type) := by
  rintro s _ _ ⟨⟩
  refine ⟨[mk s.temps], ?_, fun _ st fr hrep hpre => ?_⟩
  · exact .mk' rfl (Nat.le_succ _) List.prefix_rfl rfl rfl (by simp [hmk])
  · have := h s.temps st fr hrep hpre
    rw [Activation.execAll]
    rcases hev : StateT.run ev st with st' | ⟨v, st'⟩ <;> rw [hev] at this
    · rw [this.2]
      exact this.1
    · obtain ⟨htype, fr', hrep', htemps, hexec⟩ := this
      rw [hexec]
      refine ⟨hrep'.setTemp .., fun i hi => ?_, rfl, ?_, ?_⟩
      · simp [Frame.setTemp, Nat.ne_of_lt hi, htemps]
      · simp [Activation.operand, Activation.value, Frame.setTemp, htype]
      · rintro _ ⟨⟩
        exact Nat.lt_succ_self _

/-- Taking a string constant. -/
theorem string (text : Bytes) :
    Simulates E A pre (Lower.string text) (Pure.pure (.ptr (E.host.text text)))
      fun o v n fr => A.host = E.host → A.Denotes .ptr o v n fr := by
  rintro s o s' hrun
  replace hrun := Except.ok.inj hrun
  dsimp only at hrun
  -- In both cases the state has the text at the position of the operand.
  suffices H : EmitsStraight s s' [] ∧
      ∃ i, s'.strings[i]? = some text ∧ o = .str i (text.length + 1) by
    obtain ⟨hemits, i, hi, rfl⟩ := H
    refine ⟨[], hemits, fun hstrings st fr hrep _ => ⟨hrep, fun _ _ => rfl, fun hhost => ?_⟩⟩
    have hi' : A.strings[i]? = some text := by
      obtain ⟨more, hmore⟩ := hstrings
      rw [← hmore, List.getElem?_append_left (List.getElem?_eq_some_iff.1 hi).1, hi]
    refine ⟨?_, by simp⟩
    simp [Activation.operand, Activation.value, hi', hhost, Val.hasType]
  split at hrun
  · next i hi =>
    obtain ⟨rfl, rfl⟩ := Prod.mk.inj hrun
    obtain ⟨hlt, htext, _⟩ := List.findIdx?_eq_some_iff_getElem.1 hi
    refine ⟨EmitsStraight.refl s, i, ?_, rfl⟩
    rw [List.getElem?_eq_getElem hlt]
    simpa using htext
  · obtain ⟨rfl, rfl⟩ := Prod.mk.inj hrun
    refine ⟨.mk' (by simp) (Nat.le_refl _) (List.prefix_append ..) rfl rfl (by simp),
      s.strings.length, by simp, rfl⟩

end Simulates

end Code

end ViewCompiler
