import ViewCompiler.Proofs.ExprSimulation

/-!
The code of typed statements does what they mean (`Runs.performs_stmts`). Assignments and calls are
straight code. A conditional is three blocks; each is entered by a jump to its label, and labels
are never used twice, so a jump finds the block it was emitted for.
-/

namespace ViewCompiler

open Code Lower

/-- A value is represented like those of the place where it goes. -/
theorem TypingContext.Accepts.exists_hasType {Γ : TypingContext} {τ : Ty} {e : BoundExpr}
    (h : Γ.Accepts τ e) : ∃ σ, Γ.HasType e σ ∧ σ.valueType = τ.valueType := by
  cases h with
  | same h _ => exact ⟨τ, h, rfl⟩
  | derived hτ h _ =>
    subst hτ
    exact ⟨_, h, rfl⟩
  | method hτ howner hf _ =>
    subst hτ
    exact ⟨.methodGroup, .name (.method howner hf), rfl⟩

namespace Code

variable {W P : Type}

namespace Runs

variable {c : LowerScope} {E : Evaluator W P} {A : Activation W P}

/-! ## Assignments and calls -/

theorem simulates_accepted (hr : Runs c E A) {τ : Ty} {e : BoundExpr}
    (h : E.context.Accepts τ e) :
    Simulates E A (fun _ _ => True) (c.expr e) (E.expr e) (A.HasValue τ.valueType) := by
  obtain ⟨σ, he, hσ⟩ := h.exists_hasType
  rw [← hσ]
  exact hr.simulates_expr he

theorem simulates_write_param {i : Nat} {type : ValueType} (hi : A.function.params[i]? = some type)
    (x : Value) (v : Val P) :
    Simulates E A (A.HasValue type x v) (c.write x (.param i)) (Evaluator.write v (.param i))
      fun _ _ _ _ => True := by
  refine Simulates.emit rfl fun n st fr hrep hpre => ?_
  obtain ⟨rfl, hv⟩ := hpre
  have hslot := (hrep.slots i _ hi).1
  have hexec : A.exec fr (.store x.type x.operand (.slot i)) =
      some (fr.setSlot i { type := x.type, value := some v }) := by
    simp [Activation.exec, hv.1, Activation.store, hslot]
  rw [hexec]
  refine ⟨⟨hrep.world, hrep.object, hrep.trace, fun j type' hj => ?_⟩, fun _ _ => rfl, trivial⟩
  by_cases hji : j = i
  · subst hji
    obtain rfl : x.type = type' := by simpa [hi] using hj
    simpa [Frame.setSlot] using hv.hasType
  · simpa [Frame.setSlot, hji] using hrep.slots j type' hj

theorem simulates_write_member (hr : Runs c E A) {id : MemberId} (hid : id ∈ E.layout) (x : Value)
    (v : Val P) :
    Simulates E A (A.HasValue (E.memberType id) x v) (c.write x (.member id))
      (Evaluator.write v (.member id)) fun _ _ _ _ => True := by
  refine (((hr.simulates_fieldAddress hid).frame (A.stable_hasValue _ x v)).consequence
    (fun n fr h => ⟨trivial, h⟩) fun _ _ _ _ h => h).silent fun a => ?_
  refine Simulates.emit rfl fun n st fr hrep hpre => ?_
  obtain ⟨⟨t, rfl, _, hfield⟩, -, hv⟩ := hpre
  have hexec : A.exec fr (.store (c.memberType id) x.operand (.temp t)) =
      some { fr with object := fr.object.modify (E.layout.idxOf id) (·.store v) } := by
    simp [Activation.exec, hr.memberType_eq, hv.1, Activation.store, hfield, hr.slots_idxOf hid]
  rw [hexec]
  refine ⟨⟨hrep.world, ?_, hrep.trace, hrep.slots⟩, fun _ _ => rfl, trivial⟩
  simp only [hrep.object, modify_layout]

theorem simulates_write (hr : Runs c E A) {b : Binding} {τ : Ty} (hb : E.context.Binds b τ)
    (hτ : τ ≠ .methodGroup) (x : Value) (v : Val P) :
    Simulates E A (A.HasValue τ.valueType x v) (c.write x b) (Evaluator.write v b)
      fun _ _ _ _ => True := by
  cases hb with
  | param hi _ =>
    rw [Ty.valueType_ofName]
    refine simulates_write_param ?_ x v
    rw [hr.function, hr.params, List.getElem?_map, hi]
    rfl
  | @member id m hid hm _ =>
    have htype : (Ty.ofName E.context.table m.type).valueType = E.memberType id := by
      simp [Ty.valueType_ofName, Evaluator.memberType, hm]
    rw [htype]
    exact hr.simulates_write_member hid x v
  | method => exact absurd rfl hτ

/-- Arguments are evaluated from left to right, each for the type of its parameter. -/
theorem simulates_arguments (hr : Runs c E A) {ps : List Bytes} {es : List BoundExpr}
    (h : List.Forall₂ (fun p e => E.context.Accepts (.ofName E.context.table p) e) ps es) :
    Simulates E A (fun _ _ => True) (c.arguments (ps.map ValueType.ofName) es) (E.arguments es)
      A.DenotesAll := by
  induction h with
  | nil => exact Simulates.pure fun _ _ _ => .nil
  | @cons p e ps es he _ ih =>
    refine (hr.simulates_accepted he).bind fun x v => ?_
    refine ((ih.frame (A.stable_hasValue _ x v)).consequence (fun n fr h => ⟨trivial, h⟩)
      fun _ _ _ _ h => h).bind fun xs vs => ?_
    refine Simulates.pure fun n fr hpre => .cons ?_ hpre.1
    have hv := hpre.2.2
    rwa [Ty.valueType_ofName] at hv

/-- The rest of a method call, when the receiver is known. -/
theorem simulates_invoke (hr : Runs c E A) {id : MethodId} {f : MethodSymbol}
    {args : List BoundExpr} (hf : E.context.table.method? id = some f)
    (hargs : List.Forall₂ (fun p e => E.context.Accepts (.ofName E.context.table p) e)
      f.paramTypes args) (o : Operand) (object : Val P) :
    Simulates E A (A.Denotes .ptr o object)
      (do
        let method ← bound (c.table.method? id)
        let args ← c.arguments (method.paramTypes.map ValueType.ofName) args
        let symbol ← c.method id
        emit (.call none (.method symbol) (⟨o, .ptr⟩ :: args)))
      (do
        let values ← E.arguments args
        let _ ← E.call (.method (E.symbol id)) (object :: values)
        pure ())
      fun _ _ _ _ => True := by
  have hbound : (bound (some f) : Lower MethodSymbol) = pure f := rfl
  rw [hr.table, hf, hbound, pure_bind]
  refine (((hr.simulates_arguments hargs).frame (A.stable_denotes .ptr o object)).consequence
    (fun n fr h => ⟨trivial, h⟩) fun _ _ _ _ h => h).bind fun xs vs => ?_
  refine (((hr.simulates_method hf).frame ((A.stable_denotesAll xs vs).and
    (A.stable_denotes .ptr o object))).consequence
    (fun n fr h => ⟨trivial, h⟩) fun _ _ _ _ h => h).silent fun symbol => ?_
  refine Simulates.congr
    (do let _ ← E.call (.method symbol) (object :: vs); pure ()) ?_ fun n fr h => ?_
  · exact (hr.simulates_call rfl).consequence (fun n fr h => .cons h.2.2 h.2.1) fun _ _ _ _ h => h
  · rw [h.1]

theorem simulates_stmt_call (hr : Runs c E A) {id : MethodId} {f : MethodSymbol}
    {receiver : Option Binding} {args : List BoundExpr}
    (hf : E.context.table.method? id = some f) (hreceiver : E.context.Receives id receiver)
    (hargs : List.Forall₂ (fun p e => E.context.Accepts (.ofName E.context.table p) e)
      f.paramTypes args) :
    Simulates E A (fun _ _ => True) (c.call args (.method id receiver))
      (E.invoke args (.method id receiver)) fun _ _ _ _ => True := by
  have hrest := hr.simulates_invoke hf hargs
  cases hreceiver with
  | this =>
    refine (hrest .self (.ptr E.host.self)).consequence (fun n fr _ => ⟨?_, by simp⟩)
      fun _ _ _ _ h => h
    simp [Activation.operand, Activation.value, hr.host, Val.hasType]
  | object hb _ =>
    refine (hr.simulates_read hb).bind fun x v => ?_
    exact (hrest x.operand v).consequence (fun n fr h => h.2) fun _ _ _ _ h => h

theorem simulates_stmt_callback (hr : Runs c E A) {b : Binding}
    (hb : E.context.Binds b .callback) :
    Simulates E A (fun _ _ => True) (c.call [] (.callback b)) (E.invoke [] (.callback b))
      fun _ _ _ _ => True := by
  refine (hr.simulates_read hb).bind fun x v => ?_
  exact (hr.simulates_call rfl).consequence (fun n fr h => .cons h.2 .nil)
    fun _ _ _ _ h => h

end Runs

/-! ## Control -/

namespace Activation

variable {A : Activation W P} {code code' code'' xs rest : List Instr} {fr fr' fr'' : Frame W P}
  {outcome : Outcome W P}

/-- The machine gets from one point to another. -/
def Reaches (A : Activation W P) (code : List Instr) (fr : Frame W P) (code' : List Instr)
    (fr' : Frame W P) : Prop :=
  ∃ n, ∀ k, A.run (n + k) code fr = A.run k code' fr'

/-- The machine comes to an end. -/
def Halts (A : Activation W P) (code : List Instr) (fr : Frame W P) (outcome : Outcome W P) :
    Prop :=
  ∃ n, A.run n code fr = some outcome

theorem Reaches.refl (code : List Instr) (fr : Frame W P) : A.Reaches code fr code fr :=
  ⟨0, fun k => by rw [Nat.zero_add]⟩

theorem Reaches.trans (h : A.Reaches code fr code' fr') (h' : A.Reaches code' fr' code'' fr'') :
    A.Reaches code fr code'' fr'' := by
  obtain ⟨n, hn⟩ := h
  obtain ⟨m, hm⟩ := h'
  exact ⟨n + m, fun k => by rw [Nat.add_assoc, hn, hm]⟩

theorem Reaches.halts (h : A.Reaches code fr code' fr') (h' : A.Halts code' fr' outcome) :
    A.Halts code fr outcome := by
  obtain ⟨n, hn⟩ := h
  obtain ⟨m, hm⟩ := h'
  exact ⟨n + m, by rw [hn, hm]⟩

theorem reaches_of_step (h : A.step fr code = .ok (code', fr')) : A.Reaches code fr code' fr' :=
  ⟨1, fun k => by rw [Nat.add_comm, run, h]⟩

theorem halts_of_step (h : A.step fr code = .error outcome) : A.Halts code fr outcome :=
  ⟨1, by rw [run, h]⟩

theorem step_straight {i : Instr} (hi : i.isStraight) :
    A.step fr (i :: rest) = match A.exec fr i with
      | some fr => .ok (rest, fr)
      | none => .error (fr.outcome false) := by
  cases i with
  | branch | jump | label | ret => cases hi
  | _ => rfl

theorem reaches_of_execAll (hxs : ∀ i ∈ xs, i.isStraight) (h : A.execAll fr xs = .ok fr') :
    A.Reaches (xs ++ rest) fr rest fr' := by
  induction xs generalizing fr with
  | nil =>
    obtain rfl : fr = fr' := by simpa [execAll] using h
    exact .refl ..
  | cons i is ih =>
    obtain ⟨hi, his⟩ := List.forall_mem_cons.1 hxs
    rw [execAll] at h
    cases hexec : A.exec fr i with
    | none => simp [hexec] at h
    | some next =>
      rw [hexec] at h
      have hstep : A.step fr (i :: is ++ rest) = .ok (is ++ rest, next) := by
        rw [List.cons_append, step_straight hi, hexec]
      exact (reaches_of_step hstep).trans (ih his h)

theorem halts_of_execAll (hxs : ∀ i ∈ xs, i.isStraight) (h : A.execAll fr xs = .error fr') :
    A.Halts (xs ++ rest) fr (fr'.outcome false) := by
  induction xs generalizing fr with
  | nil => simp [execAll] at h
  | cons i is ih =>
    obtain ⟨hi, his⟩ := List.forall_mem_cons.1 hxs
    rw [execAll] at h
    cases hexec : A.exec fr i with
    | none =>
      obtain rfl : fr = fr' := by simpa [hexec] using h
      refine halts_of_step ?_
      rw [List.cons_append, step_straight hi, hexec]
    | some next =>
      rw [hexec] at h
      have hstep : A.step fr (i :: is ++ rest) = .ok (is ++ rest, next) := by
        rw [List.cons_append, step_straight hi, hexec]
      exact (reaches_of_step hstep).halts (ih his h)

/-- A label that is used once leads to the code behind it. -/
theorem behind_eq {l : Label} {before : List Instr}
    (h : (labelsOf (before ++ .label l :: rest)).Nodup) :
    behind l (before ++ .label l :: rest) = some rest := by
  induction before with
  | nil => simp [behind]
  | cons i is ih =>
    rw [List.cons_append, behind, if_neg]
    · refine ih ?_
      rw [List.cons_append, ← List.singleton_append, labelsOf_append] at h
      exact (List.nodup_append.1 h).2.1
    · rintro rfl
      simp [labelsOf] at h

theorem behind_of_suffix {l : Label} (hsuffix : .label l :: rest <:+ A.function.body)
    (hnodup : (labelsOf A.function.body).Nodup) : behind l A.function.body = some rest := by
  obtain ⟨before, hbefore⟩ := hsuffix
  rw [← hbefore] at hnodup ⊢
  exact behind_eq hnodup

theorem reaches_branch {o : Operand} {yes no : Label} {b : Bool} {n : Nat}
    (hv : A.Denotes .i1 o (.i1 b) n fr)
    (h : behind (if b then yes else no) A.function.body = some code) :
    A.Reaches (.branch o yes no :: rest) fr code fr := by
  refine reaches_of_step ?_
  simp only [step, hv.1, h]

end Activation

/-- Where a piece of code leads that ends in front of `rest`: there, if the evaluation goes on, and
otherwise to its outcome. -/
def Leads (E : Evaluator W P) (A : Activation W P) (code rest : List Instr) (fr : Frame W P) :
    Except (Store W P) (Flow × Store W P) → Prop
  | .ok (.next, st) => ∃ fr', Represents E A st fr' ∧ A.Reaches code fr rest fr'
  | .ok (.returned, st) => A.Halts code fr (E.outcome st true)
  | .error st => A.Halts code fr (E.outcome st false)

/-- The code may be entered earlier. -/
theorem Leads.of_reaches {E : Evaluator W P} {A : Activation W P} {code code' rest : List Instr}
    {fr fr' : Frame W P} {r : Except (Store W P) (Flow × Store W P)}
    (h : A.Reaches code fr code' fr') (h' : Leads E A code' rest fr' r) :
    Leads E A code rest fr r := by
  rcases r with st | ⟨flow, st⟩
  · exact h.halts h'
  · cases flow with
    | next =>
      obtain ⟨fr'', hrep, hreaches⟩ := h'
      exact ⟨fr'', hrep, h.trans hreaches⟩
    | returned => exact h.halts h'

/-- The code that a step emits in an open block does what the evaluation does, wherever it stands
in the function. A block that it ends is one in which the evaluation does not go on. -/
def Performs (E : Evaluator W P) (A : Activation W P) (x : Lower Unit) (ev : Eval W P Flow) :
    Prop :=
  ∀ s s', StateT.run x s = .ok ((), s') → s.terminated = false → ∃ code, Emits s s' code ∧
    (s'.strings <+: A.strings → ∀ rest, code ++ rest <:+ A.function.body →
      (labelsOf A.function.body).Nodup → ∀ st fr, Represents E A st fr →
        Leads E A (code ++ rest) rest fr (ev.run st) ∧
          (s'.terminated → ∀ st', ev.run st ≠ .ok (.next, st')))

/-- Straight code goes on. -/
theorem Simulates.performs {E : Evaluator W P} {A : Activation W P} {x : Lower Unit}
    {ev : Eval W P Unit} {post : Unit → Unit → Nat → Frame W P → Prop}
    (h : Simulates E A (fun _ _ => True) x ev post) :
    Performs E A x (do ev; Pure.pure .next) := by
  intro s s' hrun hopen
  obtain ⟨code, hcode, hsim⟩ := h s () s' hrun
  refine ⟨code, hcode.toEmits, fun hstrings rest _ _ st fr hrep => ⟨?_, ?_⟩⟩
  · have hfollows := hsim hstrings st fr hrep trivial
    rw [StateT.run_bind]
    rcases hev : StateT.run ev st with st' | ⟨⟨⟩, st'⟩ <;>
      rcases hexec : A.execAll fr code with fr' | fr' <;> rw [hev, hexec] at hfollows
    · have hhalts : A.Halts (code ++ rest) fr (fr'.outcome false) :=
        Activation.halts_of_execAll hcode.straight hexec
      rwa [Represents.outcome_eq hfollows] at hhalts
    · cases hfollows
    · cases hfollows
    · exact ⟨fr', hfollows.1, Activation.reaches_of_execAll hcode.straight hexec⟩
  · intro hterm
    rw [hcode.terminated, hopen] at hterm
    cases hterm

/-! ## Blocks -/

/-- The block that is open is ended by a jump. -/
def LowerState.closed (s : LowerState) (target : Label) : LowerState :=
  { s with body := s.body ++ if s.terminated then [] else [.jump target] }

/-- A new block begins. -/
def LowerState.opened (s : LowerState) (l : Label) : LowerState :=
  { s with body := s.body ++ [.label l], terminated := false }

theorem LowerState.closed_of_terminated {s : LowerState} (h : s.terminated = true)
    (target : Label) : s.closed target = s := by
  rw [closed, if_pos h, List.append_nil]

theorem LowerState.closed_of_open {s : LowerState} (h : s.terminated = false) (target : Label) :
    s.closed target = { s with body := s.body ++ [.jump target] } := by
  rw [closed, if_neg (by simp [h])]

theorem run_close (s : LowerState) (target : Label) :
    StateT.run (LowerScope.close target) s = .ok ((), s.closed target) := by
  change StateT.run (if ¬ s.terminated = true then emit (.jump target) else pure ()) s = _
  cases h : s.terminated with
  | true =>
    rw [LowerState.closed_of_terminated h]
    rfl
  | false =>
    rw [LowerState.closed_of_open h]
    rfl

section
variable {E : Evaluator W P} {A : Activation W P} {x : Lower Unit} {ev : Eval W P Flow}
  {s s' : LowerState}

/-- A block that jumps to `target` at its end leads to the code behind that label. -/
theorem Performs.block (h : Performs E A x ev) (hrun : StateT.run x s = .ok ((), s'))
    (hopen : s.terminated = false) (target : Label) :
    ∃ code, Emits s (s'.closed target) code ∧
      (s'.strings <+: A.strings → ∀ rest after,
        code ++ rest <:+ A.function.body → (labelsOf A.function.body).Nodup →
        Activation.behind target A.function.body = some after → ∀ st fr, Represents E A st fr →
          Leads E A (code ++ rest) after fr (ev.run st)) := by
  obtain ⟨xs, hxs, hperforms⟩ := h s s' hrun hopen
  cases hterm : s'.terminated with
  | true =>
    refine ⟨xs, ?_, fun hstrings rest after hbody hnodup _ st fr hrep => ?_⟩
    · rwa [LowerState.closed_of_terminated hterm]
    · obtain ⟨hleads, hnext⟩ := hperforms hstrings rest hbody hnodup st fr hrep
      rcases hev : StateT.run ev st with st' | ⟨flow, st'⟩ <;> rw [hev] at hleads
      · exact hleads
      · cases flow with
        | next => exact absurd hev (hnext hterm st')
        | returned => exact hleads
  | false =>
    refine ⟨xs ++ [.jump target], ?_, fun hstrings rest after hbody hnodup hafter st fr
      hrep => ?_⟩
    · refine hxs.trans ⟨?_, Nat.le_refl _, List.prefix_rfl, Nat.le_refl _, List.nodup_nil, ?_⟩
      · simp [LowerState.closed, hterm]
      · simp [labelsOf]
    · rw [List.append_assoc] at hbody ⊢
      obtain ⟨hleads, -⟩ := hperforms hstrings _ hbody hnodup st fr hrep
      rcases hev : StateT.run ev st with st' | ⟨flow, st'⟩ <;> rw [hev] at hleads
      · exact hleads
      · cases flow with
        | returned => exact hleads
        | next =>
          obtain ⟨fr', hrep', hreaches⟩ := hleads
          refine ⟨fr', hrep', hreaches.trans (Activation.reaches_of_step ?_)⟩
          simp [Activation.step, hafter]

end

/-! ## Conditionals -/

/-- The branch of a conditional, with three new labels. -/
def LowerState.branched (s : LowerState) (condition : Operand) (yes no : Label) : LowerState :=
  { s with labels := s.labels + 3, body := s.body ++ [.branch condition yes no] }

namespace LowerScope

variable {c : LowerScope} {span : Span} {e : BoundExpr} {thenBody elseBody : List BoundStmt}
  {s s' : LowerState}

theorem run_cond_nil
    (h : StateT.run (c.stmt (.cond span e thenBody [])) s = .ok ((), s')) :
    ∃ v s₁ s₂, StateT.run (c.expr e) s = .ok (v, s₁) ∧
      StateT.run (c.stmts thenBody)
        ((s₁.branched v.operand ⟨.thenPart, s₁.labels⟩ ⟨.endPart, s₁.labels + 2⟩).opened
          ⟨.thenPart, s₁.labels⟩) = .ok ((), s₂) ∧
      s' = (s₂.closed ⟨.endPart, s₁.labels + 2⟩).opened ⟨.endPart, s₁.labels + 2⟩ := by
  rw [stmt] at h
  obtain ⟨v, s₁, hexpr, h⟩ := run_bind_eq_ok.1 h
  obtain ⟨_, _, ⟨⟩, h⟩ := run_bind_eq_ok.1 h
  obtain ⟨_, _, ⟨⟩, h⟩ := run_bind_eq_ok.1 h
  obtain ⟨_, _, ⟨⟩, h⟩ := run_bind_eq_ok.1 h
  obtain ⟨_, _, ⟨⟩, h⟩ := run_bind_eq_ok.1 h
  obtain ⟨_, _, ⟨⟩, h⟩ := run_bind_eq_ok.1 h
  obtain ⟨_, s₂, hthen, h⟩ := run_bind_eq_ok.1 h
  obtain ⟨_, _, hclose, h⟩ := run_bind_eq_ok.1 h
  rw [run_close] at hclose
  cases hclose
  cases h
  exact ⟨v, s₁, s₂, hexpr, hthen, rfl⟩

theorem run_cond_cons {first : BoundStmt}
    (h : StateT.run (c.stmt (.cond span e thenBody (first :: elseBody))) s = .ok ((), s')) :
    ∃ v s₁ s₂ s₃, StateT.run (c.expr e) s = .ok (v, s₁) ∧
      StateT.run (c.stmts thenBody)
        ((s₁.branched v.operand ⟨.thenPart, s₁.labels⟩ ⟨.elsePart, s₁.labels + 1⟩).opened
          ⟨.thenPart, s₁.labels⟩) = .ok ((), s₂) ∧
      StateT.run (c.stmts (first :: elseBody))
        ((s₂.closed ⟨.endPart, s₁.labels + 2⟩).opened ⟨.elsePart, s₁.labels + 1⟩) =
          .ok ((), s₃) ∧
      s' = (s₃.closed ⟨.endPart, s₁.labels + 2⟩).opened ⟨.endPart, s₁.labels + 2⟩ := by
  rw [stmt] at h
  obtain ⟨v, s₁, hexpr, h⟩ := run_bind_eq_ok.1 h
  obtain ⟨_, _, ⟨⟩, h⟩ := run_bind_eq_ok.1 h
  obtain ⟨_, _, ⟨⟩, h⟩ := run_bind_eq_ok.1 h
  obtain ⟨_, _, ⟨⟩, h⟩ := run_bind_eq_ok.1 h
  obtain ⟨_, _, ⟨⟩, h⟩ := run_bind_eq_ok.1 h
  obtain ⟨_, _, ⟨⟩, h⟩ := run_bind_eq_ok.1 h
  obtain ⟨_, s₂, hthen, h⟩ := run_bind_eq_ok.1 h
  obtain ⟨_, _, hclose, h⟩ := run_bind_eq_ok.1 h
  rw [run_close] at hclose
  cases hclose
  obtain ⟨_, _, ⟨⟩, h⟩ := run_bind_eq_ok.1 h
  obtain ⟨_, s₃, helse, h⟩ := run_bind_eq_ok.1 h
  obtain ⟨_, _, hclose, h⟩ := run_bind_eq_ok.1 h
  rw [run_close] at hclose
  cases hclose
  cases h
  exact ⟨v, s₁, s₂, s₃, hexpr, hthen, helse, rfl⟩

end LowerScope

theorem labelsOf_cons_label (l : Label) (code : List Instr) :
    labelsOf (.label l :: code) = l :: labelsOf code := rfl

theorem labelsOf_cons_branch (o : Operand) (yes no : Label) (code : List Instr) :
    labelsOf (.branch o yes no :: code) = labelsOf code := rfl

theorem labelsOf_nil : labelsOf [] = [] := rfl

namespace Emits

variable {s s₁ s₂ s₃ : LowerState} {xs ys zs : List Instr} {o : Operand}

/-- A conditional without `else`. -/
theorem cond_nil (hxs : EmitsStraight s s₁ xs)
    (hys : Emits ((s₁.branched o ⟨.thenPart, s₁.labels⟩ ⟨.endPart, s₁.labels + 2⟩).opened
      ⟨.thenPart, s₁.labels⟩) s₂ ys) :
    Emits s (s₂.opened ⟨.endPart, s₁.labels + 2⟩)
      (xs ++ (Instr.branch o ⟨.thenPart, s₁.labels⟩ ⟨.endPart, s₁.labels + 2⟩ ::
        .label ⟨.thenPart, s₁.labels⟩ :: (ys ++ [Instr.label ⟨.endPart, s₁.labels + 2⟩]))) := by
  have hlabels : s₁.labels + 3 ≤ s₂.labels := hys.labels
  have hs := hxs.labels
  have hfresh : ∀ l ∈ labelsOf ys, s₁.labels + 3 ≤ l.index ∧ l.index < s₂.labels := hys.fresh
  refine ⟨?_, Nat.le_trans hxs.temps hys.temps, hxs.strings.trans hys.strings, ?_, ?_, ?_⟩
  · simp [LowerState.opened, hys.body, LowerState.branched, hxs.body]
  · exact Nat.le_trans (by omega) hlabels
  · simp only [labelsOf_append, labelsOf_of_straight hxs.straight, labelsOf_cons_branch,
      labelsOf_cons_label, labelsOf_nil, List.nil_append, List.nodup_cons, List.nodup_append,
      List.mem_append, List.mem_singleton]
    grind [hys.nodup]
  · simp only [labelsOf_append, labelsOf_of_straight hxs.straight, labelsOf_cons_branch,
      labelsOf_cons_label, labelsOf_nil, List.nil_append, List.mem_cons, List.mem_append,
      LowerState.opened]
    grind

/-- A conditional with `else`. -/
theorem cond_cons (hxs : EmitsStraight s s₁ xs)
    (hys : Emits ((s₁.branched o ⟨.thenPart, s₁.labels⟩ ⟨.elsePart, s₁.labels + 1⟩).opened
      ⟨.thenPart, s₁.labels⟩) s₂ ys)
    (hzs : Emits (s₂.opened ⟨.elsePart, s₁.labels + 1⟩) s₃ zs) :
    Emits s (s₃.opened ⟨.endPart, s₁.labels + 2⟩)
      (xs ++ (Instr.branch o ⟨.thenPart, s₁.labels⟩ ⟨.elsePart, s₁.labels + 1⟩ ::
        .label ⟨.thenPart, s₁.labels⟩ :: (ys ++ Instr.label ⟨.elsePart, s₁.labels + 1⟩ ::
          (zs ++ [Instr.label ⟨.endPart, s₁.labels + 2⟩])))) := by
  have hlabels : s₁.labels + 3 ≤ s₂.labels := hys.labels
  have hlabels' : s₂.labels ≤ s₃.labels := hzs.labels
  have hs := hxs.labels
  have hfresh : ∀ l ∈ labelsOf ys, s₁.labels + 3 ≤ l.index ∧ l.index < s₂.labels := hys.fresh
  have hfresh' : ∀ l ∈ labelsOf zs, s₂.labels ≤ l.index ∧ l.index < s₃.labels := hzs.fresh
  refine ⟨?_, Nat.le_trans hxs.temps (Nat.le_trans hys.temps hzs.temps),
    hxs.strings.trans (hys.strings.trans hzs.strings), ?_, ?_, ?_⟩
  · simp [LowerState.opened, hzs.body, hys.body, LowerState.branched, hxs.body]
  · exact Nat.le_trans (by omega) hlabels'
  · simp only [labelsOf_append, labelsOf_of_straight hxs.straight, labelsOf_cons_branch,
      labelsOf_cons_label, labelsOf_nil, List.nil_append, List.nodup_cons, List.nodup_append,
      List.mem_append, List.mem_cons]
    grind [hys.nodup, hzs.nodup]
  · simp only [labelsOf_append, labelsOf_of_straight hxs.straight, labelsOf_cons_branch,
      labelsOf_cons_label, labelsOf_nil, List.nil_append, List.mem_cons, List.mem_append,
      LowerState.opened]
    grind

end Emits

namespace Runs

variable {c : LowerScope} {E : Evaluator W P} {A : Activation W P} {span : Span} {e : BoundExpr}
  {thenBody elseBody : List BoundStmt}

/-- The condition is evaluated, and the branch goes to the block that is chosen. -/
theorem leads_branch {xs rest tail : List Instr} {fr : Frame W P} {st : Store W P} {v : Value}
    {n n' : Nat} {yes no : Label} (hxs : ∀ i ∈ xs, i.isStraight)
    (hfollows : Follows E A n fr (fun b fr' => A.HasValue .i1 v b n' fr')
      (StateT.run (E.expr e) st) (A.execAll fr xs))
    (code : Bool → List Instr)
    (hcode : ∀ b, Activation.behind (if b then yes else no) A.function.body = some (code b))
    (hblocks : ∀ b st fr, Represents E A st fr →
      Leads E A (code b) rest fr (StateT.run (E.stmts (if b then thenBody else elseBody)) st)) :
    Leads E A (xs ++ .branch v.operand yes no :: tail) rest fr
      (StateT.run (E.stmt (.cond span e thenBody elseBody)) st) := by
  rw [Evaluator.stmt, StateT.run_bind]
  rcases hev : StateT.run (E.expr e) st with st' | ⟨val, st'⟩ <;>
    rcases hexec : A.execAll fr xs with fr' | fr' <;> rw [hev, hexec] at hfollows
  · have hhalts : A.Halts (xs ++ .branch v.operand yes no :: tail) fr (fr'.outcome false) :=
      Activation.halts_of_execAll hxs hexec
    rwa [Represents.outcome_eq hfollows] at hhalts
  · cases hfollows
  · cases hfollows
  · obtain ⟨hrep, -, -, hv⟩ := hfollows
    obtain ⟨b, rfl⟩ := Val.eq_i1 hv.hasType
    have hleads := hblocks b st' fr' hrep
    refine Leads.of_reaches (Activation.reaches_of_execAll hxs hexec) ?_
    refine Leads.of_reaches (Activation.reaches_branch hv (hcode b)) ?_
    cases b with
    | true => exact hleads
    | false => exact hleads

theorem performs_cond_nil (hr : Runs c E A) (he : E.context.HasType e .bool)
    (hthen : Performs E A (c.stmts thenBody) (E.stmts thenBody)) :
    Performs E A (c.stmt (.cond span e thenBody [])) (E.stmt (.cond span e thenBody [])) := by
  intro s s' hrun hopen
  obtain ⟨v, s₁, s₂, hexpr, hthenrun, rfl⟩ := LowerScope.run_cond_nil hrun
  obtain ⟨xs, hxs, hsim⟩ := hr.simulates_expr he s v s₁ hexpr
  obtain ⟨ys, hys, hblock⟩ := hthen.block hthenrun rfl ⟨.endPart, s₁.labels + 2⟩
  refine ⟨_, Emits.cond_nil hxs hys, fun hstrings rest hbody hnodup st fr hrep => ⟨?_, nofun⟩⟩
  simp only [List.append_assoc, List.cons_append, List.nil_append] at hbody ⊢
  -- The code from each label on is a part of the function.
  have hyes := (List.suffix_cons ..).trans ((List.suffix_append ..).trans hbody)
  have hthenCode := (List.suffix_cons ..).trans hyes
  have hend := (List.suffix_append ..).trans hthenCode
  refine leads_branch hxs.straight (hsim (hys.strings.trans hstrings) st fr hrep trivial)
    (fun | true => ys ++ .label ⟨.endPart, s₁.labels + 2⟩ :: rest | false => rest) ?_ ?_
  · rintro (_ | _)
    · exact A.behind_of_suffix hend hnodup
    · exact A.behind_of_suffix hyes hnodup
  · rintro (_ | _) st fr hrep
    · exact ⟨fr, hrep, .refl ..⟩
    · exact hblock hstrings _ rest hthenCode hnodup (A.behind_of_suffix hend hnodup) st fr hrep

theorem performs_cond_cons (hr : Runs c E A) {first : BoundStmt}
    (he : E.context.HasType e .bool) (hthen : Performs E A (c.stmts thenBody) (E.stmts thenBody))
    (helse : Performs E A (c.stmts (first :: elseBody)) (E.stmts (first :: elseBody))) :
    Performs E A (c.stmt (.cond span e thenBody (first :: elseBody)))
      (E.stmt (.cond span e thenBody (first :: elseBody))) := by
  intro s s' hrun hopen
  obtain ⟨v, s₁, s₂, s₃, hexpr, hthenrun, helserun, rfl⟩ := LowerScope.run_cond_cons hrun
  obtain ⟨xs, hxs, hsim⟩ := hr.simulates_expr he s v s₁ hexpr
  obtain ⟨ys, hys, hyblock⟩ := hthen.block hthenrun rfl ⟨.endPart, s₁.labels + 2⟩
  obtain ⟨zs, hzs, hzblock⟩ := helse.block helserun rfl ⟨.endPart, s₁.labels + 2⟩
  refine ⟨_, Emits.cond_cons hxs hys hzs, fun hstrings rest hbody hnodup st fr hrep =>
    ⟨?_, nofun⟩⟩
  have hstrings' : s₂.strings <+: A.strings := hzs.strings.trans hstrings
  simp only [List.append_assoc, List.cons_append, List.nil_append] at hbody ⊢
  have hyes := (List.suffix_cons ..).trans ((List.suffix_append ..).trans hbody)
  have hthenCode := (List.suffix_cons ..).trans hyes
  have hno := (List.suffix_append ..).trans hthenCode
  have helseCode := (List.suffix_cons ..).trans hno
  have hend := (List.suffix_append ..).trans helseCode
  refine leads_branch hxs.straight (hsim (hys.strings.trans hstrings') st fr hrep trivial)
    (fun
      | true => ys ++ .label ⟨.elsePart, s₁.labels + 1⟩ ::
          (zs ++ .label ⟨.endPart, s₁.labels + 2⟩ :: rest)
      | false => zs ++ .label ⟨.endPart, s₁.labels + 2⟩ :: rest) ?_ ?_
  · rintro (_ | _)
    · exact A.behind_of_suffix hno hnodup
    · exact A.behind_of_suffix hyes hnodup
  · rintro (_ | _) st fr hrep
    · exact hzblock hstrings _ rest helseCode hnodup (A.behind_of_suffix hend hnodup) st fr hrep
    · exact hyblock hstrings' _ rest hthenCode hnodup (A.behind_of_suffix hend hnodup) st fr hrep

/-! ## Statements -/

theorem performs_ret : Performs E A (c.stmt (.ret span)) (E.stmt (.ret span)) := by
  intro s s' hrun hopen
  rw [LowerScope.stmt] at hrun
  cases hrun
  refine ⟨[.ret], ⟨rfl, Nat.le_refl _, List.prefix_rfl, Nat.le_refl _, List.nodup_nil, nofun⟩,
    fun _ rest _ _ st fr hrep => ?_⟩
  rw [Evaluator.stmt]
  refine ⟨?_, fun _ st' h => nomatch h⟩
  have hhalts : A.Halts (.ret :: rest) fr (fr.outcome true) := Activation.halts_of_step rfl
  rwa [hrep.outcome_eq] at hhalts

/-- Nothing is emitted behind a `return`. -/
theorem run_stmts_of_terminated {ss : List BoundStmt} {s : LowerState} (h : s.terminated = true) :
    StateT.run (c.stmts ss) s = .ok ((), s) := by
  cases ss with
  | nil => rw [LowerScope.stmts]; rfl
  | cons b ss =>
    rw [LowerScope.stmts, StateT.run_bind]
    change StateT.run (if ¬ s.terminated = true then _ else pure ()) s = _
    rw [if_neg (by simp [h])]
    rfl

theorem run_stmts_cons {b : BoundStmt} {ss : List BoundStmt} {s : LowerState}
    (h : s.terminated = false) :
    StateT.run (c.stmts (b :: ss)) s = StateT.run (c.stmt b >>= fun _ => c.stmts ss) s := by
  rw [LowerScope.stmts, StateT.run_bind]
  change StateT.run (if ¬ s.terminated = true then _ else pure ()) s = _
  rw [if_pos (by simp [h])]

theorem performs_stmts_nil : Performs E A (c.stmts []) (E.stmts []) := by
  intro s s' hrun hopen
  rw [LowerScope.stmts] at hrun
  cases hrun
  refine ⟨[], Emits.refl s, fun _ rest _ _ st fr hrep => ?_⟩
  rw [Evaluator.stmts]
  refine ⟨⟨fr, hrep, .refl ..⟩, fun hterm => ?_⟩
  rw [hopen] at hterm
  cases hterm

theorem performs_stmts_cons {b : BoundStmt} {ss : List BoundStmt}
    (hb : Performs E A (c.stmt b) (E.stmt b)) (hss : Performs E A (c.stmts ss) (E.stmts ss)) :
    Performs E A (c.stmts (b :: ss)) (E.stmts (b :: ss)) := by
  intro s s'' hrun hopen
  rw [run_stmts_cons hopen] at hrun
  obtain ⟨_, s', hbrun, hssrun⟩ := run_bind_eq_ok.1 hrun
  obtain ⟨xs, hxs, hbperforms⟩ := hb s s' hbrun hopen
  cases hterm : s'.terminated with
  | true =>
    rw [run_stmts_of_terminated hterm] at hssrun
    cases hssrun
    refine ⟨xs, hxs, fun hstrings rest hbody hnodup st fr hrep => ?_⟩
    obtain ⟨hleads, hnext⟩ := hbperforms hstrings rest hbody hnodup st fr hrep
    rw [Evaluator.stmts, StateT.run_bind]
    rcases hev : StateT.run (E.stmt b) st with st' | ⟨flow, st'⟩ <;> rw [hev] at hleads
    · exact ⟨hleads, nofun⟩
    · cases flow with
      | next => exact absurd hev (hnext hterm st')
      | returned => exact ⟨hleads, nofun⟩
  | false =>
    obtain ⟨ys, hys, hssperforms⟩ := hss s' s'' hssrun hterm
    refine ⟨xs ++ ys, hxs.trans hys, fun hstrings rest hbody hnodup st fr hrep => ?_⟩
    rw [List.append_assoc] at hbody ⊢
    obtain ⟨hleads, -⟩ := hbperforms (hys.strings.trans hstrings) _ hbody hnodup st fr hrep
    rw [Evaluator.stmts, StateT.run_bind]
    rcases hev : StateT.run (E.stmt b) st with st' | ⟨flow, st'⟩ <;> rw [hev] at hleads
    · exact ⟨hleads, nofun⟩
    · cases flow with
      | returned => exact ⟨hleads, nofun⟩
      | next =>
        obtain ⟨fr', hrep', hreaches⟩ := hleads
        have hysbody := (List.suffix_append ..).trans hbody
        obtain ⟨hleads', hnext'⟩ := hssperforms hstrings rest hysbody hnodup st' fr' hrep'
        exact ⟨Leads.of_reaches hreaches hleads', hnext'⟩

theorem performs_stmts_of_forall {ss : List BoundStmt}
    (h : ∀ b ∈ ss, Performs E A (c.stmt b) (E.stmt b)) :
    Performs E A (c.stmts ss) (E.stmts ss) := by
  induction ss with
  | nil => exact performs_stmts_nil
  | cons b ss ih =>
    obtain ⟨hb, hss⟩ := List.forall_mem_cons.1 h
    exact performs_stmts_cons hb (ih hss)

theorem performs_stmt (hr : Runs c E A) {b : BoundStmt} (h : E.context.TypedStmt b) :
    Performs E A (c.stmt b) (E.stmt b) := by
  induction h with
  | @assign target τ e span name hb hτ he =>
    have hassign : Simulates E A (fun _ _ => True) (do let x ← c.expr e; c.write x target)
        (do let v ← E.expr e; Evaluator.write v target) fun _ _ _ _ => True :=
      (hr.simulates_accepted he).bind fun x v => hr.simulates_write hb hτ x v
    have hstmt : E.stmt (.assign span name (some target) e) =
        (do (do let v ← E.expr e; Evaluator.write v target); pure .next) := by
      rw [Evaluator.stmt, bind_assoc]
      rfl
    rw [LowerScope.stmt, hstmt]
    exact hassign.performs
  | call hf hreceiver hargs =>
    rw [LowerScope.stmt, Evaluator.stmt]
    exact (hr.simulates_stmt_call hf hreceiver hargs).performs
  | callback hb =>
    rw [LowerScope.stmt, Evaluator.stmt]
    exact (hr.simulates_stmt_callback hb).performs
  | @cond e thenBody elseBody span he _ _ ihthen ihelse =>
    have hthen := performs_stmts_of_forall ihthen
    have helse := performs_stmts_of_forall ihelse
    cases elseBody with
    | nil => exact hr.performs_cond_nil he hthen
    | cons first elseBody => exact hr.performs_cond_cons he hthen helse
  | ret => exact performs_ret

theorem performs_stmts (hr : Runs c E A) {ss : List BoundStmt}
    (h : ∀ b ∈ ss, E.context.TypedStmt b) : Performs E A (c.stmts ss) (E.stmts ss) :=
  performs_stmts_of_forall fun b hb => hr.performs_stmt (h b hb)

end Runs

end Code

end ViewCompiler
