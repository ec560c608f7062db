import ViewCompiler.Proofs.LoweringTyping

/-!
Lowering of bodies emits typed code. Statements may end blocks and start others: `CodeScope.Flows`
says that their code leads from point to point and has labels of its own. Render operations are
straight code.
-/

namespace ViewCompiler

namespace Code

open Lower

namespace CodeScope

variable {C : CodeScope} {c : LowerScope} {Γ : TypingContext} {P : MethodId → Prop} {p : Point}

/-! ## Statements -/

/-- From a state at `p`, the step emits code with labels of its own to a sound point. -/
def Flows (C : CodeScope) (p : Point) (x : Lower Unit) : Prop :=
  ∀ s s', p.At s → StateT.run x s = .ok ((), s') → ∃ code q, s'.body = s.body ++ code ∧
    Labelled s.labels code s'.labels ∧ C.Path p code q ∧ q.Sound C ∧ q.At s'

theorem Produces.flows {x : Lower Unit} (hp : p.Ready C)
    (h : C.Produces p x fun _ _ => True) : C.Flows p x := by
  intro s s' hs hrun
  obtain ⟨code, q, hbody, hlabels, hstraight, hpath, hpq, hs', -⟩ := h s () s' hs hrun
  refine ⟨code, q, hbody, ?_, hpath, (hp.mono hpq).toSound, hs'⟩
  rw [hlabels]
  exact .of_straight hstraight

theorem flows_ret (hp : p.Ready C) {span : Span} : C.Flows p (c.stmt (.ret span)) := by
  intro s s' hs hrun
  rw [LowerScope.stmt] at hrun
  cases hrun
  refine ⟨[.ret], { p with closed := true }, rfl, ?_, .single (.stop hp.opened .ret),
    ⟨hp.start, hp.slots⟩, hs.temps, rfl, hs.strings, hs.declarations, hs.fragments⟩
  exact ⟨Nat.le_refl _, by simp [labelsOf], by simp [labelsOf], by simp [Instr.targets]⟩

end CodeScope

/-! ## Conditionals -/

/-- The start of the next block. -/
def Point.next (p : Point) : Point :=
  { p with entry := false, closed := false, start := p.temps.length }

/-- The code that ends a block with a jump, unless it has ended, and starts another one. -/
def turn (closed : Bool) (target l : Label) : List Instr :=
  (if closed then [] else [.jump target]) ++ [.label l]

namespace Point

variable {C : CodeScope} {p : Point}

theorem Sound.next (h : p.Sound C) : p.next.Ready C := ⟨⟨Nat.le_refl _, h.slots⟩, rfl⟩

theorem path_turn (p : Point) (target l : Label) : C.Path p (turn p.closed target l) p.next := by
  rw [turn]
  cases h : p.closed with
  | true => exact .single (.label h)
  | false => exact .cons (.stop h .jump) (.single (.label rfl))

theorem At.turn {s : LowerState} (h : p.At s) (target l : Label) :
    p.next.At ((s.closed target).opened l) ∧
      ((s.closed target).opened l).body = s.body ++ Code.turn p.closed target l := by
  refine ⟨⟨h.temps, rfl, h.strings, h.declarations, h.fragments⟩, ?_⟩
  simp [LowerState.opened, LowerState.closed, Code.turn, h.closed]

/-- The code of a branch and the label behind it. -/
theorem Ready.path_branch (h : p.Ready C) {o : Operand} (ho : p.HasType C o .i1)
    (yes no l : Label) : C.Path p [.branch o yes no, .label l] p.next :=
  .cons (.stop h.opened (.branch ho)) (.single (.label rfl))

theorem At.branch {s : LowerState} (h : p.At s) (o : Operand) (yes no l : Label) :
    p.next.At ((s.branched o yes no).opened l) :=
  ⟨h.temps, rfl, h.strings, h.declarations, h.fragments⟩

end Point

namespace Labelled

theorem labelsOf_turn (closed : Bool) (target l : Label) : labelsOf (turn closed target l) = [l] := by
  cases closed <;> rfl

theorem targets_turn {closed : Bool} {target l l' : Label} {i : Instr}
    (hi : i ∈ turn closed target l) (hl : l' ∈ i.targets) : l' = target := by
  cases closed <;> simp [turn] at hi
  · rcases hi with rfl | rfl
    · simpa [Instr.targets] using hl
    · cases hl
  · subst hi
    cases hl

variable {n n' n'' : Nat} {ys zs : List Instr} {o : Operand} {b b' : Bool}

/-- A conditional without `else`. -/
theorem cond_nil (hys : Labelled (n + 3) ys n') :
    Labelled n (.branch o ⟨.thenPart, n⟩ ⟨.endPart, n + 2⟩ :: .label ⟨.thenPart, n⟩ ::
      (ys ++ turn b ⟨.endPart, n + 2⟩ ⟨.endPart, n + 2⟩)) n' where
  le := Nat.le_trans (by omega) hys.le
  nodup := by
    have := hys.fresh
    simp only [labelsOf_append, labelsOf_cons_branch, labelsOf_cons_label, labelsOf_turn,
      List.nodup_cons, List.nodup_append, List.mem_append, List.mem_singleton]
    grind [hys.nodup]
  fresh := by
    have := hys.fresh
    have := hys.le
    simp only [labelsOf_append, labelsOf_cons_branch, labelsOf_cons_label, labelsOf_turn,
      List.mem_append, List.mem_cons]
    grind
  targets := by
    simp only [labelsOf_append, labelsOf_cons_branch, labelsOf_cons_label, labelsOf_turn]
    refine List.forall_mem_cons.2 ⟨by simp [Instr.targets], List.forall_mem_cons.2
      ⟨by simp [Instr.targets], List.forall_mem_append.2 ⟨fun i hi l hl => ?_, fun i hi l hl => ?_⟩⟩⟩
    · have := hys.targets i hi l hl
      simp [this]
    · simp [targets_turn hi hl]

/-- A conditional with `else`. -/
theorem cond_cons (hys : Labelled (n + 3) ys n') (hzs : Labelled n' zs n'') :
    Labelled n (.branch o ⟨.thenPart, n⟩ ⟨.elsePart, n + 1⟩ :: .label ⟨.thenPart, n⟩ ::
      (ys ++ (turn b ⟨.endPart, n + 2⟩ ⟨.elsePart, n + 1⟩ ++
        (zs ++ turn b' ⟨.endPart, n + 2⟩ ⟨.endPart, n + 2⟩)))) n'' where
  le := Nat.le_trans (Nat.le_trans (by omega) hys.le) hzs.le
  nodup := by
    have := hys.fresh
    have := hzs.fresh
    have := hys.le
    simp only [labelsOf_append, labelsOf_cons_branch, labelsOf_cons_label, labelsOf_turn,
      List.nodup_cons, List.nodup_append, List.mem_append, List.mem_cons]
    grind [hys.nodup, hzs.nodup]
  fresh := by
    have := hys.fresh
    have := hzs.fresh
    have := hys.le
    have := hzs.le
    simp only [labelsOf_append, labelsOf_cons_branch, labelsOf_cons_label, labelsOf_turn,
      List.mem_append, List.mem_cons]
    grind
  targets := by
    simp only [labelsOf_append, labelsOf_cons_branch, labelsOf_cons_label, labelsOf_turn]
    refine List.forall_mem_cons.2 ⟨by simp [Instr.targets], List.forall_mem_cons.2
      ⟨by simp [Instr.targets], List.forall_mem_append.2 ⟨fun i hi l hl => ?_, 
        List.forall_mem_append.2 ⟨fun i hi l hl => ?_, 
          List.forall_mem_append.2 ⟨fun i hi l hl => ?_, fun i hi l hl => ?_⟩⟩⟩⟩⟩
    · have := hys.targets i hi l hl
      simp [this]
    · simp [targets_turn hi hl]
    · have := hzs.targets i hi l hl
      simp [this]
    · simp [targets_turn hi hl]

end Labelled

namespace CodeScope

variable {C : CodeScope} {c : LowerScope} {Γ : TypingContext} {P : MethodId → Prop} {p : Point}
  {span : Span} {e : BoundExpr} {thenBody elseBody : List BoundStmt}

theorem flows_cond_nil (hC : C.Covers c P) (hc : c.Agrees Γ) (hp : p.Ready C)
    (he : Γ.HasType e .bool) (hthen : ∀ q : Point, q.Ready C → C.Flows q (c.stmts thenBody)) :
    C.Flows p (c.stmt (.cond span e thenBody [])) := by
  intro s s' hs hrun
  obtain ⟨v, s₁, s₂, hexpr, hthenrun, rfl⟩ := LowerScope.run_cond_nil hrun
  obtain ⟨xs, q, hbody, hlabels, hstraight, hpath, hpq, hs₁, hv⟩ :=
    produces_expr hC hc hp he (by simp) s v s₁ hs hexpr
  have hq := hp.mono hpq
  obtain ⟨ys, r, hbody', hlabels', hpath', hr, hs₂⟩ :=
    hthen q.next hq.toSound.next _ s₂ (hs₁.branch ..) hthenrun
  obtain ⟨hat, hbody''⟩ := hs₂.turn ⟨.endPart, s₁.labels + 2⟩ ⟨.endPart, s₁.labels + 2⟩
  refine ⟨xs ++ (.branch v.operand ⟨.thenPart, s₁.labels⟩ ⟨.endPart, s₁.labels + 2⟩ ::
    .label ⟨.thenPart, s₁.labels⟩ :: (ys ++ turn r.closed ⟨.endPart, s₁.labels + 2⟩
      ⟨.endPart, s₁.labels + 2⟩)), r.next, ?_, ?_, ?_, hr.next.toSound, hat⟩
  · rw [hbody'', hbody']
    simp [LowerState.opened, LowerState.branched, hbody]
  · have hstart : Labelled s.labels xs s₁.labels := hlabels ▸ .of_straight hstraight
    exact hstart.append (.cond_nil hlabels')
  · exact hpath.append ((hq.path_branch hv.2 ..).append (hpath'.append (r.path_turn ..)))

theorem flows_cond_cons (hC : C.Covers c P) (hc : c.Agrees Γ) (hp : p.Ready C) {first : BoundStmt}
    (he : Γ.HasType e .bool) (hthen : ∀ q : Point, q.Ready C → C.Flows q (c.stmts thenBody))
    (helse : ∀ q : Point, q.Ready C → C.Flows q (c.stmts (first :: elseBody))) :
    C.Flows p (c.stmt (.cond span e thenBody (first :: elseBody))) := by
  intro s s' hs hrun
  obtain ⟨v, s₁, s₂, s₃, hexpr, hthenrun, helserun, rfl⟩ := LowerScope.run_cond_cons hrun
  obtain ⟨xs, q, hbody, hlabels, hstraight, hpath, hpq, hs₁, hv⟩ :=
    produces_expr hC hc hp he (by simp) s v s₁ hs hexpr
  have hq := hp.mono hpq
  obtain ⟨ys, r, hbody', hlabels', hpath', hr, hs₂⟩ :=
    hthen q.next hq.toSound.next _ s₂ (hs₁.branch ..) hthenrun
  obtain ⟨hat, hturn⟩ := hs₂.turn ⟨.endPart, s₁.labels + 2⟩ ⟨.elsePart, s₁.labels + 1⟩
  obtain ⟨zs, r', hbody'', hlabels'', hpath'', hr', hs₃⟩ := helse r.next hr.next _ s₃ hat helserun
  obtain ⟨hat', hturn'⟩ := hs₃.turn ⟨.endPart, s₁.labels + 2⟩ ⟨.endPart, s₁.labels + 2⟩
  refine ⟨xs ++ (.branch v.operand ⟨.thenPart, s₁.labels⟩ ⟨.elsePart, s₁.labels + 1⟩ ::
    .label ⟨.thenPart, s₁.labels⟩ :: (ys ++ (turn r.closed ⟨.endPart, s₁.labels + 2⟩
      ⟨.elsePart, s₁.labels + 1⟩ ++ (zs ++ turn r'.closed ⟨.endPart, s₁.labels + 2⟩
        ⟨.endPart, s₁.labels + 2⟩)))), r'.next, ?_, ?_, ?_, hr'.next.toSound, hat'⟩
  · rw [hturn', hbody'', hturn, hbody']
    simp [LowerState.opened, LowerState.branched, hbody]
  · have hstart : Labelled s.labels xs s₁.labels := hlabels ▸ .of_straight hstraight
    exact hstart.append (.cond_cons hlabels' hlabels'')
  · exact hpath.append ((hq.path_branch hv.2 ..).append (hpath'.append
      ((r.path_turn ..).append (hpath''.append (r'.path_turn ..)))))

/-- Statements follow each other, up to one that ends its block. -/
theorem flows_stmts_of_forall {ss : List BoundStmt} (hp : p.Sound C)
    (h : ∀ b ∈ ss, ∀ q : Point, q.Ready C → C.Flows q (c.stmt b)) : C.Flows p (c.stmts ss) := by
  induction ss generalizing p with
  | nil =>
    intro s s' hs hrun
    rw [LowerScope.stmts] at hrun
    cases hrun
    exact ⟨[], p, by simp, .of_straight (by simp), .nil, hp, hs⟩
  | cons b ss ih =>
    intro s s'' hs hrun
    obtain ⟨hb, hss⟩ := List.forall_mem_cons.1 h
    cases hterm : s.terminated with
    | true =>
      rw [Runs.run_stmts_of_terminated hterm] at hrun
      cases hrun
      exact ⟨[], p, by simp, .of_straight (by simp), .nil, hp, hs⟩
    | false =>
      rw [Runs.run_stmts_cons hterm] at hrun
      obtain ⟨_, s', hbrun, hssrun⟩ := run_bind_eq_ok.1 hrun
      have hready : p.Ready C := ⟨hp, hs.closed.symm.trans hterm⟩
      obtain ⟨xs, q, hbody, hlabels, hpath, hq, hs'⟩ := hb p hready s s' hs hbrun
      obtain ⟨ys, r, hbody', hlabels', hpath', hr, hs''⟩ := ih hq hss s' s'' hs' hssrun
      refine ⟨xs ++ ys, r, ?_, hlabels.append hlabels', hpath.append hpath', hr, hs''⟩
      rw [hbody', hbody, List.append_assoc]

theorem mem_allMethods {ss : List BoundStmt} {id : MethodId} :
    id ∈ BoundStmt.allMethods ss ↔ ∃ s ∈ ss, id ∈ s.methods := by
  induction ss with
  | nil => simp [BoundStmt.allMethods]
  | cons s ss ih => simp [BoundStmt.allMethods, ih]

theorem flows_stmt (hC : C.Covers c P) (hc : c.Agrees Γ) {b : BoundStmt} (h : Γ.TypedStmt b)
    (hm : ∀ id ∈ b.methods, P id) (hp : p.Ready C) : C.Flows p (c.stmt b) := by
  induction h generalizing p with
  | assign hb hτ he =>
    rw [LowerScope.stmt]
    refine Produces.flows hp ((produces_accepted hC hc hp he ?_).bind fun v q hpq hv =>
      .bound_bind fun b hsome => ?_)
    · simpa [BoundStmt.methods] using hm
    · cases hsome
      exact produces_write hC hc (hp.mono hpq) hb hτ hv
  | call hf hreceiver hargs =>
    rw [LowerScope.stmt]
    rw [BoundStmt.methods, List.forall_mem_cons] at hm
    refine Produces.flows hp (.bound_bind fun b hsome => ?_)
    cases hsome
    exact produces_call hC hc hp hm.1 hf hreceiver hargs hm.2
  | callback hb =>
    rw [LowerScope.stmt]
    refine Produces.flows hp (.bound_bind fun b hsome => ?_)
    cases hsome
    exact produces_callback_call hC hc hp hb
  | @cond e thenBody elseBody span he _ _ ihthen ihelse =>
    rw [BoundStmt.methods, List.forall_mem_append, List.forall_mem_append] at hm
    obtain ⟨-, hmthen, hmelse⟩ := hm
    have hthen (q : Point) (hq : q.Ready C) : C.Flows q (c.stmts thenBody) :=
      flows_stmts_of_forall hq.toSound fun b hb q hq =>
        ihthen b hb (fun id hid => hmthen id (mem_allMethods.2 ⟨b, hb, hid⟩)) hq
    have helse (q : Point) (hq : q.Ready C) : C.Flows q (c.stmts elseBody) :=
      flows_stmts_of_forall hq.toSound fun b hb q hq =>
        ihelse b hb (fun id hid => hmelse id (mem_allMethods.2 ⟨b, hb, hid⟩)) hq
    cases elseBody with
    | nil => exact flows_cond_nil hC hc hp he hthen
    | cons first rest => exact flows_cond_cons hC hc hp he hthen helse
  | ret => exact flows_ret hp

theorem flows_stmts (hC : C.Covers c P) (hc : c.Agrees Γ) {ss : List BoundStmt}
    (h : ∀ b ∈ ss, Γ.TypedStmt b) (hm : ∀ id ∈ BoundStmt.allMethods ss, P id) (hp : p.Sound C) :
    C.Flows p (c.stmts ss) :=
  flows_stmts_of_forall hp fun b hb _ hq =>
    flows_stmt hC hc (h b hb) (fun id hid => hm id (mem_allMethods.2 ⟨b, hb, hid⟩)) hq

/-! ## Render operations -/

theorem produces_run {f : Runtime} {args : List Value} (hp : p.Ready C)
    (htypes : args.map (·.type) = f.params) (hresult : f.result = none)
    (hargs : ∀ a ∈ args, p.HasType C a.operand a.type) :
    C.Produces p (Lower.run f args) fun _ _ => True := by
  have hcall : p.Applies C (.runtime f) args none := by
    refine ⟨?_, hargs⟩
    rw [htypes, ← hresult]
    exact .runtime
  exact (Produces.emit hp (.call hcall)).imp fun _ _ _ _ => trivial

/-- The runtime function for an attribute takes a value of its type. -/
theorem attributeRuntime_params (τ : Ty) :
    (LowerScope.attributeRuntime τ).1.params = [.ptr, .ptr, τ.valueType] ∧
      (LowerScope.attributeRuntime τ).1.result = none ∧
      (LowerScope.attributeRuntime τ).2 = τ.valueType := by
  cases τ <;> exact ⟨rfl, rfl, rfl⟩

theorem contentRuntime_params {τ : Ty} (h : τ.isRenderable) :
    (LowerScope.contentRuntime τ).1.params = [.ptr, τ.valueType] ∧
      (LowerScope.contentRuntime τ).1.result = none ∧
      (LowerScope.contentRuntime τ).2 = τ.valueType := by
  cases τ with
  | int | string | bool | fragment => exact ⟨rfl, rfl, rfl⟩
  | _ => cases h

theorem produces_attr (hbuilder : C.builder = true) (hp : p.Ready C) {e : BoundExpr}
    (he : C.Produces p (c.expr e) (C.Holds e.type.valueType)) (name : Bytes) :
    C.Produces p (c.attr name e) fun _ _ => True := by
  refine he.bind fun v q hpq hv => (Produces.string name).bind fun key q' hqq' hkey => ?_
  obtain ⟨hparams, hresult, htype⟩ := attributeRuntime_params e.type
  change C.Produces q' (Lower.run (LowerScope.attributeRuntime e.type).1
    [⟨.builder, .ptr⟩, ⟨key, .ptr⟩, ⟨v.operand, (LowerScope.attributeRuntime e.type).2⟩]) _
  rw [htype]
  refine produces_run (hp.mono (hpq.trans hqq')) hparams.symm hresult ?_
  simpa using ⟨.builder hbuilder, hkey, hv.2.mono hqq'⟩

theorem produces_typedAttr (hC : C.Covers c P) (hc : c.Agrees Γ) (hp : p.Ready C) {e : BoundExpr}
    (he : Γ.TypedAttr e) (hm : ∀ id ∈ e.methods, P id) :
    C.Produces p (c.expr e) (C.Holds e.type.valueType) := by
  cases he with
  | plain he hτ =>
    rw [he.type_eq]
    exact produces_expr hC hc hp he (by rintro rfl; simp at hτ)
  | method he haccepts =>
    rw [he.type_eq]
    have hcallback := produces_accepted hC hc hp haccepts hm
    exact hcallback

theorem produces_typedArg (hC : C.Covers c P) (hc : c.Agrees Γ) (hp : p.Ready C) {type : TypeId}
    {a : BoundArg} (ha : Γ.TypedArg type a) (hm : ∀ id ∈ a.value.methods, P id) :
    C.Produces p (c.expr a.value) (C.Holds a.value.type.valueType) := by
  obtain ⟨_, _, _, _, haccepts⟩ := ha
  obtain ⟨σ, he, hσ⟩ := haccepts.exists_hasType
  rw [he.type_eq, hσ]
  exact produces_accepted hC hc hp haccepts hm

theorem produces_attributes (hC : C.Covers c P) (hc : c.Agrees Γ) (hbuilder : C.builder = true)
    (hp : p.Ready C) {type : TypeId} {as : List BoundArg} (has : ∀ a ∈ as, Γ.TypedArg type a)
    (hm : ∀ id ∈ as.flatMap (·.value.methods), P id) :
    C.Produces p (c.attributes as) fun _ _ => True := by
  induction as generalizing p with
  | nil => exact .pure trivial
  | cons a as ih =>
    obtain ⟨ha, has⟩ := List.forall_mem_cons.1 has
    rw [List.flatMap_cons, List.forall_mem_append] at hm
    refine (produces_attr hbuilder hp (produces_typedArg hC hc hp ha hm.1) a.name).bind ?_
    exact fun _ q hpq _ => ih (hp.mono hpq) has hm.2

/-- The next child block gets a symbol. -/
theorem produces_handOver :
    C.Produces p (modifyGet fun s => (s.fragments, { s with fragments := s.fragments + 1 }))
      fun i q => i < q.fragments := by
  rintro s _ _ hs ⟨⟩
  have hmore : C.Collects p { p with fragments := p.fragments + 1 } :=
    ⟨rfl, List.prefix_rfl, ⟨[], by simp, rfl⟩, Nat.le_succ _⟩
  refine ⟨[], _, by simp, rfl, by simp, .more hmore, ?_, ?_, ?_⟩
  · exact { Point.Extends.refl p with fragments := Nat.le_succ _ }
  · exact ⟨hs.temps, hs.closed, hs.strings, hs.declarations, by simp [hs.fragments]⟩
  · simp [hs.fragments]

theorem produces_fragment (hC : C.Covers c P) (hbuilder : C.builder = true) (hp : p.Ready C)
    (content : MemberId) : C.Produces p (c.fragment content) fun _ _ => True := by
  refine produces_handOver.bind fun i q hpq hi => ?_
  have hq := hp.mono hpq
  have hsymbol : q.HasType C (.function (fragmentSymbol c.typeName i)) .renderFn :=
    .renderFn (hC.fragment i) (.inr (.inr ⟨hbuilder, i, hi, by rw [hC.owner]⟩))
  refine (produces_compute hq rfl rfl (by simpa using ⟨hsymbol, .self⟩)).bind
    fun v q₁ hq₁ hv => (Produces.string _).bind fun key q₂ hq₂ hkey => ?_
  refine produces_run (hq.mono (hq₁.trans hq₂)) rfl rfl ?_
  simpa using ⟨.builder hbuilder, hkey, hv.2.mono hq₂⟩

theorem produces_descriptor (hC : C.Covers c P) {id : TypeId} {symbol : TypeSymbol}
    (hid : c.table.get? id = some symbol) :
    C.Produces p (c.descriptor id) (C.Holds .ptr) :=
  .declare_bind (hC.descriptor hid) fun _ _ hq => .pure ⟨rfl, .descriptor hq⟩

theorem produces_renderOp (hC : C.Covers c P) (hc : c.Agrees Γ) (hbuilder : C.builder = true)
    (hp : p.Ready C) {op : BoundOp} (h : Γ.TypedOp op) (hm : ∀ id ∈ op.methods, P id) :
    C.Produces p (c.renderOp op) fun _ _ => True := by
  cases h with
  | openElement | text =>
    refine (Produces.string _).bind fun o q hpq ho => ?_
    exact produces_run (hp.mono hpq) rfl rfl (by simpa using ⟨.builder hbuilder, ho⟩)
  | attr he => exact produces_attr hbuilder hp (produces_typedAttr hC hc hp he hm) _
  | closeElement => exact produces_run hp rfl rfl (by simpa using .builder hbuilder)
  | value he hτ =>
    refine (produces_expr hC hc hp he (by rintro rfl; cases hτ)).bind fun v q hpq hv => ?_
    rw [← he.type_eq] at hτ hv
    obtain ⟨hparams, hresult, htype⟩ := contentRuntime_params hτ
    change C.Produces q (Lower.run (LowerScope.contentRuntime _).1
      [⟨.builder, .ptr⟩, ⟨v.operand, (LowerScope.contentRuntime _).2⟩]) _
    rw [htype]
    refine produces_run (hp.mono hpq) hparams.symm hresult ?_
    simpa using ⟨.builder hbuilder, hv.2⟩
  | component htype _ hargs =>
    rw [BoundOp.methods, List.forall_mem_append] at hm
    rw [← hc.table] at htype
    refine .bound_bind fun type hsome => ?_
    cases hsome
    refine (produces_descriptor hC htype).bind fun v q₁ hq₁ hv => ?_
    have hp₁ := hp.mono hq₁
    refine (produces_run hp₁ ?_ rfl (by simpa [hv.1] using ⟨.builder hbuilder, hv.2⟩)).bind
      fun _ q₂ hq₂ _ => ?_
    · simp [hv.1, Runtime.params]
    have hp₂ := hp₁.mono hq₂
    refine (produces_attributes hC hc hbuilder hp₂ hargs hm.1).bind fun _ q₃ hq₃ _ => ?_
    have hclose {q : Point} (hq : q.Ready C) :
        C.Produces q (Lower.run .closeComponent [⟨.builder, .ptr⟩]) fun _ _ => True :=
      produces_run hq rfl rfl (by simpa using .builder hbuilder)
    have hp₃ := hp₂.mono hq₃
    split
    · exact (produces_fragment hC hbuilder hp₃ _).bind fun _ q₄ hq₄ _ => hclose (hp₃.mono hq₄)
    · exact hclose hp₃

theorem produces_renderOps (hC : C.Covers c P) (hc : c.Agrees Γ) (hbuilder : C.builder = true)
    (hp : p.Ready C) {ops : List BoundOp} (h : ∀ op ∈ ops, Γ.TypedOp op)
    (hm : ∀ id ∈ BoundOp.allMethods ops, P id) :
    C.Produces p (c.renderOps ops) fun _ _ => True := by
  induction ops generalizing p with
  | nil => exact .pure trivial
  | cons op ops ih =>
    obtain ⟨hop, hops⟩ := List.forall_mem_cons.1 h
    rw [BoundOp.allMethods, List.forall_mem_append] at hm
    exact (produces_renderOp hC hc hbuilder hp hop hm.1).bind fun _ q hpq _ =>
      ih (hp.mono hpq) hops hm.2

end CodeScope

end Code

end ViewCompiler
