import ViewCompiler.Proofs.CodeTyping
import ViewCompiler.Proofs.StmtSimulation

/-!
Lowering of expressions emits typed code. `CodeScope.Produces` says it of a step that stays in its
block, with what is known of its result: an expression of a type gives a value that is represented
like that type (`CodeScope.produces_expr`).
-/

namespace ViewCompiler

namespace Code

open Lower

/-! ## Declarations -/

namespace Declaration

variable {d e : Declaration} {ds es : List Declaration}

theorem mem_insert_of_mem (h : e ∈ ds) : e ∈ insert d ds := by
  induction ds with
  | nil => cases h
  | cons x xs ih =>
    rw [insert]
    split
    · exact h
    · split
      · exact List.mem_cons_of_mem _ h
      · rcases List.mem_cons.1 h with rfl | h
        · exact List.mem_cons_self
        · exact List.mem_cons_of_mem _ (ih h)

theorem exists_mem_insert (d : Declaration) (ds : List Declaration) :
    ∃ e ∈ insert d ds, e.symbol = d.symbol := by
  induction ds with
  | nil => exact ⟨d, List.mem_singleton_self d, rfl⟩
  | cons x xs ih =>
    rw [insert]
    split
    · next h => exact ⟨x, List.mem_cons_self, h.symm⟩
    · split
      · exact ⟨d, List.mem_cons_self, rfl⟩
      · obtain ⟨e, he, hsymbol⟩ := ih
        exact ⟨e, List.mem_cons_of_mem _ he, hsymbol⟩

theorem subset_insertAll (es ds : List Declaration) : ds ⊆ insertAll es ds := by
  induction es generalizing ds with
  | nil => exact List.Subset.refl ds
  | cons e es ih => exact List.Subset.trans (fun d hd => mem_insert_of_mem hd) (ih (e.insert ds))

end Declaration

/-! ## Points -/

namespace Point

variable {C : CodeScope} {p q r : Point}

theorem Extends.refl (p : Point) : p.Extends p :=
  ⟨rfl, rfl, rfl, rfl, List.prefix_rfl, List.prefix_rfl, List.Subset.refl _, Nat.le_refl _⟩

theorem Extends.trans (h : p.Extends q) (h' : q.Extends r) : p.Extends r where
  entry := h'.entry.trans h.entry
  closed := h'.closed.trans h.closed
  start := h'.start.trans h.start
  slots := h'.slots.trans h.slots
  temps := h.temps.trans h'.temps
  strings := h.strings.trans h'.strings
  declarations := List.Subset.trans h.declarations h'.declarations
  fragments := Nat.le_trans h.fragments h'.fragments

theorem extends_assign (p : Point) (t : TempType) : p.Extends (p.assign t) :=
  { Extends.refl p with temps := List.prefix_append .. }

theorem getElem?_of_isPrefixOf {α : Type} {xs ys : List α} (h : xs <+: ys) {i : Nat} {a : α}
    (hi : xs[i]? = some a) : ys[i]? = some a := by
  obtain ⟨zs, rfl⟩ := h
  rw [List.getElem?_append_left (List.getElem?_eq_some_iff.1 hi).1, hi]

theorem Knows.mono {symbol : Bytes} (h : p.Knows C symbol) (hpq : p.Extends q) :
    q.Knows C symbol := by
  rcases h with h | ⟨d, hd, h⟩ | ⟨hbuilder, i, hi, h⟩
  · exact .inl h
  · exact .inr (.inl ⟨d, hpq.declarations hd, h⟩)
  · exact .inr (.inr ⟨hbuilder, i, Nat.lt_of_lt_of_le hi hpq.fragments, h⟩)

theorem HasType.mono {o : Operand} {type : ValueType} (h : p.HasType C o type)
    (hpq : p.Extends q) : q.HasType C o type := by
  cases h with
  | int => exact .int
  | bool => exact .bool
  | null => exact .null
  | temp hstart hi => exact .temp (hpq.start ▸ hstart) (getElem?_of_isPrefixOf hpq.temps hi)
  | param hi => exact .param hi
  | self => exact .self
  | builder hb => exact .builder hb
  | str hi => exact .str (getElem?_of_isPrefixOf hpq.strings hi)
  | descriptor h => exact .descriptor (h.mono hpq)
  | initFn h h' => exact .initFn h (h'.mono hpq)
  | renderFn h h' => exact .renderFn h (h'.mono hpq)

theorem PointsTo.mono {a : Address} {type : ValueType} (h : p.PointsTo C a type)
    (hpq : p.Extends q) : q.PointsTo C a type := by
  cases h with
  | temp hstart hi => exact .temp (hpq.start ▸ hstart) (getElem?_of_isPrefixOf hpq.temps hi)
  | slot hi htype => exact .slot (hpq.slots ▸ hi) htype

/-- Every parameter has its slot, and the block starts with a temporary that can be assigned. -/
structure Sound (C : CodeScope) (p : Point) : Prop where
  start : p.start ≤ p.temps.length
  slots : p.slots = C.params.length

/-- A sound point at which an instruction can stand. -/
structure Ready (C : CodeScope) (p : Point) : Prop extends p.Sound C where
  opened : p.closed = false

theorem Ready.mono (h : p.Ready C) (hpq : p.Extends q) : q.Ready C where
  start := hpq.start ▸ Nat.le_trans h.start hpq.temps.length_le
  slots := hpq.slots.trans h.slots
  opened := hpq.closed.trans h.opened

theorem Ready.hasType_assign (h : p.Ready C) (type : ValueType) :
    (p.assign (.value type)).HasType C (.temp p.temps.length) type :=
  .temp h.start (by simp [assign])

theorem Ready.pointsTo_assign (h : p.Ready C) (type : ValueType) :
    (p.assign (.address type)).PointsTo C (.temp p.temps.length) type :=
  .temp h.start (by simp [assign])

/-- The point agrees with what was lowered. -/
structure At (p : Point) (s : LowerState) : Prop where
  temps : s.temps = p.temps.length
  closed : s.terminated = p.closed
  strings : s.strings = p.strings
  declarations : s.declarations = p.declarations
  fragments : s.fragments = p.fragments

end Point

/-! ## Straight code -/

namespace CodeScope

variable {C : CodeScope} {p q : Point} {α β : Type}

/-- From a state at `p`, the step emits straight code to a point of the same block, where `Q` holds
of its result. -/
def Produces (C : CodeScope) (p : Point) (x : Lower α) (Q : α → Point → Prop) : Prop :=
  ∀ s a s', p.At s → StateT.run x s = .ok (a, s') → ∃ code q, s'.body = s.body ++ code ∧
    s'.labels = s.labels ∧ (∀ i ∈ code, i.isStraight) ∧ C.Path p code q ∧ p.Extends q ∧ q.At s' ∧
      Q a q

namespace Produces

variable {x : Lower α} {f : α → Lower β} {Q : α → Point → Prop} {R : β → Point → Prop}

theorem pure {a : α} (h : Q a p) : C.Produces p (pure a) Q := by
  rintro s _ _ hs ⟨⟩
  exact ⟨[], p, by simp, rfl, by simp, .nil, .refl p, hs, h⟩

theorem bind (hx : C.Produces p x Q)
    (hf : ∀ a q, p.Extends q → Q a q → C.Produces q (f a) R) : C.Produces p (x >>= f) R := by
  intro s b s'' hs hrun
  obtain ⟨a, s', hxrun, hfrun⟩ := run_bind_eq_ok.1 hrun
  obtain ⟨xs, q, hbody, hlabels, hstraight, hpath, hpq, hs', hQ⟩ := hx s a s' hs hxrun
  obtain ⟨ys, r, hbody', hlabels', hstraight', hpath', hqr, hs'', hR⟩ :=
    hf a q hpq hQ s' b s'' hs' hfrun
  refine ⟨xs ++ ys, r, ?_, hlabels'.trans hlabels, ?_, hpath.append hpath', hpq.trans hqr, hs'', hR⟩
  · rw [hbody', hbody, List.append_assoc]
  · exact List.forall_mem_append.2 ⟨hstraight, hstraight'⟩

theorem bound_bind {o : Option α} (h : ∀ a, o = some a → C.Produces p (f a) R) :
    C.Produces p (bound o >>= f) R := by
  intro s b s' hs hrun
  cases o with
  | none => cases hrun
  | some a => exact h a rfl s b s' hs hrun

theorem imp {Q' : α → Point → Prop} (h : C.Produces p x Q)
    (hQ : ∀ a q, p.Extends q → Q a q → Q' a q) : C.Produces p x Q' := by
  intro s a s' hs hrun
  obtain ⟨code, q, hbody, hlabels, hstraight, hpath, hpq, hs', hq⟩ := h s a s' hs hrun
  exact ⟨code, q, hbody, hlabels, hstraight, hpath, hpq, hs', hQ a q hpq hq⟩

theorem map {f : α → β} (h : C.Produces p x Q) (hQ : ∀ a q, p.Extends q → Q a q → R (f a) q) :
    C.Produces p (x >>= fun a => Pure.pure (f a)) R :=
  h.bind fun a q hpq hq => .pure (hQ a q hpq hq)

/-- An instruction that gives nothing. -/
theorem emit {i : Instr} (hp : p.Ready C) (h : C.Runs p i) :
    C.Produces p (Lower.emit i) fun _ q => q = p := by
  rintro s _ _ hs ⟨⟩
  refine ⟨[i], p, rfl, rfl, ?_, .single (.run hp.opened h), .refl p, ?_, rfl⟩
  · simpa using h.isStraight
  · exact ⟨hs.temps, hs.closed, hs.strings, hs.declarations, hs.fragments⟩

/-- An instruction whose result is used by what follows. -/
theorem assign {i : Nat → Instr} {rest : Nat → Lower β} {t : TempType} (hp : p.Ready C)
    (h : C.Yields p (i p.temps.length) t)
    (hrest : C.Produces (p.assign t) (rest p.temps.length) R) :
    C.Produces p (freshTemp >>= fun d => Lower.emit (i d) >>= fun _ => rest d) R := by
  intro s b s' hs hrun
  obtain ⟨_, _, ⟨⟩, hrun⟩ := run_bind_eq_ok.1 hrun
  obtain ⟨_, _, ⟨⟩, hrun⟩ := run_bind_eq_ok.1 hrun
  rw [hs.temps] at hrun
  have hat : (p.assign t).At
      { s with body := s.body ++ [i p.temps.length], temps := p.temps.length + 1 } :=
    ⟨by simp [Point.assign], hs.closed, hs.strings, hs.declarations, hs.fragments⟩
  obtain ⟨code, q, hbody, hlabels, hstraight, hpath, hpq, hs', hR⟩ := hrest _ b s' hat hrun
  refine ⟨i p.temps.length :: code, q, ?_, hlabels, ?_, .cons (.yield hp.opened h) hpath,
    (p.extends_assign t).trans hpq, hs', hR⟩
  · simp [hbody]
  · exact List.forall_mem_cons.2 ⟨h.isStraight, hstraight⟩

/-- An instruction that computes a value. -/
theorem value {i : Nat → Instr} {type : ValueType} (hp : p.Ready C)
    (h : C.Yields p (i p.temps.length) (.value type)) :
    C.Produces p (do let d ← freshTemp; Lower.emit (i d); Pure.pure (⟨.temp d, type⟩ : Value))
      fun v q => v.type = type ∧ q.HasType C v.operand type :=
  .assign hp h (.pure ⟨rfl, hp.hasType_assign type⟩)

theorem string (text : Bytes) :
    C.Produces p (Lower.string text) fun o q => q.HasType C o .ptr := by
  intro s o s' hs hrun
  replace hrun := Except.ok.inj hrun
  dsimp only at hrun
  split at hrun
  · next i hi =>
    obtain ⟨rfl, rfl⟩ := Prod.mk.inj hrun
    obtain ⟨hlt, htext, -⟩ := List.findIdx?_eq_some_iff_getElem.1 hi
    have hget : p.strings[i]? = some text := by
      rw [← hs.strings, List.getElem?_eq_getElem hlt]
      simpa using htext
    exact ⟨[], p, by simp, rfl, by simp, .nil, .refl p, hs, .str hget⟩
  · obtain ⟨rfl, rfl⟩ := Prod.mk.inj hrun
    have hmore : C.Collects p { p with strings := p.strings ++ [text] } :=
      ⟨rfl, List.prefix_append .., ⟨[], by simp, rfl⟩, Nat.le_refl _⟩
    refine ⟨[], _, by simp, rfl, by simp, .more hmore, ?_, ?_, .str ?_⟩
    · exact { Point.Extends.refl p with strings := List.prefix_append .. }
    · exact ⟨hs.temps, hs.closed, by simp [hs.strings], hs.declarations, hs.fragments⟩
    · simp [hs.strings]

theorem declare {d : Declaration} (hd : C.Imports d) :
    C.Produces p (Lower.declare d) fun _ q => q.Knows C d.symbol := by
  rintro s _ _ hs ⟨⟩
  have hmore : C.Collects p { p with declarations := d.insert p.declarations } :=
    ⟨rfl, List.prefix_rfl, ⟨[d], by simpa using hd, rfl⟩, Nat.le_refl _⟩
  refine ⟨[], _, by simp, rfl, by simp, .more hmore, ?_, ?_, .inr (.inl ?_)⟩
  · exact { Point.Extends.refl p with declarations := fun e he => Declaration.mem_insert_of_mem he }
  · exact ⟨hs.temps, hs.closed, hs.strings, by simp [hs.declarations], hs.fragments⟩
  · exact d.exists_mem_insert _

end Produces

end CodeScope

end Code

/-! ## Methods that a body names -/

namespace BoundExpr

/-- The methods that an expression names. -/
def methods : BoundExpr → List MethodId
  | name _ _ (some (.method id)) _ => [id]
  | unary _ _ operand _ => operand.methods
  | binary _ _ left right _ => left.methods ++ right.methods
  | _ => []

end BoundExpr

namespace BoundStmt

mutual

/-- The methods that a statement names or calls. -/
def methods : BoundStmt → List MethodId
  | assign _ _ _ value => value.methods
  | call _ (some (.method id _)) args => id :: args.flatMap BoundExpr.methods
  | call _ _ args => args.flatMap BoundExpr.methods
  | cond _ condition thenBody elseBody =>
    condition.methods ++ (allMethods thenBody ++ allMethods elseBody)
  | ret _ => []

def allMethods : List BoundStmt → List MethodId
  | [] => []
  | s :: ss => methods s ++ allMethods ss

end

end BoundStmt

namespace BoundOp

mutual

/-- The methods that a render operation names. -/
def methods : BoundOp → List MethodId
  | attr _ _ e | value _ e => e.methods
  | component _ _ args _ child _ => args.flatMap (·.value.methods) ++ allMethods child
  | _ => []

def allMethods : List BoundOp → List MethodId
  | [] => []
  | op :: ops => methods op ++ allMethods ops

end

end BoundOp

namespace Code

open Lower

/-! ## Scopes -/

/-- The scope gives names the meaning that typing gives them. -/
structure LowerScope.Agrees (c : LowerScope) (Γ : TypingContext) : Prop where
  table : c.table = Γ.table
  current : c.current = Γ.current
  params : c.params = Γ.params.map ValueType.ofName

namespace CodeScope

/-- What `d` declares can be referred to: the module defines it if it declares its type, and may
take it from elsewhere if not. -/
def Has (C : CodeScope) (c : LowerScope) (id : TypeId) (d : Declaration) : Prop :=
  if c.model.declares id then C.Defines d.symbol else C.Imports d

/-- The code of the scope `c` may rely on what `C` says; of methods, on those with `P`. -/
structure Covers (C : CodeScope) (c : LowerScope) (P : MethodId → Prop) : Prop where
  owner : C.owner = c.typeName
  slots : C.slots = (c.table.layout c.current).map c.memberType
  params : C.params = c.params
  method : ∀ {id owner f}, P id → c.table.get? id.owner = some owner → c.table.method? id = some f →
    C.Provides (methodSymbol owner.fullName f.name) (.ptr :: f.paramTypes.map ValueType.ofName) ∧
      C.Has c id.owner (.function (methodSymbol owner.fullName f.name)
        (.ptr :: f.paramTypes.map ValueType.ofName))
  init : ∀ {id symbol}, c.table.get? id = some symbol →
    C.Provides (initSymbol (c.table.nameOf id)) [.ptr] ∧
      C.Has c id (.function (initSymbol (c.table.nameOf id)) [.ptr])
  descriptor : ∀ {id symbol}, c.table.get? id = some symbol →
    C.Has c id (.descriptor (descriptorSymbol (c.table.nameOf id)))
  fragment : ∀ i, C.Provides (fragmentSymbol c.typeName i) [.ptr, .ptr]

variable {C : CodeScope} {c : LowerScope} {Γ : TypingContext} {P : MethodId → Prop} {p : Point}

/-- What follows once something is declared, if it has to be. -/
theorem Produces.declare_bind {id : TypeId} {d : Declaration} {β : Type} {rest : Lower β}
    {R : β → Point → Prop} (hd : C.Has c id d)
    (hrest : ∀ q, p.Extends q → q.Knows C d.symbol → C.Produces q rest R) :
    C.Produces p (if ¬ c.model.declares id then Lower.declare d >>= fun _ => rest else rest) R := by
  rw [Has] at hd
  split at hd
  · next h =>
    rw [if_neg (by simp [h])]
    exact hrest p (.refl p) (.inl hd)
  · next h =>
    rw [if_pos (by simp [h])]
    exact (Produces.declare hd).bind fun _ q hpq hq => hrest q hpq hq

/-- A value of this type. -/
def Holds (C : CodeScope) (type : ValueType) (v : Value) (q : Point) : Prop :=
  v.type = type ∧ q.HasType C v.operand type

theorem Holds.mono {type : ValueType} {v : Value} {q : Point} (h : C.Holds type v p)
    (hpq : p.Extends q) : C.Holds type v q :=
  ⟨h.1, h.2.mono hpq⟩

/-! ## Expressions -/

theorem produces_compute {f : Runtime} {type : ValueType} {args : List Value} (hp : p.Ready C)
    (htypes : args.map (·.type) = f.params) (hresult : f.result = some type)
    (hargs : ∀ a ∈ args, p.HasType C a.operand a.type) :
    C.Produces p (compute f type args) (C.Holds type) := by
  have hcall : p.Applies C (.runtime f) args (some type) := by
    refine ⟨?_, hargs⟩
    rw [htypes, ← hresult]
    exact .runtime
  exact Produces.value (i := fun d => .call (some (d, type)) (.runtime f) args) hp (.call hcall)

theorem produces_method (hC : C.Covers c P) {id : MethodId} {f : MethodSymbol} (hid : P id)
    (hf : c.table.method? id = some f) :
    C.Produces p (c.method id) fun symbol q =>
      C.Provides symbol (.ptr :: f.paramTypes.map ValueType.ofName) ∧ q.Knows C symbol := by
  refine .bound_bind fun owner howner => .bound_bind fun f' hf' => ?_
  obtain rfl : f' = f := by simpa [hf] using hf'.symm
  obtain ⟨hprovides, hhas⟩ := hC.method hid howner hf
  exact .declare_bind hhas fun q _ hq => .pure ⟨hprovides, hq⟩

/-- The slot of a data member has its type. -/
theorem slotType?_slotOf (hC : C.Covers c P) {id : MemberId}
    (hid : id ∈ c.table.layout c.current) : C.slotType? (c.slotOf id) = some (c.memberType id) := by
  have hlt : (c.table.layout c.current).idxOf id < (c.table.layout c.current).length :=
    List.idxOf_lt_length_iff.2 hid
  have hfind : (c.table.layout c.current).findIdx? (· = id) =
      some ((c.table.layout c.current).idxOf id) :=
    List.findIdx?_eq_some_of_exists ⟨id, hid, by simp⟩
  rw [LowerScope.slotOf, hfind, Option.map_some, Option.getD_some, slotType?, hC.slots,
    List.getElem?_map, List.getElem?_eq_getElem hlt, List.getElem_idxOf hlt]
  rfl

theorem produces_fieldAddress (hC : C.Covers c P) (hp : p.Ready C) {id : MemberId}
    (hid : id ∈ c.table.layout c.current) :
    C.Produces p (c.fieldAddress id) fun a q => q.PointsTo C a (c.memberType id) := by
  refine Produces.assign (i := fun d => .field d c.typeName (c.slotOf id)) hp ?_
    (.pure (hp.pointsTo_assign _))
  rw [← hC.owner]
  exact .field (slotType?_slotOf hC hid)

theorem memberType_eq {id : MemberId} {m : MemberSymbol} (hm : c.table.member? id = some m) :
    c.memberType id = .ofName m.type := by
  simp [LowerScope.memberType, hm]

/-- A name that is not the name of a method. -/
theorem produces_read (hC : C.Covers c P) (hc : c.Agrees Γ) (hp : p.Ready C) {b : Binding} {τ : Ty}
    (hb : Γ.Binds b τ) (hτ : τ ≠ .methodGroup) :
    C.Produces p (c.read b) (C.Holds τ.valueType) := by
  cases hb with
  | @param i name hi =>
    have hparam : c.params[i]? = some (ValueType.ofName name) := by simp [hc.params, hi]
    refine .bound_bind fun type htype => ?_
    obtain rfl : ValueType.ofName name = type := by simpa [hparam] using htype
    rw [Ty.valueType_ofName]
    refine Produces.value (i := fun d => .load d _ (.slot i)) hp (.load (.slot ?_ ?_))
    · rw [hp.slots, hC.params]
      exact (List.getElem?_eq_some_iff.1 hparam).1
    · rw [hC.params, hparam]
  | @member id m hid hm =>
    rw [← hc.table, ← hc.current] at hid
    rw [Ty.valueType_ofName, ← memberType_eq (hc.table ▸ hm)]
    refine (produces_fieldAddress hC hp hid).bind fun a q hpq ha => ?_
    exact Produces.value (i := fun d => .load d (c.memberType id) a) (hp.mono hpq) (.load ha)
  | method => exact absurd rfl hτ

/-- A method without parameters becomes a callback. -/
theorem produces_callback (hC : C.Covers c P) (hp : p.Ready C) {id : MethodId} {f : MethodSymbol}
    (hid : P id) (hf : c.table.method? id = some f) (hparams : f.paramTypes = []) :
    C.Produces p (c.read (.method id)) (C.Holds .ptr) := by
  refine (produces_method hC hid hf).bind fun symbol q hpq hq => ?_
  rw [hparams] at hq
  refine produces_compute (hp.mono hpq) rfl rfl ?_
  simpa using ⟨.initFn hq.1 hq.2, .self⟩

theorem produces_arith (hp : p.Ready C) (op : ArithOp) {l r : Operand}
    (hl : p.HasType C l .i32) (hr : p.HasType C r .i32) :
    C.Produces p (LowerScope.arith op l r) (C.Holds .i32) :=
  Produces.value (i := fun d => .arith d op l r) hp (.arith hl hr)

theorem produces_logic (hp : p.Ready C) (op : LogicOp) {l r : Operand}
    (hl : p.HasType C l .i1) (hr : p.HasType C r .i1) :
    C.Produces p (LowerScope.logic op l r) (C.Holds .i1) :=
  Produces.value (i := fun d => .logic d op l r) hp (.logic hl hr)

theorem produces_compare (hp : p.Ready C) (pred : Predicate) {type : ValueType} {l r : Operand}
    (hl : p.HasType C l type) (hr : p.HasType C r type) :
    C.Produces p (LowerScope.compare pred type l r) (C.Holds .i1) :=
  Produces.value (i := fun d => .compare d pred type l r) hp (.compare hl hr)

/-- Scalars become text for concatenation. -/
theorem produces_toText (hp : p.Ready C) {τ : Ty} (hτ : τ.isScalar) {v : Value}
    (hv : C.Holds τ.valueType v p) :
    C.Produces p (LowerScope.toText v τ) (C.Holds .ptr) := by
  cases τ with
  | string => exact .pure hv
  | int | bool => exact produces_compute hp rfl rfl (List.forall_mem_singleton.2 hv.2)
  | _ => cases hτ

theorem produces_concat (hp : p.Ready C) {τ₁ τ₂ : Ty} (h₁ : τ₁.isScalar) (h₂ : τ₂.isScalar)
    {l r : Value} (hl : C.Holds τ₁.valueType l p) (hr : C.Holds τ₂.valueType r p) :
    C.Produces p (LowerScope.concat l r τ₁ τ₂) (C.Holds .ptr) := by
  refine (produces_toText hp h₁ hl).bind fun x q hpq hx => ?_
  refine (produces_toText (hp.mono hpq) h₂ (hr.mono hpq)).bind fun y q' hqq' hy => ?_
  refine produces_compute (hp.mono (hpq.trans hqq')) rfl rfl ?_
  simpa using ⟨hx.2.mono hqq', hy.2⟩

/-- Scalars of one type are compared. -/
theorem produces_equality (hp : p.Ready C) (equal : Bool) {τ : Ty} {l r : Value}
    (hl : C.Holds τ.valueType l p) (hr : C.Holds τ.valueType r p) :
    C.Produces p (LowerScope.equality equal l r τ) (C.Holds .i1) := by
  rw [LowerScope.equality]
  split
  · next hτ =>
    subst hτ
    refine (produces_compute hp rfl rfl (by simpa using ⟨hl.2, hr.2⟩)).bind fun x q hpq hx => ?_
    split
    · exact .pure hx
    · exact produces_logic (hp.mono hpq) _ hx.2 .bool
  · rw [hl.1]
    exact produces_compare hp _ hl.2 hr.2

theorem produces_binary (hp : p.Ready C) {op : BinaryOp} {τ₁ τ₂ τ : Ty}
    (hτ : BodyScope.binaryType? op τ₁ τ₂ = some τ) {l r : Value}
    (hl : C.Holds τ₁.valueType l p) (hr : C.Holds τ₂.valueType r p) :
    C.Produces p (LowerScope.binary op l r τ₁ τ₂) (C.Holds τ.valueType) := by
  cases op with
  | add =>
    simp only [BodyScope.binaryType?] at hτ
    rw [LowerScope.binary]
    split at hτ
    · next h =>
      obtain ⟨rfl, rfl⟩ := h
      cases hτ
      rw [if_pos ⟨rfl, rfl⟩]
      exact produces_arith hp _ hl.2 hr.2
    · next hne =>
      rw [if_neg hne]
      split at hτ
      · next h =>
        cases hτ
        exact produces_concat hp h.2.1 h.2.2 hl hr
      · cases hτ
  | sub | mul | div | mod =>
    obtain ⟨⟨rfl, rfl⟩, hτ⟩ := Option.ite_none_right_eq_some.1 hτ
    cases hτ
    exact produces_arith hp _ hl.2 hr.2
  | eq | ne =>
    simp only [BodyScope.binaryType?, Option.ite_none_right_eq_some, Option.some.injEq] at hτ
    obtain ⟨⟨rfl, -⟩, rfl⟩ := hτ
    exact produces_equality hp _ hl hr
  | lt | gt | le | ge =>
    obtain ⟨⟨rfl, rfl⟩, hτ⟩ := Option.ite_none_right_eq_some.1 hτ
    cases hτ
    exact produces_compare hp _ hl.2 hr.2
  | and | or =>
    obtain ⟨⟨rfl, rfl⟩, hτ⟩ := Option.ite_none_right_eq_some.1 hτ
    cases hτ
    exact produces_logic hp _ hl.2 hr.2

theorem ne_methodGroup_of_binaryType? {op : BinaryOp} {τ₁ τ₂ τ : Ty}
    (h : BodyScope.binaryType? op τ₁ τ₂ = some τ) : τ₁ ≠ .methodGroup ∧ τ₂ ≠ .methodGroup := by
  constructor <;> rintro rfl <;> cases op <;> simp only [BodyScope.binaryType?] at h <;>
    grind [Ty.isScalar]

/-- An expression that is not the name of a method. -/
theorem produces_expr (hC : C.Covers c P) (hc : c.Agrees Γ) (hp : p.Ready C) {e : BoundExpr} {τ : Ty}
    (he : Γ.HasType e τ) (hτ : τ ≠ .methodGroup) :
    C.Produces p (c.expr e) (C.Holds τ.valueType) := by
  induction he generalizing p with
  | int => exact .pure ⟨rfl, .int⟩
  | string => exact (Produces.string _).map fun o q _ ho => ⟨rfl, ho⟩
  | bool => exact .pure ⟨rfl, .bool⟩
  | name hb =>
    refine .bound_bind fun b hsome => ?_
    cases hsome
    exact produces_read hC hc hp hb hτ
  | @unary e op s he ih =>
    refine (ih hp hτ).bind fun v q hpq hv => ?_
    cases op with
    | not => exact produces_logic (hp.mono hpq) _ hv.2 .bool
    | neg => exact produces_arith (hp.mono hpq) _ .int hv.2
  | binary hl hr hop ihl ihr =>
    obtain ⟨hτ₁, hτ₂⟩ := ne_methodGroup_of_binaryType? hop
    refine (ihl hp hτ₁).bind fun v q hpq hv => ?_
    refine (ihr (hp.mono hpq) hτ₂).bind fun w q' hqq' hw => ?_
    rw [hl.type_eq, hr.type_eq]
    exact produces_binary (hp.mono (hpq.trans hqq')) hop (hv.mono hqq') hw

/-- A value that goes where `τ` is expected. -/
theorem produces_accepted (hC : C.Covers c P) (hc : c.Agrees Γ) (hp : p.Ready C) {e : BoundExpr}
    {τ : Ty} (he : Γ.Accepts τ e) (hm : ∀ id ∈ e.methods, P id) :
    C.Produces p (c.expr e) (C.Holds τ.valueType) := by
  cases he with
  | same he hτ => exact produces_expr hC hc hp he hτ
  | derived hτ he =>
    subst hτ
    have hobject := produces_expr hC hc hp he (by simp)
    exact hobject
  | method hτ _ hf hparams =>
    subst hτ
    refine .bound_bind fun b hsome => ?_
    cases hsome
    rw [← hc.table] at hf
    exact produces_callback hC hp (hm _ (by simp [BoundExpr.methods])) hf hparams

/-! ## Assignments and calls -/

theorem produces_write (hC : C.Covers c P) (hc : c.Agrees Γ) (hp : p.Ready C) {b : Binding} {τ : Ty}
    (hb : Γ.Binds b τ) (hτ : τ ≠ .methodGroup) {v : Value} (hv : C.Holds τ.valueType v p) :
    C.Produces p (c.write v b) fun _ _ => True := by
  cases hb with
  | @param i name hi =>
    rw [Ty.valueType_ofName] at hv
    have hparam : C.params[i]? = some (ValueType.ofName name) := by simp [hC.params, hc.params, hi]
    refine (Produces.emit hp ?_).imp fun _ _ _ _ => trivial
    rw [hv.1]
    refine .store hv.2 (.slot ?_ hparam)
    rw [hp.slots]
    exact (List.getElem?_eq_some_iff.1 hparam).1
  | @member id m hid hm =>
    rw [← hc.table, ← hc.current] at hid
    rw [Ty.valueType_ofName, ← memberType_eq (hc.table ▸ hm)] at hv
    refine (produces_fieldAddress hC hp hid).bind fun a q hpq ha => ?_
    exact (Produces.emit (hp.mono hpq) (.store (hv.2.mono hpq) ha)).imp fun _ _ _ _ => trivial
  | method => exact absurd rfl hτ

theorem produces_arguments (hC : C.Covers c P) (hc : c.Agrees Γ) (hp : p.Ready C)
    {types : List Bytes} {es : List BoundExpr}
    (hes : List.Forall₂ (fun type e => Γ.Accepts (.ofName Γ.table type) e) types es)
    (hm : ∀ id ∈ es.flatMap BoundExpr.methods, P id) :
    C.Produces p (c.arguments (types.map ValueType.ofName) es) fun args q =>
      args.map (·.type) = types.map ValueType.ofName ∧ ∀ a ∈ args, q.HasType C a.operand a.type := by
  induction hes generalizing p with
  | nil => exact .pure ⟨rfl, by simp⟩
  | @cons type e types es he _ ih =>
    rw [List.flatMap_cons, List.forall_mem_append] at hm
    refine (produces_accepted hC hc hp he hm.1).bind fun v q hpq hv => ?_
    refine (ih (hp.mono hpq) hm.2).bind fun args q' hqq' hargs => .pure ?_
    rw [Ty.valueType_ofName] at hv
    refine ⟨by simp [hargs.1], List.forall_mem_cons.2 ⟨hv.2.mono hqq', hargs.2⟩⟩

theorem produces_call (hC : C.Covers c P) (hc : c.Agrees Γ) (hp : p.Ready C) {id : MethodId}
    {f : MethodSymbol} {receiver : Option Binding} {args : List BoundExpr} (hid : P id)
    (hf : Γ.table.method? id = some f) (hreceiver : Γ.Receives id receiver)
    (hargs : List.Forall₂ (fun type e => Γ.Accepts (.ofName Γ.table type) e) f.paramTypes args)
    (hm : ∀ id ∈ args.flatMap BoundExpr.methods, P id) :
    C.Produces p (c.call args (.method id receiver)) fun _ _ => True := by
  rw [← hc.table] at hf
  have hrest {q : Point} (hq : q.Ready C) {object : Operand} (hobject : q.HasType C object .ptr) :
      C.Produces q (do
        let method ← bound (c.table.method? id)
        let args ← c.arguments (method.paramTypes.map ValueType.ofName) args
        let symbol ← c.method id
        Lower.emit (.call none (.method symbol) (⟨object, .ptr⟩ :: args))) fun _ _ => True := by
    refine .bound_bind fun f' hf' => ?_
    obtain rfl : f = f' := by simpa [hf] using hf'
    refine (produces_arguments hC hc hq hargs hm).bind fun values q₁ hq₁ hvalues => ?_
    refine (produces_method hC hid hf).bind fun symbol q₂ hq₂ hsymbol => ?_
    have hcall : q₂.Applies C (.method symbol) (⟨object, .ptr⟩ :: values) none := by
      refine ⟨?_, List.forall_mem_cons.2 ⟨hobject.mono (hq₁.trans hq₂), fun a ha => ?_⟩⟩
      · rw [List.map_cons, hvalues.1]
        exact .method hsymbol.1 hsymbol.2
      · exact (hvalues.2 a ha).mono hq₂
    exact (Produces.emit (hq.mono (hq₁.trans hq₂)) (.call hcall)).imp fun _ _ _ _ => trivial
  cases hreceiver with
  | this => exact hrest hp .self
  | object hb =>
    exact ((produces_read hC hc hp hb (by simp)).bind fun v q hpq hv =>
      hrest (hp.mono hpq) hv.2)

theorem produces_callback_call (hC : C.Covers c P) (hc : c.Agrees Γ) (hp : p.Ready C) {b : Binding}
    (hb : Γ.Binds b .callback) :
    C.Produces p (c.call [] (.callback b)) fun _ _ => True := by
  refine (produces_read hC hc hp hb (by simp)).bind fun v q hpq hv => ?_
  have hcall : q.Applies C (.runtime .invokeCallback) [⟨v.operand, .ptr⟩] none :=
    ⟨.runtime, List.forall_mem_singleton.2 hv.2⟩
  exact (Produces.emit (hp.mono hpq) (.call hcall)).imp fun _ _ _ _ => trivial

end CodeScope

end Code

end ViewCompiler
