import ViewCompiler.Proofs.Simulation

/-!
The code of typed expressions computes their values (`Runs.simulates_expr`). Types decide which
instructions are emitted, values decide how an expression is evaluated; typing makes the two agree.
-/

namespace ViewCompiler

open Code Lower

/-- How values of a type are represented. -/
def Ty.valueType : Ty → ValueType
  | .int => .i32
  | .bool => .i1
  | _ => .ptr

theorem Ty.valueType_ofName (t : SymbolTable) (name : Bytes) :
    (Ty.ofName t name).valueType = .ofName name := by
  rw [Ty.ofName, ValueType.ofName]
  split
  · rfl
  · split
    · next h => subst h; rfl
    · split
      · rfl
      · split
        · rfl
        · split
          · rfl
          · split <;> rfl

namespace Code

variable {W P : Type}

namespace Val

variable {v : Val P}

theorem eq_i1 (h : v.hasType .i1) : ∃ b, v = .i1 b := by
  cases v with
  | i1 b => exact ⟨b, rfl⟩
  | i32 | ptr | code => cases h

theorem eq_i32 (h : v.hasType .i32) : ∃ n, v = .i32 n := by
  cases v with
  | i32 n => exact ⟨n, rfl⟩
  | i1 | ptr | code => cases h

theorem eq_ptr (h : v.hasType .ptr) : ∃ p, v = .ptr p := by
  cases v with
  | ptr p => exact ⟨p, rfl⟩
  | i1 | i32 | code => cases h

end Val

/-- The activation runs code that was lowered in scope `c`, and the evaluator gives the meaning of
the same body. -/
structure Runs (c : LowerScope) (E : Evaluator W P) (A : Activation W P) : Prop where
  table : c.table = E.context.table
  current : c.current = E.context.current
  params : c.params = E.context.params.map ValueType.ofName
  function : A.function.params = c.params
  host : A.host = E.host
  type : A.layout.type = c.typeName
  slots : A.layout.slots = E.layout.map E.memberType

/-- The operands of a call have these values. -/
def Activation.DenotesAll (A : Activation W P) (args : List Value) (vs : List (Val P)) (n : Nat)
    (fr : Frame W P) : Prop :=
  List.Forall₂ (fun a v => A.Denotes a.type a.operand v n fr) args vs

theorem Activation.stable_denotesAll (A : Activation W P) (args : List Value) (vs : List (Val P)) :
    Stable (A.DenotesAll args vs) := by
  intro n n' fr fr' h hn hkeeps
  exact h.imp fun a v hv => A.stable_denotes a.type a.operand v hv hn hkeeps

theorem Activation.DenotesAll.mapM {A : Activation W P} {args : List Value} {vs : List (Val P)}
    {n : Nat} {fr : Frame W P} (h : A.DenotesAll args vs n fr) :
    args.mapM (fun a => A.operand fr a.type a.operand) = some vs := by
  induction h with
  | nil => rfl
  | cons hv _ ih => rw [List.mapM_cons, hv.1, ih]; rfl

/-! ## Members and calls -/

theorem nodup_layout (E : Evaluator W P) : E.layout.Nodup := SymbolTable.nodup_layout ..

/-- Writing a member by its position in the object. -/
theorem modify_layout (E : Evaluator W P) (id : MemberId) (members : MemberId → Cell P)
    (f : Cell P → Cell P) :
    (E.layout.map members).modify (E.layout.idxOf id) f =
      E.layout.map fun m => if m = id then f (members id) else members m := by
  refine List.ext_getElem (by simp) fun i hmodify hmap => ?_
  have hi : i < E.layout.length := by simpa using hmap
  rw [List.getElem_modify]
  simp only [List.getElem_map]
  have hiff : E.layout.idxOf id = i ↔ E.layout[i] = id := by
    constructor
    · rintro rfl
      exact List.getElem_idxOf hi
    · rintro rfl
      exact (nodup_layout E).idxOf_getElem i _
  split
  · next h => rw [if_pos (hiff.1 h), hiff.1 h]
  · next h => rw [if_neg fun h' => h (hiff.2 h')]

namespace Represents

variable {E : Evaluator W P} {A : Activation W P} {st : Store W P} {fr : Frame W P}

/-- The machine and the evaluation get the same answer. -/
theorem answer (h : Represents E A st fr) (hhost : A.host = E.host) (c : Call P) :
    Represents E A (E.answer c st).2 (fr.call A.host c).1 ∧
      (fr.call A.host c).2 = (E.answer c st).1 := by
  simp only [Frame.call, Evaluator.answer, h.world, h.object, hhost]
  refine ⟨⟨rfl, ?_, by rw [h.trace], h.slots⟩, trivial⟩
  refine List.ext_getElem (by simp) fun i _ hmap => ?_
  have hi : i < E.layout.length := by simpa using hmap
  simp [(nodup_layout E).idxOf_getElem i hi]

end Represents

theorem Runtime.hasType_of_result {f : Runtime} {type : ValueType} (h : f.result = some type)
    (c : Cell P) : (c.load type).hasType type := by
  cases f <;> cases h <;> rfl

namespace Runs

variable {c : LowerScope} {E : Evaluator W P} {A : Activation W P}

/-- A runtime function is called for its result. -/
theorem simulates_compute (hr : Runs c E A) {f : Runtime} {type : ValueType} {args : List Value}
    {vs : List (Val P)} (hargs : args.map (·.type) = f.params) (hresult : f.result = some type) :
    Simulates E A (A.DenotesAll args vs) (compute f type args) (E.compute f type vs)
      (A.HasValue type) := by
  refine Simulates.dest (fun d => .call (some (d, type)) (.runtime f) args)
    (fun _ => rfl) fun d st fr hrep hpre => ?_
  obtain ⟨hrep', hcell⟩ := hrep.answer hr.host { callee := .runtime f, args := vs }
  refine ⟨Runtime.hasType_of_result hresult _, _, hrep', rfl, ?_⟩
  have hfits : Activation.fits (.runtime f) args (some type) := by
    simp [Activation.fits, hargs, hresult]
  simp only [Activation.exec, Option.map_some, hfits, if_true, hpre.mapM, hcell]
  rfl

/-- A call whose result is not used. -/
theorem simulates_call (hr : Runs c E A) {callee : Callee} {args : List Value}
    {vs : List (Val P)} (hfits : Activation.fits callee args none) :
    Simulates E A (A.DenotesAll args vs) (emit (.call none callee args))
      (do let _ ← E.call callee vs; pure ()) fun _ _ _ _ => True := by
  refine Simulates.emit rfl fun n st fr hrep hpre => ?_
  have hexec : A.exec fr (.call none callee args) =
      some (fr.call A.host { callee, args := vs }).1 := by
    simp [Activation.exec, hfits, hpre.mapM]
  rw [hexec]
  exact ⟨(hrep.answer hr.host _).1, fun _ _ => rfl, trivial⟩

/-! ## Names -/

theorem slotOf_eq (hr : Runs c E A) {id : MemberId} (hid : id ∈ E.layout) :
    c.slotOf id = E.layout.idxOf id + 1 := by
  have hfind : E.layout.findIdx? (· = id) = some (E.layout.idxOf id) :=
    List.findIdx?_eq_some_of_exists ⟨id, hid, by simp⟩
  have hlayout : c.table.layout c.current = E.layout := by
    rw [hr.table, hr.current]
    rfl
  simp [LowerScope.slotOf, hlayout, hfind]

theorem memberType_eq (hr : Runs c E A) (id : MemberId) : c.memberType id = E.memberType id := by
  rw [LowerScope.memberType, Evaluator.memberType, hr.table]

/-- The address is that of the member at a position. -/
def PointsTo (a : Address) (position n : Nat) (fr : Frame W P) : Prop :=
  ∃ t, a = .temp t ∧ t < n ∧ fr.temps t = some (.field position)

theorem simulates_fieldAddress (hr : Runs c E A) {id : MemberId} (hid : id ∈ E.layout) :
    Simulates E A (fun _ _ => True) (c.fieldAddress id) (pure ())
      fun a _ => PointsTo a (E.layout.idxOf id) := by
  rintro s _ _ ⟨⟩
  refine ⟨[.field s.temps c.typeName (c.slotOf id)], ?_, fun _ st fr hrep _ => ?_⟩
  · exact .mk' rfl (Nat.le_succ _) List.prefix_rfl rfl rfl (by simp [Instr.isStraight])
  · have hlt : E.layout.idxOf id < E.layout.length := List.idxOf_lt_length_iff.2 hid
    have hexec : A.exec fr (.field s.temps c.typeName (c.slotOf id)) =
        some (fr.setTemp s.temps (.field (E.layout.idxOf id))) := by
      simp [Activation.exec, hr.type, hr.slots, hr.slotOf_eq hid]
      omega
    rw [Activation.execAll, hexec]
    refine ⟨hrep.setTemp .., fun i hi => ?_, s.temps, rfl, Nat.lt_succ_self _, ?_⟩
    · simp [Frame.setTemp, Nat.ne_of_lt hi]
    · simp [Frame.setTemp]

/-- The slot of a member has its type. -/
theorem slots_idxOf (hr : Runs c E A) {id : MemberId} (hid : id ∈ E.layout) :
    A.layout.slots[E.layout.idxOf id]? = some (E.memberType id) := by
  have hlt : E.layout.idxOf id < E.layout.length := List.idxOf_lt_length_iff.2 hid
  rw [hr.slots, List.getElem?_map, List.getElem?_eq_getElem hlt, List.getElem_idxOf hlt]
  rfl

theorem hasType_load (cell : Cell P) (name : Bytes) :
    (cell.load (.ofName name)).hasType (.ofName name) := by
  rw [ValueType.ofName]
  split
  · rfl
  · split <;> rfl

theorem simulates_read_member (hr : Runs c E A) {id : MemberId} (hid : id ∈ E.layout) :
    Simulates E A (fun _ _ => True) (c.read (.member id)) (E.read (.member id))
      (A.HasValue (E.memberType id)) := by
  rw [← hr.memberType_eq]
  refine (hr.simulates_fieldAddress hid).silent fun a => ?_
  refine Simulates.dest (fun d => .load d (c.memberType id) a) (fun _ => rfl)
    fun d st fr hrep hpre => ?_
  obtain ⟨t, rfl, _, hfield⟩ := hpre
  have hlt : E.layout.idxOf id < E.layout.length := List.idxOf_lt_length_iff.2 hid
  refine ⟨hr.memberType_eq id ▸ hasType_load .., fr, hrep, rfl, ?_⟩
  simp only [Activation.exec, Activation.load, hfield, hr.slots_idxOf hid, hr.memberType_eq,
    if_true, hrep.object, List.getElem?_map, List.getElem?_eq_getElem hlt, List.getElem_idxOf hlt]
  rfl

theorem simulates_read_param (hr : Runs c E A) {i : Nat} {name : Bytes}
    (hi : E.context.params[i]? = some name) :
    Simulates E A (fun _ _ => True) (c.read (.param i)) (E.read (.param i))
      (A.HasValue (.ofName name)) := by
  have hparam : c.params[i]? = some (.ofName name) := by
    rw [hr.params, List.getElem?_map, hi]
    rfl
  have hread : c.read (.param i) = (do
      let d ← freshTemp
      emit (.load d (.ofName name) (.slot i))
      pure ⟨.temp d, .ofName name⟩) := by
    rw [LowerScope.read, hparam]
    rfl
  rw [hread]
  refine Simulates.dest (fun d => .load d (.ofName name) (.slot i)) (fun _ => rfl)
    fun d st fr hrep _ => ?_
  obtain ⟨hslot, htype⟩ := hrep.slots i _ (by rw [hr.function, hparam])
  refine ⟨htype, fr, hrep, rfl, ?_⟩
  simp [Activation.exec, Activation.load, hslot]

/-- The symbol of a method is known without code. -/
theorem simulates_method (hr : Runs c E A) {id : MethodId} {f : MethodSymbol}
    (hf : E.context.table.method? id = some f) :
    Simulates E A (fun _ _ => True) (c.method id) (pure ())
      fun symbol _ _ _ => symbol = E.symbol id := by
  intro s symbol s' hrun
  obtain ⟨owner, howner, _⟩ := Option.bind_eq_some_iff.1 hf
  have hsymbol : methodSymbol owner.fullName f.name = E.symbol id := by
    simp [Evaluator.symbol, SymbolTable.nameOf, howner, hf]
  have hmethod : ∃ ds, StateT.run (c.method id) s =
      .ok (E.symbol id, { s with declarations := ds }) := by
    rw [LowerScope.method, hr.table, howner, hf, ← hsymbol]
    by_cases h : c.model.declares id.owner
    · exact ⟨s.declarations, by simp [h]; rfl⟩
    · exact ⟨_, by simp [h]; rfl⟩
  obtain ⟨ds, hds⟩ := hmethod
  obtain ⟨rfl, rfl⟩ : E.symbol id = symbol ∧ _ = s' := by
    rw [hds] at hrun
    simpa using hrun
  refine ⟨[], ?_, fun _ st fr hrep _ => ⟨hrep, fun _ _ => rfl, rfl⟩⟩
  exact .mk' (by simp) (Nat.le_refl _) List.prefix_rfl rfl rfl (by simp)

theorem simulates_read (hr : Runs c E A) {b : Binding} {τ : Ty} (hb : E.context.Binds b τ) :
    Simulates E A (fun _ _ => True) (c.read b) (E.read b) (A.HasValue τ.valueType) := by
  cases hb with
  | param hi _ =>
    rw [Ty.valueType_ofName]
    exact hr.simulates_read_param hi
  | @member id m hid hm _ =>
    rw [Ty.valueType_ofName]
    have htype : E.memberType id = .ofName m.type := by simp [Evaluator.memberType, hm]
    rw [← htype]
    exact hr.simulates_read_member hid
  | method _ hf =>
    refine (hr.simulates_method hf).silent fun symbol => ?_
    refine (hr.simulates_compute rfl rfl).consequence (fun n fr hsymbol => ?_) fun _ _ _ _ h => h
    subst hsymbol
    refine .cons ⟨rfl, by simp⟩ (.cons ⟨?_, by simp⟩ .nil)
    simp [Activation.operand, Activation.value, hr.host, Val.hasType]

/-! ## Operators -/

theorem simulates_arith (op : ArithOp) (l r : Operand) (a b : Val P) :
    Simulates E A (fun n fr => A.Denotes .i32 l a n fr ∧ A.Denotes .i32 r b n fr)
      (LowerScope.arith op l r) (Evaluator.onInts (fun a b => (op.eval a b).map .i32) a b)
      (A.HasValue .i32) := by
  refine Simulates.dest (fun d => .arith d op l r) (fun _ => rfl)
    fun d st fr hrep hpre => ?_
  obtain ⟨⟨x, rfl⟩, ⟨y, rfl⟩⟩ := And.intro (Val.eq_i32 hpre.1.hasType) (Val.eq_i32 hpre.2.hasType)
  simp only [Activation.exec, hpre.1.1, hpre.2.1, Evaluator.onInts]
  cases op.eval x y with
  | none => exact ⟨hrep, rfl⟩
  | some z => exact ⟨rfl, fr, hrep, rfl, rfl⟩

theorem simulates_logic (op : LogicOp) (l r : Operand) (a b : Val P) :
    Simulates E A (fun n fr => A.Denotes .i1 l a n fr ∧ A.Denotes .i1 r b n fr)
      (LowerScope.logic op l r) (Evaluator.onBools op.eval a b) (A.HasValue .i1) := by
  refine Simulates.dest (fun d => .logic d op l r) (fun _ => rfl)
    fun d st fr hrep hpre => ?_
  obtain ⟨⟨x, rfl⟩, ⟨y, rfl⟩⟩ := And.intro (Val.eq_i1 hpre.1.hasType) (Val.eq_i1 hpre.2.hasType)
  refine ⟨rfl, fr, hrep, rfl, ?_⟩
  simp only [Activation.exec, hpre.1.1, hpre.2.1]

/-- A comparison that has an answer for the values at hand. -/
theorem simulates_compare {pred : Predicate} {type : ValueType} {l r : Operand} {a b : Val P}
    {ev : Eval W P (Val P)} {p : Nat → Frame W P → Prop}
    (hp : ∀ n fr, p n fr → A.Denotes type l a n fr ∧ A.Denotes type r b n fr ∧
      ∃ answer, pred.eval a b = some answer ∧ ev = pure (.i1 answer)) :
    Simulates E A p (LowerScope.compare pred type l r) ev (A.HasValue .i1) := by
  refine Simulates.dest (fun d => .compare d pred type l r) (fun _ => rfl)
    fun d st fr hrep hpre => ?_
  obtain ⟨hl, hrt, answer, heval, rfl⟩ := hp d fr hpre
  refine ⟨rfl, fr, hrep, rfl, ?_⟩
  simp only [Activation.exec, hl.1, hrt.1, heval]
  rfl

/-- Integers are compared as signed numbers. -/
theorem simulates_compare_ints {pred : Predicate} (l r : Operand) (a b : Val P)
    {f : BitVec 32 → BitVec 32 → Bool}
    (hf : ∀ x y, pred.eval (.i32 x) (.i32 y : Val P) = some (f x y)) :
    Simulates E A (fun n fr => A.Denotes .i32 l a n fr ∧ A.Denotes .i32 r b n fr)
      (LowerScope.compare pred .i32 l r)
      (Evaluator.onInts (fun x y => some (.i1 (f x y))) a b) (A.HasValue .i1) := by
  refine simulates_compare fun n fr hpre => ⟨hpre.1, hpre.2, ?_⟩
  obtain ⟨⟨x, rfl⟩, ⟨y, rfl⟩⟩ := And.intro (Val.eq_i32 hpre.1.hasType) (Val.eq_i32 hpre.2.hasType)
  exact ⟨f x y, hf x y, rfl⟩

/-- Scalars become text for concatenation. -/
theorem simulates_toText (hr : Runs c E A) {τ : Ty} (hτ : τ.isScalar) (x : Value) (v : Val P) :
    Simulates E A (A.HasValue τ.valueType x v) (LowerScope.toText x τ) (E.toText v)
      (A.HasValue .ptr) := by
  cases τ with
  | int =>
    refine Simulates.congr (E.compute .intToString .ptr [v]) ?_ fun n fr hpre => ?_
    · exact (hr.simulates_compute rfl rfl).consequence (fun n fr h => .cons h.2 .nil)
        fun _ _ _ _ h => h
    · obtain ⟨_, rfl⟩ := Val.eq_i32 hpre.2.hasType
      rfl
  | bool =>
    refine Simulates.congr (E.compute .boolToString .ptr [v]) ?_ fun n fr hpre => ?_
    · exact (hr.simulates_compute rfl rfl).consequence (fun n fr h => .cons h.2 .nil)
        fun _ _ _ _ h => h
    · obtain ⟨_, rfl⟩ := Val.eq_i1 hpre.2.hasType
      rfl
  | string =>
    refine Simulates.congr (pure v) (Simulates.pure fun _ _ h => h) fun n fr hpre => ?_
    obtain ⟨_, rfl⟩ := Val.eq_ptr hpre.2.hasType
    rfl
  | _ => cases hτ

theorem simulates_concat (hr : Runs c E A) {τ₁ τ₂ : Ty} (h₁ : τ₁.isScalar) (h₂ : τ₂.isScalar)
    (l r : Value) (a b : Val P) :
    Simulates E A
      (fun n fr => A.HasValue τ₁.valueType l a n fr ∧ A.HasValue τ₂.valueType r b n fr)
      (LowerScope.concat l r τ₁ τ₂)
      (do let left ← E.toText a
          let right ← E.toText b
          E.compute .concat .ptr [left, right])
      (A.HasValue .ptr) := by
  refine ((hr.simulates_toText h₁ l a).frame (A.stable_hasValue _ r b)).bind fun x left => ?_
  refine (((hr.simulates_toText h₂ r b).frame (A.stable_hasValue .ptr x left)).consequence
    (fun _ _ h => h.symm) fun _ _ _ _ h => h).bind fun y right => ?_
  exact (hr.simulates_compute rfl rfl).consequence
    (fun n fr h => .cons h.2.2 (.cons h.1.2 .nil)) fun _ _ _ _ h => h

/-- Scalars other than strings are compared by an instruction. -/
theorem simulates_equality_of_ne {τ : Ty} (hτ : τ ≠ .string) (equal : Bool) (l r : Value)
    (a b : Val P)
    (heval : a.hasType τ.valueType → b.hasType τ.valueType → ∃ answer,
      (if equal then Predicate.eq else .ne).eval a b = some answer ∧
        E.equality equal a b = pure (.i1 answer)) :
    Simulates E A (fun n fr => A.HasValue τ.valueType l a n fr ∧ A.HasValue τ.valueType r b n fr)
      (LowerScope.equality equal l r τ) (E.equality equal a b) (A.HasValue .i1) := by
  rw [LowerScope.equality, if_neg hτ]
  refine simulates_compare (a := a) (b := b) fun n fr hpre => ?_
  rw [hpre.1.1]
  exact ⟨hpre.1.2, hpre.2.2, heval hpre.1.2.hasType hpre.2.2.hasType⟩

/-- The runtime says whether strings are equal, and its answer is turned round for `!=`. -/
theorem simulates_equality_string (hr : Runs c E A) (equal : Bool) (l r : Value) (a b : Val P) :
    Simulates E A (fun n fr => A.HasValue .ptr l a n fr ∧ A.HasValue .ptr r b n fr)
      (LowerScope.equality equal l r .string) (E.equality equal a b) (A.HasValue .i1) := by
  refine Simulates.congr (do
    let same ← E.compute .stringEquals .i1 [a, b]
    if equal then pure same else Evaluator.onBools LogicOp.xor.eval same (.i1 true)) ?_ ?_
  · rw [LowerScope.equality, if_pos rfl]
    refine Simulates.bind ((hr.simulates_compute rfl rfl).consequence
      (fun n fr h => .cons h.1.2 (.cons h.2.2 .nil)) fun _ _ _ _ h => h) fun x same => ?_
    cases equal with
    | true => exact Simulates.pure fun _ _ h => h
    | false =>
      refine (simulates_logic _ _ _ _ _).consequence (fun n fr h => ⟨h.2, ?_, by simp⟩)
        fun _ _ _ _ h => h
      rfl
  · rintro n fr ⟨hl, hrt⟩
    obtain ⟨p, rfl⟩ := Val.eq_ptr hl.2.hasType
    obtain ⟨q, rfl⟩ := Val.eq_ptr hrt.2.hasType
    cases equal with
    | true => simp [Evaluator.equality, Evaluator.equal, Evaluator.compute, Cell.load]
    | false =>
      simp [Evaluator.equality, Evaluator.equal, Evaluator.compute, Cell.load, Evaluator.onBools,
        LogicOp.eval]

/-- Scalars of one type are equal, or not. -/
theorem simulates_equality (hr : Runs c E A) {τ : Ty} (hτ : τ.isScalar) (equal : Bool)
    (l r : Value) (a b : Val P) :
    Simulates E A (fun n fr => A.HasValue τ.valueType l a n fr ∧ A.HasValue τ.valueType r b n fr)
      (LowerScope.equality equal l r τ) (E.equality equal a b) (A.HasValue .i1) := by
  cases τ with
  | int =>
    refine simulates_equality_of_ne (by decide) equal l r a b fun ha hb => ?_
    obtain ⟨x, rfl⟩ := Val.eq_i32 ha
    obtain ⟨y, rfl⟩ := Val.eq_i32 hb
    cases equal with
    | true => exact ⟨x == y, rfl, by simp [Evaluator.equality, Evaluator.equal]⟩
    | false => exact ⟨x != y, rfl, by simp [Evaluator.equality, Evaluator.equal, bne]⟩
  | bool =>
    refine simulates_equality_of_ne (by decide) equal l r a b fun ha hb => ?_
    obtain ⟨x, rfl⟩ := Val.eq_i1 ha
    obtain ⟨y, rfl⟩ := Val.eq_i1 hb
    cases equal with
    | true => exact ⟨x == y, rfl, by simp [Evaluator.equality, Evaluator.equal]⟩
    | false => exact ⟨x != y, rfl, by simp [Evaluator.equality, Evaluator.equal, bne]⟩
  | string => exact hr.simulates_equality_string equal l r a b
  | _ => cases hτ

/-- The divisions that have a result are those that the instruction can do. -/
theorem eval_division (op : ArithOp) (f : BitVec 32 → BitVec 32 → BitVec 32)
    (hop : ∀ x y, op.eval x y = if y = 0 ∨ (x = .intMin 32 ∧ y = -1) then none else some (f x y)) :
    (fun x y => if Evaluator.divides x y then some (Val.i32 (f x y)) else none) =
      fun x y => (op.eval x y).map (Val.i32 (P := P)) := by
  funext x y
  rw [hop]
  by_cases h : y = 0 ∨ (x = .intMin 32 ∧ y = -1)
  · rw [if_pos h, if_neg]
    · rfl
    · simpa only [Evaluator.divides, decide_eq_true_eq, ← not_or, not_not] using h
  · rw [if_neg h, if_pos]
    · rfl
    · simpa only [Evaluator.divides, decide_eq_true_eq, ← not_or] using h

/-- A binary operation on values of types that it allows. -/
theorem simulates_binary (hr : Runs c E A) {op : BinaryOp} {τ₁ τ₂ τ : Ty}
    (h : BodyScope.binaryType? op τ₁ τ₂ = some τ) (l r : Value) (a b : Val P) :
    Simulates E A
      (fun n fr => A.HasValue τ₁.valueType l a n fr ∧ A.HasValue τ₂.valueType r b n fr)
      (LowerScope.binary op l r τ₁ τ₂) (E.binary op a b) (A.HasValue τ.valueType) := by
  have harith (op : ArithOp) : Simulates E A
      (fun n fr => A.HasValue .i32 l a n fr ∧ A.HasValue .i32 r b n fr)
      (LowerScope.arith op l.operand r.operand)
      (Evaluator.onInts (fun a b => (op.eval a b).map .i32) a b) (A.HasValue .i32) :=
    (simulates_arith op _ _ a b).consequence (fun n fr h => ⟨h.1.2, h.2.2⟩) fun _ _ _ _ h => h
  have hlogic (op : LogicOp) : Simulates E A
      (fun n fr => A.HasValue .i1 l a n fr ∧ A.HasValue .i1 r b n fr)
      (LowerScope.logic op l.operand r.operand) (Evaluator.onBools op.eval a b) (A.HasValue .i1) :=
    (simulates_logic op _ _ a b).consequence (fun n fr h => ⟨h.1.2, h.2.2⟩) fun _ _ _ _ h => h
  have hcompare {pred : Predicate} {f : BitVec 32 → BitVec 32 → Bool}
      (hf : ∀ x y, pred.eval (.i32 x) (.i32 y : Val P) = some (f x y)) : Simulates E A
      (fun n fr => A.HasValue .i32 l a n fr ∧ A.HasValue .i32 r b n fr)
      (LowerScope.compare pred .i32 l.operand r.operand)
      (Evaluator.onInts (fun x y => some (.i1 (f x y))) a b) (A.HasValue .i1) :=
    (simulates_compare_ints _ _ a b hf).consequence (fun n fr h => ⟨h.1.2, h.2.2⟩)
      fun _ _ _ _ h => h
  cases op with
  | add =>
    simp only [BodyScope.binaryType?] at h
    split at h
    · next hint =>
      obtain ⟨rfl, rfl⟩ := hint
      cases h
      refine (harith .add).congr _ fun n fr hpre => ?_
      obtain ⟨x, rfl⟩ := Val.eq_i32 hpre.1.2.hasType
      obtain ⟨y, rfl⟩ := Val.eq_i32 hpre.2.2.hasType
      rfl
    · next hint =>
      split at h
      · next hscalar =>
        cases h
        rw [LowerScope.binary, if_neg hint]
        refine (hr.simulates_concat hscalar.2.1 hscalar.2.2 l r a b).congr _ fun n fr hpre => ?_
        -- One of the two is a string, so they are not both integers.
        rcases hscalar.1 with rfl | rfl
        · obtain ⟨p, rfl⟩ := Val.eq_ptr hpre.1.2.hasType
          rfl
        · obtain ⟨p, rfl⟩ := Val.eq_ptr hpre.2.2.hasType
          cases a <;> rfl
      · cases h
  | sub | mul =>
    simp only [BodyScope.binaryType?, Option.ite_none_right_eq_some, Option.some.injEq] at h
    obtain ⟨⟨rfl, rfl⟩, rfl⟩ := h
    exact harith _
  | div =>
    simp only [BodyScope.binaryType?, Option.ite_none_right_eq_some, Option.some.injEq] at h
    obtain ⟨⟨rfl, rfl⟩, rfl⟩ := h
    refine (harith .sdiv).congr _ fun _ _ _ => ?_
    rw [Evaluator.binary, eval_division .sdiv (·.sdiv ·) fun _ _ => rfl]
  | mod =>
    simp only [BodyScope.binaryType?, Option.ite_none_right_eq_some, Option.some.injEq] at h
    obtain ⟨⟨rfl, rfl⟩, rfl⟩ := h
    refine (harith .srem).congr _ fun _ _ _ => ?_
    rw [Evaluator.binary, eval_division .srem (·.srem ·) fun _ _ => rfl]
  | eq | ne =>
    simp only [BodyScope.binaryType?, Option.ite_none_right_eq_some, Option.some.injEq] at h
    obtain ⟨⟨rfl, hscalar⟩, rfl⟩ := h
    exact hr.simulates_equality hscalar _ l r a b
  | lt | gt | le | ge =>
    simp only [BodyScope.binaryType?, Option.ite_none_right_eq_some, Option.some.injEq] at h
    obtain ⟨⟨rfl, rfl⟩, rfl⟩ := h
    exact hcompare fun _ _ => rfl
  | and | or =>
    simp only [BodyScope.binaryType?, Option.ite_none_right_eq_some, Option.some.injEq] at h
    obtain ⟨⟨rfl, rfl⟩, rfl⟩ := h
    exact hlogic _

/-! ## Expressions -/

theorem simulates_unary {op : UnaryOp} (x : Value) (v : Val P) :
    Simulates E A (A.HasValue (BodyScope.unaryType op).valueType x v)
      (match op with
        | .not => LowerScope.logic .xor x.operand (.bool true)
        | .neg => LowerScope.arith .sub (.int 0) x.operand)
      (Evaluator.unary op v) (A.HasValue (BodyScope.unaryType op).valueType) := by
  cases op with
  | not =>
    refine ((simulates_logic .xor x.operand (.bool true) v (.i1 true)).consequence
      (fun n fr h => ⟨h.2, rfl, by simp⟩) fun _ _ _ _ h => h).congr _ fun n fr hpre => ?_
    obtain ⟨b, rfl⟩ := Val.eq_i1 hpre.2.hasType
    simp [Evaluator.unary, Evaluator.onBools, LogicOp.eval]
  | neg =>
    refine ((simulates_arith .sub (.int 0) x.operand (.i32 0) v).consequence
      (fun n fr h => ⟨⟨rfl, by simp⟩, h.2⟩) fun _ _ _ _ h => h).congr _ fun n fr hpre => ?_
    obtain ⟨m, rfl⟩ := Val.eq_i32 hpre.2.hasType
    simp [Evaluator.unary, Evaluator.onInts, ArithOp.eval, Evaluator.bound]

/-- The code of a typed expression computes its value. -/
theorem simulates_expr (hr : Runs c E A) {e : BoundExpr} {τ : Ty} (h : E.context.HasType e τ) :
    Simulates E A (fun _ _ => True) (c.expr e) (E.expr e) (A.HasValue τ.valueType) := by
  induction h with
  | int => exact Simulates.pure fun n fr _ => ⟨rfl, rfl, by simp⟩
  | bool => exact Simulates.pure fun n fr _ => ⟨rfl, rfl, by simp⟩
  | @string _ text =>
    refine (Simulates.string text).bind (g := pure) fun o v => ?_
    exact Simulates.pure fun n fr h => ⟨rfl, h hr.host⟩
  | name hb => exact hr.simulates_read hb
  | unary _ ih => exact ih.bind fun x v => simulates_unary x v
  | @binary l τ₁ r τ₂ op _ _ hl hrt hτ ihl ihr =>
    have hl' := hl.type_eq
    have hr' := hrt.type_eq
    refine ihl.bind fun x a => ?_
    refine (((ihr.frame (A.stable_hasValue _ x a)).consequence (fun n fr h => ⟨trivial, h⟩)
      fun _ _ _ _ h => h.symm)).bind fun y b => ?_
    rw [hl', hr']
    exact hr.simulates_binary hτ x y a b

end Runs

end Code

end ViewCompiler
