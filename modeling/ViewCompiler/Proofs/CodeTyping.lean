import ViewCompiler.Proofs.ControlFlow

/-!
Typing of code, one instruction after the other. A `Point` says what is known where an instruction
stands: the block it is in, the types of the temporaries, and what the module has collected so far.
`CodeScope.Step` checks one instruction and gives the point behind it; a `CodeScope.Path` does so
for a piece of code.

A path through a whole body makes the function a well-formed control-flow graph
(`CodeScope.Path.wellFormed`).
-/

namespace ViewCompiler.Code

/-- What a temporary holds: a value, or the address of one. -/
inductive TempType where
  | value (type : ValueType)
  | address (type : ValueType)
deriving DecidableEq, Repr, Inhabited

/-- Adds declarations one after the other. -/
def Declaration.insertAll (ds : List Declaration) (all : List Declaration) : List Declaration :=
  ds.foldl (fun all d => d.insert all) all

/-- What the code of a module may refer to: the functions that exist, with the types of their
parameters, what the module defines, and what it may declare. -/
structure Linkage where
  Provides : Bytes → List ValueType → Prop
  Defines : Bytes → Prop
  Imports : Declaration → Prop

/-- What the code of a function may rely on: the layout of its object and its parameters. -/
structure CodeScope extends Linkage where
  owner : Bytes
  slots : List ValueType
  params : List ValueType := []
  builder : Bool := false

/-- A point in a body. `start` is the first temporary of the block, `slots` the number of parameters
that have a slot. -/
structure Point where
  entry : Bool := true
  closed : Bool := false
  start : Nat := 0
  temps : List TempType := []
  slots : Nat := 0
  strings : List Bytes := []
  declarations : List Declaration := []
  fragments : Nat := 0
deriving DecidableEq, Repr, Inhabited

/-- The type of a slot of the object; slot 0 is the descriptor. -/
def CodeScope.slotType? (C : CodeScope) : Nat → Option ValueType
  | 0 => some .ptr
  | k + 1 => C.slots[k]?

namespace Point

section
variable (C : CodeScope) (p : Point)

/-- The symbol is defined or declared, or belongs to a child block that was handed over. -/
def Knows (symbol : Bytes) : Prop :=
  C.Defines symbol ∨ (∃ d ∈ p.declarations, d.symbol = symbol) ∨
    C.builder = true ∧ ∃ i < p.fragments, symbol = fragmentSymbol C.owner i

inductive HasType : Operand → ValueType → Prop
  | int : HasType (.int v) .i32
  | bool : HasType (.bool b) .i1
  | null : HasType .null .ptr
  | temp : p.start ≤ i → p.temps[i]? = some (.value type) → HasType (.temp i) type
  | param : C.params[i]? = some type → HasType (.param i) type
  | self : HasType .self .ptr
  | builder : C.builder = true → HasType .builder .ptr
  | str : p.strings[i]? = some text → HasType (.str i (text.length + 1)) .ptr
  | descriptor : p.Knows C (descriptorSymbol type) → HasType (.descriptor type) .ptr
  | initFn : C.Provides symbol [.ptr] → p.Knows C symbol → HasType (.function symbol) .initFn
  | renderFn : C.Provides symbol [.ptr, .ptr] → p.Knows C symbol →
    HasType (.function symbol) .renderFn

/-- An address of a value of a type. -/
inductive PointsTo : Address → ValueType → Prop
  | temp : p.start ≤ i → p.temps[i]? = some (.address type) → PointsTo (.temp i) type
  | slot : i < p.slots → C.params[i]? = some type → PointsTo (.slot i) type

/-- A function that takes parameters of these types and gives a result of that type. -/
inductive Calls : Callee → List ValueType → Option ValueType → Prop
  | runtime : Calls (.runtime f) f.params f.result
  | method : C.Provides symbol types → p.Knows C symbol → Calls (.method symbol) types none

/-- A call of the function with operands of the right types. -/
def Applies (callee : Callee) (args : List Value) (result : Option ValueType) : Prop :=
  p.Calls C callee (args.map (·.type)) result ∧ ∀ a ∈ args, p.HasType C a.operand a.type

end

/-- The point behind an instruction with a result. -/
def assign (p : Point) (t : TempType) : Point := { p with temps := p.temps ++ [t] }

/-- The same place in the same block, with more known. -/
structure Extends (p q : Point) : Prop where
  entry : q.entry = p.entry
  closed : q.closed = p.closed
  start : q.start = p.start
  slots : q.slots = p.slots
  temps : p.temps <+: q.temps
  strings : p.strings <+: q.strings
  declarations : p.declarations ⊆ q.declarations
  fragments : p.fragments ≤ q.fragments

end Point

namespace CodeScope

section
variable (C : CodeScope)

/-- An instruction that gives nothing. -/
inductive Runs (p : Point) : Instr → Prop
  | store : p.HasType C value type → p.PointsTo C target type → Runs p (.store type value target)
  | call : p.Applies C callee args none → Runs p (.call none callee args)

/-- An instruction that puts its result into the next temporary. -/
inductive Yields (p : Point) : Instr → TempType → Prop
  | field : C.slotType? slot = some type →
    Yields p (.field p.temps.length C.owner slot) (.address type)
  | load : p.PointsTo C source type → Yields p (.load p.temps.length type source) (.value type)
  | arith : p.HasType C left .i32 → p.HasType C right .i32 →
    Yields p (.arith p.temps.length op left right) (.value .i32)
  | logic : p.HasType C left .i1 → p.HasType C right .i1 →
    Yields p (.logic p.temps.length op left right) (.value .i1)
  | compare : p.HasType C left type → p.HasType C right type →
    Yields p (.compare p.temps.length pred type left right) (.value .i1)
  | call : p.Applies C callee args (some type) →
    Yields p (.call (some (p.temps.length, type)) callee args) (.value type)

/-- An instruction that ends its block. -/
inductive Stops (p : Point) : Instr → Prop
  | branch : p.HasType C condition .i1 → Stops p (.branch condition yes no)
  | jump : Stops p (.jump target)
  | ret : Stops p .ret

/-- An instruction that can stand at a point, and the point behind it. Slots are made in the entry,
and a label stands behind a terminator. -/
inductive Step (p : Point) : Instr → Point → Prop
  | slot : p.closed = false → p.entry = true → C.params[p.slots]? = some type →
    Step p (.alloca p.slots type) { p with slots := p.slots + 1 }
  | run : p.closed = false → C.Runs p i → Step p i p
  | yield : p.closed = false → C.Yields p i t → Step p i (p.assign t)
  | stop : p.closed = false → C.Stops p i → Step p i { p with closed := true }
  | label : p.closed = true →
    Step p (.label l) { p with entry := false, closed := false, start := p.temps.length }

/-- More constants, declarations and child blocks. -/
structure Collects (p q : Point) : Prop where
  eq : q = { p with strings := q.strings, declarations := q.declarations, fragments := q.fragments }
  strings : p.strings <+: q.strings
  declarations : ∃ ds, (∀ d ∈ ds, C.Imports d) ∧
    q.declarations = Declaration.insertAll ds p.declarations
  fragments : p.fragments ≤ q.fragments

/-- Code that leads from one point to another. -/
inductive Path : Point → List Instr → Point → Prop
  | nil : Path p [] p
  | cons : C.Step p i p' → Path p' is q → Path p (i :: is) q
  | collect : C.Collects p p' → Path p' is q → Path p is q

end

variable {C : CodeScope} {p q r : Point} {i : Instr} {xs ys : List Instr}

theorem Path.append (h : C.Path p xs q) (h' : C.Path q ys r) : C.Path p (xs ++ ys) r := by
  induction h with
  | nil => exact h'
  | cons hstep _ ih => exact .cons hstep (ih h')
  | collect hmore _ ih => exact .collect hmore (ih h')

theorem Path.single (h : C.Step p i q) : C.Path p [i] q := .cons h .nil

theorem Path.more (h : C.Collects p q) : C.Path p [] q := .collect h .nil

end CodeScope

/-! ## Registers of typed code -/

namespace Point

variable {C : CodeScope} {p : Point}

/-- The register has a value at this point. -/
def Sees (C : CodeScope) (p : Point) : Register → Prop
  | .self | .this => True
  | .builder => C.builder = true
  | .param i => i < C.params.length
  | .slot i => i < p.slots
  | .temp i => p.start ≤ i ∧ i < p.temps.length

theorem HasType.sees {o : Operand} {type : ValueType} (h : p.HasType C o type) :
    ∀ r ∈ o.register?.toList, p.Sees C r := by
  cases h with
  | temp hstart hi =>
    simpa [Operand.register?, Sees] using ⟨hstart, (List.getElem?_eq_some_iff.1 hi).1⟩
  | param hi => simpa [Operand.register?, Sees] using (List.getElem?_eq_some_iff.1 hi).1
  | builder hb => simpa [Operand.register?, Sees] using hb
  | self => simp [Operand.register?, Sees]
  | _ => simp [Operand.register?]

theorem PointsTo.sees {a : Address} {type : ValueType} (h : p.PointsTo C a type) :
    p.Sees C a.register := by
  cases h with
  | temp hstart hi => exact ⟨hstart, (List.getElem?_eq_some_iff.1 hi).1⟩
  | slot hi => exact hi

theorem Applies.sees {callee : Callee} {args : List Value} {result : Option ValueType}
    (h : p.Applies C callee args result) :
    ∀ r ∈ args.flatMap (·.operand.register?.toList), p.Sees C r := by
  intro r hr
  obtain ⟨a, ha, hr⟩ := List.mem_flatMap.1 hr
  exact (h.2 a ha).sees r hr

end Point

namespace CodeScope

variable {C : CodeScope} {p q : Point} {i : Instr} {t : TempType} {code : List Instr}

theorem Runs.sees (h : C.Runs p i) : ∀ r ∈ i.reads, p.Sees C r := by
  cases h with
  | store hv ha => exact List.forall_mem_append.2 ⟨hv.sees, by simpa using ha.sees⟩
  | call h => exact h.sees

theorem Yields.sees (h : C.Yields p i t) : ∀ r ∈ i.reads, p.Sees C r := by
  cases h with
  | field => simp [Instr.reads, Point.Sees]
  | load ha => simpa [Instr.reads] using ha.sees
  | arith hl hr | logic hl hr | compare hl hr => exact List.forall_mem_append.2 ⟨hl.sees, hr.sees⟩
  | call h => exact h.sees

theorem Stops.sees (h : C.Stops p i) : ∀ r ∈ i.reads, p.Sees C r := by
  cases h with
  | branch hc => exact hc.sees
  | jump | ret => simp [Instr.reads]

theorem Step.sees (h : C.Step p i q) : ∀ r ∈ i.reads, p.Sees C r := by
  cases h with
  | slot | label => simp [Instr.reads]
  | run _ h => exact h.sees
  | yield _ h => exact h.sees
  | stop _ h => exact h.sees

theorem Runs.isStraight (h : C.Runs p i) : i.isStraight := by
  cases h <;> rfl

theorem Yields.isStraight (h : C.Yields p i t) : i.isStraight := by
  cases h <;> rfl

theorem Stops.isTerminator (h : C.Stops p i) : i.isTerminator := by
  cases h <;> rfl

/-- What a step does to control: it goes on in the block, ends it, or starts one. -/
theorem Step.control (h : C.Step p i q) :
    (p.closed = false ∧ i.isStraight ∧ q.closed = false ∧ q.entry = p.entry ∧ q.start = p.start) ∨
    (p.closed = false ∧ i.isTerminator ∧ q = { p with closed := true }) ∨
    ∃ l, i = .label l ∧ p.closed = true ∧
      q = { p with entry := false, closed := false, start := p.temps.length } := by
  cases h with
  | slot hopen | run hopen h | yield hopen h => 
    refine .inl ⟨hopen, ?_, hopen, rfl, rfl⟩
    first | rfl | exact h.isStraight
  | stop hopen h => exact .inr (.inl ⟨hopen, h.isTerminator, rfl⟩)
  | label hclosed => exact .inr (.inr ⟨_, rfl, hclosed, rfl⟩)

/-- What a step assigns: nothing, the next temporary, or the next slot. -/
theorem Step.writes (h : C.Step p i q) :
    (i.writes = none ∧ q.temps = p.temps ∧ q.slots = p.slots) ∨
    (∃ t, i.writes = some (.temp p.temps.length) ∧ q.temps = p.temps ++ [t] ∧ q.slots = p.slots) ∨
    (i.writes = some (.slot p.slots) ∧ q.temps = p.temps ∧ q.slots = p.slots + 1 ∧
      p.entry = true) := by
  cases h with
  | slot _ hentry => exact .inr (.inr ⟨rfl, rfl, rfl, hentry⟩)
  | run _ h => exact .inl ⟨by cases h <;> rfl, rfl, rfl⟩
  | yield _ h => exact .inr (.inl ⟨_, by cases h <;> rfl, rfl, rfl⟩)
  | stop _ h => exact .inl ⟨by cases h <;> rfl, rfl, rfl⟩
  | label => exact .inl ⟨rfl, rfl, rfl⟩

end CodeScope

/-! ## Blocks of typed code -/

theorem Instr.isTerminator_of_isStraight {i : Instr} (h : i.isStraight) : i.isTerminator = false := by
  cases i <;> first | rfl | cases h

theorem Instr.ne_label_of_isStraight {i : Instr} (h : i.isStraight) (l : Label) : i ≠ .label l := by
  rintro rfl
  cases h

theorem Instr.ne_label_of_isTerminator {i : Instr} (h : i.isTerminator) (l : Label) :
    i ≠ .label l := by
  rintro rfl
  cases h

theorem cut_cons {i : Instr} (h : ∀ l, i ≠ .label l) (label : Option Label) (acc is : List Instr) :
    cut label acc (i :: is) = cut label (acc ++ [i]) is := by
  cases i with
  | label l => exact absurd rfl (h l)
  | _ => rfl

theorem names_cut (label : Option Label) (acc code : List Instr) :
    (cut label acc code).map Block.name =
      Block.name ⟨label, []⟩ :: (labelsOf code).map Label.text := by
  induction code generalizing label acc with
  | nil => rfl
  | cons i is ih =>
    cases i with
    | label l => exact congrArg _ (ih (some l) [])
    | _ => exact ih label _

namespace CodeScope

variable {C : CodeScope} {p q : Point} {code : List Instr}

theorem Collects.closed (h : C.Collects p q) : q.closed = p.closed := by rw [h.eq]

/-- Every block of a path ends with its only terminator. -/
theorem Path.closed_cut (h : C.Path p code q) (hq : q.closed = true) {label : Option Label}
    {acc : List Instr} (hclosed : p.closed = true → Block.Closed ⟨label, acc⟩)
    (hopen : p.closed = false → ∀ i ∈ acc, i.isTerminator = false) :
    ∀ b ∈ cut label acc code, b.Closed := by
  induction h generalizing label acc with
  | nil => simpa [cut] using hclosed hq
  | @cons p i p' is q hstep _ ih =>
    obtain ⟨hp, hi, hp', -, -⟩ | ⟨hp, hi, rfl⟩ | ⟨l, rfl, hp, rfl⟩ := hstep.control
    · rw [cut_cons (Instr.ne_label_of_isStraight hi)]
      refine ih hq (by simp [hp']) fun _ => List.forall_mem_append.2 ⟨hopen hp, ?_⟩
      simpa using Instr.isTerminator_of_isStraight hi
    · rw [cut_cons (Instr.ne_label_of_isTerminator hi)]
      exact ih hq (fun _ => ⟨acc, i, rfl, hi, hopen hp⟩) (by simp)
    · exact List.forall_mem_cons.2 ⟨hclosed hp, ih hq (by simp) (by simp)⟩
  | collect hmore _ ih => exact ih hq (hmore.closed ▸ hclosed) (hmore.closed ▸ hopen)

end CodeScope

/-! ## Assignments of typed code -/

/-- The register is not assigned before this point. -/
def Point.Spares (p : Point) : Register → Prop
  | .temp i => p.temps.length ≤ i
  | .slot i => p.slots ≤ i
  | _ => False

theorem Point.Spares.of_le {p q : Point} {r : Register} (h : q.Spares r)
    (htemps : p.temps.length ≤ q.temps.length) (hslots : p.slots ≤ q.slots) : p.Spares r := by
  cases r with
  | temp => exact Nat.le_trans htemps h
  | slot => exact Nat.le_trans hslots h
  | _ => exact h

namespace CodeScope

variable {C : CodeScope} {p q : Point} {i : Instr} {code : List Instr}

/-- What a step assigns is spared until then. -/
theorem Step.spares (h : C.Step p i q) :
    (∀ r, q.Spares r → p.Spares r) ∧ ∀ r ∈ i.writes, p.Spares r ∧ ¬ q.Spares r := by
  obtain ⟨hi, htemps, hslots⟩ | ⟨t, hi, htemps, hslots⟩ | ⟨hi, htemps, hslots, -⟩ := h.writes
  all_goals
    refine ⟨fun r hr => hr.of_le (by simp [htemps]) (by simp [hslots]), ?_⟩
    simp [hi, Point.Spares, htemps, hslots]

theorem Collects.spares (h : C.Collects p q) {r : Register} (hr : q.Spares r) : p.Spares r := by
  rw [h.eq] at hr
  exact hr

/-- A path assigns no register twice, and none that was assigned before. -/
theorem Path.writes (h : C.Path p code q) :
    (code.filterMap Instr.writes).Nodup ∧ ∀ r ∈ code.filterMap Instr.writes, p.Spares r := by
  induction h with
  | nil => simp
  | @cons p i p' is q hstep _ ih =>
    obtain ⟨hnodup, hspares⟩ := ih
    obtain ⟨hmore, hnew⟩ := hstep.spares
    rw [List.filterMap_cons]
    cases hi : i.writes with
    | none => exact ⟨hnodup, fun r hr => hmore r (hspares r hr)⟩
    | some w =>
      obtain ⟨hw, hw'⟩ := hnew w hi
      refine ⟨List.nodup_cons.2 ⟨fun hmem => hw' (hspares w hmem), hnodup⟩, ?_⟩
      exact List.forall_mem_cons.2 ⟨hw, fun r hr => hmore r (hspares r hr)⟩
  | collect hmore _ ih => exact ⟨ih.1, fun r hr => hmore.spares (ih.2 r hr)⟩

end CodeScope

/-! ## Uses of typed code -/

/-- What an instruction behind `before` in a block may use, where `entry` is the code of the first
block. -/
def Visible (inputs : List Register) (entry : List Instr) (label : Option Label)
    (before : List Instr) (r : Register) : Prop :=
  r ∈ inputs ++ .this :: before.filterMap Instr.writes ∨
    r.isTemp = false ∧ label.isSome ∧ r ∈ entry.filterMap Instr.writes

/-- Every instruction of the block uses what it may. -/
def Block.Resolved (inputs : List Register) (entry : List Instr) (b : Block) : Prop :=
  ∀ before i after, b.code = before ++ i :: after → ∀ r ∈ i.reads,
    Visible inputs entry b.label before r

theorem Block.Resolved.snoc {inputs : List Register} {entry code : List Instr}
    {label : Option Label} {i : Instr} (h : Block.Resolved inputs entry ⟨label, code⟩)
    (hi : ∀ r ∈ i.reads, Visible inputs entry label code r) :
    Block.Resolved inputs entry ⟨label, code ++ [i]⟩ := by
  intro before j after hcode
  rcases List.eq_nil_or_concat after with rfl | ⟨after, k, rfl⟩
  · obtain ⟨rfl, hj⟩ := List.append_inj' hcode rfl
    obtain rfl := List.head_eq_of_cons_eq hj
    exact hi
  · rw [List.concat_eq_append, ← List.cons_append, ← List.append_assoc] at hcode
    exact h before j after (List.append_inj_left' hcode rfl)

namespace CodeScope

/-- The registers that a call of a function of this scope sets. -/
def inputs (C : CodeScope) : List Register :=
  .self :: ((List.range C.params.length).map .param ++ if C.builder then [.builder] else [])

/-- Every register that has a value at the point can be used by the next instruction. -/
structure Keeps (p : Point) (entry : List Instr) (label : Option Label) (code : List Instr) :
    Prop where
  temps : ∀ n, p.start ≤ n → n < p.temps.length → .temp n ∈ code.filterMap Instr.writes
  slots : ∀ n < p.slots,
    .slot n ∈ (if p.entry then code else entry).filterMap Instr.writes
  label : p.entry = label.isNone

variable {C : CodeScope} {p q : Point} {i : Instr} {code entry acc : List Instr}
  {label : Option Label}

theorem Keeps.visible (h : Keeps p entry label acc) {r : Register} (hr : p.Sees C r) :
    Visible C.inputs entry label acc r := by
  cases r with
  | self | this => simp [Visible, inputs]
  | builder =>
    have hbuilder : C.builder = true := hr
    simp [Visible, inputs, hbuilder]
  | param i =>
    have hi : i < C.params.length := hr
    simp [Visible, inputs, hi]
  | temp i =>
    have htemp := h.temps i hr.1 hr.2
    exact .inl (List.mem_append_right _ (List.mem_cons_of_mem _ htemp))
  | slot i =>
    have hslot := h.slots i hr
    have hlabel := h.label
    cases hentry : p.entry with
    | true =>
      rw [hentry, if_pos rfl] at hslot
      exact .inl (List.mem_append_right _ (List.mem_cons_of_mem _ hslot))
    | false =>
      refine .inr ⟨rfl, ?_, by simpa [hentry] using hslot⟩
      simpa [hentry] using hlabel

theorem Keeps.step (h : Keeps p entry label acc) (hstep : C.Step p i q) (hi : ∀ l, i ≠ .label l) :
    Keeps q entry label (acc ++ [i]) := by
  have hsame : q.entry = p.entry ∧ q.start = p.start := by
    obtain ⟨-, -, -, hentry, hstart⟩ | ⟨-, -, rfl⟩ | ⟨l, rfl, -⟩ := hstep.control
    · exact ⟨hentry, hstart⟩
    · exact ⟨rfl, rfl⟩
    · exact absurd rfl (hi l)
  have hmem {r : Register} : r ∈ (acc ++ [i]).filterMap Instr.writes ↔
      r ∈ acc.filterMap Instr.writes ∨ i.writes = some r := by
    simp
  refine ⟨fun n hstart hn => ?_, fun n hn => ?_, hsame.1.trans h.label⟩
  · rw [hsame.2] at hstart
    by_cases hold : n < p.temps.length
    · exact hmem.2 (.inl (h.temps n hstart hold))
    · obtain ⟨-, htemps, -⟩ | ⟨t, hw, htemps, -⟩ | ⟨-, htemps, -⟩ := hstep.writes
      all_goals rw [htemps] at hn
      · exact absurd hn hold
      · obtain rfl : n = p.temps.length := by
          rw [List.length_append, List.length_singleton] at hn
          omega
        exact hmem.2 (.inr hw)
      · exact absurd hn hold
  · rw [hsame.1]
    have hkeep (hold : n < p.slots) :
        .slot n ∈ (if p.entry then acc ++ [i] else entry).filterMap Instr.writes := by
      have hslot := h.slots n hold
      cases hentry : p.entry with
      | true =>
        rw [hentry, if_pos rfl] at hslot
        exact hmem.2 (.inl hslot)
      | false =>
        rw [hentry] at hslot
        exact hslot
    obtain ⟨-, -, hslots⟩ | ⟨t, -, -, hslots⟩ | ⟨hw, -, hslots, hentry⟩ := hstep.writes
    all_goals rw [hslots] at hn
    · exact hkeep hn
    · exact hkeep hn
    · by_cases hold : n < p.slots
      · exact hkeep hold
      · obtain rfl : n = p.slots := by omega
        rw [hentry, if_pos rfl]
        exact hmem.2 (.inr hw)

/-- Every block of a path uses what it may. The first block is the one that `acc` starts, if the
point is in it. -/
theorem Path.resolved_cut (h : C.Path p code q) (hkeeps : Keeps p entry label acc)
    (hacc : Block.Resolved C.inputs entry ⟨label, acc⟩)
    (hentry : p.entry = true → ((cut label acc code).head?.map (·.code)).getD [] = entry) :
    ∀ b ∈ cut label acc code, b.Resolved C.inputs entry := by
  induction h generalizing label acc with
  | nil => simpa [cut] using hacc
  | @cons p i p' is q hstep _ ih =>
    have hi : ∀ r ∈ i.reads, Visible C.inputs entry label acc r :=
      fun r hr => hkeeps.visible (hstep.sees r hr)
    by_cases hlabel : ∃ l, i = .label l
    · obtain ⟨l, rfl⟩ := hlabel
      obtain ⟨-, hstraight, -⟩ | ⟨-, hstop, -⟩ | ⟨l, -, -, rfl⟩ := hstep.control
      · cases hstraight
      · cases hstop
      -- The slots are those of the first block, which is known now if it ends here.
      have hslots : ∀ n < p.slots, .slot n ∈ entry.filterMap Instr.writes := by
        intro n hn
        have hslot := hkeeps.slots n hn
        split at hslot
        · next h =>
          rw [← hentry h]
          exact hslot
        · exact hslot
      refine List.forall_mem_cons.2 ⟨hacc, ih ⟨?_, hslots, rfl⟩ ?_ (by simp)⟩
      · intro n hstart hn
        exact absurd hn (Nat.not_lt.2 hstart)
      · intro before j after hnil
        simp at hnil
    · have hne : ∀ l, i ≠ .label l := fun l hl => hlabel ⟨l, hl⟩
      rw [cut_cons hne] at hentry ⊢
      have hkeeps' := hkeeps.step hstep hne
      have hsame : p'.entry = p.entry := hkeeps'.label.trans hkeeps.label.symm
      exact ih hkeeps' (hacc.snoc hi) fun h => hentry (hsame ▸ h)
  | @collect p p' is q hmore _ ih =>
    have hsame := hmore.eq
    rw [hsame] at ih
    exact ih ⟨hkeeps.temps, hkeeps.slots, hkeeps.label⟩ hacc hentry

end CodeScope

/-! ## Labels -/

/-- The labels of code are numbered from `n` up to `n'` and different, and it goes to none but
them. -/
structure Labelled (n : Nat) (code : List Instr) (n' : Nat) : Prop where
  le : n ≤ n'
  nodup : (labelsOf code).Nodup
  fresh : ∀ l ∈ labelsOf code, n ≤ l.index ∧ l.index < n'
  targets : ∀ i ∈ code, ∀ l ∈ i.targets, l ∈ labelsOf code

namespace Labelled

variable {n n' n'' : Nat} {xs ys : List Instr}

theorem of_straight (h : ∀ i ∈ xs, i.isStraight) : Labelled n xs n where
  le := Nat.le_refl n
  nodup := by simp [labelsOf_of_straight h]
  fresh := by simp [labelsOf_of_straight h]
  targets i hi l hl := by
    have hstraight := h i hi
    cases i with
    | branch | jump => cases hstraight
    | _ => cases hl

theorem append (h : Labelled n xs n') (h' : Labelled n' ys n'') : Labelled n (xs ++ ys) n'' where
  le := Nat.le_trans h.le h'.le
  nodup := by
    rw [labelsOf_append]
    refine h.nodup.append h'.nodup fun l hl hl' => ?_
    have := h.fresh l hl
    have := h'.fresh l hl'
    omega
  fresh := by
    have := h.le
    have := h'.le
    rw [labelsOf_append]
    refine List.forall_mem_append.2 ⟨fun l hl => ?_, fun l hl => ?_⟩
    · have := h.fresh l hl
      omega
    · have := h'.fresh l hl
      omega
  targets := by
    rw [labelsOf_append]
    refine List.forall_mem_append.2 ⟨fun i hi l hl => ?_, fun i hi l hl => ?_⟩
    · exact List.mem_append_left _ (h.targets i hi l hl)
    · exact List.mem_append_right _ (h'.targets i hi l hl)

end Labelled

/-! ## Functions -/

theorem Function.nodup_inputs (f : Function) : f.inputs.Nodup := by
  have hparams : ((List.range f.params.length).map Register.param).Nodup :=
    List.nodup_range.map fun i j h => Register.param.inj h
  rw [inputs]
  split
  · refine List.nodup_cons.2 ⟨by simp, hparams.append (by simp) ?_⟩
    intro r hr hr'
    obtain ⟨i, -, rfl⟩ := List.mem_map.1 hr
    simp at hr'
  · exact List.nodup_cons.2 ⟨by simp, by simpa using hparams⟩

/-- A body assigns none of its parameters. -/
theorem Function.not_spares_of_mem_inputs (f : Function) (p : Point) {r : Register}
    (h : r ∈ f.inputs) : ¬ p.Spares r := by
  cases r with
  | slot | temp => 
    rw [inputs] at h
    split at h <;> simp at h
  | _ => exact id

/-- A body with a path through it and its own labels is a well-formed control-flow graph. -/
theorem CodeScope.Path.wellFormed {C : CodeScope} {p q : Point} {f : Function}
    (h : C.Path p f.body q) (hq : q.closed = true) (hentry : p.entry = true)
    (hopen : p.closed = false) (htemps : p.temps = []) (hslots : p.slots = 0)
    (hparams : C.params = f.params) (hbuilder : C.builder = f.builder) {n : Nat}
    (hlabels : Labelled 0 f.body n) : f.WellFormed where
  closed := h.closed_cut hq (by simp [hopen]) (by simp)
  labels := by
    rw [Function.blocks, names_cut]
    refine List.nodup_cons.2 ⟨fun hmem => ?_, hlabels.nodup.map Label.text_injective⟩
    obtain ⟨l, -, hl⟩ := List.mem_map.1 hmem
    exact l.text_ne_entry hl
  targets i hi l hl := by
    rw [List.map_tail, Function.blocks, names_cut]
    exact List.mem_map_of_mem (hlabels.targets i hi l hl)
  assigned := by
    refine List.Nodup.map Register.name_injective ?_
    obtain ⟨hnodup, hspares⟩ := h.writes
    have hthis : (.this :: f.body.filterMap Instr.writes).Nodup :=
      List.nodup_cons.2 ⟨fun hmem => hspares _ hmem, hnodup⟩
    refine f.nodup_inputs.append hthis fun r hr hr' => ?_
    rcases List.mem_cons.1 hr' with rfl | hr'
    · simp [Function.inputs] at hr
    · exact f.not_spares_of_mem_inputs p hr (hspares r hr')
  used b hb := by
    have hinputs : C.inputs = f.inputs := by rw [CodeScope.inputs, Function.inputs, hparams, hbuilder]
    have hkeeps : Keeps p f.entry none [] := ⟨by simp [htemps], by simp [hslots], hentry⟩
    rw [← hinputs]
    exact h.resolved_cut hkeeps (by intro before i after hnil; simp at hnil) (fun _ => rfl) b hb

end ViewCompiler.Code
