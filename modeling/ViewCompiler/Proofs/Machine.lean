import ViewCompiler.Code

/-!
Running lowered code. A machine executes one function of an object: it has numbered temporaries, a
slot for each parameter, and the members of the object, and it hands every call to a `Host`. The
host may change the members at each call, and nothing is assumed of what it answers.

The machine is strict. It gets stuck when an operand does not have the type at which it is used,
when a field is accessed at a type that is not that of its slot in the layout, when a call does not
have the signature of its callee, when control reaches a label other than by a jump, and on the
divisions that have no result. The calls made so far are part of its state, so that the outcome of
a run shows all of them.
-/

namespace ViewCompiler.Code

/-! ## Values and memory -/

/-- A value. `P` are the addresses that code cannot look into: of objects, strings and whatever the
runtime hands out. -/
inductive Val (P : Type) where
  | i1 (value : Bool)
  | i32 (value : BitVec 32)
  | ptr (address : P)
  | code (symbol : Bytes)
deriving DecidableEq, Repr

/-- A place in memory. What is read from it depends on the type at which it is read. -/
structure Cell (P : Type) where
  bit : Bool
  word : BitVec 32
  address : P
deriving DecidableEq, Repr

variable {W P : Type}

namespace Val

instance : Inhabited (Val P) := ⟨.i1 false⟩

def hasType : Val P → ValueType → Bool
  | i1 _, .i1 | i32 _, .i32 | ptr _, .ptr | code _, .initFn | code _, .renderFn => true
  | _, _ => false

end Val

namespace Cell

def load (c : Cell P) : ValueType → Val P
  | .i1 => .i1 c.bit
  | .i32 => .i32 c.word
  | _ => .ptr c.address

def store (c : Cell P) : Val P → Cell P
  | .i1 b => { c with bit := b }
  | .i32 n => { c with word := n }
  | .ptr p => { c with address := p }
  | .code _ => c

end Cell

/-! ## Calls -/

structure Call (P : Type) where
  callee : Callee
  args : List (Val P)
deriving DecidableEq, Repr

/-- What a call leaves behind: the world around the object, the members of the object by position,
and the result. -/
structure Reply (W P : Type) where
  world : W
  members : Nat → Cell P
  result : Cell P

/-- What code runs against: the addresses of the things it names, and one function that answers all
calls. It sees the world and the members of the object. -/
structure Host (W P : Type) where
  self : P
  null : P
  builder : P
  text : Bytes → P
  descriptor : Bytes → P
  call : W → List (Cell P) → Call P → Reply W P

/-- How a run ends: with a return or stuck, in which state, and after which calls. -/
structure Outcome (W P : Type) where
  finished : Bool
  world : W
  members : List (Cell P)
  trace : List (Call P)
deriving DecidableEq, Repr

/-! ## Operations on values -/

namespace ArithOp

/-- Arithmetic wraps around. Division by zero and the division that overflows have no result. -/
def eval (op : ArithOp) (a b : BitVec 32) : Option (BitVec 32) :=
  match op with
  | add => some (a + b)
  | sub => some (a - b)
  | mul => some (a * b)
  | sdiv => if b = 0 ∨ (a = .intMin 32 ∧ b = -1) then none else some (a.sdiv b)
  | srem => if b = 0 ∨ (a = .intMin 32 ∧ b = -1) then none else some (a.srem b)

end ArithOp

namespace LogicOp

def eval (op : LogicOp) (a b : Bool) : Bool :=
  match op with
  | and => a && b
  | or => a || b
  | xor => a ^^ b

end LogicOp

namespace Predicate

def eval (p : Predicate) : Val P → Val P → Option Bool
  | .i32 a, .i32 b => some <| match p with
    | eq => a == b
    | ne => a != b
    | slt => a.slt b
    | sgt => b.slt a
    | sle => a.sle b
    | sge => b.sle a
  | .i1 a, .i1 b => match p with
    | eq => some (a == b)
    | ne => some (a != b)
    | _ => none
  | _, _ => none

end Predicate

/-! ## Frames -/

/-- What a temporary holds: a value, or the address of a member of the object. -/
inductive Temp (P : Type) where
  | value (v : Val P)
  | field (position : Nat)
deriving DecidableEq, Repr

/-- The slot of a parameter, which has no value until one is stored. -/
structure Slot (P : Type) where
  type : ValueType
  value : Option (Val P) := none
deriving DecidableEq, Repr

/-- What changes while a function runs. -/
structure Frame (W P : Type) where
  world : W
  object : List (Cell P)
  slots : Nat → Option (Slot P) := fun _ => none
  temps : Nat → Option (Temp P) := fun _ => none
  trace : List (Call P) := []

namespace Frame

def setTemp (fr : Frame W P) (i : Nat) (t : Temp P) : Frame W P :=
  { fr with temps := fun j => if j = i then some t else fr.temps j }

def setSlot (fr : Frame W P) (i : Nat) (s : Slot P) : Frame W P :=
  { fr with slots := fun j => if j = i then some s else fr.slots j }

theorem setSlot_setSlot (fr : Frame W P) (i : Nat) (s s' : Slot P) :
    (fr.setSlot i s).setSlot i s' = fr.setSlot i s' := by
  simp only [setSlot]
  congr 1
  funext j
  split <;> rfl

/-- The host answers a call. -/
def call (fr : Frame W P) (host : Host W P) (c : Call P) : Frame W P × Cell P :=
  let reply := host.call fr.world fr.object c
  ({ fr with world := reply.world, object := fr.object.mapIdx fun i _ => reply.members i,
             trace := fr.trace ++ [c] }, reply.result)

def outcome (fr : Frame W P) (finished : Bool) : Outcome W P where
  finished
  world := fr.world
  members := fr.object
  trace := fr.trace

end Frame

/-- A function that runs: the host, the string constants of its module, the layout of the object,
and the arguments. -/
structure Activation (W P : Type) where
  host : Host W P
  strings : List Bytes
  layout : Layout
  function : Function
  args : Nat → Cell P

namespace Activation

section
variable (A : Activation W P) (fr : Frame W P)

/-! ## Instructions -/

def value : Operand → Option (Val P)
  | .int n => some (.i32 (.ofNat 32 n))
  | .bool b => some (.i1 b)
  | .null => some (.ptr A.host.null)
  | .temp i => match fr.temps i with
    | some (.value v) => some v
    | _ => none
  | .param i => A.function.params[i]?.map (A.args i).load
  | .self => some (.ptr A.host.self)
  | .builder => if A.function.builder then some (.ptr A.host.builder) else none
  | .str i size => A.strings[i]?.bind fun text =>
    if size = text.length + 1 then some (.ptr (A.host.text text)) else none
  | .descriptor type => some (.ptr (A.host.descriptor type))
  | .function symbol => some (.code symbol)

/-- The value of an operand that is used at a type. -/
def operand (type : ValueType) (o : Operand) : Option (Val P) :=
  (A.value fr o).filter (·.hasType type)

def load (type : ValueType) : Address → Option (Val P)
  | .temp t => match fr.temps t with
    | some (.field k) =>
      if A.layout.slots[k]? = some type then fr.object[k]?.map (·.load type) else none
    | _ => none
  | .slot p => (fr.slots p).bind fun s => if s.type = type then s.value else none

def store (type : ValueType) (v : Val P) : Address → Option (Frame W P)
  | .temp t => match fr.temps t with
    | some (.field k) =>
      if A.layout.slots[k]? = some type then
        some { fr with object := fr.object.modify k (·.store v) }
      else none
    | _ => none
  | .slot p => (fr.slots p).bind fun s =>
    if s.type = type then some (fr.setSlot p { s with value := some v }) else none

/-- The signature of the callee. Methods give nothing back. -/
def fits (callee : Callee) (args : List Value) (result : Option ValueType) : Bool :=
  match callee with
  | .runtime f => args.map (·.type) = f.params ∧ result = f.result
  | .method _ => result = none

/-- One instruction that does not transfer control. -/
def exec : Instr → Option (Frame W P)
  | .alloca p type => some (fr.setSlot p { type })
  | .field dest type slot =>
    if type = A.layout.type ∧ 0 < slot ∧ slot ≤ A.layout.slots.length then
      some (fr.setTemp dest (.field (slot - 1)))
    else none
  | .load dest type source => (A.load fr type source).map fun v => fr.setTemp dest (.value v)
  | .store type o target => (A.operand fr type o).bind fun v => A.store fr type v target
  | .arith dest op l r =>
    match A.operand fr .i32 l, A.operand fr .i32 r with
    | some (.i32 a), some (.i32 b) =>
      (op.eval a b).map fun n => fr.setTemp dest (.value (.i32 n))
    | _, _ => none
  | .logic dest op l r =>
    match A.operand fr .i1 l, A.operand fr .i1 r with
    | some (.i1 a), some (.i1 b) => some (fr.setTemp dest (.value (.i1 (op.eval a b))))
    | _, _ => none
  | .compare dest pred type l r =>
    match A.operand fr type l, A.operand fr type r with
    | some a, some b => (pred.eval a b).map fun n => fr.setTemp dest (.value (.i1 n))
    | _, _ => none
  | .call dest callee args =>
    if fits callee args (dest.map (·.2)) then
      (args.mapM fun a => A.operand fr a.type a.operand).map fun values =>
        let (fr, result) := fr.call A.host { callee, args := values }
        match dest with
        | some (d, type) => fr.setTemp d (.value (result.load type))
        | none => fr
    else none
  | .branch _ _ _ | .jump _ | .label _ | .ret => none

/-! ## Control -/

/-- The code behind a label. -/
def behind (l : Label) : List Instr → Option (List Instr)
  | [] => none
  | i :: is => if i = .label l then some is else behind l is

/-- One step from the code that is left: what is left then, or how the run ends. -/
def step : List Instr → Except (Outcome W P) (List Instr × Frame W P)
  | .ret :: _ => .error (fr.outcome true)
  | .jump l :: _ => match behind l A.function.body with
    | some code => .ok (code, fr)
    | none => .error (fr.outcome false)
  | .branch c yes no :: _ => match A.operand fr .i1 c with
    | some (.i1 b) => match behind (if b then yes else no) A.function.body with
      | some code => .ok (code, fr)
      | none => .error (fr.outcome false)
    | _ => .error (fr.outcome false)
  | i :: is => match A.exec fr i with
    | some fr => .ok (is, fr)
    | none => .error (fr.outcome false)
  | [] => .error (fr.outcome false)

/-- Runs for at most `n` steps. -/
def run (n : Nat) (code : List Instr) (fr : Frame W P) : Option (Outcome W P) :=
  match n with
  | 0 => none
  | n + 1 => match A.step fr code with
    | .ok (code, fr) => run n code fr
    | .error outcome => some outcome

/-- The run of the function on an object ends in this way, given enough steps. -/
def Ends (world : W) (object : List (Cell P)) (outcome : Outcome W P) : Prop :=
  ∃ n, ∀ k ≥ n, A.run k A.function.body { world, object } = some outcome

end

theorem run_add {A : Activation W P} {n : Nat} {code : List Instr} {fr : Frame W P} {outcome : Outcome W P}
    (h : A.run n code fr = some outcome) (k : Nat) : A.run (n + k) code fr = some outcome := by
  induction n generalizing code fr with
  | zero => simp [run] at h
  | succ n ih =>
    rw [Nat.add_right_comm]
    rw [run] at h ⊢
    split at h
    · exact ih h
    · exact h

end Activation

end ViewCompiler.Code
