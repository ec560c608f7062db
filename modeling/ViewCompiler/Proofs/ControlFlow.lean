import Mathlib.Data.List.Nodup
import ViewCompiler.Code.Text
import ViewCompiler.Proofs.Numerals
import ViewCompiler.Proofs.Simulation

/-!
Functions as control-flow graphs. A body is cut into blocks at its labels; registers are what its
instructions read and assign. `Function.WellFormed` says that a body is in static single assignment
form, in terms of the names that are written.
-/

namespace ViewCompiler

namespace Code

/-! ## Registers -/

/-- What a function names: its parameters, the object as a structure, the slots of its parameters
and the temporaries. -/
inductive Register where
  | self | builder | param (index : Nat) | this | slot (param : Nat) | temp (index : Nat)
deriving DecidableEq, Repr, Inhabited

namespace Register

def name : Register → Bytes
  | self => "%self"
  | builder => "%builder"
  | param i => "%p" ++ Bytes.ofNat i
  | this => "%this"
  | slot i => slotName i
  | temp i => tempName i

def isTemp : Register → Bool
  | temp _ => true
  | _ => false

end Register

/-- The register that an operand is. -/
def Operand.register? : Operand → Option Register
  | temp i => some (.temp i)
  | param i => some (.param i)
  | self => some .self
  | builder => some .builder
  | _ => none

def Address.register : Address → Register
  | temp i => .temp i
  | slot i => .slot i

namespace Instr

/-- The registers that an instruction uses. -/
def reads : Instr → List Register
  | field _ _ _ => [.this]
  | load _ _ source => [source.register]
  | store _ value target => value.register?.toList ++ [target.register]
  | arith _ _ left right | logic _ _ left right | compare _ _ _ left right =>
    left.register?.toList ++ right.register?.toList
  | call _ _ args => args.flatMap (·.operand.register?.toList)
  | branch condition _ _ => condition.register?.toList
  | alloca _ _ | jump _ | label _ | ret => []

/-- The register that an instruction assigns. -/
def writes : Instr → Option Register
  | alloca param _ => some (.slot param)
  | field dest _ _ | load dest _ _ | arith dest _ _ _ | logic dest _ _ _ | compare dest _ _ _ _
  | call (some (dest, _)) _ _ => some (.temp dest)
  | _ => none

def isTerminator : Instr → Bool
  | branch _ _ _ | jump _ | ret => true
  | _ => false

/-- The labels that an instruction can go to. -/
def targets : Instr → List Label
  | branch _ yes no => [yes, no]
  | jump target => [target]
  | _ => []

end Instr

/-! ## Blocks -/

/-- A piece of a body that starts at the entry or at a label. -/
structure Block where
  label : Option Label
  code : List Instr
deriving DecidableEq, Repr, Inhabited

namespace Block

/-- What stands before the colon that starts the block. -/
def name (b : Block) : Bytes := (b.label.map Label.text).getD "entry"

/-- The block ends with its only terminator. -/
def Closed (b : Block) : Prop :=
  ∃ code last, b.code = code ++ [last] ∧ last.isTerminator ∧ ∀ i ∈ code, i.isTerminator = false

end Block

/-- The blocks of code, where `code` stands already in the block of `label`. -/
def cut (label : Option Label) (code : List Instr) : List Instr → List Block
  | [] => [{ label, code }]
  | .label l :: is => { label, code } :: cut (some l) [] is
  | i :: is => cut label (code ++ [i]) is

namespace Function

def blocks (f : Function) : List Block := cut none [] f.body

/-- The code of the first block. -/
def entry (f : Function) : List Instr := ((f.blocks.head?).map (·.code)).getD []

/-- The registers that a call of the function sets. -/
def inputs (f : Function) : List Register :=
  .self :: ((List.range f.params.length).map .param ++ if f.builder then [.builder] else [])

/-- A well-formed control-flow graph in static single assignment form. The object as a structure is
assigned before the first instruction of the body. -/
structure WellFormed (f : Function) : Prop where
  /-- Every block ends with its only terminator. -/
  closed : ∀ b ∈ f.blocks, b.Closed
  /-- No block has the name of another one, … -/
  labels : (f.blocks.map Block.name).Nodup
  /-- … and control goes to blocks of the function, never back to its entry. -/
  targets : ∀ i ∈ f.body, ∀ l ∈ i.targets, l.text ∈ f.blocks.tail.map Block.name
  /-- No register is assigned twice. -/
  assigned : ((f.inputs ++ .this :: f.body.filterMap Instr.writes).map Register.name).Nodup
  /-- A register is a parameter or assigned earlier in the block that uses it; one that is no
  temporary may also be assigned in the entry. -/
  used : ∀ b ∈ f.blocks, ∀ before i after, b.code = before ++ i :: after → ∀ r ∈ i.reads,
    r ∈ f.inputs ++ .this :: before.filterMap Instr.writes ∨
      r.isTemp = false ∧ b.label.isSome ∧ r ∈ f.entry.filterMap Instr.writes

end Function

/-! ## Names -/

namespace Register

theorem name_param_ne_slot (i j : Nat) : name (.param i) ≠ name (.slot j) := by
  intro h
  have hdigits : Bytes.ofNat i = Bytes.ofNat j ++ ".addr" := by
    rw [name, name, slotName, List.append_assoc] at h
    exact List.append_cancel_left h
  have hdot : Ascii.dot ∈ Bytes.ofNat i := by
    rw [hdigits]
    exact List.mem_append_right _ (by decide)
  cases Bytes.isDigit_of_mem_ofNat hdot

theorem name_temp_ne_this (i : Nat) : name (.temp i) ≠ name .this := by
  intro h
  have hdigits : Bytes.ofNat i = "his" :=
    List.append_cancel_left (show ("%t" : Bytes) ++ Bytes.ofNat i = ("%t" : Bytes) ++ "his" from h)
  have hletter : 104 ∈ Bytes.ofNat i := by
    rw [hdigits]
    decide
  cases Bytes.isDigit_of_mem_ofNat hletter

theorem name_injective : Function.Injective name := by
  intro r r' h
  cases r with
  | self | builder => cases r' <;> first | rfl | cases h
  | param i =>
    cases r' with
    | param j => exact congrArg param (Bytes.ofNat_injective (List.append_cancel_left h))
    | slot j => exact absurd h (name_param_ne_slot i j)
    | _ => cases h
  | this =>
    cases r' with
    | this => rfl
    | temp j => exact absurd h.symm (name_temp_ne_this j)
    | _ => cases h
  | slot i =>
    cases r' with
    | param j => exact absurd h.symm (name_param_ne_slot j i)
    | slot j =>
      have hdigits := List.append_cancel_left (List.append_cancel_right h)
      exact congrArg slot (Bytes.ofNat_injective hdigits)
    | _ => cases h
  | temp i =>
    cases r' with
    | this => exact absurd h (name_temp_ne_this i)
    | temp j => exact congrArg temp (Bytes.ofNat_injective (List.append_cancel_left h))
    | _ => cases h

end Register

namespace Label

theorem text_injective : Function.Injective text := by
  rintro ⟨kind, i⟩ ⟨kind', j⟩ h
  cases kind <;> cases kind' <;> first
    | exact congrArg _ (Bytes.ofNat_injective (List.append_cancel_left h))
    | cases h

theorem text_ne_entry (l : Label) : l.text ≠ "entry" := by
  obtain ⟨kind, i⟩ := l
  cases kind <;> exact fun h => by cases h

end Label

end Code

end ViewCompiler
