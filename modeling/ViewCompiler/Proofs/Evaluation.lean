import ViewCompiler.Proofs.Machine
import ViewCompiler.Proofs.Typing

/-!
The meaning of method bodies, given directly on bound trees. Operands are evaluated eagerly and
from left to right, the receiver of a call before its arguments, a conditional runs one of its
branches, and `return` ends the method. Data members are looked up by what they are, not by where
they are in the object.

Runtime functions are calls like any other: joining texts, turning integers and booleans into text,
comparing strings, and making and invoking callbacks. A body gets stuck on the divisions that have
no result.
-/

namespace ViewCompiler

open Code

/-- What changes while a body is evaluated. -/
structure Store (W P : Type) where
  world : W
  members : MemberId → Cell P
  locals : Nat → Val P
  trace : List (Call P) := []

/-- An evaluation gives a value, or gets stuck in some state. -/
abbrev Eval (W P α : Type) := StateT (Store W P) (Except (Store W P)) α

/-- How a statement ends. -/
inductive Flow where
  | next | returned
deriving DecidableEq, Repr, Inhabited

/-- What the meaning of a body depends on. -/
structure Evaluator (W P : Type) where
  context : TypingContext
  host : Host W P

namespace Evaluator

variable {W P : Type}

def stuck {α : Type} : Eval W P α := do throw (← get)

def bound {α : Type} : Option α → Eval W P α
  | some a => pure a
  | none => stuck

section
variable (E : Evaluator W P)

/-- The data members of the object, in order. -/
def layout : List MemberId := E.context.table.layout E.context.current

def memberType (id : MemberId) : ValueType :=
  .ofName (((E.context.table.member? id).map (·.type)).getD [])

/-- The symbol by which a method is called. -/
def symbol (id : MethodId) : Bytes :=
  methodSymbol (E.context.table.nameOf id.owner)
    (((E.context.table.method? id).map (·.name)).getD [])

/-- The host answers a call, and may change all members of the object. -/
def answer (c : Call P) (s : Store W P) : Cell P × Store W P :=
  let reply := E.host.call s.world (E.layout.map s.members) c
  (reply.result, { s with
    world := reply.world
    members := fun id =>
      if id ∈ E.layout then reply.members (E.layout.idxOf id) else s.members id
    trace := s.trace ++ [c] })

def call (callee : Callee) (args : List (Val P)) : Eval W P (Cell P) :=
  modifyGet (E.answer { callee, args })

/-- Calls a runtime function for its result. -/
def compute (f : Runtime) (type : ValueType) (args : List (Val P)) : Eval W P (Val P) := do
  let result ← E.call (.runtime f) args
  pure (result.load type)

/-! ## Expressions -/

/-- The value of a parameter or data member; a method becomes a callback. -/
def read : Binding → Eval W P (Val P)
  | .param i => do
    let s ← get
    pure (s.locals i)
  | .member id => do
    let s ← get
    pure ((s.members id).load (E.memberType id))
  | .method id => E.compute .makeCallback .ptr [.code (E.symbol id), .ptr E.host.self]

def write (v : Val P) : Binding → Eval W P Unit
  | .param i => modify fun s => { s with locals := fun j => if j = i then v else s.locals j }
  | .member id => modify fun s =>
    { s with members := fun m => if m = id then (s.members id).store v else s.members m }
  | .method _ => stuck

/-- A value as text. -/
def toText : Val P → Eval W P (Val P)
  | .i32 n => E.compute .intToString .ptr [.i32 n]
  | .i1 b => E.compute .boolToString .ptr [.i1 b]
  | v => pure v

def unary : UnaryOp → Val P → Eval W P (Val P)
  | .not, .i1 b => pure (.i1 !b)
  | .neg, .i32 n => pure (.i32 (-n))
  | _, _ => stuck

/-- Whether two values are the same; strings are compared by the runtime. -/
def equal : Val P → Val P → Eval W P Bool
  | .i32 a, .i32 b => pure (a == b)
  | .i1 a, .i1 b => pure (a == b)
  | a, b => do
    let result ← E.call (.runtime .stringEquals) [a, b]
    pure result.bit

/-- Whether the answer to that question is the expected one. -/
def equality (expected : Bool) (a b : Val P) : Eval W P (Val P) := do
  let same ← E.equal a b
  pure (.i1 (same == expected))

/-- An operation on integers. -/
def onInts (f : BitVec 32 → BitVec 32 → Option (Val P)) : Val P → Val P → Eval W P (Val P)
  | .i32 a, .i32 b => bound (f a b)
  | _, _ => stuck

def onBools (f : Bool → Bool → Bool) : Val P → Val P → Eval W P (Val P)
  | .i1 a, .i1 b => pure (.i1 (f a b))
  | _, _ => stuck

/-- The divisions that have a result: not by zero, and not the one that overflows. -/
def divides (a b : BitVec 32) : Bool := b ≠ 0 ∧ ¬ (a = .intMin 32 ∧ b = -1)

def binary : BinaryOp → Val P → Val P → Eval W P (Val P)
  | .add, .i32 a, .i32 b => pure (.i32 (a + b))
  | .add, a, b => do
    let left ← E.toText a
    let right ← E.toText b
    E.compute .concat .ptr [left, right]
  | .sub, a, b => onInts (fun a b => some (.i32 (a - b))) a b
  | .mul, a, b => onInts (fun a b => some (.i32 (a * b))) a b
  | .div, a, b => onInts (fun a b => if divides a b then some (.i32 (a.sdiv b)) else none) a b
  | .mod, a, b => onInts (fun a b => if divides a b then some (.i32 (a.srem b)) else none) a b
  | .eq, a, b => E.equality true a b
  | .ne, a, b => E.equality false a b
  | .lt, a, b => onInts (fun a b => some (.i1 (a.slt b))) a b
  | .gt, a, b => onInts (fun a b => some (.i1 (b.slt a))) a b
  | .le, a, b => onInts (fun a b => some (.i1 (a.sle b))) a b
  | .ge, a, b => onInts (fun a b => some (.i1 (b.sle a))) a b
  | .and, a, b => onBools and a b
  | .or, a, b => onBools or a b

def expr : BoundExpr → Eval W P (Val P)
  | .int _ value => pure (.i32 (.ofNat 32 value))
  | .string _ text => pure (.ptr (E.host.text text))
  | .bool _ value => pure (.i1 value)
  | .name _ _ binding _ => do
    let binding ← bound binding
    E.read binding
  | .unary _ op operand _ => do
    let v ← expr operand
    unary op v
  | .binary _ op left right _ => do
    let a ← expr left
    let b ← expr right
    E.binary op a b

/-! ## Statements -/

def arguments : List BoundExpr → Eval W P (List (Val P))
  | [] => pure []
  | e :: es => do
    let v ← E.expr e
    let vs ← arguments es
    pure (v :: vs)

/-- The object on which a method is called. -/
def receiver : Option Binding → Eval W P (Val P)
  | some binding => E.read binding
  | none => pure (.ptr E.host.self)

def invoke (args : List BoundExpr) : CallBinding → Eval W P Unit
  | .callback target => do
    let callback ← E.read target
    let _ ← E.call (.runtime .invokeCallback) [callback]
    pure ()
  | .method id target => do
    let object ← E.receiver target
    let values ← E.arguments args
    let _ ← E.call (.method (E.symbol id)) (object :: values)
    pure ()

mutual

def stmt : BoundStmt → Eval W P Flow
  | .assign _ _ binding value => do
    let v ← E.expr value
    let binding ← bound binding
    write v binding
    pure .next
  | .call _ binding args => do
    let binding ← bound binding
    E.invoke args binding
    pure .next
  | .cond _ condition thenBody elseBody => do
    match ← E.expr condition with
    | .i1 true => stmts thenBody
    | .i1 false => stmts elseBody
    | _ => stuck
  | .ret _ => pure .returned

def stmts : List BoundStmt → Eval W P Flow
  | [] => pure .next
  | s :: ss => do
    match ← stmt s with
    | .next => stmts ss
    | .returned => pure .returned

end

/-- The state in which an evaluation ends or gets stuck. -/
def outcome (s : Store W P) (finished : Bool) : Outcome W P where
  finished
  world := s.world
  members := E.layout.map s.members
  trace := s.trace

/-- What a method body does to an object with these members when it is called with these
arguments. -/
def method (body : List BoundStmt) (world : W) (members : MemberId → Cell P) (args : Nat → Cell P) :
    Outcome W P :=
  let types := E.context.params.map ValueType.ofName
  let start : Store W P :=
    { world, members, locals := fun i => (args i).load (types[i]?.getD .ptr) }
  match (E.stmts body).run start with
  | .ok (_, s) => E.outcome s true
  | .error s => E.outcome s false

end

end Evaluator

end ViewCompiler
