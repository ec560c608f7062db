import ViewCompiler.Symbol.Table

/-!
The meaning of a unit: its types with all names resolved. Bound trees repeat the shape of syntax
trees; each name, assignment, call and component carries what it was bound to, or nothing when it
could not be bound (and a diagnostic was reported).
-/

namespace ViewCompiler

/-! ## Types of expressions -/

/-- The type of an expression. `error` is the type of what was already reported: nothing built on
it is reported again. -/
inductive Ty where
  | error | int | string | bool | fragment | callback | methodGroup
  | object (type : TypeId)
deriving DecidableEq, Repr, Inhabited

namespace Ty

/-- The type of a canonical name. -/
def ofName (t : SymbolTable) (name : Bytes) : Ty :=
  if name = "int" then .int
  else if name = "string" then .string
  else if name = "bool" then .bool
  else if name = "fragment" then .fragment
  else if name = "callback" then .callback
  else match t.find? name with
    | some id => .object id
    | none => .error

/-- How messages show a type. -/
def display (t : SymbolTable) : Ty → Bytes
  | error => "?"
  | int => "int"
  | string => "string"
  | bool => "bool"
  | fragment => "fragment"
  | callback => "callback"
  | methodGroup => "method group"
  | object id => t.nameOf id

/-- Integers, strings and booleans. -/
def isScalar : Ty → Bool
  | int | string | bool => true
  | _ => false

/-- Types whose values can stand in a render block. -/
def isRenderable : Ty → Bool
  | int | string | bool | fragment => true
  | _ => false

end Ty

/-! ## Bindings -/

/-- What a name means: a parameter of the method, or a data member or method of `this`. -/
inductive Binding where
  | param (index : Nat)
  | member (id : MemberId)
  | method (id : MethodId)
deriving DecidableEq, Repr, Inhabited

/-- What a call does: it runs a method, on `this` when there is no receiver, or a callback. -/
inductive CallBinding where
  | method (id : MethodId) (receiver : Option Binding)
  | callback (target : Binding)
deriving DecidableEq, Repr, Inhabited

/-! ## Bound trees -/

inductive BoundExpr where
  | int (span : Span) (value : Nat)
  | string (span : Span) (text : Bytes)
  | bool (span : Span) (value : Bool)
  | name (span : Span) (name : Bytes) (binding : Option Binding) (type : Ty)
  | unary (span : Span) (op : UnaryOp) (operand : BoundExpr) (type : Ty)
  | binary (span : Span) (op : BinaryOp) (left right : BoundExpr) (type : Ty)
deriving DecidableEq, Repr, Inhabited

namespace BoundExpr

def span : BoundExpr → Span
  | int s _ | string s _ | bool s _ | name s _ _ _ | unary s _ _ _ | binary s _ _ _ _ => s

def type : BoundExpr → Ty
  | int _ _ => .int
  | string _ _ => .string
  | bool _ _ => .bool
  | name _ _ _ t | unary _ _ _ t | binary _ _ _ _ t => t

end BoundExpr

inductive BoundStmt where
  | assign (span : Span) (target : Bytes) (binding : Option Binding) (value : BoundExpr)
  | call (span : Span) (binding : Option CallBinding) (args : List BoundExpr)
  | cond (span : Span) (condition : BoundExpr) (thenBody elseBody : List BoundStmt)
  | ret (span : Span)
deriving Inhabited

/-- An argument of a component with the parameter that it sets. -/
structure BoundArg where
  name : Bytes
  span : Span
  value : BoundExpr
  param : Option MemberId
deriving DecidableEq, Repr, Inhabited

/-- A render operation. `type` is the component that is rendered and `content` its parameter for
the child block. -/
inductive BoundOp where
  | openElement (span : Span) (tag : Bytes)
  | attr (span : Span) (name : Bytes) (value : BoundExpr)
  | closeElement (span : Span)
  | text (span : Span) (text : Bytes)
  | value (span : Span) (value : BoundExpr)
  | component (span : Span) (type : Option TypeId) (args : List BoundArg) (childSpan : Option Span)
      (child : List BoundOp) (content : Option MemberId)
deriving Inhabited

structure BoundMethod where
  name : Bytes
  body : List BoundStmt
deriving Inhabited

/-- A declared type with its bodies. `inits` runs parallel to the members, `methods` to the
methods of its symbol. -/
structure BoundType where
  id : TypeId
  inits : List (Option BoundExpr)
  methods : List BoundMethod
  render : Option (List BoundOp)
deriving Inhabited

/-! ## The model -/

/-- An analysed unit. The table holds the types of the references and then the declared types;
`types` are the bodies of the declared ones. -/
structure Model where
  table : SymbolTable
  types : List BoundType
  treeCount : Nat
  diagnostics : List Diagnostic
deriving Inhabited

namespace Model

def hasErrors (m : Model) : Bool := Diagnostic.hasErrors m.diagnostics

/-- Whether a type of the table is declared by the unit itself. -/
def declares (m : Model) (id : TypeId) : Bool := m.types.any (·.id = id)

/-- The symbols of the declared types. -/
def declared (m : Model) : List TypeSymbol := m.types.filterMap fun t => m.table.get? t.id

end Model

end ViewCompiler
