import ViewCompiler.Token

/-!
Syntax trees of the component language: expressions, statements, render operations and the
declarations that hold them. Every node knows where it stands in its source.
-/

namespace ViewCompiler

/-- A type as it is written: a built-in keyword or a dotted name. -/
structure TypeRef where
  name : Bytes
  span : Span
deriving DecidableEq, Repr, Inhabited

/-! ## Expressions -/

inductive UnaryOp where
  | not | neg
deriving DecidableEq, Repr, Inhabited

namespace UnaryOp

def text : UnaryOp → Bytes
  | not => "!"
  | neg => "-"

end UnaryOp

inductive BinaryOp where
  | add | sub | mul | div | mod | eq | ne | lt | gt | le | ge | and | or
deriving DecidableEq, Repr, Inhabited

namespace BinaryOp

/-- The punctuation that writes the operator. -/
def mark : BinaryOp → Punct
  | add => .plus
  | sub => .minus
  | mul => .star
  | div => .slash
  | mod => .percent
  | eq => .eqEq
  | ne => .bangEq
  | lt => .lt
  | gt => .gt
  | le => .ltEq
  | ge => .gtEq
  | and => .andAnd
  | or => .orOr

def text (op : BinaryOp) : Bytes := op.mark.text

end BinaryOp

/-- An expression. A binary expression stands at its operator. -/
inductive Expr where
  | int (span : Span) (value : Nat)
  | string (span : Span) (text : Bytes)
  | bool (span : Span) (value : Bool)
  | name (span : Span) (name : Bytes)
  | unary (span : Span) (op : UnaryOp) (operand : Expr)
  | binary (span : Span) (op : BinaryOp) (left right : Expr)
deriving DecidableEq, Repr, Inhabited

namespace Expr

def span : Expr → Span
  | int s _ | string s _ | bool s _ | name s _ | unary s _ _ | binary s _ _ _ => s

end Expr

/-! ## Statements -/

/-- A statement. The target of an assignment stands at the assignment's own place; the second body
of a conditional is empty without `else` and holds one conditional for `else if`. -/
inductive Stmt where
  | assign (span : Span) (target : Bytes) (value : Expr)
  | call (span : Span) (receiver : Option Bytes) (method : Bytes) (args : List Expr)
  | cond (span : Span) (condition : Expr) (thenBody elseBody : List Stmt)
  | ret (span : Span)
deriving Inhabited

/-! ## Render operations -/

structure ComponentArg where
  name : Bytes
  value : Expr
  span : Span
deriving DecidableEq, Repr, Inhabited

/-- One step of a render block. A component may have a child block: then `childSpan` is its place
and `child` what it holds; without one `child` is empty. -/
inductive RenderOp where
  | openElement (span : Span) (tag : Bytes)
  | attr (span : Span) (name : Bytes) (value : Expr)
  | closeElement (span : Span)
  | text (span : Span) (text : Bytes)
  | value (span : Span) (value : Expr)
  | component (span : Span) (type : TypeRef) (args : List ComponentArg) (childSpan : Option Span)
      (child : List RenderOp)
deriving Inhabited

/-! ## Declarations -/

inductive MemberKind where
  | param | inject | field
deriving DecidableEq, Repr, Inhabited

namespace MemberKind

def text : MemberKind → Bytes
  | param => "parameter"
  | inject => "injected service"
  | field => "field"

end MemberKind

structure DataMember where
  kind : MemberKind
  type : TypeRef
  name : Bytes
  init : Option Expr := none
  span : Span
deriving DecidableEq, Repr, Inhabited

structure Parameter where
  type : TypeRef
  name : Bytes
  span : Span
deriving DecidableEq, Repr, Inhabited

structure MethodDecl where
  name : Bytes
  params : List Parameter
  body : List Stmt
  span : Span
deriving Inhabited

structure RenderBlock where
  ops : List RenderOp
  span : Span
deriving Inhabited

inductive TypeKind where
  | component | cls
deriving DecidableEq, Repr, Inhabited

namespace TypeKind

def text : TypeKind → Bytes
  | component => "component"
  | cls => "class"

end TypeKind

structure TypeDecl where
  kind : TypeKind
  name : Bytes
  base : Option TypeRef := none
  route : Option Bytes := none
  members : List DataMember := []
  methods : List MethodDecl := []
  render : Option RenderBlock := none
  span : Span
deriving Inhabited

structure Using where
  ns : Bytes
  span : Span
deriving DecidableEq, Repr, Inhabited

/-- One parsed file. The namespace is empty for the global one. -/
structure SyntaxTree where
  file : Bytes
  ns : Bytes := []
  usings : List Using := []
  types : List TypeDecl := []
  diagnostics : List Diagnostic := []
deriving Inhabited

/-- The names of the built-in types. -/
def isBuiltinType (name : Bytes) : Bool :=
  name = "int" || name = "string" || name = "bool" || name = "fragment" || name = "callback"

end ViewCompiler
