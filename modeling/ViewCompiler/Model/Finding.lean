import ViewCompiler.Model

/-!
What analysis finds besides bindings: reports, the usings that were needed and the members that are
read. `Checked` carries a value together with its findings.
-/

namespace ViewCompiler

/-- What can be wrong with the meaning of a program, or needless in it. -/
inductive SemanticError where
  | typeNotFound (name : Bytes)
  | ambiguousType (name first second : Bytes)
  | duplicateType (ns name : Bytes)
  | routeOnClass (name : Bytes)
  | duplicateMember (type name : Bytes)
  | duplicateParameter (name : Bytes)
  | injectedBuiltin (name : Bytes)
  | renderOnClass (type : Bytes)
  | builtinBase (name : Bytes)
  | ownBase (type : Bytes)
  | baseOfOtherKind (type base : Bytes) (kind : TypeKind)
  | circularBase (type via : Bytes)
  | unknownName (name : Bytes)
  | memberInInitializer (name : Bytes)
  | unaryOperand (op : UnaryOp) (type : Bytes)
  | binaryOperands (op : BinaryOp) (left right : Bytes)
  | conversion (source target : Bytes)
  | methodConversion (method target : Bytes)
  | callbackWithParameters (method : Bytes)
  | assignedMethod (name : Bytes)
  | assignedService (name : Bytes)
  | unknownMethod (type method : Bytes)
  | callbackArguments (name : Bytes) (given : Nat)
  | argumentCount (method : Bytes) (expected given : Nat)
  | misplacedAttribute (name : Bytes)
  | closeWithoutOpen
  | unclosedElement (tag : Bytes)
  | unrenderable (type : Bytes)
  | attributeValue (type : Bytes)
  | notComponent (name : Bytes)
  | repeatedArgument (name : Bytes)
  | unknownParameter (component name : Bytes)
  | noChildContent (component : Bytes)
  | neverRead (type field : Bytes)
  | unnecessaryUsing (ns : Bytes)
deriving DecidableEq, Repr, Inhabited

namespace SemanticError

def code : SemanticError → Bytes
  | typeNotFound _ => "IL2001"
  | duplicateType _ _ => "IL2002"
  | duplicateMember _ _ | duplicateParameter _ | repeatedArgument _ => "IL2003"
  | unknownName _ => "IL2004"
  | injectedBuiltin _ | unaryOperand _ _ | binaryOperands _ _ _ | conversion _ _
  | methodConversion _ _ | unrenderable _ | attributeValue _ => "IL2005"
  | unknownMethod _ _ => "IL2006"
  | callbackArguments _ _ | argumentCount _ _ _ => "IL2007"
  | routeOnClass _ | renderOnClass _ | notComponent _ => "IL2008"
  | unknownParameter _ _ => "IL2009"
  | noChildContent _ => "IL2010"
  | builtinBase _ | baseOfOtherKind _ _ _ => "IL2011"
  | callbackWithParameters _ => "IL2012"
  | assignedMethod _ | assignedService _ => "IL2013"
  | misplacedAttribute _ | closeWithoutOpen | unclosedElement _ => "IL2015"
  | ambiguousType _ _ _ => "IL2016"
  | ownBase _ | circularBase _ _ => "IL2017"
  | memberInInitializer _ => "IL2019"
  | neverRead _ _ => "IL3001"
  | unnecessaryUsing _ => "IL4001"

def severity : SemanticError → Severity
  | neverRead _ _ => .warning
  | unnecessaryUsing _ => .info
  | _ => .error

def message : SemanticError → Bytes
  | typeNotFound name => "The type or namespace name " ++ name.quoted ++ " could not be found"
  | ambiguousType name first second =>
    name.quoted ++ " is an ambiguous reference between " ++ first.quoted ++ " and " ++ second.quoted
  | duplicateType ns name =>
    (if ns = [] then Bytes.ofString "The global namespace" else "The namespace " ++ ns.quoted)
      ++ " already contains a definition for " ++ name.quoted
  | routeOnClass name => "Only components can declare a route (" ++ name.quoted ++ " is a class)"
  | duplicateMember type name =>
    "Type " ++ type.quoted ++ " already defines a member named " ++ name.quoted
  | duplicateParameter name => "Parameter " ++ name.quoted ++ " is declared more than once"
  | injectedBuiltin name => "Injected service " ++ name.quoted ++ " must be of a class type"
  | renderOnClass type => type.quoted ++ " is not a component and cannot define a render block"
  | builtinBase name => "Type " ++ name.quoted ++ " cannot be used as a base type"
  | ownBase type => "Circular base type dependency involving " ++ type.quoted
  | baseOfOtherKind type base kind =>
    type.quoted ++ " cannot derive from " ++ base.quoted ++ ": a " ++ kind.text
      ++ " must derive from a " ++ kind.text
  | circularBase type via =>
    "Circular base type dependency involving " ++ type.quoted ++ " and " ++ via.quoted
  | unknownName name => "The name " ++ name.quoted ++ " does not exist in the current context"
  | memberInInitializer name => "A field initializer cannot reference member " ++ name.quoted
  | unaryOperand op type =>
    "Operator " ++ op.text.quoted ++ " cannot be applied to operand of type " ++ type.quoted
  | binaryOperands op left right =>
    "Operator " ++ op.text.quoted ++ " cannot be applied to operands of type " ++ left.quoted
      ++ " and " ++ right.quoted
  | conversion source target =>
    "Cannot convert type " ++ source.quoted ++ " to " ++ target.quoted
  | methodConversion method target =>
    "Cannot convert method group " ++ method.quoted ++ " to " ++ target.quoted
  | callbackWithParameters method =>
    "Method " ++ method.quoted ++ " cannot be used as a callback because it takes parameters"
  | assignedMethod name => "Cannot assign to " ++ name.quoted ++ " because it is a method"
  | assignedService name => "Cannot assign to injected service " ++ name.quoted
  | unknownMethod type method =>
    "Type " ++ type.quoted ++ " does not contain a method named " ++ method.quoted
  | callbackArguments name given =>
    "Callback " ++ name.quoted ++ " takes 0 arguments but " ++ Bytes.ofNat given ++ " were given"
  | argumentCount method expected given =>
    "Method " ++ method.quoted ++ " takes " ++ Bytes.ofNat expected ++ " argument(s) but "
      ++ Bytes.ofNat given ++ " were given"
  | misplacedAttribute name => "Attribute " ++ name.quoted ++ " must directly follow an open element"
  | closeWithoutOpen => "'close' without a matching 'open'"
  | unclosedElement tag => "Element " ++ tag.quoted ++ " is not closed"
  | unrenderable type => "Cannot render a value of type " ++ type.quoted
  | attributeValue type => "Cannot use a value of type " ++ type.quoted ++ " as an attribute value"
  | notComponent name => name.quoted ++ " is not a component"
  | repeatedArgument name => "Parameter " ++ name.quoted ++ " is specified more than once"
  | unknownParameter component name =>
    "Component " ++ component.quoted ++ " does not have a parameter named " ++ name.quoted
  | noChildContent component =>
    "Component " ++ component.quoted ++ " does not accept child content"
  | neverRead type field => "The field " ++ Bytes.quoted (type ++ "." ++ field) ++ " is never read"
  | unnecessaryUsing ns => "Using directive " ++ ns.quoted ++ " is unnecessary"

def diagnostic (file : Bytes) (span : Span) (e : SemanticError) : Diagnostic :=
  .located file span e.severity e.code e.message

end SemanticError

/-- What analysing a piece of a program finds. -/
structure Findings where
  reports : List (Span × SemanticError) := []
  usings : List Bytes := []
  reads : List MemberId := []
deriving DecidableEq, Repr, Inhabited

namespace Findings

protected def append (a b : Findings) : Findings where
  reports := a.reports ++ b.reports
  usings := a.usings ++ b.usings
  reads := a.reads ++ b.reads

instance : Append Findings := ⟨Findings.append⟩

def diagnostics (file : Bytes) (f : Findings) : List Diagnostic :=
  f.reports.map fun (span, e) => e.diagnostic file span

end Findings

/-- A value and what was found on the way to it. -/
structure Checked (α : Type) where
  value : α
  findings : Findings := {}
deriving Inhabited

namespace Checked

variable {α β : Type}

instance : Monad Checked where
  pure a := { value := a }
  bind c f :=
    let d := f c.value
    { value := d.value, findings := c.findings ++ d.findings }

def report (span : Span) (e : SemanticError) : Checked Unit :=
  { value := (), findings := { reports := [(span, e)] } }

/-- Notes that a using directive was needed. -/
def needs (ns : Bytes) : Checked Unit := { value := (), findings := { usings := [ns] } }

/-- Notes that a data member is read. -/
def reads (id : MemberId) : Checked Unit := { value := (), findings := { reads := [id] } }

end Checked

end ViewCompiler
