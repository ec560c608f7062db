import ViewCompiler.Ast

/-!
Templates: markup with expressions, and directives that say what else the component has. A
template is read from an item (`Template.Item`) and turned into a component declaration.
-/

namespace ViewCompiler

/-! ## Markup -/

/-- An attribute of a start tag. It has no value when none was written. -/
structure Attribute where
  name : Bytes
  value : Option Bytes
  span : Span
deriving DecidableEq, Repr, Inhabited

namespace Attribute

/-- Attributes whose name starts with `@` bind an event. -/
def isEvent (a : Attribute) : Bool := a.name.head? = some Ascii.atSign

/-- The name without the mark of an event. -/
def plainName (a : Attribute) : Bytes := if a.isEvent then a.name.tail else a.name

/-- The expression that an attribute holds: that of a value with a leading `@`, or the value of an
event. -/
def expression? (a : Attribute) : Option Bytes :=
  a.value.bind fun value =>
    if value.head? = some Ascii.atSign then some value.tail
    else if a.isEvent then some value else none

end Attribute

inductive Node where
  | text (span : Span) (text : Bytes)
  | expr (span : Span) (code : Bytes)
  | element (span : Span) (tag : Bytes) (attributes : List Attribute) (children : List Node)
deriving Inhabited

/-- The elements that have no content and no end tag. -/
def voidElements : List Bytes :=
  ["area", "br", "col", "embed", "hr", "img", "input", "link", "meta", "source", "track", "wbr"]

def isVoidElement (tag : Bytes) : Bool := voidElements.contains tag

/-- Tags that may name a component: they start with an upper-case letter or have a dot. -/
def isComponentTag (tag : Bytes) : Bool := tag.head?.any Ascii.isUpper || tag.contains Ascii.dot

/-! ## Directives -/

inductive DirectiveKeyword where
  | code | inherits | inject | page | imports
deriving DecidableEq, Repr, Inhabited

namespace DirectiveKeyword

def text : DirectiveKeyword → Bytes
  | code => "code"
  | inherits => "inherits"
  | inject => "inject"
  | page => "page"
  | imports => "using"

def all : List DirectiveKeyword := [code, inherits, inject, page, imports]

end DirectiveKeyword

structure Injection where
  type : Bytes
  name : Bytes
  span : Span
deriving DecidableEq, Repr, Inhabited

/-- The text of a code block; it starts behind the opening brace. -/
structure CodeBlock where
  code : Bytes
  span : Span
deriving DecidableEq, Repr, Inhabited

/-! ## Faults -/

/-- What can be wrong with a template, or doubtful in it. -/
inductive TemplateError where
  | unclosedCode
  | unclosedComment
  | unclosedTag (tag : Bytes)
  | unclosedElement (tag : Bytes)
  | malformedEndTag (tag : Bytes)
  | unmatchedEndTag (tag : Bytes)
  | unexpectedByte (b : UInt8) (tag : Bytes)
  | unclosedValue (name : Bytes)
  | missingValue (name : Bytes)
  | eventWithoutValue (name : Bytes)
  | parameterName (name : Bytes)
  | misplacedDirective (keyword : DirectiveKeyword)
  | missingCode
  | pageRoute
  | repeatedPage
  | usingNamespace
  | injectMember
  | inheritsType
  | repeatedInherits
  | transition
  | unclosedExpression
  | invalidExpression (code : Bytes)
  | attributeExpression (code name : Bytes)
  | parameterValue (value parameter type : Bytes)
  | unknownComponent (tag : Bytes)
  | ambiguousComponent (tag : Bytes) (candidates : List Bytes)
deriving DecidableEq, Repr, Inhabited

namespace TemplateError

def code : TemplateError → Bytes
  | unclosedCode => "TX1001"
  | unclosedComment => "TX1002"
  | unclosedTag _ | unclosedElement _ => "TX1003"
  | malformedEndTag _ | unmatchedEndTag _ => "TX1004"
  | unexpectedByte _ _ | unclosedValue _ | missingValue _ | eventWithoutValue _
  | parameterName _ => "TX1005"
  | misplacedDirective _ | missingCode | pageRoute | repeatedPage | usingNamespace | injectMember
  | inheritsType | repeatedInherits => "TX1006"
  | transition | unclosedExpression | invalidExpression _ | attributeExpression _ _
  | parameterValue _ _ _ => "TX1008"
  | unknownComponent _ => "TX2001"
  | ambiguousComponent _ _ => "TX2002"

def severity : TemplateError → Severity
  | unknownComponent _ => .warning
  | _ => .error

def message : TemplateError → Bytes
  | unclosedCode => "The @code block is missing a closing '\x7d'"
  | unclosedComment => "Comment is not terminated"
  | unclosedTag tag => "Start tag '<" ++ tag ++ "' is not terminated"
  | unclosedElement tag => "Element '<" ++ tag ++ ">' is not closed"
  | malformedEndTag tag => "End tag '</" ++ tag ++ "' is malformed"
  | unmatchedEndTag tag => "End tag '</" ++ tag ++ ">' does not have a matching start tag"
  | unexpectedByte b tag =>
    "Unexpected character " ++ Bytes.quoted [b] ++ " in start tag '<" ++ tag ++ ">'"
  | unclosedValue a => "Value of attribute " ++ a.quoted ++ " is not terminated"
  | missingValue a => "Attribute " ++ a.quoted ++ " is missing a value"
  | eventWithoutValue a => "Event attribute " ++ a.quoted ++ " requires a value"
  | parameterName a => a.quoted ++ " is not a valid component parameter name"
  | misplacedDirective k =>
    "The @" ++ k.text ++ " directive must start a line outside of any element"
  | missingCode => "Expected '\x7b' after @code"
  | pageRoute => "The @page directive expects a quoted route"
  | repeatedPage => "Only one @page directive is allowed"
  | usingNamespace => "The @using directive expects a namespace"
  | injectMember => "The @inject directive expects a type and a member name"
  | inheritsType => "The @inherits directive expects a type"
  | repeatedInherits => "Only one @inherits directive is allowed"
  | transition => "'@' must be followed by an expression"
  | unclosedExpression => "The '@(' expression is missing a closing ')'"
  | invalidExpression code => code.quoted ++ " is not a valid expression"
  | attributeExpression code a =>
    code.quoted ++ " is not a valid expression for attribute " ++ a.quoted
  | parameterValue value parameter type =>
    value.quoted ++ " is not a valid value for parameter " ++ parameter.quoted ++ " of type "
      ++ type.quoted
  | unknownComponent tag =>
    "Found markup element " ++ tag.quoted ++ " with an unexpected name. If it is intended to be a "
      ++ "component, add a @using directive for its namespace"
  | ambiguousComponent tag candidates =>
    "Component " ++ tag.quoted ++ " is ambiguous between " ++ (Bytes.join "', '" candidates).quoted

end TemplateError

/-! ## Templates -/

/-- A template as it was read. Places are those of the template text. -/
structure Template where
  route : Option (Span × Bytes) := none
  usings : List Using := []
  injections : List Injection := []
  base : Option TypeRef := none
  code : List CodeBlock := []
  nodes : List Node := []
  errors : List (Span × TemplateError) := []
deriving Inhabited

end ViewCompiler
