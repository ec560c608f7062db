import ViewCompiler.Symbol

/-!
Lowered code: what a unit becomes before it is written as text. A module has object layouts, string
constants, one descriptor per type, functions over numbered temporaries, and declarations of what
it takes from elsewhere.
-/

namespace ViewCompiler.Code

/-! ## Values -/

/-- The types of values: truth values, 32-bit integers, pointers, and the two kinds of function
that objects refer to. -/
inductive ValueType where
  | i1 | i32 | ptr | initFn | renderFn
deriving DecidableEq, Repr, Inhabited

namespace ValueType

/-- How values of a canonical type are represented. -/
def ofName (name : Bytes) : ValueType :=
  if name = "int" then .i32 else if name = "bool" then .i1 else .ptr

end ValueType

inductive Operand where
  | int (value : Nat)
  | bool (value : Bool)
  | null
  | temp (index : Nat)
  | param (index : Nat)
  | self
  | builder
  | str (index size : Nat)
  | descriptor (type : Bytes)
  | function (symbol : Bytes)
deriving DecidableEq, Repr, Inhabited

/-- An operand with its type. -/
structure Value where
  operand : Operand
  type : ValueType
deriving DecidableEq, Repr, Inhabited

/-- Where a value is loaded from or stored to: an address in a temporary, or the slot of a
parameter. -/
inductive Address where
  | temp (index : Nat)
  | slot (param : Nat)
deriving DecidableEq, Repr, Inhabited

/-! ## Calls -/

/-- The entry points of the rendering and string runtime. -/
inductive Runtime where
  | openElement | closeElement
  | addAttribute | addAttributeInt | addAttributeBool | addAttributeCallback
  | addAttributeFragment | addAttributeObject
  | addText | addContent | addContentInt | addContentBool | addFragment
  | openComponent | closeComponent
  | makeCallback | makeFragment | invokeCallback
  | concat | intToString | boolToString | stringEquals
deriving DecidableEq, Repr, Inhabited

namespace Runtime

def all : List Runtime :=
  [openElement, closeElement, addAttribute, addAttributeInt, addAttributeBool,
    addAttributeCallback, addAttributeFragment, addAttributeObject, addText, addContent,
    addContentInt, addContentBool, addFragment, openComponent, closeComponent, makeCallback,
    makeFragment, invokeCallback, concat, intToString, boolToString, stringEquals]

def symbol : Runtime → Bytes
  | openElement => "tryc_rt_open_element"
  | closeElement => "tryc_rt_close_element"
  | addAttribute => "tryc_rt_add_attribute"
  | addAttributeInt => "tryc_rt_add_attribute_int"
  | addAttributeBool => "tryc_rt_add_attribute_bool"
  | addAttributeCallback => "tryc_rt_add_attribute_callback"
  | addAttributeFragment => "tryc_rt_add_attribute_fragment"
  | addAttributeObject => "tryc_rt_add_attribute_object"
  | addText => "tryc_rt_add_text"
  | addContent => "tryc_rt_add_content"
  | addContentInt => "tryc_rt_add_content_int"
  | addContentBool => "tryc_rt_add_content_bool"
  | addFragment => "tryc_rt_add_fragment"
  | openComponent => "tryc_rt_open_component"
  | closeComponent => "tryc_rt_close_component"
  | makeCallback => "tryc_rt_make_callback"
  | makeFragment => "tryc_rt_make_fragment"
  | invokeCallback => "tryc_rt_invoke_callback"
  | concat => "tryc_rt_concat"
  | intToString => "tryc_rt_int_to_string"
  | boolToString => "tryc_rt_bool_to_string"
  | stringEquals => "tryc_rt_string_equals"

def params : Runtime → List ValueType
  | openElement | addText | addContent | addFragment | openComponent | concat | stringEquals =>
    [.ptr, .ptr]
  | closeElement | closeComponent | invokeCallback => [.ptr]
  | addAttribute | addAttributeCallback | addAttributeFragment | addAttributeObject =>
    [.ptr, .ptr, .ptr]
  | addAttributeInt => [.ptr, .ptr, .i32]
  | addAttributeBool => [.ptr, .ptr, .i1]
  | addContentInt => [.ptr, .i32]
  | addContentBool => [.ptr, .i1]
  | makeCallback => [.initFn, .ptr]
  | makeFragment => [.renderFn, .ptr]
  | intToString => [.i32]
  | boolToString => [.i1]

/-- The type of the result, if there is one. -/
def result : Runtime → Option ValueType
  | makeCallback | makeFragment | concat | intToString | boolToString => some .ptr
  | stringEquals => some .i1
  | _ => none

end Runtime

inductive Callee where
  | runtime (f : Runtime)
  | method (symbol : Bytes)
deriving DecidableEq, Repr, Inhabited

/-! ## Instructions -/

inductive ArithOp where
  | add | sub | mul | sdiv | srem
deriving DecidableEq, Repr, Inhabited

inductive LogicOp where
  | and | or | xor
deriving DecidableEq, Repr, Inhabited

inductive Predicate where
  | eq | ne | slt | sgt | sle | sge
deriving DecidableEq, Repr, Inhabited

inductive LabelKind where
  | thenPart | elsePart | endPart
deriving DecidableEq, Repr, Inhabited

structure Label where
  kind : LabelKind
  index : Nat
deriving DecidableEq, Repr, Inhabited

/-- One line of a function body. `field` takes the address of a slot of `this`; a call may put its
result into a temporary. -/
inductive Instr where
  | alloca (param : Nat) (type : ValueType)
  | field (dest : Nat) (type : Bytes) (slot : Nat)
  | load (dest : Nat) (type : ValueType) (source : Address)
  | store (type : ValueType) (value : Operand) (target : Address)
  | arith (dest : Nat) (op : ArithOp) (left right : Operand)
  | logic (dest : Nat) (op : LogicOp) (left right : Operand)
  | compare (dest : Nat) (pred : Predicate) (type : ValueType) (left right : Operand)
  | call (dest : Option (Nat × ValueType)) (callee : Callee) (args : List Value)
  | branch (condition : Operand) (yes no : Label)
  | jump (target : Label)
  | label (label : Label)
  | ret
deriving DecidableEq, Repr, Inhabited

/-! ## Modules -/

/-- A function of an object of type `owner`. Its first parameter is the object; `params` are those
of a method, and a render function takes the builder. -/
structure Function where
  symbol : Bytes
  owner : Bytes
  hidden : Bool := false
  params : List ValueType := []
  builder : Bool := false
  body : List Instr := []
deriving DecidableEq, Repr, Inhabited

/-- What the runtime knows of a type. -/
structure Descriptor where
  type : Bytes
  name : Operand
  route : Option Operand
  isComponent : Bool
  render : Option Bytes
deriving DecidableEq, Repr, Inhabited

/-- Something defined elsewhere: a runtime entry point, a function or a descriptor. -/
inductive Declaration where
  | runtime (f : Runtime)
  | function (symbol : Bytes) (params : List ValueType)
  | descriptor (symbol : Bytes)
deriving DecidableEq, Repr, Inhabited

namespace Declaration

def symbol : Declaration → Bytes
  | runtime f => f.symbol
  | function s _ | descriptor s => s

/-- Adds a declaration to a list sorted by symbol; the first declaration of a symbol stays. -/
def insert (d : Declaration) : List Declaration → List Declaration
  | [] => [d]
  | e :: es =>
    if d.symbol = e.symbol then e :: es
    else if d.symbol < e.symbol then d :: e :: es
    else e :: insert d es

end Declaration

/-- The object layout of a type: its full name and the types of its slots after the descriptor. -/
structure Layout where
  type : Bytes
  slots : List ValueType
deriving DecidableEq, Repr, Inhabited

structure Module where
  name : Bytes
  layouts : List Layout
  strings : List Bytes
  descriptors : List Descriptor
  manifest : Operand
  functions : List Function
  declarations : List Declaration
deriving DecidableEq, Repr, Inhabited

/-! ## Symbols of a type -/

def initSymbol (type : Bytes) : Bytes := type ++ ".$init"

def renderSymbol (type : Bytes) : Bytes := type ++ ".$render"

def descriptorSymbol (type : Bytes) : Bytes := type ++ ".$descriptor"

def fragmentSymbol (type : Bytes) (index : Nat) : Bytes :=
  type ++ ".$render$frag" ++ Bytes.ofNat index

def methodSymbol (type method : Bytes) : Bytes := type ++ "." ++ method

end ViewCompiler.Code
