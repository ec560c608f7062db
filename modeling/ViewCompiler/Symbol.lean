import ViewCompiler.Ast

/-!
Symbols: what other code may know of a type. A library compiled earlier is a `Reference`, a named
list of the symbols of its types.
-/

namespace ViewCompiler

/-- A data member. Its type is a canonical name: a built-in keyword or a full name, empty when the
written type could not be resolved. -/
structure MemberSymbol where
  kind : MemberKind
  name : Bytes
  type : Bytes
deriving DecidableEq, Repr, Inhabited

structure MethodSymbol where
  name : Bytes
  paramTypes : List Bytes := []
  paramNames : List Bytes := []
deriving DecidableEq, Repr, Inhabited

/-- A component or class. `base` is the full name of the base type, empty for none; `library` is
empty in the unit that declares the type. -/
structure TypeSymbol where
  ns : Bytes
  name : Bytes
  kind : TypeKind := .cls
  base : Bytes := []
  route : Bytes := []
  library : Bytes := []
  members : List MemberSymbol := []
  methods : List MethodSymbol := []
deriving DecidableEq, Repr, Inhabited

namespace TypeSymbol

/-- A name inside a namespace; the global namespace is empty. -/
def qualify (ns name : Bytes) : Bytes := if ns = [] then name else ns ++ "." ++ name

def fullName (t : TypeSymbol) : Bytes := qualify t.ns t.name

def isComponent (t : TypeSymbol) : Bool := t.kind == .component

/-- The position of the first own data member of that name. -/
def ownMember? (t : TypeSymbol) (name : Bytes) : Option Nat :=
  t.members.findIdx? (·.name = name)

/-- The position of the first own method of that name. -/
def ownMethod? (t : TypeSymbol) (name : Bytes) : Option Nat :=
  t.methods.findIdx? (·.name = name)

end TypeSymbol

/-- The public face of a compiled library. -/
structure Reference where
  name : Bytes
  types : List TypeSymbol := []
  dependencies : List Bytes := []
deriving DecidableEq, Repr, Inhabited

end ViewCompiler
