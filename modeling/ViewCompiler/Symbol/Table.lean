import ViewCompiler.Symbol

/-!
The types that a unit can see. A type is known by its position in the table; of several types with
one full name only the first can be found by name.

A simple name is looked up in the enclosing namespaces, innermost first, and then in the namespaces
of the using directives (`SymbolTable.resolve`).
-/

namespace ViewCompiler

/-- The position of a type in its table. -/
abbrev TypeId := Nat

/-- A data member: the type that declares it and the position among that type's members. -/
structure MemberId where
  owner : TypeId
  index : Nat
deriving DecidableEq, Repr, Inhabited

/-- A method: the type that declares it and the position among that type's methods. -/
structure MethodId where
  owner : TypeId
  index : Nat
deriving DecidableEq, Repr, Inhabited

structure SymbolTable where
  types : List TypeSymbol := []
deriving DecidableEq, Repr, Inhabited

/-- The outcome of looking up a type name: the type, or several candidates. `viaUsing` is the first
using namespace that has the name, empty when usings were not needed. -/
structure TypeLookup where
  type : Option TypeId := none
  candidates : List TypeId := []
  viaUsing : Bytes := []
deriving DecidableEq, Repr, Inhabited

namespace TypeLookup

def found (l : TypeLookup) : Bool := l.type.isSome

def ambiguous (l : TypeLookup) : Bool := 1 < l.candidates.length

end TypeLookup

/-! ## Namespaces -/

namespace Bytes

theorem length_beforeLast?_lt {sep : UInt8} {s t : Bytes} (h : beforeLast? sep s = some t) :
    t.length < s.length := by
  rw [beforeLast?] at h
  split at h
  · cases h
  · next b before hs =>
    cases h
    have := (List.dropWhile_suffix (p := (· ≠ sep)) (l := s.reverse)).length_le
    rw [hs] at this
    simp at this ⊢
    omega

end Bytes

/-- A namespace and the namespaces around it, innermost first; the last is the global one. -/
def enclosingNamespaces (ns : Bytes) : List Bytes :=
  if ns = [] then [[]]
  else match _h : ns.beforeLast? Ascii.dot with
    | some outer => ns :: enclosingNamespaces outer
    | none => [ns, []]
termination_by ns.length
decreasing_by exact Bytes.length_beforeLast?_lt ‹_›

namespace SymbolTable

def get? (t : SymbolTable) (id : TypeId) : Option TypeSymbol := t.types[id]?

def member? (t : SymbolTable) (id : MemberId) : Option MemberSymbol :=
  (t.get? id.owner).bind (·.members[id.index]?)

def method? (t : SymbolTable) (id : MethodId) : Option MethodSymbol :=
  (t.get? id.owner).bind (·.methods[id.index]?)

/-- The full name of a type of the table. -/
def nameOf (t : SymbolTable) (id : TypeId) : Bytes := ((t.get? id).map (·.fullName)).getD []

/-- The first type of that full name. -/
def find? (t : SymbolTable) (fullName : Bytes) : Option TypeId :=
  t.types.findIdx? (·.fullName = fullName)

/-- Puts a type at the end. -/
def push (t : SymbolTable) (s : TypeSymbol) : SymbolTable := { types := t.types ++ [s] }

def pushAll (t : SymbolTable) (ss : List TypeSymbol) : SymbolTable := { types := t.types ++ ss }

/-- The types of all references, in order. -/
def ofReferences (refs : List Reference) : SymbolTable := { types := refs.flatMap (·.types) }

/-- The number of names that can be found. -/
def nameCount (t : SymbolTable) : Nat := (t.types.map (·.fullName)).eraseDups.length

def set (t : SymbolTable) (id : TypeId) (s : TypeSymbol) : SymbolTable :=
  { types := t.types.set id s }

/-! ## Type names -/

/-- The types that the usings give a simple name, each once, with the namespace that gave it. -/
def viaUsings (t : SymbolTable) (name : Bytes) (usings : List Bytes) : List (TypeId × Bytes) :=
  usings.foldl (fun found u =>
    match t.find? (u ++ "." ++ name) with
    | some id => if found.any (·.1 = id) then found else found ++ [(id, u)]
    | none => found) []

/-- Looks up a type name as it is written in namespace `ns` under the given usings. Usings are not
consulted for a dotted name, nor when an enclosing namespace has the name. -/
def resolve (t : SymbolTable) (name ns : Bytes) (usings : List Bytes) : TypeLookup :=
  match (enclosingNamespaces ns).findSome? fun n => t.find? (TypeSymbol.qualify n name) with
  | some id => { type := some id }
  | none =>
    if name.contains Ascii.dot then {}
    else match t.viaUsings name usings with
      | [] => {}
      | [(id, u)] => { type := some id, viaUsing := u }
      | (id, u) :: more => { candidates := id :: more.map (·.1), viaUsing := u }

/-! ## Inheritance -/

/-- The types reached from `id` over base names, nearest first, as long as they are not in `seen`.
Each step finds a new type of the table, so `fuel` types are enough for a table of that size. -/
def basesFrom (t : SymbolTable) (fuel : Nat) (seen : List TypeId) (id : TypeId) : List TypeId :=
  match fuel with
  | 0 => []
  | fuel + 1 =>
    match t.get? id with
    | none => []
    | some s =>
      if s.base = [] then []
      else match t.find? s.base with
        | none => []
        | some b => if b ∈ seen then [] else b :: t.basesFrom fuel (b :: seen) b

/-- The base types of a type, nearest first. -/
def bases (t : SymbolTable) (id : TypeId) : List TypeId := t.basesFrom t.types.length [id] id

/-- A type and its base types, nearest first. -/
def lineage (t : SymbolTable) (id : TypeId) : List TypeId := id :: t.bases id

/-- The data member that a name means on a type: its own, or that of the nearest base. -/
def findMember? (t : SymbolTable) (id : TypeId) (name : Bytes) : Option MemberId :=
  (t.lineage id).findSome? fun owner =>
    ((t.get? owner).bind (·.ownMember? name)).map fun index => { owner, index }

/-- The method that a name means on a type: its own, or that of the nearest base. -/
def findMethod? (t : SymbolTable) (id : TypeId) (name : Bytes) : Option MethodId :=
  (t.lineage id).findSome? fun owner =>
    ((t.get? owner).bind (·.ownMethod? name)).map fun index => { owner, index }

def derivesFrom (t : SymbolTable) (id base : TypeId) : Bool := (t.lineage id).contains base

/-- The data members of an object: those of the outermost base first, its own last. -/
def layout (t : SymbolTable) (id : TypeId) : List MemberId :=
  (t.lineage id).reverse.flatMap fun owner =>
    (List.range (((t.get? owner).map (·.members.length)).getD 0)).map fun index => { owner, index }

end SymbolTable

end ViewCompiler
