import ViewCompiler.Bytes

/-!
Libraries and what they need. `Catalog.closure` lists the libraries that some roots need, each
after the libraries that it depends on itself.
-/

namespace ViewCompiler

/-- A library: the names of the libraries that it uses, and its source texts. -/
structure Library where
  name : Bytes
  dependencies : List Bytes := []
  sources : List Bytes := []
deriving DecidableEq, Repr, Inhabited

/-- Libraries, at most one of each name. -/
structure Catalog where
  libraries : List Library := []
deriving DecidableEq, Repr, Inhabited

/-- Why a closure does not exist. `requiredBy` is empty for a root. -/
inductive ClosureError where
  | missing (name requiredBy : Bytes)
  | cycle (name : Bytes)
deriving DecidableEq, Repr, Inhabited

namespace ClosureError

def message : ClosureError → Bytes
  | missing name requiredBy =>
    if requiredBy = [] then "Library " ++ name.quoted ++ " is not available"
    else "Library " ++ name.quoted ++ " (required by " ++ requiredBy.quoted ++ ") is not available"
  | cycle name => "Library dependency cycle through " ++ name.quoted

end ClosureError

namespace Catalog

def size (c : Catalog) : Nat := c.libraries.length

def find? (c : Catalog) (name : Bytes) : Option Library := c.libraries.find? (·.name = name)

/-- Adds a library in place of the one that has its name. -/
def insert (c : Catalog) (l : Library) : Catalog :=
  { libraries := c.libraries.filter (·.name ≠ l.name) ++ [l] }

def ofList (ls : List Library) : Catalog := ls.foldl insert {}

/-- Puts a library behind the finished ones, its dependencies before it. `path` holds the libraries
that wait for this one, nearest first: meeting one of them again is a cycle. Names on a path differ,
so a path is never longer than the catalog and `fuel` steps are enough. -/
def visit (c : Catalog) (fuel : Nat) (path : List Bytes) (finished : List Library) (name : Bytes) :
    Except ClosureError (List Library) :=
  match fuel with
  | 0 => .error (.cycle name)
  | fuel + 1 =>
    if name ∈ path then .error (.cycle name)
    else if finished.any (·.name = name) then .ok finished
    else match c.find? name with
      | none => .error (.missing name (path.headD []))
      | some l => do
        let finished ← l.dependencies.foldlM (c.visit fuel (name :: path)) finished
        pure (finished ++ [l])

/-- The libraries that the roots need, dependencies first. -/
def closure (c : Catalog) (roots : List Bytes) : Except ClosureError (List Library) :=
  roots.foldlM (c.visit (c.size + 1) []) []

end Catalog

end ViewCompiler
