import ViewCompiler.Log

/-!
Which records are shown. A filter has a default level and levels for single tags; it is written as
entries `tag=level` with commas between them, where the tag `*` means the default and a tag alone
means everything.
-/

namespace ViewCompiler.Log

structure Filter where
  default : Level := .info
  levels : List (Bytes × Level) := []
deriving DecidableEq, Repr, Inhabited

namespace Filter

/-- Gives a tag a level of its own; an earlier one is forgotten. -/
def setLevel (f : Filter) (tag : Bytes) (level : Level) : Filter :=
  { f with levels := (tag, level) :: f.levels.filter (·.1 ≠ tag) }

/-- Applies one entry of a written filter. -/
def applyEntry (f : Filter) (entry : Bytes) : Filter :=
  match entry.dropWhile (· ≠ Ascii.equal) with
  | [] => if entry = [] then f else f.setLevel entry .trace
  | _ :: level =>
    let tag := entry.takeWhile (· ≠ Ascii.equal)
    if tag = "*" then { f with default := .parse level } else f.setLevel tag (.parse level)

/-- Reads a written filter. Tags that it does not name have no level of their own any more; the
default stays unless it is named. -/
def parse (f : Filter) (spec : Bytes) : Filter :=
  (spec.splitOn Ascii.comma).foldl applyEntry { f with levels := [] }

/-- The level from which on records of a tag are shown. -/
def levelOf (f : Filter) (tag : Bytes) : Level := (f.levels.lookup tag).getD f.default

def shows (f : Filter) (level : Level) (tag : Bytes) : Bool := f.levelOf tag ≤ level

/-- The lowest level that any tag has. -/
def minLevel (f : Filter) : Level :=
  f.levels.foldl (fun m (_, l) => if l < m then l else m) f.default

end Filter

end ViewCompiler.Log
