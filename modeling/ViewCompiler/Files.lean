import ViewCompiler.Bytes

/-!
A file system as far as a compiler run can see it: contents by path, and a current directory that
relative paths start from.
-/

namespace ViewCompiler

/-- The parts of an absolute path. -/
abbrev Path := List Bytes

/-- Contents by absolute path. A directory exists if it is listed, holds a file or leads to the
current one. -/
structure Files where
  current : Path := []
  directories : List Path := []
  entries : List (Path × Bytes) := []
deriving DecidableEq, Repr, Inhabited

namespace Files

def isFile (fs : Files) (path : Path) : Bool := fs.entries.any (·.1 = path)

def isDirectory (fs : Files) (path : Path) : Bool :=
  path.isPrefixOf fs.current || fs.directories.any (path.isPrefixOf ·)
    || fs.entries.any fun (p, _) => path.length < p.length ∧ path.isPrefixOf p

/-- The most bytes that a part of a path can have. -/
def maxPart : Nat := 255

/-- The most bytes that a path can have. -/
def maxPath : Nat := 4095

/-- Walks along the parts of a path; all but the last must lead through directories. -/
def walk (fs : Files) (start : Path) : List Bytes → Option Path
  | [] => some start
  | part :: rest =>
    if ¬ fs.isDirectory start then none
    else if part = [] ∨ part = "." then fs.walk start rest
    else if part = ".." then fs.walk start.dropLast rest
    else if maxPart < part.length then none
    else fs.walk (start ++ [part]) rest

/-- Where a path leads. A zero byte ends it; one that is empty or too long leads nowhere. -/
def resolve? (fs : Files) (path : Bytes) : Option Path :=
  let path := path.takeWhile (· ≠ Ascii.nul)
  if path = [] ∨ maxPath < path.length then none
  else fs.walk (if path.head? = some Ascii.slash then [] else fs.current) (path.splitOn Ascii.slash)

def content (fs : Files) (path : Path) : Bytes := (fs.entries.lookup path).getD []

/-- What reading a path gives. A directory reads as an empty file. -/
def read? (fs : Files) (path : Bytes) : Option Bytes :=
  (fs.resolve? path).bind fun p =>
    if fs.isFile p ∨ fs.isDirectory p then some (fs.content p) else none

/-- The file that opening a path for writing means. -/
def target? (fs : Files) (path : Bytes) : Option Path :=
  (fs.resolve? path).bind fun p =>
    if fs.isDirectory p ∨ ¬ fs.isDirectory p.dropLast then none else some p

/-- Sets the content of a file. -/
def put (fs : Files) (path : Path) (content : Bytes) : Files :=
  if fs.isFile path then
    { fs with entries := fs.entries.map fun e => if e.1 = path then (path, content) else e }
  else { fs with entries := fs.entries ++ [(path, content)] }

/-- Writes a file by its path as a whole, if it can be written. -/
def write? (fs : Files) (path content : Bytes) : Option Files :=
  (fs.target? path).map (fs.put · content)

/-- Makes the directories that the parts of a path lead through, as far as no file is in the
way. -/
def makeDirectories (fs : Files) (start : Path) : List Bytes → Files
  | [] => fs
  | part :: rest =>
    if part = [] ∨ part = "." then fs.makeDirectories start rest
    else if part = ".." then fs.makeDirectories start.dropLast rest
    else if fs.isFile (start ++ [part]) then fs
    else
      { fs with directories := (start ++ [part]) :: fs.directories }.makeDirectories
        (start ++ [part]) rest

/-- Writes a file by its path from the current directory, after the directories on the way to
it. -/
def place (fs : Files) (path content : Bytes) : Files :=
  let fs := fs.makeDirectories fs.current (path.splitOn Ascii.slash).dropLast
  (fs.write? path content).getD fs

/-- Places files one after the other; the last one with a path counts. -/
def placeAll (fs : Files) (files : List (Bytes × Bytes)) : Files :=
  files.foldl (fun fs (path, content) => fs.place path content) fs

/-- The files below the current directory with their relative paths. -/
def toList (fs : Files) : List (Bytes × Bytes) :=
  fs.entries.filterMap fun (p, c) =>
    if fs.current.isPrefixOf p then
      some (Bytes.join [Ascii.slash] (p.drop fs.current.length), c)
    else none

end Files

end ViewCompiler
