import ViewCompiler.Token.Scan

/-!
The component that a template file declares: its name is that of the file, its namespace follows
the directories.
-/

namespace ViewCompiler.ComponentName

def isSeparator (b : UInt8) : Bool := b == Ascii.slash || b == Ascii.backslash

/-- The parts of a path between separators. -/
def segments (path : Bytes) : List Bytes :=
  Bytes.splitOn Ascii.slash (path.map fun b => if isSeparator b then Ascii.slash else b)

/-- The file name without directories and extension. A name that has only a leading dot keeps it. -/
def ofPath (path : Bytes) : Bytes :=
  let file := (segments path).getLastD []
  match file.beforeLast? Ascii.dot with
  | some (b :: stem) => b :: stem
  | _ => file

/-- Names that can be declared: the scanner reads them as one identifier. -/
def isValid (name : Bytes) : Bool :=
  let s := TokenStream.scan name
  name ≠ [] && s.errors.isEmpty && s.tokens.map (·.kind) = [.identifier name, .eof]

/-- A directory name as part of a namespace. -/
def segment (directory : Bytes) : Bytes :=
  let name := directory.map fun b => if Ascii.isNameByte b then b else Ascii.underscore
  if isValid name then name else Ascii.underscore :: name

/-- The namespace of a file: the root and then its directories. -/
def namespaceOf (root path : Bytes) : Bytes :=
  let directories := (segments path).dropLast.filter fun d => d ≠ [] ∧ d ≠ "." ∧ d ≠ ".."
  directories.foldl (fun ns d => (if ns = [] then [] else ns ++ [Ascii.dot]) ++ segment d) root

end ViewCompiler.ComponentName
