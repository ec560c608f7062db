import ViewCompiler.Diagnostic
import ViewCompiler.SourceFile

/-!
A template file prepared for reading: without carriage returns, with a prologue in front, and
without leading blanks. Lines of the prepared text are mapped back to lines of the file.
-/

namespace ViewCompiler

/-- A prepared template. `lineOffset` is the number of lines by which the file's first line was
moved down, negative if leading lines of the file were cut. -/
structure Item where
  name : Bytes
  path : Bytes
  physicalPath : Bytes
  content : Bytes
  lineOffset : Int := 0
deriving DecidableEq, Repr, Inhabited

namespace Item

def withoutReturns (text : Bytes) : Bytes := text.filter (· ≠ Ascii.cr)

/-- The path inside the project, which starts with a slash. -/
def projectPath (path : Bytes) : Bytes :=
  if path.head? = some Ascii.slash then path else Ascii.slash :: path

/-- The path below a directory; two slashes that meet become one. -/
def pathBelow (directory path : Bytes) : Bytes :=
  if directory.getLast? = some Ascii.slash ∧ path.head? = some Ascii.slash then
    directory.dropLast ++ path
  else directory ++ path

/-- Prepares a file. -/
def ofFile (file : SourceFile) (prologue workingDirectory : Bytes) : Item :=
  let head := withoutReturns prologue
  let text := head ++ withoutReturns file.content
  let blanks : Bytes := text.takeWhile Ascii.isSpace
  { name := file.path
    path := projectPath file.path
    physicalPath := pathBelow workingDirectory file.path
    content := text.dropWhile Ascii.isSpace
    lineOffset := (head.lineFeeds : Int) - (blanks.lineFeeds : Int) }

/-- The line of the file that a line of the content comes from; what comes from the prologue is
ascribed to the first line. -/
def userLine (i : Item) (line : UInt32) : UInt32 :=
  let line := (line.toNat : Int) - i.lineOffset
  if line < 1 then 1 else UInt32.ofNat line.toNat

def userSpan (i : Item) (s : Span) : Span := { s with line := i.userLine s.line }

end Item

end ViewCompiler
