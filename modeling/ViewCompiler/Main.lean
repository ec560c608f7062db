import Std.Time.DateTime.Timestamp
import ViewCompiler.CommandLine

/-!
The program: it gathers what a run of the command line starts from, and writes down the outcome.
-/

namespace ViewCompiler

/-- The bytes of a file, if it can be read. -/
def readFile? (path : String) : IO (Option Bytes) := do
  try
    return some (← IO.FS.readBinFile path).data.toList
  catch _ => return none

/-- A directory can be entered. -/
def isDirectory (path : String) : IO Bool := do
  try
    discard (IO.FS.realPath (path ++ "/."))
    return true
  catch _ => return false

def pathText (path : Path) : String :=
  "/" ++ String.intercalate "/" (path.filterMap fun part => String.fromUTF8? ⟨part.toArray⟩)

/-- The path that a text means from a directory. -/
def absolute (current : Path) (path : String) : Path :=
  let parts := (Bytes.ofString path).splitOn Ascii.slash
  let start := if path.startsWith "/" then [] else current
  parts.foldl (fun here part =>
    if part = [] ∨ part = "." then here
    else if part = ".." then here.dropLast else here ++ [part]) start

/-- Takes into account what a path leads to: a file, a directory or a place for a new file. -/
def addPath (fs : Files) (path : String) : IO Files := do
  let target := absolute fs.current path
  let fs ← if ← isDirectory (pathText target) then
      pure { fs with directories := target :: fs.directories }
    else match ← readFile? (pathText target) with
      | some content => pure (fs.put target content)
      | none => pure fs
  if ← isDirectory (pathText target.dropLast) then
    pure { fs with directories := target.dropLast :: fs.directories }
  else pure fs

/-- The arguments that may be paths. -/
def pathArguments (args : List String) : List String :=
  args.map fun arg => if arg.startsWith "--log-file=" then (arg.drop 11).toString else arg

/-- What the surroundings of the process are. -/
def gather (args : List String) : IO CommandLine.Setup := do
  let here ← IO.FS.realPath "."
  let mut files : Files := { current := absolute [] here.toString }
  for path in pathArguments args do
    files ← addPath files path
  let terminal ← if ← (← IO.getStderr).isTty then
      pure (some { term := (← IO.getEnv "TERM").map Bytes.ofString : Log.Terminal })
    else pure none
  let now ← Std.Time.Timestamp.now
  return {
    args := args.map Bytes.ofString
    logVariable := (← IO.getEnv "TRYC_LOG").map Bytes.ofString
    terminal, files
    time := .ofMillis now.toMillisecondsSinceUnixEpoch.val.toNat }

/-- Writes the files that a run has changed. -/
def save (before after : Files) : IO Unit := do
  for (path, content) in after.entries do
    if !before.entries.contains (path, content) then
      IO.FS.writeBinFile (pathText path) ⟨content.toArray⟩

end ViewCompiler

open ViewCompiler in
def main (args : List String) : IO UInt32 := do
  let setup ← gather args
  match CommandLine.run setup with
  | .error _ =>
    (← IO.getStderr).putStrLn "error: a name was never bound"
    return 134
  | .ok outcome =>
    let output ← IO.getStdout
    output.write ⟨outcome.output.toArray⟩
    output.flush
    (← IO.getStderr).write ⟨outcome.errors.toArray⟩
    save setup.files outcome.files
    return outcome.exit.toUInt32
