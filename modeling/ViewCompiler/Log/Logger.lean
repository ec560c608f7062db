import ViewCompiler.Log.Filter
import ViewCompiler.Files

/-!
The logger: a filter, a level below which nothing is looked at, and the sinks that records go to.
Its steps are pure; what they write to the terminal, to files and to recorders is part of the state.
-/

namespace ViewCompiler.Log

/-- How a logger is set up. -/
structure Config where
  level : Level := .warn
  format : Format := .text
  filter : Bytes := []
  file : Bytes := []
  console : Bool := true
  colors : Bool := true
deriving DecidableEq, Repr, Inhabited

/-- A log file that is being written. Text waits in `pending` until it is flushed; it goes to the
end of the file, or to `offset` on if the file was opened anew. -/
structure FileSink where
  path : Path
  format : Format := .text
  append : Bool := true
  pending : Bytes := []
  offset : Nat := 0
deriving DecidableEq, Repr, Inhabited

/-- Where records go. A file that could not be opened swallows them. -/
inductive Sink where
  | console (colors : Bool) (format : Format)
  | file (sink : FileSink)
  | closedFile
  | discard
  | recorder
deriving DecidableEq, Repr, Inhabited

/-- What a recorder has seen. -/
inductive Recorded where
  | record (r : Record)
  | flush
deriving DecidableEq, Repr, Inhabited

/-- The terminal, if standard error is one: its type is the value of `TERM`, when set. -/
structure Terminal where
  term : Option Bytes
deriving DecidableEq, Repr, Inhabited

namespace Terminal

def hasColors (t : Terminal) : Bool :=
  match t.term with
  | some name => name ≠ "dumb"
  | none => false

end Terminal

/-- A logger and what it has written: the text on standard error, the files and the recorders'
notes. -/
structure Logger where
  level : Level := .warn
  filter : Filter := { default := .warn }
  sinks : List Sink := []
  terminal : Option Terminal := none
  shown : Bytes := []
  files : Files := {}
  recorded : List Recorded := []
deriving DecidableEq, Repr, Inhabited

namespace FileSink

/-- Writes `text` over the bytes of `content` from `offset` on; a gap before it is filled with
zero bytes. -/
def overwrite (content : Bytes) (offset : Nat) (text : Bytes) : Bytes :=
  if text = [] then content
  else content.take offset ++ List.replicate (offset - content.length) Ascii.nul ++ text
    ++ content.drop (offset + text.length)

/-- Writes out what is pending. -/
def flush (s : FileSink) (fs : Files) : FileSink × Files :=
  let content := fs.content s.path
  let written :=
    if s.append then content ++ s.pending else overwrite content s.offset s.pending
  ({ s with pending := [], offset := s.offset + s.pending.length }, fs.put s.path written)

/-- The bytes that there is room for in `pending`. -/
def capacity : Nat := 8191

/-- Text of this many bytes does not wait. -/
def largeText : Nat := 1024

/-- Takes text. It waits unless it is large or would leave no room; then it is written out together
with what was pending. -/
def take (s : FileSink) (text : Bytes) (fs : Files) : FileSink × Files :=
  let full := { s with pending := s.pending ++ text }
  if min largeText (capacity - s.pending.length) ≤ text.length then full.flush fs else (full, fs)

/-- Takes a record: its text, and then the end of the line. Errors are written out at once. -/
def write (s : FileSink) (time : Time) (r : Record) (fs : Files) : FileSink × Files :=
  let (s, fs) := s.take (r.format s.format false time) fs
  let (s, fs) := s.take [Ascii.lf] fs
  if Level.error ≤ r.level then s.flush fs else (s, fs)

/-- Opens a file; opening it anew empties it. -/
def open? (path : Bytes) (append : Bool) (format : Format) (fs : Files) :
    Option (FileSink × Files) :=
  (fs.target? path).map fun p =>
    ({ path := p, format, append }, fs.put p (if append then fs.content p else []))

end FileSink

namespace Logger

def hasColors (l : Logger) : Bool := (l.terminal.map (·.hasColors)).getD false

/-- The logger of a new process: one console sink. -/
def fresh (terminal : Option Terminal) (files : Files) : Logger :=
  let l : Logger := { terminal, files }
  { l with sinks := [.console l.hasColors .text] }

def shouldLog (l : Logger) (level : Level) (tag : Bytes) : Bool :=
  l.level ≤ level && l.filter.shows level tag

def addSink (l : Logger) (s : Sink) : Logger := { l with sinks := l.sinks ++ [s] }

/-- Shows text on standard error. -/
def display (l : Logger) (text : Bytes) : Logger := { l with shown := l.shown ++ text }

/-- One sink takes a record. -/
def writeSink (time : Time) (r : Record) (l : Logger) (s : Sink) : Logger :=
  match s with
  | .console colors format => (l.display (r.format format colors time ++ [Ascii.lf])).addSink s
  | .file f =>
    let (f, files) := f.write time r l.files
    { l with files }.addSink (.file f)
  | .recorder => { l with recorded := l.recorded ++ [Recorded.record r] }.addSink s
  | .closedFile | .discard => l.addSink s

/-- Hands a record to all sinks, whatever the filter says. -/
def write (l : Logger) (time : Time) (r : Record) : Logger :=
  l.sinks.foldl (writeSink time r) { l with sinks := [] }

/-- Hands a record to all sinks if the filter shows it. -/
def log (l : Logger) (time : Time) (r : Record) : Logger :=
  if l.shouldLog r.level r.tag then l.write time r else l

def logAll (l : Logger) (time : Time) (rs : List Record) : Logger :=
  rs.foldl (fun l r => l.log time r) l

def flushSink (l : Logger) (s : Sink) : Logger :=
  match s with
  | .file f =>
    let (f, files) := f.flush l.files
    { l with files }.addSink (.file f)
  | .recorder => { l with recorded := l.recorded ++ [Recorded.flush] }.addSink s
  | _ => l.addSink s

def flush (l : Logger) : Logger := l.sinks.foldl flushSink { l with sinks := [] }

/-- Removes all sinks; files are written out first. -/
def clearSinks (l : Logger) : Logger :=
  let files := l.sinks.foldl (fun fs s =>
    match s with
    | .file f => (f.flush fs).2
    | _ => fs) l.files
  { l with files, sinks := [] }

/-- Adds a log file; the result says whether it could be opened. -/
def addFile (l : Logger) (path : Bytes) (append : Bool) (format : Format) : Bool × Logger :=
  match FileSink.open? path append format l.files with
  | some (f, files) => (true, { l with files }.addSink (.file f))
  | none => (false, l.addSink .closedFile)

def setLevel (l : Logger) (level : Level) : Logger :=
  { l with level, filter := { l.filter with default := level } }

def setFilter (l : Logger) (spec : Bytes) : Logger :=
  let filter := l.filter.parse spec
  { l with filter, level := filter.minLevel }

/-- The filter and level of a configuration. A filter that does not name a default keeps the one
it had unless the configured level is lower. -/
def configureLevels (l : Logger) (c : Config) : Logger :=
  if c.filter = [] then
    { l with level := c.level, filter := { l.filter with default := c.level } }
  else
    let filter := l.filter.parse c.filter
    let filter := if c.level < filter.default then { filter with default := c.level } else filter
    { l with level := filter.minLevel, filter }

/-- Sets up the logger anew. -/
def init (l : Logger) (c : Config) : Logger :=
  let l := l.clearSinks.configureLevels c
  let l := if c.console then l.addSink (.console (c.colors && l.hasColors) c.format) else l
  if c.file = [] then l
  else match FileSink.open? c.file true c.format l.files with
    | some (f, files) => { l with files }.addSink (.file f)
    | none => l.display ("warning: could not open log file: " ++ c.file ++ "\n")

end Logger

end ViewCompiler.Log
