import ViewCompiler.Bytes

/-!
Log records and their two written forms. The compiler does not write to a log by itself: a
computation that logs is a value together with its records (`Logged`), and a logger decides later
which records are shown and where.
-/

namespace ViewCompiler

namespace Log

/-! ## Levels -/

/-- How important a record is. `off` is above all records: it disables logging. -/
inductive Level where
  | trace | debug | info | warn | error | fatal | off
deriving DecidableEq, Repr, Inhabited

namespace Level

def rank : Level → Nat
  | trace => 0
  | debug => 1
  | info => 2
  | warn => 3
  | error => 4
  | fatal => 5
  | off => 6

instance : LE Level := ⟨fun a b => a.rank ≤ b.rank⟩

instance : LT Level := ⟨fun a b => a.rank < b.rank⟩

instance (a b : Level) : Decidable (a ≤ b) := inferInstanceAs (Decidable (a.rank ≤ b.rank))

instance (a b : Level) : Decidable (a < b) := inferInstanceAs (Decidable (a.rank < b.rank))

def text : Level → Bytes
  | trace => "TRACE"
  | debug => "DEBUG"
  | info => "INFO"
  | warn => "WARN"
  | error => "ERROR"
  | fatal => "FATAL"
  | off => "OFF"

/-- The level of a name, all in lower or all in upper case; any other text means `info`. -/
def parse (s : Bytes) : Level :=
  if s = "trace" ∨ s = "TRACE" then trace
  else if s = "debug" ∨ s = "DEBUG" then debug
  else if s = "info" ∨ s = "INFO" then info
  else if s = "warn" ∨ s = "WARN" then warn
  else if s = "error" ∨ s = "ERROR" then error
  else if s = "fatal" ∨ s = "FATAL" then fatal
  else if s = "off" ∨ s = "OFF" then off
  else info

/-- The colour of a level on a terminal. -/
def color : Level → Bytes
  | trace => "\x1b[90m"
  | debug => "\x1b[36m"
  | info => "\x1b[32m"
  | warn => "\x1b[33m"
  | error => "\x1b[31m"
  | fatal => "\x1b[1;31m"
  | off => []

/-- The name of a level filled up with blanks to five bytes. -/
def padded (l : Level) : Bytes := l.text ++ List.replicate (5 - l.text.length) Ascii.space

end Level

/-! ## Records -/

/-- A message of a part of the compiler, which is named by its tag. -/
structure Record where
  level : Level
  tag : Bytes
  message : Bytes
deriving DecidableEq, Repr, Inhabited

inductive Format where
  | text | json
deriving DecidableEq, Repr, Inhabited

/-- The moment of a record: the time of day as text, and milliseconds since the epoch. -/
structure Time where
  clock : Bytes
  millis : Int
deriving DecidableEq, Repr, Inhabited

namespace Time

/-- A number in `width` decimal digits. -/
def digits (width n : Nat) : Bytes :=
  let text := Bytes.ofNat n
  List.replicate (width - text.length) Ascii.zero ++ text

/-- The moment that is so many milliseconds after the epoch, with the time of day there. -/
def ofMillis (millis : Nat) : Time where
  clock :=
    digits 2 (millis / 3600000 % 24) ++ ":" ++ digits 2 (millis / 60000 % 60) ++ ":"
      ++ digits 2 (millis / 1000 % 60) ++ "." ++ digits 3 (millis % 1000)
  millis := millis

end Time

namespace Record

/-- `time LEVEL [tag] message`, the level in colour if wanted. -/
def lineText (colors : Bool) (time : Time) (r : Record) : Bytes :=
  let level := if colors then r.level.color ++ r.level.padded ++ "\x1b[0m" else r.level.padded
  time.clock ++ " " ++ level ++ " [" ++ r.tag ++ "] " ++ r.message

/-- A byte of a message inside a JSON string. -/
def escapeByte (b : UInt8) : Bytes :=
  if b = Ascii.quote then "\\\""
  else if b = Ascii.backslash then "\\\\"
  else if b = Ascii.lf then "\\n"
  else if b = Ascii.cr then "\\r"
  else if b = Ascii.tab then "\\t"
  else [b]

/-- One JSON object. -/
def json (time : Time) (r : Record) : Bytes :=
  "\x7b\"ts\":" ++ Bytes.ofInt time.millis ++ ",\"level\":\"" ++ r.level.text ++ "\",\"module\":\""
    ++ r.tag ++ "\",\"msg\":\"" ++ r.message.flatMap escapeByte ++ "\"\x7d"

def format (f : Format) (colors : Bool) (time : Time) (r : Record) : Bytes :=
  match f with
  | .text => r.lineText colors time
  | .json => r.json time

end Record

end Log

/-! ## Computations that log -/

/-- A value, the records made on the way to it and the labels of the steps that were announced to
the one who asked for it, each in order. -/
structure Logged (α : Type) where
  value : α
  records : List Log.Record := []
  status : List Bytes := []
deriving Inhabited

namespace Logged

instance : Monad Logged where
  pure a := { value := a }
  bind c f :=
    let d := f c.value
    { value := d.value, records := c.records ++ d.records, status := c.status ++ d.status }

def log (level : Log.Level) (tag message : Bytes) : Logged Unit :=
  { value := (), records := [{ level, tag, message }] }

/-- Announces a step. -/
def announce (label : Bytes) : Logged Unit := { value := (), status := [label] }

variable {α β : Type}

@[simp] theorem value_pure (a : α) : (pure a : Logged α).value = a := rfl

@[simp] theorem records_pure (a : α) : (pure a : Logged α).records = [] := rfl

@[simp] theorem status_pure (a : α) : (pure a : Logged α).status = [] := rfl

@[simp] theorem value_bind (c : Logged α) (f : α → Logged β) :
    (c >>= f).value = (f c.value).value := rfl

@[simp] theorem records_bind (c : Logged α) (f : α → Logged β) :
    (c >>= f).records = c.records ++ (f c.value).records := rfl

@[simp] theorem status_bind (c : Logged α) (f : α → Logged β) :
    (c >>= f).status = c.status ++ (f c.value).status := rfl

end Logged

end ViewCompiler
