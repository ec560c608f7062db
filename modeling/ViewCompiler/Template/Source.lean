import ViewCompiler.Diagnostic

/-!
The text of a template while it is read: what is left of it, and where that stands. All reading
moves forward over bytes of the text (`Source.drop`), so what is left never grows
(`length_drop_rest`).
-/

namespace ViewCompiler

/-- A place in a template. `atLineStart` says that only blanks stand before it on its line. -/
structure Position where
  line : UInt32 := 1
  column : UInt32 := 1
  atLineStart : Bool := true
deriving DecidableEq, Repr, Inhabited

namespace Position

/-- The place after one byte. -/
def step (p : Position) (b : UInt8) : Position :=
  if b = Ascii.lf then { line := p.line + 1, column := 1, atLineStart := true }
  else { p with column := p.column + 1, atLineStart := p.atLineStart && Ascii.isSpace b }

def steps (p : Position) (bs : Bytes) : Position := bs.foldl step p

def span (p : Position) : Span := { line := p.line, column := p.column }

theorem steps_append (p : Position) (as bs : Bytes) :
    p.steps (as ++ bs) = (p.steps as).steps bs := List.foldl_append

end Position

/-- What is left of a template, and its place. -/
structure Source where
  rest : Bytes
  position : Position := {}
deriving DecidableEq, Repr, Inhabited

namespace Source

def span (s : Source) : Span := s.position.span

/-- Moves over the next `n` bytes, or to the end. -/
def drop (s : Source) (n : Nat) : Source :=
  { rest := s.rest.drop n, position := s.position.steps (s.rest.take n) }

/-- Moves over the bytes that satisfy `p`. -/
def dropWhile (s : Source) (p : UInt8 → Bool) : Source := s.drop (s.rest.takeWhile p).length

/-- The end of the text. -/
def finish (s : Source) : Source := s.drop s.rest.length

@[simp] theorem rest_drop (s : Source) (n : Nat) : (s.drop n).rest = s.rest.drop n := rfl

theorem length_drop_rest (s : Source) (n : Nat) :
    (s.drop n).rest.length = s.rest.length - n := List.length_drop

theorem drop_drop (s : Source) (m n : Nat) : (s.drop m).drop n = s.drop (m + n) := by
  simp [drop, ← Position.steps_append, List.take_add]

@[simp] theorem rest_dropWhile (s : Source) (p : UInt8 → Bool) :
    (s.dropWhile p).rest = s.rest.dropWhile p := by
  have h : s.rest.takeWhile p ++ s.rest.dropWhile p = s.rest := List.takeWhile_append_dropWhile
  exact (congrArg (List.drop _) h.symm).trans List.drop_left

theorem length_dropWhile_rest_le (s : Source) (p : UInt8 → Bool) :
    (s.dropWhile p).rest.length ≤ s.rest.length := by
  rw [dropWhile, length_drop_rest]
  omega

@[simp] theorem rest_finish (s : Source) : s.finish.rest = [] := by simp [finish]

end Source

end ViewCompiler
