import ViewCompiler.Token

/-!
Scanning a source text into tokens. The text is cut into lexemes, one after the other: blanks,
comments, `#line` directives and tokens. `lexeme_raw_append_rest` says that a lexeme is a non-empty
first part of the text, so scanning ends, and nothing of the text is lost.

A `#line N` directive at the start of a line makes the following lines count from `N`;
`#line default` returns to physical lines.
-/

namespace ViewCompiler

/-! ## Positions -/

/-- A place in the text being read: the number of bytes in front of it, the physical line, where that
line starts, and what the active line mapping adds to physical lines. Of the line start only the low
32 bits are kept. -/
structure Cursor where
  offset : Nat := 0
  line : UInt32 := 1
  lineStart : UInt32 := 0
  shift : Int := 0
deriving DecidableEq, Repr, Inhabited

namespace Cursor

/-- The physical column. -/
def column (c : Cursor) : UInt32 := UInt32.ofNat c.offset - c.lineStart + 1

/-- Whether a line starts here. Lines that start at offset 2³² or behind it are not seen to. -/
def startsLine (c : Cursor) : Bool := c.offset == c.lineStart.toNat

/-- The cursor after one byte. -/
def step (c : Cursor) (b : UInt8) : Cursor :=
  let offset := c.offset + 1
  if b = Ascii.lf then { c with offset, line := c.line + 1, lineStart := UInt32.ofNat offset }
  else { c with offset }

def steps (c : Cursor) (bs : Bytes) : Cursor := bs.foldl step c

/-- The place as it is reported: mapped lines never go below 1. -/
def span (c : Cursor) : Span :=
  let line := (c.line.toNat : Int) + c.shift
  { line := if line < 1 then 1 else UInt32.ofNat line.toNat, column := c.column }

/-- The shift that makes the line after this one line `target`. -/
def shiftTo (c : Cursor) (target : Nat) : Int := (target : Int) - ((c.line + 1).toNat : Int)

theorem offset_step (c : Cursor) (b : UInt8) : (c.step b).offset = c.offset + 1 := by
  rw [step]
  split <;> rfl

theorem offset_steps (c : Cursor) (bs : Bytes) : (c.steps bs).offset = c.offset + bs.length := by
  induction bs generalizing c with
  | nil => rfl
  | cons b bs ih => rw [steps, List.foldl_cons, ← steps, ih, offset_step, List.length_cons]; omega

theorem column_step_lf (c : Cursor) : (c.step Ascii.lf).column = 1 := by
  simp [step, column]

theorem column_step (c : Cursor) {b : UInt8} (hb : b ≠ Ascii.lf) :
    (c.step b).column = c.column + 1 := by
  rw [step, if_neg hb]
  simp only [column, UInt32.ofNat_add]
  grind

/-- A line start is a place in the first column that is near enough. -/
theorem startsLine_iff {c : Cursor} :
    c.startsLine = true ↔ c.column = 1 ∧ c.offset < 4294967296 := by
  rw [startsLine, column, beq_iff_eq]
  constructor
  · intro h
    have hlt := c.lineStart.toNat_lt
    exact ⟨by simp [h], by omega⟩
  · rintro ⟨h, hlt⟩
    have hstart : UInt32.ofNat c.offset = c.lineStart := by grind
    rw [← hstart, UInt32.toNat_ofNat_of_lt' hlt]

end Cursor

/-! ## Faults -/

/-- What can be wrong with the text of a lexeme. -/
inductive LexicalError where
  | integerTooLarge (digits : Bytes)
  | unterminatedString
  | unterminatedComment
  | unknownDirective
  | malformedLineNumber
  | unexpectedByte (b : UInt8)
deriving DecidableEq, Repr, Inhabited

namespace LexicalError

def code : LexicalError → Bytes
  | integerTooLarge _ | malformedLineNumber => "IL1001"
  | unterminatedString | unterminatedComment => "IL1002"
  | unknownDirective | unexpectedByte _ => "IL1003"

def message : LexicalError → Bytes
  | integerTooLarge digits => "Integer literal " ++ digits.quoted ++ " is too large"
  | unterminatedString => "Unterminated string literal"
  | unterminatedComment => "Unterminated block comment"
  | unknownDirective => "Invalid preprocessor directive"
  | malformedLineNumber => "Expected a line number or 'default' after #line"
  | unexpectedByte b => "Unexpected character " ++ Bytes.quoted [b]

def diagnostic (file : Bytes) (span : Span) (e : LexicalError) : Diagnostic :=
  .located file span .error e.code e.message

end LexicalError

/-! ## Lexemes -/

/-- What a `#line` directive asks for. -/
inductive LineMapping where
  | physical
  | startAt (line : Nat)
deriving DecidableEq, Repr, Inhabited

/-- A first part of the text that is read as a whole, and the text after it. -/
structure Lexeme where
  raw : Bytes
  rest : Bytes
  token : Option TokenKind := none
  error : Option LexicalError := none
  mapping : Option LineMapping := none
deriving DecidableEq, Repr, Inhabited

namespace Lexeme

/-- Splits a text after the first `*/`. -/
def splitComment : Bytes → Option (Bytes × Bytes)
  | [] => none
  | b :: bs =>
    if b = Ascii.star ∧ bs.head? = some Ascii.slash then some ([b, Ascii.slash], bs.tail)
    else (splitComment bs).map fun (body, rest) => (b :: body, rest)

/-- The body of a string literal after its opening quote: the decoded value, the bytes read, and
whether the closing quote was found on the line. -/
structure StringBody where
  value : Bytes
  raw : Bytes
  closed : Bool
  rest : Bytes
deriving DecidableEq, Repr, Inhabited

/-- The bytes that a backslash and the byte after it stand for. Both stay when they are no escape. -/
def unescape (b : UInt8) : Bytes :=
  if b = Ascii.lowerN then [Ascii.lf]
  else if b = Ascii.lowerT then [Ascii.tab]
  else if b = Ascii.lowerR then [Ascii.cr]
  else if b = Ascii.zero then [Ascii.nul]
  else if b = Ascii.backslash ∨ b = Ascii.quote then [b]
  else [Ascii.backslash, b]

def stringBody : Bytes → StringBody
  | [] => { value := [], raw := [], closed := false, rest := [] }
  | b :: bs =>
    if b = Ascii.quote then { value := [], raw := [b], closed := true, rest := bs }
    else if b = Ascii.lf then { value := [], raw := [], closed := false, rest := b :: bs }
    else if b = Ascii.backslash then
      match bs with
      | [] => { value := [b], raw := [b], closed := false, rest := [] }
      | e :: bs =>
        let r := stringBody bs
        { r with value := unescape e ++ r.value, raw := b :: e :: r.raw }
    else
      let r := stringBody bs
      { r with value := b :: r.value, raw := b :: r.raw }

/-- The largest value of an integer literal. -/
def maxInt : Nat := 2147483647

/-- What the line of a directive means. -/
def directive (line : Bytes) : Except LexicalError LineMapping :=
  let line : Bytes := if line.getLast? = some Ascii.cr then line.dropLast else line
  if line.startsWith "#line " then
    let argument := Bytes.trim (· = Ascii.space) (line.drop 6)
    if argument = "default" then .ok .physical
    else match argument.toNat? with
      | some n => if 0 < n ∧ n < 4294967296 then .ok (.startAt n) else .error .malformedLineNumber
      | none => .error .malformedLineNumber
  else .error .unknownDirective

/-- The lexeme of a directive line, which ends before the line feed. -/
def ofDirective (bs : Bytes) : Lexeme :=
  let line := bs.takeWhile (· ≠ Ascii.lf)
  let lexeme : Lexeme := { raw := line, rest := bs.dropWhile (· ≠ Ascii.lf) }
  match directive line with
  | .ok mapping => { lexeme with mapping := some mapping }
  | .error e => { lexeme with error := some e }

def ofWord (b : UInt8) (bs : Bytes) : Lexeme :=
  let word := b :: bs.takeWhile Ascii.isNameByte
  { raw := word, rest := bs.dropWhile Ascii.isNameByte,
    token := some (match Keyword.ofText? word with
      | some k => .keyword k
      | none => .identifier word) }

def ofDigits (b : UInt8) (bs : Bytes) : Lexeme :=
  let digits : Bytes := b :: bs.takeWhile Ascii.isDigit
  let rest := bs.dropWhile Ascii.isDigit
  let value := digits.decimalValue
  if maxInt < value then
    { raw := digits, rest, token := some (.int digits 0), error := some (.integerTooLarge digits) }
  else { raw := digits, rest, token := some (.int digits value) }

def ofString (b : UInt8) (bs : Bytes) : Lexeme :=
  let body := stringBody bs
  { raw := b :: body.raw, rest := body.rest, token := some (.string body.value),
    error := if body.closed then none else some .unterminatedString }

def ofBlockComment (opening bs : Bytes) : Lexeme :=
  match splitComment bs with
  | some (body, rest) => { raw := opening ++ body, rest }
  | none => { raw := opening ++ bs, rest := [], error := some .unterminatedComment }

def ofMark (b : UInt8) (bs : Bytes) : Lexeme :=
  match bs.head?.bind (Punct.ofTwoBytes? b) with
  | some p => { raw := b :: bs.take 1, rest := bs.drop 1, token := some (.punct p) }
  | none =>
    match Punct.ofByte? b with
    | some p => { raw := [b], rest := bs, token := some (.punct p) }
    | none => { raw := [b], rest := bs, error := some (.unexpectedByte b) }

/-- Blanks between tokens: space, tab, line feed, carriage return. -/
def isBlank (b : UInt8) : Bool :=
  b == Ascii.space || b == Ascii.tab || b == Ascii.lf || b == Ascii.cr

/-- The lexeme at the start of the text `b :: bs`. -/
def ofText (atLineStart : Bool) (b : UInt8) (bs : Bytes) : Lexeme :=
  if b = Ascii.hash ∧ atLineStart then ofDirective (b :: bs)
  else if isBlank b then { raw := [b], rest := bs }
  else if b = Ascii.slash ∧ bs.head? = some Ascii.slash then
    { raw := b :: bs.takeWhile (· ≠ Ascii.lf), rest := bs.dropWhile (· ≠ Ascii.lf) }
  else if b = Ascii.slash ∧ bs.head? = some Ascii.star then ofBlockComment (b :: bs.take 1) (bs.drop 1)
  else if Ascii.isNameStart b then ofWord b bs
  else if Ascii.isDigit b then ofDigits b bs
  else if b = Ascii.quote then ofString b bs
  else ofMark b bs

theorem splitComment_append {bs body rest : Bytes} (h : splitComment bs = some (body, rest)) :
    body ++ rest = bs := by
  induction bs generalizing body with
  | nil => simp [splitComment] at h
  | cons b bs ih =>
    rw [splitComment] at h
    split at h
    · next hb =>
      obtain ⟨rfl, rfl⟩ := Prod.mk.inj (Option.some.inj h)
      cases bs with
      | nil => simp at hb
      | cons c bs => simp_all
    · obtain ⟨⟨body', rest'⟩, hs, hp⟩ := Option.map_eq_some_iff.1 h
      obtain ⟨rfl, rfl⟩ := Prod.mk.inj hp
      simp [ih hs]

theorem stringBody_raw_append_rest (bs : Bytes) :
    (stringBody bs).raw ++ (stringBody bs).rest = bs := by
  fun_induction stringBody bs with
  | case1 | case2 | case3 | case4 => simp_all
  | case5 _ _ _ _ _ ih | case6 _ _ _ _ _ _ ih => simpa using ih

theorem ofDirective_raw_append_rest (bs : Bytes) :
    (ofDirective bs).raw ++ (ofDirective bs).rest = bs := by
  rw [ofDirective]
  split <;> exact List.takeWhile_append_dropWhile

theorem ofDigits_raw_append_rest (b : UInt8) (bs : Bytes) :
    (ofDigits b bs).raw ++ (ofDigits b bs).rest = b :: bs := by
  rw [ofDigits]
  split <;> simp [List.takeWhile_append_dropWhile]

theorem ofBlockComment_raw_append_rest (opening bs : Bytes) :
    (ofBlockComment opening bs).raw ++ (ofBlockComment opening bs).rest = opening ++ bs := by
  rw [ofBlockComment]
  split
  · next h => simp [splitComment_append h]
  · simp

theorem ofMark_raw_append_rest (b : UInt8) (bs : Bytes) :
    (ofMark b bs).raw ++ (ofMark b bs).rest = b :: bs := by
  rw [ofMark]
  split
  · exact congrArg (b :: ·) (List.take_append_drop 1 bs)
  · split <;> simp

/-- A lexeme and the text after it are the text. -/
theorem ofText_raw_append_rest (s : Bool) (b : UInt8) (bs : Bytes) :
    (ofText s b bs).raw ++ (ofText s b bs).rest = b :: bs := by
  rw [ofText]
  split
  · exact ofDirective_raw_append_rest _
  split
  · simp
  split
  · simp [List.takeWhile_append_dropWhile]
  split
  · rw [ofBlockComment_raw_append_rest]
    exact congrArg (b :: ·) (List.take_append_drop 1 bs)
  split
  · simp [ofWord, List.takeWhile_append_dropWhile]
  split
  · exact ofDigits_raw_append_rest _ _
  split
  · simp [ofString, stringBody_raw_append_rest]
  · exact ofMark_raw_append_rest _ _

/-- A lexeme is not empty. -/
theorem ofText_raw_ne_nil (s : Bool) (b : UInt8) (bs : Bytes) : (ofText s b bs).raw ≠ [] := by
  rw [ofText]
  split
  · next h =>
    rw [ofDirective]
    have hb : b ≠ Ascii.lf := by rw [h.1]; decide
    split <;> simp [hb]
  split
  · simp
  split
  · simp
  split
  · rw [ofBlockComment]
    split <;> simp
  split
  · simp [ofWord]
  split
  · rw [ofDigits]
    split <;> simp
  split
  · simp [ofString]
  · rw [ofMark]
    split
    · simp
    · split <;> simp

theorem length_ofText_rest_lt (s : Bool) (b : UInt8) (bs : Bytes) :
    (ofText s b bs).rest.length < (b :: bs).length := by
  have h := congrArg List.length (ofText_raw_append_rest s b bs)
  have hn := List.length_pos_iff.2 (ofText_raw_ne_nil s b bs)
  rw [List.length_append] at h
  omega

end Lexeme

/-! ## The scanner -/

namespace Cursor

/-- The cursor after a lexeme. A line mapping holds from the next line on. -/
def after (c : Cursor) (l : Lexeme) : Cursor :=
  let shift := match l.mapping with
    | none => c.shift
    | some .physical => 0
    | some (.startAt n) => c.shiftTo n
  { c with shift }.steps l.raw

end Cursor

/-- The tokens of a text, closed by the end-of-text token, and what was wrong with it. -/
structure TokenStream where
  tokens : List Token
  errors : List (Span × LexicalError)
deriving DecidableEq, Repr, Inhabited

namespace TokenStream

/-- The tokens of `text` when it starts at `c`. -/
def scanFrom (c : Cursor) (text : Bytes) : TokenStream :=
  match text with
  | [] => { tokens := [{ kind := .eof, span := c.span }], errors := [] }
  | b :: bs =>
    let lexeme := Lexeme.ofText c.startsLine b bs
    let r := scanFrom (c.after lexeme) lexeme.rest
    { tokens := (lexeme.token.map fun kind => { kind, span := c.span }).toList ++ r.tokens,
      errors := (lexeme.error.map fun e => (c.span, e)).toList ++ r.errors }
termination_by text.length
decreasing_by exact Lexeme.length_ofText_rest_lt _ _ _

/-- The tokens of a source text. -/
def scan (text : Bytes) : TokenStream := scanFrom {} text

def diagnostics (file : Bytes) (s : TokenStream) : List Diagnostic :=
  s.errors.map fun (span, e) => e.diagnostic file span

end TokenStream

end ViewCompiler
