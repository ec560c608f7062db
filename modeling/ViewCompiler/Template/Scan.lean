import ViewCompiler.Ast.Parse
import ViewCompiler.Template
import ViewCompiler.Template.Source

/-!
Cutting the text of a template into pieces: text, expressions, tags, directives and comments. Each
piece moves forward (`length_scan_rest_lt`), so a text has finitely many of them
(`Piece.scanAll`). How the tags nest is not looked at here.
-/

namespace ViewCompiler

/-- What is reported about a place of a template. -/
abbrev TemplateReport := Span × TemplateError

/-! ## Stretches of text -/

namespace Stretch

/-- The number of bytes up to and including the first `close`. -/
def through? (close : Bytes) : Bytes → Option Nat
  | [] => none
  | b :: bs =>
    if Bytes.startsWith (b :: bs) close then some close.length
    else (through? close bs).map (· + 1)

/-- The length of a string behind its opening quote, with the closing one. A string ends with its
line; a backslash takes the next byte of the line with it. -/
def string : Bytes → Nat
  | [] => 0
  | b :: bs =>
    if b = Ascii.quote then 1
    else if b = Ascii.lf then 0
    else if b = Ascii.backslash then
      match bs with
      | [] => 1
      | e :: es => if e = Ascii.lf then 1 else string es + 2
    else string bs + 1

/-- The length of a string at the start of a text, zero if there is none. -/
def leadingString (bs : Bytes) : Nat :=
  if bs.head? = some Ascii.quote then string bs.tail + 1 else 0

/-- The length of a string or comment at the start of a text, zero if there is none. -/
def leadingTrivia (bs : Bytes) : Nat :=
  if bs.head? = some Ascii.quote then string bs.tail + 1
  else if bs.startsWith "//" then (bs.takeWhile (· ≠ Ascii.lf)).length
  else if bs.startsWith "/*" then ((through? "*/" (bs.drop 2)).map (· + 2)).getD bs.length
  else 0

/-- The number of bytes before the `closing` byte that ends `depth` open pairs. What `skip` covers
does not count. -/
def matching? (skip : Bytes → Nat) (opening closing : UInt8) (depth : Nat) (bs : Bytes) :
    Option Nat :=
  match bs with
  | [] => none
  | b :: rest =>
    if 0 < skip (b :: rest) then
      (matching? skip opening closing depth ((b :: rest).drop (skip (b :: rest)))).map
        (· + skip (b :: rest))
    else if b = opening then (matching? skip opening closing (depth + 1) rest).map (· + 1)
    else if b = closing then
      if depth ≤ 1 then some 0 else (matching? skip opening closing (depth - 1) rest).map (· + 1)
    else (matching? skip opening closing depth rest).map (· + 1)
termination_by bs.length
decreasing_by all_goals simp only [List.length_drop, List.length_cons]; omega

/-- A value without quotes: it ends at a blank, a quote or the end of the tag. -/
def bareValue : Bytes → Bytes
  | [] => []
  | b :: bs =>
    if Ascii.isSpace b || b = Ascii.greater || b = Ascii.quote || b = Ascii.apostrophe
        || (b = Ascii.slash && bs.head? = some Ascii.greater) then []
    else b :: bareValue bs

end Stretch

/-! ## Attributes -/

namespace Ascii

def isTagByte (b : UInt8) : Bool :=
  isAlnum b || b == dot || b == minus || b == colon || b == underscore

def isAttributeStart (b : UInt8) : Bool :=
  isLetter b || b == underscore || b == atSign || b == colon

def isAttributeByte (b : UInt8) : Bool := isTagByte b || b == atSign

theorem isAttributeByte_of_isAttributeStart {b : UInt8} (h : isAttributeStart b = true) :
    isAttributeByte b = true := by
  simp only [isAttributeStart, isAttributeByte, isTagByte, isAlnum, Bool.or_eq_true] at h ⊢
  rcases h with ((h | h) | h) | h <;> simp [h]

end Ascii

/-- Something read from a template, what was wrong with it, and the text after it. -/
structure Scanned (α : Type) where
  value : α
  errors : List TemplateReport := []
  rest : Source
deriving Inhabited

namespace Attribute

/-- Reads the value behind an equality sign. -/
def scanValue (s : Source) : Scanned (Except (Bytes → TemplateError) Bytes) :=
  match s.rest with
  | [] => { value := .error .missingValue, rest := s }
  | q :: bs =>
    if q = Ascii.quote ∨ q = Ascii.apostrophe then
      let value := bs.takeWhile (· ≠ q)
      if value.length = bs.length then { value := .error .unclosedValue, rest := s.finish }
      else { value := .ok value, rest := s.drop (value.length + 2) }
    else
      let value := Stretch.bareValue s.rest
      if value = [] then { value := .error .missingValue, rest := s }
      else { value := .ok value, rest := s.drop value.length }

/-- The attribute of that name and value, if an attribute may be so. -/
def check (span : Span) (name : Bytes) (value : Option Bytes) (rest : Source) :
    Scanned (Option Attribute) :=
  let a : Attribute := { name, value, span }
  if a.isEvent ∧ value.isNone then
    { value := none, errors := [(span, .eventWithoutValue name)], rest }
  else match a.expression? with
    | none => { value := some a, rest }
    | some code =>
      if (Expr.parse? code).isSome then { value := some a, rest }
      else { value := some a, errors := [(span, .attributeExpression code name)], rest }

/-- Reads an attribute of a tag. -/
def scan (tag : Bytes) (s : Source) : Scanned (Option Attribute) :=
  match s.rest with
  | [] => { value := none, rest := s }
  | b :: _ =>
    if Ascii.isAttributeStart b then
      let name := s.rest.takeWhile Ascii.isAttributeByte
      let s' := (s.drop name.length).dropWhile Ascii.isSpace
      if s'.rest.head? = some Ascii.equal then
        let v := scanValue ((s'.drop 1).dropWhile Ascii.isSpace)
        match v.value with
        | .ok value => check s.span name (some value) v.rest
        | .error e => { value := none, errors := [(s.span, e name)], rest := v.rest }
      else check s.span name none s'
    else { value := none, errors := [(s.span, .unexpectedByte b tag)], rest := s }

theorem rest_check (span : Span) (name : Bytes) (value : Option Bytes) (rest : Source) :
    (check span name value rest).rest = rest := by
  rw [check]
  split
  · rfl
  split
  · rfl
  split <;> rfl

theorem length_scanValue_rest_le (s : Source) :
    (scanValue s).rest.rest.length ≤ s.rest.length := by
  rw [scanValue]
  split
  · exact Nat.le_refl _
  split
  · dsimp only
    split
    · simp
    · simp only [Source.length_drop_rest]; omega
  · dsimp only
    split
    · exact Nat.le_refl _
    · simp only [Source.length_drop_rest]; omega

/-- An attribute is not empty. -/
theorem length_scan_rest_lt {tag : Bytes} {s : Source} {a : Attribute}
    (h : (scan tag s).value = some a) : (scan tag s).rest.rest.length < s.rest.length := by
  rw [scan] at h ⊢
  split at h
  · cases h
  next b bs hs =>
  simp only [hs] at h ⊢
  split at h
  next hb =>
    have hname : 0 < ((b :: bs).takeWhile Ascii.isAttributeByte).length := by
      simp [Ascii.isAttributeByte_of_isAttributeStart hb]
    have hs' : ((s.drop ((b :: bs).takeWhile Ascii.isAttributeByte).length).dropWhile
        Ascii.isSpace).rest.length < (b :: bs).length := by
      refine Nat.lt_of_le_of_lt (Source.length_dropWhile_rest_le _ _) ?_
      rw [Source.length_drop_rest, hs, List.length_cons]
      omega
    simp only [hb, if_true] at h ⊢
    split at h
    next he =>
      simp only [he, if_true]
      split at h
      next value hv =>
        simp only [rest_check]
        refine Nat.lt_of_le_of_lt (length_scanValue_rest_le _) (Nat.lt_of_le_of_lt ?_ hs')
        refine Nat.le_trans (Source.length_dropWhile_rest_le _ _) ?_
        rw [Source.length_drop_rest]
        omega
      · cases h
    next he =>
      simp only [he, if_false, rest_check]
      exact hs'
  · cases h

/-- Reading an attribute never moves back. -/
theorem length_scan_rest_le (tag : Bytes) (s : Source) :
    (scan tag s).rest.rest.length ≤ s.rest.length := by
  rw [scan]
  split
  · exact Nat.le_refl _
  split
  · dsimp only
    have hle : ((s.drop (s.rest.takeWhile Ascii.isAttributeByte).length).dropWhile
        Ascii.isSpace).rest.length ≤ s.rest.length := by
      refine Nat.le_trans (Source.length_dropWhile_rest_le _ _) ?_
      rw [Source.length_drop_rest]; omega
    split
    · have hv : (scanValue ((((s.drop (s.rest.takeWhile Ascii.isAttributeByte).length
          ).dropWhile Ascii.isSpace).drop 1).dropWhile Ascii.isSpace)).rest.rest.length
            ≤ s.rest.length := by
        refine Nat.le_trans (length_scanValue_rest_le _) ?_
        refine Nat.le_trans (Source.length_dropWhile_rest_le _ _) ?_
        rw [Source.length_drop_rest]; omega
      split
      · rw [rest_check]; exact hv
      · exact hv
    · rw [rest_check]; exact hle
  · exact Nat.le_refl _

end Attribute

/-! ## Tags -/

/-- A start tag behind its name: the attributes, and whether an element is opened. -/
structure TagBody where
  attributes : List Attribute
  opens : Bool
deriving DecidableEq, Repr, Inhabited

namespace TagBody

/-- Leaves a tag whose attributes cannot be read: goes on behind its end. -/
def abandon (attributes : List Attribute) (s : Source) : Scanned TagBody :=
  let skipped := s.rest.takeWhile (· ≠ Ascii.greater)
  if skipped.length = s.rest.length then { value := { attributes, opens := false }, rest := s.finish }
  else
    { value := { attributes, opens := skipped.getLast? ≠ some Ascii.slash }
      rest := s.drop (skipped.length + 1) }

/-- Reads the attributes of a tag up to its end. `span` is the place of the tag. -/
def scan (span : Span) (tag : Bytes) (attributes : List Attribute) (s : Source) : Scanned TagBody :=
  let s' := s.dropWhile Ascii.isSpace
  if s'.rest = [] then
    { value := { attributes, opens := false }, errors := [(span, .unclosedTag tag)], rest := s' }
  else if s'.rest.startsWith "/>" then
    { value := { attributes, opens := false }, rest := s'.drop 2 }
  else if s'.rest.head? = some Ascii.greater then
    { value := { attributes, opens := true }, rest := s'.drop 1 }
  else
    let a := Attribute.scan tag s'
    match _h : a.value with
    | none =>
      let r := abandon attributes a.rest
      { r with errors := a.errors ++ r.errors }
    | some next =>
      let r := scan span tag (attributes ++ [next]) a.rest
      { r with errors := a.errors ++ r.errors }
termination_by s.rest.length
decreasing_by
  exact Nat.lt_of_lt_of_le (Attribute.length_scan_rest_lt _h) (Source.length_dropWhile_rest_le _ _)

theorem length_abandon_rest_le (attributes : List Attribute) (s : Source) :
    (abandon attributes s).rest.rest.length ≤ s.rest.length := by
  rw [abandon]
  split
  · simp
  · rw [Source.length_drop_rest]; omega

/-- Reading a tag never moves back. -/
theorem length_scan_rest_le (span : Span) (tag : Bytes) (attributes : List Attribute)
    (s : Source) : (scan span tag attributes s).rest.rest.length ≤ s.rest.length := by
  fun_induction scan span tag attributes s with
  | case1 attributes s s' => exact Source.length_dropWhile_rest_le _ _
  | case2 attributes s s' | case3 attributes s s' =>
    have : s'.rest.length ≤ s.rest.length := Source.length_dropWhile_rest_le _ _
    rw [Source.length_drop_rest]
    omega
  | case4 attributes s s' h1 h2 h3 a h r =>
    refine Nat.le_trans (length_abandon_rest_le _ _) ?_
    exact Nat.le_trans (Attribute.length_scan_rest_le _ _) (Source.length_dropWhile_rest_le _ _)
  | case5 attributes s s' h1 h2 h3 a next h r ih =>
    refine Nat.le_trans ih ?_
    exact Nat.le_trans (Attribute.length_scan_rest_le _ _) (Source.length_dropWhile_rest_le _ _)

end TagBody

/-! ## Pieces -/

/-- The part of a template that stands at one place. Directives know whether they start a line. -/
inductive Piece where
  | text (span : Span) (text : Bytes)
  | expr (span : Span) (code : Bytes)
  | startTag (span : Span) (tag : Bytes) (attributes : List Attribute) (opens : Bool)
  | endTag (span : Span) (tag : Bytes)
  | directive (span : Span) (atLineStart : Bool) (keyword : DirectiveKeyword) (argument : Bytes)
  | code (span : Span) (atLineStart : Bool) (block : Except TemplateError CodeBlock)
  | gap
deriving Inhabited

namespace Piece

/-- Leaves a comment. -/
def comment (close : Bytes) (span : Span) (s : Source) : Scanned Piece :=
  match Stretch.through? close s.rest with
  | some n => { value := gap, rest := s.drop n }
  | none => { value := gap, errors := [(span, .unclosedComment)], rest := s.finish }

/-- An expression, if its text is one. -/
def expression (span : Span) (code : Bytes) (rest : Source) : Scanned Piece :=
  if (Expr.parse? code).isSome then { value := expr span code, rest }
  else { value := gap, errors := [(span, .invalidExpression code)], rest }

/-- Reads an expression in parentheses behind the opening one. -/
def parenthesized (span : Span) (s : Source) : Scanned Piece :=
  match Stretch.matching? Stretch.leadingString Ascii.lparen Ascii.rparen 1 s.rest with
  | some n => expression span ("(" ++ s.rest.take n ++ ")") (s.drop (n + 1))
  | none => { value := gap, errors := [(span, .unclosedExpression)], rest := s.finish }

/-- Reads what follows an at sign that starts no directive. `inWord` says that text before it ends
in a byte of a name: then the sign is text. -/
def transition (inWord : Bool) (s : Source) : Scanned Piece :=
  let next := s.rest.tail.head?
  if next = some Ascii.atSign then { value := text s.span "@", rest := s.drop 2 }
  else if next = some Ascii.star then comment "*@" s.span (s.drop 2)
  else if inWord then { value := text s.span "@", rest := s.drop 1 }
  else if next = some Ascii.lparen then parenthesized s.span (s.drop 2)
  else if next.any Ascii.isNameStart then
    let name := s.rest.tail.takeWhile Ascii.isNameByte
    expression s.span name (s.drop (name.length + 1))
  else { value := text s.span "@", errors := [(s.span, .transition)], rest := s.drop 1 }

/-- Whether a blank of a line. -/
def isLineBlank (b : UInt8) : Bool := b == Ascii.space || b == Ascii.tab

/-- Leaves the line of a closing brace if nothing else stands on it. -/
def leaveLine (s : Source) : Source :=
  let blanks := s.rest.takeWhile isLineBlank
  let after := (s.rest.drop blanks.length).head?
  if after = none ∨ after = some Ascii.lf then s.drop (blanks.length + 1) else s

/-- Reads a code block behind its keyword. -/
def codeBlock (s : Source) : Scanned (Except TemplateError CodeBlock) :=
  let s := s.dropWhile Ascii.isSpace
  if s.rest.head? = some Ascii.lbrace then
    let body := s.drop 1
    match Stretch.matching? Stretch.leadingTrivia Ascii.lbrace Ascii.rbrace 1 body.rest with
    | some n =>
      { value := .ok { code := body.rest.take n, span := body.span }
        rest := leaveLine (body.drop (n + 1)) }
    | none => { value := .error .unclosedCode, rest := body.finish }
  else { value := .error .missingCode, rest := s }

/-- The directive that a text behind an at sign starts with. -/
def keyword? (bs : Bytes) : Option DirectiveKeyword :=
  DirectiveKeyword.all.find? fun k =>
    bs.startsWith k.text && !(bs.drop k.text.length).head?.any Ascii.isNameByte

/-- Reads a directive. One with an argument takes the rest of the line. -/
def ofDirective (k : DirectiveKeyword) (s : Source) : Scanned Piece :=
  let after := s.drop (k.text.length + 1)
  if k = .code then
    let block := codeBlock after
    { value := code s.span s.position.atLineStart block.value, rest := block.rest }
  else
    let line : Bytes := after.rest.takeWhile (· ≠ Ascii.lf)
    { value := directive s.span s.position.atLineStart k (line.trim Ascii.isSpace)
      rest := after.drop (line.length + 1) }

def ofStartTag (s : Source) : Scanned Piece :=
  let tag := s.rest.tail.takeWhile Ascii.isTagByte
  let body := TagBody.scan s.span tag [] (s.drop (tag.length + 1))
  { value := startTag s.span tag body.value.attributes (body.value.opens && !isVoidElement tag)
    errors := body.errors
    rest := body.rest }

def ofEndTag (s : Source) : Scanned Piece :=
  let tag := (s.rest.drop 2).takeWhile Ascii.isTagByte
  let after := (s.drop (tag.length + 2)).dropWhile Ascii.isSpace
  if after.rest.head? = some Ascii.greater then { value := endTag s.span tag, rest := after.drop 1 }
  else { value := endTag s.span tag, errors := [(s.span, .malformedEndTag tag)], rest := after }

/-- Reads the piece at the start of a text that is not empty. -/
def scan (inWord : Bool) (s : Source) : Scanned Piece :=
  let next := s.rest.tail.head?
  if s.rest.head? = some Ascii.atSign then
    match keyword? s.rest.tail with
    | some k => ofDirective k s
    | none => transition inWord s
  else if s.rest.startsWith "<!--" then comment "-->" s.span (s.drop 4)
  else if s.rest.head? = some Ascii.less ∧ next = some Ascii.slash
      ∧ (s.rest.drop 2).head?.any Ascii.isLetter then ofEndTag s
  else if s.rest.head? = some Ascii.less ∧ next.any Ascii.isLetter then ofStartTag s
  else { value := text s.span (s.rest.take 1), rest := s.drop 1 }

/-- Whether a piece is text that ends in a byte of a name. -/
def endsInName : Piece → Bool
  | text _ t => t.getLast?.any Ascii.isNameByte
  | _ => false

/-! ### Every piece moves forward -/

theorem length_comment_rest_le (close : Bytes) (span : Span) (s : Source) :
    (comment close span s).rest.rest.length ≤ s.rest.length := by
  rw [comment]
  split
  · rw [Source.length_drop_rest]; omega
  · simp

theorem rest_expression (span : Span) (code : Bytes) (rest : Source) :
    (expression span code rest).rest = rest := by
  rw [expression]
  split <;> rfl

theorem length_parenthesized_rest_le (span : Span) (s : Source) :
    (parenthesized span s).rest.rest.length ≤ s.rest.length := by
  rw [parenthesized]
  split
  · rw [rest_expression, Source.length_drop_rest]; omega
  · simp

theorem length_transition_rest_lt (inWord : Bool) {s : Source} (h : 0 < s.rest.length) :
    (transition inWord s).rest.rest.length < s.rest.length := by
  rw [transition]
  dsimp only
  split
  · rw [Source.length_drop_rest]; omega
  split
  · refine Nat.lt_of_le_of_lt (length_comment_rest_le _ _ _) ?_
    rw [Source.length_drop_rest]; omega
  split
  · rw [Source.length_drop_rest]; omega
  split
  · refine Nat.lt_of_le_of_lt (length_parenthesized_rest_le _ _) ?_
    rw [Source.length_drop_rest]; omega
  split
  · rw [rest_expression, Source.length_drop_rest]; omega
  · rw [Source.length_drop_rest]; omega

theorem length_leaveLine_rest_le (s : Source) : (leaveLine s).rest.length ≤ s.rest.length := by
  rw [leaveLine]
  split
  · rw [Source.length_drop_rest]; omega
  · exact Nat.le_refl _

theorem length_codeBlock_rest_le (s : Source) :
    (codeBlock s).rest.rest.length ≤ s.rest.length := by
  have hs := Source.length_dropWhile_rest_le s Ascii.isSpace
  rw [codeBlock]
  dsimp only
  split
  · split
    · refine Nat.le_trans (length_leaveLine_rest_le _) ?_
      rw [Source.length_drop_rest, Source.length_drop_rest]; omega
    · simp
  · exact hs

theorem length_ofDirective_rest_lt (k : DirectiveKeyword) {s : Source} (h : 0 < s.rest.length) :
    (ofDirective k s).rest.rest.length < s.rest.length := by
  rw [ofDirective]
  dsimp only
  split
  · refine Nat.lt_of_le_of_lt (length_codeBlock_rest_le _) ?_
    rw [Source.length_drop_rest]; omega
  · rw [Source.length_drop_rest, Source.length_drop_rest]; omega

theorem length_ofStartTag_rest_lt {s : Source} (h : 0 < s.rest.length) :
    (ofStartTag s).rest.rest.length < s.rest.length := by
  refine Nat.lt_of_le_of_lt (TagBody.length_scan_rest_le _ _ _ _) ?_
  rw [Source.length_drop_rest]; omega

theorem length_ofEndTag_rest_lt {s : Source} (h : 0 < s.rest.length) :
    (ofEndTag s).rest.rest.length < s.rest.length := by
  rw [ofEndTag]
  have hs := Source.length_dropWhile_rest_le
    (s.drop (((s.rest.drop 2).takeWhile Ascii.isTagByte).length + 2)) Ascii.isSpace
  rw [Source.length_drop_rest] at hs
  split
  · rw [Source.length_drop_rest]; omega
  · exact Nat.lt_of_le_of_lt hs (by omega)

/-- A piece is not empty. -/
theorem length_scan_rest_lt (inWord : Bool) {s : Source} (h : 0 < s.rest.length) :
    (scan inWord s).rest.rest.length < s.rest.length := by
  rw [scan]
  split
  · split
    · exact length_ofDirective_rest_lt _ h
    · exact length_transition_rest_lt _ h
  split
  · refine Nat.lt_of_le_of_lt (length_comment_rest_le _ _ _) ?_
    rw [Source.length_drop_rest]; omega
  split
  · exact length_ofEndTag_rest_lt h
  split
  · exact length_ofStartTag_rest_lt h
  · rw [Source.length_drop_rest]; omega

/-- The pieces of a text with what is wrong in each. -/
def scanAll (inWord : Bool) (s : Source) : List (Piece × List TemplateReport) :=
  if _h : s.rest = [] then []
  else
    let r := scan inWord s
    (r.value, r.errors) :: scanAll r.value.endsInName r.rest
termination_by s.rest.length
decreasing_by exact length_scan_rest_lt _ (List.length_pos_iff.2 _h)

end Piece

end ViewCompiler
