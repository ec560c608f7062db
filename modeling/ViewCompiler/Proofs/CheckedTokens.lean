import ViewCompiler.Proofs.CheckedReading
import ViewCompiler.Proofs.TokenOffsets

/-!
Scanning tokens by offsets. Checked scanning reads every text without a fault, and it reads the tokens
of the text (`Checked.tokens_eq`).
-/

namespace ViewCompiler.Checked

/-! ## The scanner -/

/-- What is reported about a place of a source text. -/
abbrev LexicalReport := Span × LexicalError

/-- Reads a directive, a line that starts with a hash sign. -/
def lineDirective : Reading Cursor (List LexicalReport) := do
  let here ← place
  let start ← offset
  let _ ← readWhile (· ≠ Ascii.lf)
  match Lexeme.directive (← sliceFrom start) with
  | .ok .physical =>
    modifyPlace fun c => { c with shift := 0 }
    return []
  | .ok (.startAt n) =>
    modifyPlace fun c => { c with shift := c.shiftTo n }
    return []
  | .error e => return [(here.span, e)]

def commentTurn (_ : Unit) : Reading Cursor (Turn Unit Bool) := do
  if ← atEnd then return .stop false
  else
    let b ← peek 0
    let next ← peek 1
    if b = Ascii.star ∧ next = Ascii.slash then
      let _ ← advance
      let _ ← advance
      return .stop true
    else
      let _ ← advance
      return .again ()

def blockComment : Reading Cursor (List LexicalReport) := do
  let here ← place
  let _ ← advance
  let _ ← advance
  let closed ← loop commentTurn ()
  return if closed then [] else [(here.span, .unterminatedComment)]

/-- Moves over a blank, a comment or a directive. -/
def triviaTurn (es : List LexicalReport) : Reading Cursor (Turn (List LexicalReport) (List LexicalReport)) := do
  if ← atEnd then return .stop es
  else
    let b ← peek 0
    let next ← peek 1
    let here ← place
    if b = Ascii.hash ∧ here.startsLine then return .again (es ++ (← lineDirective))
    else if Lexeme.isBlank b then
      let _ ← advance
      return .again es
    else if b = Ascii.slash ∧ next = Ascii.slash then
      let _ ← readWhile (· ≠ Ascii.lf)
      return .again es
    else if b = Ascii.slash ∧ next = Ascii.star then return .again (es ++ (← blockComment))
    else return .stop es

/-- A token that has been read, none for a byte that starts no token, and what is wrong with it. -/
abbrev RawToken := Option TokenKind × Option LexicalError

def word : Reading Cursor RawToken := do
  let start ← offset
  let _ ← readWhile Ascii.isNameByte
  let w ← sliceFrom start
  return (some (TokenStream.wordKind w), none)

def number : Reading Cursor RawToken := do
  let start ← offset
  let _ ← readWhile Ascii.isDigit
  let digits ← sliceFrom start
  return if Lexeme.maxInt < digits.decimalValue then
    (some (.int digits 0), some (.integerTooLarge digits))
  else (some (.int digits digits.decimalValue), none)

/-- Reads a byte of a string literal, or two behind a backslash. -/
def stringTurn (value : Bytes) : Reading Cursor (Turn Bytes Bytes) := do
  if ← atEnd then return .stop value
  else
    let b ← peek 0
    if b = Ascii.quote then return .stop value
    else if b = Ascii.lf then return .stop value
    else
      let _ ← advance
      let last ← atEnd
      if b = Ascii.backslash ∧ !last then
        let e ← advance
        return .again (value ++ Lexeme.unescape e)
      else return .again (value ++ [b])

def stringLiteral : Reading Cursor RawToken := do
  let _ ← advance
  let value ← loop stringTurn []
  let last ← atEnd
  let b ← peek 0
  if last ∨ b ≠ Ascii.quote then return (some (.string value), some .unterminatedString)
  else
    let _ ← advance
    return (some (.string value), none)

/-- Reads a mark. A byte that is none is no token. -/
def mark : Reading Cursor RawToken := do
  let b ← advance
  let next ← peek 0
  match Punct.ofTwoBytes? b next with
  | some p =>
    let _ ← advance
    return (some (.punct p), none)
  | none =>
    match Punct.ofByte? b with
    | some p => return (some (.punct p), none)
    | none => return (none, some (.unexpectedByte b))

def token : Reading Cursor RawToken := do
  let b ← peek 0
  if Ascii.isNameStart b then word
  else if Ascii.isDigit b then number
  else if b = Ascii.quote then stringLiteral
  else mark

/-- Reads the next token with the trivia in front of it. -/
def tokensTurn (r : TokenStream) : Reading Cursor (Turn TokenStream TokenStream) := do
  let es ← loop triviaTurn []
  let here ← place
  if ← atEnd then
    return .stop { tokens := r.tokens ++ [{ kind := .eof, span := here.span }], errors := r.errors ++ es }
  else
    let t ← token
    return .again
      { tokens := r.tokens ++ (t.1.map fun kind => { kind, span := here.span }).toList
        errors := r.errors ++ (es ++ (t.2.map (here.span, ·)).toList) }

/-- The tokens of a text, closed by the end of the text. -/
def tokens (text : Bytes) : Except Overrun TokenStream :=
  (loop tokensTurn { tokens := [], errors := [] } text { offset := 0, place := {} }).map Prod.fst

/-! ## Trivia -/

section

variable {text v bs rest body : Bytes} {b : UInt8} {c : Cursor} {s : Bool}

theorem suffix_dropWhile (h : v <:+ text) (q : UInt8 → Bool) :
    v.takeWhile q ++ v.dropWhile q <:+ text := by
  rwa [List.takeWhile_append_dropWhile]

theorem gives_lineDirective (h : v <:+ text) :
    Gives lineDirective text v c (((Lexeme.ofDirective v).error.map (c.span, ·)).toList)
      (Lexeme.ofDirective v).rest (c.after (Lexeme.ofDirective v)) := by
  have hline : (past c (v.takeWhile (· ≠ Ascii.lf))).line = c.line :=
    Cursor.line_steps_of_not_mem (fun hlf => by simpa using List.mem_takeWhile_imp hlf) c
  have hslice := gives_slice (p := past c (v.takeWhile (· ≠ Ascii.lf))) (suffix_dropWhile h (· ≠ Ascii.lf))
  rw [List.takeWhile_append_dropWhile] at hslice
  refine gives_place.bind (gives_offset.bind ((gives_readWhile h _).bind (hslice.bind ?_)))
  have hafter (shift : Int) : { past c (v.takeWhile (· ≠ Ascii.lf)) with shift } =
      ({ c with shift }).steps (v.takeWhile (· ≠ Ascii.lf)) := (c.steps_shift shift _).symm
  rw [Lexeme.ofDirective]
  cases Lexeme.directive (v.takeWhile (· ≠ Ascii.lf)) with
  | error e => exact .pure
  | ok m =>
    cases m with
    | physical =>
      refine (gives_modifyPlace _).bind ?_
      rw [hafter]
      exact .pure
    | startAt n =>
      refine (gives_modifyPlace _).bind ?_
      rw [hafter, Cursor.shiftTo, hline]
      exact .pure

/-- Two bytes are passed. -/
theorem gives_advance_two {b' : UInt8} {α : Type} {m : Reading Cursor α} {a : α} {v' : Bytes} {c' : Cursor}
    (h : b :: b' :: bs <:+ text) (hm : Gives m text bs (past c [b, b']) a v' c') :
    Gives (do
      let _ ← advance
      let _ ← advance
      m) text (b :: b' :: bs) c a v' c' :=
  (gives_advance h).bind ((gives_advance ((List.suffix_cons _ _).trans h)).bind hm)

theorem gives_commentTurn_close (h : Ascii.star :: Ascii.slash :: bs <:+ text) :
    Gives (commentTurn ()) text (Ascii.star :: Ascii.slash :: bs) c (.stop true) bs
      (past c [Ascii.star, Ascii.slash]) := by
  refine (gives_atEnd h).bind ((gives_peek h 0).bind ((gives_peek h 1).bind (.ite (fun _ => ?_) fun hno => ?_)))
  · exact gives_advance_two h .pure
  · exact absurd ⟨rfl, rfl⟩ hno

theorem gives_commentTurn_again (h : b :: bs <:+ text)
    (hopen : ¬ (b = Ascii.star ∧ bs.head? = some Ascii.slash)) :
    Gives (commentTurn ()) text (b :: bs) c (.again ()) bs (c.step b) := by
  refine (gives_atEnd h).bind ((gives_peek h 0).bind ((gives_peek h 1).bind (.ite (fun hyes => ?_) fun _ => ?_)))
  · exact absurd ⟨hyes.1, (getD_one_eq_iff (by decide)).1 hyes.2⟩ hopen
  · exact (gives_advance h).bind .pure

/-- A comment is passed up to its end, or with the rest of the text. -/
theorem gives_commentBody (h : v <:+ text) : Gives (loop commentTurn ()) text v c
    (Lexeme.splitComment v).isSome ((Lexeme.splitComment v).elim [] Prod.snd)
    (past c ((Lexeme.splitComment v).elim v Prod.fst)) := by
  induction v generalizing c with
  | nil => exact gives_loop_stop ((gives_atEnd h).bind .pure)
  | cons b bs ih =>
    rw [Lexeme.splitComment]
    split
    · next hclose =>
      obtain ⟨rfl, hhead⟩ := hclose
      obtain ⟨bs, rfl⟩ := List.head?_eq_some_iff.1 hhead
      exact gives_loop_stop (gives_commentTurn_close h)
    · next hopen =>
      have hrest := ih ((List.suffix_cons b bs).trans h) (c := c.step b)
      have hloop := gives_loop_again (gives_commentTurn_again h hopen) h (Nat.lt_succ_self _) hrest
      cases hsplit : Lexeme.splitComment bs with
      | none =>
        rw [hsplit] at hloop
        exact hloop
      | some r =>
        rw [hsplit] at hloop
        exact hloop

theorem gives_blockComment (h : Ascii.slash :: Ascii.star :: bs <:+ text) :
    Gives blockComment text (Ascii.slash :: Ascii.star :: bs) c
      (((Lexeme.ofBlockComment [Ascii.slash, Ascii.star] bs).error.map (c.span, ·)).toList)
      (Lexeme.ofBlockComment [Ascii.slash, Ascii.star] bs).rest
      (c.after (Lexeme.ofBlockComment [Ascii.slash, Ascii.star] bs)) := by
  have hbs : bs <:+ text := (List.suffix_append [Ascii.slash, Ascii.star] bs).trans h
  refine gives_place.bind (gives_advance_two h ((gives_commentBody hbs).bind ?_))
  rw [Cursor.after_of_mapping (Lexeme.mapping_ofBlockComment _ _), Lexeme.ofBlockComment]
  cases Lexeme.splitComment bs <;> exact .pure

/-- A lexeme that is passed between tokens. -/
def Silent (s : Bool) (b : UInt8) (bs : Bytes) : Prop :=
  (b = Ascii.hash ∧ s = true) ∨ Lexeme.isBlank b = true ∨
    (b = Ascii.slash ∧ (bs.head? = some Ascii.slash ∨ bs.head? = some Ascii.star))

theorem gives_triviaTurn (h : b :: bs <:+ text) (hsilent : Silent c.startsLine b bs) (es : List LexicalReport) :
    Gives (triviaTurn es) text (b :: bs) c
      (.again (es ++ ((Lexeme.ofText c.startsLine b bs).error.map (c.span, ·)).toList))
      (Lexeme.ofText c.startsLine b bs).rest (c.after (Lexeme.ofText c.startsLine b bs)) := by
  refine (gives_atEnd h).bind ((gives_peek h 0).bind ((gives_peek h 1).bind (gives_place.bind ?_)))
  by_cases hhash : b = Ascii.hash ∧ c.startsLine = true
  · refine .ite (fun _ => ?_) fun hno => absurd hhash hno
    rw [Lexeme.ofText, if_pos hhash]
    exact (gives_lineDirective h).bind .pure
  refine .ite (fun hyes => absurd hyes hhash) fun _ => ?_
  rw [Lexeme.ofText, if_neg hhash]
  by_cases hblank : Lexeme.isBlank b = true
  · refine .ite (fun _ => ?_) fun hno => absurd hblank hno
    rw [if_pos hblank, Option.map_none, Option.toList_none, List.append_nil]
    exact (gives_advance h).bind .pure
  refine .ite (fun hyes => absurd hyes hblank) fun _ => ?_
  rw [if_neg hblank]
  obtain ⟨rfl, hnext⟩ := (hsilent.resolve_left hhash).resolve_left hblank
  rcases hnext with hnext | hnext
  · refine .ite (fun _ => ?_) fun hno => absurd ⟨rfl, (getD_one_eq_iff (by decide)).2 hnext⟩ hno
    rw [if_pos ⟨rfl, hnext⟩, Option.map_none, Option.toList_none, List.append_nil]
    exact (gives_readWhile h _).bind .pure
  · obtain ⟨bs, rfl⟩ := List.head?_eq_some_iff.1 hnext
    have hline : ¬ (Ascii.star :: bs).head? = some Ascii.slash := fun hhead =>
      absurd (Option.some.inj hhead) (by decide)
    refine .ite (fun hyes => absurd ((getD_one_eq_iff (by decide)).1 hyes.2) hline) fun _ => ?_
    refine .ite (fun _ => ?_) fun hno => absurd ⟨rfl, (getD_one_eq_iff (by decide)).2 hnext⟩ hno
    rw [if_neg fun hyes => hline hyes.2, if_pos ⟨rfl, hnext⟩]
    exact (gives_blockComment h).bind .pure

/-- In front of a token nothing is passed. -/
theorem gives_triviaTurn_stop (h : v <:+ text) (es : List LexicalReport)
    (hv : ∀ b bs, v = b :: bs → ¬ Silent c.startsLine b bs) : Gives (triviaTurn es) text v c (.stop es) v c := by
  cases v with
  | nil => exact (gives_atEnd h).bind .pure
  | cons b bs =>
    have hsilent := hv b bs rfl
    rw [Silent, not_or, not_or] at hsilent
    obtain ⟨hhash, hblank, hcomment⟩ := hsilent
    refine (gives_atEnd h).bind ((gives_peek h 0).bind ((gives_peek h 1).bind (gives_place.bind ?_)))
    refine .ite (fun hyes => absurd hyes hhash) fun _ => ?_
    refine .ite (fun hyes => absurd hyes hblank) fun _ => ?_
    refine .ite (fun hyes => ?_) fun _ => .ite (fun hyes => ?_) fun _ => .pure
    · exact absurd ⟨hyes.1, .inl ((getD_one_eq_iff (by decide)).1 hyes.2)⟩ hcomment
    · exact absurd ⟨hyes.1, .inr ((getD_one_eq_iff (by decide)).1 hyes.2)⟩ hcomment

theorem token_of_silent (h : Silent s b bs) : (Lexeme.ofText s b bs).token = none := by
  rw [Lexeme.ofText]
  split
  · rw [Lexeme.ofDirective]
    split <;> rfl
  next hhash =>
  split
  · rfl
  next hblank =>
  split
  · rfl
  next hline =>
  split
  · rw [Lexeme.ofBlockComment]
    split <;> rfl
  next hblock =>
  obtain ⟨hslash, hnext⟩ := (h.resolve_left hhash).resolve_left hblank
  exact absurd hnext (not_or.2 ⟨fun hhead => hline ⟨hslash, hhead⟩, fun hhead => hblock ⟨hslash, hhead⟩⟩)

/-- What stands in front of the next token gives errors only. -/
theorem exists_gives_trivia (h : v <:+ text) (es : List LexicalReport) : ∃ es' v' c',
    Gives (loop triviaTurn es) text v c (es ++ es') v' c' ∧ v' <:+ v ∧
      TokenStream.scanFrom c v =
        ⟨(TokenStream.scanFrom c' v').tokens, es' ++ (TokenStream.scanFrom c' v').errors⟩ ∧
      ∀ b bs, v' = b :: bs → ¬ Silent c'.startsLine b bs := by
  induction hn : v.length using Nat.strongRecOn generalizing v c es with
  | ind n ih =>
  by_cases hstop : ∀ b bs, v = b :: bs → ¬ Silent c.startsLine b bs
  · refine ⟨[], v, c, ?_, List.suffix_rfl, rfl, hstop⟩
    rw [List.append_nil]
    exact gives_loop_stop (gives_triviaTurn_stop h es hstop)
  · obtain ⟨b, bs, rfl, hsilent⟩ : ∃ b bs, v = b :: bs ∧ Silent c.startsLine b bs := by
      by_contra hno
      exact hstop fun b bs hv hsilent => hno ⟨b, bs, hv, hsilent⟩
    have hturn := gives_triviaTurn h hsilent es
    have hscan := TokenStream.scanFrom_cons c b bs
    have hraw := Lexeme.ofText_raw_append_rest c.startsLine b bs
    have hlt := Lexeme.length_ofText_rest_lt c.startsLine b bs
    have htoken := token_of_silent hsilent
    generalize Lexeme.ofText c.startsLine b bs = l at hturn hscan hraw hlt htoken
    dsimp only at hscan
    let es₁ := (l.error.map (c.span, ·)).toList
    obtain ⟨es', v', c', hloop, hv', hscan', hready⟩ :=
      ih _ (hn ▸ hlt) (v := l.rest) (c := c.after l) (.trans ⟨_, hraw⟩ h) (es ++ es₁) rfl
    refine ⟨es₁ ++ es', v', c', ?_, hv'.trans ⟨_, hraw⟩, ?_, hready⟩
    · rw [← List.append_assoc]
      exact gives_loop_again hturn h hlt hloop
    · rw [hscan, hscan', TokenStream.tokenAt, htoken, ← List.append_assoc]
      rfl

/-! ## Tokens -/

/-- The reading of a token gives the lexeme. -/
def GivesLexeme (m : Reading Cursor RawToken) (text v : Bytes) (c : Cursor) (l : Lexeme) : Prop :=
  Gives m text v c (l.token, l.error) l.rest (past c l.raw)

/-- The bytes that satisfy `q` are cut out behind the reading. -/
theorem gives_sliceWhile {α : Type} {k : Bytes → Reading Cursor α} {a : α} {v' : Bytes} {c' : Cursor}
    (h : v <:+ text) (q : UInt8 → Bool)
    (hk : Gives (k (v.takeWhile q)) text (v.dropWhile q) (past c (v.takeWhile q)) a v' c') :
    Gives (do
      let start ← offset
      let _ ← readWhile q
      let w ← sliceFrom start
      k w) text v c a v' c' := by
  have hslice := gives_slice (p := past c (v.takeWhile q)) (suffix_dropWhile h q)
  rw [List.takeWhile_append_dropWhile] at hslice
  exact gives_offset.bind ((gives_readWhile h q).bind (hslice.bind hk))

theorem gives_word (h : b :: bs <:+ text) (hb : Ascii.isNameByte b = true) :
    GivesLexeme word text (b :: bs) c (Lexeme.ofWord b bs) := by
  refine gives_sliceWhile h Ascii.isNameByte ?_
  rw [List.takeWhile_cons_of_pos hb, List.dropWhile_cons_of_pos hb]
  exact .pure

theorem gives_number (h : b :: bs <:+ text) (hb : Ascii.isDigit b = true) :
    GivesLexeme number text (b :: bs) c (Lexeme.ofDigits b bs) := by
  refine gives_sliceWhile h Ascii.isDigit ?_
  rw [List.takeWhile_cons_of_pos hb, List.dropWhile_cons_of_pos hb, Lexeme.ofDigits]
  split <;> exact .pure

/-- What the reading of a string leaves: the closing quote, or a text that does not start with one. -/
def StringEnd (r : Lexeme.StringBody) (w rest : Bytes) : Prop :=
  (r.closed = true ∧ r.raw = w ++ [Ascii.quote] ∧ rest = Ascii.quote :: r.rest) ∨
    (r.closed = false ∧ r.raw = w ∧ rest = r.rest ∧ rest.head? ≠ some Ascii.quote)

theorem StringEnd.append {r : Lexeme.StringBody} {w rest : Bytes} (h : StringEnd r w rest)
    (front value : Bytes) :
    StringEnd { r with raw := front ++ r.raw, value := value ++ r.value } (front ++ w) rest := by
  rcases h with ⟨hclosed, hraw, hrest⟩ | ⟨hopen, hraw, hrest⟩
  · exact .inl ⟨hclosed, by rw [hraw, List.append_assoc], hrest⟩
  · exact .inr ⟨hopen, by rw [hraw], hrest⟩

/-- A byte of a string that is not escaped. -/
theorem gives_stringTurn (h : b :: bs <:+ text) (hquote : b ≠ Ascii.quote) (hlf : b ≠ Ascii.lf)
    (hplain : b = Ascii.backslash → bs = []) (value : Bytes) :
    Gives (stringTurn value) text (b :: bs) c (.again (value ++ [b])) bs (c.step b) := by
  have hbs := (List.suffix_cons b bs).trans h
  refine (gives_atEnd h).bind ((gives_peek h 0).bind (.ite (fun hyes => absurd hyes hquote) fun _ => ?_))
  refine .ite (fun hyes => absurd hyes hlf) fun _ => (gives_advance h).bind ((gives_atEnd hbs).bind ?_)
  refine .ite (fun hyes => ?_) fun _ => .pure
  obtain rfl := hplain hyes.1
  exact absurd hyes.2 (by decide)

theorem gives_stringTurn_escape {e : UInt8} (h : Ascii.backslash :: e :: bs <:+ text) (value : Bytes) :
    Gives (stringTurn value) text (Ascii.backslash :: e :: bs) c (.again (value ++ Lexeme.unescape e)) bs
      (past c [Ascii.backslash, e]) := by
  have hbs := (List.suffix_cons _ _).trans h
  have hquote : Ascii.backslash ≠ Ascii.quote := by decide
  have hlf : Ascii.backslash ≠ Ascii.lf := by decide
  refine (gives_atEnd h).bind ((gives_peek h 0).bind (.ite (fun hyes => absurd hyes hquote) fun _ => ?_))
  refine .ite (fun hyes => absurd hyes hlf) fun _ => (gives_advance h).bind ((gives_atEnd hbs).bind ?_)
  refine .ite (fun _ => (gives_advance hbs).bind .pure) fun hno => ?_
  exact absurd ⟨rfl, rfl⟩ hno

/-- A string literal is read up to its closing quote or the end of its line. -/
theorem exists_gives_string (v : Bytes) : ∀ (c : Cursor) (value : Bytes), v <:+ text → ∃ w rest,
    Gives (loop stringTurn value) text v c (value ++ (Lexeme.stringBody v).value) rest (past c w) ∧
      StringEnd (Lexeme.stringBody v) w rest ∧ rest <:+ v := by
  fun_induction Lexeme.stringBody v with
  | case1 =>
    intro c value h
    refine ⟨[], [], gives_loop_stop ((gives_atEnd h).bind ?_), .inr ⟨rfl, rfl, rfl, by simp⟩, List.suffix_rfl⟩
    rw [List.append_nil]
    exact .pure
  | case2 bs =>
    intro c value h
    refine ⟨[], Ascii.quote :: bs, gives_loop_stop ?_, .inl ⟨rfl, rfl, rfl⟩, List.suffix_rfl⟩
    rw [List.append_nil]
    exact (gives_atEnd h).bind ((gives_peek h 0).bind (.ite (fun _ => .pure) fun hno => absurd rfl hno))
  | case3 bs hquote =>
    intro c value h
    have hhead : (Ascii.lf :: bs).head? ≠ some Ascii.quote := fun hhead => hquote (Option.some.inj hhead)
    refine ⟨[], Ascii.lf :: bs, gives_loop_stop ?_, .inr ⟨rfl, rfl, rfl, hhead⟩, List.suffix_rfl⟩
    rw [List.append_nil]
    refine (gives_atEnd h).bind ((gives_peek h 0).bind (.ite (fun hyes => absurd hyes hquote) fun _ => ?_))
    exact .ite (fun _ => .pure) fun hno => absurd rfl hno
  | case4 =>
    intro c value h
    have hturn := gives_stringTurn h (c := c) (by decide) (by decide) (fun _ => rfl) value
    have hlast : Gives (stringTurn (value ++ [Ascii.backslash])) text [] (c.step Ascii.backslash)
        (.stop (value ++ [Ascii.backslash])) [] (c.step Ascii.backslash) :=
      (gives_atEnd List.nil_suffix).bind .pure
    exact ⟨[Ascii.backslash], [], gives_loop_again hturn h Nat.one_pos (gives_loop_stop hlast),
      .inr ⟨rfl, rfl, rfl, by simp⟩, List.nil_suffix⟩
  | case5 e bs r _ _ ih =>
    intro c value h
    have hbs : bs <:+ Ascii.backslash :: e :: bs := List.suffix_append [Ascii.backslash, e] bs
    obtain ⟨w, rest, hloop, hend, hrest⟩ :=
      ih (past c [Ascii.backslash, e]) (value ++ Lexeme.unescape e) (hbs.trans h)
    rw [List.append_assoc] at hloop
    have hlt : bs.length < (Ascii.backslash :: e :: bs).length := by
      simp only [List.length_cons]
      omega
    exact ⟨Ascii.backslash :: e :: w, rest, gives_loop_again (gives_stringTurn_escape h value) h hlt hloop,
      hend.append [Ascii.backslash, e] (Lexeme.unescape e), hrest.trans hbs⟩
  | case6 b bs hquote hlf hbackslash r ih =>
    intro c value h
    have hbs := List.suffix_cons b bs
    obtain ⟨w, rest, hloop, hend, hrest⟩ := ih (c.step b) (value ++ [b]) (hbs.trans h)
    rw [List.append_assoc] at hloop
    have hturn := gives_stringTurn h (c := c) hquote hlf (fun hb => absurd hb hbackslash) value
    exact ⟨b :: w, rest, gives_loop_again hturn h (Nat.lt_succ_self _) hloop, hend.append [b] [b],
      hrest.trans hbs⟩

theorem gives_stringLiteral (h : Ascii.quote :: bs <:+ text) :
    GivesLexeme stringLiteral text (Ascii.quote :: bs) c (Lexeme.ofString Ascii.quote bs) := by
  have hbs := (List.suffix_cons _ _).trans h
  obtain ⟨w, rest, hloop, hend, hrest⟩ := exists_gives_string bs (c.step Ascii.quote) [] hbs
  have hv := hrest.trans hbs
  refine (gives_advance h).bind (hloop.bind ((gives_atEnd hv).bind ((gives_peek hv 0).bind ?_)))
  rcases hend with ⟨hclosed, hraw, rfl⟩ | ⟨hopen, hraw, rfl, hhead⟩
  · refine .ite (fun hyes => absurd hyes (by simp)) fun _ => ?_
    have hplace : past (c.step Ascii.quote) (w ++ [Ascii.quote]) =
        Place.step (past (c.step Ascii.quote) w) Ascii.quote := List.foldl_concat _ _ _ _
    rw [Lexeme.ofString, hclosed, hraw]
    change Gives _ text _ _ _ _ (past (c.step Ascii.quote) (w ++ [Ascii.quote]))
    rw [hplace]
    exact (gives_advance hv).bind .pure
  · refine .ite (fun _ => ?_) fun hno => ?_
    · rw [Lexeme.ofString, hopen, hraw]
      exact .pure
    · rw [not_or, ne_eq, Decidable.not_not] at hno
      cases hrest' : (Lexeme.stringBody bs).rest with
      | nil => exact absurd (congrArg List.isEmpty hrest') hno.1
      | cons b v =>
        rw [hrest'] at hno hhead
        exact absurd (congrArg some hno.2) hhead

/-- Only NUL can stand for the end of the text, and it starts no mark. -/
theorem ofTwoBytes?_peek (b : UInt8) (bs : Bytes) :
    Punct.ofTwoBytes? b (bs[0]?.getD Ascii.nul) = bs.head?.bind (Punct.ofTwoBytes? b) := by
  cases bs with
  | nil =>
    have hequal : Ascii.nul ≠ Ascii.equal := by decide
    have hand : Ascii.nul ≠ Ascii.ampersand := by decide
    have hor : Ascii.nul ≠ Ascii.bar := by decide
    simp [Punct.ofTwoBytes?, hequal, hand, hor]
  | cons c bs => rfl

theorem gives_mark (h : b :: bs <:+ text) : GivesLexeme mark text (b :: bs) c (Lexeme.ofMark b bs) := by
  have hbs := (List.suffix_cons b bs).trans h
  refine (gives_advance h).bind ((gives_peek hbs 0).bind ?_)
  rw [ofTwoBytes?_peek, Lexeme.ofMark]
  cases htwo : bs.head?.bind (Punct.ofTwoBytes? b) with
  | some p =>
    obtain ⟨x, hx, -⟩ := Option.bind_eq_some_iff.1 htwo
    obtain ⟨bs, rfl⟩ := List.head?_eq_some_iff.1 hx
    exact (gives_advance hbs).bind .pure
  | none => cases Punct.ofByte? b <;> exact .pure

/-- What is not passed is read as a token. -/
theorem gives_token (h : b :: bs <:+ text) (hsilent : ¬ Silent s b bs) :
    GivesLexeme token text (b :: bs) c (Lexeme.ofText s b bs) := by
  rw [Silent, not_or, not_or] at hsilent
  obtain ⟨hhash, hblank, hcomment⟩ := hsilent
  rw [Lexeme.ofText, if_neg hhash, if_neg hblank, if_neg fun hyes => hcomment ⟨hyes.1, .inl hyes.2⟩,
    if_neg fun hyes => hcomment ⟨hyes.1, .inr hyes.2⟩]
  by_cases hname : Ascii.isNameStart b = true
  · rw [if_pos hname]
    have hread := gives_word h (Ascii.isNameByte_of_isNameStart hname) (c := c)
    exact (gives_peek h 0).bind (.ite (fun _ => hread) fun hno => absurd hname hno)
  rw [if_neg hname]
  by_cases hdigit : Ascii.isDigit b = true
  · rw [if_pos hdigit]
    refine (gives_peek h 0).bind (.ite (fun hyes => absurd hyes hname) fun _ => ?_)
    exact .ite (fun _ => gives_number h hdigit) fun hno => absurd hdigit hno
  rw [if_neg hdigit]
  refine (gives_peek h 0).bind (.ite (fun hyes => absurd hyes hname) fun _ => ?_)
  refine .ite (fun hyes => absurd hyes hdigit) fun _ => ?_
  by_cases hquote : b = Ascii.quote
  · subst hquote
    exact .ite (fun _ => gives_stringLiteral h) fun hno => absurd rfl hno
  · rw [if_neg hquote]
    exact .ite (fun hyes => absurd hyes hquote) fun _ => gives_mark h

/-- What is not passed is no directive. -/
theorem after_of_not_silent (hsilent : ¬ Silent c.startsLine b bs) :
    c.after (Lexeme.ofText c.startsLine b bs) = past c (Lexeme.ofText c.startsLine b bs).raw :=
  Cursor.after_of_mapping (Lexeme.mapping_ofText fun hhash => hsilent (.inl hhash))

/-! ## Texts -/

/-- From every place the scanner reads on to the end without a fault, and gives the tokens. -/
theorem exists_gives_tokens (h : v <:+ text) (r : TokenStream) : ∃ c', Gives (loop tokensTurn r) text v c
    { tokens := r.tokens ++ (TokenStream.scanFrom c v).tokens
      errors := r.errors ++ (TokenStream.scanFrom c v).errors } [] c' := by
  induction hn : v.length using Nat.strongRecOn generalizing v c r with
  | ind n ih =>
  obtain ⟨es, v', c', htrivia, hv', hscan, hready⟩ := exists_gives_trivia h [] (c := c)
  rw [List.nil_append] at htrivia
  rw [hscan]
  cases v' with
  | nil =>
    refine ⟨c', gives_loop_stop (htrivia.bind (gives_place.bind ((gives_atEnd List.nil_suffix).bind ?_)))⟩
    rw [TokenStream.scanFrom, List.append_nil]
    exact .pure
  | cons b bs =>
    have hsilent := hready b bs rfl
    have htoken := gives_token (hv'.trans h) hsilent (c := c')
    have hlt := Nat.lt_of_lt_of_le (Lexeme.length_ofText_rest_lt c'.startsLine b bs) hv'.length_le
    have hsuffix : (Lexeme.ofText c'.startsLine b bs).rest <:+ text :=
      .trans ⟨_, Lexeme.ofText_raw_append_rest _ _ _⟩ (hv'.trans h)
    rw [GivesLexeme, ← after_of_not_silent hsilent] at htoken
    rw [TokenStream.scanFrom_cons]
    generalize Lexeme.ofText c'.startsLine b bs = l at htoken hlt hsuffix
    let r' : TokenStream :=
      { tokens := r.tokens ++ TokenStream.tokenAt c' l
        errors := r.errors ++ (es ++ (l.error.map (c'.span, ·)).toList) }
    have hturn : Gives (tokensTurn r) text v c (.again r') l.rest (c'.after l) :=
      htrivia.bind (gives_place.bind ((gives_atEnd (hv'.trans h)).bind (htoken.bind .pure)))
    obtain ⟨c'', hloop⟩ := ih _ (hn ▸ hlt) (v := l.rest) (c := c'.after l) hsuffix r' rfl
    refine ⟨c'', ?_⟩
    have hall := gives_loop_again hturn h hlt hloop
    dsimp only [r'] at hall
    rw [List.append_assoc, List.append_assoc, List.append_assoc] at hall
    exact hall

end

/-- Checked scanning finds the tokens of every text. -/
theorem tokens_eq (text : Bytes) : tokens text = .ok (TokenStream.scan text) := by
  obtain ⟨c', htokens⟩ := exists_gives_tokens (c := {}) (List.suffix_rfl : text <:+ text)
    { tokens := [], errors := [] }
  have hstart : before text text ({} : Cursor) = { offset := 0, place := {} } := by
    rw [before, Nat.sub_self]
  rw [Gives, hstart] at htokens
  rw [tokens, htokens]
  rfl

end ViewCompiler.Checked
