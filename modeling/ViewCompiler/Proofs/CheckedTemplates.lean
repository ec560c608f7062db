import ViewCompiler.Proofs.CheckedTags
import ViewCompiler.Proofs.CheckedTokens
import ViewCompiler.Proofs.TemplateRoundTrip

/-!
Reading templates by offsets. Checked reading reads every text without a fault, and it reads the
template of the text (`Checked.template_eq`).
-/

namespace ViewCompiler

/-! ## Text in drafts -/

namespace Draft

variable (d : Draft)

theorem isSome_text_addText (span : Span) (t : Bytes) : (d.addText span t).text.isSome = true := by
  rw [addText]
  split <;> rfl

theorem text_close (n : Nat) : (d.close n).text = d.text := by
  induction n generalizing d with
  | zero => rfl
  | succ n ih =>
    rw [close]
    split
    · rfl
    · rw [ih, text_addNode]

theorem text_endTag (span : Span) (tag : Bytes) : (d.endTag span tag).text = d.text := by
  rw [endTag]
  split
  · rfl
  · exact text_close _ _

theorem text_reportPlace (span : Span) (atLineStart : Bool) (k : DirectiveKeyword) :
    (d.reportPlace span atLineStart k).text = d.text := by
  rw [reportPlace]
  split <;> rfl

/-- A piece that is not text ends the text that goes on. -/
theorem text_step {p : Piece} (hp : ∀ span t, p ≠ .text span t) (errors : List TemplateReport) :
    (d.step (p, errors)).text = none := by
  rw [step]
  cases p with
  | text span t => exact absurd rfl (hp span t)
  | gap => exact text_endText _
  | expr span code => exact (text_addNode _ _).trans (text_endText _)
  | startTag span tag attributes opens =>
    rw [add]
    dsimp only
    split
    · exact text_endText _
    · exact (text_addNode _ _).trans (text_endText _)
  | endTag span tag => exact (text_endTag _ _ _).trans (text_endText _)
  | directive span atLineStart k argument =>
    rw [add]
    dsimp only
    split
    · split
      · exact text_endText _
      · exact text_endText _
    · exact (text_reportPlace _ _ _ _).trans (text_endText _)
  | code span atLineStart block =>
    have hplace (d : Draft) : (d.endText.reportPlace span atLineStart .code).text = none :=
      (text_reportPlace _ _ _ _).trans (text_endText _)
    cases block with
    | error e => exact hplace _
    | ok block =>
      rw [add]
      dsimp only
      split <;> exact hplace _

end Draft

namespace Checked

/-! ## Transitions -/

def comment (close : Bytes) (span : Span) : Reading Position RawPiece := do
  if ← loop (closeTurn close) () then return (.gap, []) else return (.gap, [(span, .unclosedComment)])

def expression (span : Span) (code : Bytes) : RawPiece :=
  if (Expr.parse? code).isSome then (.expr span code, []) else (.gap, [(span, .invalidExpression code)])

def parenthesized (span : Span) : Reading Position RawPiece := do
  let start ← offset
  if ← loop (balancedTurn skipString Ascii.lparen Ascii.rparen) 1 then
    let code ← sliceFrom start
    let _ ← advance
    return expression span ("(" ++ code ++ ")")
  else return (.gap, [(span, .unclosedExpression)])

/-- Whether the byte in front of the next one is the end of a name that is text. -/
def inName (inText : Bool) : Reading Position Bool := do
  let i ← offset
  if 0 < i then return Ascii.isNameByte (← previous) && inText else return false

def transition (inText : Bool) : Reading Position RawPiece := do
  let here ← place
  let next ← peek 1
  if next = Ascii.atSign then
    advanceBy 2
    return (.text here.span "@", [])
  else if next = Ascii.star then
    advanceBy 2
    comment "*@" here.span
  else if ← inName inText then
    let _ ← advance
    return (.text here.span "@", [])
  else if next = Ascii.lparen then
    advanceBy 2
    parenthesized here.span
  else if Ascii.isNameStart next then
    let _ ← advance
    let name ← readWhile Ascii.isNameByte
    return expression here.span name
  else
    let _ ← advance
    return (.text here.span "@", [(here.span, .transition)])

/-! ## Directives -/

/-- The first offset from `i` on where no blank of a line stands. -/
def blanksEnd (text : Bytes) (i : Nat) : Except Overrun Nat :=
  if i < text.length then
    match text[i]? with
    | some b => if Piece.isLineBlank b then blanksEnd text (i + 1) else .ok i
    | none => .error (.index i)
  else .ok i
termination_by text.length - i

/-- Leaves the line of a closing brace if nothing else stands on it. -/
def leaveLine : Reading Position Unit := do
  let here ← offset
  let text ← read
  let stop ← blanksEnd text here
  if text.length ≤ stop then advanceBy (stop - here + 1)
  else
    let b ← index stop
    if b = Ascii.lf then advanceBy (stop - here + 1) else return

/-- Reads a code block behind its opening brace. -/
def codeBody : Reading Position (Except TemplateError CodeBlock) := do
  let here ← place
  let start ← offset
  if ← loop (balancedTurn skipTrivia Ascii.lbrace Ascii.rbrace) 1 then
    let code ← sliceFrom start
    let _ ← advance
    leaveLine
    return .ok { code, span := here.span }
  else return .error .unclosedCode

/-- Reads a code block behind its keyword. -/
def codeBlock : Reading Position (Except TemplateError CodeBlock) := do
  skipSpace
  let b ← peek 0
  if b = Ascii.lbrace then
    let _ ← advance
    codeBody
  else return .error .missingCode

/-- The first of the keywords that stands behind the next byte. -/
def keywordAmong : List DirectiveKeyword → Reading Position (Option DirectiveKeyword)
  | [] => return none
  | k :: ks => do
    let here ← offset
    let w ← slice (here + 1) k.text.length
    let next ← peek (1 + k.text.length)
    if w = k.text ∧ !Ascii.isNameByte next then return some k else keywordAmong ks

/-- Reads a directive. One with an argument takes the rest of the line. -/
def directive (k : DirectiveKeyword) : Reading Position RawPiece := do
  let here ← place
  advanceBy (1 + k.text.length)
  if k = .code then
    let block ← codeBlock
    return (.code here.span here.atLineStart block, [])
  else
    let line ← readWhile (· ≠ Ascii.lf)
    if ← atEnd then return (.directive here.span here.atLineStart k (line.trim Ascii.isSpace), [])
    else
      let _ ← advance
      return (.directive here.span here.atLineStart k (line.trim Ascii.isSpace), [])

/-! ## Templates -/

/-- Reads a byte that is text. -/
def textByte : Reading Position RawPiece := do
  let here ← place
  let b ← advance
  return (.text here.span [b], [])

/-- Reads what a less-than sign starts. -/
def markup : Reading Position RawPiece := do
  if ← startsWith "<!--" then
    let here ← place
    advanceBy 4
    comment "-->" here.span
  else
    let next ← peek 1
    let second ← peek 2
    if next = Ascii.slash ∧ Ascii.isLetter second then endTag
    else if Ascii.isLetter next then startTag
    else textByte

/-- Reads the piece at the start of a text that is not empty. `inText` says that text goes on. -/
def piece (inText : Bool) : Reading Position RawPiece := do
  let b ← peek 0
  if b = Ascii.atSign then
    match ← keywordAmong DirectiveKeyword.all with
    | some k => directive k
    | none => transition inText
  else if b = Ascii.less then markup
  else textByte

def templateTurn (d : Draft) : Reading Position (Turn Draft Draft) := do
  if ← atEnd then return .stop d
  else
    let p ← piece d.text.isSome
    return .again (d.step p)

/-- The template of a text. -/
def template (text : Bytes) : Except Overrun Template :=
  (loop templateTurn {} text { offset := 0, place := {} }).map fun r => r.1.finish

section

variable {text bs : Bytes} {s s' : Source} {b : UInt8} {span : Span} {inText inWord : Bool}

/-! ## Transitions -/

theorem takes_comment (close : Bytes) (span : Span) (h : s.rest <:+ text) : Takes (comment close span) text s
    ((Piece.comment close span s).value, (Piece.comment close span s).errors) (Piece.comment close span s).rest := by
  have hclose := takes_closeTurn close s.rest s rfl h
  rw [Piece.comment]
  cases hfound : Stretch.through? close s.rest with
  | some n =>
    rw [hfound] at hclose
    exact hclose.bind .pure
  | none =>
    rw [hfound] at hclose
    exact hclose.bind .pure

theorem expression_eq (span : Span) (code : Bytes) (s : Source) : Piece.expression span code s =
    { value := (expression span code).1, errors := (expression span code).2, rest := s } := by
  rw [Piece.expression, expression]
  split <;> rfl

theorem takes_parenthesized (span : Span) (h : s.rest <:+ text) : Takes (parenthesized span) text s
    ((Piece.parenthesized span s).value, (Piece.parenthesized span s).errors) (Piece.parenthesized span s).rest := by
  have hloop := takes_balanced covers_skipString Ascii.lparen Ascii.rparen 1 s.rest s rfl h
  rw [Piece.parenthesized]
  refine gives_offset.bind ?_
  cases hfound : Stretch.matching? Stretch.leadingString Ascii.lparen Ascii.rparen 1 s.rest with
  | some n =>
    rw [hfound] at hloop
    obtain ⟨v, zs, hs, rfl⟩ := Stretch.exists_of_matching? hfound
    have hrest : (s.drop v.length).rest = Ascii.rparen :: zs := by rw [Source.rest_drop, hs, List.drop_left]
    have hadvance := takes_advance (suffix_drop h v.length) hrest
    rw [Source.drop_drop] at hadvance
    dsimp only
    rw [expression_eq]
    exact hloop.bind ((takes_sliceFrom h _).bind (hadvance.bind .pure))
  | none =>
    rw [hfound] at hloop
    exact hloop.bind .pure

/-- Nothing is what NUL is not. -/
theorem apply_getD (q : UInt8 → Bool) (hq : q Ascii.nul = false) (c : Option UInt8) :
    q (c.getD Ascii.nul) = c.any q := by
  cases c with
  | none => exact hq
  | some c => rfl

theorem takes_transition (h : s.rest <:+ text) (hs : s.rest = b :: bs) (hword : Takes (inName inText) text s inWord s) :
    Takes (transition inText) text s ((Piece.transition inWord s).value, (Piece.transition inWord s).errors)
      (Piece.transition inWord s).rest := by
  have htwo := takes_advanceBy h 2
  have hone := takes_advance h hs
  have hnext {c : UInt8} (hc : c ≠ Ascii.nul) : s.rest[1]?.getD Ascii.nul = c ↔ bs.head? = some c :=
    hs ▸ getD_one_eq_iff hc
  have hbehind : s.rest[1]? = bs.head? := by rw [hs, List.getElem?_cons_succ, List.head?_eq_getElem?]
  rw [Piece.transition, hs, List.tail_cons]
  refine gives_place.bind ((takes_peek h 1).bind (.ite (fun hyes => ?_) fun hno => ?_))
  · rw [if_pos ((hnext (by decide)).1 hyes)]
    exact htwo.bind .pure
  rw [if_neg fun hyes => hno ((hnext (by decide)).2 hyes)]
  refine .ite (fun hyes => ?_) fun hno => ?_
  · rw [if_pos ((hnext (by decide)).1 hyes)]
    exact htwo.bind (takes_comment _ _ (suffix_drop h 2))
  rw [if_neg fun hyes => hno ((hnext (by decide)).2 hyes)]
  refine hword.bind (.ite (fun hyes => ?_) fun hno => ?_)
  · rw [if_pos hyes]
    exact hone.bind .pure
  rw [if_neg hno]
  refine .ite (fun hyes => ?_) fun hno => ?_
  · rw [if_pos ((hnext (by decide)).1 hyes)]
    exact htwo.bind (takes_parenthesized _ (suffix_drop h 2))
  rw [if_neg fun hyes => hno ((hnext (by decide)).2 hyes), hbehind, apply_getD Ascii.isNameStart (by decide)]
  refine .ite (fun hyes => ?_) fun hno => ?_
  · have hread := takes_readWhile_drop h 1 Ascii.isNameByte
    rw [List.drop_one, hs, List.tail_cons] at hread
    rw [if_pos hyes, expression_eq]
    exact hone.bind (hread.bind .pure)
  · rw [if_neg hno]
    exact hone.bind .pure

/-! ## Directives -/

theorem blanksEnd_eq (text : Bytes) (i : Nat) :
    blanksEnd text i = .ok (i + ((text.drop i).takeWhile Piece.isLineBlank).length) := by
  fun_induction blanksEnd text i with
  | case1 i hlt b hb hblank ih =>
    obtain ⟨_, rfl⟩ := List.getElem?_eq_some_iff.1 hb
    rw [ih, List.drop_eq_getElem_cons hlt, List.takeWhile_cons_of_pos hblank, List.length_cons, Nat.add_assoc,
      Nat.add_comm 1]
  | case2 i hlt b hb hblank =>
    obtain ⟨_, rfl⟩ := List.getElem?_eq_some_iff.1 hb
    rw [List.drop_eq_getElem_cons hlt, List.takeWhile_cons_of_neg hblank]
    rfl
  | case3 i hlt hnone => exact absurd hlt (Nat.not_lt.2 (List.getElem?_eq_none_iff.1 hnone))
  | case4 i hge =>
    rw [List.drop_of_length_le (Nat.not_lt.1 hge)]
    rfl

theorem takes_leaveLine (h : s.rest <:+ text) : Takes leaveLine text s () (Piece.leaveLine s) := by
  have hlength := h.length_le
  have hstop : Takes (fun _ h => (blanksEnd text (text.length - s.rest.length)).map (·, h)) text s
      (text.length - s.rest.length + (s.rest.takeWhile Piece.isLineBlank).length) s := by
    rw [Takes, Gives, blanksEnd_eq, drop_offset h]
    rfl
  have hmove := takes_advanceBy h ((s.rest.takeWhile Piece.isLineBlank).length + 1)
  have hafter : (s.rest.drop (s.rest.takeWhile Piece.isLineBlank).length).head? =
      s.rest[(s.rest.takeWhile Piece.isLineBlank).length]? := List.head?_drop
  refine gives_offset.bind (.bind (a := text) rfl (hstop.bind ?_))
  rw [Nat.add_sub_cancel_left, Piece.leaveLine, hafter]
  refine .ite (fun hend => ?_) fun hmore => ?_
  · rw [if_pos (.inl (List.getElem?_eq_none (by omega)))]
    exact hmove
  · have hlt : (s.rest.takeWhile Piece.isLineBlank).length < s.rest.length := by omega
    have hbyte := List.getElem?_eq_getElem hlt
    refine (gives_index h hbyte).bind (.ite (fun hlf => ?_) fun hlf => ?_)
    · rw [if_pos (.inr (hbyte.trans (congrArg some hlf)))]
      exact hmove
    · rw [hbyte, if_neg (by simpa using hlf)]
      exact .pure

theorem takes_codeBody (h : s.rest <:+ text) :
    match Stretch.matching? Stretch.leadingTrivia Ascii.lbrace Ascii.rbrace 1 s.rest with
    | some n => Takes codeBody text s (.ok { code := s.rest.take n, span := s.span }) (Piece.leaveLine (s.drop (n + 1)))
    | none => Takes codeBody text s (.error .unclosedCode) s.finish := by
  have hloop := takes_balanced covers_skipTrivia Ascii.lbrace Ascii.rbrace 1 s.rest s rfl h
  cases hfound : Stretch.matching? Stretch.leadingTrivia Ascii.lbrace Ascii.rbrace 1 s.rest with
  | some n =>
    rw [hfound] at hloop
    obtain ⟨v, zs, hs, rfl⟩ := Stretch.exists_of_matching? hfound
    have hclose : (s.drop v.length).rest = Ascii.rbrace :: zs := by rw [Source.rest_drop, hs, List.drop_left]
    have hadvance := takes_advance (suffix_drop h v.length) hclose
    have hleave := takes_leaveLine (suffix_drop h (v.length + 1))
    rw [Source.drop_drop] at hadvance
    exact gives_place.bind (gives_offset.bind (hloop.bind ((takes_sliceFrom h _).bind (hadvance.bind
      (hleave.bind .pure)))))
  | none =>
    rw [hfound] at hloop
    exact gives_place.bind (gives_offset.bind (hloop.bind .pure))

theorem takes_codeBlock (h : s.rest <:+ text) : Takes codeBlock text s (Piece.codeBlock s).value
    (Piece.codeBlock s).rest := by
  have hrest : (s.dropWhile Ascii.isSpace).rest <:+ text := suffix_drop h _
  rw [Piece.codeBlock]
  refine (takes_skipSpace h).bind (takes_ifNext (by decide) hrest (fun hbrace hadvance => ?_) fun hbrace => ?_)
  · have hbody := takes_codeBody (suffix_drop hrest 1)
    rw [if_pos hbrace]
    refine hadvance.bind ?_
    dsimp only
    cases hfound : Stretch.matching? Stretch.leadingTrivia Ascii.lbrace Ascii.rbrace 1
        ((s.dropWhile Ascii.isSpace).drop 1).rest with
    | some n =>
      rw [hfound] at hbody
      exact hbody
    | none =>
      rw [hfound] at hbody
      exact hbody
  · rw [if_neg hbrace]
    exact .pure

theorem takes_keywordAmong (h : s.rest <:+ text) (hs : s.rest = b :: bs) (ks : List DirectiveKeyword) :
    Takes (keywordAmong ks) text s (ks.find? fun k =>
      bs.startsWith k.text && !(bs.drop k.text.length).head?.any Ascii.isNameByte) s := by
  induction ks with
  | nil => exact .pure
  | cons k ks ih =>
    have hlength := h.length_le
    have hslice : Takes (slice (text.length - s.rest.length + 1) k.text.length) text s (bs.take k.text.length) s := by
      have hbehind : text.drop (text.length - s.rest.length + 1) = bs := by
        rw [← List.drop_drop, drop_offset h, hs, List.drop_one, List.tail_cons]
      have hpos : 0 < s.rest.length := by rw [hs]; exact Nat.succ_pos _
      rw [Takes, Gives, slice, if_pos (by omega), hbehind]
    have hnext : s.rest[1 + k.text.length]? = (bs.drop k.text.length).head? := by
      rw [hs, Nat.add_comm, List.getElem?_cons_succ, List.head?_drop]
    have htext : bs.startsWith k.text = true ↔ bs.take k.text.length = k.text := by
      rw [Bytes.startsWith, List.isPrefixOf_iff_prefix, List.prefix_iff_eq_take, eq_comm]
    refine gives_offset.bind (hslice.bind ((takes_peek h _).bind ?_))
    rw [hnext, apply_getD Ascii.isNameByte (by decide), List.find?_cons]
    refine .ite (fun hyes => ?_) fun hno => ?_
    · rw [htext.2 hyes.1, hyes.2]
      exact .pure
    · have hskip : (bs.startsWith k.text && !(bs.drop k.text.length).head?.any Ascii.isNameByte) = false := by
        rw [Bool.eq_false_iff, Ne, Bool.and_eq_true, htext]
        exact hno
      rw [hskip]
      exact ih

theorem takes_directive (k : DirectiveKeyword) (h : s.rest <:+ text) : Takes (directive k) text s
    ((Piece.ofDirective k s).value, (Piece.ofDirective k s).errors) (Piece.ofDirective k s).rest := by
  have hafter := suffix_drop h (k.text.length + 1)
  rw [Piece.ofDirective]
  refine gives_place.bind ((takes_advanceBy h _).bind ?_)
  rw [Nat.add_comm]
  refine .ite (fun hcode => ?_) fun hcode => ?_
  · rw [if_pos hcode]
    exact (takes_codeBlock hafter).bind .pure
  rw [if_neg hcode]
  generalize s.drop (k.text.length + 1) = after at hafter
  refine (takes_readWhile hafter (· ≠ Ascii.lf)).bind ?_
  dsimp only
  rw [← Source.drop_drop]
  by_cases hend : (after.rest.takeWhile (· ≠ Ascii.lf)).length = after.rest.length
  · have hfinish : (after.dropWhile (· ≠ Ascii.lf)).drop 1 = after.finish := by
      rw [dropWhile_eq_finish hend, Source.finish, Source.drop_drop]
      exact drop_of_length_le (Nat.le_succ _)
    rw [dropWhile_eq_finish hend]
    refine (takes_end after.rest_finish).bind ?_
    exact hfinish ▸ .pure
  · obtain ⟨e, es, he⟩ := exists_dropWhile_eq_cons hend
    have hline : (after.dropWhile (· ≠ Ascii.lf)).rest <:+ text := suffix_drop hafter _
    exact (takes_more hline he).bind ((takes_advance hline he).bind .pure)

/-! ## Pieces -/

theorem takes_textByte (h : s.rest <:+ text) (hs : s.rest = b :: bs) :
    Takes textByte text s (.text s.span [b], []) (s.drop 1) :=
  gives_place.bind ((takes_advance h hs).bind .pure)

/-- What a less-than sign starts. -/
theorem scan_markup (inWord : Bool) (hs : s.rest = Ascii.less :: bs) : Piece.scan inWord s =
    if s.rest.startsWith "<!--" then Piece.comment "-->" s.span (s.drop 4)
    else if bs.head? = some Ascii.slash ∧ s.rest[2]?.any Ascii.isLetter then Piece.ofEndTag s
    else if bs.head?.any Ascii.isLetter then Piece.ofStartTag s
    else { value := .text s.span [Ascii.less], rest := s.drop 1 } := by
  have hless : s.rest.head? = some Ascii.less := by rw [hs, List.head?_cons]
  rw [Piece.scan, hless, if_neg (by decide), List.head?_drop, hs]
  simp only [true_and, List.tail_cons, List.take_succ_cons, List.take_zero]

theorem takes_markup (h : s.rest <:+ text) (hs : s.rest = Ascii.less :: bs) : Takes markup text s
    ((Piece.scan inWord s).value, (Piece.scan inWord s).errors) (Piece.scan inWord s).rest := by
  have hnext : s.rest[1]? = bs.head? := by rw [hs, List.getElem?_cons_succ, List.head?_eq_getElem?]
  rw [scan_markup inWord hs]
  refine (takes_startsWith h _).bind (.ite (fun hyes => ?_) fun hno => ?_)
  · rw [if_pos hyes]
    exact gives_place.bind ((takes_advanceBy h 4).bind (takes_comment _ _ (suffix_drop h 4)))
  rw [if_neg hno]
  refine (takes_peek h 1).bind ((takes_peek h 2).bind ?_)
  rw [apply_getD Ascii.isLetter (by decide), apply_getD Ascii.isLetter (by decide)]
  have hslash : s.rest[1]?.getD Ascii.nul = Ascii.slash ↔ bs.head? = some Ascii.slash :=
    hs ▸ getD_one_eq_iff (by decide)
  refine .ite (fun hyes => ?_) fun hno => ?_
  · rw [hslash] at hyes
    rw [if_pos hyes]
    exact takes_endTag h
  rw [hslash] at hno
  rw [if_neg hno, hnext]
  refine .ite (fun hyes => ?_) fun hno => ?_
  · rw [if_pos hyes]
    exact takes_startTag h hs
  · rw [if_neg hno]
    exact takes_textByte h hs

theorem takes_piece (h : s.rest <:+ text) (hs : s.rest = b :: bs) (hword : Takes (inName inText) text s inWord s) :
    Takes (piece inText) text s ((Piece.scan inWord s).value, (Piece.scan inWord s).errors)
      (Piece.scan inWord s).rest := by
  refine (takes_next h hs).bind (.ite (fun hat => ?_) fun hat => .ite (fun hless => ?_) fun hless => ?_)
  · have hhead : s.rest.head? = some Ascii.atSign := by rw [hs, hat, List.head?_cons]
    have htail : s.rest.tail = bs := by rw [hs, List.tail_cons]
    have hkeyword : Takes (keywordAmong DirectiveKeyword.all) text s (Piece.keyword? bs) s :=
      takes_keywordAmong h hs _
    rw [Piece.scan, if_pos hhead, htail]
    refine hkeyword.bind ?_
    cases Piece.keyword? bs with
    | some k => exact takes_directive k h
    | none => exact takes_transition h hs hword
  · exact takes_markup h (hless ▸ hs)
  · rw [Piece.scan_byte hat hless inWord hs]
    exact takes_textByte h hs

/-! ## Text that goes on -/

/-- A piece that is text ends in the byte in front of the rest. -/
def EndsInText (s : Source) (r : Scanned Piece) : Prop :=
  ∀ span t, r.value = .text span t → ∃ w b, w <+: s.rest ∧ r.rest = s.drop w.length ∧
    w.getLast? = some b ∧ t.getLast? = some b

theorem endsInText_byte (hs : s.rest = b :: bs) {errors : List TemplateReport} :
    EndsInText s { value := .text span [b], errors, rest := s.drop 1 } := by
  rintro _ _ ⟨⟩
  exact ⟨[b], b, ⟨bs, hs.symm⟩, rfl, rfl, rfl⟩

theorem endsInText_of_ne {r : Scanned Piece} (h : ∀ span t, r.value ≠ .text span t) : EndsInText s r :=
  fun span t htext => absurd htext (h span t)

theorem endsInText_comment (close : Bytes) (span : Span) (s' : Source) :
    EndsInText s (Piece.comment close span s') := by
  rw [Piece.comment]
  split <;> exact endsInText_of_ne fun _ _ => Piece.noConfusion

theorem endsInText_expression (span : Span) (code : Bytes) (s' : Source) :
    EndsInText s (Piece.expression span code s') := by
  rw [Piece.expression]
  split <;> exact endsInText_of_ne fun _ _ => Piece.noConfusion

theorem endsInText_parenthesized (span : Span) (s' : Source) : EndsInText s (Piece.parenthesized span s') := by
  rw [Piece.parenthesized]
  split
  · exact endsInText_expression _ _ _
  · exact endsInText_of_ne fun _ _ => Piece.noConfusion

theorem endsInText_transition (inWord : Bool) (hs : s.rest = Ascii.atSign :: bs) :
    EndsInText s (Piece.transition inWord s) := by
  rw [Piece.transition]
  dsimp only
  split
  · next hdouble =>
    rw [hs, List.tail_cons] at hdouble
    obtain ⟨w, hw⟩ := List.head?_eq_some_iff.1 hdouble
    rintro _ _ ⟨⟩
    exact ⟨[Ascii.atSign, Ascii.atSign], Ascii.atSign, ⟨w, by rw [hs, hw]; rfl⟩, rfl, rfl, rfl⟩
  split
  · exact endsInText_comment _ _ _
  split
  · exact endsInText_byte hs
  split
  · exact endsInText_parenthesized _ _
  split
  · exact endsInText_expression _ _ _
  · exact endsInText_byte hs

theorem endsInText_ofDirective (k : DirectiveKeyword) : EndsInText s (Piece.ofDirective k s) := by
  rw [Piece.ofDirective]
  dsimp only
  split <;> exact endsInText_of_ne fun _ _ => Piece.noConfusion

theorem endsInText_scan (inWord : Bool) (hs : s.rest = b :: bs) : EndsInText s (Piece.scan inWord s) := by
  by_cases hat : b = Ascii.atSign
  · have hhead : s.rest.head? = some Ascii.atSign := by rw [hs, hat, List.head?_cons]
    rw [Piece.scan, if_pos hhead]
    split
    · exact endsInText_ofDirective _
    · exact endsInText_transition inWord (hat ▸ hs)
  by_cases hless : b = Ascii.less
  · rw [scan_markup inWord (hless ▸ hs)]
    split
    · exact endsInText_comment _ _ _
    split
    · rw [Piece.ofEndTag]
      split <;> exact endsInText_of_ne fun _ _ => Piece.noConfusion
    split
    · exact endsInText_of_ne fun _ _ => Piece.noConfusion
    · exact endsInText_byte (hless ▸ hs)
  · rw [Piece.scan_byte hat hless inWord hs]
    exact endsInText_byte hs

/-- The byte in front of the next one is looked at only if there is one. -/
theorem takes_inName_false (h : s.rest <:+ text) : Takes (inName false) text s false s := by
  have hlength := h.length_le
  refine gives_offset.bind (.ite (fun hpos => ?_) fun _ => .pure)
  obtain ⟨u, hu⟩ := h
  cases hlast : u.getLast? with
  | none =>
    rw [List.getLast?_eq_none_iff] at hlast
    rw [hlast, List.nil_append] at hu
    rw [hu, Nat.sub_self] at hpos
    exact absurd hpos (Nat.lt_irrefl 0)
  | some b =>
    obtain ⟨u', rfl⟩ := List.getLast?_eq_some_iff.1 hlast
    rw [List.append_assoc] at hu
    refine (gives_previous hu).bind ?_
    rw [Bool.and_false]
    exact .pure

theorem takes_inName_true {w : Bytes} (h : s.rest <:+ text) (hw : w <+: s.rest) (hb : w.getLast? = some b) :
    Takes (inName true) text (s.drop w.length) (Ascii.isNameByte b) (s.drop w.length) := by
  have hpos : 0 < text.length - (s.drop w.length).rest.length := by
    have hne : 0 < w.length := List.length_pos_iff.2 fun hnil => by rw [hnil] at hb; exact nomatch hb
    have hle := hw.length_le
    have hlength := h.length_le
    rw [Source.length_drop_rest]
    omega
  refine gives_offset.bind (.ite (fun _ => (takes_previous h hw hb).bind ?_) fun hno => absurd hpos hno)
  rw [Bool.and_true]
  exact .pure

/-- A piece leaves the head behind a name that is text just if it is text that ends in one. -/
theorem takes_inName_step (inWord : Bool) (d : Draft) (h : s.rest <:+ text) (hs : s.rest = b :: bs) :
    Takes (inName (d.step ((Piece.scan inWord s).value, (Piece.scan inWord s).errors)).text.isSome) text
      (Piece.scan inWord s).rest (Piece.scan inWord s).value.endsInName (Piece.scan inWord s).rest := by
  have hends := endsInText_scan inWord hs
  have hrest := suffix_behind h (Piece.behind_scan inWord s)
  cases hvalue : (Piece.scan inWord s).value with
  | text span t =>
    obtain ⟨w, c, hw, hbehind, hlast, ht⟩ := hends span t hvalue
    have hsome : (d.step (.text span t, (Piece.scan inWord s).errors)).text.isSome = true :=
      Draft.isSome_text_addText _ _ _
    have hname : Piece.endsInName (.text span t) = Ascii.isNameByte c := by
      rw [Piece.endsInName, ht, Option.any_some]
    rw [hsome, hname, hbehind]
    exact takes_inName_true h hw hlast
  | _ =>
    rw [Draft.text_step d]
    · exact takes_inName_false hrest
    · exact nofun

/-! ## Templates -/

theorem exists_takes_pieces (inWord : Bool) (s : Source) : ∀ d : Draft, s.rest <:+ text →
    Takes (inName d.text.isSome) text s inWord s → ∃ s',
      Takes (loop templateTurn d) text s ((Piece.scanAll inWord s).foldl Draft.step d) s' := by
  -- `inWord` tells of the last piece what the reading sees in the draft and in front of the head
  fun_induction Piece.scanAll inWord s with
  | case1 inWord s hend =>
    intro d h hword
    exact ⟨s, gives_loop_stop ((takes_end hend).bind .pure)⟩
  | case2 inWord s hmore r ih =>
    intro d h hword
    obtain ⟨b, bs, hs⟩ := List.exists_cons_of_ne_nil hmore
    have hturn : Takes (templateTurn d) text s (.again (d.step (r.value, r.errors))) r.rest :=
      (takes_more h hs).bind ((takes_piece h hs hword).bind .pure)
    have hrest : r.rest.rest <:+ text := suffix_behind h (Piece.behind_scan inWord s)
    obtain ⟨s', hloop⟩ := ih (d.step (r.value, r.errors)) hrest (takes_inName_step inWord d h hs)
    exact ⟨s', gives_loop_again hturn h (Piece.length_scan_rest_lt inWord (List.length_pos_iff.2 hmore)) hloop⟩

end

/-- Checked reading finds the template of every text. -/
theorem template_eq (text : Bytes) : template text = .ok (Template.parse text) := by
  have hword : Takes (inName false) text { rest := text } false { rest := text } :=
    takes_inName_false List.suffix_rfl
  obtain ⟨s', hloop⟩ := exists_takes_pieces false { rest := text } {} List.suffix_rfl hword
  have hstart : before text text ({} : Position) = { offset := 0, place := {} } := by
    rw [before, Nat.sub_self]
  rw [Takes, Gives, hstart] at hloop
  rw [template, hloop]
  rfl

/-- No token has the name of the bytes that are none. -/
theorem name_ne_invalid (k : TokenKind) : k.name ≠ "invalid token" := by
  cases k with
  | keyword k => cases k <;> decide
  | punct p => cases p <;> decide
  | _ => exact of_decide_eq_true rfl

/-- Every text is read to its end: the scanner and the parser of templates never move on at the end of the
text, look at a byte that is not there or go on without having moved. The tokens end in the only one that
stands for the end of the text, and none of them stands for a byte that is no token. -/
theorem reads_every_text (text : Bytes) : tokens text = .ok (TokenStream.scan text) ∧
    template text = .ok (Template.parse text) ∧
    (∃ ts e, (TokenStream.scan text).tokens = ts ++ [e] ∧ e.kind = .eof ∧ ∀ t ∈ ts, t.kind ≠ .eof) ∧
    ∀ t ∈ (TokenStream.scan text).tokens, t.kind.name ≠ "invalid token" :=
  ⟨tokens_eq text, template_eq text, TokenStream.exists_tokens_eq {} text, fun t _ => name_ne_invalid t.kind⟩

end Checked

end ViewCompiler
