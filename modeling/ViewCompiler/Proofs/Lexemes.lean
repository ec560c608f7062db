import ViewCompiler.Token.Literal

/-!
How a lexeme depends on the text behind it. A text can be cut in front of a separator, a byte that
continues no word, number or mark: then a lexeme in front of the cut is what it is without the text
behind it (`Lexeme.ofText_append`), unless it runs on to the end of its line. In front of a line feed
also a lexeme that runs on ends (`Lexeme.ofText_append_lf`), and a fault there is a fault with the
text behind it (`Lexeme.error_append_lf`).
-/

namespace ViewCompiler

/-! ## Bytes of words -/

namespace Ascii

variable {b : UInt8}

theorem isNameByte_of_isNameStart (h : isNameStart b = true) : isNameByte b = true := by
  simp only [isNameStart, isNameByte, isAlnum, Bool.or_eq_true] at h ⊢
  exact h.imp_left .inl

theorem isNameByte_of_isDigit (h : isDigit b = true) : isNameByte b = true := by
  simp [isNameByte, isAlnum, h]

theorem isDigit_of_isNameStart (h : isNameStart b = true) : isDigit b = false := by
  have hunderscore : underscore = 95 := rfl
  have hnine : nine = 57 := rfl
  grind [isNameStart, isLetter, isUpper, isLower, isDigit]

theorem isBlank_of_isNameByte (h : isNameByte b = true) : Lexeme.isBlank b = false := by
  cases hb : Lexeme.isBlank b with
  | false => rfl
  | true =>
    simp only [Lexeme.isBlank, Bool.or_eq_true, beq_iff_eq] at hb
    rcases hb with ((rfl | rfl) | rfl) | rfl <;> cases h

end Ascii

/-! ## Separators -/

/-- Bytes that continue nothing that stands before them, comments and literals apart. -/
def isSeparator (b : UInt8) : Bool := b == Ascii.lf || b == Ascii.space || b == Ascii.semicolon

section

variable {x : UInt8}

theorem eq_of_isSeparator (h : isSeparator x = true) :
    x = Ascii.lf ∨ x = Ascii.space ∨ x = Ascii.semicolon := by
  simpa [isSeparator, or_assoc] using h

theorem isNameByte_of_isSeparator (h : isSeparator x = true) : Ascii.isNameByte x = false := by
  rcases eq_of_isSeparator h with rfl | rfl | rfl <;> rfl

theorem isDigit_of_isSeparator (h : isSeparator x = true) : Ascii.isDigit x = false := by
  rcases eq_of_isSeparator h with rfl | rfl | rfl <;> rfl

/-- Only few bytes start a mark of two. -/
theorem ofTwoBytes?_eq_none {b : UInt8} (h : b ∉ [Ascii.equal, Ascii.bang, Ascii.less, Ascii.greater,
    Ascii.ampersand, Ascii.bar]) (x : UInt8) : Punct.ofTwoBytes? b x = none := by
  simp only [List.mem_cons, List.not_mem_nil, or_false, not_or] at h
  simp [Punct.ofTwoBytes?, h]

theorem ofTwoBytes?_of_isSeparator (h : isSeparator x = true) (b : UInt8) :
    Punct.ofTwoBytes? b x = none := by
  have h₁ : x ≠ Ascii.equal := by rintro rfl; cases h
  have h₂ : x ≠ Ascii.ampersand := by rintro rfl; cases h
  have h₃ : x ≠ Ascii.bar := by rintro rfl; cases h
  simp [Punct.ofTwoBytes?, h₁, h₂, h₃]

end

section

variable {α : Type} {p : α → Bool} {x : α}

theorem takeWhile_append_of_not (h : p x = false) (xs ys : List α) :
    (xs ++ x :: ys).takeWhile p = xs.takeWhile p := by
  induction xs with
  | nil => simp [h]
  | cons y xs ih => simp only [List.cons_append, List.takeWhile_cons, ih]

theorem dropWhile_append_of_not (h : p x = false) (xs ys : List α) :
    (xs ++ x :: ys).dropWhile p = xs.dropWhile p ++ x :: ys := by
  induction xs with
  | nil => simp [h]
  | cons y xs ih =>
    simp only [List.cons_append, List.dropWhile_cons, ih]
    split <;> rfl

theorem head?_append_eq {y : α} (h : x ≠ y) (xs ys : List α) :
    (xs ++ x :: ys).head? = some y ↔ xs.head? = some y := by
  cases xs <;> simp [h]

end

/-! ## Lexemes -/

namespace Lexeme

variable {s : Bool} {b x : UInt8} {bs ys : Bytes}

/-- The lexeme of a longer text. -/
def extend (l : Lexeme) (ys : Bytes) : Lexeme := { l with rest := l.rest ++ ys }

@[simp] theorem rest_extend (l : Lexeme) (ys : Bytes) : (l.extend ys).rest = l.rest ++ ys := rfl

@[simp] theorem raw_extend (l : Lexeme) (ys : Bytes) : (l.extend ys).raw = l.raw := rfl

@[simp] theorem token_extend (l : Lexeme) (ys : Bytes) : (l.extend ys).token = l.token := rfl

@[simp] theorem error_extend (l : Lexeme) (ys : Bytes) : (l.extend ys).error = l.error := rfl

@[simp] theorem mapping_extend (l : Lexeme) (ys : Bytes) : (l.extend ys).mapping = l.mapping := rfl

/-- A directive or a line comment goes on to the end of its line. -/
def RunsOn (s : Bool) (b : UInt8) (bs : Bytes) : Prop :=
  (b = Ascii.hash ∧ s) ∨ (b = Ascii.slash ∧ bs.head? = some Ascii.slash)

theorem splitComment_append_some {body rest : Bytes} (h : splitComment bs = some (body, rest))
    (ys : Bytes) : splitComment (bs ++ ys) = some (body, rest ++ ys) := by
  fun_induction splitComment bs generalizing body with
  | case1 => cases h
  | case2 b bs hb =>
    cases h
    cases bs with
    | nil => simp at hb
    | cons c bs => simp_all [splitComment]
  | case3 b bs hb ih =>
    obtain ⟨⟨body', rest'⟩, hs, hp⟩ := Option.map_eq_some_iff.1 h
    cases hp
    have hb' : ¬ (b = Ascii.star ∧ (bs ++ ys).head? = some Ascii.slash) := by
      cases bs with
      | nil => simp [splitComment] at hs
      | cons c bs => simpa using hb
    rw [List.cons_append, splitComment, if_neg hb', ih hs]
    rfl

theorem splitComment_append_none (h : splitComment bs = none) (hx : x ≠ Ascii.slash)
    (hys : splitComment (x :: ys) = none) : splitComment (bs ++ x :: ys) = none := by
  induction bs with
  | nil => exact hys
  | cons c bs ih =>
    rw [splitComment] at h
    split at h
    · cases h
    · next hc =>
      have hc' : ¬ (c = Ascii.star ∧ (bs ++ x :: ys).head? = some Ascii.slash) := by
        rwa [head?_append_eq hx]
      rw [List.cons_append, splitComment, if_neg hc', ih (Option.map_eq_none_iff.1 h)]
      rfl

theorem stringBody_quote (bs : Bytes) :
    stringBody (Ascii.quote :: bs) = ⟨[], [Ascii.quote], true, bs⟩ := by
  rw [stringBody.eq_def]
  exact if_pos rfl

theorem stringBody_lf (bs : Bytes) :
    stringBody (Ascii.lf :: bs) = ⟨[], [], false, Ascii.lf :: bs⟩ := by
  rw [stringBody.eq_def]
  rfl

theorem stringBody_escape (e : UInt8) (bs : Bytes) : stringBody (Ascii.backslash :: e :: bs) =
    { stringBody bs with
      value := unescape e ++ (stringBody bs).value
      raw := Ascii.backslash :: e :: (stringBody bs).raw } := by
  rw [stringBody.eq_def]
  rfl

theorem stringBody_cons (hq : b ≠ Ascii.quote) (hl : b ≠ Ascii.lf) (hb : b ≠ Ascii.backslash)
    (bs : Bytes) : stringBody (b :: bs) =
    { stringBody bs with
      value := b :: (stringBody bs).value
      raw := b :: (stringBody bs).raw } := by
  rw [stringBody.eq_def]
  simp [hq, hl, hb]

theorem stringBody_append_closed (h : (stringBody bs).closed = true) (ys : Bytes) :
    stringBody (bs ++ ys) = { stringBody bs with rest := (stringBody bs).rest ++ ys } := by
  fun_induction stringBody bs with
  | case1 | case3 | case4 => cases h
  | case2 bs => rw [List.cons_append, stringBody_quote]
  | case5 e bs r _ _ ih =>
    have ih := ih h
    rw [List.cons_append, List.cons_append, stringBody_escape, ih]
  | case6 b bs hq hl hb r ih =>
    have ih := ih h
    rw [List.cons_append, stringBody_cons hq hl hb, ih]

/-- A string ends with its line, unless a backslash stands at the end of it. -/
theorem stringBody_append_lf (hlast : bs.getLast? ≠ some Ascii.backslash) (ys : Bytes) :
    stringBody (bs ++ Ascii.lf :: ys) =
      { stringBody bs with rest := (stringBody bs).rest ++ Ascii.lf :: ys } := by
  fun_induction stringBody bs with
  | case1 => rw [List.nil_append, stringBody_lf]
  | case2 bs => rw [List.cons_append, stringBody_quote]
  | case3 bs => rw [List.cons_append, stringBody_lf]
  | case4 => exact absurd rfl hlast
  | case5 e bs r _ _ ih =>
    have ih := ih (by cases bs <;> simp_all)
    rw [List.cons_append, List.cons_append, stringBody_escape, ih]
  | case6 b bs hq hl hb r ih =>
    have ih := ih (by cases bs <;> simp_all)
    rw [List.cons_append, stringBody_cons hq hl hb, ih]

theorem ofBlockComment_append {opening : Bytes}
    (he : (ofBlockComment opening bs).error ≠ some .unterminatedComment) (ys : Bytes) :
    ofBlockComment opening (bs ++ ys) = (ofBlockComment opening bs).extend ys := by
  cases h : splitComment bs with
  | none => simp [ofBlockComment, h] at he
  | some p => simp [ofBlockComment, h, splitComment_append_some h, extend]

theorem ofDigits_append (hx : Ascii.isDigit x = false) (ys : Bytes) :
    ofDigits b (bs ++ x :: ys) = (ofDigits b bs).extend (x :: ys) := by
  simp only [ofDigits, takeWhile_append_of_not hx, dropWhile_append_of_not hx]
  split <;> rfl

theorem ofString_append (he : (ofString b bs).error = none) (ys : Bytes) :
    ofString b (bs ++ ys) = (ofString b bs).extend ys := by
  have h : (stringBody bs).closed = true := by
    cases h : (stringBody bs).closed with
    | true => rfl
    | false => simp [ofString, h] at he
  simp [ofString, stringBody_append_closed h, h, extend]

theorem ofMark_append (hx : Punct.ofTwoBytes? b x = none) (ys : Bytes) :
    ofMark b (bs ++ x :: ys) = (ofMark b bs).extend (x :: ys) := by
  cases bs with
  | nil =>
    simp only [ofMark, List.nil_append, List.head?_cons, List.head?_nil, Option.bind_some,
      Option.bind_none, hx]
    split <;> rfl
  | cons c bs =>
    simp only [ofMark, List.cons_append, List.head?_cons, Option.bind_some]
    split
    · rfl
    · split <;> rfl

theorem ofText_quote (s : Bool) (bs : Bytes) : ofText s Ascii.quote bs = ofString Ascii.quote bs := rfl

/-- A lexeme in front of a separator does not depend on the text behind it, if a string does not. -/
theorem ofText_append_of (hx : isSeparator x = true) (hr : ¬ RunsOn s b bs)
    (he : (ofText s b bs).error ≠ some .unterminatedComment)
    (hstring : b = Ascii.quote → ofString b (bs ++ x :: ys) = (ofString b bs).extend (x :: ys)) :
    ofText s b (bs ++ x :: ys) = (ofText s b bs).extend (x :: ys) := by
  have hslash : x ≠ Ascii.slash := by rintro rfl; cases hx
  have hstar : x ≠ Ascii.star := by rintro rfl; cases hx
  have hdirective : ¬ (b = Ascii.hash ∧ s = true) := fun h => hr (.inl h)
  have hcomment : ¬ (b = Ascii.slash ∧ bs.head? = some Ascii.slash) := fun h => hr (.inr h)
  simp only [ofText, if_neg hdirective, if_neg hcomment] at he
  simp only [ofText, if_neg hdirective, head?_append_eq hslash, head?_append_eq hstar,
    if_neg hcomment]
  split
  · rfl
  next hblank =>
  rw [if_neg hblank] at he
  split
  · next h =>
    rw [if_pos h] at he
    cases bs with
    | nil => simp at h
    | cons c bs => exact ofBlockComment_append he _
  split
  · simp [ofWord, extend, takeWhile_append_of_not, dropWhile_append_of_not,
      isNameByte_of_isSeparator hx]
  split
  · exact ofDigits_append (isDigit_of_isSeparator hx) ys
  split
  · next h => exact hstring h
  · exact ofMark_append (ofTwoBytes?_of_isSeparator hx b) ys

theorem ofText_append (hx : isSeparator x = true) (hr : ¬ RunsOn s b bs)
    (he : (ofText s b bs).error = none) (ys : Bytes) :
    ofText s b (bs ++ x :: ys) = (ofText s b bs).extend (x :: ys) := by
  refine ofText_append_of hx hr (by simp [he]) ?_
  rintro rfl
  exact ofString_append (by rwa [ofText_quote] at he) _

/-- A lexeme that runs on ends in front of a line feed. -/
theorem ofText_append_lf_of_runsOn (hr : RunsOn s b bs) (ys : Bytes) :
    ofText s b (bs ++ Ascii.lf :: ys) = (ofText s b bs).extend (Ascii.lf :: ys) := by
  have hlf : decide (Ascii.lf ≠ Ascii.lf) = false := rfl
  by_cases hd : b = Ascii.hash ∧ s = true
  · simp only [ofText, if_pos hd, ofDirective, ← List.cons_append,
      takeWhile_append_of_not (p := fun x => decide (x ≠ Ascii.lf)) hlf,
      dropWhile_append_of_not (p := fun x => decide (x ≠ Ascii.lf)) hlf]
    split <;> rfl
  · have hc : b = Ascii.slash ∧ bs.head? = some Ascii.slash := hr.resolve_left hd
    have hc' : b = Ascii.slash ∧ (bs ++ Ascii.lf :: ys).head? = some Ascii.slash := by
      rwa [head?_append_eq (by decide)]
    have hb : isBlank b = false := by rw [hc.1]; rfl
    simp only [ofText, if_neg hd, hb, if_pos hc, if_pos hc', extend,
      takeWhile_append_of_not (p := fun x => decide (x ≠ Ascii.lf)) hlf,
      dropWhile_append_of_not (p := fun x => decide (x ≠ Ascii.lf)) hlf]
    rfl

theorem ofText_append_lf (he : (ofText s b bs).error = none) (ys : Bytes) :
    ofText s b (bs ++ Ascii.lf :: ys) = (ofText s b bs).extend (Ascii.lf :: ys) := by
  by_cases hr : RunsOn s b bs
  · exact ofText_append_lf_of_runsOn hr ys
  · exact ofText_append rfl hr he ys

/-- In front of a line feed also a lexeme with an error ends, but not a comment. -/
theorem ofText_append_line (hlast : (b :: bs).getLast? ≠ some Ascii.backslash)
    (he : (ofText s b bs).error ≠ some .unterminatedComment) (ys : Bytes) :
    ofText s b (bs ++ Ascii.lf :: ys) = (ofText s b bs).extend (Ascii.lf :: ys) := by
  by_cases hr : RunsOn s b bs
  · exact ofText_append_lf_of_runsOn hr ys
  refine ofText_append_of rfl hr he fun _ => ?_
  have hlast : bs.getLast? ≠ some Ascii.backslash := by cases bs <;> simp_all
  simp [ofString, stringBody_append_lf hlast, extend]

theorem ofText_comment_block (s : Bool) (bs : Bytes) : ofText s Ascii.slash (Ascii.star :: bs) =
    ofBlockComment [Ascii.slash, Ascii.star] bs := rfl

theorem directive_ne_unterminated (line : Bytes) : directive line ≠ .error .unterminatedComment := by
  rw [directive]
  dsimp only
  generalize (if line.getLast? = some Ascii.cr then line.dropLast else line) = cut
  repeat' split
  all_goals simp

/-- Only a comment is an unterminated one. -/
theorem exists_of_unterminated (he : (ofText s b bs).error = some .unterminatedComment) :
    ∃ rest, b = Ascii.slash ∧ bs = Ascii.star :: rest ∧ splitComment rest = none := by
  rw [ofText] at he
  split at he
  · rw [ofDirective] at he
    split at he
    · cases he
    · next e hline =>
      cases he
      exact absurd hline (directive_ne_unterminated _)
  split at he
  · cases he
  split at he
  · cases he
  split at he
  · next h =>
    obtain ⟨rfl, hstar⟩ := h
    obtain ⟨rest, rfl⟩ := List.head?_eq_some_iff.1 hstar
    refine ⟨rest, rfl, rfl, ?_⟩
    cases hsplit : splitComment rest with
    | none => rfl
    | some p => simp [ofBlockComment, hsplit] at he
  split at he
  · cases he
  split at he
  · rw [ofDigits] at he
    split at he <;> cases he
  split at he
  · simp [ofString] at he
  · rw [ofMark] at he
    split at he
    · cases he
    · split at he <;> cases he

/-- A comment without end has none in what follows, unless it is there. -/
theorem error_of_unterminated (he : (ofText s b bs).error = some .unterminatedComment)
    (hys : splitComment (Ascii.lf :: ys) = none) :
    (ofText s b (bs ++ Ascii.lf :: ys)).error = some .unterminatedComment := by
  obtain ⟨rest, rfl, rfl, hrest⟩ := exists_of_unterminated he
  rw [List.cons_append, ofText_comment_block, ofBlockComment,
    splitComment_append_none hrest (by decide) hys]

/-- What is wrong with a text in front of a line feed is so with what follows, unless that closes a
comment. -/
theorem error_append_lf (hlast : (b :: bs).getLast? ≠ some Ascii.backslash)
    (hys : splitComment (Ascii.lf :: ys) = none) :
    (ofText s b (bs ++ Ascii.lf :: ys)).error = (ofText s b bs).error := by
  by_cases he : (ofText s b bs).error = some .unterminatedComment
  · rw [error_of_unterminated he hys, he]
  · rw [ofText_append_line hlast he, error_extend]

end Lexeme

end ViewCompiler
