import ViewCompiler.Proofs.MemberConsumption
import ViewCompiler.Proofs.Scanning
import ViewCompiler.Template.Write

/-!
The tokens of written text. `TokenStream.Writes` says what the tokens of a text are when it is
scanned without errors, whatever stands before and behind it: the pieces that a render block is
written of are such texts, and so is what is joined from them.
-/

namespace ViewCompiler

namespace TokenStream

open Tokens (Flat)

/-- Where the text `w` is scanned without errors its tokens have the property `P`. -/
def Writes (w : Bytes) (P : List Token → Prop) : Prop :=
  ∀ c ys, (scanFrom c (w ++ ys)).errors = [] → ∃ ts c', Scans c (w ++ ys) ts c' ys ∧ P ts

/-- A part with the property `P` and then one with the property `Q`. -/
def Joined (P Q : List Token → Prop) (ts : List Token) : Prop := ∃ v us, ts = v ++ us ∧ P v ∧ Q us

namespace Writes

variable {v w : Bytes} {P P' Q : List Token → Prop}

theorem mono (h : Writes w P) (hP : ∀ ts, P ts → P' ts) : Writes w P' := by
  intro c ys hclean
  obtain ⟨ts, c', hs, hts⟩ := h c ys hclean
  exact ⟨ts, c', hs, hP ts hts⟩

theorem append (h : Writes v P) (h' : Writes w P') (hQ : ∀ {ts us}, P ts → P' us → Q (ts ++ us)) :
    Writes (v ++ w) Q := by
  intro c ys hclean
  rw [List.append_assoc] at hclean ⊢
  obtain ⟨ts, c', hs, hts⟩ := h c (w ++ ys) hclean
  rw [hs.scanFrom_eq] at hclean
  obtain ⟨us, c'', hs', hus⟩ := h' c' ys hclean
  exact ⟨ts ++ us, c'', hs.trans hs', hQ hts hus⟩

theorem joined (h : Writes v P) (h' : Writes w P') : Writes (v ++ w) (Joined P P') :=
  h.append h' fun hts hus => ⟨_, _, rfl, hts, hus⟩

theorem nil (h : P []) : Writes [] P := fun c _ _ => ⟨[], c, .done, h⟩

theorem flatMap {α : Type} {f : α → Bytes} {xs : List α} (hnil : P [])
    (happend : ∀ {ts us}, P ts → P us → P (ts ++ us)) (h : ∀ x ∈ xs, Writes (f x) P) :
    Writes (xs.flatMap f) P := by
  induction xs with
  | nil => exact .nil hnil
  | cons x xs ih =>
    rw [List.flatMap_cons]
    exact (h x (by simp)).append (ih fun y hy => h y (by simp [hy])) happend

end Writes

/-! ## Blanks, words, marks and literals -/

section

variable {b x : UInt8} {v : Bytes} {P : List Token → Prop}

/-- In front of `v` the text `w` is one lexeme, a token of the kind `k` if it is a token. -/
def IsLexeme (w : Bytes) (k : Option TokenKind) (v : Bytes) : Prop :=
  ∃ b bs, w = b :: bs ∧ ∀ s ys, Lexeme.ofText s b (bs ++ (v ++ ys)) =
    { raw := w, rest := v ++ ys, token := k }

theorem isLexeme_blank (hb : Lexeme.isBlank b = true) (v : Bytes) : IsLexeme [b] none v :=
  ⟨b, [], rfl, fun s _ => Lexeme.ofText_blank hb s _⟩

/-- Bytes that start no blank, comment, word, number or literal. -/
def isMark (b : UInt8) : Bool :=
  b != Ascii.hash && !Lexeme.isBlank b && b != Ascii.slash && !Ascii.isNameStart b
    && !Ascii.isDigit b && b != Ascii.quote

theorem ofText_of_isMark (h : isMark b = true) (s : Bool) (bs : Bytes) :
    Lexeme.ofText s b bs = Lexeme.ofMark b bs := by
  simp only [isMark, Bool.and_eq_true, bne_iff_ne, ne_eq, Bool.not_eq_true'] at h
  simp [Lexeme.ofText, h]

/-- A mark that is not the first byte of a longer one. -/
theorem isLexeme_mark {p : Punct} (hb : isMark b = true) (hp : Punct.ofByte? b = some p)
    (hx : Punct.ofTwoBytes? b x = none) (v : Bytes) : IsLexeme [b] (some (.punct p)) (x :: v) := by
  refine ⟨b, [], rfl, fun s ys => ?_⟩
  rw [ofText_of_isMark hb, Lexeme.ofMark]
  simp [hx, hp]

/-- The token of a word. -/
def wordKind (w : Bytes) : TokenKind :=
  match Keyword.ofText? w with
  | some k => .keyword k
  | none => .identifier w

theorem ofText_of_isNameStart (h : Ascii.isNameStart b = true) (s : Bool) (bs : Bytes) :
    Lexeme.ofText s b bs = Lexeme.ofWord b bs := by
  have hhash : b ≠ Ascii.hash := by rintro rfl; cases h
  have hslash : b ≠ Ascii.slash := by rintro rfl; cases h
  have hblank := Ascii.isBlank_of_isNameByte (Ascii.isNameByte_of_isNameStart h)
  simp [Lexeme.ofText, hhash, hslash, hblank, h]

theorem ofText_of_isDigit (h : Ascii.isDigit b = true) (s : Bool) (bs : Bytes) :
    Lexeme.ofText s b bs = Lexeme.ofDigits b bs := by
  have hhash : b ≠ Ascii.hash := by rintro rfl; cases h
  have hslash : b ≠ Ascii.slash := by rintro rfl; cases h
  have hblank := Ascii.isBlank_of_isNameByte (Ascii.isNameByte_of_isDigit h)
  have hstart : Ascii.isNameStart b = false := by
    cases hs : Ascii.isNameStart b with
    | false => rfl
    | true => simp [Ascii.isDigit_of_isNameStart hs] at h
  simp [Lexeme.ofText, hhash, hslash, hblank, hstart, h]

theorem isLexeme_word {w : Bytes} (hw : w.isIdentifier = true) (hx : Ascii.isNameByte x = false)
    (v : Bytes) : IsLexeme w (some (wordKind w)) (x :: v) := by
  cases w with
  | nil => cases hw
  | cons b w =>
    simp only [Bytes.isIdentifier, List.head?_cons, Option.any_some, List.all_cons,
      Bool.and_eq_true] at hw
    obtain ⟨hb, -, hw⟩ := hw
    refine ⟨b, w, rfl, fun s ys => ?_⟩
    have htake : w.takeWhile Ascii.isNameByte = w :=
      List.takeWhile_eq_self_iff.2 (List.all_eq_true.1 hw)
    have hdrop : w.dropWhile Ascii.isNameByte = [] :=
      List.dropWhile_eq_nil_iff.2 (List.all_eq_true.1 hw)
    rw [ofText_of_isNameStart hb, Lexeme.ofWord]
    simp only [List.cons_append, takeWhile_append_of_not hx, dropWhile_append_of_not hx, htake, hdrop]
    rfl

theorem stringBody_flatMap_escapeByte (t rest : Bytes) :
    Lexeme.stringBody (t.flatMap Literal.escapeByte ++ Ascii.quote :: rest) =
      { value := t, raw := t.flatMap Literal.escapeByte ++ [Ascii.quote], closed := true, rest } := by
  induction t with
  | nil => exact Lexeme.stringBody_quote rest
  | cons b t ih =>
    have escaped {e : UInt8} (he : Literal.escapeByte b = [Ascii.backslash, e])
        (hu : Lexeme.unescape e = [b]) :
        Lexeme.stringBody ((b :: t).flatMap Literal.escapeByte ++ Ascii.quote :: rest) =
          { value := b :: t, raw := (b :: t).flatMap Literal.escapeByte ++ [Ascii.quote]
            closed := true, rest } := by
      simp [he, Lexeme.stringBody_escape, ih, hu]
    by_cases hq : b = Ascii.quote
    · subst hq; exact escaped rfl rfl
    by_cases hb : b = Ascii.backslash
    · subst hb; exact escaped rfl rfl
    by_cases hl : b = Ascii.lf
    · subst hl; exact escaped rfl rfl
    by_cases ht : b = Ascii.tab
    · subst ht; exact escaped rfl rfl
    by_cases hr : b = Ascii.cr
    · subst hr; exact escaped rfl rfl
    · simp [Literal.escapeByte, hq, hb, hl, ht, hr, Lexeme.stringBody_cons, ih]

theorem isLexeme_quote (t v : Bytes) : IsLexeme (Literal.quote t) (some (.string t)) v := by
  refine ⟨Ascii.quote, t.flatMap Literal.escapeByte ++ [Ascii.quote], rfl, fun s ys => ?_⟩
  rw [Lexeme.ofText_congr (by decide) s false]
  have hbody := stringBody_flatMap_escapeByte t (v ++ ys)
  simp only [List.append_assoc, List.singleton_append] at hbody ⊢
  change Lexeme.ofString Ascii.quote _ = _
  simp [Lexeme.ofString, hbody, Literal.quote]

/-- A token of that kind in front of others. -/
def Leads (k : TokenKind) (P : List Token → Prop) (ts : List Token) : Prop :=
  ∃ s us, ts = ⟨k, s⟩ :: us ∧ P us

theorem scans_lexeme {w : Bytes} {k : Option TokenKind} (hw : IsLexeme w k v) (c : Cursor) (ys : Bytes) :
    ∃ c', Scans c (w ++ (v ++ ys)) (k.map fun kind => (⟨kind, c.span⟩ : Token)).toList c' (v ++ ys) := by
  obtain ⟨b, bs, rfl, hl⟩ := hw
  have hs := Scans.lexeme (c := c) (hl _ ys).symm rfl .done
  rw [List.append_nil] at hs
  exact ⟨_, hs⟩

/-- A mark and a blank behind it. -/
theorem scans_mark {p : Punct} (hb : isMark b = true) (hp : Punct.ofByte? b = some p)
    (hx : Punct.ofTwoBytes? b x = none) (hblank : Lexeme.isBlank x = true) (c : Cursor) (ys : Bytes) :
    ∃ s c', Scans c (b :: x :: ys) [⟨.punct p, s⟩] c' ys := by
  obtain ⟨c₁, hmark⟩ := scans_lexeme (isLexeme_mark hb hp hx []) c ys
  obtain ⟨c₂, hend⟩ := scans_lexeme (isLexeme_blank hblank []) c₁ ys
  exact ⟨c.span, c₂, hmark.trans hend⟩

theorem writes_lexeme {w : Bytes} {k : Option TokenKind} (hw : IsLexeme w k v) (h : Writes v P) :
    Writes (w ++ v) fun ts => ∃ s us, ts = (k.map fun kind => ⟨kind, s⟩).toList ++ us ∧ P us := by
  intro c ys hclean
  obtain ⟨c₁, hfirst⟩ := scans_lexeme hw c ys
  rw [List.append_assoc] at hclean ⊢
  rw [hfirst.scanFrom_eq] at hclean
  obtain ⟨us, c', hs, hus⟩ := h c₁ ys hclean
  exact ⟨_, c', hfirst.trans hs, _, us, rfl, hus⟩

theorem writes_token {w : Bytes} {k : TokenKind} (hw : IsLexeme w (some k) v) (h : Writes v P) :
    Writes (w ++ v) (Leads k P) :=
  (writes_lexeme hw h).mono fun _ h => h

theorem writes_blank (hb : Lexeme.isBlank b = true) (h : Writes v P) : Writes (b :: v) P :=
  (writes_lexeme (isLexeme_blank hb v) h).mono fun ts ⟨_, us, hts, hus⟩ => by simpa [hts] using hus

/-- A directive is no token, and it ends with its line. -/
theorem ofText_directive {s : Bool} (hs : s = true) {l : Bytes} (hlf : Ascii.lf ∉ l) (ys : Bytes) :
    (Lexeme.ofText s Ascii.hash (l ++ Ascii.lf :: ys)).token = none
      ∧ (Lexeme.ofText s Ascii.hash (l ++ Ascii.lf :: ys)).rest = Ascii.lf :: ys := by
  have hruns : Lexeme.RunsOn s Ascii.hash (l ++ Ascii.lf :: ys) := .inl ⟨rfl, hs⟩
  obtain ⟨htoken, hline⟩ := Lexeme.ofText_of_runsOn hruns
  refine ⟨htoken, ?_⟩
  rw [hline, dropWhile_append_of_not rfl, List.dropWhile_eq_nil_iff.2, List.nil_append]
  intro x hx
  have hne : x ≠ Ascii.lf := fun heq => hlf (heq ▸ hx)
  simpa using hne

/-- A directive on a line of its own is no token. -/
theorem writes_directive {l : Bytes} (hlf : Ascii.lf ∉ l) (h : Writes v P) :
    Writes (Ascii.hash :: l ++ Ascii.lf :: v) P := by
  intro c ys hclean
  rw [List.append_assoc, List.cons_append, List.cons_append] at hclean ⊢
  obtain ⟨he, hrest⟩ := errors_cons hclean
  have hcolumn : c.startsLine = true := by
    cases hc : c.startsLine with
    | true => rfl
    | false =>
      rw [hc] at he
      exact absurd he (Lexeme.error_ofText_hash _)
  obtain ⟨htoken, hline⟩ := ofText_directive hcolumn hlf (v ++ ys)
  rw [hline] at hrest
  obtain ⟨us, c', hs, hus⟩ := writes_blank (b := Ascii.lf) rfl h _ ys hrest
  have hs := Scans.lexeme rfl he (by rw [hline]; exact hs)
  rw [tokenAt, htoken] at hs
  exact ⟨us, c', hs, hus⟩

theorem writes_mark {p : Punct} (hb : isMark b = true) (hp : Punct.ofByte? b = some p)
    (hx : Punct.ofTwoBytes? b x = none) (h : Writes (x :: v) P) :
    Writes (b :: x :: v) (Leads (.punct p) P) :=
  writes_token (isLexeme_mark hb hp hx v) h

theorem writes_word {w : Bytes} (hw : w.isIdentifier = true) (hx : Ascii.isNameByte x = false)
    (h : Writes (x :: v) P) : Writes (w ++ x :: v) (Leads (wordKind w) P) :=
  writes_token (isLexeme_word hw hx v) h

theorem writes_quote (t : Bytes) (h : Writes v P) :
    Writes (Literal.quote t ++ v) (Leads (.string t) P) :=
  writes_token (isLexeme_quote t v) h

/-! ## Expressions -/

/-- The tokens of an expression and of the end of its statement. A comment behind the expression
may have taken the semicolon. -/
def Valued (ts : List Token) : Prop :=
  ∃ v us, ts = v ++ us ∧ Tokens.Termed v ∧ (us = [] ∨ ∃ s, us = [⟨.punct .semicolon, s⟩])

theorem Valued.flat {ts : List Token} (h : Valued ts) : Flat ts := by
  obtain ⟨v, us, rfl, hv, hus⟩ := h
  refine Tokens.joins_flat.append hv.flat ?_
  rcases hus with rfl | ⟨s, rfl⟩
  · exact Tokens.joins_flat.nil
  · exact .single rfl

/-- An expression and the end of its text are read as such. -/
theorem expr_of_ofTokens {ts : List Token} {e : Expr} (he : (Expr.ofTokens ts).errors = [])
    (hv : (Expr.ofTokens ts).value = some e) : ∃ r, Tokens.expr ts = .ok e r ∧ Tokens.next r = .eof := by
  rw [Expr.ofTokens] at he hv
  generalize Tokens.expr ts = read at he hv ⊢
  obtain ⟨v, es, r⟩ := read
  cases v with
  | none => cases hv
  | some a =>
    dsimp only [Reading.andThen] at he hv
    obtain ⟨rfl, hend⟩ := List.append_eq_nil_iff.1 he
    by_cases hr : Tokens.next r = .eof
    · rw [if_pos hr] at hv
      cases hv
      exact ⟨r, rfl, hr⟩
    · simp [if_neg hr] at hend

/-- An expression that can be parsed is read from all tokens of its text. -/
theorem expr_of_parse? {code : Bytes} {e : Expr} (h : Expr.parse? code = some e) :
    (scan code).errors = [] ∧ ∃ ts t, (scan code).tokens = ts ++ [t] ∧ t.kind = .eof
      ∧ Tokens.Termed ts ∧ Tokens.expr (ts ++ [t]) = .ok e [t] := by
  dsimp only [Expr.parse?] at h
  split at h
  · next hclean =>
    split at h
    · next hread =>
      obtain ⟨ts, t, htokens, ht, hne⟩ := exists_tokens_eq {} code
      rw [scan, htokens] at h hread ⊢
      obtain ⟨r, hexpr, hr⟩ := expr_of_ofTokens (List.isEmpty_iff.1 hread) h
      have ho : Reading.Orderly (Tokens.expr (ts ++ [t])).errors := by
        rw [hexpr]
        simp [Reading.Orderly, Reading.ok]
      obtain ⟨w, a, es, r', heq, hw, hc⟩ := Tokens.reads_termed ho
      have hrest : r = r' := by
        rw [heq, hc.here] at hexpr
        exact (congrArg Reading.rest hexpr).symm
      subst hrest
      obtain ⟨rfl, rfl⟩ := hw.flat.balanced.eq_of_eof hne ht heq hr
      exact ⟨List.isEmpty_iff.1 hclean, ts, t, rfl, ht, hw, hexpr⟩
    · cases h
  · cases h

/-- A text that is an expression has tokens of expressions only. -/
theorem termed_of_isSome {code : Bytes} (h : (Expr.parse? code).isSome = true) :
    (scan code).errors = [] ∧ ∃ ts e, (scan code).tokens = ts ++ [e] ∧ Tokens.Termed ts := by
  obtain ⟨e, he⟩ := Option.isSome_iff_exists.1 h
  obtain ⟨hclean, ts, t, htokens, -, hts, -⟩ := expr_of_parse? he
  exact ⟨hclean, ts, t, htokens, hts⟩

theorem writes_expression {code : Bytes} (h : (Expr.parse? code).isSome = true) :
    Writes (code ++ [Ascii.semicolon, Ascii.lf]) Valued := by
  intro c ys hclean
  obtain ⟨halone, ts₀, e, htokens, hts₀⟩ := termed_of_isSome h
  rw [List.append_assoc] at hclean ⊢
  obtain ⟨ts, us, c', hs, hkinds, hus⟩ := exists_scans_statement halone hclean
  refine ⟨ts ++ us, c', hs, ts, us, rfl, ?_, hus⟩
  change (scan code).tokens.map (·.kind) = _ at hkinds
  rw [htokens, List.map_append] at hkinds
  have heq : ts₀.map (·.kind) = ts.map (·.kind) := (List.append_inj' hkinds rfl).1
  intro t ht
  have hmem : t.kind ∈ ts₀.map (·.kind) := heq ▸ List.mem_map_of_mem ht
  obtain ⟨t₀, ht₀, hk⟩ := List.mem_map.1 hmem
  exact hk ▸ hts₀ t₀ ht₀

end

end TokenStream

end ViewCompiler
