import ViewCompiler.Proofs.TokenOffsets

/-!
String literals in a text. A lexeme that ends in front of a quote is the same in front of the end of the
text (`Lexeme.ofText_append_quote`), so what stands in front of a literal is scanned as if the text ended
there. The literal itself is one token, whatever its text is, and scanning goes on behind it
(`TokenStream.scan_append_quote`).
-/

namespace ViewCompiler

variable {s : Bool} {b : UInt8} {bs w x : Bytes}

/-! ## Lexemes in front of a quote -/

namespace Lexeme

/-- A line that ends in front of a quote. -/
theorem splitLine_append_quote
    (h : x.length < ((w ++ Ascii.quote :: x).dropWhile (· ≠ Ascii.lf)).length) :
    (w ++ Ascii.quote :: x).takeWhile (· ≠ Ascii.lf) = w.takeWhile (· ≠ Ascii.lf) ∧
      (w ++ Ascii.quote :: x).dropWhile (· ≠ Ascii.lf) =
        w.dropWhile (· ≠ Ascii.lf) ++ Ascii.quote :: x := by
  induction w with
  | nil =>
    have hdrop : (Ascii.quote :: x).dropWhile (· ≠ Ascii.lf) = x.dropWhile (· ≠ Ascii.lf) := rfl
    have hle := (List.dropWhile_suffix (fun b => decide (b ≠ Ascii.lf)) (l := x)).length_le
    rw [List.nil_append, hdrop] at h
    omega
  | cons c w ih =>
    rw [List.cons_append, List.dropWhile_cons] at h ⊢
    rw [List.takeWhile_cons, List.takeWhile_cons, List.dropWhile_cons]
    split at h
    · next hc =>
      obtain ⟨htake, hdrop⟩ := ih h
      simp only [if_pos hc, htake, hdrop, and_self]
    · next hc => simp only [if_neg hc, List.cons_append, and_self]

theorem ofDirective_append_quote
    (h : x.length < (ofDirective (b :: w ++ Ascii.quote :: x)).rest.length) :
    ofDirective (b :: w ++ Ascii.quote :: x) = (ofDirective (b :: w)).extend (Ascii.quote :: x) := by
  have hrest (bs : Bytes) : (ofDirective bs).rest = bs.dropWhile (· ≠ Ascii.lf) := by
    rw [ofDirective]
    split <;> rfl
  rw [hrest] at h
  obtain ⟨htake, hdrop⟩ := splitLine_append_quote h
  rw [ofDirective, ofDirective, htake, hdrop]
  split <;> rfl

/-- A comment that is open in front of a quote takes the quote. -/
theorem length_splitComment_append_quote {body rest : Bytes} (hw : splitComment w = none)
    (h : splitComment (w ++ Ascii.quote :: x) = some (body, rest)) : rest.length ≤ x.length := by
  induction w generalizing body with
  | nil =>
    obtain ⟨⟨body', rest'⟩, hx, hp⟩ := Option.map_eq_some_iff.1 h
    cases hp
    rw [← splitComment_append hx, List.length_append]
    exact Nat.le_add_left _ _
  | cons c w ih =>
    rw [splitComment] at hw
    split at hw
    · cases hw
    · next hc =>
      have hopen : ¬ (c = Ascii.star ∧ (w ++ Ascii.quote :: x).head? = some Ascii.slash) := by
        rwa [head?_append_eq (by decide)]
      rw [List.cons_append, splitComment, if_neg hopen] at h
      obtain ⟨⟨body', rest'⟩, hsplit, hp⟩ := Option.map_eq_some_iff.1 h
      cases hp
      exact ih (Option.map_eq_none_iff.1 hw) hsplit

theorem ofBlockComment_append_quote {opening : Bytes}
    (h : x.length < (ofBlockComment opening (w ++ Ascii.quote :: x)).rest.length) :
    ofBlockComment opening (w ++ Ascii.quote :: x) =
      (ofBlockComment opening w).extend (Ascii.quote :: x) := by
  cases hw : splitComment w with
  | some p => exact ofBlockComment_append (by simp [ofBlockComment, hw]) _
  | none =>
    rw [ofBlockComment] at h
    split at h
    · next hsplit => exact absurd (length_splitComment_append_quote hw hsplit) (Nat.not_le.2 h)
    · exact absurd h (Nat.not_lt_zero _)

theorem stringBody_append_quote
    (h : x.length < (stringBody (w ++ Ascii.quote :: x)).rest.length) :
    stringBody (w ++ Ascii.quote :: x) =
      { stringBody w with rest := (stringBody w).rest ++ Ascii.quote :: x } := by
  fun_induction stringBody w with
  | case1 =>
    rw [List.nil_append, stringBody_quote] at h
    exact absurd h (Nat.lt_irrefl _)
  | case2 bs => rw [List.cons_append, stringBody_quote]
  | case3 bs => rw [List.cons_append, stringBody_lf]
  | case4 =>
    -- the backslash takes the quote
    have hle := congrArg List.length (stringBody_raw_append_rest x)
    rw [List.cons_append, List.nil_append, stringBody_escape] at h
    rw [List.length_append] at hle
    dsimp only at h
    omega
  | case5 e bs r _ _ ih =>
    rw [List.cons_append, List.cons_append, stringBody_escape] at h ⊢
    rw [ih h]
  | case6 b bs hquote hlf hbackslash r ih =>
    rw [List.cons_append, stringBody_cons hquote hlf hbackslash] at h ⊢
    rw [ih h]

/-- A lexeme that ends in front of a quote does not depend on what stands there. -/
theorem ofText_append_quote (h : x.length < (ofText s b (w ++ Ascii.quote :: x)).rest.length) :
    ofText s b (w ++ Ascii.quote :: x) = (ofText s b w).extend (Ascii.quote :: x) := by
  have hslash : Ascii.quote ≠ Ascii.slash := by decide
  have hstar : Ascii.quote ≠ Ascii.star := by decide
  have hmark : Punct.ofTwoBytes? b Ascii.quote = none := by
    have hequal : Ascii.quote ≠ Ascii.equal := by decide
    have hampersand : Ascii.quote ≠ Ascii.ampersand := by decide
    have hbar : Ascii.quote ≠ Ascii.bar := by decide
    simp [Punct.ofTwoBytes?, hequal, hampersand, hbar]
  simp only [ofText, head?_append_eq hslash, head?_append_eq hstar] at h ⊢
  split
  · next hhash =>
    rw [if_pos hhash] at h
    exact ofDirective_append_quote h
  next hhash =>
  rw [if_neg hhash] at h
  split
  · rfl
  next hblank =>
  rw [if_neg hblank] at h
  split
  · next hline =>
    rw [if_pos hline] at h
    obtain ⟨htake, hdrop⟩ := splitLine_append_quote h
    rw [htake, hdrop]
    rfl
  next hline =>
  rw [if_neg hline] at h
  split
  · next hblock =>
    rw [if_pos hblock] at h
    obtain ⟨w, rfl⟩ := List.head?_eq_some_iff.1 hblock.2
    exact ofBlockComment_append_quote h
  next hblock =>
  rw [if_neg hblock] at h
  split
  · simp [ofWord, extend, takeWhile_append_of_not, dropWhile_append_of_not,
      (by decide : Ascii.isNameByte Ascii.quote = false)]
  next hname =>
  rw [if_neg hname] at h
  split
  · exact ofDigits_append (by decide) x
  next hdigit =>
  rw [if_neg hdigit] at h
  split
  · next hquote =>
    rw [if_pos hquote] at h
    simp [ofString, stringBody_append_quote h, extend]
  · exact ofMark_append hmark x

end Lexeme

/-! ## Literals -/

namespace Literal

theorem lf_not_mem_quote (text : Bytes) : Ascii.lf ∉ quote text := by
  have hbyte (b : UInt8) : Ascii.lf ∉ escapeByte b := by
    rw [escapeByte]
    split
    · decide
    split
    · decide
    split
    · decide
    split
    · decide
    split
    · decide
    · next hlf _ _ => simpa using Ne.symm hlf
  simp [quote, hbyte]
  decide

end Literal

namespace TokenStream

variable {c c' : Cursor} {text rest u v : Bytes}

theorem Runs.length_le (h : Runs c text c' rest) : rest.length ≤ text.length := by
  obtain ⟨w, -, -, rfl, -⟩ := h.exists_passed 0
  rw [List.length_append]
  exact Nat.le_add_left _ _

/-- The text in front of a quote is scanned as if it ended there. -/
theorem Runs.exists_scanFrom_eq (h : Runs c (w ++ rest) c' rest) (hquote : rest.head? = some Ascii.quote) :
    ∃ ts es, scanFrom c w = ⟨ts ++ [⟨.eof, c'.span⟩], es⟩ ∧
      scanFrom c (w ++ rest) = ⟨ts ++ (scanFrom c' rest).tokens, es ++ (scanFrom c' rest).errors⟩ := by
  obtain ⟨x, rfl⟩ := List.head?_eq_some_iff.1 hquote
  generalize htext : w ++ Ascii.quote :: x = text at h
  generalize hrest : Ascii.quote :: x = rest at h htext
  induction h generalizing w with
  | done =>
    obtain rfl : w = [] := by simpa using htext
    refine ⟨[], [], ?_, rfl⟩
    rw [scanFrom]
    rfl
  | @lexeme c c' b bs rest l hl hruns ih =>
    subst hrest
    have hle := hruns.length_le
    cases w with
    | nil =>
      -- the lexeme starts with the quote
      cases htext
      have hlt := hl ▸ Lexeme.length_ofText_rest_lt c.startsLine Ascii.quote x
      omega
    | cons b' w =>
      rw [List.cons_append] at htext
      obtain ⟨rfl, rfl⟩ := List.cons.inj htext
      have hsame := Lexeme.ofText_append_quote (hl ▸ hle)
      rw [← hl] at hsame
      obtain ⟨ts, es, hfront, hwhole⟩ := ih rfl (congrArg Lexeme.rest hsame).symm
      have hafter : c.after (Lexeme.ofText c.startsLine b' w) = c.after l := by
        rw [hsame]
        rfl
      refine ⟨tokenAt c l ++ ts, (l.error.map fun e => (c.span, e)).toList ++ es, ?_, ?_⟩
      · rw [scanFrom_cons]
        dsimp only
        rw [hafter, hfront, List.append_assoc, hsame]
        rfl
      · rw [scanFrom_cons, ← hl]
        dsimp only
        rw [hwhole, List.append_assoc, List.append_assoc]

/-- A lexeme that is known by its text is scanned in front of what stands behind it. -/
theorem IsLexeme.scanFrom_eq {k : Option TokenKind} (hw : IsLexeme w k v) (c : Cursor) :
    scanFrom c (w ++ v) = ⟨(k.map fun kind => (⟨kind, c.span⟩ : Token)).toList ++
      (scanFrom (c.steps w) v).tokens, (scanFrom (c.steps w) v).errors⟩ := by
  obtain ⟨b, bs, rfl, hread⟩ := hw
  have hl := hread c.startsLine []
  have hafter : c.after { raw := b :: bs, rest := v, token := k } = c.steps (b :: bs) :=
    Cursor.after_of_mapping rfl
  rw [List.append_nil] at hl
  rw [List.cons_append, scanFrom_cons, hl]
  dsimp only
  rw [hafter]
  rfl

/-- A literal in a text, where a lexeme can start: it is one token that has its text and nothing is wrong
with it, it ends on its line, what stands in front of it is scanned as it is alone, and scanning goes on
behind it. -/
theorem scan_append_quote {u t v : Bytes} {c : Cursor}
    (h : Runs {} (u ++ (Literal.quote t ++ v)) c (Literal.quote t ++ v)) :
    IsLexeme (Literal.quote t) (some (.string t)) v ∧
    Runs c (Literal.quote t ++ v) (c.steps (Literal.quote t)) v ∧
    (c.steps (Literal.quote t)).line = c.line ∧ (c.steps (Literal.quote t)).shift = c.shift ∧
    ∃ ts es, scan u = ⟨ts ++ [⟨.eof, c.span⟩], es⟩ ∧
      scan (u ++ (Literal.quote t ++ v)) =
        ⟨ts ++ ⟨.string t, c.span⟩ :: (scanFrom (c.steps (Literal.quote t)) v).tokens,
          es ++ (scanFrom (c.steps (Literal.quote t)) v).errors⟩ := by
  have hlexeme := isLexeme_quote t v
  have hruns := hlexeme.runs c []
  rw [List.append_nil] at hruns
  obtain ⟨ts, es, hfront, hwhole⟩ := h.exists_scanFrom_eq rfl
  refine ⟨hlexeme, hruns, Cursor.line_steps_of_not_mem (Literal.lf_not_mem_quote t) c, c.shift_steps _,
    ts, es, hfront, ?_⟩
  rw [scan, hwhole, hlexeme.scanFrom_eq c]
  rfl

/-- A literal between a slash and a name, of a quote, a backslash, a line feed and a zero byte. -/
theorem scan_append_quote_slash :
    let t : Bytes := [Ascii.quote, Ascii.backslash, Ascii.lf, Ascii.nul]
    let c : Cursor := ⟨3, 1, 0, 0⟩
    let c' : Cursor := ⟨12, 1, 0, 0⟩
    Runs {} ("a /" ++ (Literal.quote t ++ "b")) c (Literal.quote t ++ "b") ∧
      Runs c (Literal.quote t ++ "b") c' "b" ∧
      ∃ ts es, scan "a /" = ⟨ts ++ [⟨.eof, ⟨1, 4⟩⟩], es⟩ ∧
        scan ("a /" ++ (Literal.quote t ++ "b")) =
          ⟨ts ++ ⟨.string t, ⟨1, 4⟩⟩ :: (scanFrom c' "b").tokens, es ++ (scanFrom c' "b").errors⟩ := by
  intro t c c'
  have h : Runs {} ("a /" ++ (Literal.quote t ++ "b")) c (Literal.quote t ++ "b") :=
    .lexeme rfl (.lexeme rfl (.lexeme rfl .done))
  have hspan : c.span = ⟨1, 4⟩ := by decide
  obtain ⟨-, hruns, -, -, hscan⟩ := scan_append_quote h
  rw [hspan] at hscan
  exact ⟨h, hruns, hscan⟩

end TokenStream

end ViewCompiler
