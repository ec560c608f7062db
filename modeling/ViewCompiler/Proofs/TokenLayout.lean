import ViewCompiler.Proofs.LineDirectives

/-!
Tokens survive any layout. `TokenStream.Trivia` lists what may stand between tokens: blanks, comments
that end, and line directives on lines of their own. A text of tokens with trivia around them
(`TokenStream.Layout`) is scanned without errors, and its tokens are those (`TokenStream.scan_layout`).
-/

namespace ViewCompiler

section

variable {p : UInt8 → Bool} {w : Bytes}

theorem takeWhile_append_of_head (hw : ∀ b ∈ w, p b = true) {rest : Bytes}
    (hrest : ∀ b ∈ rest.head?, p b = false) :
    (w ++ rest).takeWhile p = w ∧ (w ++ rest).dropWhile p = rest := by
  have htake := List.takeWhile_eq_self_iff.2 hw
  have hdrop := List.dropWhile_eq_nil_iff.2 hw
  cases rest with
  | nil => exact ⟨by rw [List.append_nil, htake], by rw [List.append_nil, hdrop]⟩
  | cons b rest =>
    have hb : p b = false := hrest b rfl
    rw [takeWhile_append_of_not hb, dropWhile_append_of_not hb, htake, hdrop]
    exact ⟨rfl, rfl⟩

end

namespace Lexeme

variable {bs rest : Bytes} {b : UInt8}

theorem isBlank_cases (h : isBlank b = true) :
    b = Ascii.space ∨ b = Ascii.tab ∨ b = Ascii.lf ∨ b = Ascii.cr := by
  simpa [isBlank, or_assoc] using h

/-- A comment ends where its closing mark stands for the first time. -/
theorem splitComment_of_not_infix (h : ¬ [Ascii.star, Ascii.slash] <:+: bs) (rest : Bytes) :
    splitComment (bs ++ Ascii.star :: Ascii.slash :: rest) = some (bs ++ [Ascii.star, Ascii.slash], rest) := by
  induction bs with
  | nil => rfl
  | cons b bs ih =>
    have hnot : ¬ (b = Ascii.star ∧ (bs ++ Ascii.star :: Ascii.slash :: rest).head? = some Ascii.slash) := by
      rintro ⟨rfl, hhead⟩
      cases bs with
      | nil => cases hhead
      | cons c bs =>
        obtain rfl : c = Ascii.slash := Option.some.inj hhead
        exact h ⟨[], bs, rfl⟩
    rw [List.cons_append, splitComment, if_neg hnot, ih fun hin => h (hin.trans (List.infix_cons (List.infix_refl _)))]
    rfl

end Lexeme

namespace TokenStream

/-! ## Tokens -/

/-- How tokens may be written. Digits may have zeros in front, and text is quoted as a literal. -/
inductive Spelled : TokenKind → Bytes → Prop where
  | identifier {n : Bytes} : n.IsWord → Spelled (.identifier n) n
  | keyword (k : Keyword) : Spelled (.keyword k) k.text
  | int {digits : Bytes} : digits ≠ [] → digits.all Ascii.isDigit = true →
    digits.decimalValue ≤ Lexeme.maxInt → Spelled (.int digits digits.decimalValue) digits
  | string (t : Bytes) : Spelled (.string t) (Literal.quote t)
  | punct (p : Punct) : Spelled (.punct p) p.text

/-- A text that does not go on with the token in front of it. -/
def Parted (rest : Bytes) : Prop := ∀ b ∈ rest.head?, Lexeme.isBlank b = true

variable {k : TokenKind} {w rest : Bytes} {s s' : Bool}

theorem Parted.cons {b : UInt8} {bs : Bytes} (h : Lexeme.isBlank b = true) : Parted (b :: bs) := by
  rintro _ ⟨⟩
  exact h

theorem Parted.isNameByte (h : Parted rest) : ∀ b ∈ rest.head?, Ascii.isNameByte b = false := by
  intro b hb
  rcases Lexeme.isBlank_cases (h b hb) with rfl | rfl | rfl | rfl <;> rfl

theorem Parted.isDigit (h : Parted rest) : ∀ b ∈ rest.head?, Ascii.isDigit b = false := by
  intro b hb
  rcases Lexeme.isBlank_cases (h b hb) with rfl | rfl | rfl | rfl <;> rfl

theorem ofText_word (hw : w.isIdentifier = true) (hrest : Parted rest) :
    ∃ b bs, w = b :: bs ∧ ∀ s, Lexeme.ofText s b (bs ++ rest) =
      { raw := w, rest, token := some (wordKind w) } := by
  cases w with
  | nil => cases hw
  | cons b bs =>
    simp only [Bytes.isIdentifier, List.head?_cons, Option.any_some, List.all_cons, Bool.and_eq_true] at hw
    obtain ⟨hb, -, hbs⟩ := hw
    obtain ⟨htake, hdrop⟩ := takeWhile_append_of_head (List.all_eq_true.1 hbs) hrest.isNameByte
    refine ⟨b, bs, rfl, fun s => ?_⟩
    rw [ofText_of_isNameStart hb, Lexeme.ofWord, htake, hdrop]
    rfl

theorem ofText_digits (hne : w ≠ []) (hw : w.all Ascii.isDigit = true)
    (hvalue : w.decimalValue ≤ Lexeme.maxInt) (hrest : Parted rest) :
    ∃ b bs, w = b :: bs ∧ ∀ s, Lexeme.ofText s b (bs ++ rest) =
      { raw := w, rest, token := some (.int w w.decimalValue) } := by
  obtain ⟨b, bs, rfl⟩ := List.exists_cons_of_ne_nil hne
  obtain ⟨hb, hbs⟩ := List.forall_mem_cons.1 (List.all_eq_true.1 hw)
  obtain ⟨htake, hdrop⟩ := takeWhile_append_of_head hbs hrest.isDigit
  refine ⟨b, bs, rfl, fun s => ?_⟩
  rw [ofText_of_isDigit hb, Lexeme.ofDigits, htake, hdrop]
  exact if_neg (Nat.not_lt.2 hvalue)

theorem ofText_punct (p : Punct) (hrest : Parted rest) :
    ∃ b bs, p.text = b :: bs ∧ ∀ s, Lexeme.ofText s b (bs ++ rest) =
      { raw := p.text, rest, token := some (.punct p) } := by
  cases rest with
  | nil => cases p <;> exact ⟨_, _, rfl, fun s => by cases s <;> rfl⟩
  | cons x rest =>
    rcases Lexeme.isBlank_cases (hrest x rfl) with rfl | rfl | rfl | rfl <;> cases p <;>
      exact ⟨_, _, rfl, fun s => by cases s <;> rfl⟩

/-- A token is one lexeme in front of a blank, and at the end of the text. -/
theorem Spelled.ofText (h : Spelled k w) (hrest : Parted rest) :
    ∃ b bs, w = b :: bs ∧ ∀ s, Lexeme.ofText s b (bs ++ rest) = { raw := w, rest, token := some k } := by
  cases h with
  | identifier hn =>
    have hkind : wordKind w = .identifier w := by rw [wordKind, hn.2]
    exact hkind ▸ ofText_word hn.1 hrest
  | keyword k =>
    have hword : k.text.isIdentifier = true := by cases k <;> rfl
    have hkind : wordKind k.text = .keyword k := by cases k <;> rfl
    exact hkind ▸ ofText_word hword hrest
  | int hne hdigits hvalue => exact ofText_digits hne hdigits hvalue hrest
  | string t =>
    obtain ⟨b, bs, hquote, hlexeme⟩ := isLexeme_quote t rest
    refine ⟨b, bs, hquote, fun s => ?_⟩
    have hs := hlexeme s []
    rwa [List.append_nil] at hs
  | punct p => exact ofText_punct p hrest

/-! ## Trivia -/

/-- Blanks, comments that end and line directives, from one place to another. The flags say whether a
line starts there. -/
inductive Trivia : Bool → Bytes → Bool → Prop where
  | nil {s : Bool} : Trivia s [] s
  | blank {s s' : Bool} {b : UInt8} {w : Bytes} : Lexeme.isBlank b = true →
    Trivia (b == Ascii.lf) w s' → Trivia s (b :: w) s'
  | lineComment {s s' : Bool} {body w : Bytes} : Ascii.lf ∉ body →
    Trivia true w s' → Trivia s ("//" ++ body ++ "\n" ++ w) s'
  | blockComment {s s' : Bool} {body w : Bytes} : ¬ ("*/" : Bytes) <:+: body →
    Trivia false w s' → Trivia s ("/*" ++ body ++ "*/" ++ w) s'
  | directive {s' : Bool} {m : LineMapping} {line w : Bytes} : m.IsDirective line →
    Trivia true w s' → Trivia true (line ++ "\n" ++ w) s'

/-- A lexeme that is no token. -/
theorem scans_silent {c : Cursor} {b : UInt8} {bs raw : Bytes} {mapping : Option LineMapping}
    (h : Lexeme.ofText c.startsLine b bs = { raw, rest, mapping }) :
    Scans c (b :: bs) [] (c.after { raw, rest, mapping }) rest := by
  have hs := Scans.lexeme h.symm rfl .done
  exact hs

/-- Each further line of the text that starts with a hash sign starts in front of offset 2³². Line starts
behind it are not seen to. -/
def Seen (c : Cursor) (text : Bytes) : Prop :=
  ∀ u v, text = u ++ Ascii.lf :: Ascii.hash :: v → c.offset + u.length + 1 < 4294967296

theorem seen_of_near {c : Cursor} {text : Bytes} (h : c.Near text) : Seen c text := by
  rintro u v rfl
  rw [Cursor.Near, List.length_append, List.length_cons, List.length_cons] at h
  omega

/-- What follows is seen as well. -/
theorem Scans.seen {c c' : Cursor} {text rest : Bytes} {ts : List Token} (h : Scans c text ts c' rest)
    (hseen : Seen c text) : Seen c' rest := by
  induction h with
  | done => exact hseen
  | @lexeme c c' b bs rest ts l hl _ _ ih =>
    refine ih fun u v hrest => ?_
    have htext : b :: bs = l.raw ++ u ++ Ascii.lf :: Ascii.hash :: v := by
      rw [List.append_assoc, ← hrest, hl, Lexeme.ofText_raw_append_rest]
    have hlt := hseen _ v htext
    rw [List.length_append] at hlt
    rw [Cursor.offset_after]
    omega

/-- If a line starts here, and with a hash sign, that is seen. -/
def Starts (s : Bool) (c : Cursor) (text : Bytes) : Prop :=
  s = true → text.head? = some Ascii.hash → c.startsLine = true

/-- Behind the end of a line a line starts. -/
theorem starts_lf {c : Cursor} {rest raw : Bytes} (hseen : Seen c (Ascii.lf :: rest)) :
    Starts true (c.after { raw := [Ascii.lf], rest := raw }) rest := by
  intro _ hhash
  obtain ⟨v, rfl⟩ := List.head?_eq_some_iff.1 hhash
  have hlt := hseen [] v rfl
  exact Cursor.startsLine_iff.2 ⟨c.column_step_lf, by rwa [Cursor.offset_after]⟩

/-- The end of a line. -/
theorem exists_scans_lf {c : Cursor} {rest : Bytes} (hseen : Seen c (Ascii.lf :: rest)) :
    ∃ c', Scans c (Ascii.lf :: rest) [] c' rest ∧ Starts true c' rest :=
  ⟨_, scans_lf c rest, starts_lf hseen⟩

theorem ofText_lineComment {body : Bytes} (h : Ascii.lf ∉ body) (s : Bool) (rest : Bytes) :
    Lexeme.ofText s Ascii.slash (Ascii.slash :: (body ++ Ascii.lf :: rest)) =
      { raw := "//" ++ body, rest := Ascii.lf :: rest } := by
  have hbody : ∀ b ∈ body, decide (b ≠ Ascii.lf) = true := fun b hb =>
    decide_eq_true fun heq => h (heq ▸ hb)
  have hend : ∀ b ∈ (Ascii.lf :: rest).head?, decide (b ≠ Ascii.lf) = false := by
    rintro b ⟨⟩
    rfl
  obtain ⟨htake, hdrop⟩ := takeWhile_append_of_head hbody hend
  have hcomment : Lexeme.ofText s Ascii.slash (Ascii.slash :: (body ++ Ascii.lf :: rest)) =
      { raw := Ascii.slash :: Ascii.slash :: (body ++ Ascii.lf :: rest).takeWhile (· ≠ Ascii.lf)
        rest := (body ++ Ascii.lf :: rest).dropWhile (· ≠ Ascii.lf) } := rfl
  rw [hcomment, htake, hdrop]
  rfl

theorem ofText_blockComment {body : Bytes} (h : ¬ ("*/" : Bytes) <:+: body) (s : Bool) (rest : Bytes) :
    Lexeme.ofText s Ascii.slash (Ascii.star :: (body ++ Ascii.star :: Ascii.slash :: rest)) =
      { raw := "/*" ++ (body ++ "*/"), rest } := by
  rw [Lexeme.ofText_comment_block, Lexeme.ofBlockComment, Lexeme.splitComment_of_not_infix h]
  rfl

theorem ofText_isDirective {m : LineMapping} {l : Bytes} (h : m.IsDirective (Ascii.hash :: l))
    {rest : Bytes} (hrest : ∀ b ∈ rest.head?, b = Ascii.lf) :
    Lexeme.ofText true Ascii.hash (l ++ rest) =
      { raw := Ascii.hash :: l, rest, mapping := some m } := by
  obtain ⟨-, -, hlf⟩ := h.exists_cons
  have hline : ∀ b ∈ Ascii.hash :: l, decide (b ≠ Ascii.lf) = true := fun b hb =>
    decide_eq_true fun heq => hlf (heq ▸ hb)
  have hend : ∀ b ∈ rest.head?, decide (b ≠ Ascii.lf) = false := fun b hb => by rw [hrest b hb]; rfl
  obtain ⟨htake, hdrop⟩ := takeWhile_append_of_head hline hend
  rw [Lexeme.ofText, if_pos ⟨rfl, rfl⟩, Lexeme.ofDirective, ← List.cons_append, htake, hdrop,
    Lexeme.directive_of_isDirective h]

/-- Trivia are passed without a token, whatever follows them. -/
theorem Trivia.exists_scans (h : Trivia s w s') {c : Cursor} {rest : Bytes}
    (hseen : Seen c (w ++ rest)) (hc : Starts s c (w ++ rest)) :
    ∃ c', Scans c (w ++ rest) [] c' rest ∧ Starts s' c' rest := by
  induction h generalizing c with
  | nil => exact ⟨c, .done, hc⟩
  | @blank s s' b w hb _ ih =>
    have hblank := scans_silent (Lexeme.ofText_blank hb c.startsLine (w ++ rest))
    have hstarts : Starts (b == Ascii.lf) (c.after { raw := [b], rest := w ++ rest }) (w ++ rest) := by
      intro hlf
      cases beq_iff_eq.1 hlf
      exact starts_lf hseen rfl
    obtain ⟨c', hs, hc'⟩ := ih (hblank.seen hseen) hstarts
    exact ⟨c', hblank.trans hs, hc'⟩
  | @lineComment s s' body w hbody _ ih =>
    have htext : ("//" ++ body ++ "\n" ++ w) ++ rest =
        Ascii.slash :: Ascii.slash :: (body ++ Ascii.lf :: (w ++ rest)) := by
      simp only [List.append_assoc]
      rfl
    rw [htext] at hseen ⊢
    have hcomment := scans_silent (ofText_lineComment hbody c.startsLine (w ++ rest))
    obtain ⟨c₁, hline, hc₁⟩ := exists_scans_lf (hcomment.seen hseen)
    have hfront := hcomment.trans hline
    obtain ⟨c', hs, hc'⟩ := ih (hfront.seen hseen) hc₁
    exact ⟨c', hfront.trans hs, hc'⟩
  | @blockComment s s' body w hbody _ ih =>
    have htext : ("/*" ++ body ++ "*/" ++ w) ++ rest =
        Ascii.slash :: Ascii.star :: (body ++ Ascii.star :: Ascii.slash :: (w ++ rest)) := by
      simp only [List.append_assoc]
      rfl
    rw [htext] at hseen ⊢
    have hcomment := scans_silent (ofText_blockComment hbody c.startsLine (w ++ rest))
    obtain ⟨c', hs, hc'⟩ := ih (hcomment.seen hseen) (by simp [Starts])
    exact ⟨c', hcomment.trans hs, hc'⟩
  | @directive s' m line w hline _ ih =>
    obtain ⟨l, rfl, -⟩ := hline.exists_cons
    have htext : (Ascii.hash :: l ++ "\n" ++ w) ++ rest = Ascii.hash :: (l ++ Ascii.lf :: (w ++ rest)) := by
      simp only [List.append_assoc]
      rfl
    rw [htext] at hseen hc ⊢
    have hlf : ∀ b ∈ (Ascii.lf :: (w ++ rest)).head?, b = Ascii.lf := by
      rintro b ⟨⟩
      rfl
    have hread := ofText_isDirective hline hlf
    rw [← hc rfl rfl] at hread
    have hdirective := scans_silent hread
    obtain ⟨c₁, hend, hc₁⟩ := exists_scans_lf (hdirective.seen hseen)
    have hfront := hdirective.trans hend
    obtain ⟨c', hs, hc'⟩ := ih (hfront.seen hseen) hc₁
    exact ⟨c', hfront.trans hs, hc'⟩

/-! ## Layouts -/

/-- Texts of tokens with trivia around them. What stands behind a token starts with a blank, if there is
anything. A directive may be the last line, without its end. -/
inductive Layout : Bool → List TokenKind → Bytes → Prop where
  | trivia {s s' : Bool} {w : Bytes} : Trivia s w s' → Layout s [] w
  | directive {s : Bool} {m : LineMapping} {w line : Bytes} : Trivia s w true → m.IsDirective line →
    Layout s [] (w ++ line)
  | token {s s' : Bool} {k : TokenKind} {ks : List TokenKind} {v w rest : Bytes} : Trivia s v s' →
    Spelled k w → Parted rest → Layout false ks rest → Layout s (k :: ks) (v ++ (w ++ rest))

theorem Layout.exists_scans {ks : List TokenKind} {text : Bytes} (h : Layout s ks text) {c : Cursor}
    (hseen : Seen c text) (hc : Starts s c text) :
    ∃ ts c', Scans c text ts c' [] ∧ ts.map (·.kind) = ks := by
  induction h generalizing c with
  | @trivia _ _ w hw =>
    rw [← List.append_nil w] at hseen hc
    obtain ⟨c', hs, -⟩ := hw.exists_scans hseen hc
    rw [List.append_nil] at hs
    exact ⟨[], c', hs, rfl⟩
  | @directive s m w line hw hline =>
    obtain ⟨c₁, hs, hc₁⟩ := hw.exists_scans hseen hc
    obtain ⟨l, rfl, -⟩ := hline.exists_cons
    have hnil : ∀ b ∈ ([] : Bytes).head?, b = Ascii.lf := by simp
    have hread := ofText_isDirective hline hnil
    rw [← hc₁ rfl rfl, List.append_nil] at hread
    exact ⟨[], _, hs.trans (scans_silent hread), rfl⟩
  | @token s s' k ks v w rest hv hw hparted _ ih =>
    obtain ⟨c₁, hs, -⟩ := hv.exists_scans hseen hc
    obtain ⟨b, bs, rfl, hlexeme⟩ := hw.ofText hparted
    have htoken := Scans.lexeme (hlexeme c₁.startsLine).symm rfl .done
    have hfront := hs.trans htoken
    obtain ⟨ts, c', hrest, hkinds⟩ := ih (hfront.seen hseen) (by simp [Starts])
    exact ⟨_, c', hfront.trans hrest, by simp [kinds_tokenAt, hkinds]⟩

/-- From offset 2³² on no hash sign starts a directive, whatever stands in front of it. -/
theorem mem_errors_of_far {c : Cursor} (h : 4294967296 ≤ c.offset) (bs : Bytes) :
    (c.span, .unexpectedByte Ascii.hash) ∈ (scanFrom c (Ascii.hash :: bs)).errors := by
  have hc : c.startsLine = false := Bool.eq_false_iff.2 fun hstarts =>
    absurd (Cursor.startsLine_iff.1 hstarts).2 (Nat.not_lt.2 h)
  rw [scanFrom_cons, hc, Lexeme.ofText_hash]
  exact List.mem_append_left _ (by simp)

/-- A text of tokens with trivia around them is scanned without errors, and its tokens are those, with
the end of the text behind them. Its directives have to be where line starts are seen to, in front of
offset 2³² (`mem_errors_of_far`). -/
theorem scan_layout {ks : List TokenKind} {text : Bytes} (h : Layout true ks text)
    (hseen : Seen {} text) :
    (scan text).tokens.map (·.kind) = ks ++ [.eof] ∧ (scan text).errors = [] := by
  obtain ⟨ts, c', hs, hkinds⟩ := h.exists_scans hseen fun _ _ => rfl
  rw [scan, hs.scanFrom_eq, scanFrom]
  simp [hkinds]

/-- Comments, a line number with a zero in front, and directives, one of them as the last line. -/
def fieldText : Bytes :=
  "// head\n#line 07\r\nfield\t/* ** */007 <=\r\n\"a\\\"\" \n#line  default"

theorem scan_layout_field :
    Layout true [.keyword .fieldKw, .int "007" 7, .punct .ltEq, .string "a\""] fieldText ∧
      Seen {} fieldText ∧
      (scan fieldText).tokens.map (·.kind) =
        [.keyword .fieldKw, .int "007" 7, .punct .ltEq, .string "a\"", .eof] ∧
      (scan fieldText).errors = [] := by
  have hseven : LineMapping.Argument (.startAt 7) "07" :=
    @LineMapping.Argument.startAt "07" (by decide) (by decide) (by decide) (by decide)
  have hnumber : LineMapping.IsDirective (.startAt 7) "#line 07\r" :=
    ⟨[], "07", [], "\r", hseven, by simp, by simp, .inr rfl, rfl⟩
  have hdefault : LineMapping.IsDirective .physical "#line  default" :=
    ⟨" ", "default", [], [], .physical, by decide +kernel, by simp, .inl rfl, rfl⟩
  have hhead : Trivia true "// head\n#line 07\r\n" true :=
    @Trivia.lineComment true true " head" _ (by decide) (.directive hnumber .nil)
  have hgap : Trivia false "\t/* ** */" false :=
    .blank (b := Ascii.tab) rfl (@Trivia.blockComment false false " ** " [] (by decide) .nil)
  have hspace : Trivia false " " false := .blank (b := Ascii.space) rfl .nil
  have hline : Trivia false "\r\n" true := .blank (b := Ascii.cr) rfl (.blank (b := Ascii.lf) rfl .nil)
  have hend : Trivia false " \n" true := .blank (b := Ascii.space) rfl (.blank (b := Ascii.lf) rfl .nil)
  have hdigits : Spelled (.int "007" 7) "007" :=
    @Spelled.int "007" (by decide) (by decide) (by decide)
  have hlayout : Layout true [.keyword .fieldKw, .int "007" 7, .punct .ltEq, .string "a\""] fieldText :=
    .token hhead (.keyword .fieldKw) (.cons (b := Ascii.tab) rfl)
      (.token hgap hdigits (.cons (b := Ascii.space) rfl)
        (.token hspace (.punct .ltEq) (.cons (b := Ascii.cr) rfl)
          (.token hline (.string "a\"") (.cons (b := Ascii.space) rfl) (.directive hend hdefault))))
  have hseen : Seen {} fieldText := seen_of_near (by decide)
  exact ⟨hlayout, hseen, scan_layout hlayout hseen⟩

end TokenStream

end ViewCompiler
