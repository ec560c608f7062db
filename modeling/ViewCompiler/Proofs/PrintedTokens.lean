import ViewCompiler.Proofs.WrittenMarkup

/-!
The tokens of printed lines. `TokenStream.Prints` says that a text that ends with its line is scanned
without errors, whatever follows it, and what its tokens are; other than `Writes` it does not take
for granted that nothing is wrong. Two kinds of text are printed as they came: the lines of a code
block (`prints_lines`), and an expression in front of its semicolon (`prints_statement`), which must
not start with a directive or end with a comment (`TokenStream.Inline`).
-/

namespace ViewCompiler

/-! ## Columns -/

namespace Cursor

variable {c c' : Cursor}

theorem column_steps_congr (h : c.column = c'.column) (bs : Bytes) :
    (c.steps bs).column = (c'.steps bs).column := by
  induction bs generalizing c c' with
  | nil => exact h
  | cons b bs ih =>
    refine ih ?_
    by_cases hb : b = Ascii.lf
    · rw [hb, column_step_lf, column_step_lf]
    · rw [column_step _ hb, column_step _ hb, h]

/-- The column behind a lexeme depends on the column before it only. -/
theorem column_after_congr (h : c.column = c'.column) (l : Lexeme) :
    (c.after l).column = (c'.after l).column := by
  rw [after, after]
  exact column_steps_congr (by exact h) l.raw

end Cursor

/-! ## Comments and directives -/

namespace Lexeme

def isComment (l : Lexeme) : Bool := l.raw.startsWith "//" || l.raw.startsWith "/*"

/-- The lexeme starts with the first byte of the text. -/
theorem head?_ofText_raw (s : Bool) (b : UInt8) (bs : Bytes) : (ofText s b bs).raw.head? = some b := by
  have hraw := ofText_raw_append_rest s b bs
  cases hcase : (ofText s b bs).raw with
  | nil => exact absurd hcase (ofText_raw_ne_nil s b bs)
  | cons x xs =>
    rw [hcase] at hraw
    exact congrArg some (List.cons.inj hraw).1

/-- A comment to the end of its line, where another line follows. -/
theorem ofText_comment {bs : Bytes} (h : bs.dropWhile (· ≠ Ascii.lf) ≠ []) (s : Bool) (ys : Bytes) :
    ofText s Ascii.slash (Ascii.slash :: bs ++ ys) =
      (ofText s Ascii.slash (Ascii.slash :: bs)).extend ys := by
  have hdrop : (bs ++ ys).dropWhile (· ≠ Ascii.lf) = bs.dropWhile (· ≠ Ascii.lf) ++ ys := by
    rw [List.dropWhile_append, if_neg (by simpa using h)]
  have htake : (bs ++ ys).takeWhile (· ≠ Ascii.lf) = bs.takeWhile (· ≠ Ascii.lf) := by
    have hall := List.takeWhile_append_dropWhile (p := (· ≠ Ascii.lf)) (l := bs ++ ys)
    have hpart := List.takeWhile_append_dropWhile (p := (· ≠ Ascii.lf)) (l := bs)
    rw [hdrop, ← List.append_assoc] at hall
    refine List.append_cancel_right (List.append_cancel_right hall |>.trans hpart.symm)
  have hcomment (bs : Bytes) : ofText s Ascii.slash (Ascii.slash :: bs) =
      { raw := Ascii.slash :: Ascii.slash :: bs.takeWhile (· ≠ Ascii.lf)
        rest := bs.dropWhile (· ≠ Ascii.lf) } := rfl
  rw [List.cons_append, hcomment, hcomment, hdrop, htake]
  rfl

end Lexeme

namespace TokenStream

/-- The lexemes of a text that starts at `c`. -/
def lexemesFrom (c : Cursor) (text : Bytes) : List Lexeme :=
  match text with
  | [] => []
  | b :: bs =>
    let l := Lexeme.ofText c.startsLine b bs
    l :: lexemesFrom (c.after l) l.rest
termination_by text.length
decreasing_by exact Lexeme.length_ofText_rest_lt _ _ _

/-- Texts that can stand in front of other text on its line: they have no directives, and no comment
runs on to their end. -/
structure Inline (c : Cursor) (text : Bytes) : Prop where
  directive : ∀ l ∈ lexemesFrom c text, l.raw.head? ≠ some Ascii.hash
  comment : ∀ l ∈ lexemesFrom c text, l.raw.startsWith "//" = true → l.rest ≠ []

/-- Texts without hash signs and comments. -/
structure Plain (text : Bytes) : Prop where
  hash : Ascii.hash ∉ text
  comment : ∀ l ∈ lexemesFrom {} text, l.isComment = false

instance (c : Cursor) (text : Bytes) : Decidable (Inline c text) :=
  decidable_of_iff ((∀ l ∈ lexemesFrom c text, l.raw.head? ≠ some Ascii.hash) ∧
      ∀ l ∈ lexemesFrom c text, l.raw.startsWith "//" = true → l.rest ≠ [])
    ⟨fun h => ⟨h.1, h.2⟩, fun h => ⟨h.directive, h.comment⟩⟩

instance (text : Bytes) : Decidable (Plain text) :=
  decidable_of_iff (Ascii.hash ∉ text ∧ ∀ l ∈ lexemesFrom {} text, l.isComment = false)
    ⟨fun h => ⟨h.1, h.2⟩, fun h => ⟨h.hash, h.comment⟩⟩

theorem raw_subset_of_mem {c : Cursor} {text : Bytes} {l : Lexeme} (h : l ∈ lexemesFrom c text) :
    l.raw ⊆ text := by
  induction hn : text.length using Nat.strongRecOn generalizing c text with
  | ind n ih =>
  cases text with
  | nil => simp [lexemesFrom] at h
  | cons b bs =>
    rw [lexemesFrom] at h
    rw [← Lexeme.ofText_raw_append_rest c.startsLine b bs]
    rcases List.mem_cons.1 h with rfl | h
    · exact List.subset_append_left _ _
    · have hlt := Lexeme.length_ofText_rest_lt c.startsLine b bs
      exact List.Subset.trans (ih _ (hn ▸ hlt) h rfl) (List.subset_append_right _ _)

theorem Plain.inline {text : Bytes} (h : Plain text) : Inline {} text where
  directive l hl hhash := h.hash (raw_subset_of_mem hl (List.mem_of_mem_head? hhash))
  comment l hl hslash := by
    have hcomment := h.comment l hl
    rw [Lexeme.isComment, hslash] at hcomment
    cases hcomment

theorem Inline.rest {c : Cursor} {b : UInt8} {bs : Bytes} (h : Inline c (b :: bs)) :
    Inline (c.after (Lexeme.ofText c.startsLine b bs)) (Lexeme.ofText c.startsLine b bs).rest where
  directive l hl := h.directive l (by
    rw [lexemesFrom]
    exact List.mem_cons_of_mem _ hl)
  comment l hl := h.comment l (by
    rw [lexemesFrom]
    exact List.mem_cons_of_mem _ hl)

/-- The first lexeme of such a text is the same in front of a separator, wherever the text stands. -/
theorem Inline.ofText_append {c : Cursor} {b x : UInt8} {bs : Bytes} (h : Inline c (b :: bs))
    (he : (Lexeme.ofText c.startsLine b bs).error = none) (hx : isSeparator x = true) (s : Bool)
    (ys : Bytes) : Lexeme.ofText s b (bs ++ x :: ys) =
      (Lexeme.ofText c.startsLine b bs).extend (x :: ys) := by
  have hmem : Lexeme.ofText c.startsLine b bs ∈ lexemesFrom c (b :: bs) := by
    rw [lexemesFrom]
    exact List.mem_cons_self
  have hb : b ≠ Ascii.hash := by
    rintro rfl
    exact h.directive _ hmem (Lexeme.head?_ofText_raw _ _ _)
  rw [Lexeme.ofText_congr hb s c.startsLine]
  by_cases hr : Lexeme.RunsOn c.startsLine b bs
  · rcases hr with ⟨hhash, -⟩ | ⟨rfl, hslash⟩
    · exact absurd hhash hb
    · obtain ⟨bs, rfl⟩ : ∃ bs', bs = Ascii.slash :: bs' := by
        cases bs with
        | nil => cases hslash
        | cons y bs =>
          cases hslash
          exact ⟨bs, rfl⟩
      have hrest : bs.dropWhile (· ≠ Ascii.lf) ≠ [] := h.comment _ hmem rfl
      exact Lexeme.ofText_comment hrest _ _
  · exact Lexeme.ofText_append hx hr he ys

/-! ## Printed texts -/

/-- The text `w`, at whose end its line ends, is scanned without errors in front of any text that is
near, and its tokens have the property `P`. With `s` it may have to stand at the start of a line. -/
def Prints (s : Bool) (w : Bytes) (P : List Token → Prop) : Prop :=
  ∀ c ys, c.Near (w ++ ys) → (s = true → c.column = 1) →
    ∃ ts c', Scans c (w ++ ys) ts c' ys ∧ c'.column = 1 ∧ P ts

variable {s : Bool} {v w : Bytes} {b x : UInt8} {P P' Q : List Token → Prop}

namespace Prints

theorem mono (h : Prints s w P) (hP : ∀ ts, P ts → Q ts) : Prints s w Q := by
  intro c ys hnear hc
  obtain ⟨ts, c', hs, hc', hts⟩ := h c ys hnear hc
  exact ⟨ts, c', hs, hc', hP ts hts⟩

theorem nil (h : P []) : Prints true [] P := fun c _ _ hc => ⟨[], c, .done, hc rfl, h⟩

theorem append (h : Prints s v P) (h' : Prints true w P') (hQ : ∀ {ts us}, P ts → P' us → Q (ts ++ us)) :
    Prints s (v ++ w) Q := by
  intro c ys hnear hc
  rw [List.append_assoc] at hnear ⊢
  obtain ⟨ts, c', hs, hc', hts⟩ := h c (w ++ ys) hnear hc
  obtain ⟨us, c'', hs', hc'', hus⟩ := h' c' ys (hs.near hnear) fun _ => hc'
  exact ⟨ts ++ us, c'', hs.trans hs', hc'', hQ hts hus⟩

theorem joined (h : Prints s v P) (h' : Prints true w P') : Prints s (v ++ w) (Joined P P') :=
  h.append h' fun hts hus => ⟨_, _, rfl, hts, hus⟩

/-- Printed from the start of a text. -/
theorem scan (h : Prints true w P) (hsize : w.length < 4294967296) :
    ∃ (ts : List Token) (e : Token), P ts ∧ e.kind = .eof ∧ TokenStream.scan w = ⟨ts ++ [e], []⟩ := by
  have hnear : Cursor.Near {} (w ++ []) := by simpa [Cursor.Near] using hsize
  obtain ⟨ts, c', hs, -, hts⟩ := h {} [] hnear fun _ => rfl
  refine ⟨ts, ⟨.eof, c'.span⟩, hts, rfl, ?_⟩
  rw [List.append_nil] at hs
  rw [TokenStream.scan, hs.scanFrom_eq, scanFrom]

end Prints

theorem prints_lexeme {k : Option TokenKind} (hw : IsLexeme w k v) (h : Prints false v P) :
    Prints s (w ++ v) fun ts => ∃ s us, ts = (k.map fun kind => ⟨kind, s⟩).toList ++ us ∧ P us := by
  obtain ⟨b, bs, rfl, hl⟩ := hw
  intro c ys hnear _
  rw [List.append_assoc, List.cons_append] at hnear ⊢
  have hfirst := Scans.lexeme (hl _ ys).symm rfl (.done (c := c.after _))
  obtain ⟨us, c', hs, hc', hus⟩ := h _ ys (hfirst.near hnear) (by simp)
  exact ⟨_, c', .lexeme (hl _ ys).symm rfl hs, hc', _, us, rfl, hus⟩

theorem prints_token {k : TokenKind} (hw : IsLexeme w (some k) v) (h : Prints false v P) :
    Prints s (w ++ v) (Leads k P) :=
  (prints_lexeme hw h).mono fun _ h => h

theorem prints_blank (hb : Lexeme.isBlank b = true) (h : Prints false v P) : Prints s (b :: v) P :=
  (prints_lexeme (isLexeme_blank hb v) h).mono fun ts ⟨_, us, hts, hus⟩ => by simpa [hts] using hus

theorem prints_space (h : Prints false v P) : Prints s (Ascii.space :: v) P := prints_blank rfl h

/-- Behind the end of a line a line starts. -/
theorem prints_lf (h : Prints true v P) : Prints s (Ascii.lf :: v) P := by
  intro c ys hnear _
  have hlf := scans_lf c (v ++ ys)
  obtain ⟨us, c', hs, hc', hus⟩ := h _ ys (hlf.near hnear) fun _ => c.column_step_lf
  exact ⟨us, c', hlf.trans hs, hc', hus⟩

theorem prints_mark {p : Punct} (hb : isMark b = true) (hp : Punct.ofByte? b = some p)
    (hx : Punct.ofTwoBytes? b x = none) (h : Prints false (x :: v) P) :
    Prints s (b :: x :: v) (Leads (.punct p) P) :=
  prints_token (isLexeme_mark hb hp hx v) h

/-- A mark at the end of a line. -/
theorem prints_mark_lf {p : Punct} (hb : isMark b = true) (hp : Punct.ofByte? b = some p)
    (hx : Punct.ofTwoBytes? b Ascii.lf = none) (h : Prints true v P) :
    Prints s (b :: Ascii.lf :: v) (Leads (.punct p) P) :=
  prints_mark hb hp hx (prints_lf h)

theorem prints_quote (t : Bytes) (h : Prints false v P) :
    Prints s (Literal.quote t ++ v) (Leads (.string t) P) :=
  prints_token (isLexeme_quote t v) h

theorem prints_word (hw : w.IsWord) (hx : Ascii.isNameByte x = false) (h : Prints false (x :: v) P) :
    Prints s (w ++ x :: v) (Leads (.identifier w) P) := by
  have hlexeme := isLexeme_word hw.1 hx v
  rw [wordKind, hw.2] at hlexeme
  exact prints_token hlexeme h

theorem prints_keyword (k : Keyword) (hx : Ascii.isNameByte x = false) (h : Prints false (x :: v) P) :
    Prints s (k.text ++ x :: v) (Leads (.keyword k) P) := by
  have hw : k.text.isIdentifier = true := by cases k <;> rfl
  have hk : wordKind k.text = .keyword k := by cases k <;> rfl
  exact hk ▸ prints_token (isLexeme_word hw hx v) h

/-- A keyword and the space behind it. -/
theorem prints_opening (k : Keyword) {t : Bytes} (ht : t = k.text ++ [Ascii.space])
    (h : Prints false v P) : Prints s (t ++ v) (Leads (.keyword k) P) := by
  rw [ht, List.append_assoc]
  exact prints_keyword k rfl (prints_space h)

theorem prints_name {m : Bytes} (hm : m.IsQualified) (hx : Ascii.isNameByte x = false)
    (h : Prints false (x :: v) P) : Prints s (m ++ x :: v) (Joined (Tokens.Named m) P) := by
  induction hm generalizing s with
  | word hw =>
    refine (prints_word hw hx h).mono ?_
    rintro _ ⟨s, us, rfl, hus⟩
    exact ⟨[⟨_, s⟩], us, rfl, .word, hus⟩
  | @dot w m hw hm ih =>
    obtain ⟨b, bs, rfl, hb⟩ := hm.head
    have hdot : Punct.ofTwoBytes? Ascii.dot b = none := ofTwoBytes?_eq_none (by decide) b
    rw [List.append_assoc]
    refine (prints_word hw rfl (prints_mark rfl rfl hdot ih)).mono ?_
    rintro _ ⟨s, _, rfl, s', _, rfl, w, us, rfl, hw', hus⟩
    exact ⟨⟨_, s⟩ :: ⟨_, s'⟩ :: w, us, rfl, .dot hw', hus⟩

/-- A directive that means something, on a line of its own. -/
theorem prints_directive {l : Bytes} {m : LineMapping} (hlf : Ascii.lf ∉ l)
    (hm : Lexeme.directive (Ascii.hash :: l) = .ok m) (h : Prints true v P) :
    Prints true (Ascii.hash :: l ++ Ascii.lf :: v) P := by
  intro c ys hnear hc
  have hstart : c.startsLine = true := hnear.startsLine (hc rfl)
  obtain ⟨htoken, hrest⟩ := ofText_directive hstart hlf (v ++ ys)
  have herror : (Lexeme.ofText c.startsLine Ascii.hash (l ++ Ascii.lf :: (v ++ ys))).error = none := by
    have hlf : ∀ x ∈ Ascii.hash :: l, decide (x ≠ Ascii.lf) = true := by
      intro x hx
      rcases List.mem_cons.1 hx with rfl | hx
      · decide
      · exact decide_eq_true fun heq => hlf (heq ▸ hx)
    rw [Lexeme.ofText, if_pos ⟨rfl, hstart⟩, Lexeme.ofDirective, ← List.cons_append,
      takeWhile_append_of_not (by simp), List.takeWhile_eq_self_iff.2 hlf]
    simp only [hm]
  rw [List.append_assoc, List.cons_append] at hnear ⊢
  have hline := Scans.lexeme rfl herror .done
  rw [tokenAt, htoken, hrest] at hline
  obtain ⟨us, c', hs, hc', hus⟩ := prints_lf (s := false) h _ ys (hline.near hnear) (by simp)
  exact ⟨us, c', hline.trans hs, hc', hus⟩

/-! ## Line numbers -/

end TokenStream

namespace Bytes

theorem trim_eq_self {p : UInt8 → Bool} {s : Bytes} (h : ∀ b ∈ s, p b = false) : trim p s = s := by
  have hdrop {s : Bytes} (h : ∀ b ∈ s, p b = false) : s.dropWhile p = s := by
    cases s with
    | nil => rfl
    | cons b s =>
      rw [List.dropWhile_cons, h b (by simp)]
      rfl
  rw [trim, trimLeft, trimRight, hdrop h, hdrop (by simpa using h), List.reverse_reverse]

end Bytes

/-- A line number of 32 bits that is not zero is accepted. -/
theorem Lexeme.directive_ofNat {n : Nat} (h : 0 < n) (h' : n < 4294967296) :
    directive ("#line " ++ Bytes.ofNat n) = .ok (.startAt n) := by
  have hlast : ¬ (("#line " : Bytes) ++ Bytes.ofNat n).getLast? = some Ascii.cr := by
    intro hcr
    rcases List.mem_append.1 (List.mem_of_getLast? hcr) with hmem | hmem
    · exact absurd hmem (by decide)
    · exact Bytes.not_mem_ofNat rfl hmem
  have htrim : Bytes.trim (· = Ascii.space) (Bytes.ofNat n) = Bytes.ofNat n :=
    Bytes.trim_eq_self fun b hb => decide_eq_false fun heq => Bytes.not_mem_ofNat rfl (heq ▸ hb)
  have hdefault : Bytes.ofNat n ≠ ("default" : Bytes) := by
    intro heq
    have hd : (100 : UInt8) ∈ Bytes.ofNat n := by
      rw [heq]
      decide
    exact Bytes.not_mem_ofNat rfl hd
  have hstart : Bytes.startsWith (("#line " : Bytes) ++ Bytes.ofNat n) "#line " = true := rfl
  have hdrop : List.drop 6 (("#line " : Bytes) ++ Bytes.ofNat n) = Bytes.ofNat n := rfl
  simp only [directive, if_neg hlast, hstart, if_true, hdrop, htrim, if_neg hdefault, Bytes.toNat?_ofNat]
  exact if_pos ⟨h, h'⟩

namespace TokenStream

variable {s : Bool} {v w : Bytes} {P : List Token → Prop}

/-- A line directive with its line. -/
theorem prints_lineMark (argument : Bytes) {m : LineMapping} (hlf : Ascii.lf ∉ argument)
    (hm : Lexeme.directive ("#line " ++ argument) = .ok m) (h : Prints true v P) :
    Prints true ("#line " ++ argument ++ "\n" ++ v) P := by
  have hline : ("#line " : Bytes) = Ascii.hash :: ("line " : Bytes) := rfl
  have hend : ("\n" : Bytes) = [Ascii.lf] := rfl
  have hlf : Ascii.lf ∉ ("line " : Bytes) ++ argument := by
    rw [List.mem_append, not_or]
    exact ⟨by decide, hlf⟩
  simpa [hline, hend] using prints_directive hlf hm h

theorem prints_lineNumber {n : Nat} (hn : 0 < n) (hn' : n < 4294967296) (h : Prints true v P) :
    Prints true ("#line " ++ Bytes.ofNat n ++ "\n" ++ v) P :=
  prints_lineMark _ (Bytes.not_mem_ofNat rfl) (Lexeme.directive_ofNat hn hn') h

theorem prints_lineDefault (h : Prints true v P) : Prints true ("#line default\n" ++ v) P :=
  prints_lineMark "default" (m := .physical) (by decide) rfl h

/-! ## Code as it came -/

/-- Lines that are clean alone have the same tokens in front of any text. -/
theorem exists_scans_block {c₀ c : Cursor} {bs ys : Bytes} (hc : c.column = c₀.column)
    (hnear : c.Near (bs ++ Ascii.lf :: ys)) (h : (scanFrom c₀ bs).errors = []) :
    ∃ ts c', Scans c (bs ++ Ascii.lf :: ys) ts c' ys ∧ c'.column = 1
      ∧ (scanFrom c₀ bs).tokens.map (·.kind) = ts.map (·.kind) ++ [TokenKind.eof] := by
  induction hn : bs.length using Nat.strongRecOn generalizing c₀ c bs with
  | ind n ih =>
  cases bs with
  | nil => exact ⟨[], _, scans_lf c ys, c.column_step_lf, by rw [scanFrom]; rfl⟩
  | cons b bs =>
    let l := Lexeme.ofText c₀.startsLine b bs
    obtain ⟨he, hrest⟩ := errors_cons h
    have hl : Lexeme.ofText c.startsLine b (bs ++ Ascii.lf :: ys) = l.extend (Ascii.lf :: ys) := by
      rcases ofText_self_or_directive c.startsLine he with hs | ⟨-, hs₀, hs⟩
      · rw [hs]
        exact Lexeme.ofText_append_lf he ys
      · have hstart := hnear.startsLine (hc.trans (Cursor.startsLine_iff.1 hs₀).1)
        rw [hs] at hstart
        cases hstart
    have hfirst := Scans.lexeme hl.symm he .done
    have hlt : l.rest.length < n := hn ▸ Lexeme.length_ofText_rest_lt _ _ _
    obtain ⟨ts, c', hs, hc', hkinds⟩ :=
      ih _ hlt (Cursor.column_after_congr hc l) (hfirst.near hnear) hrest rfl
    have hscans := Scans.lexeme hl.symm he hs
    refine ⟨tokenAt c l ++ ts, c', hscans, hc', ?_⟩
    rw [scanFrom_cons, List.map_append, List.map_append, kinds_tokenAt, kinds_tokenAt, hkinds,
      List.append_assoc]

theorem prints_lines {code : Bytes} (h : (scan code).errors = []) :
    Prints true (code ++ [Ascii.lf]) fun ts =>
      (scan code).tokens.map (·.kind) = ts.map (·.kind) ++ [TokenKind.eof] := by
  intro c ys hnear hc
  rw [List.append_assoc] at hnear ⊢
  exact exists_scans_block (hc rfl) hnear h

/-- A text that can stand in front of others and is clean alone has the same tokens in front of a
semicolon. -/
theorem exists_scans_inline {c₀ c : Cursor} {bs ys : Bytes} (hi : Inline c₀ bs)
    (hnear : c.Near (bs ++ Ascii.semicolon :: Ascii.lf :: ys)) (h : (scanFrom c₀ bs).errors = []) :
    ∃ (ts : List Token) (s : Span) (c' : Cursor),
      Scans c (bs ++ Ascii.semicolon :: Ascii.lf :: ys) (ts ++ [⟨.punct .semicolon, s⟩]) c' ys
      ∧ c'.column = 1 ∧ (scanFrom c₀ bs).tokens.map (·.kind) = ts.map (·.kind) ++ [TokenKind.eof] := by
  induction hn : bs.length using Nat.strongRecOn generalizing c₀ c bs with
  | ind n ih =>
  cases bs with
  | nil =>
    obtain ⟨_, c', hs, hc', s, _, rfl, rfl⟩ := prints_mark_lf (s := false) (b := Ascii.semicolon)
      (p := .semicolon) rfl rfl rfl (.nil (P := (· = [])) rfl) c ys hnear (by simp)
    exact ⟨[], s, c', hs, hc', by rw [scanFrom]; rfl⟩
  | cons b bs =>
    let l := Lexeme.ofText c₀.startsLine b bs
    obtain ⟨he, hrest⟩ := errors_cons h
    have hl : Lexeme.ofText c.startsLine b (bs ++ Ascii.semicolon :: Ascii.lf :: ys) =
        l.extend (Ascii.semicolon :: Ascii.lf :: ys) := hi.ofText_append he rfl _ _
    have hlt : l.rest.length < n := hn ▸ Lexeme.length_ofText_rest_lt _ _ _
    have hfirst := Scans.lexeme hl.symm he .done
    obtain ⟨ts, s, c', hs, hc', hkinds⟩ :=
      ih _ hlt (c := c.after l) hi.rest (hfirst.near hnear) hrest rfl
    refine ⟨tokenAt c l ++ ts, s, c', ?_, hc', ?_⟩
    · have hscans := Scans.lexeme hl.symm he hs
      rw [List.append_assoc]
      exact hscans
    · rw [scanFrom_cons, List.map_append, List.map_append, kinds_tokenAt, kinds_tokenAt, hkinds,
        List.append_assoc]

theorem prints_statement {code : Bytes} (hi : Inline {} code) (h : (scan code).errors = []) :
    Prints false (code ++ [Ascii.semicolon, Ascii.lf]) fun ts => ∃ (us : List Token) (s : Span),
      ts = us ++ [⟨.punct .semicolon, s⟩] ∧
        (scan code).tokens.map (·.kind) = us.map (·.kind) ++ [TokenKind.eof] := by
  intro c ys hnear _
  rw [List.append_assoc] at hnear ⊢
  obtain ⟨us, s, c', hs, hc', hkinds⟩ := exists_scans_inline hi hnear h
  exact ⟨_, c', hs, hc', us, s, rfl, hkinds⟩

end TokenStream

end ViewCompiler
