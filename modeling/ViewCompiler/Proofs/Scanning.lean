import Mathlib.Data.List.TakeWhile
import ViewCompiler.Proofs.Lexemes

/-!
Scanning a text in pieces. `TokenStream.Scans` relates a text to the tokens of a first part of it and
to what is left; every lexeme of the part is looked at together with the text behind it, so parts can
be joined without cutting a lexeme.

Two kinds of text are scanned by their own, whatever follows: lines that end cleanly
(`exists_scans_lines`), and a text that can be scanned alone, in front of a semicolon and the end of
the line (`exists_scans_statement`).
-/

namespace ViewCompiler

namespace Lexeme

variable {s s' : Bool} {b : UInt8} {bs : Bytes}

theorem ofText_blank (h : isBlank b = true) (s : Bool) (bs : Bytes) :
    ofText s b bs = { raw := [b], rest := bs } := by
  have hd : ¬ (b = Ascii.hash ∧ s = true) := by
    rintro ⟨rfl, -⟩
    cases h
  rw [ofText, if_neg hd, if_pos h]

/-- Only what starts with a hash sign depends on where the line starts. -/
theorem ofText_congr (h : b ≠ Ascii.hash) (s s' : Bool) (bs : Bytes) :
    ofText s b bs = ofText s' b bs := by
  simp [ofText, h]

/-- A hash sign is only read at the start of a line. -/
theorem ofText_hash (bs : Bytes) : ofText false Ascii.hash bs =
    { raw := [Ascii.hash], rest := bs, error := some (.unexpectedByte Ascii.hash) } := by
  have htwo : bs.head?.bind (Punct.ofTwoBytes? Ascii.hash) = none :=
    Option.bind_eq_none_iff.2 fun x _ => ofTwoBytes?_eq_none (by decide) x
  change ofMark Ascii.hash bs = _
  rw [ofMark, htwo]
  rfl

theorem error_ofText_hash (bs : Bytes) : (ofText false Ascii.hash bs).error ≠ none := by
  simp [ofText_hash]

theorem token_ofText_ne_eof (s : Bool) (b : UInt8) (bs : Bytes) :
    (ofText s b bs).token ≠ some .eof := by
  rw [ofText]
  split
  · rw [ofDirective]
    split <;> simp
  split
  · simp
  split
  · simp
  split
  · rw [ofBlockComment]
    split <;> simp
  split
  · simp only [ofWord]
    split <;> simp
  split
  · rw [ofDigits]
    split <;> simp
  split
  · simp [ofString]
  · rw [ofMark]
    split
    · simp
    · split <;> simp

/-- A lexeme that runs on is no token, and it ends with its line. -/
theorem ofText_of_runsOn (h : RunsOn s b bs) :
    (ofText s b bs).token = none ∧ (ofText s b bs).rest = bs.dropWhile (· ≠ Ascii.lf) := by
  by_cases hd : b = Ascii.hash ∧ s = true
  · have hb : b ≠ Ascii.lf := by rw [hd.1]; decide
    rw [ofText, if_pos hd, ofDirective]
    split <;> simp [hb]
  · have hc : b = Ascii.slash ∧ bs.head? = some Ascii.slash := h.resolve_left hd
    have hb : isBlank b = false := by rw [hc.1]; rfl
    simp only [ofText, if_neg hd, hb, if_pos hc]
    exact ⟨rfl, rfl⟩

end Lexeme

/-! ## Line starts -/

namespace Cursor

/-- All of a text that starts here is in front of offset 2³², where line starts are seen to. -/
def Near (c : Cursor) (text : Bytes) : Prop := c.offset + text.length < 4294967296

instance (c : Cursor) (text : Bytes) : Decidable (c.Near text) :=
  inferInstanceAs (Decidable (c.offset + text.length < 4294967296))

variable {c : Cursor}

theorem Near.startsLine {text : Bytes} (h : c.Near text) (hc : c.column = 1) : c.startsLine = true :=
  startsLine_iff.2 ⟨hc, Nat.lt_of_le_of_lt (Nat.le_add_right _ _) h⟩

theorem offset_after (c : Cursor) (l : Lexeme) : (c.after l).offset = c.offset + l.raw.length :=
  offset_steps _ l.raw

theorem Near.after {s : Bool} {b : UInt8} {bs : Bytes} (h : c.Near (b :: bs)) :
    (c.after (Lexeme.ofText s b bs)).Near (Lexeme.ofText s b bs).rest := by
  rw [Near, ← Lexeme.ofText_raw_append_rest s b bs, List.length_append] at h
  rwa [Near, offset_after, Nat.add_assoc]

end Cursor

namespace TokenStream

/-! ## Parts of a text -/

/-- The token that a lexeme at `c` is, if it is one. -/
def tokenAt (c : Cursor) (l : Lexeme) : List Token :=
  (l.token.map fun kind => { kind, span := c.span }).toList

theorem kinds_tokenAt (c : Cursor) (l : Lexeme) :
    (tokenAt c l).map (·.kind) = l.token.toList := by
  rw [tokenAt]
  cases l.token <;> rfl

/-- The tokens `ts` are those of the text at `c` up to the text `rest` at `c'`, and nothing is wrong
with them. -/
inductive Scans : Cursor → Bytes → List Token → Cursor → Bytes → Prop where
  | done {c : Cursor} {text : Bytes} : Scans c text [] c text
  | lexeme {c c' : Cursor} {b : UInt8} {bs rest : Bytes} {ts : List Token} {l : Lexeme} :
      l = Lexeme.ofText c.startsLine b bs → l.error = none →
      Scans (c.after l) l.rest ts c' rest → Scans c (b :: bs) (tokenAt c l ++ ts) c' rest

theorem scanFrom_cons (c : Cursor) (b : UInt8) (bs : Bytes) :
    scanFrom c (b :: bs) =
      let l := Lexeme.ofText c.startsLine b bs
      let r := scanFrom (c.after l) l.rest
      { tokens := tokenAt c l ++ r.tokens
        errors := (l.error.map fun e => (c.span, e)).toList ++ r.errors } := by
  rw [scanFrom]
  rfl

theorem errors_cons {c : Cursor} {b : UInt8} {bs : Bytes} (h : (scanFrom c (b :: bs)).errors = []) :
    (Lexeme.ofText c.startsLine b bs).error = none ∧
      (scanFrom (c.after (Lexeme.ofText c.startsLine b bs))
        (Lexeme.ofText c.startsLine b bs).rest).errors = [] := by
  simpa [scanFrom_cons] using h

namespace Scans

variable {c c' c'' : Cursor} {text rest rest' : Bytes} {ts ts' : List Token}

theorem trans (h : Scans c text ts c' rest) (h' : Scans c' rest ts' c'' rest') :
    Scans c text (ts ++ ts') c'' rest' := by
  induction h with
  | done => exact h'
  | lexeme hl he _ ih =>
    rw [List.append_assoc]
    exact .lexeme hl he (ih h')

theorem scanFrom_eq (h : Scans c text ts c' rest) :
    scanFrom c text = ⟨ts ++ (scanFrom c' rest).tokens, (scanFrom c' rest).errors⟩ := by
  induction h with
  | done => rfl
  | lexeme hl he _ ih =>
    subst hl
    simp [scanFrom_cons, ih, he]

theorem near (h : Scans c text ts c' rest) (hnear : c.Near text) : c'.Near rest := by
  induction h with
  | done => exact hnear
  | lexeme hl _ _ ih => exact ih (hl ▸ hnear.after)

end Scans

/-- The tokens of a text end with the end of the text and are something else before. -/
theorem ne_eof_of_mem_tokenAt {c : Cursor} {s : Bool} {b : UInt8} {bs : Bytes} {t : Token}
    (ht : t ∈ tokenAt c (Lexeme.ofText s b bs)) : t.kind ≠ .eof := by
  simp only [tokenAt, Option.mem_toList, Option.map_eq_some_iff] at ht
  obtain ⟨kind, hkind, rfl⟩ := ht
  rintro rfl
  exact Lexeme.token_ofText_ne_eof s b bs hkind

theorem Scans.ne_eof {c c' : Cursor} {text rest : Bytes} {ts : List Token}
    (h : Scans c text ts c' rest) : ∀ t ∈ ts, t.kind ≠ .eof := by
  induction h with
  | done => simp
  | lexeme hl _ _ ih =>
    subst hl
    exact List.forall_mem_append.2 ⟨fun t => ne_eof_of_mem_tokenAt, ih⟩

theorem exists_tokens_eq (c : Cursor) (text : Bytes) :
    ∃ (ts : List Token) (e : Token), (scanFrom c text).tokens = ts ++ [e] ∧ e.kind = .eof
      ∧ ∀ t ∈ ts, t.kind ≠ .eof := by
  induction hn : text.length using Nat.strongRecOn generalizing c text with
  | ind n ih =>
  cases text with
  | nil => exact ⟨[], _, by rw [scanFrom]; rfl, rfl, by simp⟩
  | cons b bs =>
    let l := Lexeme.ofText c.startsLine b bs
    have hlt : l.rest.length < n := hn ▸ Lexeme.length_ofText_rest_lt _ _ _
    obtain ⟨ts, e, hts, he, hne⟩ := ih _ hlt (c.after l) l.rest rfl
    refine ⟨tokenAt c l ++ ts, e, by simp [scanFrom_cons, l, hts], he, ?_⟩
    exact List.forall_mem_append.2 ⟨fun t => ne_eof_of_mem_tokenAt, hne⟩

/-! ## Lines -/

/-- The end of a line. -/
theorem scans_lf (c : Cursor) (zs : Bytes) :
    Scans c (Ascii.lf :: zs) [] (c.after { raw := [Ascii.lf], rest := [] }) zs := by
  have hl : Lexeme.ofText c.startsLine Ascii.lf zs = { raw := [Ascii.lf], rest := zs } :=
    Lexeme.ofText_blank rfl _ zs
  exact .lexeme hl.symm rfl .done

theorem getLast?_rest_ne {raw rest : Bytes} {x : UInt8} (h : (raw ++ rest).getLast? ≠ some x) :
    rest.getLast? ≠ some x := by
  rw [List.getLast?_append] at h
  cases hr : rest.getLast? with
  | none => simp
  | some y => simpa [hr] using h

/-- Lines that are clean in front of some text have their tokens in front of any text. -/
theorem exists_scans_lines {c : Cursor} {bs ys : Bytes}
    (hlast : bs.getLast? ≠ some Ascii.backslash)
    (hys : Lexeme.splitComment (Ascii.lf :: ys) = none)
    (h : (scanFrom c (bs ++ Ascii.lf :: ys)).errors = []) :
    ∃ ts c', ∀ zs, Scans c (bs ++ Ascii.lf :: zs) ts c' zs := by
  induction hn : bs.length using Nat.strongRecOn generalizing c bs with
  | ind n ih =>
  cases bs with
  | nil => exact ⟨[], _, scans_lf c⟩
  | cons b bs =>
    let l := Lexeme.ofText c.startsLine b bs
    have hraw : l.raw ++ l.rest = b :: bs := Lexeme.ofText_raw_append_rest _ _ _
    have hlt : l.rest.length < n := hn ▸ Lexeme.length_ofText_rest_lt _ _ _
    rw [List.cons_append] at h
    obtain ⟨he, hrest⟩ := errors_cons h
    have hl : l.error = none := (Lexeme.error_append_lf hlast hys).symm.trans he
    have happ (zs : Bytes) := Lexeme.ofText_append_lf hl zs
    rw [happ ys] at hrest
    obtain ⟨ts, c', hts⟩ := ih _ hlt (c := c.after l) (getLast?_rest_ne (hraw ▸ hlast)) hrest rfl
    refine ⟨tokenAt c l ++ ts, c', fun zs => ?_⟩
    have hscans := Scans.lexeme (happ zs).symm hl (hts zs)
    exact hscans

/-- Lines whose comments end have the same tokens and the same errors in front of any text. -/
theorem exists_scanFrom_lines {c : Cursor} {bs ys : Bytes}
    (hlast : bs.getLast? ≠ some Ascii.backslash)
    (hys : Lexeme.splitComment (Ascii.lf :: ys) = none)
    (h : ∀ e ∈ (scanFrom c (bs ++ Ascii.lf :: ys)).errors, e.2 ≠ .unterminatedComment) :
    ∃ (ts : List Token) (es : List (Span × LexicalError)) (c' : Cursor),
      ∀ zs, scanFrom c (bs ++ Ascii.lf :: zs) =
        ⟨ts ++ (scanFrom c' zs).tokens, es ++ (scanFrom c' zs).errors⟩ := by
  induction hn : bs.length using Nat.strongRecOn generalizing c bs with
  | ind n ih =>
  cases bs with
  | nil => exact ⟨[], [], _, fun zs => (scans_lf c zs).scanFrom_eq⟩
  | cons b bs =>
    let l := Lexeme.ofText c.startsLine b bs
    have hraw : l.raw ++ l.rest = b :: bs := Lexeme.ofText_raw_append_rest _ _ _
    have hlt : l.rest.length < n := hn ▸ Lexeme.length_ofText_rest_lt _ _ _
    have herror := Lexeme.error_append_lf (s := c.startsLine) hlast hys
    rw [List.cons_append, scanFrom_cons] at h
    obtain ⟨hfirst, hrest⟩ := List.forall_mem_append.1 h
    have hl : l.error ≠ some .unterminatedComment := by
      intro hl
      exact hfirst (c.span, .unterminatedComment) (by simp [herror, l, hl]) rfl
    have happ (zs : Bytes) := Lexeme.ofText_append_line hlast hl zs
    rw [happ ys] at hrest
    obtain ⟨ts, es, c', hts⟩ := ih _ hlt (c := c.after l) (getLast?_rest_ne (hraw ▸ hlast)) hrest rfl
    refine ⟨tokenAt c l ++ ts, (l.error.map fun e => (c.span, e)).toList ++ es, c', fun zs => ?_⟩
    rw [List.cons_append, scanFrom_cons, happ zs, List.append_assoc, List.append_assoc]
    exact congrArg (fun r : TokenStream => (⟨tokenAt c l ++ r.tokens,
      (l.error.map fun e => (c.span, e)).toList ++ r.errors⟩ : TokenStream)) (hts zs)

/-! ## Texts that can be scanned alone -/

/-- The end of a statement. -/
theorem scans_semicolon (c : Cursor) (zs : Bytes) :
    ∃ c', Scans c (Ascii.semicolon :: Ascii.lf :: zs) [⟨.punct .semicolon, c.span⟩] c' zs := by
  refine ⟨_, .lexeme (l := ⟨[Ascii.semicolon], Ascii.lf :: zs, some (.punct .semicolon), none, none⟩)
    ?_ rfl (scans_lf _ _)⟩
  rw [Lexeme.ofText_congr (by decide) _ false]
  rfl

/-- A clean lexeme is the same in front of a semicolon and the end of the line, or it runs on and takes
the semicolon with it. -/
theorem ofText_statement_self {s : Bool} {b : UInt8} {bs : Bytes} (ys : Bytes)
    (h : (Lexeme.ofText s b bs).error = none) :
    Lexeme.ofText s b (bs ++ Ascii.semicolon :: Ascii.lf :: ys) =
        (Lexeme.ofText s b bs).extend (Ascii.semicolon :: Ascii.lf :: ys)
      ∨ (Lexeme.ofText s b bs).token = none ∧ (Lexeme.ofText s b bs).rest = []
        ∧ (Lexeme.ofText s b (bs ++ Ascii.semicolon :: Ascii.lf :: ys)).token = none
        ∧ (Lexeme.ofText s b (bs ++ Ascii.semicolon :: Ascii.lf :: ys)).rest = Ascii.lf :: ys := by
  by_cases hr : Lexeme.RunsOn s b bs
  · by_cases hlf : Ascii.lf ∈ bs
    · obtain ⟨us, vs, rfl, -⟩ := List.eq_append_cons_of_mem hlf
      have hus : Lexeme.RunsOn s b us := by
        rwa [Lexeme.RunsOn, head?_append_eq (by decide)] at hr
      rw [List.append_assoc, List.cons_append, Lexeme.ofText_append_lf_of_runsOn hus,
        Lexeme.ofText_append_lf_of_runsOn hus]
      simp [Lexeme.extend]
    · have hline : Lexeme.RunsOn s b (bs ++ [Ascii.semicolon]) := by
        rwa [Lexeme.RunsOn, head?_append_eq (by decide)]
      have hnil {us : Bytes} (hus : Ascii.lf ∉ us) : us.dropWhile (· ≠ Ascii.lf) = [] := by
        rw [List.dropWhile_eq_nil_iff]
        intro x hx
        have hne : x ≠ Ascii.lf := fun h => hus (h ▸ hx)
        simpa using hne
      have hlf' : Ascii.lf ∉ bs ++ [Ascii.semicolon] := by
        rw [List.mem_append, not_or]
        exact ⟨hlf, by decide⟩
      obtain ⟨htoken, hrest⟩ := Lexeme.ofText_of_runsOn hr
      obtain ⟨htoken', hrest'⟩ := Lexeme.ofText_of_runsOn hline
      rw [List.append_cons, Lexeme.ofText_append_lf_of_runsOn hline]
      refine .inr ⟨htoken, ?_, htoken', ?_⟩
      · rw [hrest, hnil hlf]
      · rw [Lexeme.rest_extend, hrest', hnil hlf']
        rfl
  · exact .inl (Lexeme.ofText_append rfl hr h _)

/-- A clean lexeme is the same wherever it stands, unless it is a directive. -/
theorem ofText_self_or_directive (s : Bool) {s₀ : Bool} {b : UInt8} {bs : Bytes}
    (h : (Lexeme.ofText s₀ b bs).error = none) :
    (∀ ys, Lexeme.ofText s b ys = Lexeme.ofText s₀ b ys) ∨ b = Ascii.hash ∧ s₀ = true ∧ s = false := by
  by_cases hb : b = Ascii.hash
  · subst hb
    cases s₀ with
    | false => exact absurd h (Lexeme.error_ofText_hash _)
    | true =>
      cases s with
      | true => exact .inl fun _ => rfl
      | false => exact .inr ⟨rfl, rfl, rfl⟩
  · exact .inl fun ys => Lexeme.ofText_congr hb _ _ ys

/-- The same for a lexeme of a text that is clean alone, wherever the text stands. -/
theorem ofText_statement {s s₀ : Bool} {b : UInt8} {bs ys : Bytes}
    (h₀ : (Lexeme.ofText s₀ b bs).error = none)
    (h : (Lexeme.ofText s b (bs ++ Ascii.semicolon :: Ascii.lf :: ys)).error = none) :
    Lexeme.ofText s b (bs ++ Ascii.semicolon :: Ascii.lf :: ys) =
        (Lexeme.ofText s₀ b bs).extend (Ascii.semicolon :: Ascii.lf :: ys)
      ∨ (Lexeme.ofText s₀ b bs).token = none ∧ (Lexeme.ofText s₀ b bs).rest = []
        ∧ (Lexeme.ofText s b (bs ++ Ascii.semicolon :: Ascii.lf :: ys)).token = none
        ∧ (Lexeme.ofText s b (bs ++ Ascii.semicolon :: Ascii.lf :: ys)).rest = Ascii.lf :: ys := by
  rcases ofText_self_or_directive s h₀ with hs | ⟨rfl, -, rfl⟩
  · rw [hs]
    exact ofText_statement_self ys h₀
  · exact absurd h (Lexeme.error_ofText_hash _)

/-- A text that is clean alone has the same tokens in front of a semicolon and the end of the line,
if it is clean there. The semicolon may have become part of a comment. -/
theorem exists_scans_statement {c₀ c : Cursor} {bs ys : Bytes} (h₀ : (scanFrom c₀ bs).errors = [])
    (h : (scanFrom c (bs ++ Ascii.semicolon :: Ascii.lf :: ys)).errors = []) :
    ∃ ts us c', Scans c (bs ++ Ascii.semicolon :: Ascii.lf :: ys) (ts ++ us) c' ys
      ∧ (scanFrom c₀ bs).tokens.map (·.kind) = ts.map (·.kind) ++ [TokenKind.eof]
      ∧ (us = [] ∨ ∃ s, us = [⟨.punct .semicolon, s⟩]) := by
  induction hn : bs.length using Nat.strongRecOn generalizing c₀ c bs with
  | ind n ih =>
  cases bs with
  | nil =>
    obtain ⟨c', hc'⟩ := scans_semicolon c ys
    exact ⟨[], _, c', hc', by rw [scanFrom]; rfl, .inr ⟨_, rfl⟩⟩
  | cons b bs =>
    rw [List.cons_append] at h ⊢
    obtain ⟨he₀, hrest₀⟩ := errors_cons h₀
    obtain ⟨he, hrest⟩ := errors_cons h
    rcases ofText_statement he₀ he with heq | ⟨htoken₀, hnil, htoken, hlf⟩
    · rw [heq] at hrest
      have hlt := hn ▸ Lexeme.length_ofText_rest_lt c₀.startsLine b bs
      obtain ⟨ts, us, c', hscans, hkinds, hus⟩ := ih _ hlt hrest₀ hrest rfl
      refine ⟨tokenAt c (Lexeme.ofText c₀.startsLine b bs) ++ ts, us, c', ?_, ?_, hus⟩
      · rw [List.append_assoc]
        have hscans := Scans.lexeme heq.symm he₀ hscans
        exact hscans
      · rw [scanFrom_cons]
        simp [hkinds, kinds_tokenAt]
    · have hscans := Scans.lexeme rfl he (hlf ▸ scans_lf _ ys)
      rw [tokenAt, htoken] at hscans
      refine ⟨[], [], _, hscans, ?_, .inl rfl⟩
      rw [scanFrom_cons]
      simp [tokenAt, htoken₀, hnil, scanFrom]

end TokenStream

end ViewCompiler
