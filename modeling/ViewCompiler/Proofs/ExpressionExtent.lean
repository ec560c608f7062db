import ViewCompiler.Proofs.CodeBraces
import ViewCompiler.Proofs.GrammarSoundness

/-!
Where an expression in parentheses ends. A template finds the parenthesis that closes `@(` by counting
parentheses outside of strings (`Stretch.matching?`). What stands between is read with the lexemes of
the component language: an expression closes all parentheses that it opens (`Grammar.Term.parens_eq`),
and the lexemes of a text without comments are passed over with the same count
(`Stretch.Encloses.lexeme`). So the parenthesis behind an expression is the one that is found
(`Stretch.encloses_of_parse?`).
-/

namespace ViewCompiler

/-! ## Parentheses of words -/

namespace Grammar

/-- The number of open parentheses behind a word, if it closes none that is not open. -/
def parens (n : Nat) : Word → Option Nat
  | [] => some n
  | .punct .lparen :: w => parens (n + 1) w
  | .punct .rparen :: w =>
    match n with
    | 0 => none
    | n + 1 => parens n w
  | _ :: w => parens n w

theorem parens_append (n : Nat) (u w : Word) : parens n (u ++ w) = (parens n u).bind (parens · w) := by
  fun_induction parens n u <;> simp_all [parens]

theorem parens_cons {k : TokenKind} (hl : k ≠ .punct .lparen) (hr : k ≠ .punct .rparen) (n : Nat)
    (w : Word) : parens n (k :: w) = parens n w := by
  cases k with
  | punct p => cases p <;> first | contradiction | rfl
  | _ => rfl

/-- An expression has the partner of each of its parentheses. -/
theorem Term.parens_eq {p : Option Precedence} {e : Expr} {w : Word} (h : Term p e w) (n : Nat) :
    parens n w = some n := by
  induction h generalizing n with
  | int | string | true | false | name => rfl
  | not _ ih | neg _ ih => exact ih n
  | @paren e w _ ih =>
    have hinner : parens n (.punct .lparen :: (w ++ [TokenKind.punct .rparen])) =
        (parens (n + 1) w).bind (parens · [TokenKind.punct .rparen]) := parens_append (n + 1) w _
    rw [hinner, ih]
    rfl
  | tighter _ ih => exact ih n
  | @binary _ _ _ _ _ op _ _ ihu ihv =>
    rw [parens_append, ihu, Option.bind_some, parens_cons (by cases op <;> simp [BinaryOp.mark])
      (by cases op <;> simp [BinaryOp.mark]), ihv]

end Grammar

/-! ## Parentheses that match -/

namespace Stretch

/-- In front of a parenthesis and `zs`, the text `bs` is what stands before the parenthesis that closes
`depth` open ones. -/
def Encloses (depth : Nat) (bs zs : Bytes) : Prop :=
  matching? leadingString Ascii.lparen Ascii.rparen depth (bs ++ Ascii.rparen :: zs) = some bs.length

theorem leadingString_of_ne {b : UInt8} (h : b ≠ Ascii.quote) (bs : Bytes) :
    leadingString (b :: bs) = 0 := by
  rw [leadingString, if_neg (by simpa using h)]

/-- A closed string has the same length for the template, if no backslash ends a line of it. -/
theorem string_append {bs : Bytes} (hclosed : (Lexeme.stringBody bs).closed = true)
    (hb : ¬ [Ascii.backslash, Ascii.lf] <:+: (Lexeme.stringBody bs).raw) (ys : Bytes) :
    string (bs ++ ys) = (Lexeme.stringBody bs).raw.length := by
  fun_induction Lexeme.stringBody bs with
  | case1 | case3 | case4 => cases hclosed
  | case2 bs => exact string_quote _
  | case5 e bs r _ _ ih =>
    have he : e ≠ Ascii.lf := by
      rintro rfl
      exact hb ⟨[], r.raw, rfl⟩
    rw [List.cons_append, List.cons_append, string_escape he,
      ih hclosed fun hin => hb (hin.trans (List.suffix_append [_, _] _).isInfix)]
    rfl
  | case6 b bs hq hl hslash r ih =>
    rw [List.cons_append, string_cons hq hl hslash,
      ih hclosed fun hin => hb (hin.trans (List.suffix_cons _ _).isInfix)]
    rfl

/-- Bytes that start no string and are no parentheses. -/
def isLevel (b : UInt8) : Bool := b != Ascii.quote && b != Ascii.lparen && b != Ascii.rparen

namespace Encloses

variable {depth : Nat} {b : UInt8} {bs zs : Bytes}

theorem nil (zs : Bytes) : Encloses 1 [] zs := by
  have hskip := leadingString_of_ne (show Ascii.rparen ≠ Ascii.quote by decide) zs
  rw [Encloses, List.nil_append, matching?, if_neg (by omega), if_neg (by decide), if_pos rfl,
    if_pos (Nat.le_refl 1)]
  rfl

theorem lparen (h : Encloses (depth + 1) bs zs) : Encloses depth (Ascii.lparen :: bs) zs := by
  have hskip := leadingString_of_ne (show Ascii.lparen ≠ Ascii.quote by decide) (bs ++ Ascii.rparen :: zs)
  rw [Encloses, List.cons_append, matching?, if_neg (by omega), if_pos rfl, h]
  rfl

theorem rparen (h : Encloses (depth + 1) bs zs) : Encloses (depth + 2) (Ascii.rparen :: bs) zs := by
  have hskip := leadingString_of_ne (show Ascii.rparen ≠ Ascii.quote by decide) (bs ++ Ascii.rparen :: zs)
  rw [Encloses, List.cons_append, matching?, if_neg (by omega), if_neg (by decide), if_pos rfl,
    if_neg (by omega), Nat.add_sub_cancel (n := depth + 1) (m := 1), h]
  rfl

theorem level (hb : isLevel b = true) (h : Encloses depth bs zs) : Encloses depth (b :: bs) zs := by
  simp only [isLevel, Bool.and_eq_true, bne_iff_ne, ne_eq] at hb
  obtain ⟨⟨hq, ho⟩, hc⟩ := hb
  have hskip := leadingString_of_ne hq (bs ++ Ascii.rparen :: zs)
  rw [Encloses, List.cons_append, matching?, if_neg (by omega), if_neg ho, if_neg hc, h]
  rfl

theorem append {v : Bytes} (hv : ∀ b ∈ v, isLevel b = true) (h : Encloses depth bs zs) :
    Encloses depth (v ++ bs) zs := by
  induction v with
  | nil => exact h
  | cons b v ih =>
    rw [List.forall_mem_cons] at hv
    exact (ih hv.2).level hv.1

theorem string (hclosed : (Lexeme.stringBody bs).closed = true)
    (hb : ¬ [Ascii.backslash, Ascii.lf] <:+: (Lexeme.stringBody bs).raw)
    (h : Encloses depth (Lexeme.stringBody bs).rest zs) : Encloses depth (Ascii.quote :: bs) zs := by
  have hskip : leadingString (Ascii.quote :: (bs ++ Ascii.rparen :: zs)) =
      (Lexeme.stringBody bs).raw.length + 1 := congrArg (· + 1) (string_append hclosed hb _)
  have hraw := Lexeme.stringBody_raw_append_rest bs
  have hdrop : (bs ++ Ascii.rparen :: zs).drop (Lexeme.stringBody bs).raw.length =
      (Lexeme.stringBody bs).rest ++ Ascii.rparen :: zs := by
    have hsplit : bs ++ Ascii.rparen :: zs = (Lexeme.stringBody bs).raw ++
        ((Lexeme.stringBody bs).rest ++ Ascii.rparen :: zs) := by rw [← List.append_assoc, hraw]
    rw [hsplit, List.drop_left]
  rw [Encloses, List.cons_append, matching?, if_pos (by omega), hskip, List.drop_succ_cons, hdrop, h]
  have hlength := congrArg List.length hraw
  simp only [List.length_append] at hlength
  simp only [Option.map_some, List.length_cons]
  exact congrArg some (by omega)

end Encloses

/-! ## Lexemes that are passed over -/

theorem isLevel_of_isWording {b : UInt8} (h : isWording b = true) : isLevel b = true := by
  simp only [isLevel, Bool.and_eq_true, bne_iff_ne, ne_eq]
  refine ⟨⟨?_, ?_⟩, ?_⟩ <;> (rintro rfl; cases h)

/-- A mark of one byte is spelled by it. -/
theorem text_of_ofByte? {b : UInt8} {p : Punct} (h : Punct.ofByte? b = some p) : p.text = [b] := by
  have other {x : UInt8} {q : Punct} {r : Option Punct} (hq : q.text = [x])
      (hr : r = some p → p.text = [b]) (h : (if b = x then some q else r) = some p) :
      p.text = [b] := by
    split at h
    · next hb =>
      cases h
      rw [hq, hb]
    · exact hr h
  rw [Punct.ofByte?] at h
  revert h
  repeat refine other rfl ?_
  rintro ⟨⟩

/-- A mark of two bytes has no parenthesis in it. -/
theorem isLevel_of_ofTwoBytes? {b x : UInt8} {p : Punct} (h : Punct.ofTwoBytes? b x = some p) :
    isLevel b = true ∧ isLevel x = true ∧ p ≠ .lparen ∧ p ≠ .rparen := by
  rw [Punct.ofTwoBytes?] at h
  split at h
  · next hx =>
    subst hx
    repeat' split at h
    all_goals cases h <;> subst_vars <;> exact ⟨rfl, rfl, by decide, by decide⟩
  · split at h
    · next hpair =>
      obtain ⟨rfl, rfl⟩ := hpair
      cases h
      exact ⟨rfl, rfl, by decide, by decide⟩
    · split at h
      · next hpair =>
        obtain ⟨rfl, rfl⟩ := hpair
        cases h
        exact ⟨rfl, rfl, by decide, by decide⟩
      · cases h

namespace Encloses

open Grammar (parens)

variable {depth n m : Nat} {s : Bool} {b : UInt8} {bs zs : Bytes} {l : Lexeme}

/-- A lexeme without parentheses is passed over. -/
theorem flat (hraw : l.raw ++ l.rest = b :: bs) (hl : ∀ x ∈ l.raw, isLevel x = true)
    (hk : ∀ k, l.token = some k → k ≠ .punct .lparen ∧ k ≠ .punct .rparen)
    (hn : parens n l.token.toList = some m) (h : Encloses (m + 1) l.rest zs) :
    Encloses (n + 1) (b :: bs) zs := by
  have hsame : parens n l.token.toList = some n := by
    cases htoken : l.token with
    | none => rfl
    | some k => exact Grammar.parens_cons (hk k htoken).1 (hk k htoken).2 n []
  obtain rfl : n = m := Option.some.inj (hsame.symm.trans hn)
  rw [← hraw]
  exact h.append hl

theorem word (hb : Ascii.isNameStart b = true) (hn : parens n (Lexeme.ofWord b bs).token.toList = some m)
    (h : Encloses (m + 1) (Lexeme.ofWord b bs).rest zs) : Encloses (n + 1) (b :: bs) zs := by
  refine flat (l := Lexeme.ofWord b bs)
    (by simp [Lexeme.ofWord, List.takeWhile_append_dropWhile]) ?_ ?_ hn h
  · refine List.forall_mem_cons.2 ⟨?_, fun x hx => ?_⟩
    · exact isLevel_of_isWording (isWording_of_isNameByte (Ascii.isNameByte_of_isNameStart hb))
    · exact isLevel_of_isWording (isWording_of_isNameByte (List.mem_takeWhile_imp hx))
  · rintro _ ⟨⟩
    split <;> simp

theorem digits (hb : Ascii.isDigit b = true) (hn : parens n (Lexeme.ofDigits b bs).token.toList = some m)
    (h : Encloses (m + 1) (Lexeme.ofDigits b bs).rest zs) : Encloses (n + 1) (b :: bs) zs := by
  refine flat (Lexeme.ofDigits_raw_append_rest b bs) ?_ ?_ hn h
  · have hraw : (Lexeme.ofDigits b bs).raw = b :: bs.takeWhile Ascii.isDigit := by
      rw [Lexeme.ofDigits]
      split <;> rfl
    rw [hraw]
    exact List.forall_mem_cons.2 ⟨isLevel_of_isWording (isWording_of_isDigit hb), fun x hx =>
      isLevel_of_isWording (isWording_of_isDigit (List.mem_takeWhile_imp hx))⟩
  · intro k hk
    rw [Lexeme.ofDigits] at hk
    split at hk <;> (cases hk; simp)

/-- A mark is passed over, and a parenthesis changes the depth. -/
theorem mark (hq : b ≠ Ascii.quote) (he : (Lexeme.ofMark b bs).error = none)
    (hn : parens n (Lexeme.ofMark b bs).token.toList = some m)
    (h : Encloses (m + 1) (Lexeme.ofMark b bs).rest zs) : Encloses (n + 1) (b :: bs) zs := by
  cases htwo : bs.head?.bind (Punct.ofTwoBytes? b) with
  | some p =>
    simp only [Lexeme.ofMark, htwo] at hn h
    obtain ⟨x, hx, hp⟩ := Option.bind_eq_some_iff.1 htwo
    obtain ⟨hb, hlevel, hl, hr⟩ := isLevel_of_ofTwoBytes? hp
    cases bs with
    | nil => cases hx
    | cons y bs =>
      obtain rfl : y = x := Option.some.inj hx
      refine flat (l := { raw := [b, y], rest := bs, token := some (.punct p) }) rfl
        (by simp [hb, hlevel]) ?_ hn h
      rintro _ ⟨⟩
      exact ⟨by simpa using hl, by simpa using hr⟩
  | none =>
    cases hone : Punct.ofByte? b with
    | none => simp [Lexeme.ofMark, htwo, hone] at he
    | some p =>
      simp only [Lexeme.ofMark, htwo, hone] at hn h
      have htext := text_of_ofByte? hone
      by_cases ho : b = Ascii.lparen
      · subst ho
        cases hone
        cases hn
        exact h.lparen
      by_cases hc : b = Ascii.rparen
      · subst hc
        cases hone
        cases n with
        | zero => cases hn
        | succ n =>
          cases hn
          exact h.rparen
      refine flat (l := { raw := [b], rest := bs, token := some (.punct p) }) rfl
        (by simp [isLevel, hq, ho, hc]) ?_ hn h
      rintro _ ⟨⟩
      refine ⟨?_, ?_⟩ <;> (rintro ⟨⟩; cases htext; contradiction)

/-- The first lexeme of a text changes the depth as its token says. -/
theorem lexeme (hhash : b ≠ Ascii.hash) (he : (Lexeme.ofText s b bs).error = none)
    (hc : (Lexeme.ofText s b bs).isComment = false)
    (hu : (Lexeme.ofText s b bs).raw.head? = some Ascii.quote →
      ¬ [Ascii.backslash, Ascii.lf] <:+: (Lexeme.ofText s b bs).raw)
    (hn : parens n (Lexeme.ofText s b bs).token.toList = some m)
    (h : Encloses (m + 1) (Lexeme.ofText s b bs).rest zs) : Encloses (n + 1) (b :: bs) zs := by
  have hd : ¬ (b = Ascii.hash ∧ s = true) := fun hd => hhash hd.1
  rw [Lexeme.ofText, if_neg hd] at he hc hu hn h
  by_cases hblank : Lexeme.isBlank b = true
  · rw [if_pos hblank] at hn h
    refine flat rfl ?_ (by simp) hn h
    simpa using isLevel_of_isWording (show isWording b = true by simp [isWording, hblank])
  simp only [if_neg hblank] at he hc hu hn h
  by_cases hline : b = Ascii.slash ∧ bs.head? = some Ascii.slash
  · obtain ⟨rfl, hslash⟩ := hline
    obtain ⟨bs, rfl⟩ : ∃ bs', bs = Ascii.slash :: bs' := List.head?_eq_some_iff.1 hslash
    cases hc
  simp only [if_neg hline] at he hc hu hn h
  by_cases hblock : b = Ascii.slash ∧ bs.head? = some Ascii.star
  · obtain ⟨rfl, hstar⟩ := hblock
    obtain ⟨bs, rfl⟩ : ∃ bs', bs = Ascii.star :: bs' := List.head?_eq_some_iff.1 hstar
    rw [if_pos ⟨rfl, rfl⟩, Lexeme.ofBlockComment] at hc
    split at hc <;> cases hc
  simp only [if_neg hblock] at he hc hu hn h
  by_cases hword : Ascii.isNameStart b = true
  · simp only [if_pos hword] at hn h
    exact word hword hn h
  simp only [if_neg hword] at he hu hn h
  by_cases hdigit : Ascii.isDigit b = true
  · simp only [if_pos hdigit] at hn h
    exact digits hdigit hn h
  simp only [if_neg hdigit] at he hu hn h
  by_cases hq : b = Ascii.quote
  · subst hq
    simp only [if_true] at he hu hn h
    cases hn
    have hclosed : (Lexeme.stringBody bs).closed = true := by
      rw [Lexeme.ofString] at he
      split at he
      · assumption
      · cases he
    exact h.string hclosed fun hin => hu rfl (hin.trans (List.suffix_cons _ _).isInfix)
  · simp only [if_neg hq] at he hn h
    exact mark hq he hn h

end Encloses

end Stretch

namespace TokenStream

open Grammar (parens)
open Stretch (Encloses)

/-- A text without directives and comments closes the parentheses that its tokens close. -/
theorem encloses_of_parens {c : Cursor} {bs : Bytes} {ts : List Token} {t : Token} {n : Nat}
    (hhash : ∀ l ∈ lexemesFrom c bs, l.raw.head? ≠ some Ascii.hash)
    (hc : ∀ l ∈ lexemesFrom c bs, l.isComment = false) (hu : Unbroken c bs)
    (herrors : (scanFrom c bs).errors = []) (htokens : (scanFrom c bs).tokens = ts ++ [t])
    (hn : parens n (ts.map (·.kind)) = some 0) (zs : Bytes) : Encloses (n + 1) bs zs := by
  induction hlength : bs.length using Nat.strongRecOn generalizing c bs ts t n with
  | ind length ih =>
  cases bs with
  | nil =>
    rw [scanFrom] at htokens
    have hnil : [] ++ [(⟨.eof, c.span⟩ : Token)] = ts ++ [t] := htokens
    obtain ⟨rfl, -⟩ := List.append_inj' hnil rfl
    cases hn
    exact .nil zs
  | cons b bs =>
    let l := Lexeme.ofText c.startsLine b bs
    have hmem : l ∈ lexemesFrom c (b :: bs) := by
      rw [lexemesFrom]
      exact List.mem_cons_self
    have htail : ∀ m ∈ lexemesFrom (c.after l) l.rest, m ∈ lexemesFrom c (b :: bs) := by
      intro m hm
      rw [lexemesFrom]
      exact List.mem_cons_of_mem _ hm
    obtain ⟨he, hrest⟩ := errors_cons herrors
    obtain ⟨us, e, hus, -⟩ := exists_tokens_eq (c.after l) l.rest
    rw [scanFrom_cons] at htokens
    have hsplit : (tokenAt c l ++ us) ++ [e] = ts ++ [t] := by
      rw [List.append_assoc, ← hus]
      exact htokens
    obtain ⟨rfl, -⟩ := List.append_inj' hsplit rfl
    rw [List.map_append, kinds_tokenAt, Grammar.parens_append] at hn
    obtain ⟨m, hm, hn⟩ := Option.bind_eq_some_iff.1 hn
    have hlt : l.rest.length < length := hlength ▸ Lexeme.length_ofText_rest_lt _ _ _
    have h := ih _ hlt (fun x hx => hhash x (htail x hx)) (fun x hx => hc x (htail x hx))
      (fun x hx => hu x (htail x hx)) hrest hus hn rfl
    refine Encloses.lexeme ?_ he (hc l hmem) (hu l hmem) hm h
    rintro rfl
    exact hhash l hmem (Lexeme.head?_ofText_raw _ _ _)

/-- In front of a parenthesis, an expression is what stands before the parenthesis that is found. -/
theorem encloses_of_parse? {code : Bytes} (h : (Expr.parse? code).isSome = true) (hp : Plain code)
    (hu : Unbroken {} code) (zs : Bytes) : Encloses 1 code zs := by
  obtain ⟨e, he⟩ := Option.isSome_iff_exists.1 h
  obtain ⟨hclean, ts, t, htokens, ht, -, hread⟩ := expr_of_parse? he
  have hderives : Reading.Derives Grammar.Expression (ts ++ [t]) (Tokens.expr (ts ++ [t])) :=
    Tokens.derives_expr
  obtain ⟨_, w, rest, hsplit, heq, hw⟩ := hderives (by rw [hread]; rfl)
  rw [hread] at heq
  obtain rfl : [t] = rest := congrArg Reading.rest heq
  obtain ⟨rfl, -⟩ := List.append_inj' hsplit rfl
  exact encloses_of_parens hp.inline.directive hp.comment hu hclean htokens (hw.parens_eq 0) zs

end TokenStream

end ViewCompiler
