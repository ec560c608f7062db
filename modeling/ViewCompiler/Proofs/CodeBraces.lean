import ViewCompiler.Proofs.PrintedTokens
import ViewCompiler.Template.Parse

/-!
Braces in the text of a code block. A template finds the end of a code block by counting braces
outside of strings and comments (`Stretch.matching?`), and the component language cuts the same text
into lexemes. Both pass over the same bytes, lexeme by lexeme (`Stretch.Closes.lexeme`), unless a
backslash ends a line of a string: there the string ends for the template and goes on for the other
(`TokenStream.Unbroken` excludes that). So the tokens of a code block are balanced
(`TokenStream.exists_scans_balanced`).
-/

namespace ViewCompiler

/-! ## Strings and comments -/

theorem Bytes.startsWith_pair {b x y : UInt8} {bs : Bytes} :
    Bytes.startsWith (b :: bs) [x, y] = true ↔ b = x ∧ bs.head? = some y := by
  cases bs with
  | nil => simp [Bytes.startsWith]
  | cons c bs =>
    rw [Bytes.startsWith, List.isPrefixOf_iff_prefix, List.cons_prefix_cons, List.cons_prefix_cons]
    simp only [List.nil_prefix, and_true, List.head?_cons, Option.some.injEq]
    exact and_congr eq_comm eq_comm

/-- A comment that ends in front of `ys` ends there without it. -/
theorem Lexeme.splitComment_of_append {bs ys body rest : Bytes}
    (h : splitComment (bs ++ ys) = some (body, rest)) (hle : body.length ≤ bs.length) :
    ∃ rest', splitComment bs = some (body, rest') := by
  induction bs generalizing body with
  | nil =>
    obtain rfl : body = [] := List.length_eq_zero_iff.1 (by simpa using hle)
    have hnil {ys rest : Bytes} : splitComment ys ≠ some ([], rest) := by
      cases ys with
      | nil => simp [splitComment]
      | cons y ys =>
        rw [splitComment]
        split <;> simp
    exact absurd h hnil
  | cons b bs ih =>
    rw [List.cons_append, splitComment] at h
    rw [splitComment]
    split at h
    · next hend =>
      cases h
      cases bs with
      | nil => simp at hle
      | cons c bs =>
        rw [if_pos (by simpa using hend)]
        exact ⟨_, rfl⟩
    · next hgo =>
      obtain ⟨⟨body', rest'⟩, hbody, hp⟩ := Option.map_eq_some_iff.1 h
      cases hp
      have hgo' : ¬ (b = Ascii.star ∧ bs.head? = some Ascii.slash) := by
        rintro ⟨rfl, hhead⟩
        refine hgo ⟨rfl, ?_⟩
        cases bs with
        | nil => cases hhead
        | cons c bs => exact hhead
      obtain ⟨rest'', hbs⟩ := ih hbody (by simpa using hle)
      rw [if_neg hgo', hbs]
      exact ⟨rest'', rfl⟩

namespace Stretch

theorem leadingTrivia_of_ne {b : UInt8} {bs : Bytes} (hq : b ≠ Ascii.quote) (hs : b ≠ Ascii.slash) :
    leadingTrivia (b :: bs) = 0 := by
  have hpair (y : UInt8) : ¬ Bytes.startsWith (b :: bs) [Ascii.slash, y] = true :=
    fun h => hs (Bytes.startsWith_pair.1 h).1
  rw [leadingTrivia, if_neg (by simpa using hq)]
  exact (if_neg (hpair Ascii.slash)).trans (if_neg (hpair Ascii.star))

theorem leadingTrivia_quote (bs : Bytes) : leadingTrivia (Ascii.quote :: bs) = string bs + 1 := rfl

theorem leadingTrivia_line (bs : Bytes) : leadingTrivia (Ascii.slash :: Ascii.slash :: bs) =
    (bs.takeWhile (· ≠ Ascii.lf)).length + 2 := rfl

theorem leadingTrivia_block (bs : Bytes) : leadingTrivia (Ascii.slash :: Ascii.star :: bs) =
    ((through? "*/" bs).map (· + 2)).getD (bs.length + 2) := rfl

theorem leadingTrivia_slash {bs : Bytes} (hl : bs.head? ≠ some Ascii.slash)
    (hb : bs.head? ≠ some Ascii.star) : leadingTrivia (Ascii.slash :: bs) = 0 := by
  have hpair {y : UInt8} (hy : bs.head? ≠ some y) :
      ¬ Bytes.startsWith (Ascii.slash :: bs) [Ascii.slash, y] = true :=
    fun h => hy (Bytes.startsWith_pair.1 h).2
  rw [leadingTrivia, if_neg (by rw [List.head?_cons]; decide)]
  exact (if_neg (hpair hl)).trans (if_neg (hpair hb))

/-- Both count the bytes of a block comment in the same way. -/
theorem through?_eq (bs : Bytes) :
    through? "*/" bs = (Lexeme.splitComment bs).map (·.1.length) := by
  induction bs with
  | nil => rfl
  | cons b bs ih =>
    rw [through?, Lexeme.splitComment]
    by_cases h : b = Ascii.star ∧ bs.head? = some Ascii.slash
    · rw [if_pos h]
      exact if_pos (Bytes.startsWith_pair.2 h)
    · rw [if_neg h, ih, Option.map_map, Option.map_map]
      exact if_neg fun hs => h (Bytes.startsWith_pair.1 hs)

end Stretch

/-! ## Braces that match -/

namespace Stretch

/-- What is found is a closing byte. -/
theorem exists_of_matching? {skip : Bytes → Nat} {opening closing : UInt8} {depth n : Nat} {bs : Bytes}
    (h : matching? skip opening closing depth bs = some n) :
    ∃ v zs, bs = v ++ closing :: zs ∧ v.length = n := by
  fun_induction matching? skip opening closing depth bs generalizing n with
  | case1 => cases h
  | case2 depth b rest hskip ih =>
    obtain ⟨m, hm, rfl⟩ := Option.map_eq_some_iff.1 h
    obtain ⟨v, zs, hv, rfl⟩ := ih hm
    have htext := List.take_append_drop (skip (b :: rest)) (b :: rest)
    have hlen : skip (b :: rest) ≤ (b :: rest).length := by
      have hpos := congrArg List.length hv
      simp only [List.length_drop, List.length_append, List.length_cons] at hpos
      simp only [List.length_cons]
      omega
    refine ⟨(b :: rest).take (skip (b :: rest)) ++ v, zs, ?_, ?_⟩
    · rw [List.append_assoc, ← hv, htext]
    · rw [List.length_append, List.length_take, Nat.min_eq_left hlen, Nat.add_comm]
  | case3 depth rest hskip ih =>
    obtain ⟨m, hm, rfl⟩ := Option.map_eq_some_iff.1 h
    obtain ⟨v, zs, rfl, rfl⟩ := ih hm
    exact ⟨opening :: v, zs, rfl, rfl⟩
  | case4 depth rest hskip hopening hdepth =>
    cases h
    exact ⟨[], rest, rfl, rfl⟩
  | case5 depth rest hskip hopening hdepth ih =>
    obtain ⟨m, hm, rfl⟩ := Option.map_eq_some_iff.1 h
    obtain ⟨v, zs, rfl, rfl⟩ := ih hm
    exact ⟨closing :: v, zs, rfl, rfl⟩
  | case6 depth b rest hskip hopening hclosing ih =>
    obtain ⟨m, hm, rfl⟩ := Option.map_eq_some_iff.1 h
    obtain ⟨v, zs, rfl, rfl⟩ := ih hm
    exact ⟨b :: v, zs, rfl, rfl⟩

/-- In front of a brace and `zs`, the text `bs` is what stands before the brace that closes `depth`
open ones. -/
def Closes (depth : Nat) (bs zs : Bytes) : Prop :=
  matching? leadingTrivia Ascii.lbrace Ascii.rbrace depth (bs ++ Ascii.rbrace :: zs) = some bs.length

namespace Closes

variable {depth : Nat} {b : UInt8} {bs zs : Bytes}

/-- Strings and comments are passed over as a whole. -/
theorem trivia (h : Closes depth bs zs) (hpos : 0 < leadingTrivia (bs ++ Ascii.rbrace :: zs)) :
    leadingTrivia (bs ++ Ascii.rbrace :: zs) ≤ bs.length
      ∧ Closes depth (bs.drop (leadingTrivia (bs ++ Ascii.rbrace :: zs))) zs := by
  rw [Closes] at h
  cases htext : bs ++ Ascii.rbrace :: zs with
  | nil => simp at htext
  | cons x rest =>
    rw [htext] at h hpos
    rw [matching?, if_pos hpos] at h
    obtain ⟨n, hn, hlen⟩ := Option.map_eq_some_iff.1 h
    have hle : leadingTrivia (x :: rest) ≤ bs.length := by omega
    refine ⟨hle, ?_⟩
    rw [Closes, List.length_drop, ← List.drop_append_of_le_length hle, htext, hn]
    exact congrArg some (by omega)

/-- A byte that starts no string or comment and is no brace is passed over. -/
theorem step (h : Closes depth (b :: bs) zs)
    (hskip : leadingTrivia (b :: (bs ++ Ascii.rbrace :: zs)) = 0) (ho : b ≠ Ascii.lbrace)
    (hc : b ≠ Ascii.rbrace) : Closes depth bs zs := by
  rw [Closes, List.cons_append, matching?, if_neg (by omega), if_neg ho, if_neg hc] at h
  obtain ⟨n, hn, hlen⟩ := Option.map_eq_some_iff.1 h
  rw [Closes, hn]
  exact congrArg some (by simpa using hlen)

theorem lbrace (h : Closes depth (Ascii.lbrace :: bs) zs) : Closes (depth + 1) bs zs := by
  have hskip := @leadingTrivia_of_ne Ascii.lbrace (bs ++ Ascii.rbrace :: zs) (by decide) (by decide)
  rw [Closes, List.cons_append, matching?, if_neg (by omega), if_pos rfl] at h
  obtain ⟨n, hn, hlen⟩ := Option.map_eq_some_iff.1 h
  rw [Closes, hn]
  exact congrArg some (by simpa using hlen)

theorem rbrace (h : Closes depth (Ascii.rbrace :: bs) zs) : 1 < depth ∧ Closes (depth - 1) bs zs := by
  have hskip := @leadingTrivia_of_ne Ascii.rbrace (bs ++ Ascii.rbrace :: zs) (by decide) (by decide)
  rw [Closes, List.cons_append, matching?, if_neg (by omega), if_neg (by decide), if_pos rfl] at h
  split at h
  · simp at h
  · next hdepth =>
    obtain ⟨n, hn, hlen⟩ := Option.map_eq_some_iff.1 h
    refine ⟨by omega, ?_⟩
    rw [Closes, hn]
    exact congrArg some (by simpa using hlen)

/-- The text is at its end when the last brace is closed. -/
theorem depth_eq (h : Closes (depth + 1) [] zs) : depth = 0 := by
  have hskip := @leadingTrivia_of_ne Ascii.rbrace zs (by decide) (by decide)
  rw [Closes, List.nil_append, matching?, if_neg (by omega), if_neg (by decide), if_pos rfl] at h
  split at h
  · omega
  · simp at h

end Closes

/-! ## Lexemes that are passed over -/

/-- Bytes that start no string or comment and are no braces. -/
def isNeutral (b : UInt8) : Bool :=
  b != Ascii.quote && b != Ascii.slash && b != Ascii.lbrace && b != Ascii.rbrace

theorem Closes.neutral {depth : Nat} {v bs zs : Bytes} (h : Closes depth (v ++ bs) zs)
    (hv : ∀ b ∈ v, isNeutral b = true) : Closes depth bs zs := by
  induction v with
  | nil => exact h
  | cons b v ih =>
    rw [List.forall_mem_cons] at hv
    have hb := hv.1
    simp only [isNeutral, Bool.and_eq_true, bne_iff_ne, ne_eq] at hb
    obtain ⟨⟨⟨hq, hs⟩, ho⟩, hc⟩ := hb
    exact ih (h.step (leadingTrivia_of_ne hq hs) ho hc) hv.2

theorem string_quote (bs : Bytes) : string (Ascii.quote :: bs) = 1 := by
  rw [string.eq_def]
  rfl

theorem string_escape {e : UInt8} (he : e ≠ Ascii.lf) (bs : Bytes) :
    string (Ascii.backslash :: e :: bs) = string bs + 2 := by
  rw [string.eq_def]
  exact if_neg he

theorem string_cons {b : UInt8} (hq : b ≠ Ascii.quote) (hl : b ≠ Ascii.lf) (hb : b ≠ Ascii.backslash)
    (bs : Bytes) : string (b :: bs) = string bs + 1 := by
  rw [string.eq_def]
  simp only [if_neg hq, if_neg hl, if_neg hb]

/-- A string that ends in front of a brace ends there as a lexeme, or it is not closed on its line.
A backslash in front of a line feed ends it for the template only. -/
theorem string_eq {bs zs : Bytes} (hb : ¬ [Ascii.backslash, Ascii.lf] <:+: (Lexeme.stringBody bs).raw)
    (h : string (bs ++ Ascii.rbrace :: zs) ≤ bs.length) :
    if (Lexeme.stringBody bs).closed then
      string (bs ++ Ascii.rbrace :: zs) = (Lexeme.stringBody bs).raw.length
    else ∀ ys, (Lexeme.stringBody (bs ++ Ascii.lf :: ys)).closed = false := by
  fun_induction Lexeme.stringBody bs with
  | case1 =>
    rw [List.nil_append, string_cons (by decide) (by decide) (by decide)] at h
    simp at h
  | case2 bs => exact string_quote _
  | case3 bs =>
    intro ys
    rw [List.cons_append, Lexeme.stringBody_lf]
  | case4 =>
    rw [List.cons_append, List.nil_append, string_escape (by decide)] at h
    simp at h
  | case5 e bs r _ _ ih =>
    have he : e ≠ Ascii.lf := by
      rintro rfl
      exact hb ⟨[], r.raw, rfl⟩
    rw [List.cons_append, List.cons_append, string_escape he] at h ⊢
    have ih := ih (fun hin => hb (hin.trans (List.suffix_append [_, _] _).isInfix))
      (by simpa using h)
    split at ih
    · next hclosed =>
      rw [if_pos hclosed, ih]
      rfl
    · next hopen =>
      rw [if_neg hopen]
      intro ys
      rw [List.cons_append, List.cons_append, Lexeme.stringBody_escape]
      exact ih ys
  | case6 b bs hq hl hslash r ih =>
    rw [List.cons_append, string_cons hq hl hslash] at h ⊢
    have ih := ih (fun hin => hb (hin.trans (List.suffix_cons _ _).isInfix)) (by simpa using h)
    split at ih
    · next hclosed =>
      rw [if_pos hclosed, ih]
      rfl
    · next hopen =>
      rw [if_neg hopen]
      intro ys
      rw [List.cons_append, Lexeme.stringBody_cons hq hl hslash]
      exact ih ys

/-- A block comment that ends in front of a brace ends there as a lexeme. -/
theorem exists_splitComment {bs zs : Bytes}
    (h : leadingTrivia (Ascii.slash :: Ascii.star :: (bs ++ Ascii.rbrace :: zs)) ≤ bs.length + 2) :
    ∃ body rest, Lexeme.splitComment bs = some (body, rest)
      ∧ leadingTrivia (Ascii.slash :: Ascii.star :: (bs ++ Ascii.rbrace :: zs)) = body.length + 2 := by
  rw [leadingTrivia_block, through?_eq] at h ⊢
  cases hsplit : Lexeme.splitComment (bs ++ Ascii.rbrace :: zs) with
  | none =>
    simp only [hsplit, Option.map_none, Option.getD_none, List.length_append, List.length_cons] at h
    omega
  | some p =>
    obtain ⟨body, rest⟩ := p
    simp only [hsplit, Option.map_some, Option.getD_some] at h ⊢
    obtain ⟨rest', hbs⟩ := Lexeme.splitComment_of_append hsplit (by omega)
    exact ⟨body, rest', hbs, rfl⟩

end Stretch

/-! ## Lexemes of neutral bytes -/

open Stretch (isNeutral)

/-- Bytes of words, numbers and names, and the blanks between them. -/
def isWording (b : UInt8) : Bool := Ascii.isNameByte b || Lexeme.isBlank b || b == Ascii.dot

theorem isNeutral_of_isWording {b : UInt8} (h : isWording b = true) : isNeutral b = true := by
  simp only [isNeutral, Bool.and_eq_true, bne_iff_ne, ne_eq]
  refine ⟨⟨⟨?_, ?_⟩, ?_⟩, ?_⟩ <;> (rintro rfl; cases h)

theorem isWording_of_isNameByte {b : UInt8} (h : Ascii.isNameByte b = true) : isWording b = true := by
  simp [isWording, h]

theorem isWording_of_isDigit {b : UInt8} (h : Ascii.isDigit b = true) : isWording b = true :=
  isWording_of_isNameByte (Ascii.isNameByte_of_isDigit h)

theorem isNeutral_of_isNameByte {b : UInt8} (h : Ascii.isNameByte b = true) : isNeutral b = true :=
  isNeutral_of_isWording (isWording_of_isNameByte h)

theorem isNeutral_of_isDigit {b : UInt8} (h : Ascii.isDigit b = true) : isNeutral b = true :=
  isNeutral_of_isWording (isWording_of_isDigit h)

theorem isNeutral_of_isBlank {b : UInt8} (h : Lexeme.isBlank b = true) : isNeutral b = true :=
  isNeutral_of_isWording (by simp [isWording, h])

theorem Bytes.mem_trim {p : UInt8 → Bool} {s : Bytes} {b : UInt8} (h : b ∈ s) :
    p b = true ∨ b ∈ Bytes.trim p s := by
  have hdrop {s : Bytes} (h : b ∈ s) : p b = true ∨ b ∈ s.dropWhile p := by
    rw [← List.takeWhile_append_dropWhile (p := p) (l := s)] at h
    exact (List.mem_append.1 h).imp_left List.mem_takeWhile_imp
  rcases hdrop h with hp | hleft
  · exact .inl hp
  · rcases hdrop (List.mem_reverse.2 hleft) with hp | hright
    · exact .inl hp
    · exact .inr (List.mem_reverse.2 hright)

namespace Lexeme

/-- A directive that means something has a number or a word in it. -/
theorem isWording_of_directive {line : Bytes} {m : LineMapping} (h : directive line = .ok m) :
    ∃ l, line = Ascii.hash :: l ∧ ∀ b ∈ l, isWording b = true := by
  dsimp only [directive] at h
  generalize hcut : (if line.getLast? = some Ascii.cr then line.dropLast else line) = cut at h
  have hline : ∃ us, line = cut ++ us ∧ ∀ b ∈ us, b = Ascii.cr := by
    subst hcut
    split
    · next hlast =>
      obtain ⟨v, rfl⟩ := List.getLast?_eq_some_iff.1 hlast
      exact ⟨[Ascii.cr], by rw [List.dropLast_concat], by simp⟩
    · exact ⟨[], by simp, by simp⟩
  obtain ⟨us, rfl, hus⟩ := hline
  split at h
  · next hstart =>
    have hstart : ("#line " : Bytes) <+: cut := List.isPrefixOf_iff_prefix.1 hstart
    obtain ⟨argument, rfl⟩ := hstart
    have hdrop : List.drop 6 (("#line " : Bytes) ++ argument) = argument := rfl
    rw [hdrop] at h
    refine ⟨("line " : Bytes) ++ (argument ++ us), by rw [List.append_assoc]; rfl, ?_⟩
    have hall : ("line " : Bytes).all isWording = true := by decide
    refine List.forall_mem_append.2 ⟨List.all_eq_true.1 hall, List.forall_mem_append.2 ⟨fun b hb => ?_,
      fun b hb => hus b hb ▸ rfl⟩⟩
    rcases Bytes.mem_trim (p := (· = Ascii.space)) hb with hspace | hmem
    · rw [of_decide_eq_true hspace]
      rfl
    split at h
    · next hdefault =>
      have hall : ("default" : Bytes).all isWording = true := by decide
      exact List.all_eq_true.1 hall b (hdefault ▸ hmem)
    · split at h
      · next n hn =>
        rw [Bytes.toNat?] at hn
        split at hn
        · next hdigits => exact isWording_of_isDigit (List.all_eq_true.1 hdigits.2 b hmem)
        · cases hn
      · cases h
  · cases h

theorem isNeutral_of_directive {line : Bytes} {m : LineMapping} (h : directive line = .ok m) :
    ∀ b ∈ line, isNeutral b = true := by
  obtain ⟨l, rfl, hl⟩ := isWording_of_directive h
  exact List.forall_mem_cons.2 ⟨rfl, fun b hb => isNeutral_of_isWording (hl b hb)⟩

/-- A mark of two bytes has no brace in it. -/
theorem isNeutral_of_ofTwoBytes? {b x : UInt8} {p : Punct} (h : Punct.ofTwoBytes? b x = some p) :
    isNeutral b = true ∧ isNeutral x = true ∧ (TokenKind.punct p).isPlain = true := by
  rw [Punct.ofTwoBytes?] at h
  split at h
  · next hx =>
    subst hx
    repeat' split at h
    all_goals cases h <;> subst_vars <;> exact ⟨rfl, rfl, rfl⟩
  · split at h
    · next hpair =>
      obtain ⟨rfl, rfl⟩ := hpair
      cases h
      exact ⟨rfl, rfl, rfl⟩
    · split at h
      · next hpair =>
        obtain ⟨rfl, rfl⟩ := hpair
        cases h
        exact ⟨rfl, rfl, rfl⟩
      · cases h

/-- A mark of one byte that is no brace is a plain token. -/
theorem isPlain_of_ofByte? {b : UInt8} {p : Punct} (h : Punct.ofByte? b = some p)
    (ho : b ≠ Ascii.lbrace) (hc : b ≠ Ascii.rbrace) : (TokenKind.punct p).isPlain = true := by
  have other {q : Punct} {c : Prop} [Decidable c] {r : Option Punct} (hq : (TokenKind.punct q).isPlain = true)
      (hr : r = some p → (TokenKind.punct p).isPlain = true) (h : (if c then some q else r) = some p) :
      (TokenKind.punct p).isPlain = true := by
    split at h
    · cases h
      exact hq
    · exact hr h
  rw [Punct.ofByte?, if_neg ho, if_neg hc] at h
  revert h
  repeat refine other rfl ?_
  exact nofun

end Lexeme

/-! ## Code blocks -/

namespace Stretch

open Tokens (nest)
open TokenStream (tokenAt)

/-- Nothing is wrong with the lexeme; its braces change the depth as they change it for the template,
for which the text behind the lexeme still ends where it did. -/
def Passes (depth : Nat) (zs : Bytes) (l : Lexeme) : Prop :=
  l.error = none ∧ ∃ depth', (∀ c, nest depth (tokenAt c l) = some depth')
    ∧ Closes (depth' + 1) l.rest zs

namespace Closes

variable {depth : Nat} {s : Bool} {b : UInt8} {bs ys zs : Bytes} {l : Lexeme}

/-- A lexeme that is no brace. -/
theorem passes (he : l.error = none) (hk : ∀ k, l.token = some k → k.isPlain = true)
    (h : Closes (depth + 1) l.rest zs) : Passes depth zs l := by
  refine ⟨he, depth, fun c => ?_, h⟩
  rw [tokenAt]
  cases hk' : l.token with
  | none => rfl
  | some k =>
    have hplain : nest depth [(⟨k, c.span⟩ : Token)] = nest depth [] :=
      Tokens.nest_cons_of_isPlain (hk k hk') depth []
    exact hplain

theorem passes_neutral (h : Closes (depth + 1) (b :: bs) zs) (he : l.error = none)
    (hraw : l.raw ++ l.rest = b :: bs) (hn : ∀ b ∈ l.raw, isNeutral b = true)
    (hk : ∀ k, l.token = some k → k.isPlain = true) : Passes depth zs l :=
  passes he hk (neutral (hraw ▸ h) hn)

theorem passes_directive (h : Closes (depth + 1) (b :: bs) zs)
    (he : (Lexeme.ofDirective (b :: bs)).error = none) : Passes depth zs (Lexeme.ofDirective (b :: bs)) := by
  have hraw := Lexeme.ofDirective_raw_append_rest (b :: bs)
  refine h.passes_neutral he hraw ?_ ?_
  · rw [Lexeme.ofDirective] at he ⊢
    split at he
    · next m hm =>
      exact Lexeme.isNeutral_of_directive hm
    · cases he
  · intro k hk
    rw [Lexeme.ofDirective] at hk
    split at hk <;> cases hk

theorem passes_word (h : Closes (depth + 1) (b :: bs) zs) (hb : Ascii.isNameStart b = true) :
    Passes depth zs (Lexeme.ofWord b bs) := by
  refine h.passes_neutral rfl (by simp [Lexeme.ofWord, List.takeWhile_append_dropWhile]) ?_ ?_
  · refine List.forall_mem_cons.2 ⟨?_, fun x hx => ?_⟩
    · exact isNeutral_of_isNameByte (Ascii.isNameByte_of_isNameStart hb)
    · exact isNeutral_of_isNameByte (List.mem_takeWhile_imp hx)
  · rintro _ ⟨⟩
    split <;> rfl

theorem passes_digits (h : Closes (depth + 1) (b :: bs) zs) (hb : Ascii.isDigit b = true)
    (he : (Lexeme.ofDigits b bs).error = none) : Passes depth zs (Lexeme.ofDigits b bs) := by
  refine h.passes_neutral he (Lexeme.ofDigits_raw_append_rest b bs) ?_ ?_
  · have hraw : (Lexeme.ofDigits b bs).raw = b :: bs.takeWhile Ascii.isDigit := by
      rw [Lexeme.ofDigits]
      split <;> rfl
    rw [hraw]
    exact List.forall_mem_cons.2 ⟨isNeutral_of_isDigit hb, fun x hx =>
      isNeutral_of_isDigit (List.mem_takeWhile_imp hx)⟩
  · intro k hk
    rw [Lexeme.ofDigits] at hk
    split at hk <;> (cases hk; rfl)

theorem passes_lineComment (h : Closes (depth + 1) (Ascii.slash :: Ascii.slash :: bs) zs) :
    Passes depth zs { raw := Ascii.slash :: Ascii.slash :: bs.takeWhile (· ≠ Ascii.lf)
                      rest := bs.dropWhile (· ≠ Ascii.lf) } := by
  obtain ⟨hle, h⟩ := h.trivia (Nat.succ_pos _)
  have hlength : leadingTrivia (Ascii.slash :: Ascii.slash :: (bs ++ Ascii.rbrace :: zs)) =
      (bs.takeWhile (· ≠ Ascii.lf)).length + 2 := by
    simp only [List.cons_append, leadingTrivia_line, List.length_cons] at hle ⊢
    rw [List.takeWhile_append] at hle ⊢
    split
    · next hall =>
      rw [if_pos hall, List.length_append, List.takeWhile_cons, if_pos (by decide)] at hle
      simp only [List.length_cons] at hle
      omega
    · rfl
  refine passes rfl (by simp) ?_
  have hdrop : (bs.takeWhile (· ≠ Ascii.lf) ++ bs.dropWhile (· ≠ Ascii.lf)).drop
      (bs.takeWhile (· ≠ Ascii.lf)).length = bs.dropWhile (· ≠ Ascii.lf) := List.drop_left
  rw [List.takeWhile_append_dropWhile] at hdrop
  rw [List.cons_append, List.cons_append, hlength, List.drop_succ_cons, List.drop_succ_cons, hdrop] at h
  exact h

theorem passes_blockComment (h : Closes (depth + 1) (Ascii.slash :: Ascii.star :: bs) zs) :
    Passes depth zs (Lexeme.ofBlockComment [Ascii.slash, Ascii.star] bs) := by
  have hpos : 0 < leadingTrivia (Ascii.slash :: Ascii.star :: (bs ++ Ascii.rbrace :: zs)) := by
    rw [leadingTrivia_block]
    cases through? "*/" (bs ++ Ascii.rbrace :: zs) <;> simp
  obtain ⟨hle, h⟩ := h.trivia hpos
  obtain ⟨body, rest, hsplit, hlength⟩ := exists_splitComment hle
  have hbody := Lexeme.splitComment_append hsplit
  rw [List.cons_append, List.cons_append, hlength, List.drop_succ_cons, List.drop_succ_cons, ← hbody,
    List.drop_left] at h
  rw [Lexeme.ofBlockComment, hsplit]
  exact passes rfl (by simp) h

theorem passes_string (h : Closes (depth + 1) (Ascii.quote :: bs) zs)
    (hs : ¬ [Ascii.backslash, Ascii.lf] <:+: (Lexeme.ofString Ascii.quote bs).raw)
    (he : (Lexeme.ofString Ascii.quote (bs ++ Ascii.lf :: ys)).error = none) :
    Passes depth zs (Lexeme.ofString Ascii.quote bs) := by
  obtain ⟨hle, h⟩ := h.trivia (Nat.succ_pos _)
  rw [List.cons_append, leadingTrivia_quote] at hle h
  have hbody := string_eq (fun hin => hs (hin.trans (List.suffix_cons _ _).isInfix))
    (Nat.le_of_succ_le_succ hle)
  split at hbody
  · next hclosed =>
    have hdrop : ((Lexeme.stringBody bs).raw ++ (Lexeme.stringBody bs).rest).drop
        (Lexeme.stringBody bs).raw.length = (Lexeme.stringBody bs).rest := List.drop_left
    rw [Lexeme.stringBody_raw_append_rest] at hdrop
    rw [hbody, List.drop_succ_cons, hdrop] at h
    refine passes ?_ ?_ h
    · simp [Lexeme.ofString, hclosed]
    · rintro _ ⟨⟩
      rfl
  · simp [Lexeme.ofString, hbody ys] at he

/-- A mark is passed over, and a brace changes the depth. -/
theorem passes_mark (h : Closes (depth + 1) (b :: bs) zs) (he : (Lexeme.ofMark b bs).error = none)
    (hq : b ≠ Ascii.quote)
    (hs : b = Ascii.slash → bs.head? ≠ some Ascii.slash ∧ bs.head? ≠ some Ascii.star) :
    Passes depth zs (Lexeme.ofMark b bs) := by
  rw [Lexeme.ofMark] at he ⊢
  split
  · next p hp =>
    obtain ⟨x, hx, htwo⟩ := Option.bind_eq_some_iff.1 hp
    obtain ⟨hb, hneutral, hplain⟩ := Lexeme.isNeutral_of_ofTwoBytes? htwo
    cases bs with
    | nil => cases hx
    | cons y bs =>
      obtain rfl : y = x := Option.some.inj hx
      refine passes rfl ?_ (neutral (v := [b, y]) h (by simp [hb, hneutral]))
      rintro _ ⟨⟩
      exact hplain
  · next hnone =>
    split
    · next p hp =>
      by_cases ho : b = Ascii.lbrace
      · subst ho
        cases hp
        exact ⟨rfl, depth + 1, fun _ => rfl, h.lbrace⟩
      by_cases hc : b = Ascii.rbrace
      · subst hc
        cases hp
        obtain ⟨hdepth, h⟩ := h.rbrace
        obtain ⟨depth', rfl⟩ : ∃ d, depth = d + 1 := ⟨depth - 1, by omega⟩
        exact ⟨rfl, depth', fun _ => rfl, h⟩
      refine passes rfl ?_ (h.step ?_ ho hc)
      · rintro _ ⟨⟩
        exact Lexeme.isPlain_of_ofByte? hp ho hc
      · by_cases hslash : b = Ascii.slash
        · subst hslash
          obtain ⟨hl, hb⟩ := hs rfl
          refine leadingTrivia_slash ?_ ?_
          · rwa [Ne, head?_append_eq (by decide)]
          · rwa [Ne, head?_append_eq (by decide)]
        · exact leadingTrivia_of_ne hq hslash
    · next hp => simp [hnone, hp] at he

/-- The first lexeme of the text, if nothing is wrong with it in front of the end of a line. -/
theorem lexeme (h : Closes (depth + 1) (b :: bs) zs)
    (hs : (Lexeme.ofText s b bs).raw.head? = some Ascii.quote →
      ¬ [Ascii.backslash, Ascii.lf] <:+: (Lexeme.ofText s b bs).raw)
    (he : (Lexeme.ofText s b (bs ++ Ascii.lf :: ys)).error = none) :
    Passes depth zs (Lexeme.ofText s b bs) := by
  by_cases hruns : Lexeme.RunsOn s b bs
  · rw [Lexeme.ofText_append_lf_of_runsOn hruns, Lexeme.error_extend] at he
    by_cases hd : b = Ascii.hash ∧ s = true
    · rw [Lexeme.ofText, if_pos hd] at he ⊢
      exact h.passes_directive he
    · obtain ⟨rfl, hslash⟩ : b = Ascii.slash ∧ bs.head? = some Ascii.slash := hruns.resolve_left hd
      obtain ⟨bs, rfl⟩ : ∃ bs', bs = Ascii.slash :: bs' := List.head?_eq_some_iff.1 hslash
      exact h.passes_lineComment
  have hraw := Lexeme.ofText_raw_append_rest s b bs
  have hd : ¬ (b = Ascii.hash ∧ s = true) := fun hd => hruns (.inl hd)
  have hl : ¬ (b = Ascii.slash ∧ bs.head? = some Ascii.slash) := fun hl => hruns (.inr hl)
  simp only [Lexeme.ofText, if_neg hd, if_neg hl] at hs hraw ⊢
  simp only [Lexeme.ofText, if_neg hd, if_neg hl, head?_append_eq (show Ascii.lf ≠ Ascii.slash by decide),
    head?_append_eq (show Ascii.lf ≠ Ascii.star by decide)] at he
  by_cases hblank : Lexeme.isBlank b = true
  · simp only [if_pos hblank] at hraw ⊢
    exact h.passes_neutral rfl hraw (by simpa using isNeutral_of_isBlank hblank) (by simp)
  simp only [if_neg hblank] at hs hraw he ⊢
  by_cases hb : b = Ascii.slash ∧ bs.head? = some Ascii.star
  · obtain ⟨rfl, hstar⟩ := hb
    obtain ⟨bs, rfl⟩ : ∃ bs', bs = Ascii.star :: bs' := List.head?_eq_some_iff.1 hstar
    exact h.passes_blockComment
  simp only [if_neg hb] at hs hraw he ⊢
  by_cases hword : Ascii.isNameStart b = true
  · simp only [if_pos hword] at hraw ⊢
    exact h.passes_word hword
  simp only [if_neg hword] at hs hraw he ⊢
  by_cases hdigit : Ascii.isDigit b = true
  · simp only [if_pos hdigit] at he ⊢
    exact h.passes_digits hdigit (by rwa [Lexeme.ofDigits_append rfl] at he)
  simp only [if_neg hdigit] at hs he ⊢
  by_cases hq : b = Ascii.quote
  · subst hq
    exact h.passes_string (hs rfl) he
  · simp only [if_neg hq] at he ⊢
    rw [Lexeme.ofMark_append (ofTwoBytes?_of_isSeparator rfl b)] at he
    exact h.passes_mark he hq fun hslash => ⟨fun h' => hl ⟨hslash, h'⟩, fun h' => hb ⟨hslash, h'⟩⟩

end Closes

end Stretch

namespace TokenStream

open Stretch (Closes)
open Tokens (nest)

/-- No string of the text has a backslash at the end of a line. -/
def Unbroken (c : Cursor) (text : Bytes) : Prop :=
  ∀ l ∈ lexemesFrom c text, l.raw.head? = some Ascii.quote → ¬ [Ascii.backslash, Ascii.lf] <:+: l.raw

instance (c : Cursor) (text : Bytes) : Decidable (Unbroken c text) :=
  inferInstanceAs (Decidable (∀ l ∈ lexemesFrom c text, _ → ¬ _ <:+: l.raw))

/-- A clean lexeme is the same where the text starts earlier in the same column. -/
theorem ofText_earlier {c₀ c : Cursor} {b : UInt8} {bs : Bytes} (hc : c.column = c₀.column)
    (hle : c₀.offset ≤ c.offset) (h : (Lexeme.ofText c.startsLine b bs).error = none) (ys : Bytes) :
    Lexeme.ofText c₀.startsLine b ys = Lexeme.ofText c.startsLine b ys := by
  rcases ofText_self_or_directive c₀.startsLine h with hs | ⟨-, hstarts, hs⟩
  · exact hs ys
  · obtain ⟨hcolumn, hlt⟩ := Cursor.startsLine_iff.1 hstarts
    have hstarts₀ := Cursor.startsLine_iff.2 ⟨hc ▸ hcolumn, Nat.lt_of_le_of_lt hle hlt⟩
    rw [hs] at hstarts₀
    cases hstarts₀

/-- A text up to the brace that closes it, scanned without errors in front of the end of a line, is
clean alone, with the same tokens, and all its braces have their partners. -/
theorem nest_of_closes {c₀ c : Cursor} {bs ys zs : Bytes} {depth : Nat} (hc : c.column = c₀.column)
    (hle : c₀.offset ≤ c.offset) (hu : Unbroken c₀ bs) (h : Closes (depth + 1) bs zs)
    (hclean : (scanFrom c (bs ++ Ascii.lf :: ys)).errors = []) :
    (scanFrom c₀ bs).errors = [] ∧ ∃ (us : List Token) (e : Token) (ts : List Token) (c' : Cursor),
      (scanFrom c₀ bs).tokens = us ++ [e] ∧ nest depth us = some 0 ∧
        Scans c (bs ++ Ascii.lf :: ys) ts c' ys ∧ us.map (·.kind) = ts.map (·.kind) := by
  induction hn : bs.length using Nat.strongRecOn generalizing c₀ c bs depth with
  | ind n ih =>
  cases bs with
  | nil =>
    obtain rfl : depth = 0 := h.depth_eq
    rw [scanFrom]
    exact ⟨rfl, [], _, [], _, rfl, rfl, scans_lf c ys, rfl⟩
  | cons b bs =>
    let l := Lexeme.ofText c₀.startsLine b bs
    rw [List.cons_append] at hclean
    obtain ⟨he, hrest⟩ := errors_cons hclean
    have hsame := ofText_earlier hc hle he (bs ++ Ascii.lf :: ys)
    rw [← hsame] at he hrest
    have hmem : l ∈ lexemesFrom c₀ (b :: bs) := by
      rw [lexemesFrom]
      exact List.mem_cons_self
    obtain ⟨hl, depth', hnest, h'⟩ := h.lexeme (hu l hmem) he
    rw [Lexeme.ofText_append_lf hl] at hrest
    have hlt : l.rest.length < n := hn ▸ Lexeme.length_ofText_rest_lt _ _ _
    have hu' : Unbroken (c₀.after l) l.rest := fun m hm => hu m (by
      rw [lexemesFrom]
      exact List.mem_cons_of_mem _ hm)
    have hle' : (c₀.after l).offset ≤ (c.after l).offset := by
      rw [Cursor.offset_after, Cursor.offset_after]
      exact Nat.add_le_add_right hle _
    obtain ⟨herrors, us, e, ts, c', htokens, hus, hs, hkinds⟩ :=
      ih _ hlt (Cursor.column_after_congr hc l) hle' hu' h' hrest rfl
    have hscans : Scans c (b :: (bs ++ Ascii.lf :: ys)) (tokenAt c l ++ ts) c' ys :=
      .lexeme (l := l.extend (Ascii.lf :: ys)) ((Lexeme.ofText_append_lf hl ys).symm.trans hsame) hl hs
    rw [scanFrom_cons]
    refine ⟨by simp [hl, l, herrors], tokenAt c₀ l ++ us, e, tokenAt c l ++ ts, c', by simp [l, htokens],
      ?_, hscans, ?_⟩
    · rw [Tokens.nest_append, hnest]
      exact hus
    · rw [List.map_append, List.map_append, kinds_tokenAt, kinds_tokenAt, hkinds]

theorem nest_congr {ts us : List Token} (h : ts.map (·.kind) = us.map (·.kind)) (depth : Nat) :
    nest depth ts = nest depth us := by
  induction ts generalizing us depth with
  | nil =>
    cases us with
    | nil => rfl
    | cons => cases h
  | cons t ts ih =>
    cases us with
    | nil => cases h
    | cons u us =>
      obtain ⟨hkind, htail⟩ := List.cons.inj h
      simp only [nest, hkind, ih htail]

/-- All braces of the text alone have their partners. -/
def Nested (text : Bytes) : Prop := ∃ ts e, (scan text).tokens = ts ++ [e] ∧ Tokens.Balanced ts

/-- The lines of a code block, scanned without errors from the start of a line, have balanced
tokens, alone and where they are. -/
theorem exists_scans_balanced {c : Cursor} {bs ys zs : Bytes} (hc : c.column = 1) (hu : Unbroken {} bs)
    (h : Closes 1 bs zs) (hclean : (scanFrom c (bs ++ Ascii.lf :: ys)).errors = []) :
    Nested bs ∧ ∃ ts c', Scans c (bs ++ Ascii.lf :: ys) ts c' ys ∧ Tokens.Balanced ts := by
  have hc : c.column = ({} : Cursor).column := hc
  obtain ⟨-, us, e, ts, c', hus, hnest, hs, hkinds⟩ := nest_of_closes hc (Nat.zero_le _) hu h hclean
  exact ⟨⟨us, e, hus, Tokens.balanced_of_nest hnest⟩, ts, c', hs,
    Tokens.balanced_of_nest (nest_congr hkinds 0 ▸ hnest)⟩

end TokenStream

/-- The text of a code block ends in front of the brace that closes it. -/
theorem Piece.closes_codeBlock {s : Source} {b : CodeBlock} (h : (codeBlock s).value = .ok b) :
    ∃ zs, Stretch.Closes 1 b.code zs := by
  rw [codeBlock] at h
  dsimp only at h
  split at h
  · split at h
    · next n hn =>
      cases h
      obtain ⟨v, zs, hrest, rfl⟩ := Stretch.exists_of_matching? hn
      refine ⟨zs, ?_⟩
      rw [Stretch.Closes, hrest, List.take_left, ← hrest]
      exact hn
    · cases h
  · cases h

end ViewCompiler
