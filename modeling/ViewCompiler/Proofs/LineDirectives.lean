import ViewCompiler.Proofs.PrintedTokens

/-!
What a line directive looks like. `LineMapping.IsDirective` lists the lines that are directives, and
`Lexeme.directive` reads these and no others (`Lexeme.directive_eq_ok_iff`).
-/

namespace ViewCompiler

namespace Bytes

variable {p : UInt8 → Bool} {s : Bytes}

/-- What trimming cuts from both ends. -/
theorem exists_eq_trim (p : UInt8 → Bool) (s : Bytes) :
    ∃ before after : Bytes, s = before ++ (trim p s ++ after) ∧ (∀ b ∈ before, p b = true) ∧
      ∀ b ∈ after, p b = true := by
  let t : Bytes := s.dropWhile p
  have hright : t = trim p s ++ (t.reverse.takeWhile p).reverse := by
    have hsplit : t.reverse.takeWhile p ++ t.reverse.dropWhile p = t.reverse :=
      List.takeWhile_append_dropWhile
    have hreverse := congrArg List.reverse hsplit
    rw [List.reverse_append, List.reverse_reverse] at hreverse
    exact hreverse.symm
  refine ⟨s.takeWhile p, (t.reverse.takeWhile p).reverse, ?_, fun b => List.mem_takeWhile_imp, ?_⟩
  · rw [← hright]
    exact List.takeWhile_append_dropWhile.symm
  · exact fun b hb => List.mem_takeWhile_imp (List.mem_reverse.1 hb)

/-- Trimming cuts what may be cut, and stops at what may not. -/
theorem trim_append {before after : Bytes} (hbefore : ∀ b ∈ before, p b = true)
    (hafter : ∀ b ∈ after, p b = true) (hne : s ≠ []) (hs : ∀ b ∈ s, p b = false) :
    trim p (before ++ (s ++ after)) = s := by
  have hcut {front rest : Bytes} (hfront : ∀ b ∈ front, p b = true)
      (hstop : ∃ b bs, rest = b :: bs ∧ p b = false) : (front ++ rest).dropWhile p = rest := by
    obtain ⟨b, bs, rfl, hb⟩ := hstop
    rw [dropWhile_append_of_not hb, List.dropWhile_eq_nil_iff.2 hfront, List.nil_append]
  have hstart : ∃ b bs, s ++ after = b :: bs ∧ p b = false := by
    obtain ⟨b, bs, rfl⟩ := List.exists_cons_of_ne_nil hne
    exact ⟨b, bs ++ after, rfl, hs b List.mem_cons_self⟩
  have hend : ∃ b bs, s.reverse = b :: bs ∧ p b = false := by
    obtain ⟨b, bs, hreverse⟩ := List.exists_cons_of_ne_nil (fun h => hne (List.reverse_eq_nil_iff.1 h))
    exact ⟨b, bs, hreverse, hs b (List.mem_reverse.1 (hreverse ▸ List.mem_cons_self))⟩
  rw [trim, trimLeft, trimRight, hcut hbefore hstart, List.reverse_append,
    hcut (fun b hb => hafter b (List.mem_reverse.1 hb)) hend, List.reverse_reverse]

end Bytes

namespace LineMapping

/-- What a directive says behind its keyword: a line number that is not zero and fits into 32 bits,
or the word that ends the mapping. -/
inductive Argument : LineMapping → Bytes → Prop where
  | physical : Argument .physical "default"
  | startAt {digits : Bytes} : digits ≠ [] → digits.all Ascii.isDigit = true →
    0 < digits.decimalValue → digits.decimalValue < 4294967296 →
    Argument (.startAt digits.decimalValue) digits

/-- The lines that are directives. Spaces may stand around the argument, and the line may end in a
carriage return. -/
def IsDirective (m : LineMapping) (line : Bytes) : Prop :=
  ∃ before argument after ending : Bytes, m.Argument argument ∧ (∀ b ∈ before, b = Ascii.space) ∧
    (∀ b ∈ after, b = Ascii.space) ∧ (ending = [] ∨ ending = [Ascii.cr]) ∧
    line = "#line " ++ (before ++ (argument ++ after)) ++ ending

variable {m : LineMapping} {argument line : Bytes}

theorem Argument.ne_nil (h : m.Argument argument) : argument ≠ [] := by
  cases h with
  | physical => decide
  | startAt hne => exact hne

/-- Arguments are digits or letters. -/
theorem Argument.isNameByte (h : m.Argument argument) : ∀ b ∈ argument, Ascii.isNameByte b = true := by
  cases h with
  | physical => decide +kernel
  | startAt _ hdigits =>
    exact fun b hb => Ascii.isNameByte_of_isDigit (List.all_eq_true.1 hdigits b hb)

theorem Argument.ne_of_isNameByte {x : UInt8} (h : m.Argument argument)
    (hx : Ascii.isNameByte x = false) : ∀ b ∈ argument, b ≠ x := by
  rintro b hb rfl
  rw [h.isNameByte b hb] at hx
  cases hx

/-- A directive starts with a hash sign and has no line feed. -/
theorem IsDirective.exists_cons (h : m.IsDirective line) :
    ∃ l, line = Ascii.hash :: l ∧ Ascii.lf ∉ line := by
  obtain ⟨before, argument, after, ending, hm, hbefore, hafter, hending, rfl⟩ := h
  refine ⟨_, rfl, ?_⟩
  have hspace : Ascii.lf ≠ Ascii.space := by decide
  have hkeyword : Ascii.lf ∉ ("#line " : Bytes) := by decide
  have hlast : Ascii.lf ∉ ending := by
    rcases hending with rfl | rfl <;> decide
  simp only [List.mem_append, not_or]
  exact ⟨⟨hkeyword, fun hb => hspace (hbefore _ hb), fun hb => hm.ne_of_isNameByte rfl _ hb rfl,
    fun hb => hspace (hafter _ hb)⟩, hlast⟩

/-- Only a carriage return at its end is cut from a line. -/
theorem exists_eq_cut (line : Bytes) : ∃ ending : Bytes, (ending = [] ∨ ending = [Ascii.cr]) ∧
    line = (if line.getLast? = some Ascii.cr then line.dropLast else line) ++ ending := by
  split
  · next hlast =>
    obtain ⟨v, rfl⟩ := List.getLast?_eq_some_iff.1 hlast
    exact ⟨[Ascii.cr], .inr rfl, by rw [List.dropLast_concat]⟩
  · exact ⟨[], .inl rfl, (List.append_nil _).symm⟩

theorem cut_eq {ending : Bytes} (hline : line.getLast? ≠ some Ascii.cr)
    (hending : ending = [] ∨ ending = [Ascii.cr]) :
    (if (line ++ ending).getLast? = some Ascii.cr then (line ++ ending).dropLast else line ++ ending) =
      line := by
  rcases hending with rfl | rfl
  · rw [List.append_nil, if_neg hline]
  · rw [if_pos (by rw [List.getLast?_append]; rfl), List.dropLast_concat]

end LineMapping

namespace Lexeme

open LineMapping

variable {m : LineMapping} {line : Bytes}

theorem isDirective_of_directive (h : directive line = .ok m) : m.IsDirective line := by
  obtain ⟨ending, hending, hline⟩ := exists_eq_cut line
  dsimp only [directive] at h
  generalize (if line.getLast? = some Ascii.cr then line.dropLast else line) = cut at h hline
  subst hline
  split at h
  · next hstart =>
    obtain ⟨w, rfl⟩ := List.isPrefixOf_iff_prefix.1 hstart
    obtain ⟨before, after, hw, hbefore, hafter⟩ := Bytes.exists_eq_trim (· = Ascii.space) w
    have hdrop : List.drop 6 (("#line " : Bytes) ++ w) = w := rfl
    rw [hdrop] at h
    generalize Bytes.trim (· = Ascii.space) w = argument at h hw
    subst hw
    refine ⟨before, argument, after, ending, ?_, fun b hb => of_decide_eq_true (hbefore b hb),
      fun b hb => of_decide_eq_true (hafter b hb), hending, rfl⟩
    split at h
    · next hdefault =>
      cases h
      exact hdefault ▸ .physical
    split at h
    · next n hn =>
      rw [Bytes.toNat?] at hn
      split at hn
      · next hdigits =>
        cases hn
        split at h
        · next hrange =>
          cases h
          exact .startAt hdigits.1 hdigits.2 hrange.1 hrange.2
        · cases h
      · cases hn
    · cases h
  · cases h

theorem directive_of_isDirective (h : m.IsDirective line) : directive line = .ok m := by
  obtain ⟨before, argument, after, ending, hm, hbefore, hafter, hending, rfl⟩ := h
  have hlast : (("#line " : Bytes) ++ (before ++ (argument ++ after))).getLast? ≠ some Ascii.cr := by
    intro hlast
    simp only [← List.append_assoc] at hlast
    rw [List.append_assoc, List.getLast?_append, Option.or_eq_some_iff] at hlast
    have hmem : Ascii.cr ∈ argument ++ after := by
      rcases hlast with hlast | ⟨hnone, -⟩
      · exact List.mem_of_getLast? hlast
      · exact absurd (List.append_eq_nil_iff.1 (List.getLast?_eq_none_iff.1 hnone)).1 hm.ne_nil
    rcases List.mem_append.1 hmem with hmem | hmem
    · exact hm.ne_of_isNameByte rfl _ hmem rfl
    · exact absurd (hafter _ hmem) (by decide)
  have hstart : Bytes.startsWith (("#line " : Bytes) ++ (before ++ (argument ++ after))) "#line " = true :=
    List.isPrefixOf_iff_prefix.2 (List.prefix_append _ _)
  have hdrop : List.drop 6 (("#line " : Bytes) ++ (before ++ (argument ++ after))) =
      before ++ (argument ++ after) := rfl
  have htrim : Bytes.trim (· = Ascii.space) (before ++ (argument ++ after)) = argument :=
    Bytes.trim_append (fun b hb => decide_eq_true (hbefore b hb)) (fun b hb => decide_eq_true (hafter b hb))
      hm.ne_nil fun b hb => decide_eq_false (hm.ne_of_isNameByte rfl b hb)
  rw [directive, cut_eq hlast hending]
  simp only [hstart, if_true, hdrop, htrim]
  cases hm with
  | physical => exact if_pos rfl
  | startAt hne hdigits hpos hlt =>
    have hdefault : argument ≠ ("default" : Bytes) := by
      rintro rfl
      exact absurd hdigits (by decide)
    rw [if_neg hdefault, Bytes.toNat?, if_pos ⟨hne, hdigits⟩]
    exact if_pos ⟨hpos, hlt⟩

/-- The lines that are read as directives are those that are. -/
theorem directive_eq_ok_iff : directive line = .ok m ↔ m.IsDirective line :=
  ⟨isDirective_of_directive, directive_of_isDirective⟩

end Lexeme

end ViewCompiler
