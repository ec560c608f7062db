import ViewCompiler.Proofs.Walks

/-!
How far blocks go, whatever is wrong in them. Readers of render operations never leave the block that
they are in, so a block whose braces match ends at its own brace (`Tokens.renderBlock_extent`). A block
of statements does so too, unless a block of its own was found where a statement was expected
(`Tokens.block_extent`).
-/

namespace ViewCompiler

namespace Tokens

open TokenKind (isCloser)

/-- The tokens go on in `depth` blocks that are open in front of `k`, which closes one more. -/
structure Inside (k : List Token) (depth : Nat) (ts : List Token) : Prop where
  exists_eq : ∃ w, ts = w ++ k ∧ nest depth w = some 0
  closed : next k = .punct .rbrace

section
variable {k : List Token} {n : Nat} {t : Token} {ts : List Token}

namespace Inside

theorem of_balanced {w : List Token} (hw : Balanced w) (hk : next k = .punct .rbrace) :
    Inside k 0 (w ++ k) := ⟨⟨w, rfl, hw 0⟩, hk⟩

/-- A token that opens and closes nothing. -/
theorem plain (h : Inside k n (t :: ts)) (ht : t.kind.isPlain = true) : Inside k n ts := by
  obtain ⟨⟨w, heq, hw⟩, hk⟩ := h
  cases w with
  | nil =>
    rw [← heq.trans (List.nil_append k), next_cons] at hk
    rw [hk] at ht
    cases ht
  | cons t' w =>
    cases heq
    exact ⟨⟨w, rfl, by rwa [nest_cons_of_isPlain ht] at hw⟩, hk⟩

theorem opened (h : Inside k n (t :: ts)) (ht : t.kind = .punct .lbrace) : Inside k (n + 1) ts := by
  obtain ⟨⟨w, heq, hw⟩, hk⟩ := h
  cases w with
  | nil =>
    rw [← heq.trans (List.nil_append k), next_cons, ht] at hk
    cases hk
  | cons t' w =>
    cases heq
    simp only [nest, ht] at hw
    exact ⟨⟨w, rfl, hw⟩, hk⟩

theorem closes (h : Inside k (n + 1) (t :: ts)) (ht : t.kind = .punct .rbrace) : Inside k n ts := by
  obtain ⟨⟨w, heq, hw⟩, hk⟩ := h
  cases w with
  | nil => cases hw
  | cons t' w =>
    cases heq
    simp only [nest, ht] at hw
    exact ⟨⟨w, rfl, hw⟩, hk⟩

/-- The text does not end in a block. -/
theorem next_ne_eof (h : Inside k n ts) : next ts ≠ .eof := by
  obtain ⟨⟨w, rfl, hw⟩, hk⟩ := h
  cases w with
  | nil =>
    rw [List.nil_append, hk]
    simp
  | cons t w =>
    intro ht
    rw [List.cons_append, next_cons] at ht
    simp [nest, ht] at hw

theorem next_eq (h : Inside k n ts) (hts : isCloser (next ts) = true) : next ts = .punct .rbrace := by
  unfold isCloser at hts
  split at hts
  · next heof => exact absurd heof h.next_ne_eof
  · assumption
  · cases hts

/-- Where no block is open, only `k` starts with a closing brace. -/
theorem eq_of_isCloser (h : Inside k 0 ts) (hts : isCloser (next ts) = true) : ts = k := by
  have hnext := h.next_eq hts
  obtain ⟨⟨w, rfl, hw⟩, -⟩ := h
  cases w with
  | nil => rfl
  | cons t w =>
    rw [List.cons_append, next_cons] at hnext
    simp [nest, hnext] at hw

/-- Readers go from block to block. -/
theorem walk {m : Nat} {rest : List Token} (h : Inside k n ts) (hwalk : Walk n ts m rest) :
    Inside k m rest := by
  induction hwalk with
  | stay => exact h
  | plain ht _ ih => exact ih (h.plain ht)
  | opened ht _ ih => exact ih (h.opened ht)
  | closed ht _ ih => exact ih (h.closes ht)
  | ended ht => exact absurd ht h.next_ne_eof

theorem length_le (h : Inside k n ts) : k.length ≤ ts.length := by
  obtain ⟨⟨w, rfl, -⟩, -⟩ := h
  simp

end Inside

/-- Whatever is wrong in a render block, it ends where its braces match. -/
theorem renderBlock_extent {s : Span} {w rest : List Token} {c : Token} (hw : Balanced w)
    (hc : c.kind = .punct .rbrace) :
    ∃ ops es, renderBlock (⟨.punct .lbrace, s⟩ :: (w ++ c :: rest)) = ⟨some ops, es, rest⟩ := by
  have hin : Inside (c :: rest) 0 (w ++ c :: rest) := .of_balanced hw hc
  have hwalk := (@walks_render (fun _ => false) (by simp)).2.2.2 (w ++ c :: rest) 0
  have hcloser := itemReader_renderOps.isCloser_next_rest (w ++ c :: rest)
  have hsome := itemReader_renderOps.isSome_value (w ++ c :: rest)
  cases hread : renderOps (w ++ c :: rest) with
  | mk value es left =>
    rw [hread] at hwalk hcloser hsome
    obtain ⟨ops, rfl⟩ := Option.isSome_iff_exists.1 hsome
    obtain rfl : left = c :: rest := (hin.walk (by simpa using hwalk)).eq_of_isCloser hcloser
    exact ⟨ops, es, (renderBlock_cons s _).trans (closing_eq hc hread)⟩

/-- A block of statements whose braces match is read. It ends at its own brace, or blocks that were
found where statements were expected are still open behind it. -/
theorem block_extent {w : List Token} {c : Token} (s : Span) (rest : List Token) (hw : Balanced w)
    (hc : c.kind = .punct .rbrace) :
    ∃ body es left, block (⟨.punct .lbrace, s⟩ :: (w ++ c :: rest)) = ⟨some body, es, left⟩ ∧
      (es.countP (fun e => e.2.isBareBlock) = 0 ∧ left = rest ∨
        ∃ n, es.countP (fun e => e.2.isBareBlock) = n + 1 ∧ Inside (c :: rest) n left) := by
  have hin : Inside (c :: rest) 0 (w ++ c :: rest) := .of_balanced hw hc
  have hwalk := walks_statements.2.2.1 (w ++ c :: rest) 0
  have hcloser := itemReader_stmts.isCloser_next_rest (w ++ c :: rest)
  have hsome := itemReader_stmts.isSome_value (w ++ c :: rest)
  cases hread : stmts (w ++ c :: rest) with
  | mk value es left =>
    rw [hread] at hwalk hcloser hsome
    obtain ⟨body, rfl⟩ := Option.isSome_iff_exists.1 hsome
    have hin : Inside (c :: rest) (es.countP fun e => e.2.isBareBlock) left :=
      hin.walk (by simpa using hwalk)
    obtain ⟨s', left, rfl⟩ := exists_cons_of_next (hin.next_eq hcloser) (by simp)
    refine ⟨body, es, left, (block_cons s _).trans (closing_eq rfl hread), ?_⟩
    cases hcount : es.countP fun e => e.2.isBareBlock with
    | zero =>
      rw [hcount] at hin
      exact .inl ⟨rfl, (List.cons.inj (hin.eq_of_isCloser rfl)).2⟩
    | succ n =>
      rw [hcount] at hin
      exact .inr ⟨n, rfl, hin.closes rfl⟩

end

end Tokens

end ViewCompiler
