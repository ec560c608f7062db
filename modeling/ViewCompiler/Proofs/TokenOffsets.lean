import ViewCompiler.Proofs.PrintedTokens
import ViewCompiler.Proofs.TemplateImage

/-!
Where tokens stand in a text. `TokenStream.placedFrom` gives each token with the number of bytes in
front of it. `TokenStream.Runs` says that scanning comes from one place of a text to another,
whatever is wrong between them. In a stretch of text no line of which starts with a hash sign the
line mapping stays as it is, so the tokens of the stretch have the lines that their bytes have
(`TokenStream.line_of_mem_placedFrom`).
-/

namespace ViewCompiler

/-! ## Lines that start with a hash sign -/

namespace Bytes

/-- No line of the text starts with a hash sign. -/
def Unhashed (s : Bytes) : Prop := ∀ line ∈ s.splitOn Ascii.lf, line.head? ≠ some Ascii.hash

instance (s : Bytes) : Decidable s.Unhashed :=
  inferInstanceAs (Decidable (∀ line ∈ s.splitOn Ascii.lf, line.head? ≠ some Ascii.hash))

theorem splitOn_append_cons (sep : UInt8) (s t : Bytes) :
    splitOn sep (s ++ sep :: t) = splitOn sep s ++ splitOn sep t := by
  induction hn : s.length using Nat.strongRecOn generalizing s with
  | ind n ih =>
  by_cases hsep : sep ∈ s
  · obtain ⟨w, s, rfl, hw⟩ := List.eq_append_cons_of_mem hsep
    have hlt : s.length < n := by
      simp only [List.length_append, List.length_cons] at hn
      omega
    rw [List.append_assoc, List.cons_append, splitOn_append hw, splitOn_append hw, ih _ hlt s rfl]
    rfl
  · rw [splitOn_append hsep, splitOn_of_not_mem hsep]
    rfl

/-- A hash sign in such a text stands behind another byte of its line. -/
theorem Unhashed.getLast?_ne {u v : Bytes} (h : Unhashed (u ++ Ascii.hash :: v)) :
    u ≠ [] ∧ u.getLast? ≠ some Ascii.lf := by
  obtain ⟨w, ws, hline⟩ : ∃ w ws, splitOn Ascii.lf (Ascii.hash :: v) = (Ascii.hash :: w) :: ws := by
    cases hv : splitOn Ascii.lf v with
    | nil => exact ⟨[], [], by rw [splitOn] at hv ⊢; rw [List.foldr_cons, hv]; rfl⟩
    | cons w ws => exact ⟨w, ws, splitOn_cons_of_ne (by decide) hv⟩
  constructor
  · rintro rfl
    rw [List.nil_append] at h
    exact h (Ascii.hash :: w) (by rw [hline]; exact List.mem_cons_self) rfl
  · intro hlast
    obtain ⟨u, rfl⟩ := List.getLast?_eq_some_iff.1 hlast
    rw [List.append_assoc] at h
    refine h (Ascii.hash :: w) ?_ rfl
    rw [List.singleton_append, splitOn_append_cons, hline]
    exact List.mem_append_right _ List.mem_cons_self

theorem lineFeeds_append (s t : Bytes) : lineFeeds (s ++ t) = lineFeeds s + lineFeeds t :=
  List.count_append

theorem lineFeeds_le_length (s : Bytes) : lineFeeds s ≤ s.length := List.count_le_length

theorem toNat_add_one {n : UInt32} (h : n.toNat + 1 < 4294967296) : (n + 1).toNat = n.toNat + 1 := by
  rw [UInt32.toNat_add]
  exact Nat.mod_eq_of_lt h

/-- The number of the line behind a text that starts on line `n`. -/
def lineAfter (n : UInt32) (s : Bytes) : UInt32 :=
  s.foldl (fun n b => if b = Ascii.lf then n + 1 else n) n

theorem toNat_lineAfter {n : UInt32} {s : Bytes} (h : n.toNat + s.lineFeeds < 4294967296) :
    (lineAfter n s).toNat = n.toNat + s.lineFeeds := by
  induction s generalizing n with
  | nil => rfl
  | cons b s ih =>
    rw [lineAfter, List.foldl_cons]
    by_cases hb : b = Ascii.lf
    · subst hb
      have hfeeds : lineFeeds (Ascii.lf :: s) = lineFeeds s + 1 := List.count_cons_self
      have hone : (n + 1).toNat = n.toNat + 1 := toNat_add_one (by omega)
      rw [if_pos rfl, hfeeds]
      exact (ih (by omega)).trans (by omega)
    · have hfeeds : lineFeeds (b :: s) = lineFeeds s := List.count_cons_of_ne hb
      rw [if_neg hb, hfeeds]
      exact ih (by omega)

end Bytes

/-! ## Cursors -/

namespace Cursor

variable {c : Cursor}

theorem steps_append (c : Cursor) (v w : Bytes) : c.steps (v ++ w) = (c.steps v).steps w :=
  List.foldl_append

/-- Moving over text leaves the line mapping alone. -/
theorem steps_shift (c : Cursor) (shift : Int) (w : Bytes) :
    { c with shift }.steps w = { c.steps w with shift } := by
  induction w generalizing c with
  | nil => rfl
  | cons b w ih =>
    have hstep : { c with shift }.step b = { c.step b with shift } := by
      rw [step, step]
      split <;> rfl
    change ({ c with shift }.step b).steps w = _
    rw [hstep, ih]
    rfl

/-- Moving over text without a line feed stays on the line. -/
theorem line_steps_of_not_mem {w : Bytes} (h : Ascii.lf ∉ w) (c : Cursor) : (c.steps w).line = c.line := by
  induction w generalizing c with
  | nil => rfl
  | cons b w ih =>
    rw [List.mem_cons, not_or] at h
    refine (ih h.2 (c.step b)).trans ?_
    rw [step, if_neg (Ne.symm h.1)]

theorem shift_steps (c : Cursor) (w : Bytes) : (c.steps w).shift = c.shift := by
  have hsteps : c.steps w = { c.steps w with shift := c.shift } := c.steps_shift c.shift w
  rw [hsteps]

theorem exists_after_eq (c : Cursor) (l : Lexeme) :
    ∃ shift, c.after l = { c.steps l.raw with shift } := ⟨_, c.steps_shift _ _⟩

theorem after_of_mapping {l : Lexeme} (h : l.mapping = none) : c.after l = c.steps l.raw := by
  rw [after, h]

/-- Moving over a text passes as many lines as it has line feeds, if they can be counted. -/
theorem line_steps {w : Bytes} (h : c.line.toNat + w.lineFeeds < 4294967296) :
    (c.steps w).line.toNat = c.line.toNat + w.lineFeeds := by
  have hstep (c : Cursor) (b : UInt8) :
      (if b = Ascii.lf then c.line + 1 else c.line) = (c.step b).line := by
    rw [step]
    split <;> rfl
  rw [← Bytes.toNat_lineAfter h, steps, Bytes.lineAfter, List.foldl_hom line hstep]

theorem line_steps_le (c : Cursor) (w : Bytes) :
    (c.steps w).line.toNat ≤ c.line.toNat + w.lineFeeds := by
  by_cases h : c.line.toNat + w.lineFeeds < 4294967296
  · exact Nat.le_of_eq (line_steps h)
  · have hlt := (c.steps w).line.toNat_lt
    omega

/-- The column grows by at most one with each byte, and it does not become zero. -/
theorem column_steps {w : Bytes} (hpos : 0 < c.column.toNat)
    (h : c.column.toNat + w.length < 4294967296) :
    0 < (c.steps w).column.toNat ∧ (c.steps w).column.toNat ≤ c.column.toNat + w.length := by
  induction w generalizing c with
  | nil => exact ⟨hpos, Nat.le_refl _⟩
  | cons b w ih =>
    rw [List.length_cons] at h ⊢
    have hstep : 0 < (c.step b).column.toNat ∧ (c.step b).column.toNat ≤ c.column.toNat + 1 := by
      by_cases hb : b = Ascii.lf
      · rw [hb, column_step_lf]
        exact ⟨Nat.one_pos, Nat.succ_le_succ (Nat.zero_le _)⟩
      · have hadd : (c.column + 1).toNat = c.column.toNat + 1 := Bytes.toNat_add_one (by omega)
        rw [column_step _ hb]
        omega
    obtain ⟨hlow, hhigh⟩ := ih hstep.1 (by omega)
    exact ⟨hlow, Nat.le_trans hhigh (by omega)⟩

/-- A line starts at the end of a text only behind a line feed. -/
theorem getLast?_of_column_steps {w : Bytes} (hpos : 0 < c.column.toNat)
    (h : c.column.toNat + w.length < 4294967296) (hcolumn : (c.steps w).column = 1) :
    w = [] ∨ w.getLast? = some Ascii.lf := by
  rcases List.eq_nil_or_concat w with rfl | ⟨u, b, rfl⟩
  · exact .inl rfl
  · right
    rw [List.concat_eq_append, List.length_append, List.length_singleton] at h
    obtain ⟨hlow, hhigh⟩ := column_steps (c := c) (w := u) hpos (by omega)
    rw [List.concat_eq_append, steps_append] at hcolumn
    rw [List.concat_eq_append, List.getLast?_append]
    by_cases hb : b = Ascii.lf
    · rw [hb]
      rfl
    · have hstep : ((c.steps u).column + 1).toNat = 1 := by
        change ((c.steps u).step b).column = 1 at hcolumn
        rw [column_step _ hb] at hcolumn
        exact congrArg UInt32.toNat hcolumn
      have hadd : ((c.steps u).column + 1).toNat = (c.steps u).column.toNat + 1 :=
        Bytes.toNat_add_one (by omega)
      omega

end Cursor

namespace Lexeme

theorem mapping_ofBlockComment (opening bs : Bytes) : (ofBlockComment opening bs).mapping = none := by
  rw [ofBlockComment]
  split <;> rfl

theorem mapping_ofDigits (b : UInt8) (bs : Bytes) : (ofDigits b bs).mapping = none := by
  rw [ofDigits]
  split <;> rfl

theorem mapping_ofMark (b : UInt8) (bs : Bytes) : (ofMark b bs).mapping = none := by
  rw [ofMark]
  split
  · rfl
  · split <;> rfl

/-- Only directives change the line mapping. -/
theorem mapping_ofText {s : Bool} {b : UInt8} {bs : Bytes} (h : ¬ (b = Ascii.hash ∧ s = true)) :
    (ofText s b bs).mapping = none := by
  rw [ofText, if_neg h]
  split
  · rfl
  split
  · rfl
  split
  · exact mapping_ofBlockComment _ _
  split
  · rfl
  split
  · exact mapping_ofDigits _ _
  split
  · rfl
  · exact mapping_ofMark _ _

end Lexeme

namespace TokenStream

/-! ## Tokens with their offsets -/

/-- The tokens of `text` when it starts at `c`, each with the number of bytes in front of it. `n` of
them stand in front of the text. -/
def placedFrom (n : Nat) (c : Cursor) (text : Bytes) : List (Nat × Token) :=
  match text with
  | [] => [(n, { kind := .eof, span := c.span })]
  | b :: bs =>
    let l := Lexeme.ofText c.startsLine b bs
    (tokenAt c l).map (n, ·) ++ placedFrom (n + l.raw.length) (c.after l) l.rest
termination_by text.length
decreasing_by exact Lexeme.length_ofText_rest_lt _ _ _

/-- The tokens of a source text with their offsets. -/
def placed (text : Bytes) : List (Nat × Token) := placedFrom 0 {} text

theorem placedFrom_cons (n : Nat) (c : Cursor) (b : UInt8) (bs : Bytes) :
    placedFrom n c (b :: bs) =
      let l := Lexeme.ofText c.startsLine b bs
      (tokenAt c l).map (n, ·) ++ placedFrom (n + l.raw.length) (c.after l) l.rest := by
  rw [placedFrom]

theorem map_placedFrom (n : Nat) (c : Cursor) (text : Bytes) :
    (placedFrom n c text).map Prod.snd = (scanFrom c text).tokens := by
  induction hn : text.length using Nat.strongRecOn generalizing n c text with
  | ind m ih =>
  cases text with
  | nil =>
    rw [placedFrom, scanFrom]
    rfl
  | cons b bs =>
    have hlt := hn ▸ Lexeme.length_ofText_rest_lt c.startsLine b bs
    rw [placedFrom_cons, scanFrom_cons, List.map_append, ih _ hlt _ _ _ rfl, List.map_map]
    exact congrArg (· ++ _) (List.map_id _)

/-- The tokens with their offsets are the tokens of the text. -/
theorem map_placed (text : Bytes) : (placed text).map Prod.snd = (scan text).tokens :=
  map_placedFrom 0 {} text

theorem le_of_mem_placedFrom {n : Nat} {c : Cursor} {text : Bytes} {p : Nat × Token}
    (h : p ∈ placedFrom n c text) : n ≤ p.1 := by
  induction hn : text.length using Nat.strongRecOn generalizing n c text with
  | ind m ih =>
  cases text with
  | nil =>
    rw [placedFrom] at h
    exact Nat.le_of_eq (congrArg Prod.fst (List.mem_singleton.1 h)).symm
  | cons b bs =>
    have hlt := hn ▸ Lexeme.length_ofText_rest_lt c.startsLine b bs
    rw [placedFrom_cons] at h
    rcases List.mem_append.1 h with hfirst | hrest
    · obtain ⟨t, -, rfl⟩ := List.mem_map.1 hfirst
      exact Nat.le_refl _
    · exact Nat.le_trans (Nat.le_add_right _ _) (ih _ hlt hrest rfl)

/-! ## From one place to another -/

/-- Scanning comes from `text` at `c` to `rest` at `c'`, whatever is wrong on the way. -/
inductive Runs : Cursor → Bytes → Cursor → Bytes → Prop where
  | done {c : Cursor} {text : Bytes} : Runs c text c text
  | lexeme {c c' : Cursor} {b : UInt8} {bs rest : Bytes} {l : Lexeme} :
      l = Lexeme.ofText c.startsLine b bs → Runs (c.after l) l.rest c' rest →
      Runs c (b :: bs) c' rest

theorem Scans.runs {c c' : Cursor} {text rest : Bytes} {ts : List Token}
    (h : Scans c text ts c' rest) : Runs c text c' rest := by
  induction h with
  | done => exact .done
  | lexeme hl _ _ ih => exact .lexeme hl ih

theorem IsLexeme.runs {w v : Bytes} {kind : Option TokenKind} (hw : IsLexeme w kind v) (c : Cursor)
    (ys : Bytes) : Runs c (w ++ (v ++ ys)) (c.steps w) (v ++ ys) := by
  obtain ⟨b, bs, rfl, hl⟩ := hw
  have hafter : c.after (Lexeme.ofText c.startsLine b (bs ++ (v ++ ys))) = c.steps (b :: bs) := by
    rw [hl]
    rfl
  exact .lexeme (hl _ ys).symm (by rw [← hafter, hl]; exact .done)

namespace Runs

variable {c c' c'' : Cursor} {text w rest rest' : Bytes}

theorem trans (h : Runs c text c' rest) (h' : Runs c' rest c'' rest') : Runs c text c'' rest' := by
  induction h with
  | done => exact h'
  | lexeme hl _ ih => exact .lexeme hl (ih h')

theorem near (h : Runs c text c' rest) (hnear : c.Near text) : c'.Near rest := by
  induction h with
  | done => exact hnear
  | lexeme hl _ ih => exact ih (hl ▸ hnear.after)

/-- The bytes between the two places have been passed, and the tokens in front of the second place
start there. -/
theorem exists_passed (h : Runs c text c' rest) (n : Nat) :
    ∃ w shift ps, text = w ++ rest ∧ c' = { c.steps w with shift } ∧
      placedFrom n c text = ps ++ placedFrom (n + w.length) c' rest ∧
      ∀ p ∈ ps, p.1 < n + w.length := by
  induction h generalizing n with
  | @done c text => exact ⟨[], c.shift, [], rfl, rfl, rfl, by simp⟩
  | @lexeme c c' b bs rest l hl _ ih =>
    obtain ⟨w, shift, ps, hrest, hc', hplaced, hps⟩ := ih (n + l.raw.length)
    obtain ⟨shift', hafter⟩ := c.exists_after_eq l
    have hraw : l.raw ++ l.rest = b :: bs := hl ▸ Lexeme.ofText_raw_append_rest _ _ _
    have hne : 0 < l.raw.length := List.length_pos_iff.2 (hl ▸ Lexeme.ofText_raw_ne_nil _ _ _)
    refine ⟨l.raw ++ w, shift, (tokenAt c l).map (n, ·) ++ ps, ?_, ?_, ?_, ?_⟩
    · rw [List.append_assoc, ← hrest, hraw]
    · rw [hc', hafter, Cursor.steps_shift, Cursor.steps_append]
    · rw [placedFrom_cons, ← hl]
      dsimp only
      rw [hplaced, List.append_assoc, List.length_append, Nat.add_assoc]
    · rw [List.length_append]
      intro p hp
      rcases List.mem_append.1 hp with hfirst | hothers
      · obtain ⟨t, -, rfl⟩ := List.mem_map.1 hfirst
        dsimp only
        omega
      · have hlt := hps p hothers
        omega

theorem exists_eq (h : Runs c (w ++ rest) c' rest) : ∃ shift, c' = { c.steps w with shift } := by
  obtain ⟨v, shift, -, hw, hc', -⟩ := h.exists_passed 0
  rw [List.append_cancel_right hw]
  exact ⟨shift, hc'⟩

theorem line_eq (h : Runs c (w ++ rest) c' rest) : c'.line = (c.steps w).line := by
  obtain ⟨shift, rfl⟩ := h.exists_eq
  rfl

/-- The tokens behind the second place are those that are scanned from there. -/
theorem mem_placedFrom (h : Runs c (w ++ rest) c' rest) {n : Nat} {p : Nat × Token}
    (hp : p ∈ placedFrom n c (w ++ rest)) (hle : n + w.length ≤ p.1) :
    p ∈ placedFrom (n + w.length) c' rest := by
  obtain ⟨v, _, ps, hw, -, hplaced, hps⟩ := h.exists_passed n
  rw [List.append_cancel_right hw] at hle ⊢
  rw [hplaced] at hp
  exact (List.mem_append.1 hp).resolve_left fun hfront => absurd (hps p hfront) (by omega)

end Runs

/-! ## Stretches without directives -/

/-- There is no directive behind `u` in a text no line of which starts with a hash sign. -/
theorem mapping_of_unhashed {c : Cursor} {u v : Bytes} {b : UInt8} (hpos : 0 < c.column.toNat)
    (hsize : c.column.toNat + u.length < 4294967296) (hcode : Bytes.Unhashed (u ++ b :: v)) (bs : Bytes) :
    (Lexeme.ofText (c.steps u).startsLine b bs).mapping = none := by
  refine Lexeme.mapping_ofText ?_
  rintro ⟨rfl, hstarts⟩
  obtain ⟨hne, hlast⟩ := hcode.getLast?_ne
  have hcolumn := (Cursor.startsLine_iff.1 hstarts).1
  exact (Cursor.getLast?_of_column_steps hpos hsize hcolumn).elim hne hlast

/-- In a text no line of which starts with a hash sign a token is at the place of its first byte. -/
theorem span_of_mem_placedFrom {n : Nat} {c : Cursor} {code ys : Bytes} {p : Nat × Token}
    (hpos : 0 < c.column.toNat) (hsize : c.column.toNat + code.length < 4294967296)
    (hcode : code.Unhashed) (hp : p ∈ placedFrom n c (code ++ ys)) (hlt : p.1 < n + code.length) :
    p.2.span = (c.steps (code.take (p.1 - n))).span := by
  -- `u` is what has been passed, `v` what is left of the text
  suffices h : ∀ (u v : Bytes), code = u ++ v →
      p ∈ placedFrom (n + u.length) (c.steps u) (v ++ ys) →
        p.2.span = (c.steps (code.take (p.1 - n))).span from h [] code rfl hp
  intro u v
  induction hn : v.length using Nat.strongRecOn generalizing u v with
  | ind m ih =>
  rintro hcodeq hmem
  have hlength : code.length = u.length + v.length := by rw [hcodeq, List.length_append]
  cases v with
  | nil =>
    have hle := le_of_mem_placedFrom hmem
    rw [List.length_nil] at hlength
    omega
  | cons b v =>
    rw [List.cons_append, placedFrom_cons] at hmem
    generalize hl : Lexeme.ofText (c.steps u).startsLine b (v ++ ys) = l at hmem
    rcases List.mem_append.1 hmem with hfirst | hrest
    · obtain ⟨t, ht, rfl⟩ := List.mem_map.1 hfirst
      have hspan : t.span = (c.steps u).span := by
        simp only [tokenAt, Option.mem_toList, Option.map_eq_some_iff] at ht
        obtain ⟨kind, -, rfl⟩ := ht
        rfl
      rw [hspan, Nat.add_sub_cancel_left, hcodeq, List.take_left]
    · have hmapping : l.mapping = none :=
        hl ▸ mapping_of_unhashed hpos (by omega) (hcodeq ▸ hcode) (v ++ ys)
      have hraw : l.raw ++ l.rest = (b :: v) ++ ys := hl ▸ Lexeme.ofText_raw_append_rest _ _ _
      have hnonempty : 0 < l.raw.length :=
        List.length_pos_iff.2 (hl ▸ Lexeme.ofText_raw_ne_nil _ _ _)
      rw [Cursor.after_of_mapping hmapping, ← Cursor.steps_append, Nat.add_assoc,
        ← List.length_append] at hrest
      rcases List.append_eq_append_iff.1 hraw with ⟨v', hv, hrest'⟩ | ⟨v', hv, -⟩
      · rw [hrest'] at hrest
        refine ih v'.length ?_ (u ++ l.raw) v' rfl ?_ hrest
        · rw [← hn, hv, List.length_append]
          omega
        · rw [List.append_assoc, ← hv, hcodeq]
      · have hle := le_of_mem_placedFrom hrest
        rw [hv, List.length_append, List.length_append] at hle
        omega

/-- In a text no line of which starts with a hash sign the tokens have the lines of their first
bytes, counted from where the line mapping has put the start of the text. -/
theorem line_of_mem_placedFrom {n : Nat} {c : Cursor} {code ys : Bytes} {p : Nat × Token}
    (hpos : 0 < c.column.toNat) (hsize : c.column.toNat + code.length < 4294967296)
    (hlines : c.line.toNat + code.lineFeeds < 4294967296) (hcode : code.Unhashed)
    (hp : p ∈ placedFrom n c (code ++ ys)) (hlt : p.1 < n + code.length) {start : Nat}
    (hstart : 0 < start) (hshift : c.shift = (start : Int) - c.line.toNat) :
    p.2.span.line = UInt32.ofNat (start + Bytes.lineFeeds (code.take (p.1 - n))) := by
  have hfeeds : Bytes.lineFeeds (code.take (p.1 - n)) ≤ code.lineFeeds :=
    (List.take_sublist _ _).count_le _
  have hline := Cursor.line_steps (c := c) (w := code.take (p.1 - n)) (by omega)
  have hmapped : ((c.steps (code.take (p.1 - n))).line.toNat : Int) + c.shift =
      ((start + Bytes.lineFeeds (code.take (p.1 - n)) : Nat) : Int) := by
    rw [hline, hshift]
    omega
  rw [span_of_mem_placedFrom hpos hsize hcode hp hlt, Cursor.span]
  dsimp only
  rw [Cursor.shift_steps, hmapped, if_neg (by omega), Int.toNat_natCast]

end TokenStream

end ViewCompiler
