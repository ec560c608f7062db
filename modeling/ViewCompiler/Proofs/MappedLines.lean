import Mathlib.Data.List.Induction
import ViewCompiler.Proofs.LineDirectives
import ViewCompiler.Proofs.TextModes
import ViewCompiler.Proofs.TokenOffsets

/-!
The places that tokens report. A directive is read at the bytes that start a line outside strings and
comments, if the line is one (`Bytes.DirectiveAt`). Every token reports the column of its first byte, and
the line that the last directive in front of it makes of the physical one
(`TokenStream.span_of_mem_placed`).
-/

namespace ViewCompiler

/-! ## Line directives -/

namespace Bytes

/-- A line starts behind the text. -/
def StartsLine (u : Bytes) : Prop := u = [] ∨ u.getLast? = some Ascii.lf

instance (u : Bytes) : Decidable u.StartsLine := inferInstanceAs (Decidable (u = [] ∨ u.getLast? = some Ascii.lf))

/-- The physical line of a byte. -/
def lineAt (text : Bytes) (p : Nat) : Nat := lineFeeds (text.take p) + 1

theorem lineAt_mono (text : Bytes) {p q : Nat} (h : p ≤ q) : text.lineAt p ≤ text.lineAt q :=
  Nat.succ_le_succ ((List.take_prefix_take_left h).sublist.count_le _)

/-- The column of a byte on its physical line. -/
def columnAt (text : Bytes) (p : Nat) : Nat := (afterLast Ascii.lf (text.take p)).length + 1

/-- What stands behind a text. -/
def mode (u : Bytes) : Mode := .steps (.between true) u

/-- A directive is read at a byte that starts a line outside strings and comments. -/
def DirectiveAt (text : Bytes) (q : Nat) (m : LineMapping) : Prop :=
  mode (text.take q) = .between true ∧ m.IsDirective ((text.drop q).takeWhile (· ≠ Ascii.lf))

/-- The last directive in front of a byte, if there is one, with its place. -/
def LastDirective (text : Bytes) (p : Nat) : Option (Nat × LineMapping) → Prop
  | none => ∀ q < p, ∀ m, ¬ text.DirectiveAt q m
  | some (q, m) => q < p ∧ text.DirectiveAt q m ∧ ∀ q', q < q' → q' < p → ∀ m', ¬ text.DirectiveAt q' m'

/-- The line that a directive makes of the line of a byte. -/
def mappedLine (text : Bytes) (p : Nat) : Option (Nat × LineMapping) → Nat
  | none | some (_, .physical) => text.lineAt p
  | some (q, .startAt n) => n + text.lineAt p - text.lineAt q - 1

variable {text u v w : Bytes} {b : UInt8} {bs : Bytes} {p q : Nat} {m m' : LineMapping}
variable {d d' : Option (Nat × LineMapping)}

theorem mode_concat (u : Bytes) (b : UInt8) : mode (u ++ [b]) = (mode u).step b := Mode.steps_append _ u [b]

theorem startsLine_concat : StartsLine (u ++ [b]) ↔ b = Ascii.lf := by simp [StartsLine]

/-- A line starts where the mode says so. -/
theorem startsLine_of_mode {s : Bool} (h : mode u = .between s) : u.StartsLine ↔ s = true := by
  rcases List.eq_nil_or_concat u with rfl | ⟨u, b, rfl⟩
  · cases h
    exact ⟨fun _ => rfl, fun _ => .inl rfl⟩
  · rw [List.concat_eq_append, mode_concat] at h
    rw [List.concat_eq_append, startsLine_concat]
    constructor
    · rintro rfl
      rcases (mode u).step_lf with hlf | hlf | hlf <;> cases h.symm.trans hlf
      rfl
    · rintro rfl
      exact Mode.eq_lf_of_step h

theorem not_startsLine_of_slash (h : mode u = .slash) : ¬ u.StartsLine := by
  rcases List.eq_nil_or_concat u with rfl | ⟨u, b, rfl⟩
  · cases h
  · rw [List.concat_eq_append, mode_concat] at h
    rw [List.concat_eq_append, startsLine_concat]
    rintro rfl
    rcases (mode u).step_lf with hlf | hlf | hlf <;> cases h.symm.trans hlf

/-- The next lexeme starts outside strings and comments. -/
theorem step_mode (h : Mode.Ready (mode u) (b :: bs)) : (mode u).step b = .outside (u.StartsLine) b := by
  generalize hm : mode u = m at h
  cases h with
  | @between s =>
    have hs : decide u.StartsLine = s := by
      rw [Bool.eq_iff_iff, decide_eq_true_iff]
      exact startsLine_of_mode hm
    rw [hs]
    rfl
  | slash hslash hstar =>
    rw [decide_eq_false (not_startsLine_of_slash hm), Mode.step, if_neg hslash, if_neg hstar]
  | lf hline => rcases hline with rfl | rfl <;> rfl

theorem mapping_ofDirective (bs : Bytes) : (Lexeme.ofDirective bs).mapping = some m ↔
    m.IsDirective (bs.takeWhile (· ≠ Ascii.lf)) := by
  rw [← Lexeme.directive_eq_ok_iff, Lexeme.ofDirective]
  cases Lexeme.directive (bs.takeWhile (· ≠ Ascii.lf)) <;> simp

/-- A directive is read where a lexeme is one. -/
theorem directiveAt_iff (h : Mode.Ready (mode u) (b :: bs)) :
    DirectiveAt (u ++ b :: bs) u.length m ↔ (Lexeme.ofText (u.StartsLine) b bs).mapping = some m := by
  rw [DirectiveAt, List.take_left, List.drop_left, ← mapping_ofDirective]
  constructor
  · rintro ⟨hmode, hmapping⟩
    obtain ⟨l, hline, hlf⟩ := ((mapping_ofDirective _).1 hmapping).exists_cons
    have hb : b = Ascii.hash := by
      rw [List.takeWhile_cons] at hline
      split at hline
      · exact (List.cons.inj hline).1
      · cases hline
    rwa [Lexeme.ofText, if_pos ⟨hb, decide_eq_true ((startsLine_of_mode hmode).2 rfl)⟩]
  · intro hmapping
    have hhash : b = Ascii.hash ∧ decide u.StartsLine = true := by
      by_contra hno
      rw [Lexeme.mapping_ofText hno] at hmapping
      cases hmapping
    rw [Lexeme.ofText, if_pos hhash] at hmapping
    refine ⟨?_, hmapping⟩
    have hstart := of_decide_eq_true hhash.2
    generalize hm : mode u = m at h
    cases h with
    | between => rw [(startsLine_of_mode hm).1 hstart]
    | slash => exact absurd hstart (not_startsLine_of_slash hm)
    | lf => cases hhash.1

/-- Between the first byte of a lexeme and the next lexeme there is no directive. -/
theorem not_directiveAt_of_quiet (h : Mode.Quiet ((mode u).step b) w) (hlow : u.length < q)
    (hhigh : q < u.length + (w.length + 1)) : ¬ DirectiveAt (u ++ (b :: w ++ v)) q m := by
  rintro ⟨hmode, -⟩
  obtain ⟨k, rfl⟩ := Nat.exists_eq_add_of_lt hlow
  have hk : k < w.length := by omega
  have hw : w = w.take k ++ w[k] :: w.drop (k + 1) := by
    rw [List.getElem_cons_drop, List.take_append_drop]
  have htake : List.take (u.length + k + 1) (u ++ (b :: w ++ v)) = u ++ [b] ++ w.take k := by
    rw [Nat.add_assoc, List.take_length_add_append, List.cons_append, List.take_succ_cons,
      List.take_append_of_le_length (Nat.le_of_lt hk), List.append_assoc]
    rfl
  rw [htake, mode, Mode.steps_append] at hmode
  rw [hw, ← mode_concat] at h
  exact h.steps_ne hmode

theorem DirectiveAt.unique (h : text.DirectiveAt q m) (h' : text.DirectiveAt q m') : m = m' :=
  Except.ok.inj ((Lexeme.directive_of_isDirective h.2).symm.trans (Lexeme.directive_of_isDirective h'.2))

theorem DirectiveAt.exists_drop (h : text.DirectiveAt q m) : ∃ w, text.drop q = Ascii.hash :: w := by
  obtain ⟨l, hline, -⟩ := h.2.exists_cons
  cases hdrop : text.drop q with
  | nil =>
    rw [hdrop] at hline
    cases hline
  | cons b w =>
    rw [hdrop, List.takeWhile_cons] at hline
    split at hline
    · exact ⟨w, by rw [(List.cons.inj hline).1]⟩
    · cases hline

theorem DirectiveAt.pos {n : Nat} (h : text.DirectiveAt q (.startAt n)) : 0 < n := by
  obtain ⟨-, -, argument, -, -, hm, -⟩ := h
  cases hm with
  | startAt _ _ hpos => exact hpos

/-- A directive is longer than its keyword. -/
theorem DirectiveAt.length_lt (h : text.DirectiveAt q m) : q + 6 ≤ text.length := by
  obtain ⟨-, before, argument, after, ending, -, -, -, -, hline⟩ := h
  have hkeyword : List.length ("#line " : Bytes) = 6 := rfl
  have hlength : 6 ≤ ((text.drop q).takeWhile (· ≠ Ascii.lf)).length := by
    rw [hline, List.length_append, List.length_append, hkeyword]
    omega
  have hle := (List.takeWhile_prefix (fun b => decide (b ≠ Ascii.lf)) (l := text.drop q)).length_le
  rw [List.length_drop] at hle
  omega

theorem lineFeeds_lt_length (u w : Bytes) : lineFeeds (u ++ Ascii.hash :: w) < (u ++ Ascii.hash :: w).length := by
  have hhash : lineFeeds (Ascii.hash :: w) = lineFeeds w := List.count_cons_of_ne (by decide)
  have hfront := lineFeeds_le_length u
  have hback := lineFeeds_le_length w
  rw [lineFeeds_append, List.length_append, List.length_cons]
  omega

theorem DirectiveAt.exists_eq_append (h : DirectiveAt (u ++ v) q m) (hq : q < u.length) :
    ∃ w, u = u.take q ++ Ascii.hash :: w := by
  obtain ⟨x, w, hx⟩ := List.exists_cons_of_ne_nil (List.drop_eq_nil_iff.not.2 (Nat.not_le.2 hq))
  obtain ⟨w', hw'⟩ := h.exists_drop
  rw [List.drop_append_of_le_length (Nat.le_of_lt hq), hx] at hw'
  exact ⟨w, by rw [← (List.cons.inj hw').1, ← hx, List.take_append_drop]⟩

/-- The rest of the line of a directive is read before the next lexeme starts. -/
theorem DirectiveAt.lineAt_lt (h : DirectiveAt (u ++ b :: bs) q m) (hq : q < u.length)
    (hready : Mode.Ready u.mode (b :: bs)) (hb : b ≠ Ascii.lf) :
    lineAt (u ++ b :: bs) q < lineAt (u ++ b :: bs) u.length := by
  obtain ⟨w, hu⟩ := h.exists_eq_append hq
  have hmode := h.1
  rw [lineAt, lineAt, List.take_left, List.take_append_of_le_length (Nat.le_of_lt hq)]
  rw [List.take_append_of_le_length (Nat.le_of_lt hq)] at hmode
  by_contra hnot
  have hfeeds : lineFeeds (Ascii.hash :: w) = 0 := by
    have hsum := lineFeeds_append (u.take q) (Ascii.hash :: w)
    rw [← hu] at hsum
    omega
  have hlf : Ascii.lf ∉ w := fun hmem =>
    List.count_eq_zero.1 hfeeds (List.mem_cons_of_mem _ hmem)
  -- otherwise the directive would still go on
  have hline : u.mode = .line := by
    rw [hu, mode, Mode.steps_append, ← mode, hmode]
    exact (Mode.run_line hlf).2
  rw [hline] at hready
  cases hready
  exact hb rfl

/-- There is one last directive at most. -/
theorem LastDirective.unique (h : text.LastDirective p d) (h' : text.LastDirective p d') : d = d' := by
  cases d with
  | none =>
    cases d' with
    | none => rfl
    | some d' => exact absurd h'.2.1 (h d'.1 h'.1 d'.2)
  | some d =>
    cases d' with
    | none => exact absurd h.2.1 (h' d.1 h.1 d.2)
    | some d' =>
      obtain ⟨q, m⟩ := d
      obtain ⟨q', m'⟩ := d'
      obtain ⟨hq, hm, hbehind⟩ := h
      obtain ⟨hq', hm', hbehind'⟩ := h'
      rcases Nat.lt_trichotomy q q' with hlt | rfl | hlt
      · exact absurd hm' (hbehind q' hlt hq' m')
      · rw [hm.unique hm']
      · exact absurd hm (hbehind' q hlt hq m)

/-- The last directive in front of a byte farther on. -/
theorem LastDirective.next (h : text.LastDirective p d) (hlt : p < q) {mapping : Option LineMapping}
    (hmapping : ∀ m, text.DirectiveAt p m ↔ mapping = some m)
    (hbetween : ∀ q', p < q' → q' < q → ∀ m, ¬ text.DirectiveAt q' m) :
    text.LastDirective q (mapping.elim d fun m => some (p, m)) := by
  cases mapping with
  | some m => exact ⟨hlt, (hmapping m).2 rfl, hbetween⟩
  | none =>
    have hnone (m : LineMapping) : ¬ text.DirectiveAt p m := fun hm => by cases (hmapping m).1 hm
    cases d with
    | none =>
      intro q' hq' m
      rcases Nat.lt_trichotomy q' p with hless | rfl | hmore
      · exact h q' hless m
      · exact hnone m
      · exact hbetween q' hmore hq' m
    | some d =>
      obtain ⟨hp, hm, hbehind⟩ := h
      refine ⟨Nat.lt_trans hp hlt, hm, fun q' hlow hq' m => ?_⟩
      rcases Nat.lt_trichotomy q' p with hless | rfl | hmore
      · exact hbehind q' hlow hless m
      · exact hnone m
      · exact hbetween q' hmore hq' m

end Bytes

/-! ## Places of tokens -/

namespace Cursor

open Bytes

theorem line_steps_eq (u : Bytes) : (({} : Cursor).steps u).line = UInt32.ofNat (u.lineFeeds + 1) := by
  induction u using List.reverseRecOn with
  | nil => rfl
  | append_singleton u b ih =>
    rw [steps_append, lineFeeds_append]
    change ((({} : Cursor).steps u).step b).line = _
    by_cases hb : b = Ascii.lf
    · subst hb
      have hfeed : lineFeeds [Ascii.lf] = 1 := rfl
      rw [hfeed, UInt32.ofNat_add _ 1, ← ih]
      rfl
    · have hnone : lineFeeds [b] = 0 := List.count_eq_zero.2 (by simpa using Ne.symm hb)
      rw [step, if_neg hb, hnone]
      exact ih

theorem afterLast_concat (x : UInt8) (u : Bytes) (b : UInt8) :
    afterLast x (u ++ [b]) = if b = x then [] else afterLast x u ++ [b] := by
  rw [afterLast, List.reverse_append, List.reverse_singleton, List.singleton_append, List.takeWhile_cons]
  split
  · next hne => rw [if_neg (by simpa using hne), List.reverse_cons, afterLast]
  · next heq => rw [if_pos (by simpa using heq), List.reverse_nil]

theorem column_steps_eq (u : Bytes) :
    (({} : Cursor).steps u).column = UInt32.ofNat ((afterLast Ascii.lf u).length + 1) := by
  induction u using List.reverseRecOn with
  | nil => rfl
  | append_singleton u b ih =>
    rw [steps_append, afterLast_concat]
    change ((({} : Cursor).steps u).step b).column = _
    by_cases hb : b = Ascii.lf
    · rw [hb, column_step_lf, if_pos rfl]
      rfl
    · rw [column_step _ hb, if_neg hb, List.length_append, List.length_singleton, UInt32.ofNat_add _ 1, ← ih]
      rfl

/-- The cursor knows where lines start. -/
theorem startsLine_steps_iff {u : Bytes} (h : u.length + 1 < 4294967296) (shift : Int) :
    ({ ({} : Cursor).steps u with shift } : Cursor).startsLine = true ↔ u.StartsLine := by
  have hoffset : (({} : Cursor).steps u).offset < 4294967296 := by
    rw [offset_steps, Nat.zero_add]
    omega
  refine startsLine_iff.trans ((and_iff_left hoffset).trans ⟨?_, ?_⟩)
  · refine getLast?_of_column_steps (c := {}) (by decide) ?_
    have hone : ({} : Cursor).column.toNat = 1 := rfl
    omega
  · rintro (rfl | hlast)
    · exact (by decide : ({} : Cursor).column = 1)
    · obtain ⟨v, rfl⟩ := List.getLast?_eq_some_iff.1 hlast
      rw [steps_append]
      exact column_step_lf _

end Cursor

namespace TokenStream

open Bytes

/-- What a directive adds to the physical lines behind it. -/
def shiftOf (text : Bytes) : Option (Nat × LineMapping) → Int
  | none | some (_, .physical) => 0
  | some (q, .startAt n) => (n : Int) - (text.lineAt q + 1 : Nat)

/-- The scanner has come to `v` and has read the part of the text that stands in front of it. -/
structure ReadTo (text u v : Bytes) (c : Cursor) (d : Option (Nat × LineMapping)) : Prop where
  text_eq : text = u ++ v
  ready : Mode.Ready u.mode v
  last : text.LastDirective u.length d
  cursor : c = { ({} : Cursor).steps u with shift := shiftOf text d }

variable {text u v bs : Bytes} {b : UInt8} {c : Cursor} {d : Option (Nat × LineMapping)} {l : Lexeme}

theorem ReadTo.start (text : Bytes) : ReadTo text [] text {} none :=
  ⟨rfl, .between, fun _ h => absurd h (Nat.not_lt_zero _), rfl⟩

theorem ReadTo.startsLine (h : ReadTo text u (b :: bs) c d) (hsize : text.length < 4294967296) :
    c.startsLine = decide u.StartsLine := by
  have hlength : u.length + 1 ≤ text.length := by
    rw [h.text_eq, List.length_append, List.length_cons]
    omega
  rw [h.cursor, Bool.eq_iff_iff, decide_eq_true_iff]
  exact Cursor.startsLine_steps_iff (Nat.lt_of_le_of_lt hlength hsize) _

/-- The scanner reads one lexeme. -/
theorem ReadTo.after (h : ReadTo text u (b :: bs) c d) (hsize : text.length < 4294967296)
    (hl : l = Lexeme.ofText c.startsLine b bs) :
    ReadTo text (u ++ l.raw) l.rest (c.after l) (l.mapping.elim d fun m => some (u.length, m)) := by
  rw [h.startsLine hsize] at hl
  obtain ⟨w, hraw, hquiet, hready⟩ := Mode.reads_ofText (u.StartsLine) b bs
  have htext : b :: w ++ l.rest = b :: bs := by
    rw [hl, ← hraw]
    exact Lexeme.ofText_raw_append_rest _ _ _
  rw [← hl] at hraw hready
  rw [← step_mode h.ready] at hquiet hready
  have hmapping (m : LineMapping) : text.DirectiveAt u.length m ↔ l.mapping = some m := by
    rw [h.text_eq, hl]
    exact directiveAt_iff h.ready
  refine ⟨?_, ?_, ?_, ?_⟩
  · rw [hraw, List.append_assoc, htext]
    exact h.text_eq
  · have hmode : mode (u ++ l.raw) = ((mode u).step b).steps w := by
      rw [hraw, mode, Mode.steps_append]
      rfl
    rwa [hmode]
  · rw [hraw, List.length_append, List.length_cons]
    refine h.last.next (by omega) hmapping fun q hlow hhigh m => ?_
    rw [h.text_eq, ← htext]
    exact not_directiveAt_of_quiet hquiet hlow hhigh
  · have hnext (n : Nat) (hn : l.mapping = some (.startAt n)) :
        c.shiftTo n = shiftOf text (some (u.length, .startAt n)) := by
      have hroom := ((hmapping _).2 hn).length_lt
      have hfeeds := lineFeeds_le_length u
      have htake : text.take u.length = u := by rw [h.text_eq, List.take_left]
      have hline : c.line.toNat = u.lineFeeds + 1 := by
        rw [h.cursor]
        dsimp only
        rw [Cursor.line_steps_eq, UInt32.toNat_ofNat_of_lt' (by rw [UInt32.size]; omega)]
      rw [Cursor.shiftTo, toNat_add_one (by omega), hline, shiftOf, lineAt, htake]
    have hsteps : c.after l = { ({} : Cursor).steps (u ++ l.raw) with shift := (c.after l).shift } := by
      obtain ⟨shift, hafter⟩ := c.exists_after_eq l
      rw [hafter, h.cursor, Cursor.steps_shift, Cursor.steps_append]
    rw [hsteps, Cursor.after, Cursor.shift_steps]
    cases hm : l.mapping with
    | none => rw [h.cursor]; rfl
    | some m =>
      cases m with
      | physical => rfl
      | startAt n => dsimp only; rw [hnext n hm]; rfl

/-- What is read stands behind what has been read. -/
theorem ReadTo.of_mem_placedFrom {p : Nat} {t : Token} (h : ReadTo text u v c d)
    (hsize : text.length < 4294967296) (ht : (p, t) ∈ placedFrom u.length c v) :
    ∃ u' v' c' d', ReadTo text u' v' c' d' ∧ p = u'.length ∧ t.span = c'.span ∧
      v'.head? ≠ some Ascii.lf := by
  induction hn : v.length using Nat.strongRecOn generalizing u v c d with
  | ind n ih =>
  cases v with
  | nil =>
    rw [placedFrom] at ht
    cases List.mem_singleton.1 ht
    exact ⟨u, [], c, d, h, rfl, rfl, by simp⟩
  | cons b bs =>
    rw [placedFrom_cons] at ht
    generalize hl : Lexeme.ofText c.startsLine b bs = l at ht
    rcases List.mem_append.1 ht with hfirst | hrest
    · obtain ⟨t', ht', hpair⟩ := List.mem_map.1 hfirst
      cases hpair
      simp only [tokenAt, Option.mem_toList, Option.map_eq_some_iff] at ht'
      obtain ⟨kind, hkind, rfl⟩ := ht'
      refine ⟨u, b :: bs, c, d, h, rfl, rfl, ?_⟩
      rintro ⟨⟩
      rw [← hl, Lexeme.ofText_blank rfl] at hkind
      cases hkind
    · have hlt := hn ▸ hl ▸ Lexeme.length_ofText_rest_lt c.startsLine b bs
      rw [← List.length_append] at hrest
      exact ih _ hlt (h.after hsize hl.symm) hrest rfl

theorem ReadTo.lineAt_eq (h : ReadTo text u v c d) : text.lineAt u.length = u.lineFeeds + 1 := by
  rw [lineAt, h.text_eq, List.take_left]

theorem ReadTo.line_eq (h : ReadTo text u v c d) (hlines : u.lineFeeds + 1 < 4294967296) :
    c.line.toNat = text.lineAt u.length := by
  rw [h.lineAt_eq, h.cursor]
  dsimp only
  rw [Cursor.line_steps_eq, UInt32.toNat_ofNat_of_lt' hlines]

/-- Lines are physical as long as no directive counts them anew. -/
theorem ReadTo.span_line_physical (h : ReadTo text u v c d) (hsize : text.length < 4294967296)
    (hshift : c.shift = 0) : c.span.line =
      if v = [] ∧ text.lineFeeds = 4294967295 then 1 else UInt32.ofNat (text.lineAt u.length) := by
  have hfeeds := lineFeeds_le_length u
  have hlength : text.length = u.length + v.length := by rw [h.text_eq, List.length_append]
  rw [Cursor.span, hshift]
  dsimp only
  by_cases hlines : u.lineFeeds + 1 < 4294967296
  · have hguard : ¬ (v = [] ∧ text.lineFeeds = 4294967295) := by
      rintro ⟨rfl, hfull⟩
      rw [h.text_eq, List.append_nil] at hfull
      omega
    have hpos := h.lineAt_eq
    rw [if_neg hguard, h.line_eq hlines, if_neg (by omega), Int.add_zero, Int.toNat_natCast]
  · -- all bytes of the text are line feeds, and there are too many to be counted
    have hnil : v = [] := List.length_eq_zero_iff.1 (by omega)
    have hfull : text.lineFeeds = 4294967295 := by
      rw [h.text_eq, hnil, List.append_nil]
      omega
    have hzero : c.line = 0 := by
      rw [h.cursor]
      dsimp only
      rw [Cursor.line_steps_eq, show u.lineFeeds + 1 = 4294967296 by omega]
      rfl
    rw [hzero]
    exact (if_pos (by decide)).trans (if_pos ⟨hnil, hfull⟩).symm

/-- Lines behind a directive are counted from the one that it names. -/
theorem ReadTo.span_line_startAt {q n : Nat} (h : ReadTo text u v c (some (q, .startAt n)))
    (hsize : text.length < 4294967296) (hv : v.head? ≠ some Ascii.lf) : c.span.line =
      if v = [] ∧ text.mappedLine u.length (some (q, .startAt n)) = 0 then 1
      else UInt32.ofNat (text.mappedLine u.length (some (q, .startAt n))) := by
  obtain ⟨hq, hdirective, -⟩ := h.last
  have hn := hdirective.pos
  have hfeeds : u.lineFeeds < u.length := by
    obtain ⟨w, hu⟩ := DirectiveAt.exists_eq_append (h.text_eq ▸ hdirective) hq
    exact hu ▸ lineFeeds_lt_length _ _
  have hle := text.lineAt_mono (Nat.le_of_lt hq)
  have hlt : v ≠ [] → text.lineAt q < text.lineAt u.length := by
    intro hne
    obtain ⟨b, bs, rfl⟩ := List.exists_cons_of_ne_nil hne
    rw [h.text_eq]
    exact (h.text_eq ▸ hdirective).lineAt_lt hq h.ready fun hb => hv (congrArg some hb)
  have hlength : text.length = u.length + v.length := by rw [h.text_eq, List.length_append]
  have hshift : c.shift = (n : Int) - (text.lineAt q + 1 : Nat) := by rw [h.cursor]; rfl
  have hmapped : (c.line.toNat : Int) + c.shift =
      (text.mappedLine u.length (some (q, .startAt n)) : Nat) := by
    rw [h.line_eq (by omega), hshift, mappedLine]
    omega
  rw [Cursor.span, hmapped]
  dsimp only
  by_cases hzero : text.mappedLine u.length (some (q, .startAt n)) = 0
  · have hnil : v = [] := by
      by_contra hne
      have hless := hlt hne
      rw [mappedLine] at hzero
      omega
    rw [if_pos (by omega), if_pos ⟨hnil, hzero⟩]
  · rw [if_neg (by omega), if_neg fun hguard => hzero hguard.2, Int.toNat_natCast]

/-- A token has the column of its first byte, and the line that the last directive in front of it makes of
the physical one. Only the end of the text can be on a line that does not exist, the line in front of the
first one; it is reported on line 1. -/
theorem span_of_mem_placed {text : Bytes} (hsize : text.length < 4294967296) {p : Nat} {t : Token}
    (ht : (p, t) ∈ placed text) :
    t.span.column = UInt32.ofNat (text.columnAt p) ∧
      ∃ d, (∀ d', text.LastDirective p d' ↔ d' = d) ∧
        t.span.line =
          if p = text.length ∧ (text.mappedLine p d = 0 ∨ text.lineFeeds = 4294967295) then 1
          else UInt32.ofNat (text.mappedLine p d) := by
  obtain ⟨u, v, c, d, h, rfl, hspan, hv⟩ := (ReadTo.start text).of_mem_placedFrom hsize ht
  have htake : text.take u.length = u := by rw [h.text_eq, List.take_left]
  have hend : v = [] ↔ u.length = text.length := by
    rw [h.text_eq, List.length_append, ← List.length_eq_zero_iff]
    omega
  have hphysical (hd : text.mappedLine u.length d = text.lineAt u.length) (hshift : c.shift = 0) :
      c.span.line = if u.length = text.length ∧
          (text.mappedLine u.length d = 0 ∨ text.lineFeeds = 4294967295) then 1
        else UInt32.ofNat (text.mappedLine u.length d) := by
    have hpos : text.lineAt u.length ≠ 0 := Nat.succ_ne_zero _
    rw [hd]
    exact (h.span_line_physical hsize hshift).trans
      (if_congr (and_congr hend (or_iff_right hpos).symm) rfl rfl)
  refine ⟨?_, d, fun d' => ⟨fun hd' => hd'.unique h.last, fun hd' => hd' ▸ h.last⟩, hspan ▸ ?_⟩
  · rw [hspan, h.cursor, columnAt, htake]
    exact Cursor.column_steps_eq u
  · match d, h with
    | none, h => exact hphysical rfl (by rw [h.cursor]; rfl)
    | some (q, .physical), h => exact hphysical rfl (by rw [h.cursor]; rfl)
    | some (q, .startAt n), h =>
      obtain ⟨w, hw⟩ := h.last.2.1.exists_drop
      have hfeeds := lineFeeds_lt_length (text.take q) w
      rw [← hw, List.take_append_drop] at hfeeds
      exact (h.span_line_startAt hsize hv).trans
        (if_congr (and_congr hend (or_iff_left (by omega)).symm) rfl rfl)

/-- A line that starts inside a string, behind a backslash, and a hash sign that does not start its line. -/
def escapedText : Bytes := "#line 40\n\"\\\n#line 7\"\n #line 8\nb"

theorem span_of_mem_placed_escaped :
    escapedText.length < 4294967296 ∧
      (30, { kind := .identifier "b", span := ⟨43, 1⟩ }) ∈ placed escapedText ∧
      escapedText.LastDirective 30 (some (0, .startAt 40)) ∧
      escapedText.mappedLine 30 (some (0, .startAt 40)) = 43 ∧
      (1 : UInt32) = UInt32.ofNat (escapedText.columnAt 30) ∧
      ∃ d, (∀ d', escapedText.LastDirective 30 d' ↔ d' = d) ∧
        43 = if 30 = escapedText.length ∧
            (escapedText.mappedLine 30 d = 0 ∨ escapedText.lineFeeds = 4294967295) then 1
          else UInt32.ofNat (escapedText.mappedLine 30 d) := by
  have hsize : escapedText.length < 4294967296 := by decide
  have hmem : (30, { kind := .identifier "b", span := ⟨43, 1⟩ }) ∈ placed escapedText := by decide +kernel
  have hfirst : escapedText.DirectiveAt 0 (.startAt 40) := ⟨rfl, Lexeme.directive_eq_ok_iff.1 (by decide)⟩
  have hothers : ∀ q < 30, 0 < q → mode (escapedText.take q) = .between true →
      (Lexeme.directive ((escapedText.drop q).takeWhile (· ≠ Ascii.lf))).toOption = none := by decide +kernel
  have hlast : escapedText.LastDirective 30 (some (0, .startAt 40)) := by
    refine ⟨by decide, hfirst, fun q hlow hhigh m hm => ?_⟩
    have hnone := hothers q hhigh hlow hm.1
    rw [Lexeme.directive_of_isDirective hm.2] at hnone
    cases hnone
  exact ⟨hsize, hmem, hlast, by decide, span_of_mem_placed hsize hmem⟩

/-- The end of a text that ends with the directive for line 1 is on the line in front of that one, and
is not reported there. -/
theorem not_forall_line_eq_mappedLine :
    ¬ ∀ (text : Bytes) (p : Nat) (t : Token) (d : Option (Nat × LineMapping)), text.length < 4294967296 →
      (p, t) ∈ placed text → text.LastDirective p d → t.span.line = UInt32.ofNat (text.mappedLine p d) := by
  intro h
  have hmem : (7, { kind := .eof, span := ⟨1, 8⟩ }) ∈ placed "#line 1" := by decide +kernel
  have hfirst : DirectiveAt "#line 1" 0 (.startAt 1) := ⟨rfl, Lexeme.directive_eq_ok_iff.1 (by decide)⟩
  have hothers : ∀ q < 7, 0 < q → mode (("#line 1" : Bytes).take q) ≠ .between true := by decide +kernel
  have hlast : LastDirective "#line 1" 7 (some (0, .startAt 1)) :=
    ⟨by decide, hfirst, fun q hlow hhigh m hm => hothers q hhigh hlow hm.1⟩
  have hline := h _ _ _ _ (by decide) hmem hlast
  exact absurd hline (by decide)

end TokenStream

end ViewCompiler
