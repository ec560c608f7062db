import Mathlib.Data.List.Basic
import Mathlib.Data.Option.Basic
import ViewCompiler.Proofs.Numerals

/-!
Readers of text. A reader takes a value off the front of a text, or refuses it. For each reader one lemma says
what it makes of a value as it is written, in front of any text that does not go on with it. A reader that is
put together from others is run by their lemmas.
-/

namespace ViewCompiler

/-- Takes a value off the front of a text. -/
abbrev Reader := StateT Bytes Option

namespace Reader

variable {α : Type}

/-- The text `t` itself. -/
def literal (t : Bytes) : Reader Unit := fun text => (t.isPrefixOf? text).map fun rest => ((), rest)

/-- One byte of this kind or more. -/
def word (kind : UInt8 → Bool) : Reader Bytes := fun text =>
  if text.takeWhile kind = [] then none else some (text.takeWhile kind, text.dropWhile kind)

/-- The bytes in front of the next `mark`. -/
def upTo (mark : UInt8) : Reader Bytes := fun text =>
  some (text.takeWhile (· ≠ mark), text.dropWhile (· ≠ mark))

/-- A value that there is. -/
def given : Option α → Reader α
  | some a => pure a
  | none => failure

/-- A number in decimal digits, without leading zeros. -/
def number : Reader Nat := do
  let digits ← word Ascii.isDigit
  let n ← given digits.toNat?
  guard (Bytes.ofNat n = digits)
  return n

/-- What stands behind the first of these beginnings that the text has. -/
def oneOf : List (Bytes × Reader α) → Reader α
  | [], _ => none
  | (t, r) :: others, text =>
    match t.isPrefixOf? text with
    | some rest => r.run rest
    | none => (oneOf others).run text

/-- As many values as there are, but no more than a number of them. -/
def atMost (r : Reader α) : Nat → Reader (List α)
  | 0, text => some ([], text)
  | n + 1, text =>
    match r.run text with
    | some (a, rest) => ((atMost r n).run rest).map fun (as, rest) => (a :: as, rest)
    | none => some ([], text)

/-- As many values as there are. -/
def many (r : Reader α) : Reader (List α) := fun text => (atMost r text.length).run text

/-- Values with commas between them. -/
def commaList (r : Reader α) : Reader (List α) :=
  (do
    let a ← r
    let others ← many (do literal ", "; r)
    return a :: others) <|> pure []

/-! ## Runs -/

/-- The text does not go on with a byte of this kind. -/
def stops (kind : UInt8 → Bool) : Bytes → Bool
  | [] => true
  | b :: _ => !kind b

/-- The text begins with a byte of another kind. -/
def breaks (kind : UInt8 → Bool) : Bytes → Bool
  | [] => false
  | b :: _ => !kind b

/-- No text begins with both. -/
def diverge (s t : Bytes) : Bool := !s.isPrefixOf t && !t.isPrefixOf s

section
variable {kind : UInt8 → Bool} {mark : UInt8} {s t rest text : Bytes}

/-- What is read behind a value that has been read. -/
theorem run_bind_of {β : Type} {r : Reader α} {a : α} (h : r.run text = some (a, rest)) (f : α → Reader β) :
    (r >>= f).run text = (f a).run rest := by
  rw [StateT.run_bind, h]
  rfl

@[simp] theorem run_literal (t rest : Bytes) : (literal t).run (t ++ rest) = some ((), rest) := by
  have hprefix : t.isPrefixOf? (t ++ rest) = some rest := List.isPrefixOf?_eq_some_iff_append_eq.2 rfl
  rw [StateT.run, literal, hprefix]
  rfl

theorem isPrefixOf?_of_diverge (h : diverge s t = true) (rest : Bytes) :
    s.isPrefixOf? (t ++ rest) = none := by
  rw [diverge, Bool.and_eq_true, Bool.not_eq_true', Bool.not_eq_true'] at h
  by_contra hsome
  obtain ⟨tail, htail⟩ := Option.ne_none_iff_exists'.1 hsome
  rw [List.isPrefixOf?_eq_some_iff_append_eq] at htail
  have hne : ∀ a b : Bytes, a.isPrefixOf (a ++ b) = true := fun a b =>
    List.isPrefixOf_iff_prefix.2 (List.prefix_append a b)
  rcases List.append_eq_append_iff.1 htail with ⟨as, rfl, -⟩ | ⟨as, rfl, -⟩
  · rw [hne] at h
    cases h.1
  · rw [hne] at h
    cases h.2

@[simp] theorem run_literal_of_diverge (h : diverge s t = true) (rest : Bytes) :
    (literal s).run (t ++ rest) = none := by
  rw [StateT.run, literal, isPrefixOf?_of_diverge h]
  rfl

@[simp] theorem stops_append (h : breaks kind t = true) (rest : Bytes) : stops kind (t ++ rest) = true := by
  cases t with
  | nil => cases h
  | cons => exact h

theorem takeWhile_of_stops (h : stops kind text = true) : text.takeWhile kind = [] := by
  cases text with
  | nil => rfl
  | cons b _ => rw [List.takeWhile_cons_of_neg (by simpa [stops] using h)]

theorem dropWhile_of_stops (h : stops kind text = true) : text.dropWhile kind = text := by
  cases text with
  | nil => rfl
  | cons b _ => rw [List.dropWhile_cons_of_neg (by simpa [stops] using h)]

theorem run_word (hs : s.all kind = true) (hne : s ≠ []) (hrest : stops kind rest = true) :
    (word kind).run (s ++ rest) = some (s, rest) := by
  rw [List.all_eq_true] at hs
  have htake : (s ++ rest).takeWhile kind = s := by
    rw [List.takeWhile_append_of_pos hs, takeWhile_of_stops hrest, List.append_nil]
  have hdrop : (s ++ rest).dropWhile kind = rest := by
    rw [List.dropWhile_append_of_pos hs, dropWhile_of_stops hrest]
  rw [StateT.run, word, htake, hdrop, if_neg hne]

theorem run_word_of_stops (h : stops kind text = true) : (word kind).run text = none := by
  rw [StateT.run, word, if_pos (takeWhile_of_stops h)]

theorem run_upTo (hs : mark ∉ s) (hrest : stops (· ≠ mark) rest = true) :
    (upTo mark).run (s ++ rest) = some (s, rest) := by
  have hpass : ∀ b ∈ s, decide (b ≠ mark) = true := fun b hb => by
    rw [decide_eq_true_eq]
    rintro rfl
    exact hs hb
  rw [StateT.run, upTo, List.takeWhile_append_of_pos hpass, List.dropWhile_append_of_pos hpass,
    takeWhile_of_stops hrest, dropWhile_of_stops hrest, List.append_nil]

@[simp] theorem run_guard {p : Prop} [Decidable p] (h : p) (text : Bytes) :
    (guard p : Reader Unit).run text = some ((), text) := by
  rw [guard, if_pos h]
  rfl

@[simp] theorem run_number (n : Nat) (hrest : stops Ascii.isDigit rest = true) :
    number.run (Bytes.ofNat n ++ rest) = some (n, rest) := by
  have hdigits : (Bytes.ofNat n).all Ascii.isDigit = true :=
    List.all_eq_true.2 fun _ => Bytes.isDigit_of_mem_ofNat
  have hguard : (guard (Bytes.ofNat n = Bytes.ofNat n) : Reader Unit).run rest = some ((), rest) :=
    run_guard rfl rest
  rw [number, run_bind_of (run_word hdigits (Bytes.ofNat_ne_nil n) hrest), Bytes.toNat?_ofNat]
  exact run_bind_of hguard fun _ => pure n

@[simp] theorem run_number_of_stops (h : stops Ascii.isDigit text = true) : number.run text = none := by
  rw [number, StateT.run_bind, run_word_of_stops h]
  rfl

@[simp] theorem run_orElse (r r' : Reader α) (text : Bytes) :
    (r <|> r').run text = (r.run text).or (r'.run text) := by
  change (r.run text <|> r'.run text) = _
  cases r.run text <;> rfl

@[simp] theorem run_oneOf_nil (text : Bytes) : (oneOf [] : Reader α).run text = none := rfl

@[simp] theorem run_oneOf_head (t : Bytes) (r : Reader α) (others : List (Bytes × Reader α)) (rest : Bytes) :
    (oneOf ((t, r) :: others)).run (t ++ rest) = r.run rest := by
  have hprefix : t.isPrefixOf? (t ++ rest) = some rest := List.isPrefixOf?_eq_some_iff_append_eq.2 rfl
  rw [StateT.run, oneOf, hprefix]

@[simp] theorem run_oneOf_tail (h : diverge s t = true) (r : Reader α) (others : List (Bytes × Reader α))
    (rest : Bytes) :
    (oneOf ((s, r) :: others)).run (t ++ rest) = (oneOf others).run (t ++ rest) := by
  rw [StateT.run, oneOf, isPrefixOf?_of_diverge h]

end

/-! ## Lists -/

section
variable {β : Type} {r : Reader α} {print : β → Bytes} {f : β → α} {bs : List β} {rest : Bytes}

theorem run_atMost {follow : Bytes → Prop} {n : Nat} (hn : (bs.flatMap print).length ≤ n)
    (hitem : ∀ b ∈ bs, ∀ rest, follow rest → r.run (print b ++ rest) = some (f b, rest))
    (hfollow : ∀ b ∈ bs, ∀ rest, follow (print b ++ rest)) (hrest : follow rest)
    (hstop : r.run rest = none) : (atMost r n).run (bs.flatMap print ++ rest) = some (bs.map f, rest) := by
  induction bs generalizing n with
  | nil =>
    cases n with
    | zero => rfl
    | succ n => rw [List.flatMap_nil, List.nil_append, StateT.run, atMost, hstop, List.map_nil]
  | cons b bs ih =>
    obtain ⟨hb, hbs⟩ := List.forall_mem_cons.1 hitem
    obtain ⟨hf, hfs⟩ := List.forall_mem_cons.1 hfollow
    -- What is read is not empty, for the same reader stops in front of the rest.
    have hpos : 0 < (print b).length := List.length_pos_iff.2 fun hnil => by
      have hread := hb rest hrest
      rw [hnil, List.nil_append, hstop] at hread
      cases hread
    have hnext : follow (bs.flatMap print ++ rest) := by
      cases bs with
      | nil => exact hrest
      | cons c bs =>
        rw [List.flatMap_cons, List.append_assoc]
        exact hfs c List.mem_cons_self _
    rw [List.flatMap_cons, List.length_append] at hn
    obtain ⟨n, rfl⟩ : ∃ k, n = k + 1 := Nat.exists_eq_add_one.2 (by omega)
    have hothers : (atMost r n).run (bs.flatMap print ++ rest) = some (bs.map f, rest) :=
      ih (by omega) hbs hfs
    rw [List.flatMap_cons, List.append_assoc, StateT.run, atMost, hb _ hnext]
    dsimp only
    rw [hothers]
    rfl

/-- Values that stand one behind the other, where nothing is read behind the last one. What follows a value is
another value or the rest. -/
theorem run_many (follow : Bytes → Prop)
    (hitem : ∀ b ∈ bs, ∀ rest, follow rest → r.run (print b ++ rest) = some (f b, rest))
    (hfollow : ∀ b ∈ bs, ∀ rest, follow (print b ++ rest)) (hrest : follow rest)
    (hstop : r.run rest = none) : (many r).run (bs.flatMap print ++ rest) = some (bs.map f, rest) :=
  run_atMost (by simp) hitem hfollow hrest hstop

/-- Values that can stand in front of any text. -/
theorem run_many_lines {r : Reader α} {print : β → Bytes} {f : β → α} {bs : List β}
    (hitem : ∀ b ∈ bs, ∀ rest, r.run (print b ++ rest) = some (f b, rest)) (hstop : r.run rest = none) :
    (many r).run (bs.flatMap print ++ rest) = some (bs.map f, rest) :=
  run_many (fun _ => True) (fun b hb rest _ => hitem b hb rest) (fun _ _ _ => trivial) trivial hstop

theorem join_cons (sep a : Bytes) (as : List Bytes) :
    Bytes.join sep (a :: as) = a ++ as.flatMap fun b => sep ++ b := by
  rw [Bytes.join]
  induction as generalizing a with
  | nil => simp
  | cons b as ih =>
    rw [List.intercalate_cons_cons, ih, List.flatMap_cons, List.append_assoc, List.append_assoc]

/-- Values of which each is read in front of a byte of another kind, as commas are. -/
theorem run_commaList (kind : UInt8 → Bool) {print : α → Bytes} {as : List α}
    (hitem : ∀ a ∈ as, ∀ rest, stops kind rest = true → r.run (print a ++ rest) = some (a, rest))
    (hkind : kind Ascii.comma = false) (hrest : stops kind rest = true) (hstop : r.run rest = none)
    (hcomma : (literal ", ").run rest = none) :
    (commaList r).run (Bytes.join ", " (as.map print) ++ rest) = some (as, rest) := by
  cases as with
  | nil =>
    rw [commaList, run_orElse, List.map_nil, Bytes.join, List.intercalate_nil, List.nil_append,
      StateT.run_bind, hstop]
    rfl
  | cons a as =>
    obtain ⟨ha, has⟩ := List.forall_mem_cons.1 hitem
    have hfollow (b : α) (rest : Bytes) : stops kind (((", " : Bytes) ++ print b) ++ rest) = true := by
      change (!kind Ascii.comma) = true
      rw [hkind]
      rfl
    have hothers : (many (do literal ", "; r)).run (as.flatMap (fun b => (", " : Bytes) ++ print b) ++ rest) =
        some (as.map id, rest) := by
      refine run_many (fun rest => stops kind rest = true) (fun b hb rest hrest => ?_)
        (fun b _ rest => hfollow b rest) hrest ?_
      · rw [List.append_assoc, StateT.run_bind, run_literal, Option.bind_eq_bind, Option.bind_some]
        exact has b hb rest hrest
      · rw [StateT.run_bind, hcomma]
        rfl
    have hnext : stops kind (as.flatMap (fun b => (", " : Bytes) ++ print b) ++ rest) = true := by
      cases as with
      | nil => exact hrest
      | cons b as =>
        rw [List.flatMap_cons, List.append_assoc]
        exact hfollow b _
    rw [commaList, run_orElse, List.map_cons, join_cons, List.flatMap_map, List.append_assoc,
      StateT.run_bind, ha _ hnext, Option.bind_eq_bind, Option.bind_some, StateT.run_bind, hothers,
      List.map_id]
    rfl

end

end Reader

end ViewCompiler
