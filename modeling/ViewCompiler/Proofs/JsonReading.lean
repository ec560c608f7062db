import Mathlib.Data.List.TakeWhile
import ViewCompiler.Proofs.Lexemes
import ViewCompiler.Proofs.Numerals

/-!
JSON texts. `Json.Denotes` says which value a text is, with all that the grammar of JSON has: blanks around
marks, numbers with fraction and exponent, all escapes, and nesting. Strings are given by their code
points, numbers by mantissa and power of ten. A value is read in as many steps as it takes, and more steps
do not change what is read (`Json.value?_add`).
-/

namespace ViewCompiler

namespace Json

abbrev quote : Char := '\x22'
abbrev backslash : Char := '\x5c'
abbrev openBrace : Char := '\x7b'
abbrev closeBrace : Char := '\x7d'

/-- A value. The code points of a string may be surrogates, which escapes can name one by one. -/
inductive Value where
  | null
  | bool (b : Bool)
  | number (mantissa exponent : Int)
  | string (text : List Nat)
  | array (items : List Value)
  | object (members : List (List Nat × Value))
deriving Repr

/-! ## Blanks, words and marks -/

def isBlank (c : Char) : Bool := c == ' ' || c == '\t' || c == '\n' || c == '\r'

def skip (s : List Char) : List Char := s.dropWhile isBlank

/-- The text behind a mark and the blanks around it. -/
def mark? (m : Char) (s : List Char) : Option (List Char) :=
  match skip s with
  | [] => none
  | c :: s => if c = m then some (skip s) else none

/-- What stands behind an item of a list: another item, or the end of the list. -/
def next? (close : Char) (s : List Char) : Option (Bool × List Char) :=
  match skip s with
  | [] => none
  | c :: s => if c = ',' then some (true, skip s) else if c = close then some (false, s) else none

def literal? (s : List Char) : Option (Value × List Char) :=
  if "null".toList <+: s then some (.null, s.drop 4)
  else if "true".toList <+: s then some (.bool true, s.drop 4)
  else if "false".toList <+: s then some (.bool false, s.drop 5)
  else none

/-! ## Strings -/

/-- The number of a hexadecimal digit. -/
def hexDigit? (c : Char) : Option Nat :=
  if c.isDigit then some (c.toNat - 48)
  else if 'a' ≤ c ∧ c ≤ 'f' then some (c.toNat - 87)
  else if 'A' ≤ c ∧ c ≤ 'F' then some (c.toNat - 55)
  else none

/-- The number of four hexadecimal digits. -/
def hexNumber? (a b c d : Char) : Option Nat := do
  let a ← hexDigit? a
  let b ← hexDigit? b
  let c ← hexDigit? c
  let d ← hexDigit? d
  some (((a * 16 + b) * 16 + c) * 16 + d)

/-- The code point that a backslash and a character stand for. -/
def escape? (e : Char) : Option Nat :=
  if e = quote ∨ e = backslash ∨ e = '/' then some e.toNat
  else if e = 'b' then some 8
  else if e = 'f' then some 12
  else if e = 'n' then some 10
  else if e = 'r' then some 13
  else if e = 't' then some 9
  else none

/-- A string behind its opening quote, and the text behind its closing one. Control characters stand in
it as escapes only. -/
def units? : List Char → Option (List Nat × List Char)
  | [] => none
  | c :: s =>
    if c = quote then some ([], s)
    else if c = backslash then
      match s with
      | [] => none
      | e :: s =>
        if e = 'u' then
          match s with
          | a :: b :: c :: d :: s => do
            let n ← hexNumber? a b c d
            let (t, rest) ← units? s
            some (n :: t, rest)
          | _ => none
        else do
          let n ← escape? e
          let (t, rest) ← units? s
          some (n :: t, rest)
    else if c.toNat < 32 then none
    else do
      let (t, rest) ← units? s
      some (c.toNat :: t, rest)

/-- A high surrogate and a low one behind it are one code point. -/
def joinSurrogates : List Nat → List Nat
  | high :: low :: t =>
    if (0xD800 ≤ high ∧ high < 0xDC00) ∧ 0xDC00 ≤ low ∧ low < 0xE000 then
      (0x10000 + (high - 0xD800) * 0x400 + (low - 0xDC00)) :: joinSurrogates t
    else high :: joinSurrogates (low :: t)
  | t => t

def string? (s : List Char) : Option (List Nat × List Char) :=
  (units? s).map fun (t, rest) => (joinSurrogates t, rest)

/-- The name of a member. -/
def name? : List Char → Option (List Nat × List Char)
  | [] => none
  | c :: s => if c = quote then string? s else none

variable {c e : Char} {n : Nat} {s rest name : List Char}

theorem units?_quote (s : List Char) : units? (quote :: s) = some ([], s) := by
  rw [units?.eq_def]
  rfl

/-- A character that need not be escaped. -/
def isPlain (c : Char) : Bool := 32 ≤ c.toNat && c != quote && c != backslash

theorem isPlain_iff : isPlain c = true ↔ 32 ≤ c.toNat ∧ c ≠ quote ∧ c ≠ backslash := by
  simp [isPlain, and_assoc]

theorem units?_plain (h : isPlain c = true) (s : List Char) :
    units? (c :: s) = (units? s).map fun (t, rest) => (c.toNat :: t, rest) := by
  obtain ⟨hlow, hquote, hbackslash⟩ := isPlain_iff.1 h
  rw [units?.eq_def]
  dsimp only
  rw [if_neg hquote, if_neg hbackslash, if_neg (Nat.not_lt.2 hlow)]
  cases units? s <;> rfl

/-- A string ends at a control character. -/
theorem units?_control (h : c.toNat < 32) (s : List Char) : units? (c :: s) = none := by
  have hquote : c ≠ quote := by
    rintro rfl
    exact absurd h (by decide)
  have hbackslash : c ≠ backslash := by
    rintro rfl
    exact absurd h (by decide)
  rw [units?.eq_def]
  dsimp only
  rw [if_neg hquote, if_neg hbackslash, if_pos h]

theorem units?_escape (he : escape? e = some n) (s : List Char) :
    units? (backslash :: e :: s) = (units? s).map fun (t, rest) => (n :: t, rest) := by
  have hu : e ≠ 'u' := by
    rintro rfl
    cases he
  have hquote : backslash ≠ quote := by decide
  rw [units?.eq_def]
  dsimp only
  rw [if_neg hquote, if_pos rfl, if_neg hu, he]
  cases units? s <;> rfl

theorem joinSurrogates_of_scalar {t : List Nat} (h : ∀ n ∈ t, n < 0xD800 ∨ 0xE000 ≤ n) :
    joinSurrogates t = t := by
  induction t with
  | nil => rfl
  | cons high t ih =>
    rw [List.forall_mem_cons] at h
    cases t with
    | nil => rfl
    | cons low t =>
      rw [joinSurrogates, if_neg (by omega), ih h.2]

/-- The code points of characters. -/
theorem joinSurrogates_chars (cs : List Char) : joinSurrogates (cs.map Char.toNat) = cs.map Char.toNat := by
  refine joinSurrogates_of_scalar fun n hn => ?_
  obtain ⟨c, -, rfl⟩ := List.mem_map.1 hn
  have hvalid := c.valid
  simp only [UInt32.isValidChar, Nat.isValidChar] at hvalid
  change c.val.toNat < _ ∨ _ ≤ c.val.toNat
  omega

/-- The code points of a text. -/
def codePoints (s : String) : List Nat := s.toList.map Char.toNat

theorem string?_plain (h : name.all isPlain = true) (s : List Char) :
    string? (name ++ quote :: s) = some (name.map Char.toNat, s) := by
  suffices hunits : units? (name ++ quote :: s) = some (name.map Char.toNat, s) by
    rw [string?, hunits, Option.map_some]
    dsimp only
    rw [joinSurrogates_chars]
  induction name with
  | nil => exact units?_quote s
  | cons c name ih =>
    rw [List.all_cons, Bool.and_eq_true] at h
    rw [List.cons_append, units?_plain h.1, ih h.2]
    rfl

/-! ## Numbers -/

/-- The digits that a text starts with, and the text behind them. -/
def digits? (s : List Char) : Option (List Char × List Char) :=
  if s.takeWhile Char.isDigit = [] then none
  else some (s.takeWhile Char.isDigit, s.dropWhile Char.isDigit)

/-- The digits behind a decimal point, if there is one. -/
def fraction? (s : List Char) : Option (List Char × List Char) :=
  if s.head? = some '.' then digits? s.tail else some ([], s)

/-- The exponent, which is zero if there is none. -/
def exponent? (s : List Char) : Option (Int × List Char) :=
  if s.head? = some 'e' ∨ s.head? = some 'E' then do
    let s := s.tail
    let (ds, rest) ← digits? (if s.head? = some '+' ∨ s.head? = some '-' then s.tail else s)
    let n : Int := Nat.ofDigitChars 10 ds 0
    some (if s.head? = some '-' then -n else n, rest)
  else some (0, s)

/-- A number without its sign. Only a zero that is the whole part starts with a zero. -/
def magnitude? (s : List Char) : Option (Int × Int × List Char) := do
  let (whole, rest) ← digits? s
  if whole.head? = some '0' ∧ whole ≠ ['0'] then none
  else
    let (fraction, rest) ← fraction? rest
    let (exponent, rest) ← exponent? rest
    some (Nat.ofDigitChars 10 (whole ++ fraction) 0, exponent - fraction.length, rest)

def number? (s : List Char) : Option (Value × List Char) :=
  if s.head? = some '-' then (magnitude? s.tail).map fun (m, e, rest) => (.number (-m) e, rest)
  else (magnitude? s).map fun (m, e, rest) => (.number m e, rest)

theorem digits?_append {ds : List Char} (hne : ds ≠ []) (hds : ∀ d ∈ ds, d.isDigit = true)
    (hc : c.isDigit = false) (s : List Char) : digits? (ds ++ c :: s) = some (ds, c :: s) := by
  rw [digits?, takeWhile_append_of_not hc, dropWhile_append_of_not hc, List.takeWhile_eq_self_iff.2 hds,
    List.dropWhile_eq_nil_iff.2 hds, if_neg hne, List.nil_append]

/-- A number in decimal digits. -/
def decimal : Int → List Char
  | .ofNat n => Nat.toDigits 10 n
  | .negSucc n => '-' :: Nat.toDigits 10 (n + 1)

theorem decimal_ne_nil (i : Int) : decimal i ≠ [] := by
  cases i with
  | ofNat n => exact Nat.toDigits_ne_nil
  | negSucc n => exact List.cons_ne_nil _ _

theorem eq_or_isDigit_of_mem_decimal {i : Int} (h : c ∈ decimal i) : c = '-' ∨ c.isDigit = true := by
  have hdigit {n : Nat} (hc : c ∈ Nat.toDigits 10 n) : c.isDigit = true :=
    Nat.isDigit_of_mem_toDigits (by decide) (by decide) hc
  cases i with
  | ofNat n => exact .inr (hdigit h)
  | negSucc n => exact (List.mem_cons.1 h).imp id hdigit

theorem head?_toDigits (h : 0 < n) : (Nat.toDigits 10 n).head? ≠ some '0' := by
  induction n using Nat.strongRecOn with
  | ind n ih =>
  rw [Nat.toDigits_eq_if (by decide)]
  split
  · next hlt =>
    have hdigit : ∀ d < 10, 0 < d → d.digitChar ≠ '0' := by decide
    rw [List.head?_cons, Ne, Option.some_inj]
    exact hdigit n hlt h
  · next hge =>
    rw [List.head?_append, Option.or_of_isSome (List.isSome_head?.2 Nat.toDigits_ne_nil)]
    exact ih (n / 10) (by omega) (by omega)

theorem magnitude?_toDigits (n : Nat) (s : List Char) :
    magnitude? (Nat.toDigits 10 n ++ ',' :: s) = some ((n : Int), 0, ',' :: s) := by
  have hzero : ¬ ((Nat.toDigits 10 n).head? = some '0' ∧ Nat.toDigits 10 n ≠ ['0']) := by
    rintro ⟨hhead, hne⟩
    rcases Nat.eq_zero_or_pos n with rfl | hpos
    · exact hne (Nat.toDigits_zero 10)
    · exact head?_toDigits hpos hhead
  have hdigits : digits? (Nat.toDigits 10 n ++ ',' :: s) = some (Nat.toDigits 10 n, ',' :: s) :=
    digits?_append Nat.toDigits_ne_nil
      (fun d hd => Nat.isDigit_of_mem_toDigits (by decide) (by decide) hd) rfl s
  have hfraction : fraction? (',' :: s) = some ([], ',' :: s) := rfl
  have hexponent : exponent? (',' :: s) = some (0, ',' :: s) := rfl
  simp only [magnitude?, hdigits, Option.bind_eq_bind, Option.bind_some, if_neg hzero, hfraction, hexponent,
    List.append_nil, Nat.ofDigitChars_ten_toDigits, List.length_nil, Int.natCast_zero, Int.sub_zero]

/-- A number is read from its decimal digits. -/
theorem number?_decimal (i : Int) (s : List Char) :
    number? (decimal i ++ ',' :: s) = some (.number i 0, ',' :: s) := by
  cases i with
  | ofNat n =>
    have hminus : (Nat.toDigits 10 n ++ ',' :: s).head? ≠ some '-' := by
      intro hhead
      rw [List.head?_append, Option.or_of_isSome (List.isSome_head?.2 Nat.toDigits_ne_nil)] at hhead
      have hdigit := Nat.isDigit_of_mem_toDigits (by decide) (by decide) (List.mem_of_mem_head? hhead)
      cases hdigit
    rw [decimal, number?, if_neg hminus, magnitude?_toDigits]
    rfl
  | negSucc n =>
    rw [decimal, number?, List.cons_append, List.head?_cons, if_pos rfl, List.tail_cons, magnitude?_toDigits]
    rfl

/-! ## Values -/

mutual

/-- A value at the start of a text and the text behind it, for as many steps as are given. -/
def value? : Nat → List Char → Option (Value × List Char)
  | 0, _ => none
  | _ + 1, [] => none
  | n + 1, c :: s =>
    if c = quote then (string? s).map fun (t, rest) => (.string t, rest)
    else if c = '[' then
      if (skip s).head? = some ']' then some (.array [], (skip s).tail)
      else (items? n (skip s)).map fun (vs, rest) => (.array vs, rest)
    else if c = openBrace then
      if (skip s).head? = some closeBrace then some (.object [], (skip s).tail)
      else (members? n (skip s)).map fun (ms, rest) => (.object ms, rest)
    else if c = '-' ∨ c.isDigit then number? (c :: s)
    else literal? (c :: s)

/-- The items of an array behind its opening bracket, and the text behind its closing one. -/
def items? : Nat → List Char → Option (List Value × List Char)
  | 0, _ => none
  | n + 1, s => do
    let (v, s) ← value? n s
    let (more, s) ← next? ']' s
    if more then do
      let (vs, rest) ← items? n s
      some (v :: vs, rest)
    else some ([v], s)

/-- The members of an object behind its opening brace, and the text behind its closing one. -/
def members? : Nat → List Char → Option (List (List Nat × Value) × List Char)
  | 0, _ => none
  | n + 1, s => do
    let (name, s) ← name? s
    let s ← mark? ':' s
    let (v, s) ← value? n s
    let (more, s) ← next? closeBrace s
    if more then do
      let (ms, rest) ← members? n s
      some ((name, v) :: ms, rest)
    else some ([(name, v)], s)

end

/-- The text is the value, with blanks around it. -/
def Denotes (s : List Char) (v : Value) : Prop :=
  ∃ n rest, value? n (skip s) = some (v, rest) ∧ skip rest = []

/-- Nested values, blanks, an escape and a number with all its parts. -/
example : Denotes "[-1.50e+2 , \x7b\"\\u00e9\":[true,null ]\x7d ]\n".toList
    (.array [.number (-150) 0, .object [([233], .array [.bool true, .null])]]) := by
  refine ⟨9, ['\n'], ?_, rfl⟩
  cbv

/-- The second computation gives what the first one gives. -/
def Extends {α : Type} (o o' : Option α) : Prop := ∀ r, o = some r → o' = some r

namespace Extends

variable {α β : Type} {o o' q q' : Option α}

theorem refl (o : Option α) : Extends o o := fun _ h => h

theorem bind {f f' : α → Option β} (h : Extends o o') (hf : ∀ a, Extends (f a) (f' a)) :
    Extends (o.bind f) (o'.bind f') := by
  intro r hr
  obtain ⟨a, ha, hfa⟩ := Option.bind_eq_some_iff.1 hr
  exact Option.bind_eq_some_iff.2 ⟨a, h a ha, hf a r hfa⟩

theorem map (h : Extends o o') (f : α → β) : Extends (o.map f) (o'.map f) := by
  intro r hr
  obtain ⟨a, ha, hfa⟩ := Option.map_eq_some_iff.1 hr
  exact Option.map_eq_some_iff.2 ⟨a, h a ha, hfa⟩

theorem ite {p : Prop} [Decidable p] (h : Extends o o') (h' : Extends q q') :
    Extends (if p then o else q) (if p then o' else q') := by
  split
  · exact h
  · exact h'

end Extends

/-- What is read in some steps is read in one more. -/
theorem steps_succ (n : Nat) : (∀ s, Extends (value? n s) (value? (n + 1) s)) ∧
    (∀ s, Extends (items? n s) (items? (n + 1) s)) ∧ ∀ s, Extends (members? n s) (members? (n + 1) s) := by
  induction n with
  | zero =>
    refine ⟨fun s r h => ?_, fun s r h => ?_, fun s r h => ?_⟩
    · cases h
    · cases h
    · cases h
  | succ n ih =>
    obtain ⟨hvalue, hitems, hmembers⟩ := ih
    refine ⟨fun s => ?_, fun s => ?_, fun s => ?_⟩
    · cases s with
      | nil => exact .refl none
      | cons c s =>
        rw [value?, value?]
        refine .ite (.refl _) (.ite (.ite (.refl _) ?_) (.ite (.ite (.refl _) ?_) (.refl _)))
        · exact (hitems _).map _
        · exact (hmembers _).map _
    · rw [items?, items?]
      refine (hvalue s).bind fun (v, s) => .bind (.refl _) fun (more, s) => .ite ?_ (.refl _)
      exact (hitems s).bind fun _ => .refl _
    · rw [members?, members?]
      refine .bind (.refl _) fun (name, s) => .bind (.refl _) fun s => (hvalue s).bind fun (v, s) =>
        .bind (.refl _) fun (more, s) => .ite ?_ (.refl _)
      exact (hmembers s).bind fun _ => .refl _

theorem value?_add {n : Nat} {s : List Char} {r : Value × List Char} (h : value? n s = some r) (k : Nat) :
    value? (n + k) s = some r := by
  induction k with
  | zero => exact h
  | succ k ih => exact (steps_succ (n + k)).1 s r ih

theorem skip_cons (h : isBlank c = false) (s : List Char) : skip (c :: s) = c :: s := by
  rw [skip, List.dropWhile_cons, h]
  rfl

theorem value?_quote (n : Nat) (s : List Char) :
    value? (n + 1) (quote :: s) = (string? s).map fun (t, rest) => (.string t, rest) := by
  rw [value?, if_pos rfl]

theorem ne_of_isDigit (hc : c = '-' ∨ c.isDigit = true) {m : Char} (hm : m.isDigit = false ∧ m ≠ '-') :
    c ≠ m := by
  rintro rfl
  rcases hc with rfl | hdigit
  · exact hm.2 rfl
  · exact absurd hdigit (by rw [hm.1]; decide)

theorem value?_decimal (n : Nat) (i : Int) (s : List Char) :
    value? (n + 1) (skip (decimal i ++ ',' :: s)) = some (.number i 0, ',' :: s) := by
  have hread := number?_decimal i s
  obtain ⟨c, cs, hi⟩ := List.exists_cons_of_ne_nil (decimal_ne_nil i)
  have hc := eq_or_isDigit_of_mem_decimal (hi ▸ List.mem_cons_self : c ∈ decimal i)
  rw [hi, List.cons_append] at hread ⊢
  have hblank : isBlank c = false := by
    simp only [isBlank, Bool.or_eq_false_iff, beq_eq_false_iff_ne]
    exact ⟨⟨⟨ne_of_isDigit hc (by decide), ne_of_isDigit hc (by decide)⟩, ne_of_isDigit hc (by decide)⟩,
      ne_of_isDigit hc (by decide)⟩
  rw [skip_cons hblank, value?, if_neg (ne_of_isDigit hc (by decide)), if_neg (ne_of_isDigit hc (by decide)),
    if_neg (ne_of_isDigit hc (by decide)), if_pos hc, hread]

theorem value?_string {t : List Char} (h : t.all isPlain = true) (n : Nat) (s : List Char) :
    value? (n + 1) (quote :: (t ++ quote :: s)) = some (.string (t.map Char.toNat), s) := by
  rw [value?_quote, string?_plain h]
  rfl

section

variable {v : Value} (name : List Char) (hname : name.all isPlain = true)
include hname

theorem members?_name (n : Nat) (s : List Char) :
    members? (n + 1) (quote :: (name ++ quote :: ':' :: s)) = (value? n (skip s)).bind fun (v, s) =>
      (next? closeBrace s).bind fun (more, s) =>
        if more then (members? n s).map fun (ms, rest) => ((name.map Char.toNat, v) :: ms, rest)
        else some ([(name.map Char.toNat, v)], s) := by
  have hstring : name? (quote :: (name ++ quote :: ':' :: s)) = some (name.map Char.toNat, ':' :: s) :=
    string?_plain hname _
  have hmark : mark? ':' (':' :: s) = some (skip s) := rfl
  rw [members?, hstring]
  simp only [Option.bind_eq_bind, Option.bind_some, hmark]
  refine Option.bind_congr fun (v, s) _ => Option.bind_congr fun (more, s) _ => ?_
  cases more with
  | true => cases members? n s <;> rfl
  | false => rfl

/-- A member in front of another one. -/
theorem members?_more (hvalue : value? n (skip s) = some (v, ',' :: rest)) :
    members? (n + 1) (quote :: (name ++ quote :: ':' :: s)) =
      (members? n (skip rest)).map fun (ms, rest) => ((name.map Char.toNat, v) :: ms, rest) := by
  rw [members?_name name hname, hvalue]
  rfl

/-- The last member. -/
theorem members?_last (hvalue : value? n (skip s) = some (v, closeBrace :: rest)) :
    members? (n + 1) (quote :: (name ++ quote :: ':' :: s)) = some ([(name.map Char.toNat, v)], rest) := by
  rw [members?_name name hname, hvalue]
  rfl

theorem members?_none (hvalue : value? n (skip s) = none) :
    members? (n + 1) (quote :: (name ++ quote :: ':' :: s)) = none := by
  rw [members?_name name hname, hvalue]
  rfl

end

end Json

end ViewCompiler
