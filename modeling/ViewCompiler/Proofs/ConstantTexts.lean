import ViewCompiler.Proofs.CodeReader

/-!
String constants as the reader of a module sees them. A line that defines an array of bytes is read as a
symbol, a size and the bytes of its initializer, escapes undone. The line of a string constant defines the
bytes of the text and a zero byte behind them (`Read.run_arrayDefinition`).
-/

namespace ViewCompiler.Code

/-! ## Escapes -/

/-- The number of a hexadecimal digit in upper or lower case. -/
def hexValue? (b : UInt8) : Option Nat :=
  if Ascii.isDigit b then some (b.toNat - 48)
  else if 65 ≤ b ∧ b ≤ 70 then some (b.toNat - 55)
  else if 97 ≤ b ∧ b ≤ 102 then some (b.toNat - 87)
  else none

/-- The bytes of an initializer. Two backslashes are one, a backslash and two hexadecimal digits are the byte
of that number, and any other byte stands for itself. -/
def unescape : Bytes → Bytes
  | 92 :: 92 :: rest => 92 :: unescape rest
  | 92 :: high :: low :: rest =>
    match hexValue? high, hexValue? low with
    | some h, some l => (h * 16 + l).toUInt8 :: unescape rest
    | _, _ => 92 :: unescape (high :: low :: rest)
  | b :: rest => b :: unescape rest
  | [] => []

section
variable {b high low : UInt8} {h l : Nat}

theorem unescape_of_ne (hb : b ≠ Ascii.backslash) (rest : Bytes) :
    unescape (b :: rest) = b :: unescape rest :=
  unescape.eq_3 b rest (fun _ heq _ => hb heq) fun _ _ _ heq _ => hb heq

theorem unescape_hex (hhigh : hexValue? high = some h) (hlow : hexValue? low = some l) (rest : Bytes) :
    unescape (Ascii.backslash :: high :: low :: rest) = (h * 16 + l).toUInt8 :: unescape rest := by
  have hne : high ≠ Ascii.backslash := by
    rintro rfl
    cases hhigh
  rw [unescape.eq_2 high low rest hne, hhigh, hlow]

theorem hexValue?_hexDigitUpper {n : Nat} (h : n < 16) : hexValue? (Bytes.hexDigitUpper n) = some n := by
  have hall : ∀ n < 16, hexValue? (Bytes.hexDigitUpper n) = some n := by decide
  exact hall n h

theorem unescape_escapeByte (b : UInt8) (rest : Bytes) :
    unescape (escapeByte b ++ rest) = b :: unescape rest := by
  rw [escapeByte]
  split
  · next hplain => exact unescape_of_ne hplain.2.2.2 rest
  · have hb := b.toNat_lt
    have hhigh : b.toNat / 16 < 16 := by omega
    have hlow : b.toNat % 16 < 16 := by omega
    have hnumber : b.toNat / 16 * 16 + b.toNat % 16 = b.toNat := by omega
    refine (unescape_hex (hexValue?_hexDigitUpper hhigh) (hexValue?_hexDigitUpper hlow) rest).trans ?_
    rw [hnumber]
    exact congrArg (· :: _) UInt8.ofNat_toNat

/-- Escaping is undone, and a zero byte is added. -/
theorem unescape_escape (s : Bytes) : unescape (escape s) = s ++ [0] := by
  have hend : unescape "\\00" = [0] := by decide
  rw [escape]
  induction s with
  | nil => exact hend
  | cons b s ih =>
    rw [List.flatMap_cons, List.append_assoc, unescape_escapeByte, ih]
    rfl

theorem quote_notMem_escape (s : Bytes) : Ascii.quote ∉ escape s := by
  have hdigit : ∀ n < 16, Ascii.quote ≠ Bytes.hexDigitUpper n := by decide
  intro h
  rcases List.mem_append.1 h with h | h
  · obtain ⟨b, -, h⟩ := List.mem_flatMap.1 h
    rw [escapeByte] at h
    split at h
    · next hplain => exact hplain.2.2.1 (List.mem_singleton.1 h).symm
    · have hb := b.toNat_lt
      simp only [List.mem_cons, List.not_mem_nil, or_false] at h
      rcases h with h | h | h
      · cases h
      · exact hdigit _ (by omega) h
      · exact hdigit _ (by omega) h
  · revert h
    decide

end

/-! ## Definitions -/

/-- A global array of bytes. -/
structure ArrayDefinition where
  symbol : Bytes
  size : Nat
  bytes : Bytes
deriving DecidableEq, Repr

namespace Read

open Reader

/-- A line that defines a private array. The initializer ends at the next quote. -/
def arrayDefinition : Reader ArrayDefinition := do
  let symbol ← global
  literal " = private unnamed_addr constant "
  let size ← byteArray
  literal " c\""
  let initializer ← upTo Ascii.quote
  literal "\"\n"
  return ⟨symbol, size, unescape initializer⟩

theorem isPlainByte_ofNat (n : Nat) : (Bytes.ofNat n).all isPlainByte = true := by
  rw [List.all_eq_true]
  intro b hb
  have hdigit := Bytes.isDigit_of_mem_ofNat hb
  simp [isPlainByte, Ascii.isNameByte, Ascii.isAlnum, hdigit]

theorem isPlainByte_stringSymbol (i : Nat) : (stringSymbol i).all isPlainByte = true := by
  rw [stringSymbol, List.all_append, isPlainByte_ofNat, Bool.and_true]
  decide

/-- The line of a string constant defines the bytes of the text and a zero byte behind them. -/
theorem run_arrayDefinition (i : Nat) (s rest : Bytes) :
    arrayDefinition.run (constantText i s ++ rest) =
      some (⟨stringSymbol i, s.length + 1, s ++ [0]⟩, rest) := by
  have hopen : ("@.str." : Bytes) = "@" ++ ".str." := by decide
  have hname (rest : Bytes) :
      name.run (stringSymbol i ++ ((" = private unnamed_addr constant " : Bytes) ++ rest)) =
        some (stringSymbol i, (" = private unnamed_addr constant " : Bytes) ++ rest) :=
    run_name_plain (isPlainByte_stringSymbol i) (List.cons_ne_nil _ _) (stops_append (by decide) _)
  have hinitializer (rest : Bytes) :
      (upTo Ascii.quote).run (escape s ++ (("\"\n" : Bytes) ++ rest)) =
        some (escape s, ("\"\n" : Bytes) ++ rest) :=
    run_upTo (quote_notMem_escape s) (stops_append (by decide) _)
  rw [stringSymbol] at hname
  simp only [List.append_assoc] at hname
  simp [arrayDefinition, constantText, stringSymbol, hopen, global, hname, hinitializer, unescape_escape]

/-- The address of a string constant gives its number and its size. -/
theorem run_str (i size : Nat) : operand.run (Operand.str i size).text = some (.str i size, []) := by
  have hread : operand.run ((Operand.str i size).text ++ []) = some (.str i size, []) :=
    run_operand (List.forall_mem_singleton.2 (quotable_of_plain (isPlainByte_stringSymbol i))) rfl
  rwa [List.append_nil] at hread

end Read

end ViewCompiler.Code
