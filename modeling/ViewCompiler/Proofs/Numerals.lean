import ViewCompiler.Bytes

/-!
Numbers in decimal digits: their texts are not empty, have digits only, and can be read back.
-/

namespace ViewCompiler

namespace Bytes

/-- A digit is the byte of its number. -/
theorem toNat_digit {d : Char} (h : d.isDigit = true) :
    48 ≤ d.toUInt8.toNat ∧ d.toUInt8.toNat ≤ 57 ∧ d.toUInt8.toNat = d.toNat := by
  simp only [Char.isDigit, Bool.and_eq_true, decide_eq_true_eq] at h
  have hlow : 48 ≤ d.val.toNat := h.1
  have hhigh : d.val.toNat ≤ 57 := h.2
  have hval : d.toUInt8.toNat = d.val.toNat := by
    rw [Char.toUInt8, UInt32.toNat_toUInt8, Nat.mod_eq_of_lt (by omega)]
  exact ⟨hval ▸ hlow, hval ▸ hhigh, hval⟩

theorem isDigit_of_mem_ofNat {n : Nat} {b : UInt8} (h : b ∈ ofNat n) : Ascii.isDigit b = true := by
  obtain ⟨d, hd, rfl⟩ := List.mem_map.1 h
  obtain ⟨hlow, hhigh, -⟩ := toNat_digit (Nat.isDigit_of_mem_toDigits (by decide) (by decide) hd)
  rw [Ascii.isDigit, Bool.and_eq_true, decide_eq_true_eq, decide_eq_true_eq, UInt8.le_iff_toNat_le,
    UInt8.le_iff_toNat_le]
  exact ⟨hlow, hhigh⟩

theorem not_mem_ofNat {n : Nat} {b : UInt8} (h : Ascii.isDigit b = false) : b ∉ ofNat n := by
  intro hb
  rw [isDigit_of_mem_ofNat hb] at h
  cases h

theorem ofNat_ne_nil (n : Nat) : ofNat n ≠ [] := by
  simp [ofNat]

theorem decimalValue_ofNat (n : Nat) : (ofNat n).decimalValue = n := by
  have hfold {cs : List Char} (hcs : ∀ c ∈ cs, c.isDigit = true) (m : Nat) :
      (cs.map Char.toUInt8).foldl (fun n d => 10 * n + (d - Ascii.zero).toNat) m
        = Nat.ofDigitChars 10 cs m := by
    induction cs generalizing m with
    | nil => rfl
    | cons c cs ih =>
      rw [List.forall_mem_cons] at hcs
      obtain ⟨hlow, -, hval⟩ := toNat_digit hcs.1
      have hdigit : (c.toUInt8 - Ascii.zero).toNat = c.toNat - '0'.toNat := by
        have hle : Ascii.zero ≤ c.toUInt8 := UInt8.le_iff_toNat_le.2 hlow
        rw [UInt8.toNat_sub_of_le _ _ hle, hval]
        rfl
      rw [List.map_cons, List.foldl_cons, hdigit, ih hcs.2]
      rfl
  rw [decimalValue, ofNat, hfold fun c hc => Nat.isDigit_of_mem_toDigits (by decide) (by decide) hc]
  exact Nat.ofDigitChars_ten_toDigits

theorem toNat?_ofNat (n : Nat) : (ofNat n).toNat? = some n := by
  rw [toNat?, if_pos ⟨ofNat_ne_nil n, List.all_eq_true.2 fun _ => isDigit_of_mem_ofNat⟩,
    decimalValue_ofNat]

theorem ofNat_injective {n k : Nat} (h : ofNat n = ofNat k) : n = k := by
  rw [← decimalValue_ofNat n, h, decimalValue_ofNat]

end Bytes

end ViewCompiler
