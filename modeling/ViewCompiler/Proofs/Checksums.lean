import Mathlib.Algebra.Group.Nat.Defs
import Mathlib.Logic.Function.Iterate
import ViewCompiler.Checksum

/-!
The checksum register. Moving a bit out of it is linear (`Checksum.shift_xor`) and loses nothing
(`Checksum.shift_injective`), so taking in a byte with the table is moving it out bit by bit
(`Checksum.update_eq_shiftByte`). Up to four bytes are taken in as one number, so two texts that differ
only in a window of four bytes have different checksums (`Checksum.crc32c_ne`).
-/

namespace ViewCompiler.Checksum

/-! ## Bits -/

theorem shift_eq (x : UInt32) :
    shift x = (x >>> 1) ^^^ if x.toBitVec.getLsbD 0 then polynomial else 0 := by
  have hbit : x &&& 1 = 1 ↔ x.toBitVec.getLsbD 0 = true := by
    have hone : (1 : UInt32).toBitVec = 1#32 := rfl
    rw [← UInt32.toBitVec_inj, UInt32.toBitVec_and, hone, BitVec.and_one_eq_setWidth_ofBool_getLsbD]
    cases x.toBitVec.getLsbD 0 <;> decide
  rw [shift]
  simp only [hbit]
  split <;> simp

/-- Bits move out of the register independently of each other. -/
theorem shift_xor (x y : UInt32) : shift (x ^^^ y) = shift x ^^^ shift y := by
  have hcancel (p q : UInt32) : p ^^^ polynomial ^^^ (q ^^^ polynomial) = p ^^^ q := by
    rw [UInt32.xor_comm q, UInt32.xor_assoc, ← UInt32.xor_assoc polynomial, UInt32.xor_self,
      UInt32.zero_xor]
  simp only [shift_eq, UInt32.shiftRight_xor, UInt32.toBitVec_xor, BitVec.getLsbD_xor]
  cases x.toBitVec.getLsbD 0 <;> cases y.toBitVec.getLsbD 0
  · simp
  · simp [UInt32.xor_assoc]
  · simp only [Bool.xor_false, if_true, Bool.false_eq_true, if_false, UInt32.xor_zero]
    ac_rfl
  · simp [hcancel]

theorem toNat_shiftRight_one (x : UInt32) : (x >>> 1).toNat = x.toNat / 2 := by
  rw [UInt32.toNat_shiftRight]
  exact Nat.shiftRight_eq_div_pow _ 1

theorem and_one_iff (x : UInt32) : x &&& 1 = 1 ↔ x.toNat % 2 = 1 := by
  rw [← UInt32.toNat_inj, UInt32.toNat_and, UInt32.toNat_one, Nat.and_one_is_mod]

/-- The polynomial has the bit that a shift leaves free, so a bit that moves out can be seen. -/
theorem eq_zero_of_shift {x : UInt32} (h : shift x = 0) : x = 0 := by
  have hx := x.toNat_lt
  have hhalf := toNat_shiftRight_one x
  rw [shift] at h
  split at h
  · have hpolynomial : polynomial.toNat = 2197175160 := rfl
    rw [UInt32.xor_eq_zero_iff.1 h] at hhalf
    omega
  · next hbit =>
    rw [and_one_iff] at hbit
    rw [h, UInt32.toNat_zero] at hhalf
    exact UInt32.toNat_inj.1 (show x.toNat = 0 by omega)

theorem shift_injective : Function.Injective shift := by
  intro x y h
  have hzero : shift (x ^^^ y) = 0 := by rw [shift_xor, h, UInt32.xor_self]
  exact UInt32.xor_eq_zero_iff.1 (eq_zero_of_shift hzero)

theorem shift_of_toNat_eq {x y : UInt32} (h : y.toNat = 2 * x.toNat) : shift y = x := by
  have hbit : ¬ y &&& 1 = 1 := by
    rw [and_one_iff]
    omega
  rw [shift, if_neg hbit, ← UInt32.toNat_inj, toNat_shiftRight_one]
  omega

/-- A register whose low bits are clear only moves down. -/
theorem iterate_shift_of_toNat_eq {x y : UInt32} (n : Nat) (h : y.toNat = 2 ^ n * x.toNat) :
    shift^[n] y = x := by
  induction n generalizing y with
  | zero =>
    refine UInt32.toNat_inj.1 ?_
    rw [Function.iterate_zero_apply]
    omega
  | succ n ih =>
    have hy := y.toNat_lt
    rw [Nat.pow_succ, Nat.mul_comm _ 2, Nat.mul_assoc] at h
    have hhalf : (UInt32.ofNat (2 ^ n * x.toNat)).toNat = 2 ^ n * x.toNat :=
      UInt32.toNat_ofNat_of_lt' (by rw [UInt32.size]; omega)
    rw [Function.iterate_succ_apply, shift_of_toNat_eq (hhalf ▸ h)]
    exact ih hhalf

/-! ## Bytes -/

theorem shiftByte_eq (x : UInt32) : shiftByte x = shift^[8] x := rfl

theorem shiftByte_xor (x y : UInt32) : shiftByte (x ^^^ y) = shiftByte x ^^^ shiftByte y := by
  have hiterate : Function.Semiconj₂ shift^[8] (· ^^^ ·) (· ^^^ ·) := .iterate shift_xor 8
  exact hiterate x y

theorem shiftByte_injective : Function.Injective shiftByte := shift_injective.iterate 8

theorem toNat_shiftLeft_eight (x : UInt32) : (x <<< 8).toNat = 256 * x.toNat % 4294967296 := by
  rw [UInt32.toNat_shiftLeft]
  change x.toNat <<< 8 % 2 ^ 32 = _
  rw [Nat.shiftLeft_eq, Nat.mul_comm]

theorem shiftByte_shiftLeft {x : UInt32} (h : x.toNat < 16777216) : shiftByte (x <<< 8) = x := by
  rw [shiftByte_eq]
  refine iterate_shift_of_toNat_eq 8 ?_
  rw [toNat_shiftLeft_eight]
  omega

theorem entry_eq (b : UInt8) : entry b = shiftByte b.toUInt32 := by
  have hb : UInt32.ofNat b.toNat = b.toUInt32 :=
    UInt32.toNat_inj.1 (UInt32.toNat_ofNat_of_lt' (Nat.lt_trans b.toNat_lt (by decide)))
  have hlt : b.toNat < 256 := b.toNat_lt
  change (Vector.ofFn fun i : Fin 256 => shiftByte (UInt32.ofNat i.val))[b.toNat] = _
  rw [Vector.getElem_ofFn]
  exact congrArg shiftByte hb

/-- A register is its low byte and what is above it. -/
theorem toUInt8_xor_shiftLeft (x : UInt32) : x.toUInt8.toUInt32 ^^^ ((x >>> 8) <<< 8) = x := by
  have height : (8 : UInt32).toBitVec % 32 = 8#32 := rfl
  rw [← UInt32.toBitVec_inj, UInt32.toBitVec_xor, UInt8.toBitVec_toUInt32, UInt32.toBitVec_toUInt8,
    UInt32.toBitVec_shiftLeft, UInt32.toBitVec_shiftRight, height, BitVec.shiftLeft_eq',
    BitVec.ushiftRight_eq']
  refine BitVec.eq_of_getLsbD_eq fun i hi => ?_
  simp only [BitVec.getLsbD_xor, BitVec.getLsbD_setWidth, BitVec.getLsbD_shiftLeft,
    BitVec.getLsbD_ushiftRight, BitVec.toNat_ofNat]
  by_cases hlow : i < 8
  · simp [hlow, hi]
  · have hback : 8 % 2 ^ 32 + (i - 8 % 2 ^ 32) = i := Nat.add_sub_of_le (Nat.le_of_not_lt hlow)
    rw [hback]
    simp [hlow, hi]

/-- A byte is taken in by moving it out of the register, mixed into the low bits. -/
theorem update_eq_shiftByte (s : UInt32) (b : UInt8) : update s b = shiftByte (s ^^^ b.toUInt32) := by
  have hhigh : (s >>> 8).toNat < 16777216 := by
    have hs := s.toNat_lt
    rw [UInt32.toNat_shiftRight]
    change s.toNat >>> 8 < _
    rw [Nat.shiftRight_eq_div_pow]
    omega
  calc update s b
      = shiftByte (s.toUInt8.toUInt32 ^^^ b.toUInt32) ^^^ shiftByte ((s >>> 8) <<< 8) := by
        rw [update, entry_eq, UInt8.toUInt32_xor, shiftByte_shiftLeft hhigh]
    _ = shiftByte ((s.toUInt8.toUInt32 ^^^ ((s >>> 8) <<< 8)) ^^^ b.toUInt32) := by
        rw [← shiftByte_xor]
        congr 1
        ac_rfl
    _ = shiftByte (s ^^^ b.toUInt32) := by rw [toUInt8_xor_shiftLeft]

theorem update_injective (b : UInt8) : Function.Injective (update · b) := by
  intro s s' h
  dsimp only at h
  rw [update_eq_shiftByte, update_eq_shiftByte] at h
  exact (UInt32.xor_left_inj _).1 (shiftByte_injective h)

theorem updateAll_injective (w : Bytes) : Function.Injective (updateAll · w) := by
  induction w with
  | nil => exact fun _ _ h => h
  | cons b w ih => exact fun s s' h => update_injective b (ih h)

/-! ## Up to four bytes -/

/-- The number that up to four bytes are, the first one in the low bits. -/
def word : Bytes → UInt32
  | [] => 0
  | b :: w => b.toUInt32 ^^^ (word w <<< 8)

variable {w w' : Bytes}

theorem toNat_word_lt (w : Bytes) : (word w).toNat < 2 ^ (8 * w.length) := by
  induction w with
  | nil => exact Nat.one_pos
  | cons b w ih =>
    have hb : b.toUInt32.toNat < 2 ^ (8 * (w.length + 1)) := by
      have hlt := b.toNat_lt
      have hpow : 2 ^ 8 ≤ 2 ^ (8 * (w.length + 1)) := Nat.pow_le_pow_right (by decide) (by omega)
      rw [UInt8.toNat_toUInt32]
      omega
    have hw : (word w <<< 8).toNat < 2 ^ (8 * (w.length + 1)) := by
      have hle := Nat.mod_le (256 * (word w).toNat) 4294967296
      rw [toNat_shiftLeft_eight, Nat.mul_succ, Nat.pow_add]
      omega
    rw [word, UInt32.toNat_xor]
    exact Nat.xor_lt_two_pow hb hw

theorem toNat_word_lt_of_le (h : w.length ≤ 3) : (word w).toNat < 16777216 :=
  Nat.lt_of_lt_of_le (toNat_word_lt w)
    (Nat.pow_le_pow_right (by decide) (by omega : 8 * w.length ≤ 24))

/-- Up to four bytes are taken in as one number. -/
theorem updateAll_eq_iterate (s : UInt32) (h : w.length ≤ 4) :
    updateAll s w = shiftByte^[w.length] (s ^^^ word w) := by
  induction w generalizing s with
  | nil => exact UInt32.xor_zero.symm
  | cons b w ih =>
    have hw : w.length ≤ 3 := Nat.le_of_succ_le_succ h
    have hbyte : shiftByte (s ^^^ word (b :: w)) = update s b ^^^ word w := by
      rw [word, ← UInt32.xor_assoc, shiftByte_xor, shiftByte_shiftLeft (toNat_word_lt_of_le hw),
        update_eq_shiftByte]
    rw [List.length_cons, Function.iterate_succ_apply, hbyte]
    exact ih (update s b) (Nat.le_succ_of_le hw)

theorem toUInt8_shiftLeft (x : UInt32) : (x <<< 8).toUInt8 = 0 := by
  rw [← UInt8.toNat_inj, UInt32.toNat_toUInt8, toNat_shiftLeft_eight, UInt8.toNat_zero]
  omega

theorem word_inj (hlength : w.length = w'.length) (hle : w.length ≤ 4) (h : word w = word w') :
    w = w' := by
  induction w generalizing w' with
  | nil => exact (List.length_eq_zero_iff.1 hlength.symm).symm
  | cons b w ih =>
    obtain ⟨b', w', rfl⟩ := List.exists_cons_of_length_eq_add_one hlength.symm
    have hw : w.length ≤ 3 := Nat.le_of_succ_le_succ hle
    have hw' : w'.length ≤ 3 := Nat.succ.inj hlength ▸ hw
    have hfirst : b = b' := by
      have hlow := congrArg UInt32.toUInt8 h
      simpa only [word, UInt32.toUInt8_xor, UInt8.toUInt8_toUInt32, toUInt8_shiftLeft,
        UInt8.xor_zero] using hlow
    subst hfirst
    have hhigh : word w <<< 8 = word w' <<< 8 := (UInt32.xor_right_inj _).1 h
    have hothers : word w = word w' := by
      rw [← shiftByte_shiftLeft (toNat_word_lt_of_le hw), hhigh,
        shiftByte_shiftLeft (toNat_word_lt_of_le hw')]
    rw [ih (Nat.succ.inj hlength) (Nat.le_succ_of_le hw) hothers]

/-- From one state, different texts of up to four bytes lead to different states. -/
theorem updateAll_ne (s : UInt32) (hlength : w.length = w'.length) (hle : w.length ≤ 4) (hne : w ≠ w') :
    updateAll s w ≠ updateAll s w' := by
  rw [updateAll_eq_iterate s hle, updateAll_eq_iterate s (hlength ▸ hle), hlength]
  intro h
  have hword := (UInt32.xor_right_inj s).1 (shiftByte_injective.iterate _ h)
  exact hne (word_inj hlength hle hword)

end ViewCompiler.Checksum

namespace ViewCompiler

/-- Two texts of one length that differ, but only within `n` consecutive bytes. -/
def Bytes.DifferWithin (n : Nat) (s t : Bytes) : Prop :=
  ∃ u w w' v, s = u ++ w ++ v ∧ t = u ++ w' ++ v ∧ w.length = w'.length ∧ w.length ≤ n ∧ w ≠ w'

theorem Bytes.DifferWithin.length_eq {n : Nat} {s t : Bytes} (h : s.DifferWithin n t) :
    s.length = t.length := by
  obtain ⟨u, w, w', v, rfl, rfl, hlength, -⟩ := h
  simp only [List.length_append, hlength]

/-- The checksum shows every change within four bytes. -/
theorem Checksum.crc32c_ne {s t : Bytes} (h : s.DifferWithin 4 t) : crc32c s ≠ crc32c t := by
  obtain ⟨u, w, w', v, rfl, rfl, hlength, hle, hne⟩ := h
  rw [crc32c, crc32c, finish, finish, ne_eq, UInt32.xor_left_inj, updateAll_append, updateAll_append,
    updateAll_append, updateAll_append]
  exact fun heq => updateAll_ne _ hlength hle hne (updateAll_injective v heq)

end ViewCompiler
