import ViewCompiler.Proofs.Checksums

/-!
The checksum one bit at a time. `Checksum.bitwise` has no table and no bytes: it is a register that
takes in the bits of a text one after the other. Taking in a byte with the table is taking in its
eight bits (`Checksum.update_eq_foldl_takeBit`), so the checksum is the bitwise one, however the text
is cut into chunks (`Checksum.crc32c_eq_bitwise`).
-/

namespace ViewCompiler.Checksum

/-! ## The bitwise checksum -/

/-- The `n` low bits of a number, the lowest first. -/
def lowBits (n k : Nat) : List Bool := (List.range n).map k.testBit

/-- The bits of a text. Of each byte, the lowest bit is sent first. -/
def bits (bs : Bytes) : List Bool := bs.flatMap fun b => lowBits 8 b.toNat

/-- Takes a bit into the register, which moves down by one place. The polynomial, its highest
coefficient in the lowest bit, is subtracted if the bit that moves out is not the one that comes in. -/
def takeBit (register : UInt32) (bit : Bool) : UInt32 :=
  if register.toNat.testBit 0 = bit then register >>> 1 else (register >>> 1) ^^^ 0x82F63B78

/-- The complement of what the bits of the text leave in a register that is full of ones. -/
def bitwise (bs : Bytes) : UInt32 := ~~~(bits bs).foldl takeBit 0xFFFFFFFF

/-! ## Bits of a byte -/

theorem lowBits_succ (n k : Nat) : lowBits (n + 1) k = k.testBit 0 :: lowBits n (k / 2) := by
  rw [lowBits, List.range_succ_eq_map, List.map_cons, List.map_map, lowBits]
  congr 2
  funext i
  exact Nat.testBit_succ k i

/-- A bit that is mixed into the register beforehand is taken in when it moves out. -/
theorem shift_xor_eq_takeBit (r x : UInt32) :
    shift (r ^^^ x) = takeBit r (x.toNat.testBit 0) ^^^ (x >>> 1) := by
  have hbit : (r ^^^ x).toBitVec.getLsbD 0 = (r.toNat.testBit 0 ^^ x.toNat.testBit 0) :=
    BitVec.getLsbD_xor
  rw [shift_eq, UInt32.shiftRight_xor, hbit, takeBit]
  cases r.toNat.testBit 0 <;> cases x.toNat.testBit 0
  all_goals
    simp only [Bool.xor_false, Bool.xor_true, Bool.not_true, Bool.not_false, Bool.false_eq_true,
      Bool.true_eq_false, if_true, if_false, UInt32.xor_zero, polynomial]
  all_goals ac_rfl

/-- The same for as many bits as the register moves out. -/
theorem iterate_shift_xor (n : Nat) (r : UInt32) {x : UInt32} (h : x.toNat < 2 ^ n) :
    shift^[n] (r ^^^ x) = (lowBits n x.toNat).foldl takeBit r := by
  induction n generalizing r x with
  | zero =>
    have hx : x = 0 := UInt32.toNat_inj.1 (Nat.lt_one_iff.1 h)
    rw [hx, UInt32.xor_zero]
    rfl
  | succ n ih =>
    have hhalf := toNat_shiftRight_one x
    have hlt : (x >>> 1).toNat < 2 ^ n := by
      rw [hhalf]
      exact Nat.div_lt_of_lt_mul (by rwa [Nat.pow_succ, Nat.mul_comm] at h)
    rw [Function.iterate_succ_apply, shift_xor_eq_takeBit, ih _ hlt, hhalf, lowBits_succ,
      List.foldl_cons]

/-- A byte is taken in with the table as its eight bits are. -/
theorem update_eq_foldl_takeBit (r : UInt32) (b : UInt8) :
    update r b = (lowBits 8 b.toNat).foldl takeBit r := by
  have hb : b.toUInt32.toNat < 2 ^ 8 := by
    rw [UInt8.toNat_toUInt32]
    exact b.toNat_lt
  rw [update_eq_shiftByte, shiftByte_eq, iterate_shift_xor 8 r hb, UInt8.toNat_toUInt32]

/-! ## Texts -/

theorem updateAll_eq_foldl_takeBit (r : UInt32) (bs : Bytes) :
    updateAll r bs = (bits bs).foldl takeBit r := by
  rw [bits, List.foldl_flatMap, updateAll]
  congr 1
  funext r b
  exact update_eq_foldl_takeBit r b

theorem finish_updateAll_start (bs : Bytes) : finish (updateAll start bs) = bitwise bs := by
  rw [updateAll_eq_foldl_takeBit, bitwise, ← UInt32.xor_neg_one]
  rfl

theorem updateAll_flatten (r : UInt32) (chunks : List Bytes) :
    chunks.foldl updateAll r = updateAll r chunks.flatten :=
  List.foldl_flatten.symm

/-- The checksum of a text is the bitwise one. So is what the register holds at the end if it takes
the text in chunk by chunk. -/
theorem crc32c_eq_bitwise (bs : Bytes) : crc32c bs = bitwise bs ∧
    ∀ chunks : List Bytes, chunks.flatten = bs →
      finish (chunks.foldl updateAll start) = bitwise bs := by
  refine ⟨finish_updateAll_start bs, ?_⟩
  rintro chunks rfl
  rw [updateAll_flatten]
  exact finish_updateAll_start chunks.flatten

/-- The checksum of the nine digits is known; here they come in three chunks, one of them empty. -/
theorem crc32c_digits : (["1234", "", "56789"] : List Bytes).flatten = "123456789" ∧
    bitwise "123456789" = 0xE3069283 ∧
    finish ((["1234", "", "56789"] : List Bytes).foldl updateAll start) = bitwise "123456789" := by
  have hflatten : (["1234", "", "56789"] : List Bytes).flatten = "123456789" := by decide
  exact ⟨hflatten, by decide +kernel, (crc32c_eq_bitwise "123456789").2 _ hflatten⟩

end ViewCompiler.Checksum
