import ViewCompiler.Bytes

/-!
The CRC-32C checksum, computed byte by byte with a table.
-/

namespace ViewCompiler.Checksum

/-- The Castagnoli polynomial with its bits reflected. -/
def polynomial : UInt32 := 0x82F63B78

/-- Moves one bit out of the register. -/
def shift (crc : UInt32) : UInt32 :=
  if crc &&& 1 = 1 then (crc >>> 1) ^^^ polynomial else crc >>> 1

/-- Moves one byte out of the register. -/
def shiftByte (crc : UInt32) : UInt32 := Nat.repeat shift 8 crc

/-- What moving out each byte does to an otherwise empty register. -/
def table : Vector UInt32 256 := Vector.ofFn fun i => shiftByte (UInt32.ofNat i.val)

def entry (b : UInt8) : UInt32 := table.get b.toFin

/-- Takes a byte into the register. -/
def update (state : UInt32) (b : UInt8) : UInt32 := entry (state.toUInt8 ^^^ b) ^^^ (state >>> 8)

/-- Takes a text into the register. -/
def updateAll (state : UInt32) (bs : Bytes) : UInt32 := bs.foldl update state

def start : UInt32 := 0xFFFFFFFF

/-- The checksum of what the register has taken. -/
def finish (state : UInt32) : UInt32 := state ^^^ 0xFFFFFFFF

def crc32c (bs : Bytes) : UInt32 := finish (updateAll start bs)

/-- A checksum in eight hexadecimal digits. -/
def text (crc : UInt32) : Bytes := Bytes.ofHex 8 crc.toNat

/-- Checksums can be computed chunk by chunk. -/
theorem updateAll_append (state : UInt32) (as bs : Bytes) :
    updateAll state (as ++ bs) = updateAll (updateAll state as) bs := List.foldl_append

end ViewCompiler.Checksum
