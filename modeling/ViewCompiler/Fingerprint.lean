import ViewCompiler.Checksum
import ViewCompiler.SourceFile

/-!
Fingerprints of requests: 128 bits that depend on the order, kinds, paths and contents of the
files.
-/

namespace ViewCompiler

structure Fingerprint where
  high : UInt64 := 0x243F6A8885A308D3
  low : UInt64 := 0x13198A2E03707344
deriving DecidableEq, Repr, Inhabited

namespace Fingerprint

def rotate (x : UInt64) (n : UInt64) : UInt64 := (x <<< n) ||| (x >>> (64 - n))

def multiplier : UInt64 := 0x9E3779B97F4A7C15

/-- Mixes a word into the fingerprint. -/
def absorb (f : Fingerprint) (word : UInt64) : Fingerprint :=
  let high := rotate (f.high ^^^ word) 23 * multiplier
  { high, low := rotate (f.low + word) 31 ^^^ high }

/-- Mixes in the length and the checksum of a text. -/
def absorbText (f : Fingerprint) (text : Bytes) : Fingerprint :=
  (f.absorb (UInt64.ofNat text.length)).absorb (Checksum.crc32c text).toUInt64

def kindWord : FileKind → UInt64
  | .template => 0
  | .source => 1

/-- Mixes in a file and its number. -/
def absorbFile (f : Fingerprint) (file : SourceFile) (index : Nat) : Fingerprint :=
  (((f.absorb (UInt64.ofNat index)).absorb (kindWord file.kind)).absorbText file.path).absorbText
    file.content

/-- Mixes in files that are numbered from `index` on. -/
def absorbFiles (f : Fingerprint) (index : Nat) : List SourceFile → Fingerprint
  | [] => f
  | file :: files => (f.absorbFile file index).absorbFiles (index + 1) files

/-- The fingerprint of a request. -/
def ofFiles (files : List SourceFile) : Fingerprint :=
  (absorbFiles {} 0 files).absorb (UInt64.ofNat files.length)

/-- A fingerprint in 32 hexadecimal digits. -/
def text (f : Fingerprint) : Bytes := Bytes.ofHex 16 f.high.toNat ++ Bytes.ofHex 16 f.low.toNat

end Fingerprint

end ViewCompiler
