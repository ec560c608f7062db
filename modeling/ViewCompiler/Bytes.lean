/-!
Text as the compiler sees it: a sequence of bytes. Columns, sizes and checksums count bytes, and a
source file need not be well-formed in any encoding, so text is a list of bytes and never a
`String`; string literals of this library are coerced to their bytes.

The character classes are the ASCII ones: a byte above 127 belongs to none of them.
-/

namespace ViewCompiler

/-- A byte string. -/
abbrev Bytes := List UInt8

/-! ## Named bytes -/

namespace Ascii

abbrev nul : UInt8 := 0
abbrev tab : UInt8 := 9
abbrev lf : UInt8 := 10
abbrev vt : UInt8 := 11
abbrev ff : UInt8 := 12
abbrev cr : UInt8 := 13
abbrev space : UInt8 := 32
abbrev bang : UInt8 := 33
abbrev quote : UInt8 := 34
abbrev hash : UInt8 := 35
abbrev percent : UInt8 := 37
abbrev ampersand : UInt8 := 38
abbrev apostrophe : UInt8 := 39
abbrev lparen : UInt8 := 40
abbrev rparen : UInt8 := 41
abbrev star : UInt8 := 42
abbrev plus : UInt8 := 43
abbrev comma : UInt8 := 44
abbrev minus : UInt8 := 45
abbrev dot : UInt8 := 46
abbrev slash : UInt8 := 47
abbrev zero : UInt8 := 48
abbrev nine : UInt8 := 57
abbrev colon : UInt8 := 58
abbrev semicolon : UInt8 := 59
abbrev less : UInt8 := 60
abbrev equal : UInt8 := 61
abbrev greater : UInt8 := 62
abbrev atSign : UInt8 := 64
abbrev lbracket : UInt8 := 91
abbrev backslash : UInt8 := 92
abbrev rbracket : UInt8 := 93
abbrev underscore : UInt8 := 95
abbrev lowerN : UInt8 := 110
abbrev lowerR : UInt8 := 114
abbrev lowerT : UInt8 := 116
abbrev lbrace : UInt8 := 123
abbrev bar : UInt8 := 124
abbrev rbrace : UInt8 := 125

def isDigit (b : UInt8) : Bool := zero ≤ b && b ≤ nine

def isUpper (b : UInt8) : Bool := 65 ≤ b && b ≤ 90

def isLower (b : UInt8) : Bool := 97 ≤ b && b ≤ 122

def isLetter (b : UInt8) : Bool := isUpper b || isLower b

def isAlnum (b : UInt8) : Bool := isLetter b || isDigit b

/-- Space, tab, line feed, vertical tab, form feed and carriage return. -/
def isSpace (b : UInt8) : Bool := b == space || (tab ≤ b && b ≤ cr)

/-- A name starts with a letter or an underscore … -/
def isNameStart (b : UInt8) : Bool := isLetter b || b == underscore

/-- … and goes on with letters, digits and underscores. -/
def isNameByte (b : UInt8) : Bool := isAlnum b || b == underscore

end Ascii

namespace Bytes

/-- The bytes of a string in UTF-8. -/
def ofString (s : String) : Bytes := s.toUTF8.data.toList

instance : Coe String Bytes := ⟨ofString⟩

theorem ofString_eq (s : String) : ofString s = s.toList.flatMap String.utf8EncodeChar := by
  rw [ofString, String.toUTF8_eq_toByteArray, ← String.utf8Encode_toList, List.utf8Encode,
    List.toList_data_toByteArray]

/-- A literal is its characters, so this is the way to compute with a long one: the byte array that
`ofString` goes through is built by appending to a list. -/
theorem ofString_ofList (cs : List Char) : ofString (String.ofList cs) = cs.flatMap String.utf8EncodeChar := by
  rw [ofString_eq, String.toList_ofList]

instance : LawfulBEq Bytes := inferInstanceAs (LawfulBEq (List UInt8))

/-! ## Numbers -/

/-- A natural number in decimal digits, without leading zeros. -/
def ofNat (n : Nat) : Bytes := (Nat.toDigits 10 n).map Char.toUInt8

def ofInt : Int → Bytes
  | .ofNat n => ofNat n
  | .negSucc n => Ascii.minus :: ofNat (n + 1)

/-- The value of a sequence of decimal digits. -/
def decimalValue (digits : Bytes) : Nat :=
  digits.foldl (fun n d => 10 * n + (d - Ascii.zero).toNat) 0

/-- The value of a text that is one or more decimal digits and nothing else. -/
def toNat? (s : Bytes) : Option Nat :=
  if s ≠ [] ∧ s.all Ascii.isDigit then some (decimalValue s) else none

/-- One hexadecimal digit in lower case. -/
def hexDigit (n : Nat) : UInt8 := if n < 10 then (48 + n).toUInt8 else (87 + n).toUInt8

/-- One hexadecimal digit in upper case. -/
def hexDigitUpper (n : Nat) : UInt8 := if n < 10 then (48 + n).toUInt8 else (55 + n).toUInt8

/-- The `width` low hexadecimal digits of `n`, most significant first, in lower case. -/
def ofHex (width n : Nat) : Bytes :=
  match width with
  | 0 => []
  | width + 1 => ofHex width (n / 16) ++ [hexDigit (n % 16)]

/-! ## Parts of a text -/

def startsWith (s p : Bytes) : Bool := p.isPrefixOf s

def endsWith (s p : Bytes) : Bool := p.isSuffixOf s

/-- The text without the leading bytes that satisfy `p`. -/
def trimLeft (p : UInt8 → Bool) (s : Bytes) : Bytes := s.dropWhile p

/-- The text without the trailing bytes that satisfy `p`. -/
def trimRight (p : UInt8 → Bool) (s : Bytes) : Bytes := (s.reverse.dropWhile p).reverse

def trim (p : UInt8 → Bool) (s : Bytes) : Bytes := trimRight p (trimLeft p s)

/-- The parts between the occurrences of `sep`; a text without `sep` is one part. -/
def splitOn (sep : UInt8) (s : Bytes) : List Bytes :=
  s.foldr (fun b parts =>
    if b = sep then [] :: parts
    else match parts with
      | [] => [[b]]
      | part :: parts => (b :: part) :: parts) [[]]

/-- The text before the last occurrence of `sep`, if there is one. -/
def beforeLast? (sep : UInt8) (s : Bytes) : Option Bytes :=
  match s.reverse.dropWhile (· ≠ sep) with
  | [] => none
  | _ :: before => some before.reverse

/-- The text after the last occurrence of `sep`; the whole text when there is none. -/
def afterLast (sep : UInt8) (s : Bytes) : Bytes := (s.reverse.takeWhile (· ≠ sep)).reverse

/-- The number of line feeds. -/
def lineFeeds (s : Bytes) : Nat := s.count Ascii.lf

/-- The parts joined with `sep` between them. -/
def join (sep : Bytes) (parts : List Bytes) : Bytes := sep.intercalate parts

/-- A text between apostrophes, as messages show names. -/
def quoted (s : Bytes) : Bytes := "'" ++ s ++ "'"

end Bytes

end ViewCompiler
