import ViewCompiler.Token.Scan

/-!
String literals as they are written.
-/

namespace ViewCompiler.Literal

/-- A byte inside a string literal. Bytes that would end the literal or its line are escaped. -/
def escapeByte (b : UInt8) : Bytes :=
  if b = Ascii.quote then [Ascii.backslash, Ascii.quote]
  else if b = Ascii.backslash then [Ascii.backslash, Ascii.backslash]
  else if b = Ascii.lf then [Ascii.backslash, Ascii.lowerN]
  else if b = Ascii.tab then [Ascii.backslash, Ascii.lowerT]
  else if b = Ascii.cr then [Ascii.backslash, Ascii.lowerR]
  else [b]

/-- The string literal of a text. -/
def quote (text : Bytes) : Bytes := Ascii.quote :: text.flatMap escapeByte ++ [Ascii.quote]

end ViewCompiler.Literal
