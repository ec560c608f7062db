import ViewCompiler.Diagnostic

/-!
Tokens of the component language: words, literals, punctuation and the end of the text.
-/

namespace ViewCompiler

inductive Keyword where
  | namespaceKw | usingKw | componentKw | classKw
  | paramKw | injectKw | fieldKw | methodKw | renderKw | routeKw
  | openKw | attrKw | closeKw | textKw | exprKw | childKw
  | ifKw | elseKw | returnKw | trueKw | falseKw
  | intKw | stringKw | boolKw | fragmentKw | callbackKw
deriving DecidableEq, Repr, Inhabited

namespace Keyword

def text : Keyword → Bytes
  | namespaceKw => "namespace"
  | usingKw => "using"
  | componentKw => "component"
  | classKw => "class"
  | paramKw => "param"
  | injectKw => "inject"
  | fieldKw => "field"
  | methodKw => "method"
  | renderKw => "render"
  | routeKw => "route"
  | openKw => "open"
  | attrKw => "attr"
  | closeKw => "close"
  | textKw => "text"
  | exprKw => "expr"
  | childKw => "child"
  | ifKw => "if"
  | elseKw => "else"
  | returnKw => "return"
  | trueKw => "true"
  | falseKw => "false"
  | intKw => "int"
  | stringKw => "string"
  | boolKw => "bool"
  | fragmentKw => "fragment"
  | callbackKw => "callback"

def all : List Keyword :=
  [namespaceKw, usingKw, componentKw, classKw, paramKw, injectKw, fieldKw, methodKw, renderKw,
    routeKw, openKw, attrKw, closeKw, textKw, exprKw, childKw, ifKw, elseKw, returnKw, trueKw,
    falseKw, intKw, stringKw, boolKw, fragmentKw, callbackKw]

/-- The keyword a word spells, if it is one. -/
def ofText? (word : Bytes) : Option Keyword := all.find? (·.text = word)

/-- The keywords that name a built-in type. -/
def isBuiltinType : Keyword → Bool
  | intKw | stringKw | boolKw | fragmentKw | callbackKw => true
  | _ => false

end Keyword

inductive Punct where
  | lbrace | rbrace | lparen | rparen | lbracket | rbracket
  | semicolon | colon | comma | dot
  | assign | plus | minus | star | slash | percent
  | eqEq | bangEq | lt | gt | ltEq | gtEq | andAnd | orOr | bang
deriving DecidableEq, Repr, Inhabited

namespace Punct

def text : Punct → Bytes
  | lbrace => [Ascii.lbrace]
  | rbrace => [Ascii.rbrace]
  | lparen => "("
  | rparen => ")"
  | lbracket => "["
  | rbracket => "]"
  | semicolon => ";"
  | colon => ":"
  | comma => ","
  | dot => "."
  | assign => "="
  | plus => "+"
  | minus => "-"
  | star => "*"
  | slash => "/"
  | percent => "%"
  | eqEq => "=="
  | bangEq => "!="
  | lt => "<"
  | gt => ">"
  | ltEq => "<="
  | gtEq => ">="
  | andAnd => "&&"
  | orOr => "||"
  | bang => "!"

/-- Punctuation written with one byte. -/
def ofByte? (b : UInt8) : Option Punct :=
  if b = Ascii.lbrace then some lbrace
  else if b = Ascii.rbrace then some rbrace
  else if b = Ascii.lparen then some lparen
  else if b = Ascii.rparen then some rparen
  else if b = Ascii.lbracket then some lbracket
  else if b = Ascii.rbracket then some rbracket
  else if b = Ascii.semicolon then some semicolon
  else if b = Ascii.colon then some colon
  else if b = Ascii.comma then some comma
  else if b = Ascii.dot then some dot
  else if b = Ascii.equal then some assign
  else if b = Ascii.plus then some plus
  else if b = Ascii.minus then some minus
  else if b = Ascii.star then some star
  else if b = Ascii.slash then some slash
  else if b = Ascii.percent then some percent
  else if b = Ascii.less then some lt
  else if b = Ascii.greater then some gt
  else if b = Ascii.bang then some bang
  else none

/-- Punctuation written with two bytes; it wins over the one of its first byte. -/
def ofTwoBytes? (b c : UInt8) : Option Punct :=
  if c = Ascii.equal then
    if b = Ascii.equal then some eqEq
    else if b = Ascii.bang then some bangEq
    else if b = Ascii.less then some ltEq
    else if b = Ascii.greater then some gtEq
    else none
  else if b = Ascii.ampersand ∧ c = Ascii.ampersand then some andAnd
  else if b = Ascii.bar ∧ c = Ascii.bar then some orOr
  else none

end Punct

/-- What a token is, with the value of a literal already decoded. -/
inductive TokenKind where
  | identifier (name : Bytes)
  | int (digits : Bytes) (value : Nat)
  | string (text : Bytes)
  | keyword (word : Keyword)
  | punct (mark : Punct)
  | eof
deriving DecidableEq, Repr, Inhabited

namespace TokenKind

/-- The name of the class of tokens, as messages and listings show it. -/
def name : TokenKind → Bytes
  | identifier _ => "identifier"
  | int _ _ => "integer literal"
  | string _ => "string literal"
  | keyword k => k.text
  | punct p => p.text.quoted
  | eof => "end of file"

/-- The name of an identifier, the value of a string, the spelling of any other token. -/
def text : TokenKind → Bytes
  | identifier n => n
  | int digits _ => digits
  | string s => s
  | keyword k => k.text
  | punct p => p.text
  | eof => []

def isBuiltinType : TokenKind → Bool
  | keyword k => k.isBuiltinType
  | _ => false

/-- How a message about a token that was not expected names it. -/
def describe : TokenKind → Bytes
  | identifier n => "identifier " ++ n.quoted
  | k => k.name

end TokenKind

structure Token where
  kind : TokenKind
  span : Span := {}
deriving DecidableEq, Repr, Inhabited

namespace Token

/-- The end of a text whose last position is unknown. -/
def endOfText : Token := { kind := .eof }

end Token

end ViewCompiler
