import ViewCompiler.Ast

/-!
Reading from a list of tokens. A `Reading` is what one step of the parser gives: the value, if one
was read, the errors met, and the tokens left. Errors belong to the step that met them, so steps
compose and what a step reports does not depend on what was reported before.

`Reading.within` and `Reading.onward` continue after a step and pass on that the rest is no longer
than a given list; recursion of the parser ends on that ground.
-/

namespace ViewCompiler

/-- What can be wrong with the order of tokens. -/
inductive SyntaxError where
  | expected (what : Bytes) (found : TokenKind)
  | afterExpression (found : TokenKind)
  | secondNamespace
  | lateNamespace
  | secondRender (type : Bytes)
  | secondChild
deriving DecidableEq, Repr, Inhabited

namespace SyntaxError

def code : SyntaxError → Bytes
  | secondRender _ | secondChild => "IL2003"
  | _ => "IL1001"

def message : SyntaxError → Bytes
  | expected what found => "Expected " ++ what ++ ", found " ++ found.describe
  | afterExpression found => "Unexpected " ++ found.describe ++ " after expression"
  | secondNamespace => "Only one namespace declaration is allowed"
  | lateNamespace => "Namespace declaration must precede type declarations"
  | secondRender type => "Type " ++ type.quoted ++ " already defines a render block"
  | secondChild => "Child content is already specified"

def diagnostic (file : Bytes) (span : Span) (e : SyntaxError) : Diagnostic :=
  .located file span .error e.code e.message

end SyntaxError

/-! ## The next token -/

namespace Tokens

/-- The kind of the next token; after the last one it is the end of the text. -/
def next (ts : List Token) : TokenKind := (ts.headD .endOfText).kind

/-- The place of the next token. -/
def place (ts : List Token) : Span := (ts.headD .endOfText).span

/-- `ts`, or `bound` if `ts` is longer. -/
def clip (bound ts : List Token) : List Token := if ts.length ≤ bound.length then ts else bound

theorem length_clip_le (bound ts : List Token) : (clip bound ts).length ≤ bound.length := by
  rw [clip]
  split <;> simp [*]

theorem clip_eq {bound ts : List Token} (h : ts.length ≤ bound.length) : clip bound ts = ts :=
  if_pos h

/-- Skips to where reading can go on after an error: behind the next semicolon, before the brace
that closes the current block, or behind a nested block. `depth` counts the open nested blocks. -/
def synchronizeAt (depth : Nat) : List Token → List Token
  | [] => []
  | t :: ts =>
    match t.kind with
    | .eof => t :: ts
    | .punct .lbrace => synchronizeAt (depth + 1) ts
    | .punct .rbrace =>
      match depth with
      | 0 => t :: ts
      | 1 => ts
      | depth + 2 => synchronizeAt (depth + 1) ts
    | .punct .semicolon => if depth = 0 then ts else synchronizeAt depth ts
    | _ => synchronizeAt depth ts

def synchronize (ts : List Token) : List Token := synchronizeAt 0 ts

/-- Skips a block with its braces. `depth` counts the open ones. -/
def skipBlockAt (depth : Nat) : List Token → List Token
  | [] => []
  | t :: ts =>
    match t.kind with
    | .eof => t :: ts
    | .punct .lbrace => skipBlockAt (depth + 1) ts
    | .punct .rbrace => if depth ≤ 1 then ts else skipBlockAt (depth - 1) ts
    | _ => skipBlockAt depth ts

def skipBlock (ts : List Token) : List Token := skipBlockAt 0 ts

theorem length_synchronizeAt_le (depth : Nat) (ts : List Token) :
    (synchronizeAt depth ts).length ≤ ts.length := by
  fun_induction synchronizeAt depth ts <;> simp <;> omega

end Tokens

/-! ## Readings -/

structure Reading (α : Type) where
  value : Option α
  errors : List (Span × SyntaxError) := []
  rest : List Token
deriving Inhabited

namespace Reading

variable {α β : Type}

def ok (a : α) (rest : List Token) : Reading α := { value := some a, rest }

/-- Nothing was read, because the next token is not `what` was expected. -/
def expected (what : Bytes) (ts : List Token) : Reading α :=
  { value := none, errors := [(Tokens.place ts, .expected what (Tokens.next ts))], rest := ts }

/-- The reading with `es` reported before it. -/
def report (es : List (Span × SyntaxError)) (r : Reading α) : Reading α :=
  { r with errors := es ++ r.errors }

def map (f : α → β) (r : Reading α) : Reading β :=
  { value := r.value.map f, errors := r.errors, rest := r.rest }

/-- Goes on with `f` after a value was read. -/
def andThen (r : Reading α) (f : α → List Token → Reading β) : Reading β :=
  match r.value with
  | some a => (f a r.rest).report r.errors
  | none => { value := none, errors := r.errors, rest := r.rest }

/-- Goes on with `f` after a value was read; `f` may rely on a rest no longer than `bound`. -/
def within (bound : List Token) (r : Reading α)
    (f : α → (rest : List Token) → rest.length ≤ bound.length → Reading β) : Reading β :=
  match r.value with
  | some a => (f a (Tokens.clip bound r.rest) (Tokens.length_clip_le _ _)).report r.errors
  | none => { value := none, errors := r.errors, rest := r.rest }

/-- Goes on with `f` whether or not a value was read; `f` may rely on a rest no longer than
`bound`. -/
def onward (bound : List Token) (r : Reading α)
    (f : (rest : List Token) → rest.length ≤ bound.length → Reading β) : Reading β :=
  (f (Tokens.clip bound r.rest) (Tokens.length_clip_le _ _)).report r.errors

/-- After a failure, skips to where reading can go on. -/
def recover (r : Reading α) : Reading α :=
  match r.value with
  | some _ => r
  | none => { r with rest := Tokens.synchronize r.rest }

theorem within_eq_andThen {bound : List Token} {r : Reading α}
    {f : α → List Token → Reading β} (h : r.rest.length ≤ bound.length) :
    r.within bound (fun a rest _ => f a rest) = r.andThen f := by
  rw [within, andThen]
  split
  · rw [Tokens.clip_eq h]
  · rfl

theorem onward_eq {bound : List Token} {r : Reading α} {f : List Token → Reading β}
    (h : r.rest.length ≤ bound.length) :
    r.onward bound (fun rest _ => f rest) = (f r.rest).report r.errors := by
  rw [onward, Tokens.clip_eq h]

end Reading

/-! ## Single tokens -/

namespace Tokens

/-- Takes the next token if it is of the given kind. -/
def take (kind : TokenKind) (what : Bytes) (ts : List Token) : Reading Unit :=
  if next ts = kind then .ok () ts.tail else .expected what ts

/-- Takes a punctuation mark. -/
def mark (p : Punct) (ts : List Token) : Reading Unit := take (.punct p) p.text.quoted ts

/-- Takes an identifier. -/
def identifier (what : Bytes) (ts : List Token) : Reading Bytes :=
  match next ts with
  | .identifier n => .ok n ts.tail
  | _ => .expected what ts

/-- Takes a string literal. -/
def literal (what : Bytes) (ts : List Token) : Reading Bytes :=
  match next ts with
  | .string s => .ok s ts.tail
  | _ => .expected what ts

end Tokens

end ViewCompiler
