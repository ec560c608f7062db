import ViewCompiler.Ast.Reading
import ViewCompiler.Token.Scan

/-!
Reading names, types and expressions. Binary operators have six precedences and associate to the
left; a parenthesised expression is its inner expression.
-/

namespace ViewCompiler

/-- The precedences of binary operators, loosest first. -/
inductive Precedence where
  | disjunction | conjunction | equality | comparison | additive | multiplicative
deriving DecidableEq, Repr, Inhabited

namespace Precedence

/-- The next tighter precedence. -/
def tighter? : Precedence → Option Precedence
  | disjunction => some conjunction
  | conjunction => some equality
  | equality => some comparison
  | comparison => some additive
  | additive => some multiplicative
  | multiplicative => none

/-- How many precedences are tighter, counting operands as one. -/
def height : Precedence → Nat
  | disjunction => 6
  | conjunction => 5
  | equality => 4
  | comparison => 3
  | additive => 2
  | multiplicative => 1

theorem height_pos (p : Precedence) : 0 < p.height := by
  cases p <;> decide

theorem height_le (p : Precedence) : p.height ≤ 6 := by
  cases p <;> decide

theorem height_lt_of_tighter? {p q : Precedence} (h : p.tighter? = some q) :
    q.height < p.height := by
  cases p <;> cases h <;> decide

/-- The operator of this precedence that a token writes. -/
def operator? : Precedence → TokenKind → Option BinaryOp
  | disjunction, .punct .orOr => some .or
  | conjunction, .punct .andAnd => some .and
  | equality, .punct .eqEq => some .eq
  | equality, .punct .bangEq => some .ne
  | comparison, .punct .lt => some .lt
  | comparison, .punct .gt => some .gt
  | comparison, .punct .ltEq => some .le
  | comparison, .punct .gtEq => some .ge
  | additive, .punct .plus => some .add
  | additive, .punct .minus => some .sub
  | multiplicative, .punct .star => some .mul
  | multiplicative, .punct .slash => some .div
  | multiplicative, .punct .percent => some .mod
  | _, _ => none

end Precedence

namespace UnaryOp

/-- The unary operator that a token writes. -/
def ofToken? : TokenKind → Option UnaryOp
  | .punct .bang => some .not
  | .punct .minus => some .neg
  | _ => none

end UnaryOp

namespace Tokens

/-! ## Names and types -/

/-- The dotted continuation of a name: a dot counts only before an identifier. -/
def dotted : List Token → Bytes × List Token
  | { kind := .punct .dot, .. } :: { kind := .identifier n, .. } :: ts =>
    let (name, rest) := dotted ts
    (Ascii.dot :: n ++ name, rest)
  | ts => ([], ts)

def qualifiedName (ts : List Token) : Reading Bytes :=
  (identifier "name" ts).andThen fun n ts =>
    let (tail, rest) := dotted ts
    .ok (n ++ tail) rest

/-- A type: a built-in keyword or a qualified name. -/
def type (ts : List Token) : Reading TypeRef :=
  match next ts with
  | .keyword k =>
    if k.isBuiltinType then .ok { name := k.text, span := place ts } ts.tail
    else .expected "type" ts
  | .identifier _ => (qualifiedName ts).map fun name => { name, span := place ts }
  | _ => .expected "type" ts

/-! ## Expressions -/

mutual

/-- An operand: a literal, a name, a parenthesised expression or a unary operator with its
operand. -/
def operand (ts : List Token) : Reading Expr :=
  match ts with
  | [] => .expected "expression" []
  | t :: tail =>
    match t.kind with
    | .int _ value => .ok (.int t.span value) tail
    | .string text => .ok (.string t.span text) tail
    | .keyword .trueKw => .ok (.bool t.span true) tail
    | .keyword .falseKw => .ok (.bool t.span false) tail
    | .identifier name => .ok (.name t.span name) tail
    | .punct .bang => (operand tail).map (.unary t.span .not)
    | .punct .minus => (operand tail).map (.unary t.span .neg)
    | .punct .lparen =>
      (binary .disjunction tail).andThen fun e rest => (mark .rparen rest).map fun _ => e
    | _ => .expected "expression" (t :: tail)
termination_by 8 * ts.length
decreasing_by all_goals simp [Precedence.height]; try omega

/-- Operands joined by operators of precedence `p` or tighter. -/
def binary (p : Precedence) (ts : List Token) : Reading Expr :=
  (match _h : p.tighter? with
    | some q => binary q ts
    | none => operand ts).within ts fun left rest _ => operators p left rest
termination_by 8 * ts.length + p.height
decreasing_by
  · have := Precedence.height_lt_of_tighter? ‹_›
    omega
  · have := Precedence.height_pos p
    omega
  · have := Precedence.height_pos p
    omega

/-- The operators of precedence `p` that follow `left`, each with its right operand. -/
def operators (p : Precedence) (left : Expr) (ts : List Token) : Reading Expr :=
  match ts with
  | [] => .ok left []
  | t :: tail =>
    match p.operator? t.kind with
    | none => .ok left (t :: tail)
    | some op =>
      (match p.tighter? with
        | some q => binary q tail
        | none => operand tail).within tail fun right rest _ =>
          operators p (.binary t.span op left right) rest
termination_by 8 * ts.length
decreasing_by
  · have := Precedence.height_le q
    simp
    omega
  · simp
  · simp
    omega

end

/-- An expression. -/
def expr (ts : List Token) : Reading Expr := binary .disjunction ts

end Tokens

end ViewCompiler
