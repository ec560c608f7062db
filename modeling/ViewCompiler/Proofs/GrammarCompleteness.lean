import ViewCompiler.Proofs.GrammarSoundness
import ViewCompiler.Proofs.PrintedOps

/-!
What is derivable is accepted, with the tree that was derived. Readers look at the kinds of tokens
only, so it is enough to read tokens without places (`Tokens.bare`); there the tree is read exactly.

An operator in front of what is left decides how far an expression goes: `Tokens.Stops` says that
no operator does that is tighter than the expression.
-/

namespace ViewCompiler

open Grammar (Word)

namespace Tokens

/-- Tokens of these kinds without places. -/
def bare (w : Word) : List Token := w.map fun kind => { kind, span := {} }

@[simp] theorem bare_nil : bare [] = [] := rfl

@[simp] theorem bare_cons (x : TokenKind) (w : Word) : bare (x :: w) = ⟨x, {}⟩ :: bare w := rfl

@[simp] theorem bare_append (v w : Word) : bare (v ++ w) = bare v ++ bare w := List.map_append

@[simp] theorem next_bare (x : TokenKind) (s : Span) (ts : List Token) : next (⟨x, s⟩ :: ts) = x := rfl

@[simp] theorem place_bare (x : TokenKind) (s : Span) (ts : List Token) : place (⟨x, s⟩ :: ts) = s := rfl

/-- Tokens of a text, without places. -/
theorem like_bare {ts : List Token} {w : Word} (hts : Worded ts)
    (hkinds : ts.map (·.kind) = w ++ [TokenKind.eof]) : Like ts (bare w ++ [Token.endOfText]) := by
  refine ⟨?_, hts⟩
  rw [hkinds, List.map_append, bare, List.map_map]
  simp [Function.comp_def, Token.endOfText]

/-! ## Names and types -/

theorem exists_cons_of_name {n : Bytes} {w : Word} (h : Grammar.Name n w) :
    ∃ m u, w = .identifier m :: u := by
  cases h with
  | one | dotted => exact ⟨_, _, rfl⟩

theorem dotted_of_ne {ts : List Token} (h : next ts ≠ .punct .dot) : dotted ts = ([], ts) := by
  refine dotted.eq_2 _ ?_
  rintro s n s' rest rfl
  exact h rfl

theorem qualifiedName_bare {n : Bytes} {w : Word} (h : Grammar.Name n w) {k : List Token}
    (hk : next k ≠ .punct .dot) : qualifiedName (bare w ++ k) = .ok n k := by
  induction h with
  | one => simp [qualifiedName, dotted_of_ne hk]
  | @dotted m w n hm ih =>
    obtain ⟨n', u, rfl⟩ := exists_cons_of_name hm
    simp only [bare_cons, List.cons_append, qualifiedName, identifier_cons, Reading.andThen_ok,
      dotted] at ih ⊢
    injection ih with hname _ hrest
    injection hname with hname
    rw [hrest, ← hname]

theorem type_bare {n : Bytes} {w : Word} (h : Grammar.TypeName n w) {k : List Token}
    (hk : next k ≠ .punct .dot) : type (bare w ++ k) = .ok { name := n, span := {} } k := by
  cases h with
  | builtin hb => simp [type, hb]
  | name hn =>
    obtain ⟨m, u, rfl⟩ := exists_cons_of_name hn
    have hread := qualifiedName_bare hn hk
    simp only [bare_cons, List.cons_append] at hread ⊢
    simp [type, hread]

/-! ## Expressions -/

/-- Reads an expression of a precedence, or an operand. -/
def level : Option Precedence → List Token → Reading Expr
  | some p => binary p
  | none => operand

/-- Goes on behind an expression of a precedence. -/
def goOn : Option Precedence → Expr → List Token → Reading Expr
  | some p => operators p
  | none => .ok

theorem operandOf_eq (p : Precedence) (ts : List Token) : operandOf p ts = level p.tighter? ts := by
  rw [operandOf]
  split <;> simp [*, level]

/-- No operator tighter than `q` comes next. -/
def Stops (q : Option Precedence) (k : List Token) : Prop :=
  ∀ r ∈ q, ∀ p : Precedence, p.height < r.height → p.operator? (next k) = none

theorem Stops.none (k : List Token) : Stops none k := by simp [Stops]

theorem Stops.of_forall {k : List Token} (h : ∀ p : Precedence, p.operator? (next k) = .none)
    (q : Option Precedence) : Stops q k := fun _ _ p _ => h p

theorem Stops.tighter {p : Precedence} {k : List Token} (h : Stops (some p) k) :
    Stops p.tighter? k := by
  intro r hr q hq
  exact h p rfl q (hq.trans (Precedence.height_lt_of_tighter? hr))

/-- In front of the operator that joins them, operands end. -/
theorem Stops.mark (op : BinaryOp) (s : Span) (k : List Token) :
    Stops (some op.precedence) (⟨.punct op.mark, s⟩ :: k) := by
  rintro _ ⟨⟩ p hp
  refine Option.eq_none_iff_forall_not_mem.2 fun op' hop => ?_
  obtain ⟨hmark, rfl⟩ := Precedence.operator?_eq_some.1 hop
  have hsame : op' = op := by
    revert hmark
    cases op <;> cases op' <;> simp [next, BinaryOp.mark]
  exact absurd hp (by simp [hsame])

theorem goOn_eq_ok {p : Precedence} {k : List Token} (h : Stops (some p) k) (e : Expr) :
    goOn p.tighter? e k = .ok e k := by
  cases hp : p.tighter? with
  | none => rfl
  | some q => exact operators_of_none (h p rfl q (Precedence.height_lt_of_tighter? hp))

/-- A derived expression is read, and reading goes on with the operators behind it. -/
theorem level_bare {q : Option Precedence} {e : Expr} {w : Word} (h : Grammar.Term q e w)
    {k : List Token} (hk : Stops q k) : level q (bare w ++ k) = goOn q e.unplaced k := by
  induction h generalizing k with
  | int | string | true | false | name => simp [level, goOn, operand, Expr.unplaced]
  | not _ ih | neg _ ih =>
    have hread := ih (k := k) (.none k)
    simp only [level, goOn] at hread
    simp [level, goOn, operand, Expr.unplaced, hread]
  | paren _ ih =>
    have hread := ih (k := ⟨.punct .rparen, {}⟩ :: k) (.of_forall (fun p => by cases p <;> rfl) _)
    simp only [level, goOn, operators_of_none (show Precedence.disjunction.operator?
      (next (⟨.punct .rparen, {}⟩ :: k)) = none from rfl)] at hread
    simp [level, goOn, operand, hread]
  | tighter _ ih =>
    have hread := ih hk.tighter
    rw [goOn_eq_ok hk] at hread
    rw [level, binary_eq, operandOf_eq, hread, Reading.within_eq_andThen (by simp [Reading.ok]),
      Reading.andThen_ok, goOn]
  | @binary l u r v s op _ _ ihl ihr =>
    have hleft := ihl (Stops.mark op {} (bare v ++ k))
    have hright := ihr hk.tighter
    rw [goOn_eq_ok hk] at hright
    have hop : op.precedence.operator? (.punct op.mark) = some op :=
      Precedence.operator?_eq_some.2 ⟨rfl, rfl⟩
    rw [bare_append, bare_cons, List.append_assoc, List.cons_append, hleft]
    change operators _ _ _ = operators _ _ _
    rw [operators_cons hop, operandOf_eq, hright, Reading.within_eq_andThen (by simp [Reading.ok]),
      Reading.andThen_ok, Expr.unplaced]

/-- No operator comes next. -/
def Ends (k : List Token) : Prop := ∀ p : Precedence, p.operator? (next k) = none

theorem Ends.of_isBorder {k : List Token} (h : TokenKind.isBorder (next k) = true) : Ends k :=
  operator?_of_isBorder h

theorem expr_bare {e : Expr} {w : Word} (h : Grammar.Expression e w) {k : List Token} (hk : Ends k) :
    expr (bare w ++ k) = .ok e.unplaced k :=
  (level_bare h (.of_forall hk _)).trans (operators_of_none (hk _))

/-! ## Statements -/

theorem exists_cons_of_term {q : Option Precedence} {e : Expr} {w : Word} (h : Grammar.Term q e w) :
    ∃ x u, w = x :: u ∧ x ≠ .punct .rparen := by
  induction h with
  | tighter _ ih => exact ih
  | binary _ _ ih =>
    obtain ⟨x, u, rfl, hx⟩ := ih
    exact ⟨x, _, rfl, hx⟩
  | _ => exact ⟨_, _, rfl, by simp⟩

theorem arguments_bare {es : List Expr} {w : Word} (h : Grammar.Commas Grammar.Expression es w)
    (hes : es ≠ []) (k : List Token) : arguments (bare w ++ ⟨.punct .rparen, {}⟩ :: k) =
      .ok (es.map Expr.unplaced) (⟨.punct .rparen, {}⟩ :: k) := by
  induction h with
  | nil => exact absurd rfl hes
  | one he =>
    rw [arguments_eq, expr_bare he fun p => by cases p <;> rfl,
      Reading.within_eq_andThen (by simp [Reading.ok]), Reading.andThen_ok,
      moreArguments_of_next (by simp)]
    rfl
  | @cons e u e' es v he _ ih =>
    rw [bare_append, bare_cons, List.append_assoc, List.cons_append, arguments_eq,
      expr_bare he fun p => by cases p <;> rfl, Reading.within_eq_andThen (by simp [Reading.ok]),
      Reading.andThen_ok, moreArguments, ih (by simp)]
    rfl

/-- A list between parentheses is empty or starts with something else than the closing one. -/
theorem next_commas {α : Type} {P : α → Word → Prop} {as : List α} {w : Word}
    (hP : ∀ {a w}, P a w → ∃ x u, w = x :: u ∧ x ≠ .punct .rparen) (h : Grammar.Commas P as w)
    (k : List Token) : as = [] ∧ w = [] ∨
      as ≠ [] ∧ next (bare w ++ ⟨.punct .rparen, {}⟩ :: k) ≠ .punct .rparen := by
  cases h with
  | nil => exact .inl ⟨rfl, rfl⟩
  | one ha | cons ha =>
    obtain ⟨x, u, rfl, hx⟩ := hP ha
    exact .inr ⟨by simp, by simpa using hx⟩

/-- The arguments between the parentheses of a call. -/
theorem call_arguments_bare {es : List Expr} {w : Word}
    (h : Grammar.Commas Grammar.Expression es w) (k : List Token) :
    (if next (bare w ++ ⟨.punct .rparen, {}⟩ :: k) = .punct .rparen then
      .ok [] (bare w ++ ⟨.punct .rparen, {}⟩ :: k)
      else arguments (bare w ++ ⟨.punct .rparen, {}⟩ :: k)) =
    .ok (es.map Expr.unplaced) (⟨.punct .rparen, {}⟩ :: k) := by
  rcases next_commas exists_cons_of_term h k with ⟨rfl, rfl⟩ | ⟨hes, hnext⟩
  · rfl
  · rw [if_neg hnext, arguments_bare h hes]

theorem simpleStmt_assign_bare {n : Bytes} {e : Expr} {w : Word} (h : Grammar.Expression e w)
    (k : List Token) :
    simpleStmt {} n (bare (.punct .assign :: (w ++ [TokenKind.punct .semicolon])) ++ k) =
      .ok (.assign {} n e.unplaced) k := by
  simp [simpleStmt, expr_bare h (Ends.of_isBorder (k := ⟨.punct .semicolon, {}⟩ :: k) rfl)]

theorem simpleStmt_call_bare {m : Bytes} {es : List Expr} {w : Word}
    (h : Grammar.Commas Grammar.Expression es w) (k : List Token) :
    simpleStmt {} m
        (bare (.punct .lparen :: (w ++ [TokenKind.punct .rparen, .punct .semicolon])) ++ k) =
      .ok (.call {} none m (es.map Expr.unplaced)) k := by
  simp [simpleStmt, call_arguments_bare h]

theorem simpleStmt_callOn_bare {n m : Bytes} {es : List Expr} {w : Word}
    (h : Grammar.Commas Grammar.Expression es w) (k : List Token) :
    simpleStmt {} n (bare (.punct .dot :: .identifier m :: .punct .lparen ::
        (w ++ [TokenKind.punct .rparen, .punct .semicolon])) ++ k) =
      .ok (.call {} (some n) m (es.map Expr.unplaced)) k := by
  simp [simpleStmt, call_arguments_bare h]

/-- What a statement starts with. -/
theorem exists_cons_of_statement {c : Stmt} {w : Word} (h : Grammar.Statement c w) :
    ∃ x u, w = x :: u ∧ ¬ (x = .punct .rbrace ∨ x = .eof) ∧ x ≠ .keyword .elseKw := by
  cases h <;> exact ⟨_, _, rfl, by simp, by simp⟩

theorem next_statements_ne {ss : List Stmt} {w : Word} (h : Grammar.Statements ss w)
    {k : List Token} (hk : next k ≠ .keyword .elseKw) : next (bare w ++ k) ≠ .keyword .elseKw := by
  cases h with
  | nil => exact hk
  | cons hc _ =>
    obtain ⟨x, u, rfl, -, hx⟩ := exists_cons_of_statement hc
    simpa using hx

theorem block_bare_of {ss : List Stmt} {w : Word} {k : List Token}
    (h : stmts (bare w ++ ⟨.punct .rbrace, {}⟩ :: k) =
      .ok (Stmt.allUnplaced ss) (⟨.punct .rbrace, {}⟩ :: k)) :
    block (bare (.punct .lbrace :: (w ++ [TokenKind.punct .rbrace])) ++ k) =
      .ok (Stmt.allUnplaced ss) k := by
  simp only [bare_cons, bare_append, bare_nil, List.cons_append, List.append_assoc,
    List.nil_append]
  rw [block_cons]
  exact closing_eq rfl h

theorem stmts_bare_cons {x : TokenKind} {u : Word} {k rest : List Token} {c : Stmt}
    {ss : List Stmt} (hx : ¬ (x = .punct .rbrace ∨ x = .eof))
    (hc : stmt ⟨x, {}⟩ (bare u ++ k) = .ok c k) (hss : stmts k = .ok ss rest) :
    stmts (bare (x :: u) ++ k) = .ok (c :: ss) rest := by
  rw [bare_cons, List.cons_append, itemReader_stmts.cons, if_neg hx, hc, Reading.recover_ok,
    Reading.onward_ok (by simp) fun rest => _, hss]
  rfl

/-- A conditional whose condition and first body are read goes on with its `else`. -/
theorem conditional_bare {e : Expr} {u v : Word} {ss : List Stmt} {k : List Token}
    (he : Grammar.Expression e u) (hss : block (bare v ++ k) = .ok ss k) :
    conditional {} (bare (.punct .lparen :: (u ++ .punct .rparen :: v)) ++ k) =
      elsePart {} e.unplaced ss k := by
  simp only [bare_cons, bare_append, List.cons_append, List.append_assoc]
  rw [conditional_eq, mark_cons, Reading.within_eq_andThen (by simp [Reading.ok]),
    Reading.andThen_ok, expr_bare he fun p => by cases p <;> rfl,
    Reading.within_eq_andThen (by simp [Reading.ok]), Reading.andThen_ok, mark_cons,
    Reading.within_eq_andThen (by simp [Reading.ok]), Reading.andThen_ok, hss,
    Reading.within_eq_andThen (by simp [Reading.ok]), Reading.andThen_ok]

mutual

/-- The first token of a statement is read before the others. -/
theorem stmt_bare {c : Stmt} {w : Word} {k : List Token} (hk : next k ≠ .keyword .elseKw) :
    Grammar.Statement c w → ∃ x u, w = x :: u ∧ stmt ⟨x, {}⟩ (bare u ++ k) = .ok c.unplaced k
  | .assign he => ⟨_, _, rfl, by rw [stmt]; exact simpleStmt_assign_bare he k⟩
  | .call hes => ⟨_, _, rfl, by rw [stmt]; exact simpleStmt_call_bare hes k⟩
  | .callOn hes => ⟨_, _, rfl, by rw [stmt]; exact simpleStmt_callOn_bare hes k⟩
  | .conditional hc => ⟨_, _, rfl, by rw [stmt]; exact derived_conditional_bare hk hc⟩
  | .ret => ⟨_, _, rfl, by simp [stmt, Stmt.unplaced]⟩

theorem derived_conditional_bare {c : Stmt} {w : Word} {k : List Token}
    (hk : next k ≠ .keyword .elseKw) :
    Grammar.Conditional c w → conditional {} (bare w ++ k) = .ok c.unplaced k
  | .plain he hss => by
    rw [conditional_bare he (block_bare k hss), elsePart_of_next hk]
    rfl
  | .elseBlock (v := v) (w := w) he hss hss' => by
    have hread := conditional_bare he (block_bare (⟨.keyword .elseKw, {}⟩ :: (bare w ++ k)) hss)
    have hnext : next (bare w ++ k) ≠ .keyword .ifKw := by
      cases hss'
      simp
    simp only [bare_cons, bare_append, List.cons_append, List.append_assoc] at hread ⊢
    rw [hread, elsePart, elseBranch_of_next hnext, block_bare k hss']
    rfl
  | .elseIf (v := v) (w := w) he hss hc => by
    have hread := conditional_bare he
      (block_bare (⟨.keyword .elseKw, {}⟩ :: ⟨.keyword .ifKw, {}⟩ :: (bare w ++ k)) hss)
    simp only [bare_cons, bare_append, List.cons_append, List.append_assoc] at hread ⊢
    rw [hread, elsePart, elseBranch, derived_conditional_bare hk hc]
    rfl

theorem block_bare {ss : List Stmt} {w : Word} (k : List Token) :
    Grammar.Block ss w → block (bare w ++ k) = .ok (Stmt.allUnplaced ss) k
  | .intro hss => block_bare_of (stmts_bare k hss)

theorem stmts_bare {ss : List Stmt} {w : Word} (k : List Token) :
    Grammar.Statements ss w → stmts (bare w ++ ⟨.punct .rbrace, {}⟩ :: k) =
      .ok (Stmt.allUnplaced ss) (⟨.punct .rbrace, {}⟩ :: k)
  | .nil => by
    rw [bare_nil, List.nil_append, itemReader_stmts.cons, if_pos (.inl rfl)]
    rfl
  | .cons hc hss => by
    have hnext := next_statements_ne hss (k := ⟨.punct .rbrace, {}⟩ :: k) (by simp)
    obtain ⟨x, u, rfl, hread⟩ := stmt_bare hnext hc
    obtain ⟨_, _, ⟨⟩, hx, -⟩ := exists_cons_of_statement hc
    rw [bare_append, List.append_assoc]
    exact stmts_bare_cons hx hread (stmts_bare k hss)

end

/-! ## Render operations -/

theorem Ends.semicolon (s : Span) (k : List Token) : Ends (⟨.punct .semicolon, s⟩ :: k) :=
  .of_isBorder rfl

/-- What a render operation starts with. -/
theorem exists_cons_of_operation {op : RenderOp} {w : Word} (h : Grammar.Operation op w) :
    ∃ x u, w = x :: u ∧ ¬ (x = .punct .rbrace ∨ x = .eof) := by
  cases h <;> exact ⟨_, _, rfl, by simp⟩

theorem componentArg_bare {n : Bytes} {e : Expr} {u : Word} (h : Grammar.Expression e u)
    (k : List Token) :
    componentArg {} (bare (.identifier n :: .punct .assign ::
        (u ++ [TokenKind.punct .semicolon])) ++ k) =
      .ok { name := n, value := e.unplaced, span := {} } k := by
  simp [componentArg, expr_bare h (.semicolon {} k)]

theorem renderOps_bare_cons {x : TokenKind} {u : Word} {k rest : List Token} {op : RenderOp}
    {ops : List RenderOp} (hx : ¬ (x = .punct .rbrace ∨ x = .eof))
    (hop : renderOp ⟨x, {}⟩ (bare u ++ k) = .ok op k) (hops : renderOps k = .ok ops rest) :
    renderOps (bare (x :: u) ++ k) = .ok (op :: ops) rest := by
  rw [bare_cons, List.cons_append, itemReader_renderOps.cons, if_neg hx, hop, Reading.recover_ok,
    Reading.onward_ok (by simp) fun rest => _, hops]
  rfl

theorem renderBlock_bare_of {ops : List RenderOp} {w : Word} {k : List Token}
    (h : renderOps (bare w ++ ⟨.punct .rbrace, {}⟩ :: k) =
      .ok (RenderOp.allUnplaced ops) (⟨.punct .rbrace, {}⟩ :: k)) :
    renderBlock (bare (.punct .lbrace :: (w ++ [TokenKind.punct .rbrace])) ++ k) =
      .ok (RenderOp.allUnplaced ops) k := by
  simp only [bare_cons, bare_append, bare_nil, List.cons_append, List.append_assoc,
    List.nil_append]
  rw [renderBlock_cons]
  exact closing_eq rfl h

theorem renderOp_component_bare {n : Bytes} {u w : Word} {k : List Token} {b : ComponentBody}
    (hu : Grammar.TypeName n u) (hw : componentBody false (bare w ++ ⟨.punct .rbrace, {}⟩ :: k) =
      .ok b (⟨.punct .rbrace, {}⟩ :: k)) :
    renderOp ⟨.keyword .componentKw, {}⟩
        (bare (u ++ TokenKind.punct .lbrace :: (w ++ [TokenKind.punct .rbrace])) ++ k) =
      .ok (.component {} { name := n, span := {} } b.args b.childSpan b.child) k := by
  simp only [bare_cons, bare_append, bare_nil, List.cons_append, List.append_assoc,
    List.nil_append]
  rw [renderOp_component, type_bare hu (by simp), Reading.within_eq_andThen (by simp [Reading.ok]),
    Reading.andThen_ok, componentBlock_cons]
  exact closing_eq rfl hw

theorem componentBody_arg_bare {hasChild : Bool} {n : Bytes} {e : Expr} {u : Word}
    {k rest : List Token} {b : ComponentBody} (he : Grammar.Expression e u)
    (hb : componentBody hasChild k = .ok b rest) :
    componentBody hasChild (bare (.keyword .attrKw :: .identifier n :: .punct .assign ::
        (u ++ [TokenKind.punct .semicolon])) ++ k) =
      .ok { b with args := { name := n, value := e.unplaced, span := {} } :: b.args } rest := by
  rw [bare_cons, List.cons_append, componentBody_attr rfl, componentArg_bare he, Reading.recover_ok,
    Reading.onward_ok (by simp; omega) fun rest => _, hb]
  rfl

theorem componentBody_child_bare {u : Word} {k rest : List Token} {ops : List RenderOp}
    {b : ComponentBody} (hu : renderBlock (bare u ++ k) = .ok ops k)
    (hb : componentBody true k = .ok b rest) :
    componentBody false (bare (.keyword .childKw :: u) ++ k) =
      .ok { b with childSpan := some {}, child := ops } rest := by
  have hblock : childBlock false {} (bare u ++ k) = .ok ops k := by
    rw [childBlock, hu, Reading.andThen_ok]
    rfl
  rw [bare_cons, List.cons_append, componentBody_child rfl, hblock,
    Reading.onward_ok (by simp) fun rest => _]
  change (componentBody true k).map _ = _
  rw [hb]
  rfl

mutual

/-- The first token of an operation is read before the others. -/
theorem renderOp_bare {op : RenderOp} {w : Word} (k : List Token) :
    Grammar.Operation op w → ∃ x u, w = x :: u ∧ renderOp ⟨x, {}⟩ (bare u ++ k) = .ok op.unplaced k
  | .openElement => ⟨_, _, rfl, by simp [renderOp, RenderOp.unplaced]⟩
  | .attr he => ⟨_, _, rfl, by simp [renderOp, RenderOp.unplaced, expr_bare he (.semicolon {} k)]⟩
  | .closeElement => ⟨_, _, rfl, by simp [renderOp, RenderOp.unplaced]⟩
  | .text => ⟨_, _, rfl, by simp [renderOp, RenderOp.unplaced]⟩
  | .value he => ⟨_, _, rfl, by simp [renderOp, RenderOp.unplaced, expr_bare he (.semicolon {} k)]⟩
  | .component hn hc =>
    ⟨_, _, rfl, renderOp_component_bare hn (componentBody_bare false k (by simp) hc)⟩

/-- After a child block no other one may follow. -/
theorem componentBody_bare {args : List ComponentArg} {childSpan : Option Span}
    {child : List RenderOp} {w : Word} (hasChild : Bool) (k : List Token)
    (hchild : hasChild = true → childSpan = none) : Grammar.Content args childSpan child w →
    componentBody hasChild (bare w ++ ⟨.punct .rbrace, {}⟩ :: k) =
      .ok ⟨args.map ComponentArg.unplaced, childSpan.map fun _ => {}, RenderOp.allUnplaced child⟩
        (⟨.punct .rbrace, {}⟩ :: k)
  | .nil => by
    rw [bare_nil, List.nil_append, componentBody_of_isCloser rfl]
    rfl
  | .arg (n := n) (u := u) (w := w) he hc => by
    have hread := componentBody_arg_bare (n := n) he (componentBody_bare hasChild k hchild hc)
    simpa [ComponentArg.unplaced] using hread
  | .child (u := u) (w := w) hr hc => by
    obtain rfl : hasChild = false := by
      cases hasChild with
      | false => rfl
      | true => cases hchild rfl
    have hread := componentBody_child_bare (renderBlock_bare _ hr)
      (componentBody_bare true k (fun _ => rfl) hc)
    simpa using hread

theorem renderBlock_bare {ops : List RenderOp} {w : Word} (k : List Token) :
    Grammar.Render ops w → renderBlock (bare w ++ k) = .ok (RenderOp.allUnplaced ops) k
  | .intro hops => renderBlock_bare_of (renderOps_bare k hops)

theorem renderOps_bare {ops : List RenderOp} {w : Word} (k : List Token) :
    Grammar.Operations ops w → renderOps (bare w ++ ⟨.punct .rbrace, {}⟩ :: k) =
      .ok (RenderOp.allUnplaced ops) (⟨.punct .rbrace, {}⟩ :: k)
  | .nil => by
    rw [bare_nil, List.nil_append, itemReader_renderOps.cons, if_pos (.inl rfl)]
    rfl
  | .cons (v := v) hop hops => by
    obtain ⟨x, u, rfl, hread⟩ := renderOp_bare (bare v ++ ⟨.punct .rbrace, {}⟩ :: k) hop
    obtain ⟨_, _, ⟨⟩, hx⟩ := exists_cons_of_operation hop
    rw [bare_append, List.append_assoc]
    exact renderOps_bare_cons hx hread (renderOps_bare k hops)

end

/-! ## Members -/

theorem place_bare_append (w : Word) (x : TokenKind) (k : List Token) :
    place (bare w ++ ⟨x, {}⟩ :: k) = {} := by
  cases w <;> rfl

theorem exists_cons_of_type {n : Bytes} {w : Word} (h : Grammar.TypeName n w) :
    ∃ x u, w = x :: u ∧ x ≠ .punct .rparen := by
  cases h with
  | builtin => exact ⟨_, _, rfl, by simp⟩
  | name hn =>
    obtain ⟨m, u, rfl⟩ := exists_cons_of_name hn
    exact ⟨_, _, rfl, by simp⟩

theorem dataMember_bare {kind : MemberKind} {n m : Bytes} {init : Option Expr} {u v : Word}
    (hn : Grammar.TypeName n u) (hv : Grammar.Init init v) (hkind : init.isSome → kind = .field)
    (k : List Token) :
    dataMember kind (bare (u ++ TokenKind.identifier m :: (v ++ [TokenKind.punct .semicolon])) ++ k) =
      .ok ⟨kind, ⟨n, {}⟩, m, init.map Expr.unplaced, {}⟩ k := by
  simp only [bare_cons, bare_append, bare_nil, List.cons_append, List.append_assoc,
    List.nil_append]
  rw [dataMember, type_bare hn (by simp), Reading.andThen_ok]
  cases hv with
  | none => simp
  | some he =>
    obtain rfl := hkind rfl
    simp [expr_bare he (.semicolon {} k)]

theorem parameter_bare {p : Parameter} {w : Word} (h : Grammar.Param p w) (k : List Token) :
    parameter (bare w ++ k) = .ok p.unplaced k := by
  cases h with
  | intro hn =>
    simp only [bare_cons, bare_append, bare_nil, List.cons_append, List.append_assoc,
      List.nil_append]
    rw [parameter, type_bare hn (by simp), Reading.andThen_ok, place_bare_append]
    rfl

theorem exists_cons_of_param {p : Parameter} {w : Word} (h : Grammar.Param p w) :
    ∃ x u, w = x :: u ∧ x ≠ .punct .rparen := by
  cases h with
  | intro hn =>
    obtain ⟨x, u, rfl, hx⟩ := exists_cons_of_type hn
    exact ⟨x, _, rfl, hx⟩

theorem parameters_bare {ps : List Parameter} {w : Word} (h : Grammar.Commas Grammar.Param ps w)
    (hps : ps ≠ []) (k : List Token) : parameters (bare w ++ ⟨.punct .rparen, {}⟩ :: k) =
      .ok (ps.map Parameter.unplaced) (⟨.punct .rparen, {}⟩ :: k) := by
  induction h with
  | nil => exact absurd rfl hps
  | one hp =>
    rw [parameters_eq, parameter_bare hp, Reading.within_eq_andThen (by simp [Reading.ok]),
      Reading.andThen_ok, moreParameters_of_next (by simp)]
    rfl
  | @cons p u q ps v hp _ ih =>
    rw [bare_append, bare_cons, List.append_assoc, List.cons_append, parameters_eq,
      parameter_bare hp, Reading.within_eq_andThen (by simp [Reading.ok]), Reading.andThen_ok,
      moreParameters, ih (by simp)]
    rfl

theorem method_bare {m : Bytes} {ps : List Parameter} {ss : List Stmt} {u v : Word}
    (hps : Grammar.Commas Grammar.Param ps u) (hss : Grammar.Block ss v) (k : List Token) :
    method (bare (.identifier m :: .punct .lparen :: (u ++ .punct .rparen :: v)) ++ k) =
      .ok ⟨m, ps.map Parameter.unplaced, Stmt.allUnplaced ss, {}⟩ k := by
  have hhead (k : List Token) : methodHead (⟨.identifier m, {}⟩ :: ⟨.punct .lparen, {}⟩ ::
      (bare u ++ ⟨.punct .rparen, {}⟩ :: k)) = .ok (m, ps.map Parameter.unplaced) k := by
    rcases next_commas exists_cons_of_param hps k with ⟨rfl, rfl⟩ | ⟨hne, hnext⟩
    · simp [methodHead]
    · simp [methodHead, hnext, parameters_bare hps hne]
  simp only [bare_cons, bare_append, List.cons_append, List.append_assoc]
  rw [method, hhead, Reading.recover_ok, Reading.andThen_ok, block_bare k hss]
  rfl

/-- The first token of a member is read before the others. Only one render block is read. -/
theorem member_bare {m : Member} {w : Word} (h : Grammar.Member m w) (type : Bytes)
    {hasRender : Bool} (hr : hasRender = true → m.isRender = false) (k : List Token) :
    ∃ x u, w = x :: u ∧ ¬ (x = .punct .rbrace ∨ x = .eof) ∧
      member type hasRender ⟨x, {}⟩ (bare u ++ k) = .ok m.unplaced k := by
  cases h with
  | @data n u init v p m s kind hn hv hkind =>
    refine ⟨_, _, rfl, by simp, ?_⟩
    have hread := dataMember_bare (m := m) hn hv hkind k
    cases kind <;> simp only [MemberKind.keyword, member, hread, Reading.recover_ok] <;> rfl
  | method hps hss =>
    refine ⟨_, _, rfl, by simp, ?_⟩
    simp only [member, method_bare hps hss]
    rfl
  | render hops =>
    obtain rfl : hasRender = false := by
      cases hasRender with
      | false => rfl
      | true => cases hr rfl
    refine ⟨_, _, rfl, by simp, ?_⟩
    simp only [member, renderBlock_bare k hops, Reading.andThen_ok]
    rfl

/-- Of what happens at most once, the first time excludes another one. -/
theorem once_cons {α : Type} {p : α → Bool} {a : α} {as : List α} {seen : Bool}
    (h : seen.toNat + ((a :: as).filter p).length ≤ 1) :
    (p a = true → seen = false) ∧ (seen || p a).toNat + (as.filter p).length ≤ 1 := by
  rw [List.filter_cons] at h
  cases hp : p a with
  | false =>
    rw [if_neg (by simp [hp])] at h
    exact ⟨by simp, by rwa [Bool.or_false]⟩
  | true =>
    rw [if_pos hp, List.length_cons] at h
    have hseen : seen = false := by
      cases seen with
      | false => rfl
      | true =>
        rw [Bool.toNat_true] at h
        omega
    refine ⟨fun _ => hseen, ?_⟩
    rw [Bool.or_true, Bool.toNat_true]
    omega

theorem members_bare {ms : List Member} {w : Word} (h : Grammar.Many Grammar.Member ms w)
    {type : Bytes} {hasRender : Bool}
    (hone : hasRender.toNat + (ms.filter (·.isRender)).length ≤ 1) (k : List Token) :
    members type hasRender (bare w ++ ⟨.punct .rbrace, {}⟩ :: k) =
      .ok (ms.map Member.unplaced) (⟨.punct .rbrace, {}⟩ :: k) := by
  induction h generalizing hasRender with
  | nil => exact members_of_isCloser rfl
  | @cons m u ms v hm _ ih =>
    obtain ⟨hfirst, hrest⟩ := once_cons hone
    have hr : hasRender = true → m.isRender = false := by
      rintro rfl
      exact Bool.eq_false_iff.2 fun hm => by cases hfirst hm
    obtain ⟨x, u, rfl, hx, hread⟩ := member_bare hm type hr (bare v ++ ⟨.punct .rbrace, {}⟩ :: k)
    have hafter : rendersAfter hasRender (some m.unplaced) = (hasRender || m.isRender) := by
      rw [rendersAfter_eq_or]
      simp [Member.isRender, render?_unplaced]
    rw [bare_append, List.append_assoc, bare_cons, List.cons_append, members_cons hx, hread,
      Reading.onward_ok (by simp) fun rest => _]
    change (members type (rendersAfter hasRender (some m.unplaced)) _).map _ = _
    rw [hafter, ih hrest]
    rfl

/-! ## Types -/

theorem routePart_bare {route : Option Bytes} {u : Word} (h : Grammar.Route route u) {k : List Token}
    (hk : next k ≠ .punct .lbracket) : routePart (bare u ++ k) = .ok route k := by
  cases h with
  | none => exact if_neg hk
  | some => simp [routePart]

theorem typeHead_bare {kind : TypeKind} {name : Bytes} {base : Option TypeRef}
    {route : Option Bytes} {u v : Word} (hu : Grammar.Route route u) (hv : Grammar.Base base v)
    (k : List Token) :
    typeHead (bare u ++ ⟨.keyword kind.keyword, {}⟩ :: ⟨.identifier name, {}⟩ ::
        (bare v ++ ⟨.punct .lbrace, {}⟩ :: k)) =
      .ok { kind, name, base := base.map TypeRef.unplaced, route, span := {} } k := by
  have hkind (ts : List Token) : typeKind (⟨.keyword kind.keyword, {}⟩ :: ts) = .ok kind ts := by
    cases kind <;> rfl
  rw [typeHead, routePart_bare hu (by simp), Reading.andThen_ok]
  simp only [place_bare, hkind, Reading.andThen_ok, identifier_cons]
  cases hv with
  | none => simp
  | some hn =>
    rw [bare_cons, List.cons_append, if_pos (by rfl), List.tail_cons, type_bare hn (by simp)]
    simp [TypeRef.unplaced]

theorem typeDecl_bare {d : TypeDecl} {w : Word} (h : Grammar.Declaration d w) (k : List Token) :
    typeDecl (bare w ++ k) = .ok d.unplaced k := by
  cases h with
  | intro hu hv hms hone =>
    simp only [bare_cons, bare_append, bare_nil, List.cons_append, List.append_assoc,
      List.nil_append]
    rw [typeDecl_eq, typeHead_bare hu hv, Reading.recover_ok, Reading.andThen_ok, unplaced_declOf]
    exact closing_eq rfl (members_bare hms (by simpa using hone) k)

/-! ## Files -/

/-- What stands at the top of a file, without places. -/
def UnitItem.unplaced : UnitItem → UnitItem
  | .ns n => .ns n
  | .using u => .using { u with span := {} }
  | .type d => .type d.unplaced

theorem nameStatement_bare {n : Bytes} {w : Word} (h : Grammar.Name n w) (k : List Token) :
    nameStatement (bare (w ++ [TokenKind.punct .semicolon]) ++ k) = .ok n k := by
  simp [nameStatement, qualifiedName_bare h (k := ⟨.punct .semicolon, {}⟩ :: k) (by simp)]

theorem exists_startsType_of_declaration {d : TypeDecl} {w : Word} (h : Grammar.Declaration d w) :
    ∃ x u, w = x :: u ∧ startsType x = true := by
  cases h with
  | @intro _ u _ _ _ _ _ kind _ hu =>
    cases hu with
    | none =>
      refine ⟨_, _, rfl, ?_⟩
      cases kind <;> rfl
    | some => exact ⟨_, _, rfl, rfl⟩

/-- The first token of a declaration is read before the others. -/
theorem unitItem_bare {i : UnitItem} {w : Word} (h : Grammar.Item i w) {hasNs hasType : Bool}
    (hns : i.isNamespace = true → hasNs = false ∧ hasType = false) (k : List Token) :
    ∃ x u, w = x :: u ∧ x ≠ .eof ∧
      unitItem hasNs hasType ⟨x, {}⟩ (bare u ++ k) = .ok i.unplaced k := by
  rcases h with hn | hn | hd
  · obtain ⟨rfl, rfl⟩ := hns rfl
    refine ⟨_, _, rfl, by simp, ?_⟩
    simp only [unitItem, nameStatement_bare hn, Reading.andThen_ok]
    rfl
  · refine ⟨_, _, rfl, by simp, ?_⟩
    simp only [unitItem, nameStatement_bare hn]
    rfl
  · have hread := typeDecl_bare hd k
    obtain ⟨x, u, rfl, hx⟩ := exists_startsType_of_declaration hd
    refine ⟨x, u, rfl, ?_, ?_⟩
    · rintro rfl
      cases hx
    · rw [bare_cons, List.cons_append] at hread
      rw [unitItem_type hx, hread]
      rfl

theorem unitItems_bare {is : List UnitItem} {w : Word} (h : Grammar.Many Grammar.Item is w)
    {hasNs hasType : Bool} (hone : hasNs.toNat + (is.filter (·.isNamespace)).length ≤ 1)
    (hlate : hasType = true → ∀ i ∈ is, i.isNamespace = false)
    (hearly : is.Pairwise fun i j => i.isType = true → j.isNamespace = false) {e : Token}
    (he : e.kind = .eof) (k : List Token) :
    unitItems hasNs hasType (bare w ++ e :: k) = .ok (is.map UnitItem.unplaced) (e :: k) := by
  induction h generalizing hasNs hasType with
  | nil => exact unitItems_of_eof he k
  | @cons i u is v hi _ ih =>
    obtain ⟨hfirst, hrest⟩ := once_cons hone
    obtain ⟨hlater, hpairs⟩ := List.pairwise_cons.1 hearly
    have hns : i.isNamespace = true → hasNs = false ∧ hasType = false := by
      refine fun hi => ⟨hfirst hi, Bool.eq_false_iff.2 fun ht => ?_⟩
      rw [hlate ht i List.mem_cons_self] at hi
      cases hi
    have hflags : flagsAfter hasNs hasType (some i.unplaced) =
        (hasNs || i.isNamespace, hasType || i.isType) := by
      rcases i with n | u | d <;> simp [UnitItem.unplaced, flagsAfter, UnitItem.isNamespace, UnitItem.isType]
    have hlate' : (hasType || i.isType) = true → ∀ j ∈ is, j.isNamespace = false := by
      intro h j hj
      rcases Bool.or_eq_true_iff.1 h with ht | hi
      · exact hlate ht j (List.mem_cons_of_mem _ hj)
      · exact hlater j hj hi
    obtain ⟨x, u, rfl, hx, hread⟩ := unitItem_bare hi hns (bare v ++ e :: k)
    rw [bare_append, List.append_assoc, bare_cons, List.cons_append, unitItems_cons hx, hread,
      Reading.onward_ok (by simp) fun rest => _]
    change (unitItems (flagsAfter hasNs hasType (some i.unplaced)).1
      (flagsAfter hasNs hasType (some i.unplaced)).2 _).map _ = _
    rw [hflags, ih hrest hlate' hpairs]
    rfl

theorem SameItem.unplaced_eq {i j : UnitItem} (h : SameItem i j) : i.unplaced = j.unplaced := by
  rcases h with _ | hns | hd
  · rfl
  · simp [UnitItem.unplaced, hns]
  · simp [UnitItem.unplaced, hd.1]

theorem UnitItem.unplaced_unplaced (i : UnitItem) : i.unplaced.unplaced = i.unplaced := by
  rcases i with n | u | d <;> simp [UnitItem.unplaced]

/-- Tokens that are derivable as a file are read as it, up to places. -/
theorem exists_unitItems_of_file {ts : List Token} {items : List UnitItem} {w : Word}
    (hts : Worded ts) (hkinds : ts.map (·.kind) = w ++ [TokenKind.eof]) (h : Grammar.File items w) :
    ∃ items' rest, unitItems false false ts = .ok items' rest ∧
      items'.map UnitItem.unplaced = items.map UnitItem.unplaced := by
  have hread : unitItems false false (bare w ++ [Token.endOfText]) =
      .ok (items.map UnitItem.unplaced) [.endOfText] :=
    unitItems_bare h.listed (by simpa using h.single) (by simp) h.early rfl []
  have hsimilar : Reading.Similar (List.Forall₂ SameItem) (unitItems false false ts)
      (unitItems false false (bare w ++ [Token.endOfText])) := similar_unitItems (like_bare hts hkinds)
  obtain ⟨hvalue, herrors, -⟩ := hread ▸ hsimilar
  generalize hr : unitItems false false ts = r at hvalue herrors ⊢
  obtain ⟨value, errors, rest⟩ := r
  obtain rfl : errors = [] := List.map_eq_nil_iff.1 herrors
  cases hvalue with
  | @some items' _ hsame =>
    refine ⟨items', rest, rfl, ?_⟩
    have hequal : List.Forall₂ (· = ·) (items'.map UnitItem.unplaced)
        ((items.map UnitItem.unplaced).map UnitItem.unplaced) := by
      rw [List.forall₂_map_left_iff, List.forall₂_map_right_iff]
      exact hsame.imp fun _ _ => SameItem.unplaced_eq
    rw [List.forall₂_eq_eq_eq] at hequal
    simpa [Function.comp_def, UnitItem.unplaced_unplaced] using hequal

/-- A file is read to its end. -/
theorem next_rest_unitItems (hasNs hasType : Bool) (ts : List Token) :
    next (unitItems hasNs hasType ts).rest = .eof := by
  induction hn : ts.length using Nat.strongRecOn generalizing ts hasNs hasType with
  | ind n ih =>
  cases ts with
  | nil =>
    rw [unitItems]
    rfl
  | cons t ts =>
    by_cases ht : t.kind = .eof
    · rw [unitItems_of_eof ht]
      exact ht
    · rw [unitItems_cons ht]
      have hle := length_clip_le ts (unitItem hasNs hasType t ts).rest
      exact ih _ (by simp at hn; omega) _ _ _ rfl

/-- What is read without errors is derivable, and it is all there is. -/
theorem exists_file_of_unitItems {ts : List Token} {e : Token} (he : e.kind = .eof)
    (hts : ∀ t ∈ ts, t.kind ≠ .eof) (h : (unitItems false false (ts ++ [e])).errors = []) :
    ∃ items, Grammar.File items (ts.map (·.kind)) := by
  have hnext := next_rest_unitItems false false (ts ++ [e])
  obtain ⟨items, w, rest, hsplit, hread, hlisted, hsingle, -, hearly⟩ := derives_unitItems h
  rw [hread] at hnext
  have heof : ∀ t ∈ w, t.kind ≠ .eof := fun t ht hk =>
    hlisted.eof_notMem Grammar.Item.eof_notMem (hk ▸ List.mem_map_of_mem ht)
  obtain rfl : ts = w := by
    rcases List.append_eq_append_iff.1 hsplit with ⟨v, rfl, hv⟩ | ⟨v, rfl, hv⟩
    · cases v with
      | nil => simp
      | cons t v =>
        obtain ⟨rfl, -⟩ := List.cons.inj hv
        exact absurd he (heof _ (by simp))
    · cases v with
      | nil => simp
      | cons t v =>
        rw [hv] at hnext
        exact absurd hnext (hts t (by simp))
  exact ⟨items, hlisted, by simpa using hsingle, hearly⟩

end Tokens

/-! ## The accepted language -/

namespace SyntaxTree

/-- A text of tokens that are derivable as a file is parsed as it, up to places. -/
theorem exists_parse_eq {source : Bytes} {items : List Tokens.UnitItem} {w : Word} (file : Bytes)
    (hscan : (TokenStream.scan source).errors = [])
    (hkinds : (TokenStream.scan source).tokens.map (·.kind) = w ++ [TokenKind.eof])
    (h : Grammar.File items w) : ∃ items', parse source file = ofItems file items' [] ∧
      items'.map Tokens.UnitItem.unplaced = items.map Tokens.UnitItem.unplaced := by
  obtain ⟨items', rest, hread, hsame⟩ :=
    Tokens.exists_unitItems_of_file (TokenStream.worded_tokens {} source) hkinds h
  refine ⟨items', ?_, hsame⟩
  have hread : Tokens.unitItems false false (TokenStream.scan source).tokens = .ok items' rest := hread
  simp [parse, hread, TokenStream.diagnostics, hscan, Reading.ok]

/-- A text is parsed without diagnostics if and only if it is scanned without any and its tokens
but the end of the text are derivable as a file. -/
theorem parse_diagnostics_eq_nil_iff (source file : Bytes) :
    (parse source file).diagnostics = [] ↔
      (TokenStream.scan source).diagnostics file = [] ∧
        ∃ items, Grammar.File items ((TokenStream.scan source).tokens.dropLast.map (·.kind)) := by
  obtain ⟨ts, e, htokens, he, hts⟩ := TokenStream.exists_tokens_eq {} source
  have htokens : (TokenStream.scan source).tokens = ts ++ [e] := htokens
  rw [htokens, List.dropLast_concat]
  constructor
  · intro h
    obtain ⟨hscan, hunit⟩ := List.append_eq_nil_iff.1 h
    rw [htokens] at hunit
    exact ⟨hscan, Tokens.exists_file_of_unitItems he hts (List.map_eq_nil_iff.1 hunit)⟩
  · rintro ⟨hscan, items, hfile⟩
    obtain ⟨items', hparse, -⟩ := exists_parse_eq file (List.map_eq_nil_iff.1 hscan)
      (by rw [htokens, List.map_append, List.map_singleton, he]) hfile
    rw [hparse]
    rfl

end SyntaxTree

end ViewCompiler
