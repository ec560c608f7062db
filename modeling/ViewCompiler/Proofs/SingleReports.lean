import ViewCompiler.Proofs.MemberConsumption

/-!
Readings inside of a statement. Names, types and expressions are read over tokens that neither end a
statement nor open or close a block, and what cannot be read is reported once, at the token where it
went wrong (`Tokens.Single`). So it is known where a reader stands after an error without knowing
what the error was.
-/

namespace ViewCompiler

/-- Tokens inside of a statement: no braces, no semicolon, and not the end of the text. -/
def TokenKind.runsOn : TokenKind → Bool
  | eof | punct .lbrace | punct .rbrace | punct .semicolon => false
  | _ => true

theorem TokenKind.isPlain_of_runsOn {k : TokenKind} (h : k.runsOn = true) : k.isPlain = true := by
  unfold isPlain
  split <;> first | rfl | cases h

/-- A block was found where a statement was expected. -/
def SyntaxError.isBareBlock : SyntaxError → Bool
  | expected what (.punct .lbrace) => what = "statement"
  | _ => false

theorem SyntaxError.isBareBlock_expected {what : Bytes} (h : what ≠ "statement") (found : TokenKind) :
    (expected what found).isBareBlock = false := by
  unfold isBareBlock
  split
  · next heq =>
    cases heq
    exact decide_eq_false h
  · rfl

namespace Tokens

/-- `ts` leaves `rest` behind tokens of which all satisfy `p`. -/
def Leaves (p : TokenKind → Bool) (ts rest : List Token) : Prop :=
  ∃ w, ts = w ++ rest ∧ ∀ t ∈ w, p t.kind = true

section
variable {p : TokenKind → Bool} {t : Token} {ts us rest : List Token}

namespace Leaves

theorem refl (p : TokenKind → Bool) (ts : List Token) : Leaves p ts ts := ⟨[], rfl, by simp⟩

theorem trans (h : Leaves p ts us) (h' : Leaves p us rest) : Leaves p ts rest := by
  obtain ⟨w, rfl, hw⟩ := h
  obtain ⟨w', rfl, hw'⟩ := h'
  exact ⟨w ++ w', by simp, List.forall_mem_append.2 ⟨hw, hw'⟩⟩

theorem cons (ht : p t.kind = true) (h : Leaves p ts rest) : Leaves p (t :: ts) rest := by
  obtain ⟨w, rfl, hw⟩ := h
  exact ⟨t :: w, rfl, List.forall_mem_cons.2 ⟨ht, hw⟩⟩

theorem tail (hp : p .eof = false) (h : p (next ts) = true) : Leaves p ts ts.tail := by
  cases ts with
  | nil =>
    rw [show next [] = .eof from rfl, hp] at h
    cases h
  | cons t ts => exact .cons h (.refl p ts)

theorem mono {q : TokenKind → Bool} (hpq : ∀ k, p k = true → q k = true) (h : Leaves p ts rest) :
    Leaves q ts rest := by
  obtain ⟨w, rfl, hw⟩ := h
  exact ⟨w, rfl, fun t ht => hpq _ (hw t ht)⟩

theorem length_le (h : Leaves p ts rest) : rest.length ≤ ts.length := by
  obtain ⟨w, rfl, -⟩ := h
  simp

end Leaves

/-! ## Readings -/

/-- The reading of `ts` stays inside of a statement, and it reports one error if it has no value. -/
inductive Single {α : Type} (ts : List Token) : Reading α → Prop
  | read {a : α} {rest : List Token} : Leaves TokenKind.runsOn ts rest → Single ts ⟨some a, [], rest⟩
  | failed {e : Span × SyntaxError} {rest : List Token} : Leaves TokenKind.runsOn ts rest →
    e.2.isBareBlock = false → Single ts ⟨none, [e], rest⟩

namespace Single

variable {α β : Type} {r : Reading α}

theorem ok (a : α) (ts : List Token) : Single ts (.ok a ts) := .read (.refl _ _)

theorem expected {what : Bytes} (h : what ≠ "statement") (ts : List Token) :
    Single ts (.expected what ts : Reading α) :=
  .failed (.refl _ _) (SyntaxError.isBareBlock_expected h _)

theorem leaves (h : Single ts r) : Leaves TokenKind.runsOn ts r.rest := by
  cases h <;> assumption

/-- A reading behind its first tokens. -/
theorem behind (hts : Leaves TokenKind.runsOn ts us) (h : Single us r) : Single ts r := by
  cases h with
  | read hrest => exact .read (hts.trans hrest)
  | failed hrest he => exact .failed (hts.trans hrest) he

theorem map (h : Single ts r) (f : α → β) : Single ts (r.map f) := by
  cases h with
  | read hrest => exact .read hrest
  | failed hrest he => exact .failed hrest he

theorem andThen {f : α → List Token → Reading β} (h : Single ts r)
    (hf : ∀ a rest, rest.length ≤ ts.length → Single rest (f a rest)) : Single ts (r.andThen f) := by
  cases h with
  | read hrest => exact (hf _ _ hrest.length_le).behind hrest
  | failed hrest he => exact .failed hrest he

theorem within {f : α → List Token → Reading β} (h : Single ts r)
    (hf : ∀ a rest, rest.length ≤ ts.length → Single rest (f a rest)) :
    Single ts (r.within ts fun a rest _ => f a rest) := by
  rw [Reading.within_eq_andThen h.leaves.length_le]
  exact h.andThen hf

/-- One of two readings, by the next token. -/
theorem ite_next {kind : TokenKind} {f g : List Token → Reading α} (hkind : kind.runsOn = true)
    (hf : Single ts.tail (f ts.tail)) (hg : Single ts (g ts)) :
    Single ts (if next ts = kind then f ts.tail else g ts) := by
  split
  · next h => exact hf.behind (.tail rfl (h ▸ hkind))
  · exact hg

end Single

/-! ## Names and types -/

theorem single_take {kind : TokenKind} {what : Bytes} (hkind : kind.runsOn = true)
    (hwhat : what ≠ "statement") (ts : List Token) : Single ts (take kind what ts) := by
  rw [take]
  split
  · next h => exact .read (.tail rfl (h ▸ hkind))
  · exact .expected hwhat ts

theorem single_mark {m : Punct} (hm : (TokenKind.punct m).runsOn = true) (ts : List Token) :
    Single ts (mark m ts) := by
  refine single_take hm ?_ ts
  cases m <;> decide

theorem single_identifier {what : Bytes} (hwhat : what ≠ "statement") (ts : List Token) :
    Single ts (identifier what ts) := by
  rw [identifier]
  split
  · next h => exact .read (.tail rfl (h ▸ rfl))
  · exact .expected hwhat ts

theorem single_literal {what : Bytes} (hwhat : what ≠ "statement") (ts : List Token) :
    Single ts (literal what ts) := by
  rw [literal]
  split
  · next h => exact .read (.tail rfl (h ▸ rfl))
  · exact .expected hwhat ts

theorem leaves_dotted (ts : List Token) : Leaves TokenKind.runsOn ts (dotted ts).2 := by
  fun_induction dotted ts with
  | case1 s n s' ts name rest heq ih =>
    rw [heq] at ih
    exact .cons rfl (.cons rfl ih)
  | case2 ts => exact .refl _ ts

theorem single_qualifiedName (ts : List Token) : Single ts (qualifiedName ts) :=
  (single_identifier (by decide) ts).andThen fun _ rest _ => .read (leaves_dotted rest)

theorem single_type (ts : List Token) : Single ts (type ts) := by
  rw [type]
  split
  · next h =>
    split
    · exact .read (.tail rfl (h ▸ rfl))
    · exact .expected (by decide) ts
  · exact (single_qualifiedName ts).map _
  · exact .expected (by decide) ts

/-! ## Expressions -/

theorem runsOn_of_operator? {p : Precedence} {kind : TokenKind} {op : BinaryOp}
    (h : p.operator? kind = some op) : kind.runsOn = true := by
  unfold TokenKind.runsOn
  split <;> first | rfl | (cases p <;> cases h)

theorem single_operandOf {p : Precedence} (hb : ∀ q, p.tighter? = some q → Single ts (binary q ts))
    (ho : Single ts (operand ts)) : Single ts (operandOf p ts) := by
  rw [operandOf]
  split
  · exact hb _ ‹_›
  · exact ho

theorem single_expressions :
    (∀ ts, Single ts (operand ts)) ∧ (∀ p ts, Single ts (binary p ts)) ∧
      ∀ p left ts, Single ts (operators p left ts) := by
  apply operand.mutual_induct
  case case1 =>
    rw [operand]
    exact .expected (by decide) []
  case case2 | case3 | case4 | case5 | case6 =>
    intros
    simp only [operand, *]
    exact .read (.cons (by simp [*, TokenKind.runsOn]) (.refl _ _))
  case case7 | case8 =>
    intro t tail ht ih
    simp only [operand, ht]
    exact (ih.map _).behind (.cons (by rw [ht]; rfl) (.refl _ _))
  case case9 =>
    intro t tail ht ih
    simp only [operand, ht]
    refine .behind (.cons (by rw [ht]; rfl) (.refl _ _)) (ih.andThen fun e rest _ => ?_)
    exact (single_mark rfl rest).map _
  case case10 =>
    intro t tail h₁ h₂ h₃ h₄ h₅ h₆ h₇ h₈
    rw [operand]
    split <;> first | exact .expected (by decide) _ | simp_all
  case case11 =>
    intro p ts hb ho ih
    rw [binary_eq]
    exact (single_operandOf hb ho).within ih
  case case12 =>
    intro p left
    rw [operators]
    exact .ok left []
  case case13 =>
    intro p left t tail hnone
    rw [operators_of_none hnone]
    exact .ok left _
  case case14 =>
    intro p left t tail op hop hb ho ih
    rw [operators_cons hop]
    refine .behind (.cons (runsOn_of_operator? hop) (.refl _ _)) ?_
    exact (single_operandOf (fun q _ => hb q) ho).within ih

theorem single_expr (ts : List Token) : Single ts (expr ts) := single_expressions.2.1 .disjunction ts

theorem single_arguments (ts : List Token) : Single ts (arguments ts) := by
  induction ts using arguments.induct with
  | case1 ts ih =>
    rw [arguments_eq]
    refine (single_expr ts).within fun e rest hrest => ?_
    fun_cases moreArguments e rest with
    | case1 s rest => exact ((ih s rest hrest).map _).behind (.cons rfl (.refl _ _))
    | case2 rest => exact .ok [e] rest

/-! ## Members -/

theorem single_initializer (kind : MemberKind) (ts : List Token) : Single ts
    (if kind = .field ∧ next ts = .punct .assign then (expr ts.tail).map some else .ok none ts) := by
  split
  · next h => exact ((single_expr ts.tail).map some).behind (.tail rfl (h.2 ▸ rfl))
  · exact .ok none ts

theorem single_parameter (ts : List Token) : Single ts (parameter ts) :=
  (single_type ts).andThen fun _ rest _ => (single_identifier (by decide) rest).map _

theorem single_parameters (ts : List Token) : Single ts (parameters ts) := by
  induction ts using parameters.induct with
  | case1 ts ih =>
    rw [parameters_eq]
    refine (single_parameter ts).within fun p rest hrest => ?_
    fun_cases moreParameters p rest with
    | case1 s rest => exact ((ih s rest hrest).map _).behind (.cons rfl (.refl _ _))
    | case2 rest => exact .ok [p] rest

theorem single_methodHead (ts : List Token) : Single ts (methodHead ts) := by
  have params (ts : List Token) : Single ts
      (if next ts = .punct .rparen then .ok [] ts else parameters ts) := by
    split
    · exact .ok [] ts
    · exact single_parameters ts
  refine (single_identifier (by decide) ts).andThen fun name rest _ => ?_
  refine (single_mark rfl rest).andThen fun _ rest _ => (params rest).andThen fun _ rest _ => ?_
  exact (single_mark rfl rest).map _

end

end Tokens

end ViewCompiler
