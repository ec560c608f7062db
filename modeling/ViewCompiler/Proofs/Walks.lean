import ViewCompiler.Proofs.SingleReports
import ViewCompiler.Proofs.RenderInserted

/-!
How readers pass braces, whatever is wrong with what they read. What is skipped after an error are
blocks of their own or parts without braces, so a reader is behind as many open blocks as before, with
one exception: a brace where a statement is expected is passed alone, and its block stays open. Such
bare blocks are reported, so the depth behind a reading is known from its errors (`Tokens.Walks`).
-/

namespace ViewCompiler

/-- How many blocks a token opens. -/
def TokenKind.opens : TokenKind → Nat
  | punct .lbrace => 1
  | _ => 0

theorem TokenKind.opens_of_ne {k : TokenKind} (h : k ≠ .punct .lbrace) : k.opens = 0 := by
  unfold opens
  split
  · contradiction
  · rfl

namespace Tokens

open TokenKind (isCloser)

/-- Passing tokens of `ts` in `n` open blocks ends in front of `rest` in `m` open blocks. Where the
text ends, blocks may end too. -/
inductive Walk : Nat → List Token → Nat → List Token → Prop
  | stay : Walk n ts n ts
  | plain : t.kind.isPlain = true → Walk n ts m rest → Walk n (t :: ts) m rest
  | opened : t.kind = .punct .lbrace → Walk (n + 1) ts m rest → Walk n (t :: ts) m rest
  | closed : t.kind = .punct .rbrace → Walk n ts m rest → Walk (n + 1) (t :: ts) m rest
  | ended : next ts = .eof → Walk n ts m rest → Walk (n + 1) ts m rest

section
variable {n m l : Nat} {t : Token} {ts us rest : List Token}

namespace Walk

theorem trans (h : Walk n ts m us) (h' : Walk m us l rest) : Walk n ts l rest := by
  induction h with
  | stay => exact h'
  | plain ht _ ih => exact .plain ht (ih h')
  | opened ht _ ih => exact .opened ht (ih h')
  | closed ht _ ih => exact .closed ht (ih h')
  | ended ht _ ih => exact .ended ht (ih h')

theorem leaves (h : Walk n ts m rest) : Leaves (· != .eof) ts rest := by
  induction h with
  | stay => exact .refl _ _
  | plain ht _ ih =>
    refine ih.cons ?_
    unfold TokenKind.isPlain at ht
    split at ht <;> simp_all
  | opened ht _ ih | closed ht _ ih => exact ih.cons (by simp [ht])
  | ended _ _ ih => exact ih

theorem length_le (h : Walk n ts m rest) : rest.length ≤ ts.length := h.leaves.length_le

theorem of_leaves (h : Leaves TokenKind.isPlain ts rest) : Walk n ts n rest := by
  obtain ⟨w, rfl, hw⟩ := h
  induction w with
  | nil => exact .stay
  | cons t w ih =>
    rw [List.forall_mem_cons] at hw
    exact .plain hw.1 (ih hw.2)

theorem of_eof (h : next ts = .eof) (n depth : Nat) : Walk (n + depth) ts n ts := by
  induction depth with
  | zero => exact .stay
  | succ depth ih => exact .ended h ih

/-- The first token of an item. -/
theorem head (ht : ¬ (t.kind = .punct .rbrace ∨ t.kind = .eof)) (h : Walk (n + t.kind.opens) ts m rest) :
    Walk n (t :: ts) m rest := by
  by_cases hbrace : t.kind = .punct .lbrace
  · rw [hbrace] at h
    exact .opened hbrace h
  · rw [TokenKind.opens_of_ne hbrace] at h
    exact .plain (isPlain_of_not ht hbrace) h

end Walk

/-! ## Skipping -/

theorem isPlain_of_skipped (h₁ : t.kind = .eof → False) (h₂ : t.kind = .punct .lbrace → False)
    (h₃ : t.kind = .punct .rbrace → False) : t.kind.isPlain = true :=
  isPlain_of_not (not_or.2 ⟨h₃, h₁⟩) h₂

theorem walk_synchronizeAt (n depth : Nat) (ts : List Token) :
    Walk (n + depth) ts n (synchronizeAt depth ts) := by
  fun_induction synchronizeAt depth ts with
  | case1 depth => exact .of_eof rfl n depth
  | case2 depth t ts ht => exact .of_eof (show next (t :: ts) = .eof from ht) n depth
  | case3 depth t ts ht ih => exact .opened ht ih
  | case4 t ts ht => exact .stay
  | case5 t ts ht => exact .closed ht .stay
  | case6 t ts ht depth ih => exact .closed ht ih
  | case7 t ts ht => exact .plain (by rw [ht]; rfl) .stay
  | case8 depth t ts ht _ ih => exact .plain (by rw [ht]; rfl) ih
  | case9 depth t ts h₁ h₂ h₃ _ ih => exact .plain (isPlain_of_skipped h₁ h₂ h₃) ih

/-- What is skipped from the first token of an item on. -/
theorem walk_synchronize_cons (ht : ¬ (t.kind = .punct .rbrace ∨ t.kind = .eof)) (n : Nat) :
    Walk (n + t.kind.opens) ts n (synchronize (t :: ts)) := by
  by_cases hbrace : t.kind = .punct .lbrace
  · simp only [synchronize, synchronizeAt, hbrace]
    exact walk_synchronizeAt n 1 ts
  rw [TokenKind.opens_of_ne hbrace, synchronize, synchronizeAt.eq_def]
  dsimp only
  split
  · next heof => exact absurd (.inr heof) ht
  · contradiction
  · next hclose => exact absurd (.inl hclose) ht
  · exact .stay
  · exact walk_synchronizeAt n 0 ts

theorem walk_skipBlockAt (n depth : Nat) (ts : List Token) :
    Walk (n + (depth + 1)) ts n (skipBlockAt (depth + 1) ts) := by
  induction ts generalizing depth with
  | nil => exact .of_eof rfl n (depth + 1)
  | cons t ts ih =>
    rw [skipBlockAt]
    split
    · next ht => exact .of_eof (show next (t :: ts) = .eof from ht) n (depth + 1)
    · next ht => exact .opened ht (ih (depth + 1))
    · next ht =>
      cases depth with
      | zero => exact .closed ht .stay
      | succ depth => exact .closed ht (ih depth)
    · next h₁ h₂ h₃ => exact .plain (isPlain_of_skipped h₁ h₂ h₃) (ih depth)

end

/-! ## Readings -/

/-- Behind the reading of `ts`, which starts in `d` open blocks, as many blocks are open as it reports
`deep` errors. -/
def Walks (deep : SyntaxError → Bool) (d : Nat) (ts : List Token) {α : Type} (r : Reading α) : Prop :=
  ∀ n, Walk (n + d) ts (n + r.errors.countP fun e => deep e.2) r.rest

section
variable {deep : SyntaxError → Bool} {d : Nat} {t : Token} {ts us : List Token}

namespace Walks

variable {α β : Type} {r : Reading α}

theorem length_le (h : Walks deep d ts r) : r.rest.length ≤ ts.length := (h 0).length_le

theorem ok (a : α) : Walks deep 0 ts (.ok a ts) := fun _ => .stay

/-- A reading with an error that leaves no block open. -/
theorem error {v : Option α} {s : Span} {e : SyntaxError} (he : deep e = false)
    (h : ∀ n, Walk (n + d) ts n us) : Walks deep d ts ⟨v, [(s, e)], us⟩ := by
  intro n
  simpa [he] using h n

theorem of_single (hdeep : ∀ e, deep e = true → e.isBareBlock = true) (h : Single ts r) :
    Walks deep 0 ts r := by
  have hplain {rest} (hrest : Leaves TokenKind.runsOn ts rest) (n : Nat) : Walk n ts n rest :=
    .of_leaves (hrest.mono fun _ => TokenKind.isPlain_of_runsOn)
  cases h with
  | read hrest => exact hplain hrest
  | @failed e _ hrest he =>
    refine error (d := 0) ?_ (hplain hrest)
    cases hd : deep e.2 with
    | false => rfl
    | true => rw [hdeep _ hd] at he; cases he

theorem map (h : Walks deep d ts r) (f : α → β) : Walks deep d ts (r.map f) := h

theorem recover (h : Walks deep d ts r) : Walks deep d ts r.recover := by
  rw [Reading.recover]
  split
  · exact h
  · exact fun n => (h n).trans (walk_synchronizeAt _ 0 _)

/-- Going on behind a reading. -/
theorem report {r' : Reading β} (h : Walks deep d ts r) (h' : Walks deep 0 r.rest r') :
    Walks deep d ts (r'.report r.errors) := by
  intro n
  have hnext := h' (n + r.errors.countP fun e => deep e.2)
  rw [Reading.report, List.countP_append, ← Nat.add_assoc]
  exact (h n).trans hnext

theorem andThen {f : α → List Token → Reading β} (h : Walks deep d ts r)
    (hf : ∀ a rest, rest.length ≤ ts.length → Walks deep 0 rest (f a rest)) :
    Walks deep d ts (r.andThen f) := by
  rw [Reading.andThen]
  split
  · exact h.report (hf _ _ h.length_le)
  · exact h

theorem within {f : α → List Token → Reading β} (h : Walks deep d ts r)
    (hf : ∀ a rest, rest.length ≤ ts.length → Walks deep 0 rest (f a rest)) :
    Walks deep d ts (r.within ts fun a rest _ => f a rest) := by
  rw [Reading.within_eq_andThen h.length_le]
  exact h.andThen hf

theorem onward {f : List Token → Reading β} (h : Walks deep d ts r)
    (hf : ∀ rest, rest.length ≤ ts.length → Walks deep 0 rest (f rest)) :
    Walks deep d ts (r.onward ts fun rest _ => f rest) := by
  rw [Reading.onward_eq h.length_le]
  exact h.report (hf _ h.length_le)

/-- A reading behind its first token. -/
theorem plain (ht : t.kind.isPlain = true) (h : Walks deep 0 ts r) : Walks deep 0 (t :: ts) r :=
  fun n => .plain ht (h n)

theorem head (ht : ¬ (t.kind = .punct .rbrace ∨ t.kind = .eof)) (h : Walks deep t.kind.opens ts r) :
    Walks deep 0 (t :: ts) r := fun n => .head ht (h n)

end Walks

/-! ### Blocks -/

/-- Whatever is wrong with the items of a block, they are read. -/
theorem ItemReader.isSome_value {α : Type} {g : Token → List Token → Reading α}
    {F : List Token → Reading (List α)} (hF : ItemReader g F) (ts : List Token) :
    (F ts).value.isSome = true := by
  induction hn : ts.length using Nat.strongRecOn generalizing ts with
  | ind n ih =>
  cases ts with
  | nil =>
    rw [hF.nil]
    rfl
  | cons t ts =>
    rw [hF.cons]
    split
    · rfl
    · have hlen := length_clip_le ts (g t ts).rest
      have hrest := ih _ (by simp at hn; omega) (clip ts (g t ts).rest) rfl
      simpa [Reading.onward, Reading.report, Reading.map] using hrest

theorem isSome_componentBody (hasChild : Bool) (ts : List Token) :
    (componentBody hasChild ts).value.isSome = true := by
  induction hn : ts.length using Nat.strongRecOn generalizing hasChild ts with
  | ind n ih =>
  by_cases hcloser : isCloser (next ts) = true
  · rw [componentBody_of_isCloser hcloser]
    rfl
  cases ts with
  | nil => exact absurd rfl hcloser
  | cons t ts =>
    have step (hasChild : Bool) (rest : List Token) :
        (componentBody hasChild (Tokens.clip ts rest)).value.isSome = true := by
      have hlen := length_clip_le ts rest
      exact ih _ (by simp at hn; omega) _ _ rfl
    by_cases hattr : t.kind = .keyword .attrKw
    · rw [componentBody_attr hattr]
      simpa [Reading.onward, Reading.report, Reading.map] using step _ _
    by_cases hchild : t.kind = .keyword .childKw
    · rw [componentBody_child hchild]
      simpa [Reading.onward, Reading.report, Reading.map] using step _ _
    have hne : t.kind ≠ .punct .rbrace ∧ t.kind ≠ .eof := by
      constructor <;> intro ht <;> exact hcloser (by rw [next_cons, ht]; rfl)
    rw [componentBody_other hne.1 hne.2 hattr hchild]
    simpa [Reading.onward, Reading.report] using step _ _

/-- The items of a block, behind the first of them. -/
theorem walks_items {α : Type} {g : Token → List Token → Reading α}
    {F : List Token → Reading (List α)} (hF : ItemReader g F)
    (ht : ¬ (t.kind = .punct .rbrace ∨ t.kind = .eof)) (h : Walks deep t.kind.opens ts (g t ts))
    (ih : ∀ rest : List Token, rest.length ≤ ts.length → Walks deep 0 rest (F rest)) :
    Walks deep 0 (t :: ts) (F (t :: ts)) := by
  rw [hF.cons, if_neg ht]
  exact .head ht (h.onward fun rest hrest => (ih rest hrest).map _)

variable (hdeep : ∀ e, deep e = true → e.isBareBlock = true)

include hdeep

theorem deep_expected {what : Bytes} (h : what ≠ "statement") (found : TokenKind) :
    deep (.expected what found) = false := by
  cases hd : deep (.expected what found) with
  | false => rfl
  | true =>
    have hbare := hdeep _ hd
    rw [SyntaxError.isBareBlock_expected h] at hbare
    cases hbare

theorem walks_expected {α : Type} {what : Bytes} (h : what ≠ "statement") :
    Walks deep 0 ts (.expected what ts : Reading α) := .of_single hdeep (.expected h ts)

theorem walks_mark {p : Punct} (hp : (TokenKind.punct p).isPlain = true) :
    Walks deep 0 ts (mark p ts) := by
  rw [mark, take]
  split
  · next h => exact fun n => .of_leaves (.tail rfl (h ▸ hp))
  · exact walks_expected hdeep (by cases p <;> decide)

/-- A block ends behind its closing brace, or where the text ends. -/
theorem walks_closing {α β : Type} {f : List Token → Reading α} {g : α → β}
    (hsome : (f ts).value.isSome = true) (hend : isCloser (next (f ts).rest) = true)
    (h : Walks deep 0 ts (f ts)) : Walks deep 1 ts (closing f g ts) := by
  obtain ⟨a, ha⟩ := Option.isSome_iff_exists.1 hsome
  intro n
  have hinner := h (n + 1)
  rw [Nat.add_zero, Nat.add_right_comm] at hinner
  rw [closing, Reading.andThen, ha]
  by_cases hbrace : next (f ts).rest = .punct .rbrace
  · obtain ⟨s, rest, hrest⟩ := exists_cons_of_next hbrace (by simp)
    rw [hrest] at hinner
    have hclose : mark .rbrace (f ts).rest = .ok () rest := by
      rw [hrest]
      rfl
    simpa [hclose, Reading.ok, Reading.report] using hinner.trans (.closed rfl .stay)
  · have heof : next (f ts).rest = .eof := by
      unfold isCloser at hend
      split at hend <;> simp_all
    have hclose : mark .rbrace (f ts).rest = .expected (Punct.text .rbrace).quoted (f ts).rest :=
      if_neg hbrace
    have hquiet (found : TokenKind) : deep (.expected (Punct.text .rbrace).quoted found) = false :=
      deep_expected hdeep (by decide) found
    simpa [hclose, Reading.expected, Reading.report, hquiet] using hinner.trans (.ended heof .stay)

theorem Braced.walks {α : Type} {f F : List Token → Reading (List α)} {g : Token → List Token → Reading α}
    (hF : Braced f F) (hf : ItemReader g f)
    (h : ∀ s ts', ts = ⟨.punct .lbrace, s⟩ :: ts' → Walks deep 0 ts' (f ts')) :
    Walks deep 0 ts (F ts) := by
  by_cases hn : next ts = .punct .lbrace
  · obtain ⟨s, ts, rfl⟩ := exists_cons_of_next hn (by simp)
    rw [hF.cons]
    refine .head (by simp) ?_
    exact walks_closing hdeep (hf.isSome_value ts) (hf.isCloser_next_rest ts) (h s ts rfl)
  · rw [hF.other _ hn]
    exact (walks_expected hdeep (by decide)).recover

/-! ### Statements -/

theorem walks_expr : Walks deep 0 ts (expr ts) := .of_single hdeep (single_expr ts)

theorem walks_simpleStmt {s : Span} {name : Bytes} : Walks deep 0 ts (simpleStmt s name ts) := by
  have target (ts : List Token) : Single ts
      (if next ts = .punct .dot then
        (identifier "method name" ts.tail).map fun method => (some name, method)
      else .ok (none, name) ts) :=
    .ite_next (f := fun ts => (identifier "method name" ts).map fun method => (some name, method))
      (g := .ok (none, name)) rfl ((single_identifier (by decide) _).map _) (.ok _ ts)
  have args (ts : List Token) : Single ts
      (if next ts = .punct .rparen then .ok [] ts else arguments ts) := by
    split
    · exact .ok [] ts
    · exact single_arguments ts
  rw [simpleStmt]
  split
  · next hn =>
    obtain ⟨s, ts, rfl⟩ := exists_cons_of_next hn (by simp)
    refine .plain rfl ((walks_expr hdeep).andThen fun value rest _ => ?_)
    exact (walks_mark hdeep rfl).map _
  · refine Walks.andThen (.of_single hdeep (target ts)) ?_
    rintro ⟨receiver, method⟩ rest -
    refine Walks.andThen (.of_single hdeep (single_take rfl (by decide) rest)) fun _ rest _ => ?_
    refine Walks.andThen (.of_single hdeep (args rest)) fun _ rest _ => ?_
    exact (walks_mark hdeep rfl).andThen fun _ rest _ => (walks_mark hdeep rfl).map _

omit hdeep in
/-- A brace is passed alone where a statement is expected. -/
theorem walks_unexpected {α : Type} (t : Token) (ts : List Token) :
    Walks SyntaxError.isBareBlock t.kind.opens ts
      (⟨none, [(t.span, .expected "statement" t.kind)], ts⟩ : Reading α) := by
  by_cases hbrace : t.kind = .punct .lbrace
  · rw [hbrace]
    exact fun n => .stay
  · rw [TokenKind.opens_of_ne hbrace]
    refine .error ?_ fun n => .stay
    unfold SyntaxError.isBareBlock
    split
    · next heq => exact absurd (SyntaxError.expected.inj heq).2 hbrace
    · rfl

omit hdeep in
theorem walks_statements :
    (∀ s ts, Walks SyntaxError.isBareBlock 0 ts (conditional s ts)) ∧
      (∀ ts, Walks SyntaxError.isBareBlock 0 ts (block ts)) ∧
      (∀ ts, Walks SyntaxError.isBareBlock 0 ts (stmts ts)) ∧
      ∀ t ts, t.kind ≠ .punct .rbrace → Walks SyntaxError.isBareBlock t.kind.opens ts (stmt t ts) := by
  have hbare : ∀ e : SyntaxError, e.isBareBlock = true → e.isBareBlock = true := fun _ => id
  apply conditional.mutual_induct
  case case1 =>
    intro s ts hblock hnested helse
    rw [conditional_eq]
    refine (walks_mark hbare rfl).within fun _ ts₁ h₁ => ?_
    refine (walks_expr hbare).within fun c ts₂ h₂ => ?_
    refine (walks_mark hbare rfl).within fun _ ts₃ h₃ => ?_
    refine (hblock ts₁ h₁ ts₂ h₂ ts₃ h₃).within fun ss ts₄ h₄ => ?_
    fun_cases elsePart s c ss ts₄ with
    | case1 v ts₅ =>
      refine .plain rfl ?_
      fun_cases elseBranch s c ss ts₅ with
      | case1 n ts₆ => exact .plain rfl ((hnested ts₁ h₁ ts₂ h₂ ts₃ h₃ v n ts₆ h₄).map _)
      | case2 ts₅ => exact (helse ts₁ h₁ ts₂ h₂ ts₃ h₃ v ts₅ h₄).map _
    | case2 ts₄ => exact .ok _
  case case2 =>
    intro s ts ih
    refine braced_block.walks hbare itemReader_stmts ?_
    rintro _ ts ⟨⟩
    exact ih
  case case3 =>
    intro ts hts
    exact braced_block.walks hbare itemReader_stmts fun s ts' heq => (hts s ts' heq).elim
  case case4 =>
    rw [itemReader_stmts.nil]
    exact .ok _
  case case5 =>
    intro t ts ht
    rw [itemReader_stmts.cons, if_pos ht]
    exact .ok _
  case case6 =>
    intro t ts ht hstmt ih
    exact walks_items itemReader_stmts ht (hstmt fun hbrace => ht (.inl hbrace)).recover ih
  case case7 =>
    intro t ts ht ih _
    simp only [stmt, ht]
    exact ih
  case case8 =>
    intro t ts ht _
    simp only [stmt, ht]
    exact (walks_mark hbare rfl).map _
  case case9 =>
    intro t ts name ht _
    simp only [stmt, ht]
    exact walks_simpleStmt hbare
  case case10 => exact fun t ts ht hne => absurd ht hne
  case case11 =>
    intro t ts h₁ h₂ h₃ h₄ _
    rw [stmt]
    split
    · exact absurd ‹_› h₁
    · exact absurd ‹_› h₂
    · exact absurd ‹_› (h₃ _)
    · exact absurd ‹_› h₄
    · exact walks_unexpected t ts

/-! ### Render operations -/

theorem walks_literal {what : Bytes} (h : what ≠ "statement") : Walks deep 0 ts (literal what ts) :=
  .of_single hdeep (single_literal h ts)

theorem walks_componentArg {s : Span} : Walks deep 0 ts (componentArg s ts) := by
  refine Walks.andThen (.of_single hdeep (single_identifier (by decide) ts)) fun _ _ _ => ?_
  refine (walks_mark hdeep rfl).andThen fun _ _ _ => ?_
  exact (walks_expr hdeep).andThen fun _ _ _ => (walks_mark hdeep rfl).map _

theorem walks_componentBlock {s : Span} {type : TypeRef}
    (h : ∀ s ts', ts = ⟨.punct .lbrace, s⟩ :: ts' → Walks deep 0 ts' (componentBody false ts')) :
    Walks deep 0 ts (componentBlock s type ts) := by
  by_cases hbrace : next ts = .punct .lbrace
  · obtain ⟨s', ts, rfl⟩ := exists_cons_of_next hbrace (by simp)
    rw [componentBlock_cons]
    refine .head (by simp) ?_
    exact walks_closing hdeep (isSome_componentBody _ _) (isCloser_next_componentBody _ _) (h s' ts rfl)
  · rw [componentBlock, mark, take, if_neg hbrace]
    exact walks_expected hdeep (by decide)

theorem walks_childBlock {hasChild : Bool} {s : Span} (h : Walks deep 0 ts (renderBlock ts)) :
    Walks deep 0 ts (childBlock hasChild s ts) := by
  have hsecond : deep .secondChild = false := by
    cases hd : deep .secondChild with
    | false => rfl
    | true => cases hdeep _ hd
  refine h.andThen fun ops rest _ => ?_
  split
  · exact .error hsecond fun n => .stay
  · exact .ok ops

theorem walks_render :
    (∀ t ts, t.kind ≠ .punct .rbrace → Walks deep t.kind.opens ts (renderOp t ts).recover) ∧
      (∀ hasChild ts, Walks deep 0 ts (componentBody hasChild ts)) ∧
      (∀ ts, Walks deep 0 ts (renderBlock ts)) ∧ ∀ ts, Walks deep 0 ts (renderOps ts) := by
  apply renderOp.mutual_induct
  case case1 | case4 =>
    intro t ts ht _
    simp only [renderOp, ht]
    refine Walks.recover ((walks_literal hdeep (by decide)).andThen fun _ _ _ => ?_)
    exact (walks_mark hdeep rfl).map _
  case case2 =>
    intro t ts ht _
    simp only [renderOp, ht]
    refine Walks.recover ((walks_literal hdeep (by decide)).andThen fun _ _ _ => ?_)
    refine (walks_mark hdeep rfl).andThen fun _ _ _ => ?_
    exact (walks_expr hdeep).andThen fun _ _ _ => (walks_mark hdeep rfl).map _
  case case3 =>
    intro t ts ht _
    simp only [renderOp, ht]
    exact ((walks_mark hdeep rfl).map _).recover
  case case5 =>
    intro t ts ht _
    simp only [renderOp, ht]
    refine Walks.recover ((walks_expr hdeep).andThen fun _ _ _ => ?_)
    exact (walks_mark hdeep rfl).map _
  case case6 =>
    rintro ⟨_, s⟩ ts rfl ih _
    rw [renderOp_component]
    refine Walks.recover (Walks.within (.of_single hdeep (single_type ts)) fun type ts₁ h₁ => ?_)
    refine walks_componentBlock hdeep ?_
    rintro s' ts₂ rfl
    exact ih _ h₁ ts₂ (by simp)
  case case7 => exact fun t ts ht hne => absurd ht hne
  case case8 =>
    intro t ts ht hne
    have hquiet : deep (.expected "render operation" (.punct .lbrace)) = false :=
      deep_expected hdeep (by decide) _
    have hskip (n : Nat) : Walk (n + t.kind.opens) ts n (synchronize (t :: ts)) :=
      walk_synchronize_cons (by simp [ht]) n
    simp only [renderOp, ht, Reading.recover, Reading.expected, next_cons] at hskip ⊢
    exact .error hquiet hskip
  case case9 =>
    intro t ts h₁ h₂ h₃ h₄ h₅ h₆ h₇ h₈ _
    have hquiet : deep (.expected "render operation" t.kind) = false :=
      deep_expected hdeep (by decide) _
    rw [TokenKind.opens_of_ne h₈, renderOp]
    split <;> first | contradiction | exact Walks.recover (.error hquiet fun n => .stay)
  case case10 =>
    intro hasChild
    rw [componentBody]
    exact .ok _
  case case11 | case12 =>
    intro hasChild t ts ht
    rw [componentBody_of_isCloser (by rw [next_cons, ht]; rfl)]
    exact .ok _
  case case13 =>
    intro hasChild t ts ht ih
    rw [componentBody_attr ht]
    refine .plain (by rw [ht]; rfl) ?_
    exact (walks_componentArg hdeep).recover.onward fun rest hrest => (ih rest hrest).map _
  case case14 =>
    intro hasChild t ts ht child hblock ih
    rw [componentBody_child ht]
    refine .plain (by rw [ht]; rfl) ?_
    exact (walks_childBlock hdeep hblock).onward fun rest hrest => (ih rest hrest).map _
  case case15 =>
    intro hasChild t ts h₁ h₂ h₃ h₄ ih
    have ht : ¬ (t.kind = .punct .rbrace ∨ t.kind = .eof) := not_or.2 ⟨h₁, h₂⟩
    have hquiet : deep (.expected "'attr' or 'child'" t.kind) = false :=
      deep_expected hdeep (by decide) _
    rw [componentBody_other h₁ h₂ h₃ h₄]
    exact .head ht (Walks.onward (.error hquiet (walk_synchronize_cons ht)) ih)
  case case16 =>
    intro s ts ih
    refine braced_renderBlock.walks hdeep itemReader_renderOps ?_
    rintro _ ts ⟨⟩
    exact ih
  case case17 =>
    intro ts hts
    exact braced_renderBlock.walks hdeep itemReader_renderOps fun s ts' heq => (hts s ts' heq).elim
  case case18 =>
    rw [itemReader_renderOps.nil]
    exact .ok _
  case case19 =>
    intro t ts ht
    rw [itemReader_renderOps.cons, if_pos ht]
    exact .ok _
  case case20 =>
    intro t ts ht hop ih
    exact walks_items itemReader_renderOps ht (hop fun hbrace => ht (.inl hbrace)) ih

/-! ### Members -/

theorem walks_dataMember {kind : MemberKind} : Walks deep 0 ts (dataMember kind ts) := by
  refine Walks.andThen (.of_single hdeep (single_type ts)) fun type rest _ => ?_
  refine Walks.andThen (.of_single hdeep (single_identifier (by decide) rest)) fun name rest _ => ?_
  refine Walks.andThen (.of_single hdeep (single_initializer kind rest)) fun init rest _ => ?_
  exact (walks_mark hdeep rfl).map _

omit hdeep in
theorem walks_method : Walks SyntaxError.isBareBlock 0 ts (method ts) := by
  refine Walks.andThen (Walks.recover (.of_single (fun _ => id) (single_methodHead ts))) ?_
  exact fun head rest _ => (walks_statements.2.1 rest).map _

omit hdeep in
theorem walks_member {type : Bytes} {hasRender : Bool}
    (ht : ¬ (t.kind = .punct .rbrace ∨ t.kind = .eof)) :
    Walks SyntaxError.isBareBlock t.kind.opens ts (member type hasRender t ts) := by
  have hbare : ∀ e : SyntaxError, e.isBareBlock = true → e.isBareBlock = true := fun _ => id
  have data (kind : MemberKind) :
      Walks SyntaxError.isBareBlock 0 ts ((dataMember kind ts).recover.map Member.data) :=
    (walks_dataMember hbare).recover.map _
  rw [member]
  split
  · next hk => exact hk ▸ data _
  · next hk => exact hk ▸ data _
  · next hk => exact hk ▸ data _
  · next hk => exact hk ▸ walks_method.map Member.method
  · next hk =>
    rw [hk]
    refine ((walks_render hbare).2.2.1 ts).andThen fun ops rest _ => ?_
    split
    · exact .error rfl fun n => .stay
    · exact .ok _
  · refine .error (deep_expected hbare (by decide) _) fun n => ?_
    split
    · next hk =>
      simp only [skipBlock, skipBlockAt, hk]
      exact walk_skipBlockAt n 0 ts
    · exact walk_synchronize_cons ht n

omit hdeep in
theorem walks_members (type : Bytes) (hasRender : Bool) (ts : List Token) :
    Walks SyntaxError.isBareBlock 0 ts (members type hasRender ts) := by
  induction hasRender, ts using members.induct type with
  | case1 hasRender =>
    rw [members_of_isCloser rfl]
    exact .ok []
  | case2 hasRender t tail ht =>
    rw [members, if_pos ht]
    exact .ok []
  | case3 hasRender t tail ht first renders ih =>
    rw [members_cons ht]
    exact .head ht ((walks_member ht).onward fun rest hrest => (ih rest hrest).map _)

end

end Tokens

end ViewCompiler
