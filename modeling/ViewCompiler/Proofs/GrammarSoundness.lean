import ViewCompiler.Proofs.Grammar
import ViewCompiler.Proofs.RenderAppended

/-!
What readers accept is derivable. A reading without errors takes a first part of the tokens that
derives its value (`Reading.Derives`); no failure goes on without an error, so nothing is skipped.
-/

namespace ViewCompiler

open Grammar (Word)

namespace Reading

/-- If the reading of `ts` has no error, it takes a first part of them, of which `P` holds together
with the value. -/
def Derives {α : Type} (P : α → Word → Prop) (ts : List Token) (r : Reading α) : Prop :=
  r.errors = [] → ∃ a w rest, ts = w ++ rest ∧ r = .ok a rest ∧ P a (w.map (·.kind))

namespace Derives

variable {α β : Type} {P : α → Word → Prop} {Q : β → Word → Prop} {ts bound : List Token}
  {t : Token} {r : Reading α}

theorem of_errors (h : r.errors ≠ []) : Derives P ts r := fun hr => absurd hr h

theorem of_not_orderly (h : ¬ Orderly r.errors) : Derives P ts r :=
  of_errors fun hr => h (by simp [Orderly, hr])

theorem expected {what : Bytes} {us : List Token} : Derives P ts (.expected what us : Reading α) :=
  of_errors (by simp [Reading.expected])

theorem ok {a : α} (h : P a []) : Derives P ts (.ok a ts) := fun _ => ⟨a, [], ts, rfl, rfl, h⟩

theorem token {a : α} (h : P a [t.kind]) : Derives P (t :: ts) (.ok a ts) :=
  fun _ => ⟨a, [t], ts, rfl, rfl, h⟩

theorem mono {P' : α → Word → Prop} (h : Derives P ts r) (hP : ∀ {a w}, P a w → P' a w) :
    Derives P' ts r := by
  intro hr
  obtain ⟨a, w, rest, hts, hok, hw⟩ := h hr
  exact ⟨a, w, rest, hts, hok, hP hw⟩

/-- A reading behind its first token. -/
theorem cons (h : Derives (fun a w => P a (t.kind :: w)) ts r) : Derives P (t :: ts) r := by
  intro hr
  obtain ⟨a, w, rest, rfl, hok, hw⟩ := h hr
  exact ⟨a, t :: w, rest, rfl, hok, hw⟩

/-- What takes at least one token takes the first one. -/
theorem uncons (h : Derives P (t :: ts) r) (hP : ∀ a, ¬ P a []) :
    Derives (fun a w => P a (t.kind :: w)) ts r := by
  intro hr
  obtain ⟨a, w, rest, hts, hok, hw⟩ := h hr
  cases w with
  | nil => exact absurd hw (hP a)
  | cons u w =>
    obtain ⟨rfl, rfl⟩ := List.cons.inj hts
    exact ⟨a, w, rest, rfl, hok, hw⟩

theorem map {g : α → β} (h : Derives (fun a w => Q (g a) w) ts r) : Derives Q ts (r.map g) := by
  intro hr
  obtain ⟨a, w, rest, hts, rfl, hw⟩ := h hr
  exact ⟨g a, w, rest, hts, rfl, hw⟩

theorem recover (h : Derives P ts r) : Derives P ts r.recover := by
  intro hr
  have hclean : r.errors = [] := by
    rw [Reading.recover] at hr
    split at hr <;> exact hr
  obtain ⟨a, w, rest, hts, rfl, hw⟩ := h hclean
  exact ⟨a, w, rest, hts, rfl, hw⟩

theorem report {es : List (Span × SyntaxError)} (h : Derives P ts r) : Derives P ts (r.report es) := by
  intro hr
  obtain ⟨hes, hr⟩ := List.append_eq_nil_iff.1 hr
  obtain ⟨a, w, rest, hts, rfl, hw⟩ := h hr
  exact ⟨a, w, rest, hts, by rw [hes]; rfl, hw⟩

/-- Joining readings joins the parts that they take. -/
theorem andThen {g : α → List Token → Reading β} (h : Derives P ts r)
    (hg : ∀ a u rest, P a u → rest.length ≤ ts.length →
      Derives (fun b v => Q b (u ++ v)) rest (g a rest)) : Derives Q ts (r.andThen g) := by
  intro hr
  have hclean : r.errors = [] := by
    rw [Reading.andThen] at hr
    split at hr
    · exact (List.append_eq_nil_iff.1 hr).1
    · exact hr
  obtain ⟨a, w, rest, rfl, rfl, hw⟩ := h hclean
  rw [Reading.andThen] at hr ⊢
  obtain ⟨b, v, rest, rfl, hok, hv⟩ := (hg a _ rest hw (by simp)).report hr
  exact ⟨b, w ++ v, rest, by simp, hok, by simpa using hv⟩

theorem within {g : α → List Token → Reading β} (h : Derives P ts r)
    (hg : ∀ a u rest, P a u → rest.length ≤ ts.length →
      Derives (fun b v => Q b (u ++ v)) rest (g a rest)) :
    Derives Q ts (r.within ts fun a rest _ => g a rest) := by
  intro hr
  have hclean : r.errors = [] := by
    rw [Reading.within] at hr
    split at hr
    · exact (List.append_eq_nil_iff.1 hr).1
    · exact hr
  obtain ⟨a, w, rest, hts, hok, hw⟩ := h hclean
  have hle : r.rest.length ≤ ts.length := by simp [hts, hok, Reading.ok]
  rw [Reading.within_eq_andThen hle] at hr ⊢
  exact h.andThen hg hr

/-- Going on after a first reading; if it has no error, it has a value. -/
theorem onward {g : Option α → List Token → Reading β} (h : Derives P ts r)
    (hg : ∀ a u rest, r = .ok a rest → P a u → rest.length ≤ ts.length →
      Derives (fun b v => Q b (u ++ v)) rest (g (some a) rest)) :
    Derives Q ts (r.onward ts fun rest _ => g r.value rest) := by
  intro hr
  obtain ⟨a, w, rest, rfl, rfl, hw⟩ := h (List.append_eq_nil_iff.1 hr).1
  rw [Reading.onward_eq (by simp [Reading.ok])] at hr ⊢
  obtain ⟨b, v, rest, rfl, hok, hv⟩ := (hg a _ rest rfl hw (by simp)).report hr
  exact ⟨b, w ++ v, rest, by simp, hok, by simpa using hv⟩

end Derives

end Reading

namespace Tokens

open Reading (Derives)

variable {ts : List Token}

/-! ## Tokens, names and types -/

theorem derives_take {kind : TokenKind} {what : Bytes} (hk : kind ≠ .eof) :
    Derives (fun _ w => w = [kind]) ts (take kind what ts) := by
  rw [take]
  split
  · next h =>
    obtain ⟨s, tail, rfl⟩ := exists_cons_of_next h hk
    exact .token rfl
  · exact .expected

theorem derives_mark {p : Punct} : Derives (fun _ w => w = [.punct p]) ts (mark p ts) :=
  derives_take (by simp)

theorem derives_identifier {what : Bytes} :
    Derives (fun n w => w = [.identifier n]) ts (identifier what ts) := by
  rw [identifier]
  split
  · next n h =>
    obtain ⟨s, tail, rfl⟩ := exists_cons_of_next h (by simp)
    exact .token rfl
  · exact .expected

theorem derives_literal {what : Bytes} :
    Derives (fun t w => w = [.string t]) ts (literal what ts) := by
  rw [literal]
  split
  · next n h =>
    obtain ⟨s, tail, rfl⟩ := exists_cons_of_next h (by simp)
    exact .token rfl
  · exact .expected

/-- What `dotted` takes continues a name. -/
theorem exists_dotted (ts : List Token) : ∃ w, ts = w ++ (dotted ts).2 ∧
    ∀ n, Grammar.Name (n ++ (dotted ts).1) (.identifier n :: w.map (·.kind)) := by
  induction ts using dotted.induct with
  | case1 s n s' ts _ _ _ ih =>
    obtain ⟨w, hts, hw⟩ := ih
    refine ⟨⟨.punct .dot, s⟩ :: ⟨.identifier n, s'⟩ :: w, by simpa [dotted] using hts, fun m => ?_⟩
    simpa [dotted] using Grammar.Name.dotted (n := m) (hw n)
  | case2 ts h =>
    have hnone : dotted ts = ([], ts) := dotted.eq_2 _ h
    exact ⟨[], by simp [hnone], fun n => by simpa [hnone] using Grammar.Name.one⟩

theorem derives_qualifiedName : Derives Grammar.Name ts (qualifiedName ts) := by
  refine derives_identifier.andThen fun n _ rest hn _ => ?_
  subst hn
  obtain ⟨w, hrest, hw⟩ := exists_dotted rest
  exact fun _ => ⟨_, w, _, hrest, rfl, hw n⟩

theorem derives_type : Derives (fun t w => Grammar.TypeName t.name w) ts (type ts) := by
  rw [type]
  split
  · next k h =>
    split
    · next hk =>
      obtain ⟨s, tail, rfl⟩ := exists_cons_of_next h (by simp)
      exact .token (.builtin hk)
    · exact .expected
  · exact .map (derives_qualifiedName.mono .name)
  · exact .expected

/-! ## Expressions -/

theorem derives_operandOf {p : Precedence}
    (hb : ∀ q, p.tighter? = some q → Derives (Grammar.Term (some q)) ts (binary q ts))
    (ho : Derives (Grammar.Term none) ts (operand ts)) :
    Derives (Grammar.Term p.tighter?) ts (operandOf p ts) := by
  rw [operandOf]
  split
  · next q h =>
    rw [h]
    exact hb q h
  · next h =>
    rw [h]
    exact ho

theorem derives_expressions :
    (∀ ts, Derives (Grammar.Term none) ts (operand ts)) ∧
      (∀ p ts, Derives (Grammar.Term (some p)) ts (binary p ts)) ∧
      ∀ p left ts, ∀ u, Grammar.Term (some p) left u →
        Derives (fun e v => Grammar.Term (some p) e (u ++ v)) ts (operators p left ts) := by
  have none {p : Precedence} {left : Expr} {ts : List Token} {u : Word}
      (h : p.operator? (next ts) = none) (hu : Grammar.Term (some p) left u) :
      Derives (fun e v => Grammar.Term (some p) e (u ++ v)) ts (operators p left ts) := by
    rw [operators_of_none h]
    exact .ok (by simpa using hu)
  apply operand.mutual_induct
  case case1 =>
    rw [operand]
    exact .expected
  case case2 =>
    intro t tail d v h
    simp only [operand, h]
    exact .token (h ▸ .int)
  case case3 =>
    intro t tail s h
    simp only [operand, h]
    exact .token (h ▸ .string)
  case case4 =>
    intro t tail h
    simp only [operand, h]
    exact .token (h ▸ .true)
  case case5 =>
    intro t tail h
    simp only [operand, h]
    exact .token (h ▸ .false)
  case case6 =>
    intro t tail n h
    simp only [operand, h]
    exact .token (h ▸ .name)
  case case7 =>
    intro t tail h ih
    simp only [operand, h]
    exact .cons (.map (h ▸ ih.mono .not))
  case case8 =>
    intro t tail h ih
    simp only [operand, h]
    exact .cons (.map (h ▸ ih.mono .neg))
  case case9 =>
    intro t tail h ih
    simp only [operand, h]
    refine .cons (ih.andThen fun e u rest he _ => .map (derives_mark.mono fun hw => ?_))
    rw [h, hw]
    exact .paren he
  case case10 =>
    intro t tail h₁ h₂ h₃ h₄ h₅ h₆ h₇ h₈
    rw [operand]
    split <;> first | exact .expected | simp_all
  case case11 =>
    intro p ts hb ho ih
    rw [binary_eq]
    refine .within (derives_operandOf hb ho) fun left u rest hleft hrest => ?_
    exact ih left rest hrest u (.tighter hleft)
  case case12 =>
    intro p left u hu
    exact none (operator?_of_isBorder rfl p) hu
  case case13 => exact fun p left t tail h u hu => none h hu
  case case14 =>
    intro p left t tail op h hb ho ih u hu
    obtain ⟨hkind, rfl⟩ := Precedence.operator?_eq_some.1 h
    rw [operators_cons h]
    refine .cons (.within (derives_operandOf (fun q _ => hb q) ho) fun right v rest hright hrest => ?_)
    rw [hkind]
    exact (ih right rest hrest _ (.binary hu hright)).mono fun hw => by simpa using hw

theorem derives_expr : Derives Grammar.Expression ts (expr ts) :=
  derives_expressions.2.1 .disjunction ts

theorem derives_arguments : Derives (fun es w => es ≠ [] ∧ Grammar.Commas Grammar.Expression es w) ts
    (arguments ts) := by
  induction ts using arguments.induct with
  | case1 ts ih =>
    rw [arguments_eq]
    refine .within derives_expr fun e u rest he hrest => ?_
    fun_cases moreArguments e rest with
    | case1 s rest =>
      refine .cons (.map ((ih s rest hrest).mono fun {es v} hes => ⟨by simp, ?_⟩))
      obtain ⟨e', es, rfl⟩ := List.exists_cons_of_ne_nil hes.1
      exact .cons he hes.2
    | case2 => exact .ok ⟨by simp, by simpa using Grammar.Commas.one he⟩

/-! ## Statements -/

theorem derives_simpleStmt {span : Span} {name : Bytes} :
    Derives (fun c w => Grammar.Statement c (.identifier name :: w)) ts (simpleStmt span name ts) := by
  have args {ts : List Token} : Derives (Grammar.Commas Grammar.Expression) ts
      (if next ts = .punct .rparen then .ok [] ts else arguments ts) := by
    split
    · exact .ok .nil
    · exact derives_arguments.mono (·.2)
  have target {ts : List Token} : Derives (fun (called : Option Bytes × Bytes) u =>
      ∀ es w, Grammar.Commas Grammar.Expression es w →
        Grammar.Statement (.call span called.1 called.2 es) (.identifier name ::
          (u ++ TokenKind.punct .lparen :: (w ++ [TokenKind.punct .rparen, .punct .semicolon])))) ts
      (if next ts = .punct .dot then
        (identifier "method name" ts.tail).map fun method => (some name, method)
        else .ok (none, name) ts) := by
    split
    · next h =>
      obtain ⟨s, ts, rfl⟩ := exists_cons_of_next h (by simp)
      refine .cons (.map (derives_identifier.mono fun hm es w hes => ?_))
      subst hm
      exact .callOn hes
    · exact .ok fun es w hes => .call hes
  rw [simpleStmt]
  split
  · next h =>
    obtain ⟨s, ts, rfl⟩ := exists_cons_of_next h (by simp)
    refine .cons (derives_expr.andThen fun e w _ he _ => .map (derives_mark.mono fun hs => ?_))
    subst hs
    exact .assign he
  · refine target.andThen fun called u _ hcalled _ => ?_
    refine (derives_take (by simp)).andThen fun _ _ _ hl _ => args.andThen fun es w _ hes _ => ?_
    refine derives_mark.andThen fun _ _ _ hr _ => .map (derives_mark.mono fun hs => ?_)
    subst hl hr hs
    exact hcalled es w hes

/-- Reads to the end of a block that `f` reads the content of. -/
theorem derives_closing {α β : Type} {P : α → Word → Prop} {Q : β → Word → Prop}
    {f : List Token → Reading α} {g : α → β} (h : Derives P ts (f ts))
    (hQ : ∀ {a w}, P a w → Q (g a) (w ++ [TokenKind.punct .rbrace])) :
    Derives Q ts (closing f g ts) := by
  refine h.andThen fun a u rest ha _ hr => ?_
  have hmark : Derives (fun _ w => w = [TokenKind.punct .rbrace]) rest (mark .rbrace rest) :=
    derives_mark
  obtain ⟨_, w, r, hrest, hok, hw⟩ := hmark hr
  exact ⟨g a, w, r, hrest, by simp [hok, Reading.ok], hw ▸ hQ ha⟩

theorem derives_block (h : Derives Grammar.Statements ts.tail (stmts ts.tail)) :
    Derives Grammar.Block ts (block ts) := by
  by_cases hn : next ts = .punct .lbrace
  · obtain ⟨s, ts, rfl⟩ := exists_cons_of_next hn (by simp)
    rw [block_cons]
    exact .cons (derives_closing h .intro)
  · exact .of_not_orderly (block_of_ne hn)

/-- The items of a block up to its end. -/
theorem derives_items {α : Type} {P : α → Word → Prop} {Q : List α → Word → Prop}
    {f : Token → List Token → Reading α} {F : List Token → Reading (List α)} (h : ItemReader f F)
    (hQ : ∀ {a as u v}, P a u → Q as v → Q (a :: as) (u ++ v)) {t : Token}
    (ht : ¬ (t.kind = .punct .rbrace ∨ t.kind = .eof))
    (hf : Derives (fun a w => P a (t.kind :: w)) ts (f t ts))
    (ih : ∀ rest : List Token, rest.length ≤ ts.length → Derives Q rest (F rest)) :
    Derives Q (t :: ts) (F (t :: ts)) := by
  rw [h.cons, if_neg ht]
  refine .cons (hf.onward (g := fun v rest => (F rest).map (v.toList ++ ·)) fun a u rest _ ha hrest => ?_)
  exact .map ((ih rest hrest).mono fun hw => hQ ha hw)

theorem derives_elsePart {span : Span} {condition : Expr} {thenBody : List Stmt} {u v : Word}
    (he : Grammar.Expression condition u) (hb : Grammar.Block thenBody v)
    (hc : ∀ s nested ts', ts = ⟨.keyword .elseKw, s⟩ :: ⟨.keyword .ifKw, nested⟩ :: ts' →
      Derives Grammar.Conditional ts' (conditional nested ts'))
    (hblock : ∀ s ts', ts = ⟨.keyword .elseKw, s⟩ :: ts' → Derives Grammar.Block ts' (block ts')) :
    Derives (fun c w => Grammar.Conditional c (.punct .lparen :: (u ++ .punct .rparen :: (v ++ w))))
      ts (elsePart span condition thenBody ts) := by
  fun_cases elsePart span condition thenBody ts with
  | case1 s ts =>
    fun_cases elseBranch span condition thenBody ts with
    | case1 nested ts =>
      exact .cons (.cons (.map ((hc s nested ts rfl).mono fun hw => .elseIf he hb hw)))
    | case2 => exact .cons (.map ((hblock s ts rfl).mono fun hw => .elseBlock he hb hw))
  | case2 => exact .ok (by simpa using Grammar.Conditional.plain he hb)

theorem derives_statements :
    (∀ span ts, Derives Grammar.Conditional ts (conditional span ts)) ∧
      (∀ ts, Derives Grammar.Block ts (block ts)) ∧
      (∀ ts, Derives Grammar.Statements ts (stmts ts)) ∧
      ∀ t ts, Derives (fun c w => Grammar.Statement c (t.kind :: w)) ts (stmt t ts) := by
  apply conditional.mutual_induct
  case case1 =>
    intro span ts hblock hnested helse
    rw [conditional_eq]
    refine .within derives_mark fun _ _ ts₁ hl h₁ => ?_
    refine .within derives_expr fun condition u ts₂ he h₂ => ?_
    refine .within derives_mark fun _ _ ts₃ hr h₃ => ?_
    refine .within (hblock ts₁ h₁ ts₂ h₂ ts₃ h₃) fun thenBody v ts₄ hb h₄ => ?_
    subst hl hr
    exact derives_elsePart he hb
      (fun s nested ts₆ h => hnested ts₁ h₁ ts₂ h₂ ts₃ h₃ s nested ts₆ (h ▸ h₄))
      fun s ts₅ h => helse ts₁ h₁ ts₂ h₂ ts₃ h₃ s ts₅ (h ▸ h₄)
  case case2 => exact fun s ts h => derives_block h
  case case3 =>
    intro ts h
    refine .of_not_orderly (block_of_ne fun hn => ?_)
    obtain ⟨s, ts, rfl⟩ := exists_cons_of_next hn (by simp)
    exact h _ _ rfl
  case case4 =>
    rw [itemReader_stmts.nil]
    exact .ok .nil
  case case5 =>
    intro t tail ht
    rw [itemReader_stmts.cons, if_pos ht]
    exact .ok .nil
  case case6 =>
    intro t tail ht hstmt ih
    exact derives_items itemReader_stmts .cons ht hstmt.recover ih
  case case7 =>
    intro t ts ht ih
    simp only [stmt, ht]
    exact ih.mono .conditional
  case case8 =>
    intro t ts ht
    simp only [stmt, ht]
    exact .map (derives_mark.mono fun hs => hs ▸ .ret)
  case case9 =>
    intro t ts name ht
    simp only [stmt, ht]
    exact derives_simpleStmt
  case case10 =>
    intro t ts ht
    simp only [stmt, ht]
    exact .expected
  case case11 =>
    intro t ts h₁ h₂ h₃ h₄
    rw [stmt]
    split
    · exact absurd ‹_› h₁
    · exact absurd ‹_› h₂
    · exact absurd ‹_› (h₃ _)
    · exact absurd ‹_› h₄
    · exact .of_errors (by simp)

/-! ## Render operations -/

theorem derives_componentArg {span : Span} : Derives (fun a u => ∀ args childSpan child w,
    Grammar.Content args childSpan child w →
      Grammar.Content (a :: args) childSpan child (.keyword .attrKw :: (u ++ w))) ts
    (componentArg span ts) := by
  refine derives_identifier.andThen fun name _ _ hn _ => ?_
  refine derives_mark.andThen fun _ _ _ ha _ => ?_
  refine derives_expr.andThen fun value u _ he _ => .map (derives_mark.mono fun hs => ?_)
  subst hn ha hs
  intro args childSpan child w hw
  simpa using Grammar.Content.arg he hw

theorem derives_renderBlock (h : Derives Grammar.Operations ts.tail (renderOps ts.tail)) :
    Derives Grammar.Render ts (renderBlock ts) := by
  by_cases hn : next ts = .punct .lbrace
  · obtain ⟨s, ts, rfl⟩ := exists_cons_of_next hn (by simp)
    rw [renderBlock_cons]
    exact .cons (derives_closing h .intro)
  · exact .of_not_orderly (renderBlock_of_ne hn)

/-- The content of a component that had a child block before, if `hasChild`. -/
def ContentAfter (hasChild : Bool) (b : ComponentBody) (w : Word) : Prop :=
  Grammar.Content b.args b.childSpan b.child w ∧ (hasChild = true → b.childSpan = none)

theorem child_eq_nil {args : List ComponentArg} {child : List RenderOp} {w : Word} :
    Grammar.Content args none child w → child = []
  | .nil => rfl
  | .arg _ h => child_eq_nil h

theorem derives_childBlock {hasChild : Bool} {span : Span} (h : Derives Grammar.Render ts (renderBlock ts)) :
    Derives (fun ops w => Grammar.Render ops w ∧ hasChild = false) ts (childBlock hasChild span ts) := by
  refine h.andThen fun ops u rest hops _ => ?_
  cases hasChild with
  | true => exact .of_errors (by simp)
  | false => exact .ok ⟨by simpa using hops, rfl⟩

theorem derives_componentBlock {span : Span} {type : TypeRef} {u : Word}
    (hu : Grammar.TypeName type.name u)
    (h : ∀ rest : List Token, rest.length ≤ ts.length →
      Derives (ContentAfter false) rest (componentBody false rest)) :
    Derives (fun op w => Grammar.Operation op (.keyword .componentKw :: (u ++ w))) ts
      (componentBlock span type ts) := by
  refine .within derives_mark fun _ _ rest hl hrest => derives_closing (h rest hrest) fun hb => ?_
  subst hl
  exact .component hu hb.1

theorem derives_render :
    (∀ t ts, Derives (fun op w => Grammar.Operation op (t.kind :: w)) ts (renderOp t ts)) ∧
      (∀ hasChild ts, Derives (ContentAfter hasChild) ts (componentBody hasChild ts)) ∧
      (∀ ts, Derives Grammar.Render ts (renderBlock ts)) ∧
      ∀ ts, Derives Grammar.Operations ts (renderOps ts) := by
  apply renderOp.mutual_induct
  case case1 =>
    intro t ts ht
    simp only [renderOp, ht]
    refine derives_literal.andThen fun tag _ _ hn _ => .map (derives_mark.mono fun hs => ?_)
    subst hn hs
    exact .openElement
  case case2 =>
    intro t ts ht
    simp only [renderOp, ht]
    refine derives_literal.andThen fun name _ _ hn _ => derives_mark.andThen fun _ _ _ ha _ => ?_
    refine derives_expr.andThen fun value u _ he _ => .map (derives_mark.mono fun hs => ?_)
    subst hn ha hs
    exact .attr he
  case case3 =>
    intro t ts ht
    simp only [renderOp, ht]
    exact .map (derives_mark.mono fun hs => hs ▸ .closeElement)
  case case4 =>
    intro t ts ht
    simp only [renderOp, ht]
    refine derives_literal.andThen fun text _ _ hn _ => .map (derives_mark.mono fun hs => ?_)
    subst hn hs
    exact .text
  case case5 =>
    intro t ts ht
    simp only [renderOp, ht]
    refine derives_expr.andThen fun value u _ he _ => .map (derives_mark.mono fun hs => ?_)
    subst hs
    exact .value he
  case case6 =>
    rintro ⟨_, span⟩ ts rfl ih
    rw [renderOp_component]
    exact .within derives_type fun type u ts₁ hu h₁ =>
      derives_componentBlock hu fun ts₂ h₂ => ih ts₁ h₁ ts₂ h₂
  case case7 | case8 =>
    intro t ts ht
    simp only [renderOp, ht]
    exact .expected
  case case9 =>
    intro t ts h₁ h₂ h₃ h₄ h₅ h₆ h₇ h₈
    rw [renderOp]
    split <;> first | contradiction | exact .of_errors (by simp)
  case case10 =>
    intro hasChild
    rw [componentBody_of_isCloser rfl]
    exact .ok ⟨.nil, fun _ => rfl⟩
  case case11 | case12 =>
    intro hasChild t tail ht
    rw [componentBody_of_isCloser (by rw [next_cons, ht]; rfl)]
    exact .ok ⟨.nil, fun _ => rfl⟩
  case case13 =>
    intro hasChild t tail ht ih
    rw [componentBody_attr ht]
    refine .cons (.onward (g := fun v rest => (componentBody hasChild rest).map fun b =>
      { b with args := v.toList ++ b.args }) derives_componentArg.recover fun a u rest _ ha hrest => ?_)
    refine .map ((ih rest hrest).mono fun {b w} hb => ⟨?_, hb.2⟩)
    rw [ht]
    exact ha _ _ _ _ hb.1
  case case14 =>
    intro hasChild t tail ht child hblock ih
    have hchild : child = childBlock hasChild t.span tail := rfl
    rw [componentBody_child ht]
    refine .cons (.onward (g := fun v rest => (componentBody (hasChild || v.isSome) rest).map
      (ComponentBody.withChild t.span v)) (derives_childBlock hblock) fun ops u rest hok hops hrest => ?_)
    rw [hchild, hok] at ih
    refine .map ((ih rest hrest).mono fun {b w} hb => ⟨?_, by simp [hops.2]⟩)
    have hnone : b.childSpan = none := hb.2 (by simp [Reading.ok])
    have hcontent := hb.1
    rw [hnone] at hcontent
    obtain hempty := child_eq_nil hcontent
    rw [hempty] at hcontent
    rw [ht]
    exact .child hops.1 hcontent
  case case15 =>
    intro hasChild t tail h₁ h₂ h₃ h₄ _
    rw [componentBody]
    split
    · contradiction
    · contradiction
    · contradiction
    · contradiction
    · exact .of_errors (by simp [Reading.onward, Reading.report])
  case case16 => exact fun s ts h => derives_renderBlock h
  case case17 =>
    intro ts h
    refine .of_not_orderly (renderBlock_of_ne fun hn => ?_)
    obtain ⟨s, ts, rfl⟩ := exists_cons_of_next hn (by simp)
    exact h _ _ rfl
  case case18 =>
    rw [itemReader_renderOps.nil]
    exact .ok .nil
  case case19 =>
    intro t tail ht
    rw [itemReader_renderOps.cons, if_pos ht]
    exact .ok .nil
  case case20 =>
    intro t tail ht hop ih
    exact derives_items itemReader_renderOps .cons ht hop.recover ih

/-! ## Members -/

theorem derives_dataMember {kind : MemberKind} :
    Derives (fun m w => Grammar.Member (.data m) (.keyword kind.keyword :: w)) ts
      (dataMember kind ts) := by
  have init {ts : List Token} : Derives
      (fun init w => Grammar.Init init w ∧ (init.isSome → kind = .field)) ts
      (if kind = .field ∧ next ts = .punct .assign then (expr ts.tail).map some else .ok none ts) := by
    split
    · next h =>
      obtain ⟨s, ts, rfl⟩ := exists_cons_of_next h.2 (by simp)
      exact .cons (.map (derives_expr.mono fun he => ⟨.some he, fun _ => h.1⟩))
    · exact .ok ⟨.none, by simp⟩
  refine derives_type.andThen fun type u _ hu _ => derives_identifier.andThen fun name _ _ hn _ => ?_
  refine init.andThen fun i v _ hi _ => .map (derives_mark.mono fun hs => ?_)
  subst hn hs
  exact .data hu hi.1 hi.2

theorem derives_parameter : Derives Grammar.Param ts (parameter ts) := by
  refine derives_type.andThen fun type u _ hu _ => .map (derives_identifier.mono fun hn => ?_)
  subst hn
  exact .intro hu

theorem derives_parameters : Derives (fun ps w => ps ≠ [] ∧ Grammar.Commas Grammar.Param ps w) ts
    (parameters ts) := by
  induction ts using parameters.induct with
  | case1 ts ih =>
    rw [parameters_eq]
    refine .within derives_parameter fun p u rest hp hrest => ?_
    fun_cases moreParameters p rest with
    | case1 s rest =>
      refine .cons (.map ((ih s rest hrest).mono fun {ps v} hps => ⟨by simp, ?_⟩))
      obtain ⟨p', ps, rfl⟩ := List.exists_cons_of_ne_nil hps.1
      exact .cons hp hps.2
    | case2 => exact .ok ⟨by simp, by simpa using Grammar.Commas.one hp⟩

theorem derives_method :
    Derives (fun m w => Grammar.Member (.method m) (.keyword .methodKw :: w)) ts (method ts) := by
  have params {ts : List Token} : Derives (Grammar.Commas Grammar.Param) ts
      (if next ts = .punct .rparen then .ok [] ts else parameters ts) := by
    split
    · exact .ok .nil
    · exact derives_parameters.mono (·.2)
  have head {ts : List Token} : Derives (fun (head : Bytes × List Parameter) u => ∃ v,
      Grammar.Commas Grammar.Param head.2 v ∧
        u = .identifier head.1 :: .punct .lparen :: (v ++ [TokenKind.punct .rparen])) ts
      (methodHead ts) := by
    refine derives_identifier.andThen fun name _ _ hn _ => derives_mark.andThen fun _ _ _ hl _ => ?_
    refine params.andThen fun ps v _ hps _ => .map (derives_mark.mono fun hr => ⟨v, hps, ?_⟩)
    subst hn hl hr
    rfl
  refine head.recover.andThen fun head u rest hhead _ => ?_
  obtain ⟨v, hps, rfl⟩ := hhead
  refine .map ((derives_block (derives_statements.2.2.1 _)).mono fun hb => ?_)
  simpa using Grammar.Member.method hps hb

/-- A block that may be the only one of its kind is read only if there was none before. -/
theorem derives_member {type : Bytes} {hasRender : Bool} {t : Token} :
    Derives (fun m w => Grammar.Member m (t.kind :: w) ∧ (m.isRender = true → hasRender = false)) ts
      (member type hasRender t ts) := by
  have data {kind : MemberKind} (h : t.kind = .keyword kind.keyword) :
      Derives (fun m w => Grammar.Member m (t.kind :: w) ∧ (m.isRender = true → hasRender = false)) ts
        ((dataMember kind ts).recover.map .data) := by
    rw [h]
    exact .map (derives_dataMember.recover.mono fun hm => ⟨hm, by simp [Member.isRender, Member.render?]⟩)
  rw [member]
  split
  · next h => exact data h
  · next h => exact data h
  · next h => exact data h
  · next h =>
    rw [h]
    exact .map (derives_method.mono fun hm => ⟨hm, by simp [Member.isRender, Member.render?]⟩)
  · next h =>
    rw [h]
    refine (derives_renderBlock (derives_render.2.2.2 _)).andThen fun ops u rest hops _ => ?_
    cases hasRender with
    | true => exact .of_errors (by simp)
    | false => exact .ok ⟨by simpa using Grammar.Member.render hops, fun _ => rfl⟩
  · exact .of_errors (by simp)

theorem derives_members {type : Bytes} {hasRender : Bool} :
    Derives (fun ms w => Grammar.Many Grammar.Member ms w ∧
      hasRender.toNat + (ms.filter (·.isRender)).length ≤ 1) ts (members type hasRender ts) := by
  induction hasRender, ts using members.induct type with
  | case1 hasRender =>
    rw [members]
    exact .ok ⟨.nil, Bool.toNat_le hasRender⟩
  | case2 hasRender t tail ht =>
    rw [members, if_pos ht]
    exact .ok ⟨.nil, Bool.toNat_le hasRender⟩
  | case3 hasRender t tail ht first renders ih =>
    have hrenders : renders = rendersAfter hasRender first.value := rfl
    have hfirst : first = member type hasRender t tail := rfl
    rw [members_cons ht]
    refine .cons (.onward (g := fun v rest => (members type (rendersAfter hasRender v) rest).map
      (v.toList ++ ·)) derives_member fun m u rest hok hm hrest => ?_)
    rw [hrenders, hfirst, hok] at ih
    refine .map ((ih rest hrest).mono fun {ms w} hms => ⟨.cons hm.1 hms.1, ?_⟩)
    have hone := hms.2
    simp only [Reading.ok, rendersAfter_eq_or, Option.toList_some, List.any_cons, List.any_nil,
      Bool.or_false] at hone
    cases hr : m.isRender with
    | true =>
      rw [hm.2 hr, hr, Bool.false_or, Bool.toNat_true, Nat.add_comm] at hone
      rw [hm.2 hr, Option.toList_some, List.singleton_append, List.filter_cons_of_pos hr,
        List.length_cons, Bool.toNat_false, Nat.zero_add]
      exact hone
    | false => simpa [hr] using hone

/-! ## Types -/

theorem derives_typeHead : Derives (fun head u => ∀ ms w, Grammar.Many Grammar.Member ms w →
    (ms.filter (·.isRender)).length ≤ 1 →
      Grammar.Declaration (declOf head ms) (u ++ (w ++ [TokenKind.punct .rbrace]))) ts
      (typeHead ts) := by
  have route {ts : List Token} : Derives Grammar.Route ts (routePart ts) := by
    rw [routePart]
    split
    · next h =>
      obtain ⟨s, ts, rfl⟩ := exists_cons_of_next h (by simp)
      refine .cons ((derives_take (by simp)).andThen fun _ _ _ hr _ => ?_)
      refine derives_literal.andThen fun r _ _ hs _ => .map (derives_mark.mono fun hb => ?_)
      subst hr hs hb
      exact .some
    · exact .ok .none
  have kind {ts : List Token} :
      Derives (fun (kind : TypeKind) w => w = [.keyword kind.keyword]) ts (typeKind ts) := by
    rw [typeKind]
    split
    · next h =>
      obtain ⟨s, ts, rfl⟩ := exists_cons_of_next h (by simp)
      exact .token rfl
    · next h =>
      obtain ⟨s, ts, rfl⟩ := exists_cons_of_next h (by simp)
      exact .token rfl
    · exact .expected
  have base {ts : List Token} : Derives Grammar.Base ts
      (if next ts = .punct .colon then (type ts.tail).map some else .ok none ts) := by
    split
    · next h =>
      obtain ⟨s, ts, rfl⟩ := exists_cons_of_next h (by simp)
      exact .cons (.map (derives_type.mono fun hu => .some hu))
    · exact .ok .none
  refine route.andThen fun r u _ hu _ => kind.andThen fun k _ _ hk _ => ?_
  refine derives_identifier.andThen fun name _ _ hn _ => base.andThen fun b v _ hv _ => ?_
  refine .map (derives_mark.mono fun hl ms w hms hone => ?_)
  subst hk hn hl
  simpa using Grammar.Declaration.intro hu hv hms hone

theorem derives_typeDecl : Derives Grammar.Declaration ts (typeDecl ts) := by
  rw [typeDecl_eq]
  refine derives_typeHead.recover.andThen fun head u rest hhead _ => ?_
  exact derives_closing derives_members fun hms => hhead _ _ hms.1 (by simpa using hms.2)

/-! ## Files -/

theorem derives_nameStatement : Derives
    (fun n w => ∃ u, Grammar.Name n u ∧ w = u ++ [TokenKind.punct .semicolon]) ts
    (nameStatement ts) := by
  refine .recover (derives_qualifiedName.andThen fun n u _ hn _ => .map (derives_mark.mono fun hs => ?_))
  exact ⟨u, hn, hs ▸ rfl⟩

theorem declaration_ne_nil {d : TypeDecl} {w : Word} (h : Grammar.Declaration d w) : w ≠ [] := by
  cases h
  simp

theorem derives_unitItem {hasNs hasType : Bool} {t : Token} :
    Derives (fun i w => Grammar.Item i (t.kind :: w) ∧
      (i.isNamespace = true → hasNs = false ∧ hasType = false)) ts (unitItem hasNs hasType t ts) := by
  have type : Derives (fun i w => Grammar.Item i (t.kind :: w) ∧
      (i.isNamespace = true → hasNs = false ∧ hasType = false)) ts
      ((typeDecl (t :: ts)).map .type) := by
    have hne : ∀ d, ¬ Grammar.Declaration d [] := fun d hd => declaration_ne_nil hd rfl
    exact .map ((derives_typeDecl.uncons hne).mono fun hd =>
      ⟨.type hd, by simp [UnitItem.isNamespace]⟩)
  rw [unitItem]
  split
  · next h =>
    rw [h]
    refine derives_nameStatement.andThen fun n _ rest hn _ => ?_
    obtain ⟨u, hn, rfl⟩ := hn
    cases hasNs with
    | true => exact .of_errors (by simp)
    | false =>
      cases hasType with
      | true => exact .of_errors (by simp)
      | false => exact .ok ⟨by simpa using Grammar.Item.ns hn, by simp⟩
  · next h =>
    rw [h]
    refine .map (derives_nameStatement.mono fun hn => ?_)
    obtain ⟨u, hn, rfl⟩ := hn
    exact ⟨.using hn, by simp [UnitItem.isNamespace]⟩
  · exact type
  · exact type
  · exact type
  · exact .of_errors (by simp)

theorem derives_unitItems {hasNs hasType : Bool} : Derives (fun is w =>
    Grammar.Many Grammar.Item is w ∧ hasNs.toNat + (is.filter (·.isNamespace)).length ≤ 1 ∧
      (hasType = true → ∀ i ∈ is, i.isNamespace = false) ∧
        is.Pairwise fun i j => i.isType = true → j.isNamespace = false) ts
    (unitItems hasNs hasType ts) := by
  induction hn : ts.length using Nat.strongRecOn generalizing ts hasNs hasType with
  | ind n ih =>
  cases ts with
  | nil =>
    rw [unitItems]
    exact .ok ⟨.nil, Bool.toNat_le hasNs, by simp, .nil⟩
  | cons t ts =>
    by_cases ht : t.kind = .eof
    · rw [unitItems_of_eof ht]
      exact .ok ⟨.nil, Bool.toNat_le hasNs, by simp, .nil⟩
    rw [unitItems_cons ht]
    refine .cons (.onward (g := fun v rest => (unitItems (flagsAfter hasNs hasType v).1
      (flagsAfter hasNs hasType v).2 rest).map (v.toList ++ ·)) derives_unitItem
      fun i u rest _ hi hrest => ?_)
    have hlt : rest.length < n := by
      simp at hn
      omega
    refine .map ((ih rest.length hlt rfl).mono fun {is w} his => ⟨.cons hi.1 his.1, ?_⟩)
    obtain ⟨-, hone, hlate, hpair⟩ := his
    obtain ⟨-, hns⟩ := hi
    rcases i with n | u | d
    · obtain ⟨rfl, rfl⟩ := hns rfl
      have hone : 1 + (is.filter (·.isNamespace)).length ≤ 1 := hone
      refine ⟨?_, by simp, .cons (by simp [UnitItem.isType]) hpair⟩
      rw [Option.toList_some, List.singleton_append, List.filter_cons_of_pos rfl, List.length_cons,
        Bool.toNat_false]
      omega
    · exact ⟨hone, fun h => List.forall_mem_cons.2 ⟨rfl, hlate h⟩,
        .cons (by simp [UnitItem.isType]) hpair⟩
    · have hnone : ∀ j ∈ is, j.isNamespace = false := hlate rfl
      exact ⟨hone, fun _ => List.forall_mem_cons.2 ⟨rfl, hnone⟩,
        .cons (fun j hj _ => hnone j hj) hpair⟩

end Tokens

end ViewCompiler
