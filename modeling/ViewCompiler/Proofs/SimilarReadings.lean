import ViewCompiler.Proofs.Unplaced

/-!
Readings of the same kinds of tokens. Statements, render operations, members, types and whole files
are read alike from tokens that differ in places only (`Tokens.similar_unitItems`).
-/

namespace ViewCompiler

namespace Tokens

open Reading (Similar)

section
variable {ts us : List Token}

/-! ## Blocks -/

/-- Readings of items up to the end of their block. -/
theorem similar_items {α : Type} {f : α → α} {P : α → Prop} {g : Token → List Token → Reading α}
    {F : List Token → Reading (List α)} (hF : ItemReader g F) {t u : Token} (hu : u.kind = t.kind)
    (htail : Like ts us) (h : Like (t :: ts) (u :: us))
    (hitem : Similar (Same f P) (g t ts) (g u us))
    (ih : ∀ ts' us', ts'.length ≤ ts.length → Like ts' us' →
      Similar (SameList f P) (F ts') (F us')) :
    Similar (SameList f P) (F (t :: ts)) (F (u :: us)) := by
  rw [hF.cons, hF.cons, hu]
  refine .ite (fun _ => .ok .nil h) fun _ => .onward htail hitem fun ts' us' hlen h' => ?_
  exact (ih ts' us' hlen h').map fun _ _ hrest => (SameList.of_option hitem.value).append hrest

/-- Readings to the end of a block. -/
theorem similar_closing {α β : Type} {R : α → α → Prop} {S : β → β → Prop}
    {f : List Token → Reading α} {g g' : α → β} (h : Similar R (f ts) (f us))
    (hg : ∀ a b, R a b → S (g a) (g' b)) : Similar S (closing f g ts) (closing f g' us) := by
  refine h.andThen fun a b ts us hab h => ?_
  have hmark := similar_mark (p := .rbrace) h
  exact ⟨.some (hg a b hab), hmark.errors, hmark.rest⟩

/-- `F` reads a block with its braces whose content `f` reads. -/
structure Braced {α : Type} (f F : List Token → Reading α) : Prop where
  cons : ∀ s ts, F (⟨.punct .lbrace, s⟩ :: ts) = closing f id ts
  other : ∀ ts, next ts ≠ .punct .lbrace →
    F ts = (Reading.expected (Punct.text .lbrace).quoted ts).recover

theorem Braced.similar {α : Type} {R : α → α → Prop} {f F : List Token → Reading α}
    (hF : Braced f F) (h : Like ts us)
    (hf : ∀ s ts' us', ts = ⟨.punct .lbrace, s⟩ :: ts' → Like ts' us' →
      Similar R (f ts') (f us')) : Similar R (F ts) (F us) := by
  by_cases hn : next ts = .punct .lbrace
  · obtain ⟨s, ts, rfl⟩ := exists_cons_of_next hn (by simp)
    obtain ⟨⟨_, s'⟩, us, rfl, hu, htail⟩ := h.cons_left
    cases hu
    rw [hF.cons, hF.cons]
    exact similar_closing (hf s ts us rfl htail) fun _ _ hs => hs
  · rw [hF.other _ hn, hF.other _ (h.next_eq ▸ hn)]
    exact Reading.Agree.recover (Similar.expected h)

/-! ## Statements -/

abbrev SameExprs : List Expr → List Expr → Prop := SameList Expr.unplaced Expr.Worded

abbrev SameStmt : Stmt → Stmt → Prop := Same Stmt.unplaced Stmt.Worded

abbrev SameStmts : List Stmt → List Stmt → Prop := SameList Stmt.unplaced Stmt.Worded

theorem moreArguments_of_next {e : Expr} (h : next ts ≠ .punct .comma) :
    moreArguments e ts = .ok [e] ts :=
  moreArguments.eq_2 _ _ fun _ _ heq => h (heq ▸ rfl)

theorem elseBranch_of_next {s : Span} {c : Expr} {ss : List Stmt} (h : next ts ≠ .keyword .ifKw) :
    elseBranch s c ss ts = (block ts).map fun rs => .cond s c ss rs :=
  elseBranch.eq_2 _ _ _ _ fun _ _ heq => h (heq ▸ rfl)

theorem elsePart_of_next {s : Span} {c : Expr} {ss : List Stmt} (h : next ts ≠ .keyword .elseKw) :
    elsePart s c ss ts = .ok (.cond s c ss []) ts :=
  elsePart.eq_2 _ _ _ _ fun _ _ heq => h (heq ▸ rfl)

theorem similar_arguments (h : Like ts us) : Similar SameExprs (arguments ts) (arguments us) := by
  induction ts using arguments.induct generalizing us with
  | case1 ts ih =>
    rw [arguments_eq, arguments_eq]
    refine .within h (similar_expr h) fun e e' ts' us' hlen he h' => ?_
    by_cases hn : next ts' = .punct .comma
    · obtain ⟨s, ts', rfl⟩ := exists_cons_of_next hn (by simp)
      obtain ⟨⟨_, s'⟩, us', rfl, hu, htail⟩ := h'.cons_left
      cases hu
      exact (ih s ts' hlen htail).map fun _ _ hes => .cons he hes
    · rw [moreArguments_of_next hn, moreArguments_of_next (h'.next_eq ▸ hn)]
      exact .ok (.cons he .nil) h'

theorem similar_simpleStmt {s s' : Span} {name : Bytes} (hname : name.IsWord) (h : Like ts us) :
    Similar SameStmt (simpleStmt s name ts) (simpleStmt s' name us) := by
  rw [simpleStmt, simpleStmt, ← h.next_eq]
  refine .ite (fun _ => ?_) fun _ => ?_
  · refine (similar_expr h.tail).andThen fun e e' ts us he h => ?_
    refine (similar_mark h).map fun _ _ _ => ⟨?_, he.2⟩
    rw [Stmt.unplaced, Stmt.unplaced, he.1]
  · have htarget : Similar (fun p q => p = q ∧ p.2.IsWord)
        (if next ts = .punct .dot then
          (identifier "method name" ts.tail).map fun method => (some name, method)
        else .ok (none, name) ts)
        (if next ts = .punct .dot then
          (identifier "method name" us.tail).map fun method => (some name, method)
        else .ok (none, name) us) := by
      refine .ite (fun _ => (similar_identifier h.tail).map ?_) fun _ => .ok ⟨rfl, hname⟩ h
      rintro m _ ⟨rfl, hm⟩
      exact ⟨rfl, hm⟩
    refine htarget.andThen ?_
    rintro ⟨receiver, method⟩ _ ts us ⟨rfl, hmethod⟩ h
    refine (similar_take h).andThen fun _ _ ts us _ h => ?_
    have hargs : Similar SameExprs
        (if next ts = .punct .rparen then .ok [] ts else arguments ts)
        (if next us = .punct .rparen then .ok [] us else arguments us) := by
      rw [← h.next_eq]
      exact .ite (fun _ => .ok .nil h) fun _ => similar_arguments h
    refine hargs.andThen fun args args' ts us has h => ?_
    refine (similar_mark h).andThen fun _ _ ts us _ h => ?_
    refine (similar_mark h).map fun _ _ _ => ⟨?_, hmethod, has.2⟩
    rw [Stmt.unplaced, Stmt.unplaced, has.1]

theorem SameStmt.cond {s s' : Span} {c c' : Expr} {ss ss' rs rs' : List Stmt} (hc : SameExpr c c')
    (hs : SameStmts ss ss') (hr : SameStmts rs rs') :
    SameStmt (.cond s c ss rs) (.cond s' c' ss' rs') := by
  refine ⟨?_, hc.2, Stmt.allWorded_iff.2 hs.2, Stmt.allWorded_iff.2 hr.2⟩
  simp only [Stmt.unplaced, Stmt.allUnplaced_eq, hc.1, hs.1, hr.1]

theorem similar_elsePart {s s' : Span} {c c' : Expr} {ss ss' : List Stmt} (hc : SameExpr c c')
    (hs : SameStmts ss ss') (h : Like ts us)
    (hnested : ∀ v n n' ts' us', ts = ⟨.keyword .elseKw, v⟩ :: ⟨.keyword .ifKw, n⟩ :: ts' →
      Like ts' us' → Similar SameStmt (conditional n ts') (conditional n' us'))
    (hblock : ∀ v ts' us', ts = ⟨.keyword .elseKw, v⟩ :: ts' → Like ts' us' →
      Similar SameStmts (block ts') (block us')) :
    Similar SameStmt (elsePart s c ss ts) (elsePart s' c' ss' us) := by
  by_cases hn : next ts = .keyword .elseKw
  · obtain ⟨v, ts, rfl⟩ := exists_cons_of_next hn (by simp)
    obtain ⟨⟨_, v'⟩, us, rfl, hu, htail⟩ := h.cons_left
    cases hu
    rw [elsePart, elsePart]
    by_cases hn : next ts = .keyword .ifKw
    · obtain ⟨n, ts, rfl⟩ := exists_cons_of_next hn (by simp)
      obtain ⟨⟨_, n'⟩, us, rfl, hu, hbody⟩ := htail.cons_left
      cases hu
      rw [elseBranch, elseBranch]
      exact (hnested v n n' ts us rfl hbody).map fun _ _ hb => .cond hc hs (.cons hb .nil)
    · rw [elseBranch_of_next hn, elseBranch_of_next (htail.next_eq ▸ hn)]
      exact (hblock v ts us rfl htail).map fun _ _ hb => .cond hc hs hb
  · rw [elsePart_of_next hn, elsePart_of_next (h.next_eq ▸ hn)]
    exact .ok (.cond hc hs .nil) h

/-- What is not a block is reported as such. -/
theorem block_of_next (h : next ts ≠ .punct .lbrace) :
    block ts = (Reading.expected (Punct.text .lbrace).quoted ts).recover := by
  rw [block.eq_def]
  split
  · exact absurd rfl h
  · rfl

theorem braced_block : Braced stmts block := ⟨block_cons, fun _ => block_of_next⟩

theorem similar_statements :
    (∀ s ts s' us, Like ts us → Similar SameStmt (conditional s ts) (conditional s' us)) ∧
    (∀ ts us, Like ts us → Similar SameStmts (block ts) (block us)) ∧
    (∀ ts us, Like ts us → Similar SameStmts (stmts ts) (stmts us)) ∧
    ∀ t ts u us, Like (t :: ts) (u :: us) → Similar SameStmt (stmt t ts) (stmt u us) := by
  apply conditional.mutual_induct
  case case1 =>
    intro s ts hblock hnested helse s' us h
    rw [conditional_eq, conditional_eq]
    refine .within h (similar_mark h) fun _ _ ts₁ us₁ h₁ _ h => ?_
    refine .within h (similar_expr h) fun c c' ts₂ us₂ h₂ hc h => ?_
    refine .within h (similar_mark h) fun _ _ ts₃ us₃ h₃ _ h => ?_
    refine .within h (hblock ts₁ h₁ ts₂ h₂ ts₃ h₃ us₃ h) fun ss ss' ts₄ us₄ h₄ hs h => ?_
    refine similar_elsePart hc hs h ?_ ?_
    · rintro v n n' ts₆ us₆ rfl h₆
      exact hnested ts₁ h₁ ts₂ h₂ ts₃ h₃ v n ts₆ h₄ n' us₆ h₆
    · rintro v ts₅ us₅ rfl h₅
      exact helse ts₁ h₁ ts₂ h₂ ts₃ h₃ v ts₅ h₄ us₅ h₅
  case case2 =>
    intro s ts ih us h
    refine braced_block.similar h ?_
    rintro s ts us ⟨⟩ h
    exact ih us h
  case case3 =>
    intro ts hts us h
    exact braced_block.similar h fun s ts' _ heq _ => (hts s ts' heq).elim
  case case4 =>
    intro us h
    rw [h.nil_left, stmts]
    exact .ok .nil .nil
  case case5 =>
    intro t ts ht us h
    obtain ⟨u, us, rfl, hu, -⟩ := h.cons_left
    rw [itemReader_stmts.cons, itemReader_stmts.cons, hu, if_pos ht, if_pos ht]
    exact .ok .nil h
  case case6 =>
    intro t ts ht hstmt ih us h
    obtain ⟨u, us, rfl, hu, htail⟩ := h.cons_left
    exact similar_items itemReader_stmts hu htail h (hstmt u us h).recover
      fun ts' us' hlen h' => ih ts' hlen us' h'
  case case7 =>
    intro t ts ht ih u us h
    obtain ⟨hu, htail⟩ := h.cons_cons
    simp only [stmt, hu, ht]
    exact ih _ us htail
  case case8 =>
    intro t ts ht u us h
    obtain ⟨hu, htail⟩ := h.cons_cons
    simp only [stmt, hu, ht]
    exact (similar_mark htail).map fun _ _ _ => ⟨rfl, trivial⟩
  case case9 =>
    intro t ts name ht u us h
    obtain ⟨hu, htail⟩ := h.cons_cons
    simp only [stmt, hu, ht]
    exact similar_simpleStmt (h.worded.of_next ht) htail
  case case10 =>
    intro t ts ht u us h
    obtain ⟨hu, htail⟩ := h.cons_cons
    simp only [stmt, hu, ht]
    exact .expected h
  case case11 =>
    intro t ts h₁ h₂ h₃ h₄ u us h
    obtain ⟨hu, htail⟩ := h.cons_cons
    rw [stmt, stmt, hu]
    split
    · exact absurd ‹_› h₁
    · exact absurd ‹_› h₂
    · exact absurd ‹_› (h₃ _)
    · exact absurd ‹_› h₄
    · exact .error htail

/-! ## Render operations -/

abbrev SameArg : ComponentArg → ComponentArg → Prop :=
  Same ComponentArg.unplaced fun a => a.value.Worded

abbrev SameOp : RenderOp → RenderOp → Prop := Same RenderOp.unplaced RenderOp.Worded

abbrev SameOps : List RenderOp → List RenderOp → Prop := SameList RenderOp.unplaced RenderOp.Worded

/-- Bodies of components that differ in places at most. -/
structure SameBody (b b' : ComponentBody) : Prop where
  args : SameList ComponentArg.unplaced (fun a => a.value.Worded) b.args b'.args
  childSpan : b.childSpan.isSome = b'.childSpan.isSome
  child : SameOps b.child b'.child

theorem SameOp.component {s s' : Span} {t t' : TypeRef} {b b' : ComponentBody}
    (ht : t.unplaced = t'.unplaced) (hb : SameBody b b') :
    SameOp (.component s t b.args b.childSpan b.child)
      (.component s' t' b'.args b'.childSpan b'.child) := by
  refine ⟨?_, hb.args.2, RenderOp.allWorded_iff.2 hb.child.2⟩
  have hspan : b.childSpan.map (fun _ => ({} : Span)) = b'.childSpan.map fun _ => {} := by
    have := hb.childSpan
    cases h : b.childSpan <;> cases h' : b'.childSpan <;> simp_all
  simp only [RenderOp.unplaced, RenderOp.allUnplaced_eq, ht, hb.args.1, hb.child.1, hspan]

theorem similar_componentArg {s s' : Span} (h : Like ts us) :
    Similar SameArg (componentArg s ts) (componentArg s' us) := by
  refine (similar_identifier h).andThen ?_
  rintro name _ ts us ⟨rfl, -⟩ h
  refine (similar_mark h).andThen fun _ _ ts us _ h => ?_
  refine (similar_expr h).andThen fun e e' ts us he h => ?_
  refine (similar_mark h).map fun _ _ _ => ⟨?_, he.2⟩
  rw [ComponentArg.unplaced, ComponentArg.unplaced, he.1]

theorem renderBlock_of_next (h : next ts ≠ .punct .lbrace) :
    renderBlock ts = (Reading.expected (Punct.text .lbrace).quoted ts).recover := by
  rw [renderBlock.eq_def]
  split
  · exact absurd rfl h
  · rfl

theorem braced_renderBlock : Braced renderOps renderBlock :=
  ⟨renderBlock_cons, fun _ => renderBlock_of_next⟩

/-- What is neither an argument nor a child block is skipped. -/
theorem componentBody_other {hasChild : Bool} {t : Token} (h₁ : t.kind ≠ .punct .rbrace)
    (h₂ : t.kind ≠ .eof) (h₃ : t.kind ≠ .keyword .attrKw) (h₄ : t.kind ≠ .keyword .childKw) :
    componentBody hasChild (t :: ts) =
      Reading.onward ts { value := (none : Option Unit)
                          errors := [(t.span, .expected "'attr' or 'child'" t.kind)]
                          rest := synchronize (t :: ts) }
        fun rest _ => componentBody hasChild rest := by
  rw [componentBody]
  split
  · contradiction
  · contradiction
  · contradiction
  · contradiction
  · rfl

theorem similar_childBlock {hasChild : Bool} {s s' : Span}
    (h : Similar SameOps (renderBlock ts) (renderBlock us)) :
    Similar SameOps (childBlock hasChild s ts) (childBlock hasChild s' us) :=
  h.andThen fun _ _ _ _ hops h => .ite (fun _ => Similar.error h) fun _ => .ok hops h

theorem SameBody.withChild {s s' : Span} {o o' : Option (List RenderOp)} {b b' : ComponentBody}
    (ho : Option.Rel SameOps o o') (h : SameBody b b') :
    SameBody (b.withChild s o) (b'.withChild s' o') := by
  cases ho with
  | some hops => exact ⟨h.args, rfl, hops⟩
  | none => exact h

theorem similar_render :
    (∀ t ts u us, Like (t :: ts) (u :: us) → Similar SameOp (renderOp t ts) (renderOp u us)) ∧
    (∀ hasChild ts us, Like ts us →
      Similar SameBody (componentBody hasChild ts) (componentBody hasChild us)) ∧
    (∀ ts us, Like ts us → Similar SameOps (renderBlock ts) (renderBlock us)) ∧
    ∀ ts us, Like ts us → Similar SameOps (renderOps ts) (renderOps us) := by
  apply renderOp.mutual_induct
  case case1 | case4 =>
    intro t ts ht u us h
    obtain ⟨hu, htail⟩ := h.cons_cons
    simp only [renderOp, hu, ht]
    refine (similar_literal htail).andThen ?_
    rintro text _ ts us rfl h
    exact (similar_mark h).map fun _ _ _ => ⟨rfl, trivial⟩
  case case2 =>
    intro t ts ht u us h
    obtain ⟨hu, htail⟩ := h.cons_cons
    simp only [renderOp, hu, ht]
    refine (similar_literal htail).andThen ?_
    rintro name _ ts us rfl h
    refine (similar_mark h).andThen fun _ _ ts us _ h => ?_
    refine (similar_expr h).andThen fun e e' ts us he h => ?_
    refine (similar_mark h).map fun _ _ _ => ⟨?_, he.2⟩
    rw [RenderOp.unplaced, RenderOp.unplaced, he.1]
  case case3 =>
    intro t ts ht u us h
    obtain ⟨hu, htail⟩ := h.cons_cons
    simp only [renderOp, hu, ht]
    exact (similar_mark htail).map fun _ _ _ => ⟨rfl, trivial⟩
  case case5 =>
    intro t ts ht u us h
    obtain ⟨hu, htail⟩ := h.cons_cons
    simp only [renderOp, hu, ht]
    refine (similar_expr htail).andThen fun e e' ts us he h => ?_
    refine (similar_mark h).map fun _ _ _ => ⟨?_, he.2⟩
    rw [RenderOp.unplaced, RenderOp.unplaced, he.1]
  case case6 =>
    rintro ⟨_, s⟩ ts rfl ih ⟨_, s'⟩ us h
    obtain ⟨hu, htail⟩ := h.cons_cons
    cases hu
    rw [renderOp_component, renderOp_component]
    refine .within htail (similar_type htail) fun type type' ts₁ us₁ h₁ htype h => ?_
    refine .within h (similar_mark h) fun _ _ ts₂ us₂ h₂ _ h => ?_
    exact similar_closing (ih ts₁ h₁ ts₂ h₂ us₂ h) fun _ _ hb => .component htype.1 hb
  case case7 | case8 =>
    intro t ts ht u us h
    obtain ⟨hu, htail⟩ := h.cons_cons
    simp only [renderOp, hu, ht]
    exact .expected h
  case case9 =>
    intro t ts h₁ h₂ h₃ h₄ h₅ h₆ h₇ h₈ u us h
    obtain ⟨hu, htail⟩ := h.cons_cons
    rw [renderOp, renderOp, hu]
    split <;> first | contradiction | exact .error htail
  case case10 =>
    intro hasChild us h
    rw [h.nil_left, componentBody]
    exact .ok ⟨.nil, rfl, .nil⟩ .nil
  case case11 | case12 =>
    intro hasChild t ts ht us h
    have hcloser : (next (t :: ts)).isCloser = true := by rw [next_cons, ht]; rfl
    rw [componentBody_of_isCloser hcloser, componentBody_of_isCloser (h.next_eq ▸ hcloser)]
    exact .ok ⟨.nil, rfl, .nil⟩ h
  case case13 =>
    intro hasChild t ts ht ih us h
    obtain ⟨u, us, rfl, hu, htail⟩ := h.cons_left
    rw [componentBody_attr ht, componentBody_attr (hu.trans ht)]
    have harg : Similar _ (componentArg t.span ts).recover (componentArg u.span us).recover :=
      (similar_componentArg htail).recover
    refine .onward htail harg fun ts' us' hlen h' => ?_
    refine (ih ts' hlen us' h').map fun b b' hb => ⟨?_, hb.childSpan, hb.child⟩
    exact (SameList.of_option harg.value).append hb.args
  case case14 =>
    intro hasChild t ts ht child hblock ih us h
    obtain ⟨u, us, rfl, hu, htail⟩ := h.cons_left
    rw [componentBody_child ht, componentBody_child (hu.trans ht)]
    have hchild : Similar SameOps (childBlock hasChild t.span ts) (childBlock hasChild u.span us) :=
      similar_childBlock (hblock us htail)
    refine .onward htail hchild fun ts' us' hlen h' => ?_
    rw [← hchild.isSome_eq]
    exact (ih ts' hlen us' h').map fun b b' hb => hb.withChild hchild.value
  case case15 =>
    intro hasChild t ts h₁ h₂ h₃ h₄ ih us h
    obtain ⟨u, us, rfl, hu, htail⟩ := h.cons_left
    rw [componentBody_other h₁ h₂ h₃ h₄, componentBody_other (hu ▸ h₁) (hu ▸ h₂) (hu ▸ h₃) (hu ▸ h₄),
      hu]
    refine .onward (R := Eq) htail (Similar.error (h.synchronizeAt 0)) fun ts' us' hlen h' => ?_
    exact ih ts' hlen us' h'
  case case16 =>
    intro s ts ih us h
    refine braced_renderBlock.similar h ?_
    rintro s ts us ⟨⟩ h
    exact ih us h
  case case17 =>
    intro ts hts us h
    exact braced_renderBlock.similar h fun s ts' _ heq _ => (hts s ts' heq).elim
  case case18 =>
    intro us h
    rw [h.nil_left, renderOps]
    exact .ok .nil .nil
  case case19 =>
    intro t ts ht us h
    obtain ⟨u, us, rfl, hu, -⟩ := h.cons_left
    rw [itemReader_renderOps.cons, itemReader_renderOps.cons, hu, if_pos ht, if_pos ht]
    exact .ok .nil h
  case case20 =>
    intro t ts ht hop ih us h
    obtain ⟨u, us, rfl, hu, htail⟩ := h.cons_left
    exact similar_items itemReader_renderOps hu htail h (hop u us h).recover
      fun ts' us' hlen h' => ih ts' hlen us' h'

/-! ## Members -/

/-- A member without places. -/
def Member.unplaced : Member → Member
  | data m => data m.unplaced
  | method m => method m.unplaced
  | render b => render b.unplaced

/-- The names in the member are words. -/
def Member.Worded : Member → Prop
  | data m => ∀ e ∈ m.init, e.Worded
  | method m => m.name.IsWord ∧ Stmt.AllWorded m.body
  | render b => RenderOp.AllWorded b.ops

abbrev SameMember : Member → Member → Prop := Same Member.unplaced Member.Worded

theorem similar_dataMember {kind : MemberKind} (h : Like ts us) :
    Similar (Same DataMember.unplaced fun m => ∀ e ∈ m.init, e.Worded)
      (dataMember kind ts) (dataMember kind us) := by
  refine (similar_type h).andThen fun type type' ts us htype h => ?_
  refine (similar_identifier h).andThen ?_
  rintro name _ ts us ⟨rfl, -⟩ h
  have hinit : Similar (fun o o' => o.map Expr.unplaced = o'.map Expr.unplaced ∧ ∀ e ∈ o, e.Worded)
      (if kind = .field ∧ next ts = .punct .assign then (expr ts.tail).map some else .ok none ts)
      (if kind = .field ∧ next us = .punct .assign then (expr us.tail).map some else .ok none us) := by
    rw [← h.next_eq]
    refine .ite (fun _ => (similar_expr h.tail).map fun e e' he => ?_) fun _ => .ok ⟨rfl, by simp⟩ h
    exact ⟨congrArg some he.1, by simpa using he.2⟩
  refine hinit.andThen fun init init' ts us hinit h => ?_
  refine (similar_mark h).map fun _ _ _ => ⟨?_, hinit.2⟩
  simp only [DataMember.unplaced, htype.1, hinit.1]

theorem similar_parameter (h : Like ts us) :
    Similar (Same Parameter.unplaced fun _ => True) (parameter ts) (parameter us) := by
  refine (similar_type h).andThen fun type type' ts us htype h => ?_
  refine (similar_identifier h).map ?_
  rintro name _ ⟨rfl, -⟩
  exact ⟨by simp only [Parameter.unplaced, htype.1], trivial⟩

theorem moreParameters_of_next {p : Parameter} (h : next ts ≠ .punct .comma) :
    moreParameters p ts = .ok [p] ts :=
  moreParameters.eq_2 _ _ fun _ _ heq => h (heq ▸ rfl)

theorem similar_parameters (h : Like ts us) :
    Similar (SameList Parameter.unplaced fun _ => True) (parameters ts) (parameters us) := by
  induction ts using parameters.induct generalizing us with
  | case1 ts ih =>
    rw [parameters_eq, parameters_eq]
    refine .within h (similar_parameter h) fun p p' ts' us' hlen hp h' => ?_
    by_cases hn : next ts' = .punct .comma
    · obtain ⟨s, ts', rfl⟩ := exists_cons_of_next hn (by simp)
      obtain ⟨⟨_, s'⟩, us', rfl, hu, htail⟩ := h'.cons_left
      cases hu
      exact (ih s ts' hlen htail).map fun _ _ hps => .cons hp hps
    · rw [moreParameters_of_next hn, moreParameters_of_next (h'.next_eq ▸ hn)]
      exact .ok (.cons hp .nil) h'

theorem similar_methodHead (h : Like ts us) :
    Similar (fun p q => p.1 = q.1 ∧ p.1.IsWord ∧
      p.2.map Parameter.unplaced = q.2.map Parameter.unplaced) (methodHead ts) (methodHead us) := by
  refine (similar_identifier h).andThen ?_
  rintro name _ ts us ⟨rfl, hname⟩ h
  refine (similar_mark h).andThen fun _ _ ts us _ h => ?_
  have hparams : Similar (SameList Parameter.unplaced fun _ => True)
      (if next ts = .punct .rparen then .ok [] ts else parameters ts)
      (if next us = .punct .rparen then .ok [] us else parameters us) := by
    rw [← h.next_eq]
    exact .ite (fun _ => .ok .nil h) fun _ => similar_parameters h
  refine hparams.andThen fun ps ps' ts us hps h => ?_
  exact (similar_mark h).map fun _ _ _ => ⟨rfl, hname, hps.1⟩

theorem similar_method (h : Like ts us) :
    Similar (Same MethodDecl.unplaced fun m => m.name.IsWord ∧ Stmt.AllWorded m.body)
      (method ts) (method us) := by
  refine (similar_methodHead h).recover.andThen ?_
  rintro ⟨name, ps⟩ ⟨_, ps'⟩ ts us ⟨rfl, hname, hps⟩ h
  refine (similar_statements.2.1 ts us h).map fun body body' hbody => ?_
  refine ⟨?_, hname, Stmt.allWorded_iff.2 hbody.2⟩
  simp only [MethodDecl.unplaced, Stmt.allUnplaced_eq, hbody.1]
  rw [hps]

theorem similar_member {type : Bytes} {hasRender : Bool} {t u : Token} (h : Like (t :: ts) (u :: us)) :
    Similar SameMember (member type hasRender t ts) (member type hasRender u us) := by
  obtain ⟨hu, htail⟩ := h.cons_cons
  have hdata (kind : MemberKind) : Similar SameMember
      ((dataMember kind ts).recover.map .data) ((dataMember kind us).recover.map .data) :=
    (similar_dataMember htail).recover.map fun m m' hm => ⟨congrArg Member.data hm.1, hm.2⟩
  rw [member, member, hu]
  split
  · exact hdata _
  · exact hdata _
  · exact hdata _
  · exact (similar_method htail).map fun m m' hm => ⟨congrArg Member.method hm.1, hm.2⟩
  · refine (similar_render.2.2.1 ts us htail).andThen fun ops ops' ts us hops h => ?_
    refine .ite (fun _ => Similar.error h) fun _ => .ok ⟨?_, RenderOp.allWorded_iff.2 hops.2⟩ h
    simp only [Member.unplaced, RenderBlock.unplaced, RenderOp.allUnplaced_eq, hops.1]
  · refine .error ?_
    split
    · exact h.skipBlockAt 0
    · exact h.synchronizeAt 0

/-- Whether there is a render block does not depend on places. -/
theorem rendersAfter_eq {o o' : Option Member} (h : Option.Rel SameMember o o') (b : Bool) :
    rendersAfter b o = rendersAfter b o' := by
  cases h with
  | none => rfl
  | @some m m' hm =>
    have hshape := hm.1
    cases m <;> cases m' <;> first | rfl | cases hshape

theorem similar_members {type : Bytes} {hasRender : Bool} (h : Like ts us) :
    Similar (SameList Member.unplaced Member.Worded) (members type hasRender ts)
      (members type hasRender us) := by
  induction hn : ts.length using Nat.strongRecOn generalizing ts us hasRender with
  | ind n ih =>
  by_cases hcloser : (next ts).isCloser = true
  · rw [members_of_isCloser hcloser, members_of_isCloser (h.next_eq ▸ hcloser)]
    exact .ok .nil h
  cases ts with
  | nil => exact absurd rfl hcloser
  | cons t ts =>
    obtain ⟨u, us, rfl, hu, htail⟩ := h.cons_left
    have ht : ¬ (t.kind = .punct .rbrace ∨ t.kind = .eof) := by
      rintro (ht | ht) <;> exact hcloser (by rw [next_cons, ht]; rfl)
    rw [members_cons ht, members_cons (hu ▸ ht)]
    have hfirst : Similar SameMember (member type hasRender t ts) (member type hasRender u us) :=
      similar_member h
    refine .onward htail hfirst fun ts' us' hlen h' => ?_
    rw [← rendersAfter_eq hfirst.value]
    refine (ih ts'.length (by simp at hn; omega) h' rfl).map fun _ _ hrest => ?_
    exact (SameList.of_option hfirst.value).append hrest

/-! ## Types -/

abbrev SameType : TypeDecl → TypeDecl → Prop := Same TypeDecl.unplaced TypeDecl.Worded

/-- The part of a declaration before its members. -/
structure SameHead (d d' : TypeDecl) : Prop where
  kind : d.kind = d'.kind
  name : d.name = d'.name
  base : d.base.map TypeRef.unplaced = d'.base.map TypeRef.unplaced
  route : d.route = d'.route

theorem similar_routePart (h : Like ts us) : Similar Eq (routePart ts) (routePart us) := by
  rw [routePart, routePart, ← h.next_eq]
  refine .ite (fun _ => ?_) fun _ => .ok rfl h
  refine (similar_take h.tail).andThen fun _ _ ts us _ h => ?_
  refine (similar_literal h).andThen fun route route' ts us hroute h => ?_
  exact (similar_mark h).map fun _ _ _ => congrArg some hroute

theorem similar_typeKind (h : Like ts us) : Similar Eq (typeKind ts) (typeKind us) := by
  rw [typeKind, typeKind, ← h.next_eq]
  split
  · exact .ok rfl h.tail
  · exact .ok rfl h.tail
  · exact .expected h

theorem similar_typeHead (h : Like ts us) : Similar SameHead (typeHead ts) (typeHead us) := by
  refine (similar_routePart h).andThen fun route route' ts us hroute h => ?_
  refine (similar_typeKind h).andThen fun kind kind' ts us hkind h => ?_
  refine (similar_identifier h).andThen fun name name' ts us hname h => ?_
  have hbase : Similar (fun o o' => o.map TypeRef.unplaced = o'.map TypeRef.unplaced)
      (if next ts = .punct .colon then (type ts.tail).map some else .ok none ts)
      (if next us = .punct .colon then (type us.tail).map some else .ok none us) := by
    rw [← h.next_eq]
    exact .ite (fun _ => (similar_type h.tail).map fun _ _ ht => congrArg some ht.1)
      fun _ => .ok rfl h
  refine hbase.andThen fun base base' ts us hbase h => ?_
  exact (similar_mark h).map fun _ _ _ => ⟨hkind, hname.1, hbase, hroute⟩

/-- What a member is does not depend on its place. -/
theorem data?_unplaced (m : Member) : m.unplaced.data? = m.data?.map DataMember.unplaced := by
  cases m <;> rfl

theorem method?_unplaced (m : Member) : m.unplaced.method? = m.method?.map MethodDecl.unplaced := by
  cases m <;> rfl

theorem render?_unplaced (m : Member) : m.unplaced.render? = m.render?.map RenderBlock.unplaced := by
  cases m <;> rfl

theorem unplaced_declOf (d : TypeDecl) (items : List Member) :
    (declOf d items).unplaced = declOf d.unplaced (items.map Member.unplaced) := by
  simp only [declOf, TypeDecl.unplaced, List.filterMap_map, Function.comp_def, data?_unplaced,
    method?_unplaced, List.map_filterMap, List.findSome?_map, render?_unplaced, List.map_findSome?]

theorem SameHead.declOf {d d' : TypeDecl} {items items' : List Member} (h : SameHead d d')
    (hitems : SameList Member.unplaced Member.Worded items items') :
    SameType (declOf d items) (declOf d' items') := by
  obtain ⟨hsame, hworded⟩ := hitems
  have hdata : (items.filterMap Member.data?).map DataMember.unplaced =
      (items'.filterMap Member.data?).map DataMember.unplaced := by
    have := congrArg (List.filterMap Member.data?) hsame
    simpa [List.filterMap_map, Function.comp_def, data?_unplaced, List.map_filterMap] using this
  have hmethods : (items.filterMap Member.method?).map MethodDecl.unplaced =
      (items'.filterMap Member.method?).map MethodDecl.unplaced := by
    have := congrArg (List.filterMap Member.method?) hsame
    simpa [List.filterMap_map, Function.comp_def, method?_unplaced, List.map_filterMap] using this
  have hrender : (items.findSome? Member.render?).map RenderBlock.unplaced =
      (items'.findSome? Member.render?).map RenderBlock.unplaced := by
    have := congrArg (List.findSome? Member.render?) hsame
    simpa [List.findSome?_map, Function.comp_def, render?_unplaced, List.map_findSome?] using this
  refine ⟨?_, ?_, ?_, ?_⟩
  · simp only [TypeDecl.unplaced, Tokens.declOf, h.kind, h.name, h.base, h.route, hdata, hmethods,
      hrender]
  · intro m hm e he
    obtain ⟨item, hitem, hdata⟩ := List.mem_filterMap.1 hm
    cases item with
    | data m' =>
      cases hdata
      exact hworded _ hitem e he
    | _ => cases hdata
  · intro m hm
    obtain ⟨item, hitem, hmethod⟩ := List.mem_filterMap.1 hm
    cases item with
    | method m' =>
      cases hmethod
      exact hworded _ hitem
    | _ => cases hmethod
  · intro b hb
    obtain ⟨item, hitem, hrender⟩ := List.exists_of_findSome?_eq_some hb
    cases item with
    | render b' =>
      cases hrender
      exact hworded _ hitem
    | _ => cases hrender

theorem similar_typeDecl (h : Like ts us) : Similar SameType (typeDecl ts) (typeDecl us) := by
  rw [typeDecl_eq, typeDecl_eq]
  refine (similar_typeHead h).recover.andThen fun d d' ts us hd h => ?_
  rw [← hd.name]
  exact similar_closing (similar_members h) fun items items' hitems => hd.declOf hitems

/-! ## Files -/

/-- Declarations of a file that differ in places at most. -/
inductive SameItem : UnitItem → UnitItem → Prop
  | ns : SameItem (.ns n) (.ns n)
  | using : u.ns = u'.ns → SameItem (.using u) (.using u')
  | type : SameType d d' → SameItem (.type d) (.type d')

theorem similar_nameStatement (h : Like ts us) :
    Similar Eq (nameStatement ts) (nameStatement us) :=
  Reading.Agree.recover ((similar_qualifiedName h).andThen fun _ _ _ _ hname h =>
    (similar_mark h).map fun _ _ _ => hname)

theorem Like.skipToDeclaration (h : Like ts us) :
    Like (skipToDeclaration ts) (Tokens.skipToDeclaration us) := by
  induction ts using skipToDeclaration.induct generalizing us with
  | case1 =>
    rw [h.nil_left]
    exact .refl (by simp [Tokens.skipToDeclaration, Worded])
  | case2 | case3 | case4 | case5 | case6 | case7 =>
    obtain ⟨u, us, rfl, hu, -⟩ := h.cons_left
    simp only [Tokens.skipToDeclaration, *]
  | case8 t ts ht ih =>
    obtain ⟨u, us, rfl, hu, htail⟩ := h.cons_left
    simp only [Tokens.skipToDeclaration, hu, ht]
    exact ih ((h.skipBlockAt 0).clip htail)
  | case9 t ts h₁ h₂ h₃ h₄ h₅ h₆ h₇ ih =>
    obtain ⟨u, us, rfl, hu, htail⟩ := h.cons_left
    rw [Tokens.skipToDeclaration, Tokens.skipToDeclaration, hu]
    split <;> first | contradiction | exact ih htail

theorem similar_unitItem {hasNs hasType : Bool} {t u : Token} (h : Like (t :: ts) (u :: us)) :
    Similar SameItem (unitItem hasNs hasType t ts) (unitItem hasNs hasType u us) := by
  obtain ⟨hu, htail⟩ := h.cons_cons
  have htype : Similar SameItem ((typeDecl (t :: ts)).map .type) ((typeDecl (u :: us)).map .type) :=
    (similar_typeDecl h).map fun _ _ hd => .type hd
  rw [unitItem, unitItem, hu]
  split
  · refine (similar_nameStatement htail).andThen ?_
    rintro name _ ts us rfl h
    refine ⟨.some .ns, ?_, h⟩
    dsimp only
    split
    · rfl
    · split <;> rfl
  · exact (similar_nameStatement htail).map fun _ _ hname => .using hname
  · exact htype
  · exact htype
  · exact htype
  · exact .error htail.skipToDeclaration

theorem forall₂_toList {α : Type} {R : α → α → Prop} {o o' : Option α} (h : Option.Rel R o o') :
    List.Forall₂ R o.toList o'.toList := by
  cases h with
  | some h => exact .cons h .nil
  | none => exact .nil

theorem flagsAfter_eq {hasNs hasType : Bool} {o o' : Option UnitItem} (h : Option.Rel SameItem o o') :
    flagsAfter hasNs hasType o = flagsAfter hasNs hasType o' := by
  cases h with
  | none => rfl
  | some hi => cases hi <;> rfl

/-- Tokens of the same kinds declare the same, up to places. -/
theorem similar_unitItems {hasNs hasType : Bool} (h : Like ts us) :
    Similar (List.Forall₂ SameItem) (unitItems hasNs hasType ts) (unitItems hasNs hasType us) := by
  induction hn : ts.length using Nat.strongRecOn generalizing ts us hasNs hasType with
  | ind n ih =>
  cases ts with
  | nil =>
    rw [h.nil_left, unitItems]
    exact .ok .nil .nil
  | cons t ts =>
    obtain ⟨u, us, rfl, hu, htail⟩ := h.cons_left
    by_cases ht : t.kind = .eof
    · rw [unitItems_of_eof ht, unitItems_of_eof (hu.trans ht)]
      exact .ok .nil h
    rw [unitItems_cons ht, unitItems_cons (hu ▸ ht)]
    have hfirst : Similar SameItem (unitItem hasNs hasType t ts) (unitItem hasNs hasType u us) :=
      similar_unitItem h
    refine .onward htail hfirst fun ts' us' hlen h' => ?_
    rw [← flagsAfter_eq hfirst.value]
    refine (ih ts'.length (by simp at hn; omega) h' rfl).map fun is js hrest => ?_
    exact List.rel_append (forall₂_toList hfirst.value) hrest

/-! ## Names -/

/-- Declarations leave identifiers behind them as they are. -/
theorem Worded.rest_unitItem {hasNs hasType : Bool} (h : Worded (t :: ts)) :
    Worded (clip ts (unitItem hasNs hasType t ts).rest) :=
  ((similar_unitItem (.refl h)).rest.clip (.refl h.tail)).worded

theorem nameable_unitItems {hasNs hasType : Bool} (h : Worded ts) {items : List UnitItem}
    (hi : (unitItems hasNs hasType ts).value = some items) : ∀ i ∈ items, i.Nameable := by
  induction hn : ts.length using Nat.strongRecOn generalizing ts hasNs hasType items with
  | ind n ih =>
  cases ts with
  | nil =>
    rw [unitItems] at hi
    cases hi
    simp
  | cons t ts =>
    by_cases ht : t.kind = .eof
    · rw [unitItems_of_eof ht] at hi
      cases hi
      simp
    rw [unitItems_cons ht] at hi
    obtain ⟨others, hothers, rfl⟩ := Option.map_eq_some_iff.1 hi
    have hlen := length_clip_le ts (unitItem hasNs hasType t ts).rest
    refine List.forall_mem_append.2 ⟨?_, ?_⟩
    · intro i hi
      exact nameable_unitItem h (Option.mem_toList.1 hi)
    · exact ih _ (by simp at hn; omega) h.rest_unitItem hothers rfl

end

end Tokens

theorem SyntaxTree.nameable_parse (source file : Bytes) : (SyntaxTree.parse source file).Nameable := by
  refine SyntaxTree.nameable_ofItems ?_
  cases hv : (Tokens.unitItems false false (TokenStream.scan source).tokens).value with
  | none => simp
  | some items => exact Tokens.nameable_unitItems (TokenStream.worded_tokens {} source) hv

end ViewCompiler
