import ViewCompiler.Proofs.WrittenMarkup

/-!
Reading written markup. A clean reading of `Tokens.Markup` gives render operations with the
components that were written, in the same order (`Tokens.Markup.renders`). What stands behind the
markup is left open; it only must not go on with an expression.
-/

namespace ViewCompiler

namespace RenderOp

mutual

/-- The components that a render operation names, in order. -/
def components : RenderOp → List TypeRef
  | .component _ type _ _ child => type :: allComponents child
  | _ => []

def allComponents : List RenderOp → List TypeRef
  | [] => []
  | op :: ops => components op ++ allComponents ops

end

theorem allComponents_append (ops ops' : List RenderOp) :
    allComponents (ops ++ ops') = allComponents ops ++ allComponents ops' := by
  induction ops with
  | nil => rfl
  | cons op ops ih => rw [List.cons_append, allComponents, allComponents, ih, List.append_assoc]

theorem allComponents_singleton (op : RenderOp) : allComponents [op] = op.components := by
  rw [allComponents, allComponents, List.append_nil]

/-- The names of the components, in order. -/
def names (ops : List RenderOp) : List Bytes := (allComponents ops).map (·.name)

theorem names_append (ops ops' : List RenderOp) : names (ops ++ ops') = names ops ++ names ops' := by
  rw [names, allComponents_append, List.map_append]
  rfl

end RenderOp

namespace Tokens

open Reading (Orderly)
open TokenKind (isBorder isCloser)
open TokenStream (Valued wordKind)

/-- What follows a statement that is complete: neither more of its expression nor its semicolon. -/
def Apart (ts : List Token) : Prop := (next ts).isTerm = false ∧ next ts ≠ .punct .semicolon

/-! ## Names and values -/

theorem dotted_of_next {ts : List Token} (h : next ts ≠ .punct .dot) : dotted ts = ([], ts) :=
  dotted.eq_2 _ fun _ _ _ _ heq => h (heq ▸ rfl)

theorem Named.dotted {m : Bytes} {w rest : List Token} (h : Named m w)
    (hrest : next rest ≠ .punct .dot) (s : Span) :
    Tokens.dotted (⟨.punct .dot, s⟩ :: (w ++ rest)) = (Ascii.dot :: m, rest) := by
  induction h generalizing s with
  | word => simp [Tokens.dotted, dotted_of_next hrest]
  | dot _ ih => simp [Tokens.dotted, ih]

/-- A written name is read as that name. -/
theorem Named.qualifiedName {n : Bytes} {w rest : List Token} (h : Named n w)
    (hrest : next rest ≠ .punct .dot) : Tokens.qualifiedName (w ++ rest) = .ok n rest := by
  cases h with
  | word =>
    simp [Tokens.qualifiedName, next, identifier, dotted_of_next hrest, Reading.ok, Reading.andThen,
      Reading.report]
  | dot hw =>
    simp [Tokens.qualifiedName, next, identifier, hw.dotted hrest, Reading.ok, Reading.andThen,
      Reading.report]

/-- A written name is read as the type of that name. -/
theorem Named.type {n : Bytes} {w rest : List Token} (h : Named n w)
    (hrest : next rest ≠ .punct .dot) :
    Tokens.type (w ++ rest) = .ok { name := n, span := place w } rest := by
  obtain ⟨m, s, us, rfl⟩ : ∃ m s us, w = ⟨.identifier m, s⟩ :: us := by
    cases h <;> exact ⟨_, _, _, rfl⟩
  have hname := h.qualifiedName hrest
  simp only [List.cons_append] at hname ⊢
  simp only [Tokens.type, next_cons, hname]
  rfl

/-- Two parts of expression tokens in front of other tokens are the same. -/
theorem Termed.unique {v w rest rest' : List Token} (hv : Termed v) (hw : Termed w)
    (hrest : (next rest).isTerm = false) (hrest' : (next rest').isTerm = false)
    (h : v ++ rest = w ++ rest') : v = w ∧ rest = rest' := by
  have apart {u r : List Token} (hr : (next r).isTerm = false) (hu : Termed u)
      {r' : List Token} (heq : r = u ++ r') : u = [] := by
    cases u with
    | nil => rfl
    | cons t u =>
      rw [heq, List.cons_append, next_cons, hu t (by simp)] at hr
      cases hr
  rcases List.append_eq_append_iff.1 h with ⟨u, rfl, hu⟩ | ⟨u, rfl, hu⟩
  · obtain rfl := apart hrest (fun t ht => hw t (by simp [ht])) hu
    exact ⟨by simp, hu⟩
  · obtain rfl := apart hrest' (fun t ht => hv t (by simp [ht])) hu
    exact ⟨by simp, hu.symm⟩

/-- A written value is read up to the end of its statement. -/
theorem read_valued {α : Type} {f : Expr → α} {v rest : List Token} (hv : Valued v)
    (hrest : Apart rest)
    (ho : Orderly ((expr (v ++ rest)).andThen fun e ts =>
      (mark .semicolon ts).map fun _ => f e).errors) :
    ∃ e es, ((expr (v ++ rest)).andThen fun e ts => (mark .semicolon ts).map fun _ => f e) =
      ⟨some (f e), es, rest⟩ := by
  obtain ⟨ts, us, rfl, hts, hus⟩ := hv
  obtain ⟨w, e, es, r, heq, hw, hc⟩ := reads_termed (Reading.orderly_of_andThen ho)
  have hread : expr (ts ++ us ++ rest) = ⟨some e, es, r⟩ := heq ▸ hc.here
  rw [hread, Reading.andThen] at ho ⊢
  have hnext : next r = .punct .semicolon := by
    refine Decidable.byContradiction fun hn => ?_
    have hm := (Reading.orderly_append.1 ho).2
    rw [mark, take, if_neg hn] at hm
    exact Reading.not_orderly_expected _ _ _ hm
  obtain ⟨s, r, rfl⟩ := exists_cons_of_next hnext (by simp)
  rw [List.append_assoc] at heq
  rcases hus with rfl | ⟨s', rfl⟩
  · -- The semicolon would have to stand behind the statement.
    obtain ⟨-, rfl⟩ := hts.unique hw hrest.1 rfl heq
    exact absurd rfl hrest.2
  · obtain ⟨-, hr⟩ := hts.unique hw rfl rfl heq
    cases hr
    exact ⟨e, es, by simp [mark, take, next_cons, Reading.ok, Reading.map, Reading.report]⟩

/-! ## Arguments -/

theorem Arguments.apart {args rest : List Token} (h : Arguments args) (hrest : Apart rest) :
    Apart (args ++ rest) := by
  cases h with
  | nil => exact hrest
  | cons => exact ⟨rfl, by simp [next]⟩

/-- An argument with its value. -/
theorem componentArg_append {s s' s'' : Span} {n : Bytes} {v rest : List Token} (hv : Valued v)
    (hrest : Apart rest)
    (ho : Orderly (componentArg s (⟨wordKind n, s'⟩ :: ⟨.punct .assign, s''⟩ :: (v ++ rest))).errors) :
    ∃ arg es, componentArg s (⟨wordKind n, s'⟩ :: ⟨.punct .assign, s''⟩ :: (v ++ rest)) =
      ⟨some arg, es, rest⟩ := by
  rw [wordKind] at ho ⊢
  split at ho
  · exact absurd (Reading.orderly_of_andThen ho) (Reading.not_orderly_expected _ _ _)
  · obtain ⟨e, es, hread⟩ := read_valued (f := fun value => ({ name := n, value, span := s } : ComponentArg))
      hv hrest ho
    exact ⟨_, es, hread⟩

/-- Written arguments are read in front of what follows in the body. -/
theorem Arguments.componentBody_append {hasChild : Bool} {args rest : List Token} (h : Arguments args)
    (hrest : Apart rest) (ho : Orderly (componentBody hasChild (args ++ rest)).errors) :
    ∃ as es, componentBody hasChild (args ++ rest) =
      ((componentBody hasChild rest).map fun b => { b with args := as ++ b.args }).report es := by
  induction h with
  | nil => exact ⟨[], [], by simp [Reading.map, Reading.report]⟩
  | @cons n s s' s'' v args hv hargs ih =>
    simp only [List.cons_append, List.append_assoc] at ho ⊢
    rw [componentBody_attr rfl] at ho ⊢
    obtain ⟨hfirst, hmore⟩ := Reading.orderly_append.1 ho
    obtain ⟨arg, es, harg⟩ :=
      componentArg_append hv (hargs.apart hrest) (Reading.orderly_recover.1 hfirst)
    simp only [harg, Reading.recover] at hmore ⊢
    rw [clip_eq (by simp; omega)] at hmore
    rw [Reading.onward_eq (by simp; omega)]
    obtain ⟨as, es', hbody⟩ := ih hmore
    refine ⟨arg :: as, es ++ es', ?_⟩
    simp [hbody, Reading.map, Reading.report, Function.comp_def]

/-! ## Operations -/

/-- The part `w` is read in front of `rest` as operations with the components `ns`. -/
def Renders (ns : List Bytes) (w rest : List Token) : Prop :=
  ∃ ops es, RenderOp.names ops = ns ∧
    renderOps (w ++ rest) = ((renderOps rest).map (ops ++ ·)).report es

theorem Renders.append {ns ns' : List Bytes} {v w rest : List Token} (hv : Renders ns v (w ++ rest))
    (hw : Renders ns' w rest) : Renders (ns ++ ns') (v ++ w) rest := by
  obtain ⟨ops, es, rfl, hops⟩ := hv
  obtain ⟨ops', es', rfl, hops'⟩ := hw
  refine ⟨ops ++ ops', es ++ es', RenderOp.names_append ops ops', ?_⟩
  rw [List.append_assoc, hops, hops']
  simp [Reading.map, Reading.report, Function.comp_def]

theorem Renders.orderly {ns : List Bytes} {w rest : List Token} (h : Renders ns w rest)
    (ho : Orderly (renderOps (w ++ rest)).errors) : Orderly (renderOps rest).errors := by
  obtain ⟨ops, es, -, hops⟩ := h
  rw [hops] at ho
  exact (Reading.orderly_append.1 ho).2

/-- One operation that is read whole. -/
theorem Renders.single {t : Token} {w rest : List Token} (op : RenderOp)
    (es : List (Span × SyntaxError)) (ht : ¬ (t.kind = .punct .rbrace ∨ t.kind = .eof))
    (h : renderOp t (w ++ rest) = ⟨some op, es, rest⟩) :
    Renders (op.components.map (·.name)) (t :: w) rest := by
  refine ⟨[op], es, by rw [RenderOp.names, RenderOp.allComponents_singleton], ?_⟩
  rw [List.cons_append, itemReader_renderOps.cons, if_neg ht, h]
  exact Reading.onward_eq (by simp [Reading.recover])

theorem orderly_renderOp {t : Token} {ts : List Token}
    (ht : ¬ (t.kind = .punct .rbrace ∨ t.kind = .eof)) (ho : Orderly (renderOps (t :: ts)).errors) :
    Orderly (renderOp t ts).errors := by
  rw [itemReader_renderOps.cons, if_neg ht] at ho
  exact Reading.orderly_recover.1 (Reading.orderly_append.1 ho).1

theorem Markup.apart {ns : List Bytes} {w rest : List Token} (h : Markup ns w) (hrest : Apart rest) :
    Apart (w ++ rest) := by
  induction h generalizing rest with
  | nil => exact hrest
  | append _ _ ih ih' =>
    rw [List.append_assoc]
    exact ih (ih' hrest)
  | _ => exact ⟨rfl, by simp [next]⟩

theorem Renders.renderOps_eq {ns : List Bytes} {w rest : List Token} {t : Token}
    (h : Renders ns w (t :: rest)) (ht : t.kind = .punct .rbrace) :
    ∃ ops es, RenderOp.names ops = ns ∧ renderOps (w ++ t :: rest) = ⟨some ops, es, t :: rest⟩ := by
  obtain ⟨ops, es, hns, hops⟩ := h
  refine ⟨ops, es, hns, ?_⟩
  rw [hops, itemReader_renderOps.cons, if_pos (.inl ht)]
  simp [Reading.ok, Reading.map, Reading.report]

/-! ## Components -/

/-- The head of a written component. -/
theorem renderOp_named {n : Bytes} {s s' : Span} {w : List Token} (hw : Named n w) (ts : List Token) :
    renderOp ⟨.keyword .componentKw, s⟩ (w ++ ⟨.punct .lbrace, s'⟩ :: ts) =
      closing (componentBody false) (fun body =>
        .component s { name := n, span := place w } body.args body.childSpan body.child) ts := by
  rw [renderOp_component, hw.type (by simp [next]), Reading.within_eq_andThen (by simp [Reading.ok])]
  exact componentBlock_cons s _ s' ts

/-- A written component, by what its body is read as. -/
theorem renders_component {n : Bytes} {ns : List Bytes} {s s' s'' : Span} {w body rest : List Token}
    (hw : Named n w)
    (hbody : Orderly (componentBody false (body ++ ⟨.punct .rbrace, s''⟩ :: rest)).errors →
      ∃ b es, RenderOp.names b.child = ns ∧ componentBody false (body ++ ⟨.punct .rbrace, s''⟩ :: rest)
        = ⟨some b, es, ⟨.punct .rbrace, s''⟩ :: rest⟩)
    (ho : Orderly (renderOps (⟨.keyword .componentKw, s⟩ :: (w ++ ⟨.punct .lbrace, s'⟩ ::
      (body ++ ⟨.punct .rbrace, s''⟩ :: rest)))).errors) :
    Renders (n :: ns) (⟨.keyword .componentKw, s⟩ :: (w ++ ⟨.punct .lbrace, s'⟩ ::
      (body ++ [⟨.punct .rbrace, s''⟩]))) rest := by
  have hop := @renderOp_named n s s' w hw (body ++ ⟨.punct .rbrace, s''⟩ :: rest)
  have hclosing := orderly_renderOp (by simp) ho
  rw [hop] at hclosing
  obtain ⟨b, es, rfl, hb⟩ := hbody (orderly_of_closing hclosing)
  refine Renders.single (.component s { name := n, span := place w } b.args b.childSpan b.child) es
    (by simp) ?_
  simp only [List.append_assoc, List.cons_append, List.nil_append, hop]
  exact closing_eq rfl hb

/-- The child block of a written component. -/
theorem componentBody_markup {ns : List Bytes} {s s' s'' s₃ : Span} {ts rest : List Token}
    (hts : Orderly (renderOps (ts ++ ⟨.punct .rbrace, s''⟩ :: ⟨.punct .rbrace, s₃⟩ :: rest)).errors →
      Renders ns ts (⟨.punct .rbrace, s''⟩ :: ⟨.punct .rbrace, s₃⟩ :: rest))
    (ho : Orderly (componentBody false (⟨.keyword .childKw, s⟩ :: ⟨.punct .lbrace, s'⟩ ::
      (ts ++ ⟨.punct .rbrace, s''⟩ :: ⟨.punct .rbrace, s₃⟩ :: rest))).errors) :
    ∃ b es, RenderOp.names b.child = ns ∧
      componentBody false (⟨.keyword .childKw, s⟩ :: ⟨.punct .lbrace, s'⟩ ::
        (ts ++ ⟨.punct .rbrace, s''⟩ :: ⟨.punct .rbrace, s₃⟩ :: rest)) =
          ⟨some b, es, ⟨.punct .rbrace, s₃⟩ :: rest⟩ := by
  rw [componentBody_child rfl] at ho ⊢
  have hblock := Reading.orderly_of_andThen (Reading.orderly_append.1 ho).1
  rw [renderBlock_cons] at hblock
  obtain ⟨ops, es, hns, hops⟩ := (hts (orderly_of_closing hblock)).renderOps_eq rfl
  have hchild : childBlock false s (⟨.punct .lbrace, s'⟩ ::
      (ts ++ ⟨.punct .rbrace, s''⟩ :: ⟨.punct .rbrace, s₃⟩ :: rest)) =
        ⟨some ops, es, ⟨.punct .rbrace, s₃⟩ :: rest⟩ := by
    rw [childBlock, renderBlock_cons, closing_eq rfl hops, Reading.andThen]
    simp [Reading.ok, Reading.report]
  refine ⟨{ childSpan := some s, child := ops }, es, hns, ?_⟩
  rw [hchild, Reading.onward_eq (by simp; omega), componentBody_of_isCloser rfl]
  simp [Reading.ok, Reading.map, Reading.report, ComponentBody.withChild]

/-- Written arguments in front of the rest of a body. -/
theorem Arguments.read_body {ns : List Bytes} {args ts rest : List Token} (hargs : Arguments args)
    (hts : Apart ts)
    (hbody : Orderly (componentBody false ts).errors →
      ∃ b es, RenderOp.names b.child = ns ∧ componentBody false ts = ⟨some b, es, rest⟩)
    (ho : Orderly (componentBody false (args ++ ts)).errors) :
    ∃ b es, RenderOp.names b.child = ns ∧ componentBody false (args ++ ts) = ⟨some b, es, rest⟩ := by
  obtain ⟨as, es, heq⟩ := hargs.componentBody_append hts ho
  rw [heq] at ho ⊢
  obtain ⟨b, es', hns, hb⟩ := hbody (Reading.orderly_append.1 ho).2
  exact ⟨{ b with args := as ++ b.args }, es ++ es', hns, by simp [hb, Reading.map, Reading.report]⟩

/-! ## Markup -/

theorem renders_attr {n : Bytes} {s s' s'' : Span} {v rest : List Token} (hv : Valued v)
    (hrest : Apart rest)
    (ho : Orderly (renderOps (⟨.keyword .attrKw, s⟩ :: ⟨.string n, s'⟩ :: ⟨.punct .assign, s''⟩ ::
      (v ++ rest))).errors) :
    Renders [] (⟨.keyword .attrKw, s⟩ :: ⟨.string n, s'⟩ :: ⟨.punct .assign, s''⟩ :: v) rest := by
  have hop : renderOp ⟨.keyword .attrKw, s⟩ (⟨.string n, s'⟩ :: ⟨.punct .assign, s''⟩ :: (v ++ rest)) =
      (expr (v ++ rest)).andThen fun e ts => (mark .semicolon ts).map fun _ => .attr s n e := by
    simp only [renderOp]
    rfl
  have hread := orderly_renderOp (by simp) ho
  rw [hop] at hread
  obtain ⟨e, es, hread⟩ := read_valued hv hrest hread
  exact .single (.attr s n e) es (by simp) (hop.trans hread)

theorem renders_value {s : Span} {v rest : List Token} (hv : Valued v) (hrest : Apart rest)
    (ho : Orderly (renderOps (⟨.keyword .exprKw, s⟩ :: (v ++ rest))).errors) :
    Renders [] (⟨.keyword .exprKw, s⟩ :: v) rest := by
  have hop : renderOp ⟨.keyword .exprKw, s⟩ (v ++ rest) =
      (expr (v ++ rest)).andThen fun e ts => (mark .semicolon ts).map fun _ => .value s e := by
    simp only [renderOp]
  have hread := orderly_renderOp (by simp) ho
  rw [hop] at hread
  obtain ⟨e, es, hread⟩ := read_valued hv hrest hread
  exact .single (.value s e) es (by simp) (hop.trans hread)

/-- A clean reading of written markup gives the components that were written, in order. -/
theorem Markup.renders {ns : List Bytes} {w rest : List Token} (h : Markup ns w) (hrest : Apart rest)
    (ho : Orderly (renderOps (w ++ rest)).errors) : Renders ns w rest := by
  induction h generalizing rest with
  | nil => exact ⟨[], [], rfl, by simp [Reading.map, Reading.report]⟩
  | append _ hw ih ih' =>
    rw [List.append_assoc] at ho
    have hfirst := ih (hw.apart hrest) ho
    exact hfirst.append (ih' hrest (hfirst.orderly ho))
  | @openElement tag s s' s'' =>
    refine .single (.openElement s tag) [] (by simp) ?_
    simp only [renderOp]
    rfl
  | attr hv => exact renders_attr hv hrest ho
  | @closeElement s s' =>
    refine .single (.closeElement s) [] (by simp) ?_
    simp only [renderOp]
    rfl
  | @text t s s' s'' =>
    refine .single (.text s t) [] (by simp) ?_
    simp only [renderOp]
    rfl
  | value hv => exact renders_value hv hrest ho
  | @leaf n s s' s'' w args hw hargs =>
    simp only [List.cons_append, List.append_assoc, List.nil_append] at ho
    refine renders_component hw (hargs.read_body ⟨rfl, by simp [next]⟩ fun _ => ?_) ho
    exact ⟨{}, [], rfl, componentBody_of_isCloser rfl⟩
  | @component n ns s₁ s₂ s₃ s₄ s₅ s₆ w args ts hw hargs hts ih =>
    have hbody := @renders_component _ ns s₁ s₂ s₆ _ (args ++ ⟨.keyword .childKw, s₃⟩ ::
      ⟨.punct .lbrace, s₄⟩ :: (ts ++ [⟨.punct .rbrace, s₅⟩])) rest hw
    simp only [List.cons_append, List.append_assoc, List.nil_append] at ho hbody ⊢
    refine hbody (hargs.read_body ⟨rfl, by simp [next]⟩ fun hchild => ?_) ho
    exact componentBody_markup (fun h => ih ⟨rfl, by simp [next]⟩ h) hchild

/-- A type that renders written markup renders the components that were written, in order. -/
theorem MarkupTail.names_render {ns : List Bytes} {k : List Token} {d : TypeDecl} (h : MarkupTail ns k)
    (hd : RendersTail k d) : ∃ block, d.render = some block ∧ RenderOp.names block.ops = ns := by
  obtain ⟨s, s', w, c, b, e, rfl, hw, hc, -⟩ := h.exists_eq
  obtain ⟨block, rest, hblock, hread⟩ := hd
  refine ⟨block, hblock, ?_⟩
  rw [List.tail_cons, renderBlock_cons] at hread
  have hclean : Orderly (closing renderOps id (w ++ c :: b :: [e])).errors := by simp [hread, Orderly]
  have hapart : Apart (c :: b :: [e]) := by
    rw [Apart, next_cons, hc]
    exact ⟨rfl, by simp⟩
  obtain ⟨ops, es, hns, hops⟩ := (hw.renders hapart (orderly_of_closing hclean)).renderOps_eq hc
  rw [closing_eq hc hops] at hread
  cases hread
  exact hns

end Tokens

end ViewCompiler
