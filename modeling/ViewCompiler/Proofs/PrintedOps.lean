import ViewCompiler.Proofs.MarkupReading
import ViewCompiler.Proofs.SimilarReadings

/-!
What printed tokens are read as. `Tokens.Shows` says that tokens are read as given render operations,
up to places, in front of anything else; `Tokens.Passes` says the same of the arguments of a
component, and `Tokens.Spells` of an expression in front of a border. An expression that can be
parsed alone is spelled by any tokens of the same kinds (`spells_of_parse?`).
-/

namespace ViewCompiler

/-! ## Readings without errors -/

namespace Reading

variable {α β : Type}

@[simp] theorem andThen_ok (a : α) (ts : List Token) (f : α → List Token → Reading β) :
    (ok a ts).andThen f = f a ts := by
  simp [ok, andThen, report]

@[simp] theorem map_ok (a : α) (ts : List Token) (f : α → β) : (ok a ts).map f = .ok (f a) ts := rfl

@[simp] theorem recover_ok (a : α) (ts : List Token) : (ok a ts).recover = .ok a ts := rfl

theorem onward_ok {a : α} {ts bound : List Token} (h : ts.length ≤ bound.length)
    (f : List Token → Reading β) : (ok a ts).onward bound (fun rest _ => f rest) = f ts := by
  rw [onward_eq h]
  simp [ok, report]

end Reading

namespace Tokens

section

variable {s : Span} {ts : List Token}

@[simp] theorem take_cons (kind : TokenKind) (what : Bytes) :
    take kind what (⟨kind, s⟩ :: ts) = .ok () ts := if_pos rfl

@[simp] theorem mark_cons (p : Punct) : mark p (⟨.punct p, s⟩ :: ts) = .ok () ts := take_cons _ _

@[simp] theorem literal_cons (what t : Bytes) : literal what (⟨.string t, s⟩ :: ts) = .ok t ts := rfl

@[simp] theorem identifier_cons (what n : Bytes) :
    identifier what (⟨.identifier n, s⟩ :: ts) = .ok n ts := rfl

end

open TokenKind (isBorder isCloser)

/-! ## Tokens of the same kinds -/

theorem forall_kind {p : TokenKind → Prop} {ts us : List Token}
    (h : ts.map (·.kind) = us.map (·.kind)) (hus : ∀ u ∈ us, p u.kind) : ∀ t ∈ ts, p t.kind := by
  intro t ht
  have hmem : t.kind ∈ us.map (·.kind) := h ▸ List.mem_map_of_mem ht
  obtain ⟨u, hu, heq⟩ := List.mem_map.1 hmem
  exact heq ▸ hus u hu

/-- Tokens of the kinds that a text has when it is scanned alone. -/
theorem like_of_kinds {code : Bytes} {ts us : List Token} {t : Token}
    (hus : (TokenStream.scan code).tokens = us ++ [t])
    (h : (TokenStream.scan code).tokens.map (·.kind) = ts.map (·.kind) ++ [TokenKind.eof]) :
    ts.map (·.kind) = us.map (·.kind) ∧ Like (ts ++ [t]) (us ++ [t]) := by
  rw [hus, List.map_append] at h
  have hkinds : ts.map (·.kind) = us.map (·.kind) := (List.append_inj' h rfl).1.symm
  have hall : (ts ++ [t]).map (·.kind) = (us ++ [t]).map (·.kind) := by simp [hkinds]
  refine ⟨hkinds, hall, forall_kind (p := fun k => ∀ n, k = .identifier n → n.IsWord) hall ?_⟩
  have hworded := TokenStream.worded_tokens {} code
  change Worded (TokenStream.scan code).tokens at hworded
  rwa [hus] at hworded

/-! ## Expressions -/

/-- The tokens are read as the expression `e`, up to places, in front of a border. -/
def Spells (e : Expr) (ts : List Token) : Prop :=
  ∃ e' : Expr, e'.unplaced = e ∧ ∀ k, isBorder (next k) = true → expr (ts ++ k) = .ok e' k

/-- An operand in front of a border is an expression. -/
theorem binary_of_operand {ts k : List Token} {e : Expr} (h : operand (ts ++ k) = .ok e k)
    (hk : isBorder (next k) = true) (p : Precedence) : binary p (ts ++ k) = .ok e k := by
  have step (p : Precedence) (hp : operandOf p (ts ++ k) = .ok e k) : binary p (ts ++ k) = .ok e k := by
    rw [binary_eq, hp, Reading.within_eq_andThen (by simp [Reading.ok])]
    simp [Reading.ok, Reading.andThen, Reading.report, operators_of_none (operator?_of_isBorder hk p)]
  induction hn : p.height using Nat.strongRecOn generalizing p with
  | ind n ih =>
  refine step p ?_
  rw [operandOf]
  split
  · next q hq => exact ih _ (hn ▸ Precedence.height_lt_of_tighter? hq) q rfl
  · exact h

theorem spells_string (t : Bytes) (s : Span) : Spells (.string {} t) [⟨.string t, s⟩] :=
  ⟨.string s t, rfl, fun _ hk => binary_of_operand (by rw [List.singleton_append, operand]) hk _⟩

theorem spells_true (s : Span) : Spells (.bool {} true) [⟨.keyword .trueKw, s⟩] :=
  ⟨.bool s true, rfl, fun _ hk => binary_of_operand (by rw [List.singleton_append, operand]) hk _⟩

theorem spells_of_parse? {code : Bytes} {e : Expr} {ts : List Token} (h : Expr.parse? code = some e)
    (hkinds : (TokenStream.scan code).tokens.map (·.kind) = ts.map (·.kind) ++ [TokenKind.eof]) :
    Spells e.unplaced ts := by
  obtain ⟨-, us, t, hus, ht, htermed, hexpr⟩ := TokenStream.expr_of_parse? h
  obtain ⟨hsame, hlike⟩ := like_of_kinds hus hkinds
  have hts : Termed ts := forall_kind (p := fun k => k.isTerm = true) hsame htermed
  obtain ⟨hvalue, herrors, hrest⟩ := similar_expr hlike
  rw [hexpr] at hvalue herrors hrest
  have hclean : (expr (ts ++ [t])).errors = [] := by simpa [Reading.SameErrors, Reading.ok] using herrors
  have ho : Reading.Orderly (expr (ts ++ [t])).errors := by simp [Reading.Orderly, hclean]
  obtain ⟨w, e', es, r, heq, hw, hc⟩ := reads_termed ho
  rw [heq, hc.here] at hvalue hrest hclean
  obtain ⟨rfl, rfl⟩ := hw.flat.balanced.eq_of_eof (fun u hu => hts.flat.balanced.ne_eof hu) ht heq
    (hrest.next_eq.trans ht)
  cases hvalue with
  | some hsame =>
    refine ⟨e', hsame.1, fun k hk => ?_⟩
    have hread := hc.elsewhere (q := []) (k := [t]) rfl (by rw [next_cons, ht]; rfl) hk
    rwa [show es = [] from hclean] at hread

/-- The tokens of the expression `e` and of the semicolon behind it. -/
def Stated (e : Expr) (ts : List Token) : Prop :=
  ∃ us s, ts = us ++ [⟨.punct .semicolon, s⟩] ∧ Spells e us

/-- A stated expression is read with its semicolon. -/
theorem Stated.read {e : Expr} {ts : List Token} (h : Stated e ts) : ∃ e' : Expr, e'.unplaced = e ∧
    ∀ {α : Type} (f : Expr → α) (k : List Token), ((expr (ts ++ k)).andThen fun e ts =>
      (mark .semicolon ts).map fun _ => f e) = .ok (f e') k := by
  obtain ⟨us, s, rfl, e', he', hread⟩ := h
  refine ⟨e', he', fun f k => ?_⟩
  rw [List.append_assoc, List.singleton_append, hread (⟨.punct .semicolon, s⟩ :: k) rfl]
  simp

/-! ## Render operations -/

/-- The tokens are read as the operations `ops`, up to places, in front of anything. -/
def Shows (ops : List RenderOp) (ts : List Token) : Prop :=
  ∃ ops' : List RenderOp, ops'.map RenderOp.unplaced = ops ∧
    ∀ k, renderOps (ts ++ k) = (renderOps k).map (ops' ++ ·)

theorem Shows.nil : Shows [] [] := ⟨[], rfl, fun k => by simp [Reading.map]⟩

theorem Shows.append {ops ops' : List RenderOp} {ts us : List Token} (h : Shows ops ts)
    (h' : Shows ops' us) : Shows (ops ++ ops') (ts ++ us) := by
  obtain ⟨os, rfl, hos⟩ := h
  obtain ⟨os', rfl, hos'⟩ := h'
  refine ⟨os ++ os', by simp, fun k => ?_⟩
  rw [List.append_assoc, hos, hos']
  simp [Reading.map, Function.comp_def]

/-- One operation that is read whole. -/
theorem Shows.single {t : Token} {ts : List Token} (op : RenderOp)
    (ht : ¬ (t.kind = .punct .rbrace ∨ t.kind = .eof)) (h : ∀ k, renderOp t (ts ++ k) = .ok op k) :
    Shows [op.unplaced] (t :: ts) := by
  refine ⟨[op], rfl, fun k => ?_⟩
  rw [List.cons_append, itemReader_renderOps.cons, if_neg ht, h, Reading.recover_ok,
    Reading.onward_ok (by simp) fun rest => _]
  rfl

/-- Operations in front of the brace that closes their block. -/
theorem Shows.renderOps_eq {ops : List RenderOp} {ts : List Token} (h : Shows ops ts) :
    ∃ ops' : List RenderOp, ops'.map RenderOp.unplaced = ops ∧ ∀ s k,
      renderOps (ts ++ ⟨.punct .rbrace, s⟩ :: k) = .ok ops' (⟨.punct .rbrace, s⟩ :: k) := by
  obtain ⟨ops', hops, hread⟩ := h
  refine ⟨ops', hops, fun s k => ?_⟩
  rw [hread, itemReader_renderOps.cons, if_pos (.inl rfl)]
  simp

section

variable {s s' s'' : Span} {t n : Bytes} {e : Expr} {v : List Token}

theorem shows_text :
    Shows [.text {} t] [⟨.keyword .textKw, s⟩, ⟨.string t, s'⟩, ⟨.punct .semicolon, s''⟩] :=
  .single (.text s t) (by simp) fun k => by
    simp [renderOp]

theorem shows_openElement :
    Shows [.openElement {} t] [⟨.keyword .openKw, s⟩, ⟨.string t, s'⟩, ⟨.punct .semicolon, s''⟩] :=
  .single (.openElement s t) (by simp) fun k => by
    simp [renderOp]

theorem shows_closeElement :
    Shows [.closeElement {}] [⟨.keyword .closeKw, s⟩, ⟨.punct .semicolon, s'⟩] :=
  .single (.closeElement s) (by simp) fun k => by
    simp [renderOp]

theorem shows_value (h : Stated e v) : Shows [.value {} e] (⟨.keyword .exprKw, s⟩ :: v) := by
  obtain ⟨e', rfl, hread⟩ := h.read
  refine .single (.value s e') (by simp) fun k => ?_
  simp only [renderOp, hread]

theorem shows_attr (h : Stated e v) :
    Shows [.attr {} n e]
      (⟨.keyword .attrKw, s⟩ :: ⟨.string n, s'⟩ :: ⟨.punct .assign, s''⟩ :: v) := by
  obtain ⟨e', rfl, hread⟩ := h.read
  refine .single (.attr s n e') (by simp) fun k => ?_
  simp [renderOp, hread]

end

/-! ## Components -/

/-- The tokens are read as the arguments `args`, up to places, in front of anything. -/
def Passes (args : List ComponentArg) (ts : List Token) : Prop :=
  ∃ args' : List ComponentArg, args'.map ComponentArg.unplaced = args ∧
    ∀ hasChild k, componentBody hasChild (ts ++ k) =
      (componentBody hasChild k).map fun b => { b with args := args' ++ b.args }

theorem Passes.nil : Passes [] [] := ⟨[], rfl, fun _ _ => by simp [Reading.map]⟩

theorem Passes.append {args args' : List ComponentArg} {ts us : List Token} (h : Passes args ts)
    (h' : Passes args' us) : Passes (args ++ args') (ts ++ us) := by
  obtain ⟨as, rfl, has⟩ := h
  obtain ⟨as', rfl, has'⟩ := h'
  refine ⟨as ++ as', by simp, fun hasChild k => ?_⟩
  rw [List.append_assoc, has, has']
  simp [Reading.map, Function.comp_def]

theorem passes_arg {n : Bytes} {e : Expr} {s s' s'' : Span} {v : List Token} (h : Stated e v) :
    Passes [{ name := n, value := e, span := {} }]
      (⟨.keyword .attrKw, s⟩ :: ⟨.identifier n, s'⟩ :: ⟨.punct .assign, s''⟩ :: v) := by
  obtain ⟨e', rfl, hread⟩ := h.read
  refine ⟨[{ name := n, value := e', span := s }], rfl, fun hasChild k => ?_⟩
  have harg : componentArg s (⟨.identifier n, s'⟩ :: ⟨.punct .assign, s''⟩ :: (v ++ k)) =
      .ok { name := n, value := e', span := s } k := by
    simp [componentArg, hread]
  simp only [List.cons_append]
  rw [componentBody_attr rfl, harg, Reading.recover_ok, Reading.onward_ok (by simp; omega) fun rest => _]
  rfl

/-- The body of a component up to its closing brace. -/
def Fills (args : List ComponentArg) (childSpan : Option Span) (child : List RenderOp)
    (ts : List Token) : Prop :=
  ∃ b : ComponentBody, b.args.map ComponentArg.unplaced = args
    ∧ b.childSpan.map (fun _ => ({} : Span)) = childSpan ∧ b.child.map RenderOp.unplaced = child
    ∧ ∀ s k, componentBody false (ts ++ ⟨.punct .rbrace, s⟩ :: k) = .ok b (⟨.punct .rbrace, s⟩ :: k)

theorem Passes.fills {args : List ComponentArg} {ts : List Token} (h : Passes args ts) :
    Fills args none [] ts := by
  obtain ⟨args', rfl, hread⟩ := h
  refine ⟨{ args := args' }, rfl, rfl, rfl, fun s k => ?_⟩
  rw [hread, componentBody_of_isCloser rfl]
  simp

theorem Passes.fills_child {args : List ComponentArg} {ops : List RenderOp} {ts us : List Token}
    {s p q : Span} (h : Passes args ts) (hops : Shows ops us) :
    Fills args (some {}) ops (ts ++ ⟨.keyword .childKw, s⟩ :: ⟨.punct .lbrace, p⟩ ::
      (us ++ [⟨.punct .rbrace, q⟩])) := by
  obtain ⟨args', rfl, hread⟩ := h
  obtain ⟨ops', rfl, hchild⟩ := hops.renderOps_eq
  refine ⟨{ args := args', childSpan := some s, child := ops' }, rfl, rfl, rfl, fun r k => ?_⟩
  have hblock : childBlock false s (⟨.punct .lbrace, p⟩ :: (us ++ ⟨.punct .rbrace, q⟩ ::
      ⟨.punct .rbrace, r⟩ :: k)) = .ok ops' (⟨.punct .rbrace, r⟩ :: k) := by
    rw [childBlock, renderBlock_cons, closing_eq rfl (hchild q _)]
    exact Reading.andThen_ok _ _ _
  simp only [List.append_assoc, List.cons_append, List.nil_append]
  rw [hread, componentBody_child rfl, hblock, Reading.onward_ok (by simp; omega) fun rest => _,
    componentBody_of_isCloser rfl]
  simp [Reading.ok, Reading.map, ComponentBody.withChild]

theorem shows_component {n : Bytes} {args : List ComponentArg} {childSpan : Option Span}
    {child : List RenderOp} {s p q : Span} {w ts : List Token} (hw : Named n w)
    (h : Fills args childSpan child ts) :
    Shows [.component {} { name := n, span := {} } args childSpan child]
      (⟨.keyword .componentKw, s⟩ :: (w ++ ⟨.punct .lbrace, p⟩ ::
        (ts ++ [⟨.punct .rbrace, q⟩]))) := by
  obtain ⟨b, rfl, rfl, rfl, hbody⟩ := h
  have hread (k : List Token) : renderOp ⟨.keyword .componentKw, s⟩
      ((w ++ ⟨.punct .lbrace, p⟩ :: (ts ++ [⟨.punct .rbrace, q⟩])) ++ k) =
        .ok (.component s { name := n, span := place w } b.args b.childSpan b.child) k := by
    simp only [List.append_assoc, List.cons_append, List.nil_append]
    rw [renderOp_named hw]
    exact closing_eq rfl (hbody q k)
  have hshows := Shows.single _ (by simp) hread
  rwa [RenderOp.unplaced, RenderOp.allUnplaced_eq] at hshows

end Tokens

end ViewCompiler
