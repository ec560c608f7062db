import ViewCompiler.Proofs.MemberConsumption

/-!
A file with a render block behind the members of its last type. `unitItems_append` compares it with
the file without the block: when both are read cleanly they declare the same, up to what the types
render. Nothing is assumed of the tokens in front; that they end among the members of a type follows
from the clean reading of what is closed by a single brace.
-/

namespace ViewCompiler

namespace TypeDecl

/-- A declaration without its render block. -/
def outline (d : TypeDecl) : TypeDecl := { d with render := none }

end TypeDecl

namespace Tokens

open Reading (Orderly)
open TokenKind (isBorder isCloser)

variable {ts : List Token}

/-- What a file declares, without render blocks. -/
def UnitItem.outline : UnitItem → UnitItem
  | .type d => .type d.outline
  | i => i

/-- Render blocks behind the members change what is rendered only. -/
theorem declOf_append (head : TypeDecl) (items : List Member) {more : List Member}
    (h : ∀ m ∈ more, ∃ b, m = .render b) : declOf head (items ++ more) =
      { declOf head items with render := (items ++ more).findSome? Member.render? } := by
  have hd : more.filterMap Member.data? = [] := by
    rw [List.filterMap_eq_nil_iff]
    intro m hm
    obtain ⟨b, rfl⟩ := h m hm
    rfl
  have hm : more.filterMap Member.method? = [] := by
    rw [List.filterMap_eq_nil_iff]
    intro m hm
    obtain ⟨b, rfl⟩ := h m hm
    rfl
  simp only [declOf, List.filterMap_append, hd, hm, List.append_nil]

theorem outline_declOf_append (head : TypeDecl) (items : List Member) {more : List Member}
    (h : ∀ m ∈ more, ∃ b, m = .render b) :
    (declOf head (items ++ more)).outline = (declOf head items).outline := by
  rw [declOf_append head items h]
  rfl

/-! ## Declarations without braces -/

theorem reads_nameStatement : Reads isBorder Inner nameStatement ts :=
  .recover (.andThen joins_inner reads_qualifiedName.of_proper
    fun _ _ _ => (reads_mark rfl).of_proper.map)

theorem reads_unitItem_name {hasNs hasType : Bool} {t : Token}
    (ht : t.kind = .keyword .namespaceKw ∨ t.kind = .keyword .usingKw) :
    Reads isBorder Inner (unitItem hasNs hasType t) ts := by
  rcases ht with ht | ht
  · rw [show unitItem hasNs hasType t = _ from funext fun ts => by simp only [unitItem, ht]; rfl]
    refine .andThen joins_inner reads_nameStatement fun name r _ => ?_
    cases hasNs with
    | true => exact .of_not_orderly fun ho => ho _ (List.mem_singleton.2 rfl) rfl
    | false =>
      cases hasType with
      | true => exact .of_not_orderly fun ho => ho _ (List.mem_singleton.2 rfl) rfl
      | false => exact .constant joins_inner (UnitItem.ns name)
  · rw [show unitItem hasNs hasType t = fun ts => (nameStatement ts).map fun ns =>
      .using { ns, span := t.span } from funext fun ts => by simp only [unitItem, ht]]
    exact reads_nameStatement.map

/-- Whether a token starts a type. -/
def startsType : TokenKind → Bool
  | .punct .lbracket | .keyword .componentKw | .keyword .classKw => true
  | _ => false

theorem unitItem_type {hasNs hasType : Bool} {t : Token} (ht : startsType t.kind = true)
    (ts : List Token) : unitItem hasNs hasType t ts = (typeDecl (t :: ts)).map .type := by
  unfold startsType at ht
  split at ht
  · simp only [unitItem, *]
  · simp only [unitItem, *]
  · simp only [unitItem, *]
  · cases ht

theorem unitItem_other {hasNs hasType : Bool} {t : Token}
    (hn : ¬ (t.kind = .keyword .namespaceKw ∨ t.kind = .keyword .usingKw))
    (ht : startsType t.kind = false) : ¬ Orderly (unitItem hasNs hasType t ts).errors := by
  rw [unitItem]
  split
  · simp_all
  · simp_all
  · simp_all [startsType]
  · simp_all [startsType]
  · simp_all [startsType]
  · exact Reading.not_orderly_expected _ _ _

/-- What is known of namespaces and types behind a declaration that was read. -/
def flagsAfter (hasNs hasType : Bool) : Option UnitItem → Bool × Bool
  | some (.ns _) => (true, hasType)
  | some (.type _) => (hasNs, true)
  | _ => (hasNs, hasType)

theorem unitItems_cons {hasNs hasType : Bool} {t : Token} (ht : t.kind ≠ .eof) (ts : List Token) :
    unitItems hasNs hasType (t :: ts) = (unitItem hasNs hasType t ts).onward ts fun rest _ =>
      (unitItems (flagsAfter hasNs hasType (unitItem hasNs hasType t ts).value).1
        (flagsAfter hasNs hasType (unitItem hasNs hasType t ts).value).2 rest).map
          ((unitItem hasNs hasType t ts).value.toList ++ ·) := by
  rw [unitItems, if_neg ht]
  congr

theorem unitItems_of_eof {hasNs hasType : Bool} {t : Token} (ht : t.kind = .eof) (ts : List Token) :
    unitItems hasNs hasType (t :: ts) = .ok [] (t :: ts) := by
  rw [unitItems, if_pos ht]

/-! ## The render block -/

/-- A balanced render block is read as a whole. -/
theorem renderBlock_append {s : Span} {w rest : List Token} {c : Token} (hw : Balanced w)
    (hc : c.kind = .punct .rbrace)
    (ho : Orderly (renderBlock (⟨.punct .lbrace, s⟩ :: (w ++ c :: rest))).errors) :
    ∃ ops es, renderBlock (⟨.punct .lbrace, s⟩ :: (w ++ c :: rest)) = ⟨some ops, es, rest⟩ := by
  rw [renderBlock_cons] at ho ⊢
  obtain ⟨v, ops, es, t, r, heq, ht, hv, hcons⟩ := reads_closing (reads_render.2.2.2 _) ho
  obtain ⟨rfl, hr⟩ := hv.unique hw (by rw [ht]; rfl) (by rw [hc]; rfl) heq.symm
  cases hr
  have h := hcons.here
  rw [List.append_assoc, List.singleton_append] at h
  exact ⟨_, es, h⟩

/-- Behind the members of a type, a render block and a brace add at most a render block; they add
the one that was read unless there was one before. -/
theorem members_renderBlock {type : Bytes} {hasRender : Bool} {s : Span} {k rest : List Token}
    {ops : List RenderOp} {es : List (Span × SyntaxError)} (hread : renderBlock k = ⟨some ops, es, rest⟩)
    (hlen : rest.length ≤ k.length) (hrest : isCloser (next rest) = true) :
    ∃ more es, (∀ m ∈ more, ∃ b, m = Member.render b) ∧
      members type hasRender (⟨.keyword .renderKw, s⟩ :: k) = ⟨some more, es, rest⟩ ∧
      (es = [] → hasRender = false ∧ ∃ block, more = [Member.render block] ∧
        renderBlock k = ⟨some block.ops, [], rest⟩) := by
  rw [members_cons (by simp)]
  cases hasRender with
  | true =>
    refine ⟨[], es ++ [(s, .secondRender type)], by simp, ?_, by simp⟩
    have hm : member type true ⟨.keyword .renderKw, s⟩ k =
        ⟨none, es ++ [(s, .secondRender type)], rest⟩ := by
      simp [member, hread, Reading.andThen, Reading.report]
    rw [hm, Reading.onward_eq hlen, members_of_isCloser hrest]
    simp [Reading.map, Reading.report, Reading.ok]
  | false =>
    refine ⟨[.render { ops, span := s }], es, by simp, ?_, ?_⟩
    · have hm : member type false ⟨.keyword .renderKw, s⟩ k =
          ⟨some (.render { ops, span := s }), es, rest⟩ := by
        simp [member, hread, Reading.andThen, Reading.report, Reading.ok]
      rw [hm, Reading.onward_eq hlen, members_of_isCloser hrest]
      simp [Reading.map, Reading.report, Reading.ok]
    · rintro rfl
      exact ⟨rfl, _, rfl, hread⟩

theorem members_render {type : Bytes} {hasRender : Bool} {s s' : Span} {w rest : List Token}
    {c : Token} (hw : Balanced w) (hc : c.kind = .punct .rbrace) (hrest : isCloser (next rest) = true)
    (ho : Orderly (renderBlock (⟨.punct .lbrace, s'⟩ :: (w ++ c :: rest))).errors) :
    ∃ more es, (∀ m ∈ more, ∃ b, m = Member.render b) ∧
      members type hasRender (⟨.keyword .renderKw, s⟩ :: ⟨.punct .lbrace, s'⟩ :: (w ++ c :: rest))
        = ⟨some more, es, rest⟩ ∧
      (es = [] → hasRender = false ∧ ∃ block, more = [.render block] ∧
        renderBlock (⟨.punct .lbrace, s'⟩ :: (w ++ c :: rest)) = ⟨some block.ops, [], rest⟩) := by
  obtain ⟨ops, es, hread⟩ := renderBlock_append hw hc ho
  exact members_renderBlock hread (by simp; omega) hrest

/-! ## The whole file -/

/-- The tokens behind the members of a type when a render block is added to them. -/
structure RenderTail (k : List Token) : Prop where
  exists_eq : ∃ (s s' : Span) (w : List Token) (c b e : Token),
    k = ⟨.keyword .renderKw, s⟩ :: ⟨.punct .lbrace, s'⟩ :: (w ++ c :: b :: [e])
      ∧ Balanced w ∧ c.kind = .punct .rbrace ∧ b.kind = .punct .rbrace ∧ e.kind = .eof

theorem RenderTail.isBorder {k : List Token} (h : RenderTail k) :
    TokenKind.isBorder (next k) = true := by
  obtain ⟨s, s', w, c, b, e, rfl, -⟩ := h.exists_eq
  rfl

/-- The type renders what stands behind the keyword in front of `k`. -/
def RendersTail (k : List Token) (d : TypeDecl) : Prop :=
  ∃ block rest, d.render = some block ∧ renderBlock k.tail = ⟨some block.ops, [], rest⟩

theorem render_declOf {head : TypeDecl} {items : List Member} (h : ∀ m ∈ items, m.render? = none)
    (block : RenderBlock) : (declOf head (items ++ [Member.render block])).render = some block := by
  have hitems : items.findSome? Member.render? = none := List.findSome?_eq_none_iff.2 h
  simp [declOf, List.findSome?_append, hitems, Member.render?]

/-- The last type of a file, closed at once and closed behind a render block. -/
theorem TypeIn.typeDecl_render {p k : List Token} {head : TypeDecl} {items : List Member}
    {es : List (Span × SyntaxError)} {again : Bool} (h : TypeIn p head items es again)
    (hk : RenderTail k) (ho : Orderly (typeDecl (p ++ k)).errors) :
    ∃ d es' e, e.kind = .eof ∧ typeDecl (p ++ k) = ⟨some d, es', [e]⟩
      ∧ d.outline = (declOf head items).outline ∧ (es' = [] → RendersTail k d) := by
  rw [h.typeDecl_append k hk.isBorder] at ho ⊢
  obtain ⟨s, s', w, c, b, e, rfl, hw, hc, hb, he⟩ := hk.exists_eq
  have hitems := orderly_of_closing (Reading.orderly_append.1 ho).2
  rw [members_cons (by simp)] at hitems
  obtain ⟨more, es', hmore, hmembers, hblock⟩ := members_render hw hc (by rw [next_cons, hb]; rfl)
    (Reading.orderly_of_andThen (Reading.orderly_append.1 hitems).1)
  refine ⟨declOf head (items ++ more), es ++ es', e, he, ?_, outline_declOf_append head items hmore, ?_⟩
  · rw [closing_eq hb hmembers]
    rfl
  · intro hclean
    obtain ⟨hagain, block, rfl, hread⟩ := hblock (List.append_eq_nil_iff.1 hclean).2
    exact ⟨block, _, render_declOf (h.render? hagain) block, hread⟩

/-- A part without braces ends before the brace that is behind the tokens `p`. -/
theorem Flat.exists_append {p w r : List Token} {b e : Token} (hw : Flat w)
    (hb : b.kind = .punct .rbrace) (h : p ++ [b, e] = w ++ r) :
    ∃ q, p = w ++ q ∧ r = q ++ [b, e] := by
  rcases List.append_eq_append_iff.1 h with ⟨u, rfl, hu⟩ | ⟨u, rfl, hu⟩
  · cases u with
    | nil => exact ⟨[], by simp, hu.symm⟩
    | cons x u =>
      have hx := hw x (by simp)
      rw [← (List.cons.inj hu).1, hb] at hx
      cases hx
  · exact ⟨u, rfl, hu⟩

/-- The declarations of a file go on behind a first one that was read. -/
theorem unitItems_step {hasNs hasType : Bool} {t : Token} {w q k k' : List Token}
    {v : Option UnitItem} {es : List (Span × SyntaxError)} (ht : t.kind ≠ .eof)
    (hc : Consumes isBorder (unitItem hasNs hasType t) w v es (q ++ k))
    (hk : isBorder (next k) = true) (hk' : isBorder (next k') = true) :
    unitItems hasNs hasType (t :: (w ++ (q ++ k'))) =
      ((unitItems (flagsAfter hasNs hasType v).1 (flagsAfter hasNs hasType v).2 (q ++ k')).map
        (v.toList ++ ·)).report es := by
  rw [unitItems_cons ht, hc.elsewhere rfl hk hk', Reading.onward_eq (by simp)]

/-- A file that ends with the declaration of a type. -/
theorem unitItems_last {hasNs hasType : Bool} {t e : Token} {ts : List Token} {d : TypeDecl}
    {es : List (Span × SyntaxError)} (ht : startsType t.kind = true) (he : e.kind = .eof)
    (h : typeDecl (t :: ts) = ⟨some d, es, [e]⟩) (hts : ts ≠ []) :
    (unitItems hasNs hasType (t :: ts)).value = some [.type d]
      ∧ (unitItems hasNs hasType (t :: ts)).errors = es := by
  have hne : t.kind ≠ .eof := by
    intro h
    rw [h] at ht
    cases ht
  have hlen : [e].length ≤ ts.length := List.length_pos_iff.2 hts
  rw [unitItems_cons hne, unitItem_type ht, h, Reading.onward_eq hlen]
  simp [Reading.report, Reading.map, unitItems_of_eof he, Reading.ok]

/-- The reading of a type is the reading of the declaration that it is. -/
theorem Consumes.unitItem {hasNs hasType : Bool} {t : Token} {w r : List Token} {d : TypeDecl}
    {es : List (Span × SyntaxError)} (ht : startsType t.kind = true)
    (h : Consumes isBorder typeDecl (t :: w) (some d) es r) :
    Consumes isBorder (unitItem hasNs hasType t) w (some (.type d)) es r where
  here := by
    have := h.here
    rw [unitItem_type ht, ← List.cons_append, this]
    rfl
  elsewhere hr hk hk' := by
    have := h.elsewhere hr hk hk'
    rw [unitItem_type ht, ← List.cons_append, this]
    rfl

/-- A type ends inside of the tokens `p`, or at the brace behind them. -/
theorem typeDecl_ends {p : List Token} {b e : Token} (he : e.kind = .eof)
    (ho : Orderly (typeDecl (p ++ [b, e])).errors) :
    (∃ w q d es, p = w ++ q ∧ w ≠ [] ∧ Consumes isBorder typeDecl w (some d) es (q ++ [b, e]))
      ∨ ∃ head items es again, TypeIn p head items es again := by
  obtain ⟨w, head, items, es, again, t, r, heq, ht, hin⟩ := exists_typeIn ho
  rcases List.append_eq_append_iff.1 heq with ⟨u, hu, hr⟩ | ⟨u, hu, hr⟩
  · match u, hr with
    | [], _ =>
      obtain rfl : p = w := by simpa using hu.symm
      exact .inr ⟨head, items, es, again, hin⟩
    | [_], hr =>
      cases hr
      rw [he] at ht
      cases ht
    | _ :: _ :: _, hr => simp at hr
  · match u, hr with
    | [], _ =>
      obtain rfl : p = w := by simpa using hu
      exact .inr ⟨head, items, es, again, hin⟩
    | _ :: q, hr =>
      obtain ⟨rfl, rfl⟩ := List.cons.inj hr
      obtain ⟨w', d, es', r', heq', -, hc⟩ := reads_typeDecl ho
      have hr' : r' = q ++ [b, e] := by
        have := hc.here
        rw [← heq', heq, hin.typeDecl_eq ht] at this
        exact (congrArg Reading.rest this).symm
      subst hr'
      have hw' : w' = w ++ [t] := by
        rw [heq, ← List.singleton_append, ← List.append_assoc] at heq'
        exact (List.append_cancel_right heq').symm
      refine .inl ⟨w', q, d, es', ?_, ?_, hc⟩
      · rw [hu, hw']
        simp
      · simp [hw']

/-- Two readings of a file that differ in the last type only, which renders the tail `k` in the
second one if nothing was reported there. -/
def LastDiffers (k : List Token) (r r' : Reading (List UnitItem)) : Prop :=
  ∃ front d d', r.value = some (front ++ [.type d]) ∧ r'.value = some (front ++ [.type d'])
    ∧ d'.outline = d.outline ∧ (r'.errors = [] → RendersTail k d')

theorem LastDiffers.report_map {k : List Token} {r r' : Reading (List UnitItem)}
    (h : LastDiffers k r r') (items : List UnitItem) (es : List (Span × SyntaxError)) :
    LastDiffers k ((r.map (items ++ ·)).report es) ((r'.map (items ++ ·)).report es) := by
  obtain ⟨front, d, d', hr, hr', hd, hk⟩ := h
  refine ⟨items ++ front, d, d', ?_, ?_, hd, fun hclean => hk (List.append_eq_nil_iff.1 hclean).2⟩
  · simp [Reading.report, Reading.map, hr]
  · simp [Reading.report, Reading.map, hr']

/-- A file that is read cleanly with and without a render block behind its last members declares
the same in both cases, up to what its last type renders. -/
theorem unitItems_append {p k : List Token} {b e : Token} (hb : b.kind = .punct .rbrace)
    (he : e.kind = .eof) (hp : ∀ t ∈ p, t.kind ≠ .eof) (hk : RenderTail k) {hasNs hasType : Bool}
    (ho : Orderly (unitItems hasNs hasType (p ++ [b, e])).errors)
    (ho' : Orderly (unitItems hasNs hasType (p ++ k)).errors) :
    LastDiffers k (unitItems hasNs hasType (p ++ [b, e])) (unitItems hasNs hasType (p ++ k)) := by
  have hborder : isBorder (next [b, e]) = true := by
    rw [next_cons, hb]
    rfl
  induction hn : p.length using Nat.strongRecOn generalizing p hasNs hasType with
  | ind n ih =>
  cases p with
  | nil =>
    rw [List.nil_append, unitItems_cons (by simp [hb])] at ho
    refine absurd (Reading.orderly_append.1 ho).1 (unitItem_other ?_ ?_)
    · simp [hb]
    · rw [hb]
      rfl
  | cons t p =>
    have ht : t.kind ≠ .eof := hp t (by simp)
    -- A declaration that ends inside of `p` is read in both files; the rest is shorter.
    have step {w q : List Token} {v es} (heq : p = w ++ q)
        (hc : Consumes isBorder (unitItem hasNs hasType t) w v es (q ++ [b, e])) :
        LastDiffers k (unitItems hasNs hasType (t :: p ++ [b, e]))
          (unitItems hasNs hasType (t :: p ++ k)) := by
      subst heq
      rw [List.cons_append, List.append_assoc, unitItems_step ht hc hborder hborder] at ho ⊢
      rw [List.cons_append, List.append_assoc, unitItems_step ht hc hborder hk.isBorder] at ho' ⊢
      exact (ih q.length (by simp at hn; omega) (fun x hx => hp x (by simp [hx]))
        (Reading.orderly_append.1 ho).2 (Reading.orderly_append.1 ho').2 rfl).report_map _ es
    have hfirst : Orderly (unitItem hasNs hasType t (p ++ [b, e])).errors := by
      rw [List.cons_append, unitItems_cons ht] at ho
      exact (Reading.orderly_append.1 ho).1
    by_cases hname : t.kind = .keyword .namespaceKw ∨ t.kind = .keyword .usingKw
    · obtain ⟨w, i, es, r, heq, hw, hc⟩ := reads_unitItem_name hname hfirst
      obtain ⟨q, hq, rfl⟩ := hw.flat.exists_append hb heq
      exact step hq hc
    by_cases htype : startsType t.kind = true
    · rw [unitItem_type htype] at hfirst
      rcases typeDecl_ends (p := t :: p) he hfirst with ⟨w, q, d, es, hq, hw, hc⟩ | h
      · obtain ⟨x, w, rfl⟩ := List.exists_cons_of_ne_nil hw
        obtain ⟨rfl, hq'⟩ := List.cons.inj hq
        exact step hq' (hc.unitItem htype)
      · obtain ⟨head, items, es, again, hin⟩ := h
        have hlast : Orderly (typeDecl (t :: p ++ k)).errors := by
          rw [List.cons_append, unitItems_cons ht, unitItem_type htype] at ho'
          exact (Reading.orderly_append.1 ho').1
        obtain ⟨d, es', e', he', hread, hd, hrenders⟩ := hin.typeDecl_render hk hlast
        have hne : p ++ k ≠ [] := by
          obtain ⟨s, s', w, c, b, e, rfl, -⟩ := hk.exists_eq
          simp
        obtain ⟨hvalue', herrors'⟩ := unitItems_last htype he' hread hne
        obtain ⟨hvalue, -⟩ := unitItems_last htype he (hin.typeDecl_eq hb) (by simp)
        exact ⟨[], _, d, hvalue, hvalue', hd, fun hclean => hrenders (herrors'.symm.trans hclean)⟩
    · exact absurd hfirst (unitItem_other hname (by simpa using htype))

end Tokens

end ViewCompiler
