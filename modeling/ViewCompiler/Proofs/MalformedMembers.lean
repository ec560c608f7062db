import ViewCompiler.Proofs.MalformedBodies
import ViewCompiler.Proofs.GrammarCompleteness

/-!
Types with a malformed parameter, injected service or field among well-formed members. Whatever
stands between its keyword and its semicolon, it is reported once and left behind the semicolon, so it
costs itself and nothing else (`Tokens.malformed_dataMember`). It is read exactly if the grammar derives
it; for this, derivations are followed over tokens at any places.
-/

namespace ViewCompiler

open Grammar (Word)

namespace Tokens

open TokenKind (isBorder isCloser)

/-! ## Derivable types and expressions -/

theorem exists_qualifiedName {n : Bytes} {w : Word} (h : Grammar.Name n w) {v k : List Token}
    (hv : v.map (·.kind) = w) (hk : next k ≠ .punct .dot) : ∃ m, qualifiedName (v ++ k) = .ok m k := by
  induction h generalizing v with
  | one =>
    obtain ⟨⟨_, s⟩, rfl, rfl⟩ := List.map_eq_singleton_iff.1 hv
    exact ⟨_, by simp [qualifiedName, dotted_of_ne hk]; rfl⟩
  | dotted hm ih =>
    obtain ⟨⟨_, s⟩, u, rfl, rfl, hu⟩ := List.map_eq_cons_iff.1 hv
    obtain ⟨⟨_, s'⟩, u, rfl, rfl, hinner⟩ := List.map_eq_cons_iff.1 hu
    obtain ⟨m', w, rfl⟩ := exists_cons_of_name hm
    obtain ⟨name, hread⟩ := ih hinner
    obtain ⟨⟨_, s''⟩, u, rfl, rfl, -⟩ := List.map_eq_cons_iff.1 hinner
    simp only [List.cons_append, qualifiedName, identifier_cons, Reading.andThen_ok, dotted] at hread ⊢
    injection hread with _ _ hrest
    exact ⟨_, by rw [hrest]⟩

theorem exists_type {n : Bytes} {w : Word} (h : Grammar.TypeName n w) {v k : List Token}
    (hv : v.map (·.kind) = w) (hk : next k ≠ .punct .dot) : ∃ type, Tokens.type (v ++ k) = .ok type k := by
  cases h with
  | builtin hb =>
    obtain ⟨⟨_, s⟩, rfl, rfl⟩ := List.map_eq_singleton_iff.1 hv
    exact ⟨_, by simp [type, hb]; rfl⟩
  | name hn =>
    obtain ⟨name, hread⟩ := exists_qualifiedName hn hv hk
    obtain ⟨m, u, rfl⟩ := exists_cons_of_name hn
    obtain ⟨⟨_, s⟩, v, rfl, rfl, -⟩ := List.map_eq_cons_iff.1 hv
    rw [List.cons_append] at hread ⊢
    exact ⟨_, by simp [type, hread]; rfl⟩

/-- A derivable expression is read, and reading goes on with the operators behind it. -/
theorem exists_level {q : Option Precedence} {e : Expr} {w : Word} (h : Grammar.Term q e w)
    {v k : List Token} (hv : v.map (·.kind) = w) (hk : Stops q k) :
    ∃ e', level q (v ++ k) = goOn q e' k := by
  induction h generalizing v k with
  | int | string | true | false | name =>
    obtain ⟨t, rfl, ht⟩ := List.map_eq_singleton_iff.1 hv
    exact ⟨_, by simp only [level, goOn, operand, List.cons_append, List.nil_append, ht]; rfl⟩
  | not _ ih | neg _ ih =>
    obtain ⟨t, v, rfl, ht, hv⟩ := List.map_eq_cons_iff.1 hv
    obtain ⟨e', hread⟩ := ih hv (.none k)
    simp only [level, goOn] at hread
    exact ⟨_, by simp only [level, goOn, operand, List.cons_append, ht, hread]; rfl⟩
  | paren _ ih =>
    obtain ⟨t, _, rfl, ht, hv⟩ := List.map_eq_cons_iff.1 hv
    obtain ⟨v, u, rfl, hinner, hu⟩ := List.map_eq_append_iff.1 hv
    obtain ⟨r, rfl, hr⟩ := List.map_eq_singleton_iff.1 hu
    have hstop (p : Precedence) : p.operator? (next (r :: k)) = none := by
      rw [next_cons, hr]
      cases p <;> rfl
    obtain ⟨e', hread⟩ := ih hinner (.of_forall (k := r :: k) hstop _)
    simp only [level, goOn, operators_of_none (hstop _)] at hread
    refine ⟨e', ?_⟩
    simp [level, goOn, operand, ht, hread, mark, take, next_cons, hr]
  | tighter _ ih =>
    obtain ⟨e', hread⟩ := ih hv hk.tighter
    rw [goOn_eq_ok hk] at hread
    refine ⟨e', ?_⟩
    rw [level, binary_eq, operandOf_eq, hread, Reading.within_eq_andThen (by simp [Reading.ok]),
      Reading.andThen_ok, goOn]
  | @binary l u r v' s op _ _ ihl ihr =>
    obtain ⟨v₁, v₂, rfl, hv₁, hv⟩ := List.map_eq_append_iff.1 hv
    obtain ⟨⟨_, ts⟩, v₂, rfl, rfl, hv₂⟩ := List.map_eq_cons_iff.1 hv
    obtain ⟨left, hleft⟩ := ihl hv₁ (Stops.mark op ts (v₂ ++ k))
    obtain ⟨right, hright⟩ := ihr hv₂ hk.tighter
    rw [goOn_eq_ok hk] at hright
    have hop : op.precedence.operator? (.punct op.mark) = some op :=
      Precedence.operator?_eq_some.2 ⟨rfl, rfl⟩
    refine ⟨.binary ts op left right, ?_⟩
    rw [List.append_assoc, List.cons_append, hleft]
    change operators _ _ _ = operators _ _ _
    rw [operators_cons hop, operandOf_eq, hright, Reading.within_eq_andThen (by simp [Reading.ok]),
      Reading.andThen_ok]

theorem exists_expr {e : Expr} {w : Word} (h : Grammar.Expression e w) {v k : List Token}
    (hv : v.map (·.kind) = w) (hk : Ends k) : ∃ e', expr (v ++ k) = .ok e' k := by
  obtain ⟨e', hread⟩ := exists_level h hv (.of_forall hk _)
  exact ⟨e', hread.trans (operators_of_none (hk _))⟩

/-- A derivable data member is read. -/
theorem exists_dataMember {kind : MemberKind} {m : Member} {v : List Token}
    (h : Grammar.Member m (.keyword kind.keyword :: v.map (·.kind))) (k : List Token) :
    ∃ d, dataMember kind (v ++ k) = .ok d k := by
  generalize hw : TokenKind.keyword kind.keyword :: v.map (·.kind) = w at h
  cases h with
  | method | render => cases kind <;> cases (List.cons.inj hw).1
  | @data n u init v' p name s kind' hn hi hkind =>
    obtain ⟨hkw, hv⟩ := List.cons.inj hw
    obtain rfl : kind = kind' := by
      cases kind <;> cases kind' <;> first | rfl | cases hkw
    obtain ⟨u', rest, rfl, hu, hname⟩ := List.map_eq_append_iff.1 hv
    obtain ⟨⟨_, s'⟩, rest, rfl, rfl, hrest⟩ := List.map_eq_cons_iff.1 hname
    obtain ⟨v, last, rfl, hinit, hlast⟩ := List.map_eq_append_iff.1 hrest
    obtain ⟨⟨_, s''⟩, rfl, rfl⟩ := List.map_eq_singleton_iff.1 hlast
    obtain ⟨type, htype⟩ := exists_type hn hu
      (k := ⟨.identifier name, s'⟩ :: (v ++ ⟨.punct .semicolon, s''⟩ :: k)) (by simp)
    simp only [List.append_assoc, List.cons_append, List.nil_append, dataMember, htype, Reading.andThen_ok,
      identifier_cons]
    cases hi with
    | none =>
      obtain rfl := List.map_eq_nil_iff.1 hinit
      exact ⟨_, by simp; rfl⟩
    | some he =>
      obtain rfl := hkind rfl
      obtain ⟨⟨_, s₃⟩, v, rfl, rfl, hexpr⟩ := List.map_eq_cons_iff.1 hinit
      obtain ⟨value, hvalue⟩ := exists_expr he hexpr (.semicolon s'' k)
      exact ⟨_, by simp [hvalue]; rfl⟩

/-! ## Data members -/

section
variable {α β : Type} {J rest : List Token} {s : Token}

/-- What is left behind tokens inside of a statement still ends with its semicolon. -/
theorem Leaves.exists_append {us : List Token} (h : Leaves TokenKind.runsOn (J ++ s :: rest) us)
    (hJ : ∀ t ∈ J, t.kind.runsOn = true) (hs : s.kind = .punct .semicolon) :
    ∃ J', us = J' ++ s :: rest ∧ ∀ t ∈ J', t.kind.runsOn = true := by
  obtain ⟨w, heq, hw⟩ := h
  rcases List.append_eq_append_iff.1 heq with ⟨v, rfl, hv⟩ | ⟨v, rfl, rfl⟩
  · cases v with
    | nil => exact ⟨[], hv.symm, by simp⟩
    | cons t v =>
      obtain ⟨rfl, -⟩ := List.cons.inj hv
      have hstop := hw s (by simp)
      rw [hs] at hstop
      cases hstop
  · exact ⟨v, rfl, fun t ht => hJ t (by simp [ht])⟩

theorem synchronize_semicolon (hJ : ∀ t ∈ J, t.kind.runsOn = true) (hs : s.kind = .punct .semicolon) :
    synchronize (J ++ s :: rest) = rest := by
  induction J with
  | nil => simp [synchronize, synchronizeAt, hs]
  | cons t J ih =>
    rw [List.forall_mem_cons] at hJ
    have hstep : synchronize (t :: (J ++ s :: rest)) = synchronize (J ++ s :: rest) := by
      obtain ⟨_, _⟩ := t
      have ht := hJ.1
      rw [synchronize, synchronizeAt.eq_def]
      dsimp only at ht ⊢
      split <;> first | rfl | cases ht
    rw [List.cons_append, hstep, ih hJ.2]

/-- A reading up to the semicolon `s`, or one that reports one error in front of it. -/
inductive Terminated (s : Token) (rest : List Token) : Reading α → Prop
  | read {a : α} : Terminated s rest ⟨some a, [], rest⟩
  | failed {e : Span × SyntaxError} {J : List Token} : (∀ t ∈ J, t.kind.runsOn = true) →
    Terminated s rest ⟨none, [e], J ++ s :: rest⟩

theorem Terminated.semicolon (hJ : ∀ t ∈ J, t.kind.runsOn = true) (hs : s.kind = .punct .semicolon)
    (f : Unit → α) : Terminated s rest ((mark .semicolon (J ++ s :: rest)).map f) := by
  cases J with
  | nil =>
    rw [List.nil_append, mark, take, next_cons, if_pos hs]
    exact .read
  | cons t J =>
    have ht : t.kind ≠ .punct .semicolon := by
      intro ht
      have := hJ t (by simp)
      rw [ht] at this
      cases this
    rw [mark, take, List.cons_append, next_cons, if_neg ht]
    exact .failed (J := t :: J) hJ

theorem Terminated.andThen {r : Reading α} {f : α → List Token → Reading β}
    (hJ : ∀ t ∈ J, t.kind.runsOn = true) (hs : s.kind = .punct .semicolon)
    (h : Single (J ++ s :: rest) r)
    (hf : ∀ a J', (∀ t ∈ J', t.kind.runsOn = true) → Terminated s rest (f a (J' ++ s :: rest))) :
    Terminated s rest (r.andThen f) := by
  cases h with
  | @read a _ hleft =>
    obtain ⟨J', rfl, hJ'⟩ := hleft.exists_append hJ hs
    exact hf a J' hJ'
  | failed hleft =>
    obtain ⟨J', rfl, hJ'⟩ := hleft.exists_append hJ hs
    exact .failed hJ'

theorem terminated_dataMember (kind : MemberKind) (hJ : ∀ t ∈ J, t.kind.runsOn = true)
    (hs : s.kind = .punct .semicolon) : Terminated s rest (dataMember kind (J ++ s :: rest)) := by
  refine .andThen hJ hs (single_type _) fun type J hJ => ?_
  refine .andThen hJ hs (single_identifier (by decide) _) fun name J hJ => ?_
  exact .andThen hJ hs (single_initializer kind _) fun init J hJ => .semicolon hJ hs _

/-- A data member is read if the grammar derives it. Else it is reported once. -/
theorem recover_dataMember (kind : MemberKind) (hJ : ∀ t ∈ J, t.kind.runsOn = true)
    (hs : s.kind = .punct .semicolon) (rest : List Token) :
    (∃ d, Grammar.Member (.data d) (.keyword kind.keyword :: (J ++ [s]).map (·.kind)) ∧
      (dataMember kind (J ++ s :: rest)).recover = ⟨some d, [], rest⟩) ∨
    (∀ m, ¬ Grammar.Member m (.keyword kind.keyword :: (J ++ [s]).map (·.kind))) ∧
      ∃ e, (dataMember kind (J ++ s :: rest)).recover = ⟨none, [e], rest⟩ := by
  have hterminated : Terminated s rest (dataMember kind (J ++ s :: rest)) := terminated_dataMember kind hJ hs
  generalize hr : dataMember kind (J ++ s :: rest) = r at hterminated ⊢
  cases hterminated with
  | @read d =>
    have hderives : Reading.Derives _ (J ++ s :: rest) (dataMember kind (J ++ s :: rest)) := derives_dataMember
    obtain ⟨d', w, rest', hw, hok, hd⟩ := hderives (by rw [hr])
    cases hr.symm.trans hok
    have hpart : w ++ rest = J ++ [s] ++ rest := by simpa using hw.symm
    obtain rfl := List.append_cancel_right hpart
    exact .inl ⟨d, hd, rfl⟩
  | @failed e J' hJ' =>
    refine .inr ⟨fun m hm => ?_, e, ?_⟩
    · obtain ⟨d, hread⟩ := exists_dataMember hm rest
      rw [List.append_assoc, List.singleton_append, hr] at hread
      cases hread
    · rw [Reading.recover]
      simp only [synchronize_semicolon hJ' hs]

end

/-! ## Well-formed members -/

/-- Members that the grammar derives, in tokens of a text. -/
structure WellFormed (w : List Token) : Prop where
  worded : Worded w
  listed : ∃ ms, Grammar.Many Grammar.Member ms (w.map (·.kind))

theorem exists_cons_of_member {m : Member} {w : Word} (h : Grammar.Member m w) :
    ∃ x u, w = x :: u ∧ x.startsMember = true := by
  cases h with
  | @data _ _ _ _ _ _ _ kind => exact ⟨_, _, rfl, by cases kind <;> rfl⟩
  | method | render => exact ⟨_, _, rfl, rfl⟩

/-- What is in front of a border starts with a member, or with the border. -/
theorem WellFormed.isBorder_next {w k : List Token} (h : WellFormed w) (hk : isBorder (next k) = true) :
    isBorder (next (w ++ k)) = true := by
  obtain ⟨ms, hlisted⟩ := h.listed
  cases w with
  | nil => exact hk
  | cons t w =>
    generalize hw : (t :: w).map (·.kind) = word at hlisted
    cases hlisted with
    | nil => cases hw
    | cons hm =>
      obtain ⟨x, u, rfl, hx⟩ := exists_cons_of_member hm
      obtain ⟨rfl, -⟩ := List.cons.inj hw
      exact isBorder_of_startsMember hx

/-- A member is read in order, even if it is a second render block. -/
theorem member_bare_orderly {m : Member} {w : Word} (h : Grammar.Member m w) (type : Bytes)
    (hasRender : Bool) (k : List Token) : ∃ x u v es, w = x :: u ∧ Reading.Orderly es ∧
      member type hasRender ⟨x, {}⟩ (bare u ++ k) = ⟨v, es, k⟩ := by
  by_cases hr : hasRender = true → m.isRender = false
  · obtain ⟨x, u, rfl, -, hread⟩ := member_bare h type hr k
    exact ⟨x, u, _, [], rfl, by simp [Reading.Orderly], hread⟩
  · have hrender : hasRender = true ∧ m.isRender = true := by simpa using hr
    obtain ⟨rfl, hm⟩ := hrender
    cases h with
    | data | method => cases hm
    | render hops =>
      refine ⟨_, _, none, [({}, .secondRender type)], rfl, ?_, ?_⟩
      · rw [Reading.Orderly, List.forall_mem_singleton]
        exact (by decide : ("IL2003" : Bytes) ≠ "IL1001")
      · simp only [member, renderBlock_bare k hops, Reading.andThen_ok, if_true]

theorem orderly_of_sameErrors {es es' : List (Span × SyntaxError)} (h : Reading.SameErrors es es')
    (hes : Reading.Orderly es') : Reading.Orderly es := by
  intro e he
  have hmem : e.2 ∈ es'.map (·.2) := h ▸ List.mem_map_of_mem he
  obtain ⟨e', he', heq⟩ := List.mem_map.1 hmem
  rw [← heq]
  exact hes e' he'

/-- A member that the grammar derives is read in the same way in front of any border. -/
theorem exists_member {m : Member} {t : Token} {u : List Token} (hw : Worded (t :: u))
    (hm : Grammar.Member m ((t :: u).map (·.kind))) (type : Bytes) (hasRender : Bool) :
    ∃ v es, ∀ k, isBorder (next k) = true → member type hasRender t (u ++ k) = ⟨v, es, k⟩ := by
  let e : Token := ⟨.punct .rbrace, {}⟩
  obtain ⟨x, word, v, es, heq, hes, hbare⟩ := member_bare_orderly hm type hasRender [e]
  obtain ⟨rfl, rfl⟩ : t.kind = x ∧ u.map (·.kind) = word := List.cons.inj heq
  have hlike : Like (t :: (u ++ [e])) (⟨t.kind, {}⟩ :: (bare (u.map (·.kind)) ++ [e])) := by
    refine ⟨by simp [bare, Function.comp_def], ?_⟩
    rw [← List.cons_append]
    exact List.forall_mem_append.2 ⟨hw, by simp [e]⟩
  have hsimilar : Reading.Similar SameMember (member type hasRender t (u ++ [e])) _ := similar_member hlike
  rw [hbare] at hsimilar
  obtain ⟨w, v', es', r, hr, -, hc⟩ := takes_member (orderly_of_sameErrors hsimilar.errors hes)
  -- Without the places, all but the brace is read.
  have hlen : r.length = 1 := by
    have hrest := hsimilar.rest.length_eq
    rwa [hr, hc.here] at hrest
  obtain ⟨e', rfl⟩ := List.length_eq_one_iff.1 hlen
  obtain ⟨rfl, rfl⟩ : u = w ∧ e = e' := by simpa using List.append_inj' hr rfl
  exact ⟨v', es', fun k hk => hc.elsewhere (q := []) rfl rfl hk⟩

/-- Well-formed members go on in the same way in front of anything that does not belong to them. -/
theorem WellFormed.exists_membersIn {w : List Token} (h : WellFormed w) (type : Bytes)
    (hasRender : Bool) : ∃ items es again, MembersIn type hasRender w items es again := by
  obtain ⟨ms, hlisted⟩ := h.listed
  generalize hword : w.map (·.kind) = word at hlisted
  induction hlisted generalizing w hasRender with
  | nil =>
    obtain rfl := List.map_eq_nil_iff.1 hword
    exact ⟨[], [], hasRender, .nil type hasRender⟩
  | @cons m u ms v hm hms ih =>
    obtain ⟨u', w', rfl, rfl, rfl⟩ := List.map_eq_append_iff.1 hword
    obtain ⟨hu, hw⟩ := List.forall_mem_append.1 h.worded
    have hrest : WellFormed w' := ⟨hw, ms, hms⟩
    obtain ⟨x, word, hx, hstart⟩ := exists_cons_of_member hm
    obtain ⟨t, u', rfl, rfl, -⟩ := List.map_eq_cons_iff.1 hx
    obtain ⟨v, es, hread⟩ := exists_member hu hm type hasRender
    obtain ⟨items, es', again, hin⟩ := ih hrest (rendersAfter hasRender v) rfl
    have ht : ¬ (t.kind = .punct .rbrace ∨ t.kind = .eof) := by
      rintro (ht | ht) <;> rw [ht] at hstart <;> cases hstart
    refine ⟨v.toList ++ items, es ++ es', again, fun k hk => ?_, ?_⟩
    · rw [List.cons_append, List.cons_append, List.append_assoc, members_cons ht,
        hread _ (hrest.isBorder_next hk), Reading.onward_eq (by simp), hin.members_append k hk]
      simp [Reading.map, Reading.report, Function.comp_def]
    · rw [hin.again_eq, rendersAfter_eq_or, List.any_append, Bool.or_assoc]

/-! ## Files -/

section
variable {t c : Token} {H A J B rest : List Token} {head : TypeDecl} {again : Bool}

/-- A type behind its head and well-formed members. -/
theorem WellFormed.exists_typeIn (hA : WellFormed A) (hH : ∀ ts, typeHead (H ++ ts) = .ok head ts) :
    ∃ items es again, MembersIn head.name false A items es again ∧ TypeIn (H ++ A) head items es again := by
  obtain ⟨items, es, again, hin⟩ := hA.exists_membersIn head.name false
  refine ⟨items, es, again, hin, ?_⟩
  have hhead : Consumes isBorder (fun ts => (typeHead ts).recover) H (some head) [] (A ++ []) :=
    ⟨by rw [hH]; rfl, fun _ _ _ => by rw [hH]; rfl⟩
  simpa using TypeIn.of_membersIn hhead rfl hin

theorem restOfFile_eq {hasNs : Bool} {items items' : List Member} {es es' : List (Span × SyntaxError)}
    (hc : c.kind = .punct .rbrace) : restOfFile hasNs head items es ⟨some items', es', c :: rest⟩ =
      ((unitItems hasNs true rest).map (.type (declOf head (items ++ items')) :: ·)).report (es ++ es') := by
  have hmark : mark .rbrace (c :: rest) = .ok () rest := if_pos hc
  simp [restOfFile, hmark, Reading.ok]

/-- Between two members, any tokens of a data member are read as a member, or reported once. -/
theorem memberAt_dataMember {kind : MemberKind} {s : Token} (type : Bytes) (ht : t.kind = .keyword kind.keyword)
    (hJ : ∀ t ∈ J, t.kind.runsOn = true) (hs : s.kind = .punct .semicolon) (again : Bool)
    (rest : List Token) :
    (∃ d, Grammar.Member (.data d) ((t :: (J ++ [s])).map (·.kind)) ∧
      MemberAt type again (t :: (J ++ [s])) rest (some (.data d)) []) ∨
    (∀ m, ¬ Grammar.Member m ((t :: (J ++ [s])).map (·.kind))) ∧
      ∃ e, MemberAt type again (t :: (J ++ [s])) rest none [e] := by
  have hstart : t.kind.startsMember = true := by
    rw [ht]
    cases kind <;> rfl
  have hmember : member type again t (J ++ [s] ++ rest) =
      (dataMember kind (J ++ s :: rest)).recover.map .data := by
    rw [member, ht, List.append_assoc]
    cases kind <;> rfl
  rw [List.map_cons, ht]
  rcases recover_dataMember kind hJ hs rest with ⟨d, hd, hread⟩ | ⟨hnone, e, hread⟩
  · exact .inl ⟨d, hd, MemberAt.of_member hstart (by rw [hmember, hread]; rfl)⟩
  · exact .inr ⟨hnone, e, MemberAt.of_member hstart (by rw [hmember, hread]; rfl)⟩

theorem declOf_data (head : TypeDecl) (as bs : List Member) (d : DataMember) :
    declOf head (as ++ .data d :: bs) = { declOf head (as ++ bs) with
      members := as.filterMap Member.data? ++ d :: bs.filterMap Member.data? } := by
  have hmethod : Member.method? (.data d) = none := rfl
  have hrender : Member.render? (.data d) = none := rfl
  simp [declOf, Member.data?, hmethod, hrender]

/-- A malformed data member costs exactly itself: between the well-formed members `A` and `B`, what
stands between its keyword and its semicolon adds a data member if the grammar derives one, else it adds
an error, and nothing else in the file changes. -/
theorem malformed_dataMember {hasNs hasType : Bool} {kind : MemberKind} {k s : Token}
    (ht : startsType t.kind = true) (hH : ∀ ts, typeHead (t :: (H ++ ts)) = .ok head ts)
    (hA : WellFormed A) (hB : WellFormed B) (hk : k.kind = .keyword kind.keyword)
    (hJ : ∀ u ∈ J, u.kind.runsOn = true) (hs : s.kind = .punct .semicolon)
    (hc : c.kind = .punct .rbrace) (rest : List Token) :
    ∃ as es again bs es' again', MembersIn head.name false A as es again ∧
      MembersIn head.name again B bs es' again' ∧
      let file (decl : TypeDecl) (errors : List (Span × SyntaxError)) :=
        ((unitItems hasNs true rest).map (.type decl :: ·)).report errors
      let decl := declOf head (as ++ bs)
      let word := (k :: (J ++ [s])).map (·.kind)
      let inserted := unitItems hasNs hasType (t :: (H ++ (A ++ (k :: (J ++ [s]) ++ (B ++ c :: rest)))))
      unitItems hasNs hasType (t :: (H ++ (A ++ (B ++ c :: rest)))) = file decl (es ++ es') ∧
      ((∃ d, Grammar.Member (.data d) word ∧ inserted = file { decl with
          members := as.filterMap Member.data? ++ d :: bs.filterMap Member.data? } (es ++ es')) ∨
        (∀ m, ¬ Grammar.Member m word) ∧ ∃ e, inserted = file decl (es ++ e :: es')) := by
  obtain ⟨as, es, again, hinA, hin⟩ := hA.exists_typeIn (H := t :: H) hH
  obtain ⟨bs, es', again', hinB⟩ := hB.exists_membersIn head.name again
  have hborder : isBorder (next (c :: rest)) = true := by rw [next_cons, hc]; rfl
  have hcloser : isCloser (next (c :: rest)) = true := by rw [next_cons, hc]; rfl
  have hmembers := hinB.members_eq hcloser
  refine ⟨as, es, again, bs, es', again', hinA, hinB, ?_, ?_⟩
  · have hfile : unitItems hasNs hasType _ = _ := hin.unitItems_eq ht (hB.isBorder_next hborder)
    rw [hmembers, restOfFile_eq hc] at hfile
    simpa using hfile
  · rcases memberAt_dataMember head.name hk hJ hs again (B ++ c :: rest) with ⟨d, hd, hat⟩ | ⟨hnone, e, hat⟩
    · refine .inl ⟨d, hd, ?_⟩
      have hfile : unitItems hasNs hasType _ = _ := hat ht rfl hin
      have hagain : rendersAfter again (some (.data d)) = again := rfl
      rw [hagain, hmembers, restOfFile_eq hc] at hfile
      rw [← declOf_data]
      simpa using hfile
    · refine .inr ⟨hnone, e, ?_⟩
      have hfile : unitItems hasNs hasType _ = _ := hat ht rfl hin
      have hagain : rendersAfter again none = again := rfl
      rw [hagain, hmembers, restOfFile_eq hc] at hfile
      simpa using hfile

theorem wellFormed_field {n : Bytes} (hn : n.IsWord) : WellFormed
    (bare [.keyword .fieldKw, .keyword .intKw, .identifier n, .punct .semicolon]) where
  worded t ht m hm := by
    obtain rfl : n = m := by
      simp only [bare_cons, bare_nil, List.mem_cons, List.not_mem_nil, or_false] at ht
      rcases ht with rfl | rfl | rfl | rfl <;> cases hm
      rfl
    exact hn
  listed := by
    have htype : Grammar.TypeName (Keyword.text .intKw) [.keyword .intKw] := .builtin rfl
    have hmember : Grammar.Member (.data ⟨.field, ⟨Keyword.text .intKw, {}⟩, n, none, {}⟩)
        [.keyword .fieldKw, .keyword .intKw, .identifier n, .punct .semicolon] :=
      .data htype .none (by simp)
    exact ⟨[_], .cons hmember .nil⟩

/-- Between the only fields of a type, a parameter that has a type and no name. -/
theorem malformed_dataMember_param :
    let head : TypeDecl := { kind := .component, name := "A", span := {} }
    ∃ as es bs es' e, unitItems false false
        (bare [.keyword .componentKw, .identifier "A", .punct .lbrace] ++
          (bare [.keyword .fieldKw, .keyword .intKw, .identifier "x", .punct .semicolon] ++
            (bare [.keyword .paramKw, .keyword .intKw, .punct .semicolon] ++
              (bare [.keyword .fieldKw, .keyword .intKw, .identifier "y", .punct .semicolon] ++
                bare [.punct .rbrace, .eof])))) =
      ((unitItems false true (bare [.eof])).map (.type (declOf head (as ++ bs)) :: ·)).report
        (es ++ e :: es') := by
  intro head
  have hx : ("x" : Bytes).IsWord := ⟨by decide, by decide⟩
  have hy : ("y" : Bytes).IsWord := ⟨by decide, by decide⟩
  obtain ⟨as, es, -, bs, es', -, -, -, -, ⟨d, hd, -⟩ | ⟨-, e, hfile⟩⟩ :=
    @malformed_dataMember ⟨.keyword .componentKw, {}⟩ ⟨.punct .rbrace, {}⟩
      (bare [.identifier "A", .punct .lbrace]) _ (bare [.keyword .intKw]) _ head false false .param
      ⟨.keyword .paramKw, {}⟩ ⟨.punct .semicolon, {}⟩ rfl (fun _ => rfl) (wellFormed_field hx)
      (wellFormed_field hy) rfl (List.forall_mem_singleton.2 rfl) rfl rfl (bare [.eof])
  · generalize hword : List.map _ _ = word at hd
    cases hd with
    | data htype =>
      have hlen := congrArg List.length hword
      cases htype with
      | builtin => simp at hlen
      | name hname => cases hname <;> simp at hlen
  · exact ⟨as, es, bs, es', e, hfile⟩

end

end Tokens

end ViewCompiler
