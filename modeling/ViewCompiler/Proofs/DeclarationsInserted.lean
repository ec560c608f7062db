import ViewCompiler.Proofs.BlockExtent
import ViewCompiler.Proofs.Previews

/-!
Declarations of files with a render block put in front of their last brace. Members are read on as
they are without the block; where they end, the block is one more of them. So a file with the block
declares what it declares without it, up to what its types render (`Tokens.follows_unitItems`).
-/

namespace ViewCompiler

namespace Tokens

open Reading (Agree)
open TokenKind (isCloser isStop)

/-- The same declaration of a file, before and after it is known what it renders. -/
inductive UnitItem.Preview : UnitItem → UnitItem → Prop where
  | ns (name : Bytes) : Preview (.ns name) (.ns name)
  | using (u : Using) : Preview (.using u) (.using u)
  | type {d d' : TypeDecl} : d.Preview d' → Preview (.type d) (.type d')

/-- The members, and render blocks behind them. -/
def MoreRender (items items' : List Member) : Prop :=
  ∃ more, items' = items ++ more ∧ ∀ m ∈ more, ∃ b, m = Member.render b

theorem MoreRender.refl (items : List Member) : MoreRender items items :=
  ⟨[], (List.append_nil items).symm, by simp⟩

theorem MoreRender.append_left {items items' : List Member} (h : MoreRender items items')
    (first : List Member) : MoreRender (first ++ items) (first ++ items') := by
  obtain ⟨more, rfl, hmore⟩ := h
  exact ⟨more, (List.append_assoc ..).symm, hmore⟩

theorem MoreRender.declOf {items items' : List Member} (h : MoreRender items items')
    (head : TypeDecl) : (declOf head items).Preview (declOf head items') := by
  obtain ⟨more, rfl, hmore⟩ := h
  rw [declOf_append head items hmore, List.findSome?_append]
  cases hrender : items.findSome? Member.render? with
  | some block =>
    rw [Option.some_or, ← hrender]
    exact .same _
  | none =>
    have hsame (render : Option RenderBlock) :
        Tokens.declOf head items = { Tokens.declOf head items with render }.outline := by
      simp [Tokens.declOf, TypeDecl.outline, hrender]
    rw [hsame]
    exact .outline _

section
variable {k : Insert} {t : Token} {ts us : List Token}

/-- Both files go on at the same place, or they differ from here on. -/
theorem Beside.place_eq (h : Beside k ts us) : place ts = place us ∨ Parted k ts us := by
  rcases h.head with ⟨t, ts, us, rfl, rfl, -⟩ | hparted
  · exact .inl rfl
  · exact .inr hparted

theorem Parted.isStop_left (h : Parted k ts us) : isStop (next ts) = true :=
  TokenKind.isStop_of_isCloser h.isCloser_left

theorem identifier_of_isStop {what : Bytes} (h : isStop (next ts) = true) :
    identifier what ts = .expected what ts := by
  rw [identifier]
  split
  · next hn =>
    rw [hn] at h
    cases h
  · rfl

/-! ## Members -/

theorem follows_dataMember {kind : MemberKind} (h : Beside k ts us) :
    Follows k Eq (dataMember kind ts) (dataMember kind us) := by
  refine (follows_type h).bind fun type ts us h => ?_
  rcases h.place_eq with hplace | hparted
  · rw [← hplace]
    refine (follows_identifier h).bind fun name ts us h => ?_
    refine Follows.bind ?_ fun init ts us h => (follows_mark rfl h).mapEq _
    by_cases hkind : kind = .field
    · simp only [hkind, true_and]
      exact .ite_next rfl h (fun h => (follows_expr h).mapEq _) (.ok rfl h)
    · simp only [hkind, false_and, if_false]
      exact .ok rfl h
  · rw [identifier_of_isStop hparted.isStop_left, identifier_of_isStop hparted.isStop_right]
    exact .expected h

theorem follows_parameter (h : Beside k ts us) : Follows k Eq (parameter ts) (parameter us) := by
  rw [parameter, parameter]
  rcases h.place_eq with hplace | hparted
  · rw [← hplace]
    exact (follows_type h).bind fun type ts us h => (follows_identifier h).mapEq _
  · rw [type_of_isStop hparted.isStop_left, type_of_isStop hparted.isStop_right]
    exact .expected h

theorem follows_parameters (h : Beside k ts us) : Follows k Eq (parameters ts) (parameters us) := by
  induction ts using parameters.induct generalizing us with
  | case1 ts ih =>
    rw [parameters_eq, parameters_eq]
    refine .bindWithin h (follows_parameter h) fun p ts' us' hlen h' => ?_
    by_cases hn : next ts' = .punct .comma
    · obtain ⟨s, ts', rfl⟩ := exists_cons_of_next hn (by simp)
      obtain ⟨us', rfl, htail⟩ := h'.cons_left rfl
      exact (ih s ts' hlen htail).mapEq _
    · rw [moreParameters_of_next hn, moreParameters_of_next fun hn' => hn ((h'.next_eq_iff rfl).2 hn')]
      exact .ok rfl h'

theorem follows_methodHead (h : Beside k ts us) : Follows k Eq (methodHead ts) (methodHead us) := by
  refine (follows_identifier h).bind fun name ts us h => ?_
  refine (follows_mark rfl h).bind fun _ ts us h => ?_
  refine Follows.bind (.ite_next rfl h (fun _ => .ok rfl h) (follows_parameters h)) fun ps ts us h => ?_
  exact (follows_mark rfl h).mapEq _

theorem follows_method (h : Beside k ts us) : Follows k Eq (method ts) (method us) := by
  rw [method, method]
  rcases h.place_eq with hplace | hparted
  · rw [← hplace]
    refine Follows.bind (follows_methodHead h).recover ?_
    rintro ⟨name, ps⟩ ts us h
    exact ((follows_statements k).2.1 ts us h).mapEq _
  · have hhead {ts : List Token} (h : isStop (next ts) = true) :
        methodHead ts = .expected "method name" ts := by
      rw [methodHead, identifier_of_isStop h]
      rfl
    rw [hhead hparted.isStop_left, hhead hparted.isStop_right]
    exact Agree.recover (Follows.expected h)

theorem follows_member {type : Bytes} {hasRender : Bool} (h : Beside k (t :: ts) (t :: us))
    (htail : Beside k ts us) :
    Follows k Eq (member type hasRender t ts) (member type hasRender t us) := by
  have hdata (kind : MemberKind) : Follows k Eq
      ((dataMember kind ts).recover.map Member.data) ((dataMember kind us).recover.map Member.data) :=
    Follows.mapEq (follows_dataMember htail).recover Member.data
  rw [member, member]
  split
  · exact hdata _
  · exact hdata _
  · exact hdata _
  · exact (follows_method htail).mapEq _
  · refine ((follows_render k).2.2.1 ts us htail).bind fun ops ts us h => ?_
    exact .ite (fun _ => Follows.error h) fun _ => .ok rfl h
  · refine .error ?_
    split
    · next hbrace =>
      rw [skipBlock, skipBlock, Tokens.skipBlockAt, Tokens.skipBlockAt, hbrace]
      exact htail.skipBlockAt 0
    · exact h.synchronizeAt 0

/-- Behind the members, the block is read as one more of them. -/
theorem members_tokens (type : Bytes) (hasRender : Bool) (k : Insert) : ∃ more es b e,
    (∀ m ∈ more, ∃ b, m = Member.render b) ∧ b.kind = .punct .rbrace ∧ e.kind = .eof
      ∧ members type hasRender k.tokens = ⟨some more, es, [b, e]⟩ := by
  obtain ⟨s, s', w, c, b, e, heq, hw, hc, hb, he⟩ := k.renderTail.exists_eq
  have hcloser : isCloser (next [b, e]) = true := by rw [next_cons, hb]; rfl
  obtain ⟨ops, es, hread⟩ := @renderBlock_extent s' w [b, e] c hw hc
  obtain ⟨more, es', hmore, hmembers, -⟩ :=
    @members_renderBlock type hasRender s _ _ _ _ hread (by simp) hcloser
  rw [heq]
  exact ⟨more, es', b, e, hmore, hb, he, hmembers⟩

theorem follows_members {type : Bytes} {hasRender : Bool} (h : Beside k ts us) :
    Follows k MoreRender (members type hasRender ts) (members type hasRender us) := by
  induction hn : ts.length using Nat.strongRecOn generalizing ts us hasRender with
  | ind n ih =>
  rcases h.head with ⟨t, ts, us, rfl, rfl, htail⟩ | hparted
  · by_cases ht : t.kind = .punct .rbrace ∨ t.kind = .eof
    · have hcloser (ts : List Token) : isCloser (next (t :: ts)) = true := by
        rcases ht with ht | ht <;> rw [next_cons, ht] <;> rfl
      rw [members_of_isCloser (hcloser ts), members_of_isCloser (hcloser us)]
      exact .ok (.refl []) h
    rw [members_cons ht, members_cons ht]
    have hfirst : Follows k Eq (member type hasRender t ts) (member type hasRender t us) :=
      follows_member h htail
    refine .onward htail hfirst fun ts' us' hlen h' => ?_
    rw [← hfirst.value_eq]
    exact (ih ts'.length (by simp at hn; omega) h' rfl).map fun _ _ hrest => hrest.append_left _
  · rw [members_of_isCloser hparted.isCloser_left]
    cases hparted with
    | block hb he =>
      obtain ⟨more, es, b', e', hmore, hb', he', hmembers⟩ := members_tokens type hasRender k
      rw [hmembers]
      exact ⟨.some ⟨more, rfl, hmore⟩, .nil_left _, .brace hb he hb' he'⟩
    | brace hb he hb' he' =>
      rw [members_of_isCloser (by rw [next_cons, hb']; rfl)]
      exact .ok (.refl []) h
    | ended he he' =>
      rw [members_of_isCloser (by rw [next_cons, he']; rfl)]
      exact .ok (.refl []) h

theorem isCloser_next_members {type : Bytes} (hasRender : Bool) (ts : List Token) :
    isCloser (next (members type hasRender ts).rest) = true := by
  induction hn : ts.length using Nat.strongRecOn generalizing hasRender ts with
  | ind n ih =>
  by_cases hcloser : isCloser (next ts) = true
  · rw [members_of_isCloser hcloser]
    exact hcloser
  cases ts with
  | nil => exact absurd rfl hcloser
  | cons t ts =>
    have ht : ¬ (t.kind = .punct .rbrace ∨ t.kind = .eof) := by
      rintro (ht | ht) <;> exact hcloser (by rw [next_cons, ht]; rfl)
    rw [members_cons ht]
    have hlen := length_clip_le ts (member type hasRender t ts).rest
    exact ih _ (by simp at hn; omega) _ _ rfl

/-! ## Types -/

theorem follows_routePart (h : Beside k ts us) : Follows k Eq (routePart ts) (routePart us) := by
  refine .ite_next rfl h (fun h => ?_) (.ok rfl h)
  refine (follows_take rfl h).bind fun _ ts us h => ?_
  exact (follows_literal h).bind fun route ts us h => (follows_mark rfl h).mapEq _

theorem typeKind_of_isStop (h : isStop (next ts) = true) :
    typeKind ts = .expected "'component' or 'class'" ts := by
  rw [typeKind]
  split
  · next hn =>
    rw [hn] at h
    cases h
  · next hn =>
    rw [hn] at h
    cases h
  · rfl

theorem follows_typeKind (h : Beside k ts us) : Follows k Eq (typeKind ts) (typeKind us) := by
  refine .first "'component' or 'class'" h (fun ts => typeKind_of_isStop) fun t ts us h h' => ?_
  rw [typeKind, typeKind, next_cons, next_cons]
  split
  · exact .ok rfl h
  · exact .ok rfl h
  · exact .expected h'

theorem follows_typeHead (h : Beside k ts us) : Follows k Eq (typeHead ts) (typeHead us) := by
  refine (follows_routePart h).bind fun route ts us h => ?_
  rcases h.place_eq with hplace | hparted
  · rw [← hplace]
    refine (follows_typeKind h).bind fun kind ts us h => ?_
    refine (follows_identifier h).bind fun name ts us h => ?_
    refine Follows.bind (.ite_next rfl h (fun h => (follows_type h).mapEq _) (.ok rfl h))
      fun base ts us h => ?_
    exact (follows_mark rfl h).mapEq _
  · rw [typeKind_of_isStop hparted.isStop_left, typeKind_of_isStop hparted.isStop_right]
    exact .expected h

theorem follows_typeDecl (h : Beside k ts us) :
    Follows k TypeDecl.Preview (typeDecl ts) (typeDecl us) := by
  rw [typeDecl_eq, typeDecl_eq]
  refine Follows.bind (follows_typeHead h).recover fun head ts us h => ?_
  exact follows_closing (isCloser_next_members false us) (follows_members h)
    fun _ _ hitems => hitems.declOf head

/-! ## Files -/

theorem follows_nameStatement (h : Beside k ts us) :
    Follows k Eq (nameStatement ts) (nameStatement us) :=
  Agree.recover ((follows_qualifiedName h).bind fun _ _ _ h => (follows_mark rfl h).mapEq _)

theorem skipToDeclaration_eof {e : Token} (he : e.kind = .eof) : skipToDeclaration [e] = [e] := by
  rw [skipToDeclaration, he]

theorem skipToDeclaration_rbrace {b e : Token} (hb : b.kind = .punct .rbrace) (he : e.kind = .eof) :
    skipToDeclaration [b, e] = [e] := by
  rw [skipToDeclaration, hb]
  exact skipToDeclaration_eof he

/-- No declaration starts in the block. -/
theorem Insert.exists_skipToDeclaration (k : Insert) : ∃ s r e, k.tokens = ⟨.keyword .renderKw, s⟩ :: r
    ∧ skipToDeclaration r = [e] ∧ e.kind = .eof := by
  obtain ⟨s, s', w, c, b, e, heq, hw, hc, hb, he⟩ := k.renderTail.exists_eq
  have hskip : skipBlock (⟨.punct .lbrace, s'⟩ :: (w ++ c :: [b, e])) = [b, e] := by
    refine (skipBlockAt_nest (hw 0) _).trans ?_
    simp [skipBlockAt, hc]
  have hclip : clip (w ++ c :: [b, e]) [b, e] = [b, e] := clip_eq (by simp)
  refine ⟨s, _, e, heq, ?_, he⟩
  rw [skipToDeclaration, hskip, hclip, skipToDeclaration_rbrace hb he]

theorem Parted.skipToDeclaration (h : Parted k ts us) :
    Beside k (skipToDeclaration ts) (Tokens.skipToDeclaration us) := by
  cases h with
  | block hb he =>
    obtain ⟨s, r, e', heq, hr, he'⟩ := k.exists_skipToDeclaration
    rw [heq, skipToDeclaration_rbrace hb he, Tokens.skipToDeclaration, hr]
    exact .ended he he'
  | brace hb he hb' he' =>
    rw [skipToDeclaration_rbrace hb he, skipToDeclaration_rbrace hb' he']
    exact .ended he he'
  | ended he he' =>
    rw [skipToDeclaration_eof he, skipToDeclaration_eof he']
    exact .ended he he'

theorem Beside.skipToDeclaration (h : Beside k ts us) :
    Beside k (skipToDeclaration ts) (Tokens.skipToDeclaration us) := by
  induction ts using skipToDeclaration.induct generalizing us with
  | case1 => exact absurd h not_nil_left
  | case2 | case3 | case4 | case5 | case6 | case7 =>
    rcases h.head with ⟨t, ts, us, heq, rfl, -⟩ | hparted
    · cases heq
      simp only [Tokens.skipToDeclaration, *]
    · exact hparted.skipToDeclaration
  | case8 t ts ht ih =>
    obtain ⟨us, rfl, htail⟩ := h.cons_left (by rw [ht]; rfl)
    simp only [Tokens.skipToDeclaration, ht]
    refine ih (Beside.clip ?_ htail)
    rw [skipBlock, skipBlock, Tokens.skipBlockAt, Tokens.skipBlockAt, ht]
    exact htail.skipBlockAt 0
  | case9 t ts h₁ h₂ h₃ h₄ h₅ h₆ h₇ ih =>
    rcases h.head with ⟨t, ts, us, heq, rfl, htail⟩ | hparted
    · cases heq
      rw [Tokens.skipToDeclaration, Tokens.skipToDeclaration]
      split <;> first | contradiction | exact ih htail
    · exact hparted.skipToDeclaration

theorem follows_unitItem {hasNs hasType : Bool} (h : Beside k (t :: ts) (t :: us))
    (htail : Beside k ts us) :
    Follows k UnitItem.Preview (unitItem hasNs hasType t ts) (unitItem hasNs hasType t us) := by
  have htype : Follows k UnitItem.Preview ((typeDecl (t :: ts)).map .type)
      ((typeDecl (t :: us)).map .type) := (follows_typeDecl h).map fun _ _ hd => .type hd
  rw [unitItem, unitItem]
  split
  · refine (follows_nameStatement htail).bind fun name ts us h => ?_
    exact ⟨.some (.ns name), .refl _, h⟩
  · exact (follows_nameStatement htail).map fun _ _ hname => by rw [hname]; exact .using _
  · exact htype
  · exact htype
  · exact htype
  · exact .error htail.skipToDeclaration

theorem flagsAfter_preview {hasNs hasType : Bool} {o o' : Option UnitItem}
    (h : Option.Rel UnitItem.Preview o o') : flagsAfter hasNs hasType o = flagsAfter hasNs hasType o' := by
  cases h with
  | none => rfl
  | some hi => cases hi <;> rfl

/-- No declaration starts with the token, and none comes behind it. -/
theorem unitItems_other {hasNs hasType : Bool} {e : Token}
    (ht : t.kind = .punct .rbrace ∨ t.kind = .keyword .renderKw) (he : e.kind = .eof)
    (hts : skipToDeclaration ts = [e]) : unitItems hasNs hasType (t :: ts) =
      ⟨some [], [(t.span, .expected "type declaration" t.kind)], [e]⟩ := by
  have hlen : [e].length ≤ ts.length := by
    cases ts with
    | nil => simp [skipToDeclaration] at hts
    | cons => simp
  have hitem : unitItem hasNs hasType t ts =
      ⟨none, [(t.span, .expected "type declaration" t.kind)], [e]⟩ := by
    rcases ht with ht | ht <;> simp only [unitItem, ht, hts]
  have hne : t.kind ≠ .eof := by
    rcases ht with ht | ht <;> simp [ht]
  rw [unitItems_cons hne, hitem, Reading.onward_eq hlen, unitItems_of_eof he]
  rfl

/-- Where a declaration is expected, neither the block nor the end of a type is one. -/
theorem Parted.follows_unitItems {hasNs hasType : Bool} (h : Parted k ts us) :
    Follows k (List.Forall₂ UnitItem.Preview) (unitItems hasNs hasType ts)
      (unitItems hasNs hasType us) := by
  cases h with
  | block hb he =>
    obtain ⟨s, r, e', heq, hr, he'⟩ := k.exists_skipToDeclaration
    rw [heq, unitItems_other (.inl hb) he (skipToDeclaration_eof he), unitItems_other (.inr rfl) he' hr]
    exact ⟨.some .nil, .expected, .ended he he'⟩
  | brace hb he hb' he' =>
    rw [unitItems_other (.inl hb) he (skipToDeclaration_eof he),
      unitItems_other (.inl hb') he' (skipToDeclaration_eof he')]
    exact ⟨.some .nil, .expected, .ended he he'⟩
  | ended he he' =>
    rw [unitItems_of_eof he, unitItems_of_eof he']
    exact .ok .nil (.ended he he')

/-- With the block, a file declares the same up to what its types render, and what is reported
without it is reported. -/
theorem follows_unitItems {hasNs hasType : Bool} (h : Beside k ts us) :
    Follows k (List.Forall₂ UnitItem.Preview) (unitItems hasNs hasType ts)
      (unitItems hasNs hasType us) := by
  induction hn : ts.length using Nat.strongRecOn generalizing ts us hasNs hasType with
  | ind n ih =>
  rcases h.head with ⟨t, ts, us, rfl, rfl, htail⟩ | hparted
  · by_cases ht : t.kind = .eof
    · rw [unitItems_of_eof ht, unitItems_of_eof ht]
      exact .ok .nil h
    rw [unitItems_cons ht, unitItems_cons ht]
    have hfirst : Follows k UnitItem.Preview (unitItem hasNs hasType t ts) (unitItem hasNs hasType t us) :=
      follows_unitItem h htail
    refine .onward htail hfirst fun ts' us' hlen h' => ?_
    rw [← flagsAfter_preview hfirst.value]
    refine (ih ts'.length (by simp at hn; omega) h' rfl).map fun is js hrest => ?_
    exact List.rel_append (forall₂_toList hfirst.value) hrest
  · exact hparted.follows_unitItems

end

end Tokens

end ViewCompiler
