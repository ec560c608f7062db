import ViewCompiler.Proofs.BlockConsumption

/-!
Clean readings of members and types. `MembersIn` says how a type's members go on when something else
stands behind those that were read, and `TypeIn` the same of a whole type without its closing brace,
so that a type whose body is continued can be compared with the type as it was.
-/

namespace ViewCompiler

namespace Tokens

open Reading (Orderly)
open TokenKind (isBorder isCloser)

variable {ts : List Token}

/-! ## Members -/

theorem Reads.constant {α : Type} {border : TokenKind → Bool} {W : List Token → Prop} (hj : Joins W)
    (a : α) : Reads border W (Reading.ok a) ts :=
  .nothing (P := fun _ => True) hj trivial (fun _ _ => trivial) fun _ _ => rfl

theorem reads_dataMember {kind : MemberKind} : Reads isBorder Inner (dataMember kind) ts := by
  have init {ts : List Token} : Reads isBorder Inner
      (fun ts => if kind = .field ∧ next ts = .punct .assign then (expr ts.tail).map some
        else .ok none ts) ts := by
    by_cases hk : kind = .field
    · simp only [hk, true_and]
      exact .ite_next (f := fun ts => (expr ts).map some) joins_inner .single rfl rfl reads_expr.map
        (.constant joins_inner none)
    · simp only [hk, false_and, if_false]
      exact .constant joins_inner none
  refine .andThen joins_inner reads_type.of_proper fun type _ _ => .of_proper ?_
  refine .placed (f := fun span ts => (identifier "member name" ts).andThen fun name ts =>
    Reading.andThen (if kind = .field ∧ next ts = .punct .assign then (expr ts.tail).map some
      else .ok none ts) fun init ts => (mark .semicolon ts).map fun _ =>
        ({ kind, type, name, init, span } : DataMember)) fun span => ?_
  refine .andThen_of joins_inner.proper_append reads_identifier fun name _ _ => ?_
  exact .andThen joins_inner init fun init _ _ => (reads_mark rfl).of_proper.map

theorem reads_parameter : Reads isBorder (Proper Inner) parameter ts := by
  refine .placed (f := fun span ts => (type ts).andThen fun type ts =>
    (identifier "parameter name" ts).map fun name => ({ type, name, span } : Parameter)) fun span => ?_
  exact .andThen_of joins_inner.proper_append reads_type fun _ _ _ => reads_identifier.of_proper.map

/-- The parameters behind the first one. -/
def moreParameters (p : Parameter) : List Token → Reading (List Parameter)
  | ⟨.punct .comma, _⟩ :: rest => (parameters rest).map (p :: ·)
  | rest => .ok [p] rest

theorem parameters_eq (ts : List Token) :
    parameters ts = (parameter ts).within ts fun p rest _ => moreParameters p rest := by
  rw [parameters]
  congr
  funext p rest _
  fun_cases moreParameters p rest with
  | case1 => rfl
  | case2 rest h =>
    split
    · exact (h _ _ rfl).elim
    · rfl

theorem reads_parameters : Reads isBorder Inner parameters ts := by
  induction ts using parameters.induct with
  | case1 ts ih =>
    rw [show parameters = _ from funext parameters_eq]
    refine .within joins_inner reads_parameter.of_proper fun p r hr => ?_
    by_cases hn : next r = .punct .comma
    · obtain ⟨s, r, rfl⟩ := exists_cons_of_next hn (by simp)
      exact .of_proper (.cons joins_inner (.single rfl) (fun _ => rfl) (ih s r hr).map)
    · refine .nothing (a := [p]) (P := fun k => k ≠ .punct .comma) joins_inner hn ?_ ?_
      · rintro _ hk rfl
        cases hk
      · intro ts h
        exact moreParameters.eq_2 _ _ fun _ _ heq => h (heq ▸ rfl)

theorem reads_methodHead : Reads isBorder (Proper Inner) methodHead ts := by
  have params {ts : List Token} : Reads isBorder Inner
      (fun ts => if next ts = .punct .rparen then .ok [] ts else parameters ts) ts :=
    .ite_peek joins_inner rfl reads_parameters
  refine .andThen_of joins_inner.proper_append reads_identifier fun name _ _ => ?_
  refine .andThen joins_inner (reads_mark rfl).of_proper fun _ _ _ => ?_
  refine .andThen joins_inner params fun params _ _ => ?_
  exact (reads_mark rfl).of_proper.map

theorem reads_method : Reads isBorder (Proper Enclosed) method ts := by
  refine .placed (f := fun span ts => (methodHead ts).recover.andThen fun head ts =>
    (block ts).map fun body => ({ name := head.1, params := head.2, body, span } : MethodDecl))
    fun span => ?_
  exact .andThen_of joins_enclosed.proper_append reads_methodHead.recover.proper_enclosed
    fun _ _ _ => (reads_block (reads_statements.2.2.1 _)).of_proper.map

theorem takes_member {type : Bytes} {hasRender : Bool} {t : Token} :
    Takes isBorder Enclosed (member type hasRender t) ts := by
  have data (kind : MemberKind) (h : member type hasRender t = fun ts =>
      (dataMember kind ts).recover.map .data) : Takes isBorder Enclosed (member type hasRender t) ts := by
    rw [h]
    exact reads_dataMember.recover.enclosed.map.takes
  by_cases hp : t.kind = .keyword .paramKw
  · exact data .param (funext fun ts => by simp only [member, hp])
  by_cases hi : t.kind = .keyword .injectKw
  · exact data .inject (funext fun ts => by simp only [member, hi])
  by_cases hf : t.kind = .keyword .fieldKw
  · exact data .field (funext fun ts => by simp only [member, hf])
  by_cases hm : t.kind = .keyword .methodKw
  · rw [show member type hasRender t = fun ts => (method ts).map .method from
      funext fun ts => by simp only [member, hm]]
    exact reads_method.of_proper.map.takes
  by_cases hr : t.kind = .keyword .renderKw
  · rw [show member type hasRender t = _ from funext fun ts => by simp only [member, hr]; rfl]
    exact takes_first (reads_renderBlock_of (reads_render.2.2.2 _)).of_proper
  intro ho
  rw [member] at ho
  split at ho <;> first | contradiction | exact absurd ho (Reading.not_orderly_expected _ _ _)

namespace Member

def data? : Member → Option DataMember
  | data m => some m
  | _ => none

def method? : Member → Option MethodDecl
  | method m => some m
  | _ => none

def render? : Member → Option RenderBlock
  | render b => some b
  | _ => none

end Member

/-- What `hasRender` says behind a member that was read. -/
def rendersAfter (hasRender : Bool) : Option Member → Bool
  | some (.render _) => true
  | _ => hasRender

theorem members_cons {type : Bytes} {hasRender : Bool} {t : Token}
    (ht : ¬ (t.kind = .punct .rbrace ∨ t.kind = .eof)) (ts : List Token) :
    members type hasRender (t :: ts) = (member type hasRender t ts).onward ts fun rest _ =>
      (members type (rendersAfter hasRender (member type hasRender t ts).value) rest).map
        ((member type hasRender t ts).value.toList ++ ·) := by
  rw [members, if_neg ht]
  congr

theorem members_of_isCloser {type : Bytes} {hasRender : Bool} (h : isCloser (next ts) = true) :
    members type hasRender ts = .ok [] ts := by
  cases ts with
  | nil => rw [members]
  | cons t ts =>
    rw [next_cons] at h
    rw [members, if_pos (eq_of_isCloser h)]

theorem member_of_lbrace {type : Bytes} {hasRender : Bool} {t : Token}
    (ht : t.kind = .punct .lbrace) : ¬ Orderly (member type hasRender t ts).errors := by
  simp only [member, ht]
  exact Reading.not_orderly_expected _ _ _

/-- Whether a member is a render block. -/
def Member.isRender (m : Member) : Bool := m.render?.isSome

theorem rendersAfter_eq_or (hasRender : Bool) (v : Option Member) :
    rendersAfter hasRender v = (hasRender || v.toList.any Member.isRender) := by
  match v with
  | none => simp [rendersAfter]
  | some (.data _) | some (.method _) => simp [rendersAfter, Member.isRender, Member.render?]
  | some (.render _) => simp [rendersAfter, Member.isRender, Member.render?]

/-- The members `w` are read as `items` in front of any border, and then `again` says whether one
of them was a render block. -/
structure MembersIn (type : Bytes) (hasRender : Bool) (w : List Token) (items : List Member)
    (es : List (Span × SyntaxError)) (again : Bool) : Prop where
  members_append : ∀ k, isBorder (next k) = true → members type hasRender (w ++ k) =
    ((members type again k).map (items ++ ·)).report es
  again_eq : again = (hasRender || items.any Member.isRender)

theorem MembersIn.render? {type : Bytes} {hasRender again : Bool} {w : List Token}
    {items : List Member} {es : List (Span × SyntaxError)}
    (h : MembersIn type hasRender w items es again) (hagain : again = false) :
    hasRender = false ∧ ∀ m ∈ items, m.render? = none := by
  have heq := h.again_eq
  rw [hagain, eq_comm, Bool.or_eq_false_iff, List.any_eq_false] at heq
  exact ⟨heq.1, fun m hm => by simpa [Member.isRender] using heq.2 m hm⟩

theorem MembersIn.nil (type : Bytes) (hasRender : Bool) :
    MembersIn type hasRender [] [] [] hasRender where
  members_append k _ := by simp [Reading.map, Reading.report]
  again_eq := by simp

theorem MembersIn.cons {type : Bytes} {hasRender again : Bool} {t : Token} {w w' r : List Token}
    {v : Option Member} {items : List Member} {es es' : List (Span × SyntaxError)}
    (ht : ¬ (t.kind = .punct .rbrace ∨ t.kind = .eof))
    (hc : Consumes isBorder (member type hasRender t) w v es (w' ++ r))
    (hr : isBorder (next r) = true)
    (h : MembersIn type (rendersAfter hasRender v) w' items es' again) :
    MembersIn type hasRender (t :: (w ++ w')) (v.toList ++ items) (es ++ es') again where
  members_append k hk := by
    have hm := hc.elsewhere rfl hr hk
    rw [List.cons_append, List.append_assoc, members_cons ht, hm, Reading.onward_eq (by simp)]
    simp [h.members_append k hk, Reading.map, Reading.report, Function.comp_def]
  again_eq := by rw [h.again_eq, rendersAfter_eq_or, List.any_append, Bool.or_assoc]

/-- A clean reading of members goes on in the same way in front of anything else. -/
theorem exists_membersIn {type : Bytes} {hasRender : Bool}
    (ho : Orderly (members type hasRender ts).errors) :
    ∃ w items es again r, ts = w ++ r ∧ Balanced w ∧ isCloser (next r) = true ∧
      MembersIn type hasRender w items es again := by
  induction hasRender, ts using members.induct type with
  | case1 hasRender => exact ⟨[], [], [], hasRender, [], rfl, joins_balanced.nil, rfl, .nil _ _⟩
  | case2 hasRender t tail ht =>
    refine ⟨[], [], [], hasRender, t :: tail, rfl, joins_balanced.nil, ?_, .nil _ _⟩
    rw [next_cons]
    rcases ht with ht | ht <;> rw [ht] <;> rfl
  | case3 hasRender t tail ht first renders ih =>
    rw [members_cons ht] at ho
    have ho := Reading.orderly_append.1 ho
    obtain ⟨w, v, es, r, rfl, hw, hc⟩ := takes_member ho.1
    have hr : Orderly (members type (rendersAfter hasRender v) r).errors := by
      simpa [hc.here, clip_eq, Reading.map] using ho.2
    have hrenders : renders = rendersAfter hasRender first.value := rfl
    rw [hrenders, show first = _ from hc.here] at ih
    obtain ⟨w', items, es', again, r', rfl, hw', hr', hin⟩ := ih r (by simp) hr
    have hp : t.kind.isPlain = true :=
      isPlain_of_not ht fun hl => member_of_lbrace hl ho.1
    exact ⟨t :: (w ++ w'), v.toList ++ items, es ++ es', again, r', by simp,
      joins_balanced.cons (.single hp) (hw.balanced.append hw'), hr',
      .cons ht hc (TokenKind.isBorder_of_isCloser hr') hin⟩

theorem isBorder_of_startsMember {k : TokenKind} (h : k.startsMember = true) : isBorder k = true := by
  unfold TokenKind.startsMember at h
  split at h <;> first | rfl | cases h

/-- A clean reading of members does not run over the start of a member outside of braces. -/
theorem exists_membersIn_append {type : Bytes} {hasRender : Bool} {u k : List Token} {t : Token}
    (hu : Balanced u) (ht : t.kind.startsMember = true)
    (ho : Orderly (members type hasRender (u ++ t :: k)).errors) :
    ∃ items es again, MembersIn type hasRender u items es again := by
  induction hn : u.length using Nat.strongRecOn generalizing u hasRender with
  | ind n ih =>
  cases u with
  | nil => exact ⟨[], [], hasRender, .nil _ _⟩
  | cons x u =>
    have hx : ¬ (x.kind = .punct .rbrace ∨ x.kind = .eof) := by
      rintro (hx | hx) <;> exact joins_balanced.nil.not_closed (by rw [hx]; rfl) hu
    rw [List.cons_append, members_cons hx] at ho
    have ho := Reading.orderly_append.1 ho
    have hp : x.kind.isPlain = true := isPlain_of_not hx fun hl => member_of_lbrace hl ho.1
    have hu : Balanced u := Balanced.of_append (v := [x]) hu (.single hp)
    obtain ⟨w, v, es, r, heq, hw, hc⟩ := takes_member ho.1
    rcases List.append_eq_append_iff.1 heq with ⟨a, rfl, ha⟩ | ⟨u, rfl, rfl⟩
    · cases a with
      | nil =>
        obtain rfl : t :: k = r := ha
        rw [List.append_nil] at hc
        have hin : MembersIn type hasRender (x :: (u ++ [])) _ _ _ :=
          .cons hx hc (isBorder_of_startsMember ht) (.nil _ _)
        rw [List.append_nil] at hin
        exact ⟨_, _, _, hin⟩
      | cons y a =>
        obtain ⟨rfl, -⟩ := List.cons.inj ha
        rw [hw.startsMember rfl hu] at ht
        cases ht
    · have hr : Orderly (members type (rendersAfter hasRender v) (u ++ t :: k)).errors := by
        rw [heq] at ho
        simpa [hc.here, clip_eq, Reading.map] using ho.2
      obtain ⟨items, es', again, hin⟩ := ih u.length (by simp at hn; omega)
        (hu.of_append hw.balanced) hr rfl
      exact ⟨_, _, _, .cons hx hc (isBorder_of_startsMember ht) hin⟩

theorem MembersIn.members_eq {type : Bytes} {hasRender again : Bool} {w k : List Token}
    {items : List Member} {es : List (Span × SyntaxError)}
    (h : MembersIn type hasRender w items es again) (hk : isCloser (next k) = true) :
    members type hasRender (w ++ k) = ⟨some items, es, k⟩ := by
  rw [h.members_append k (TokenKind.isBorder_of_isCloser hk), members_of_isCloser hk]
  simp [Reading.map, Reading.report, Reading.ok]

/-! ## Types -/

theorem reads_members {type : Bytes} {hasRender : Bool} :
    Reads isCloser Balanced (members type hasRender) ts := by
  intro ho
  obtain ⟨w, items, es, again, r, rfl, hw, hr, hin⟩ := exists_membersIn ho
  refine ⟨w, items, es, r, rfl, hw, hin.members_eq hr, ?_⟩
  rintro q k k' rfl _ hk'
  refine hin.members_eq ?_
  cases q with
  | nil => exact hk'
  | cons t q => exact hr

theorem reads_routePart : Reads isBorder Inner routePart ts := by
  refine .ite_next (f := fun ts => (take (.keyword .routeKw) "'route'" ts).andThen fun _ ts =>
    (literal "route string" ts).andThen fun route ts => (mark .rbracket ts).map fun _ => some route)
    joins_inner .single rfl rfl ?_ (.constant joins_inner none)
  refine .andThen joins_inner (reads_take rfl).of_proper fun _ _ _ => ?_
  refine .andThen joins_inner reads_literal.of_proper fun _ _ _ => ?_
  exact (reads_mark rfl).of_proper.map

theorem reads_typeKind : Reads isBorder (Proper Inner) typeKind ts := by
  cases ts with
  | nil => exact .of_expected "'component' or 'class'" rfl
  | cons t ts =>
    by_cases hc : t.kind = .keyword .componentKw
    · refine .token (a := .component) (.single (by rw [hc]; rfl)) fun _ => ?_
      simp only [typeKind, next_cons, hc, List.tail_cons]
    by_cases hl : t.kind = .keyword .classKw
    · refine .token (a := .cls) (.single (by rw [hl]; rfl)) fun _ => ?_
      simp only [typeKind, next_cons, hl, List.tail_cons]
    refine .of_expected "'component' or 'class'" ?_
    rw [typeKind, next_cons]
    split <;> first | contradiction | rfl

/-- Any part at all. -/
theorem joins_any : Joins fun _ => True := ⟨trivial, fun _ _ => trivial⟩

theorem Reads.any {α : Type} {border : TokenKind → Bool} {W : List Token → Prop}
    {f : List Token → Reading α} (h : Reads border W f ts) : Reads border (fun _ => True) f ts :=
  h.mono (fun _ hk => hk) fun _ => trivial

theorem reads_lbrace : Reads isBorder (Proper fun _ => True) (mark .lbrace) ts :=
  reads_take_of (by simp) fun _ => trivial

theorem reads_typeHead : Reads isBorder (fun _ => True) typeHead ts := by
  refine .andThen joins_any reads_routePart.any fun route _ _ => .of_proper ?_
  refine .placed (f := fun span ts => (typeKind ts).andThen fun kind ts =>
    (identifier "type name" ts).andThen fun name ts =>
      Reading.andThen (if next ts = .punct .colon then (type ts.tail).map some else .ok none ts)
        fun base ts => (mark .lbrace ts).map fun _ =>
          ({ kind, name, base, route, span } : TypeDecl)) fun span => ?_
  refine .andThen_of joins_any.proper_append (reads_typeKind.mono (fun _ hk => hk) fun hw =>
    ⟨hw.1, trivial⟩) fun kind _ _ => ?_
  refine .andThen joins_any reads_identifier.any fun name _ _ => ?_
  refine .andThen joins_any ?_ fun base _ _ => reads_lbrace.of_proper.map
  exact .ite_next (f := fun ts => (type ts).map some) joins_any (fun _ => trivial) rfl rfl reads_type.any.map
    (.constant joins_any none)

/-- The type that a head and its members make. -/
def declOf (head : TypeDecl) (items : List Member) : TypeDecl :=
  { head with
    members := items.filterMap Member.data?
    methods := items.filterMap Member.method?
    render := items.findSome? Member.render? }

theorem typeDecl_eq (ts : List Token) :
    typeDecl ts = (typeHead ts).recover.andThen fun head ts =>
      closing (members head.name false) (declOf head) ts := rfl

theorem reads_typeDecl : Reads isBorder (fun _ => True) typeDecl ts := by
  rw [show typeDecl = _ from funext typeDecl_eq]
  refine .andThen joins_any reads_typeHead.recover fun head _ _ ho => ?_
  obtain ⟨w, items, es, t, r, rfl, -, -, hc⟩ := reads_closing reads_members ho
  exact ⟨w ++ [t], declOf head items, es, r, by simp, trivial, hc⟩

/-- A type with the head `head` and the members `items`, without its closing brace: behind the
tokens `w` more members may follow. -/
structure TypeIn (w : List Token) (head : TypeDecl) (items : List Member)
    (es : List (Span × SyntaxError)) (again : Bool) : Prop where
  typeDecl_append : ∀ k, isBorder (next k) = true → typeDecl (w ++ k) =
    (closing (members head.name again) (fun more => declOf head (items ++ more)) k).report es
  render? : again = false → ∀ m ∈ items, m.render? = none

theorem TypeIn.typeDecl_eq {w r : List Token} {head : TypeDecl} {items : List Member}
    {es : List (Span × SyntaxError)} {again : Bool} {t : Token} (h : TypeIn w head items es again)
    (ht : t.kind = .punct .rbrace) :
    typeDecl (w ++ t :: r) = ⟨some (declOf head items), es, r⟩ := by
  have hnone : members head.name again (t :: r) = .ok [] (t :: r) :=
    members_of_isCloser (by rw [next_cons, ht]; rfl)
  rw [h.typeDecl_append _ (by rw [next_cons, ht]; rfl), closing_eq ht hnone]
  simp [Reading.report]

/-- The head of a type and its members, read in front of a border. -/
theorem TypeIn.of_membersIn {v w r : List Token} {head : TypeDecl} {items : List Member}
    {es es' : List (Span × SyntaxError)} {again : Bool}
    (hc : Consumes isBorder (fun ts => (typeHead ts).recover) v (some head) es (w ++ r))
    (hr : isBorder (next r) = true) (hin : MembersIn head.name false w items es' again) :
    TypeIn (v ++ w) head items (es ++ es') again where
  typeDecl_append k hk := by
    rw [List.append_assoc, Tokens.typeDecl_eq, hc.elsewhere rfl hr hk]
    simp only [Reading.andThen, closing, hin.members_append k hk, Reading.map, Reading.report]
    cases (members head.name again k).value <;> simp
  render? h := (hin.render? h).2

/-- A type is read up to a brace, and its members go on in the same way in front of anything
else. -/
theorem exists_typeIn (ho : Orderly (typeDecl ts).errors) :
    ∃ (w : List Token) (head : TypeDecl) (items : List Member) (es : List (Span × SyntaxError))
      (again : Bool) (t : Token) (r : List Token), ts = w ++ t :: r ∧ t.kind = .punct .rbrace
      ∧ TypeIn w head items es again := by
  obtain ⟨v, head, es, r, rfl, -, hc⟩ := reads_typeHead.recover (Reading.orderly_of_andThen ho)
  have hbody : Orderly (closing (members head.name false) (declOf head) r).errors := by
    rw [typeDecl_eq, hc.here, Reading.andThen] at ho
    exact (Reading.orderly_append.1 ho).2
  obtain ⟨w, items, es', again, r, rfl, -, hr, hin⟩ := exists_membersIn (orderly_of_closing hbody)
  obtain ⟨s, r, rfl⟩ := exists_cons_of_next (next_of_closing hbody (hin.members_eq hr)) (by simp)
  exact ⟨v ++ w, head, items, es ++ es', again, ⟨.punct .rbrace, s⟩, r, by simp, rfl,
    .of_membersIn hc (TokenKind.isBorder_of_isCloser hr) hin⟩

end Tokens

end ViewCompiler
