import ViewCompiler.Proofs.BlockExtent

/-!
Files with errors in the bodies of members. A body with matching braces is left behind its closing
brace, and the members and types behind it are read as if it were empty, whatever is wrong in it
(`Tokens.bodies_resume`). For bodies of methods there is one exception: a block that was found where a
statement was expected is reported, but its opening brace is not counted.
-/

namespace ViewCompiler

namespace Tokens

open TokenKind (isBorder isCloser)

section
variable {t c : Token} {ts w rest : List Token}

/-! ## Bodies -/

/-- A block of statements ends at its own brace if and only if no block was found in it where a
statement was expected. -/
theorem block_extent_iff (s : Span) (rest : List Token) (hw : Balanced w)
    (hc : c.kind = .punct .rbrace) :
    ∃ body es left, block (⟨.punct .lbrace, s⟩ :: (w ++ c :: rest)) = ⟨some body, es, left⟩ ∧
      (left = rest ↔ ∀ e ∈ es, e.2.isBareBlock = false) := by
  obtain ⟨body, es, left, hread, hleft⟩ := block_extent s rest hw hc
  refine ⟨body, es, left, hread, ?_⟩
  rcases hleft with ⟨hcount, rfl⟩ | ⟨n, hcount, hin⟩
  · simpa using List.countP_eq_zero.1 hcount
  · have hlen := hin.length_le
    constructor
    · rintro rfl
      rw [List.length_cons] at hlen
      omega
    · intro hquiet
      rw [List.countP_eq_zero.2 (by simpa using hquiet)] at hcount
      cases hcount

theorem Braced.empty {α : Type} {f F : List Token → Reading (List α)} {g : Token → List Token → Reading α}
    (hF : Braced f F) (hf : ItemReader g f) (s : Span) (hc : c.kind = .punct .rbrace) :
    F (⟨.punct .lbrace, s⟩ :: c :: rest) = ⟨some [], [], rest⟩ := by
  have hcloser : isCloser (next (c :: rest)) = true := by rw [next_cons, hc]; rfl
  rw [hF.cons]
  exact closing_eq hc (hf.nil_of_isCloser hcloser)

/-- A method behind its head. -/
theorem method_append {M : List Token} {head : Bytes × List Parameter} {body : List Stmt}
    {es : List (Span × SyntaxError)} (hM : ∀ ts, methodHead (M ++ ts) = .ok head ts)
    (h : block ts = ⟨some body, es, rest⟩) :
    method (M ++ ts) =
      ⟨some { name := head.1, params := head.2, body, span := place M }, es, rest⟩ := by
  have hplace : place (M ++ ts) = place M := by
    cases M with
    | nil => cases hM []
    | cons t M => rfl
  simp [method, hM, h, hplace, Reading.recover, Reading.ok, Reading.andThen, Reading.map, Reading.report]

/-! ## Files -/

theorem isSome_members (type : Bytes) (hasRender : Bool) (ts : List Token) :
    (members type hasRender ts).value.isSome = true := by
  induction hasRender, ts using members.induct type with
  | case1 hasRender =>
    rw [members_of_isCloser rfl]
    rfl
  | case2 hasRender t tail ht =>
    rw [members, if_pos ht]
    rfl
  | case3 hasRender t tail ht first renders ih =>
    have hrenders : renders = rendersAfter hasRender first.value := rfl
    rw [hrenders] at ih
    rw [members_cons ht]
    simpa [Reading.onward, Reading.report, Reading.map] using ih _ (length_clip_le _ _)

/-- What a file declares from a type on that has the members `items` and those read last. -/
def restOfFile (hasNs : Bool) (head : TypeDecl) (items : List Member) (es : List (Span × SyntaxError))
    (more : Reading (List Member)) : Reading (List UnitItem) :=
  let close := mark .rbrace more.rest
  ((unitItems hasNs true close.rest).map
    (.type (declOf head (items ++ more.value.getD [])) :: ·)).report (es ++ more.errors ++ close.errors)

/-- Among the members of a type, the file goes on with the members that are next. -/
theorem TypeIn.unitItems_eq {hasNs hasType again : Bool} {p k : List Token} {head : TypeDecl}
    {items : List Member} {es : List (Span × SyntaxError)} (ht : startsType t.kind = true)
    (h : TypeIn (t :: p) head items es again) (hk : isBorder (next k) = true) :
    unitItems hasNs hasType (t :: (p ++ k)) =
      restOfFile hasNs head items es (members head.name again k) := by
  have hne : t.kind ≠ .eof := by
    intro heof
    rw [heof] at ht
    cases ht
  have hsome := isSome_members head.name again k
  have hwalk := (walks_members head.name again k).length_le
  have hdecl : typeDecl (t :: (p ++ k)) = _ := h.typeDecl_append k hk
  cases hmembers : members head.name again k with
  | mk value es' left =>
  rw [hmembers] at hsome hwalk
  obtain ⟨more, rfl⟩ := Option.isSome_iff_exists.1 hsome
  rw [closing, hmembers, Reading.andThen] at hdecl
  have hclose : (mark .rbrace left).rest.length ≤ left.length := by
    rw [mark, take]
    split <;> simp [Reading.ok, Reading.expected]
  cases hmark : mark .rbrace left with
  | mk found es₁ rest =>
  rw [hmark] at hdecl hclose
  have hlen : rest.length ≤ (p ++ k).length := by
    simp only [List.length_append] at hclose hwalk ⊢
    omega
  rw [unitItems_cons hne, unitItem_type ht, hdecl, Reading.onward_eq hlen]
  simp [restOfFile, hmark, Reading.map, Reading.report, flagsAfter]

/-- Wherever a type goes on with the tokens `m`, they are read as `v` with the errors `es`, and the
members and types behind them are read from `rest`. -/
def MemberAt (type : Bytes) (again : Bool) (m rest : List Token) (v : Option Member)
    (es : List (Span × SyntaxError)) : Prop :=
  ∀ {hasNs hasType : Bool} {t : Token} {p : List Token} {head : TypeDecl} {items : List Member}
    {es₀ : List (Span × SyntaxError)}, startsType t.kind = true → head.name = type →
    TypeIn (t :: p) head items es₀ again →
    unitItems hasNs hasType (t :: (p ++ (m ++ rest))) = restOfFile hasNs head (items ++ v.toList)
      (es₀ ++ es) (members type (rendersAfter again v) rest)

theorem MemberAt.of_member {type : Bytes} {again : Bool} {m : List Token} {v : Option Member}
    {es : List (Span × SyntaxError)} (ht : t.kind.startsMember = true)
    (h : member type again t (m ++ rest) = ⟨v, es, rest⟩) : MemberAt type again (t :: m) rest v es := by
  rintro hasNs hasType t' p head items es₀ ht' rfl hin
  have hcloser : ¬ (t.kind = .punct .rbrace ∨ t.kind = .eof) := by
    rintro (hclose | hclose) <;> rw [hclose] at ht <;> cases ht
  obtain ⟨more, hmore⟩ :=
    Option.isSome_iff_exists.1 (isSome_members head.name (rendersAfter again v) rest)
  rw [List.cons_append, hin.unitItems_eq (k := t :: (m ++ rest)) ht' (isBorder_of_startsMember ht),
    members_cons hcloser, h, Reading.onward_eq (by simp)]
  simp [restOfFile, Reading.map, Reading.report, hmore]

theorem memberAt_render {type : Bytes} {m : List Token} {ops : List RenderOp}
    {es : List (Span × SyntaxError)} (again : Bool) (ht : t.kind = .keyword .renderKw)
    (h : renderBlock (m ++ rest) = ⟨some ops, es, rest⟩) :
    MemberAt type again (t :: m) rest
      (if again then none else some (.render { ops, span := t.span }))
      (es ++ if again then [(t.span, SyntaxError.secondRender type)] else []) := by
  refine MemberAt.of_member (by rw [ht]; rfl) ?_
  simp only [member, ht, h, Reading.andThen]
  cases again <;> simp [Reading.ok, Reading.report]

theorem memberAt_method {type : Bytes} {M m : List Token} {head : Bytes × List Parameter}
    {body : List Stmt} {es : List (Span × SyntaxError)} (again : Bool) (ht : t.kind = .keyword .methodKw)
    (hM : ∀ ts, methodHead (M ++ ts) = .ok head ts) (h : block (m ++ rest) = ⟨some body, es, rest⟩) :
    MemberAt type again (t :: (M ++ m)) rest
      (some (.method { name := head.1, params := head.2, body, span := place M })) es := by
  refine MemberAt.of_member (by rw [ht]; rfl) ?_
  simp only [member, ht, List.append_assoc, method_append hM h]
  rfl

/-- Whatever is wrong in a body with matching braces, it is left behind its closing brace, and the
members and types behind it are read as if it were empty. For a block of statements this holds if and
only if no block was found in it where a statement was expected. -/
theorem bodies_resume {l : Token} (hl : l.kind = .punct .lbrace) (hw : Balanced w)
    (hc : c.kind = .punct .rbrace) (type : Bytes) (again : Bool) (rest : List Token) :
    (∃ ops es, renderBlock (l :: (w ++ c :: rest)) = ⟨some ops, es, rest⟩ ∧
      ∀ t : Token, t.kind = .keyword .renderKw →
        let second := if again then [(t.span, .secondRender type)] else []
        let render ops := if again then none else some (Member.render { ops, span := t.span })
        MemberAt type again (t :: l :: (w ++ [c])) rest (render ops) (es ++ second) ∧
          MemberAt type again [t, l, c] rest (render []) second) ∧
    ∃ body es left, block (l :: (w ++ c :: rest)) = ⟨some body, es, left⟩ ∧
      (left = rest ↔ ∀ e ∈ es, e.2.isBareBlock = false) ∧
      (left = rest → ∀ (t : Token) (M : List Token) (head : Bytes × List Parameter),
        t.kind = .keyword .methodKw → (∀ ts, methodHead (M ++ ts) = .ok head ts) →
        let method body := some (Member.method
          { name := head.1, params := head.2, body, span := place M })
        MemberAt type again (t :: (M ++ l :: (w ++ [c]))) rest (method body) es ∧
          MemberAt type again (t :: (M ++ [l, c])) rest (method []) []) := by
  obtain ⟨_, s⟩ := l
  cases hl
  constructor
  · obtain ⟨ops, es, hread⟩ : ∃ ops es, renderBlock (⟨.punct .lbrace, s⟩ :: (w ++ c :: rest)) =
        ⟨some ops, es, rest⟩ := renderBlock_extent hw hc
    refine ⟨ops, es, hread, fun t ht => ⟨memberAt_render again ht (by simpa using hread), ?_⟩⟩
    exact memberAt_render (m := [⟨.punct .lbrace, s⟩, c]) again ht
      (braced_renderBlock.empty itemReader_renderOps s hc)
  · obtain ⟨body, es, left, hread, hleft⟩ := block_extent_iff s rest hw hc
    refine ⟨body, es, left, hread, hleft, ?_⟩
    rintro rfl t M head ht hM
    refine ⟨memberAt_method again ht hM (by simpa using hread), ?_⟩
    exact memberAt_method (m := [⟨.punct .lbrace, s⟩, c]) again ht hM
      (braced_block.empty itemReader_stmts s hc)

/-- The only method of a type has a semicolon for a statement, and a field stands behind it. -/
theorem bodies_resume_semicolon :
    let place (kinds : List TokenKind) : List Token := kinds.map fun kind => { kind }
    let field := place [.keyword .fieldKw, .keyword .intKw, .identifier "x", .punct .semicolon,
      .punct .rbrace, .eof]
    unitItems false false (place [.keyword .componentKw, .identifier "A", .punct .lbrace,
        .keyword .methodKw, .identifier "M", .punct .lparen, .punct .rparen,
        .punct .lbrace, .punct .semicolon, .punct .rbrace] ++ field) =
      restOfFile false { kind := .component, name := "A", span := {} }
        [.method { name := "M", params := [], body := [], span := {} }]
        [({}, .expected "statement" (.punct .semicolon))] (members "A" false field) := by
  intro place field
  have hblock : block (place [.punct .lbrace, .punct .semicolon, .punct .rbrace] ++ field) =
      ⟨some [], [({}, .expected "statement" (.punct .semicolon))], field⟩ := by
    have hstmt : (stmt { kind := .punct .semicolon } (place [.punct .rbrace] ++ field)).recover =
        ⟨none, [({}, .expected "statement" (.punct .semicolon))], place [.punct .rbrace] ++ field⟩ := by
      rw [stmt]
      rfl
    have hstmts : stmts (place [.punct .semicolon, .punct .rbrace] ++ field) =
        ⟨some [], [({}, .expected "statement" (.punct .semicolon))], place [.punct .rbrace] ++ field⟩ := by
      have hend : stmts (place [.punct .rbrace] ++ field) = .ok [] (place [.punct .rbrace] ++ field) :=
        itemReader_stmts.nil_of_isCloser rfl
      refine (itemReader_stmts.cons { kind := .punct .semicolon } (place [.punct .rbrace] ++ field)).trans ?_
      rw [if_neg (by simp), hstmt, Reading.onward, clip_eq (Nat.le_refl _), hend]
      rfl
    exact (block_cons {} _).trans (closing_eq rfl hstmts)
  have hw : Balanced (place [.punct .semicolon]) := fun _ => rfl
  have hin : TypeIn (place [.keyword .componentKw, .identifier "A", .punct .lbrace])
      { kind := .component, name := "A", span := {} } [] [] false := ⟨fun _ _ => rfl, by simp⟩
  obtain ⟨-, body, es, left, hread, -, hmethod⟩ :=
    bodies_resume (l := { kind := .punct .lbrace }) (c := { kind := .punct .rbrace }) rfl hw rfl "A" false field
  cases hread.symm.trans hblock
  exact (hmethod rfl { kind := .keyword .methodKw } (place [.identifier "M", .punct .lparen, .punct .rparen])
    ("M", []) rfl fun _ => rfl).1 rfl rfl hin

end

end Tokens

end ViewCompiler
