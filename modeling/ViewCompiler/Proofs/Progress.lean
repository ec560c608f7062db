import ViewCompiler.Proofs.Walks
import ViewCompiler.Proofs.GrammarCompleteness

/-!
Progress of the reader. Skipping after an error may take nothing, but each iteration of a loop takes at
least the token that it starts with, and none takes the end of the text (`Tokens.Iteration`). So a loop
goes on where its iteration ended and nothing is ever cut off (`Tokens.GoesOn`), and files are read
up to their end (`Tokens.reader_progress`).
-/

namespace ViewCompiler

/-- The items from the first one on, which is left out if it was not read. -/
def Reading.followedBy {α : Type} (first : Reading α) (f : List Token → Reading (List α)) :
    Reading (List α) :=
  ((f first.rest).map (first.value.toList ++ ·)).report first.errors

namespace Tokens

section
variable {α β : Type} {t : Token} {ts us : List Token}

/-- The reading passes no end of the text. -/
def Advances (ts : List Token) (r : Reading α) : Prop := Leaves (· != .eof) ts r.rest

namespace Advances

variable {r : Reading α}

theorem length_le (h : Advances ts r) : r.rest.length ≤ ts.length := Leaves.length_le h

theorem of_walks {deep : SyntaxError → Bool} {d : Nat} (h : Walks deep d ts r) : Advances ts r :=
  (h 0).leaves

theorem of_single (h : Single ts r) : Advances ts r := by
  refine h.leaves.mono fun k hk => bne_iff_ne.2 ?_
  rintro rfl
  cases hk

theorem map (h : Advances ts r) (f : α → β) : Advances ts (r.map f) := h

theorem recover (h : Advances ts r) : Advances ts r.recover := by
  rw [Reading.recover]
  split
  · exact h
  · exact h.trans (walk_synchronizeAt 0 0 _).leaves

theorem andThen {f : α → List Token → Reading β} (h : Advances ts r)
    (hf : ∀ a rest, Advances rest (f a rest)) : Advances ts (r.andThen f) := by
  rw [Reading.andThen]
  split
  · exact h.trans (hf _ _)
  · exact h

end Advances

/-! ## Declarations -/

theorem advances_mark (m : Punct) (ts : List Token) : Advances ts (mark m ts) := by
  rw [mark, take]
  split
  · next h => exact .tail rfl (by rw [h]; rfl)
  · exact .refl _ _

theorem advances_closing {f : List Token → Reading α} {g : α → β} (h : Advances ts (f ts)) :
    Advances ts (closing f g ts) :=
  h.andThen fun _ rest => advances_mark .rbrace rest

theorem single_route (ts : List Token) : Single ts
    ((take (.keyword .routeKw) "'route'" ts).andThen fun _ ts =>
      (literal "route string" ts).andThen fun route ts => (mark .rbracket ts).map fun _ => some route) := by
  refine (single_take rfl (by decide) _).andThen fun _ rest _ => ?_
  exact (single_literal (by decide) rest).andThen fun _ rest _ => (single_mark rfl rest).map _

theorem single_typeKind (ts : List Token) : Single ts (typeKind ts) := by
  rw [typeKind]
  split
  · next h => exact .read (.tail rfl (by rw [h]; rfl))
  · next h => exact .read (.tail rfl (by rw [h]; rfl))
  · exact .expected (by decide) ts

/-- The head of a type takes the token that it starts with. -/
theorem advances_typeHead (ht : startsType t.kind = true) (ts : List Token) :
    Advances ts (typeHead (t :: ts)) := by
  have base (ts : List Token) : Single ts
      (if next ts = .punct .colon then (type ts.tail).map some else .ok none ts) :=
    .ite_next (f := fun ts => (type ts).map some) (g := .ok none) rfl ((single_type _).map some) (.ok none ts)
  have behindKind (span : Span) (route : Option Bytes) (kind : TypeKind) (ts : List Token) :
      Advances ts ((identifier "type name" ts).andThen fun name ts =>
        Reading.andThen (if next ts = .punct .colon then (type ts.tail).map some else .ok none ts)
          fun base ts => (mark .lbrace ts).map fun _ => ({ kind, name, base, route, span } : TypeDecl)) := by
    refine Advances.andThen (.of_single (single_identifier (by decide) ts)) fun name rest => ?_
    exact Advances.andThen (.of_single (base rest)) fun base rest => (advances_mark .lbrace rest).map _
  rw [typeHead]
  by_cases hroute : t.kind = .punct .lbracket
  · have hread : Advances ts (routePart (t :: ts)) := by
      rw [routePart, next_cons, if_pos hroute]
      exact .of_single (single_route ts)
    exact hread.andThen fun route rest =>
      Advances.andThen (.of_single (single_typeKind rest)) fun kind rest => behindKind _ route kind rest
  · have hnone : routePart (t :: ts) = .ok none (t :: ts) := if_neg hroute
    obtain ⟨kind, hkind⟩ : ∃ kind, typeKind (t :: ts) = .ok kind ts := by
      rw [typeKind, next_cons]
      unfold startsType at ht
      split at ht
      · contradiction
      · exact ⟨.component, by simp [*]⟩
      · exact ⟨.cls, by simp [*]⟩
      · cases ht
    rw [hnone, Reading.andThen_ok]
    simp only [hkind, Reading.andThen_ok]
    exact behindKind _ none kind ts

theorem advances_typeDecl (ht : startsType t.kind = true) (ts : List Token) :
    Advances ts (typeDecl (t :: ts)) :=
  (advances_typeHead ht ts).recover.andThen fun head rest =>
    advances_closing (.of_walks (walks_members head.name false rest))

theorem advances_nameStatement (ts : List Token) : Advances ts (nameStatement ts) :=
  (Advances.andThen (.of_single (single_qualifiedName ts)) fun _ rest =>
    (advances_mark .semicolon rest).map _).recover

theorem leaves_skipBlock (ht : t.kind = .punct .lbrace) (ts : List Token) :
    Leaves (· != .eof) ts (skipBlock (t :: ts)) := by
  simp only [skipBlock, skipBlockAt, ht]
  exact (walk_skipBlockAt 0 0 ts).leaves

theorem leaves_skipToDeclaration (ts : List Token) : Leaves (· != .eof) ts (skipToDeclaration ts) := by
  induction ts using skipToDeclaration.induct with
  | case1 =>
    rw [skipToDeclaration]
    exact .refl _ _
  | case2 | case3 | case4 | case5 | case6 | case7 =>
    simp only [skipToDeclaration, *]
    exact .refl _ _
  | case8 t ts ht ih =>
    have hskip := leaves_skipBlock ht ts
    rw [clip_eq hskip.length_le] at ih
    simp only [skipToDeclaration, ht, clip_eq hskip.length_le]
    exact .cons (by rw [ht]; rfl) (hskip.trans ih)
  | case9 t ts h₁ h₂ h₃ h₄ h₅ h₆ h₇ ih =>
    rw [skipToDeclaration]
    split <;> first | contradiction | exact .cons (bne_iff_ne.2 h₁) ih

theorem advances_unitItem {hasNs hasType : Bool} (ts : List Token) :
    Advances ts (unitItem hasNs hasType t ts) := by
  rw [unitItem]
  split
  · exact (advances_nameStatement ts).andThen fun _ rest => .refl _ _
  · exact (advances_nameStatement ts).map _
  · next ht => exact (advances_typeDecl (by rw [ht]; rfl) ts).map _
  · next ht => exact (advances_typeDecl (by rw [ht]; rfl) ts).map _
  · next ht => exact (advances_typeDecl (by rw [ht]; rfl) ts).map _
  · exact leaves_skipToDeclaration ts

theorem onward_followedBy {r : Reading α} {f : List Token → Reading (List α)} (h : Advances ts r) :
    r.onward ts (fun rest _ => (f rest).map (r.value.toList ++ ·)) = r.followedBy f :=
  Reading.onward_eq h.length_le

theorem unitItems_eq {hasNs hasType : Bool} (ht : t.kind ≠ .eof) (ts : List Token) :
    unitItems hasNs hasType (t :: ts) = (unitItem hasNs hasType t ts).followedBy
      (unitItems (flagsAfter hasNs hasType (unitItem hasNs hasType t ts).value).1
        (flagsAfter hasNs hasType (unitItem hasNs hasType t ts).value).2) := by
  rw [unitItems_cons ht, onward_followedBy (advances_unitItem ts)]

/-- What holds at the end of the text and is kept in front by each declaration holds of each file. -/
theorem unitItems_induction {P : List Token → Reading (List UnitItem) → Prop}
    (hend : ∀ ts, next ts = .eof → P ts (.ok [] ts))
    (hstep : ∀ hasNs hasType t ts f, t.kind ≠ .eof →
      P (unitItem hasNs hasType t ts).rest (f (unitItem hasNs hasType t ts).rest) →
        P (t :: ts) ((unitItem hasNs hasType t ts).followedBy f))
    (hasNs hasType : Bool) (ts : List Token) : P ts (unitItems hasNs hasType ts) := by
  induction hn : ts.length using Nat.strongRecOn generalizing hasNs hasType ts with
  | ind n ih =>
  cases ts with
  | nil =>
    rw [unitItems]
    exact hend [] rfl
  | cons t ts =>
    by_cases ht : t.kind = .eof
    · rw [unitItems_of_eof ht]
      exact hend (t :: ts) ht
    · have hfirst : Advances ts (unitItem hasNs hasType t ts) := advances_unitItem ts
      have hlen := hfirst.length_le
      rw [unitItems_eq ht]
      refine hstep hasNs hasType t ts _ ht ?_
      exact ih _ (by simp at hn; omega) _ _ _ rfl

theorem advances_unitItems (hasNs hasType : Bool) (ts : List Token) :
    Advances ts (unitItems hasNs hasType ts) := by
  refine unitItems_induction (fun ts _ => .refl _ ts) ?_ hasNs hasType ts
  intro hasNs hasType t ts f ht hrest
  have hfirst : Advances ts (unitItem hasNs hasType t ts) := advances_unitItem ts
  exact .cons (bne_iff_ne.2 ht) (Leaves.trans hfirst hrest)

theorem isSome_unitItems (hasNs hasType : Bool) (ts : List Token) :
    (unitItems hasNs hasType ts).value.isSome = true := by
  refine unitItems_induction (P := fun _ r => r.value.isSome = true) (fun _ _ => rfl) ?_ _ _ ts
  intro hasNs hasType t ts f _ hrest
  simpa [Reading.followedBy, Reading.report, Reading.map] using hrest

/-- Files are read up to the end of the text. -/
theorem exists_unitItems_rest {e : Token} (he : e.kind = .eof) (hasNs hasType : Bool) (ts : List Token) :
    ∃ (w : List Token) (e' : Token) (rest : List Token), ts ++ [e] = w ++ e' :: rest
      ∧ (∀ t ∈ w, t.kind ≠ .eof) ∧ e'.kind = .eof ∧
      (unitItems hasNs hasType (ts ++ [e])).rest = e' :: rest := by
  obtain ⟨w, hts, hw⟩ := advances_unitItems hasNs hasType (ts ++ [e])
  have hw : ∀ t ∈ w, t.kind ≠ .eof := fun t ht => bne_iff_ne.1 (hw t ht)
  have hend := next_rest_unitItems hasNs hasType (ts ++ [e])
  cases hrest : (unitItems hasNs hasType (ts ++ [e])).rest with
  | nil =>
    rw [hrest, List.append_nil] at hts
    exact absurd he (hw e (hts ▸ List.mem_concat_self))
  | cons e' rest =>
    rw [hrest] at hts hend
    exact ⟨w, e', rest, hts, hw, hend, rfl⟩

end

/-! ## Loops -/

/-- One iteration of a loop of the reader goes from the first tokens to the second. -/
inductive Iteration : List Token → List Token → Prop
  | declaration (hasNs hasType : Bool) : t.kind ≠ .eof →
    Iteration (t :: ts) (unitItem hasNs hasType t ts).rest
  | skipped : t.kind ≠ .eof →
    Iteration (t :: ts) (if t.kind = .punct .lbrace then skipBlock (t :: ts) else ts)
  /-- A token of what is skipped. -/
  | passed : t.kind ≠ .eof → Iteration (t :: ts) ts
  | member (type : Bytes) (hasRender : Bool) : ¬ (t.kind = .punct .rbrace ∨ t.kind = .eof) →
    Iteration (t :: ts) (member type hasRender t ts).rest
  | parameter : t.kind = .punct .comma → Iteration (t :: ts) (parameter ts).rest
  | statement : ¬ (t.kind = .punct .rbrace ∨ t.kind = .eof) →
    Iteration (t :: ts) (stmt t ts).recover.rest
  | operation : ¬ (t.kind = .punct .rbrace ∨ t.kind = .eof) →
    Iteration (t :: ts) (renderOp t ts).recover.rest
  | componentArg : t.kind = .keyword .attrKw →
    Iteration (t :: ts) (componentArg t.span ts).recover.rest
  | child (hasChild : Bool) : t.kind = .keyword .childKw →
    Iteration (t :: ts) (childBlock hasChild t.span ts).rest
  /-- Neither an argument nor a child block of a component. -/
  | other : ¬ (t.kind = .punct .rbrace ∨ t.kind = .eof) → Iteration (t :: ts) (synchronize (t :: ts))
  | operator (p : Precedence) (op : BinaryOp) : p.operator? t.kind = some op →
    Iteration (t :: ts) (operandOf p ts).rest
  | argument : t.kind = .punct .comma → Iteration (t :: ts) (expr ts).rest

/-- Each loop goes on where its iteration ended, and each reader where a part was read, with nothing cut
off. -/
structure GoesOn : Prop where
  declarations : ∀ hasNs hasType t ts, t.kind ≠ .eof →
    unitItems hasNs hasType (t :: ts) = (unitItem hasNs hasType t ts).followedBy
      (unitItems (flagsAfter hasNs hasType (unitItem hasNs hasType t ts).value).1
        (flagsAfter hasNs hasType (unitItem hasNs hasType t ts).value).2)
  skipped : ∀ t ts, t.kind ≠ .eof → skipToDeclaration (t :: ts) = t :: ts ∨
    skipToDeclaration (t :: ts) =
      skipToDeclaration (if t.kind = .punct .lbrace then skipBlock (t :: ts) else ts)
  blocks : ∀ depth t ts, t.kind ≠ .eof →
    ∃ depth', skipBlockAt depth (t :: ts) = ts ∨ skipBlockAt depth (t :: ts) = skipBlockAt depth' ts
  synchronized : ∀ depth t ts, t.kind ≠ .eof → synchronizeAt depth (t :: ts) = t :: ts ∨
    synchronizeAt depth (t :: ts) = ts ∨
      ∃ depth', synchronizeAt depth (t :: ts) = synchronizeAt depth' ts
  members : ∀ type hasRender t ts, ¬ (t.kind = .punct .rbrace ∨ t.kind = .eof) →
    members type hasRender (t :: ts) = (member type hasRender t ts).followedBy
      (members type (rendersAfter hasRender (member type hasRender t ts).value))
  parameters : ∀ ts, parameters ts = (parameter ts).andThen moreParameters
  statements : ∀ t ts, ¬ (t.kind = .punct .rbrace ∨ t.kind = .eof) →
    stmts (t :: ts) = (stmt t ts).recover.followedBy stmts
  operations : ∀ t ts, ¬ (t.kind = .punct .rbrace ∨ t.kind = .eof) →
    renderOps (t :: ts) = (renderOp t ts).recover.followedBy renderOps
  componentArgs : ∀ hasChild t ts, t.kind = .keyword .attrKw →
    componentBody hasChild (t :: ts) =
      ((componentBody hasChild (componentArg t.span ts).recover.rest).map fun b =>
        { b with args := (componentArg t.span ts).recover.value.toList ++ b.args }).report
          (componentArg t.span ts).recover.errors
  children : ∀ hasChild t ts, t.kind = .keyword .childKw →
    componentBody hasChild (t :: ts) =
      ((componentBody (hasChild || (childBlock hasChild t.span ts).value.isSome)
        (childBlock hasChild t.span ts).rest).map
          (ComponentBody.withChild t.span (childBlock hasChild t.span ts).value)).report
            (childBlock hasChild t.span ts).errors
  others : ∀ hasChild t ts, ¬ (t.kind = .punct .rbrace ∨ t.kind = .eof) →
    t.kind ≠ .keyword .attrKw → t.kind ≠ .keyword .childKw →
      componentBody hasChild (t :: ts) = (componentBody hasChild (synchronize (t :: ts))).report
        [(t.span, .expected "'attr' or 'child'" t.kind)]
  operators : ∀ p op left t ts, p.operator? t.kind = some op →
    operators p left (t :: ts) =
      (operandOf p ts).andThen fun right => operators p (.binary t.span op left right)
  arguments : ∀ ts, arguments ts = (expr ts).andThen moreArguments
  expressions : ∀ p ts, binary p ts = (operandOf p ts).andThen (Tokens.operators p)
  conditionals : ∀ s ts, conditional s ts =
    (mark .lparen ts).andThen fun _ ts =>
      (expr ts).andThen fun condition ts =>
        (mark .rparen ts).andThen fun _ ts => (block ts).andThen (elsePart s condition)
  components : ∀ s ts, renderOp ⟨.keyword .componentKw, s⟩ ts =
    (type ts).andThen fun type ts =>
      (mark .lbrace ts).andThen fun _ ts =>
        closing (componentBody false)
          (fun body => .component s type body.args body.childSpan body.child) ts

section
variable {t : Token} {ts us : List Token}

theorem single_operand (p : Precedence) (ts : List Token) : Single ts (operandOf p ts) :=
  single_operandOf (fun q _ => single_expressions.2.1 q ts) (single_expressions.1 ts)

/-! ### The iterations -/

section
variable {hasChild hasRender : Bool} {type : Bytes}

theorem advances_member (ht : ¬ (t.kind = .punct .rbrace ∨ t.kind = .eof)) :
    Advances ts (member type hasRender t ts) := .of_walks (walks_member ht)

theorem advances_stmt (ht : ¬ (t.kind = .punct .rbrace ∨ t.kind = .eof)) :
    Advances ts (stmt t ts).recover :=
  .of_walks (walks_statements.2.2.2 t ts (not_or.1 ht).1).recover

theorem advances_block (ts : List Token) : Advances ts (block ts) :=
  .of_walks (walks_statements.2.1 ts)

theorem advances_renderOp (ht : ¬ (t.kind = .punct .rbrace ∨ t.kind = .eof)) :
    Advances ts (renderOp t ts).recover :=
  .of_walks ((walks_render fun _ => id).1 t ts (not_or.1 ht).1)

theorem advances_componentArg {s : Span} : Advances ts (componentArg s ts).recover :=
  .of_walks (walks_componentArg fun _ => id).recover

theorem advances_childBlock {s : Span} : Advances ts (childBlock hasChild s ts) :=
  .of_walks (walks_childBlock (fun _ => id) ((walks_render fun _ => id).2.2.1 ts))

theorem leaves_synchronize_cons (ht : ¬ (t.kind = .punct .rbrace ∨ t.kind = .eof)) (ts : List Token) :
    Leaves (· != .eof) ts (synchronize (t :: ts)) := (walk_synchronize_cons ht 0).leaves

end

/-- An iteration takes the token that it starts with, and it does not take the end of the text. -/
theorem Iteration.exists_leaves (h : Iteration ts us) :
    ∃ t rest, ts = t :: rest ∧ t.kind ≠ .eof ∧ Leaves (· != .eof) rest us := by
  cases h with
  | declaration hasNs hasType ht => exact ⟨_, _, rfl, ht, advances_unitItem _⟩
  | skipped ht =>
    refine ⟨_, _, rfl, ht, ?_⟩
    split
    · next hbrace => exact leaves_skipBlock hbrace _
    · exact .refl _ _
  | passed ht => exact ⟨_, _, rfl, ht, .refl _ _⟩
  | member type hasRender ht => exact ⟨_, _, rfl, (not_or.1 ht).2, advances_member ht⟩
  | parameter ht => exact ⟨_, _, rfl, by simp [ht], Advances.of_single (single_parameter _)⟩
  | statement ht => exact ⟨_, _, rfl, (not_or.1 ht).2, advances_stmt ht⟩
  | operation ht => exact ⟨_, _, rfl, (not_or.1 ht).2, advances_renderOp ht⟩
  | componentArg ht => exact ⟨_, _, rfl, by simp [ht], advances_componentArg⟩
  | child hasChild ht => exact ⟨_, _, rfl, by simp [ht], advances_childBlock⟩
  | other ht => exact ⟨_, _, rfl, (not_or.1 ht).2, leaves_synchronize_cons ht _⟩
  | operator p op hop =>
    refine ⟨_, _, rfl, fun heof => ?_, Advances.of_single (single_operand p _)⟩
    rw [heof, operator?_of_isBorder rfl p] at hop
    cases hop
  | argument ht => exact ⟨_, _, rfl, by simp [ht], Advances.of_single (single_expr _)⟩

theorem Iteration.length_lt (h : Iteration ts us) : us.length < ts.length := by
  obtain ⟨t, rest, rfl, -, hleaves⟩ := h.exists_leaves
  exact Nat.lt_succ_of_le hleaves.length_le

/-! ### Where loops go on -/

theorem skipToDeclaration_step (ht : t.kind ≠ .eof) (ts : List Token) :
    skipToDeclaration (t :: ts) = t :: ts ∨ skipToDeclaration (t :: ts) =
      skipToDeclaration (if t.kind = .punct .lbrace then skipBlock (t :: ts) else ts) := by
  rw [skipToDeclaration]
  split
  · next heof => exact absurd heof ht
  iterate 5 exact .inl rfl
  · next hbrace => rw [if_pos hbrace, clip_eq (leaves_skipBlock hbrace ts).length_le]; exact .inr rfl
  · next hbrace => rw [if_neg hbrace]; exact .inr rfl

theorem skipBlockAt_step (depth : Nat) (ht : t.kind ≠ .eof) (ts : List Token) : ∃ depth',
    skipBlockAt depth (t :: ts) = ts ∨ skipBlockAt depth (t :: ts) = skipBlockAt depth' ts := by
  rw [skipBlockAt]
  split
  · next heof => exact absurd heof ht
  · exact ⟨_, .inr rfl⟩
  · split
    · exact ⟨0, .inl rfl⟩
    · exact ⟨_, .inr rfl⟩
  · exact ⟨_, .inr rfl⟩

theorem synchronizeAt_step (depth : Nat) (ht : t.kind ≠ .eof) (ts : List Token) :
    synchronizeAt depth (t :: ts) = t :: ts ∨ synchronizeAt depth (t :: ts) = ts ∨
      ∃ depth', synchronizeAt depth (t :: ts) = synchronizeAt depth' ts := by
  rw [synchronizeAt.eq_def]
  dsimp only
  split
  · next heof => exact absurd heof ht
  · exact .inr (.inr ⟨_, rfl⟩)
  · split
    · exact .inl rfl
    · exact .inr (.inl rfl)
    · exact .inr (.inr ⟨_, rfl⟩)
  · split
    · exact .inr (.inl rfl)
    · exact .inr (.inr ⟨_, rfl⟩)
  · exact .inr (.inr ⟨_, rfl⟩)

theorem within_eq {α β : Type} {r : Reading α} {f : α → List Token → Reading β} (h : Advances ts r) :
    r.within ts (fun a rest _ => f a rest) = r.andThen f :=
  Reading.within_eq_andThen h.length_le

theorem goesOn : GoesOn where
  declarations hasNs hasType t ts ht := unitItems_eq ht ts
  skipped t ts ht := skipToDeclaration_step ht ts
  blocks depth t ts ht := skipBlockAt_step depth ht ts
  synchronized depth t ts ht := synchronizeAt_step depth ht ts
  members type hasRender t ts ht := by
    rw [members_cons ht, onward_followedBy (advances_member ht)]
  parameters ts := by
    rw [parameters_eq, within_eq (.of_single (single_parameter ts))]
  statements t ts ht := by
    rw [itemReader_stmts.cons, if_neg ht, onward_followedBy (advances_stmt ht)]
  operations t ts ht := by
    rw [itemReader_renderOps.cons, if_neg ht, onward_followedBy (advances_renderOp ht)]
  componentArgs hasChild t ts ht := by
    rw [componentBody_attr ht, Reading.onward_eq advances_componentArg.length_le]
  children hasChild t ts ht := by
    rw [componentBody_child ht, Reading.onward_eq advances_childBlock.length_le]
  others hasChild t ts ht hattr hchild := by
    obtain ⟨hclose, heof⟩ := not_or.1 ht
    rw [componentBody_other hclose heof hattr hchild,
      Reading.onward_eq (leaves_synchronize_cons ht ts).length_le]
  operators p op left t ts hop := by
    rw [operators_cons hop, within_eq (.of_single (single_operand p ts))]
  arguments ts := by
    rw [arguments_eq, within_eq (.of_single (single_expr ts))]
  expressions p ts := by
    rw [binary_eq, within_eq (.of_single (single_operand p ts))]
  conditionals s ts := by
    simp only [conditional_eq, within_eq (advances_mark _ _), within_eq (.of_single (single_expr _)),
      within_eq (advances_block _)]
  components s ts := by
    simp only [renderOp_component, componentBlock, within_eq (advances_mark _ _),
      within_eq (.of_single (single_type _))]

/-- Files are read up to the end of the text, because each iteration of a loop leaves fewer tokens. -/
theorem reader_progress {e : Token} (he : e.kind = .eof) (hasNs hasType : Bool) (ts : List Token) :
    (∃ w e' rest, ts ++ [e] = w ++ e' :: rest ∧ (∀ t ∈ w, t.kind ≠ .eof) ∧ e'.kind = .eof ∧
      (unitItems hasNs hasType (ts ++ [e])).value.isSome = true ∧
      (unitItems hasNs hasType (ts ++ [e])).rest = e' :: rest) ∧
    (∀ us vs, Iteration us vs → vs.length < us.length) ∧ GoesOn := by
  obtain ⟨w, e', rest, hts, hw, hend, hrest⟩ := exists_unitItems_rest he hasNs hasType ts
  refine ⟨⟨w, e', rest, hts, hw, hend, isSome_unitItems _ _ _, hrest⟩, ?_, goesOn⟩
  exact fun us vs h => h.length_lt

/-- Skipping takes nothing where a type has a brace for a name, but its keyword was taken before. -/
theorem reader_progress_brace :
    synchronize [⟨.punct .rbrace, {}⟩, ⟨.eof, {}⟩] = [⟨.punct .rbrace, {}⟩, ⟨.eof, {}⟩] ∧
    (unitItem false false ⟨.keyword .componentKw, {}⟩ [⟨.punct .rbrace, {}⟩, ⟨.eof, {}⟩]).rest =
      [⟨.punct .rbrace, {}⟩, ⟨.eof, {}⟩] ∧
    (unitItems false false
      [⟨.keyword .componentKw, {}⟩, ⟨.punct .rbrace, {}⟩, ⟨.eof, {}⟩]).rest = [⟨.eof, {}⟩] := by
  have heof : (⟨.eof, {}⟩ : Token).kind = .eof := rfl
  obtain ⟨⟨w, e, rest, hts, hw, he, -, hrest⟩, -⟩ :=
    reader_progress heof false false [⟨.keyword .componentKw, {}⟩, ⟨.punct .rbrace, {}⟩]
  refine ⟨rfl, rfl, hrest.trans ?_⟩
  match w with
  | [] | [_] =>
    cases hts
    cases he
  | [_, _] =>
    cases hts
    rfl
  | _ :: _ :: _ :: _ => simp_all

end

end Tokens

end ViewCompiler
