import ViewCompiler.Proofs.MarkupImage

/-!
Components as they are printed. A printed component has a head (`Tokens.Heads`), members
(`Tokens.Announces`) and a render block; together with the namespace and the usings in front of it
they are a file that is read without errors (`Tokens.exists_unitItems`).
-/

namespace ViewCompiler

/-! ## Images -/

/-- The member that an injection declares, without places. -/
def Injection.image (i : Injection) : DataMember where
  kind := .inject
  type := { name := i.type, span := {} }
  name := i.name
  span := {}

namespace CodeBlock

/-- What is read when the text of the block stands alone in the type of that name. -/
def reading (b : CodeBlock) (type : Bytes) : Reading (List Tokens.Member) :=
  Tokens.members type false (TokenStream.scan b.code).tokens

def members (b : CodeBlock) (type : Bytes) : List Tokens.Member := (b.reading type).value.getD []

/-- The text of the block is by itself a sequence of members, without errors and without a render
block. -/
structure IsMembers (b : CodeBlock) (type : Bytes) : Prop where
  scanned : (TokenStream.scan b.code).errors = []
  read : (b.reading type).errors = []
  whole : Tokens.next (b.reading type).rest = .eof
  plain : ∀ m ∈ b.members type, m.render? = none

instance (b : CodeBlock) (type : Bytes) : Decidable (b.IsMembers type) :=
  decidable_of_iff ((TokenStream.scan b.code).errors = [] ∧ (b.reading type).errors = [] ∧
      Tokens.next (b.reading type).rest = .eof ∧ ∀ m ∈ b.members type, m.render? = none)
    ⟨fun h => ⟨h.1, h.2.1, h.2.2.1, h.2.2.2⟩, fun h => ⟨h.scanned, h.read, h.whole, h.plain⟩⟩

end CodeBlock

namespace Tokens

open TokenKind (isBorder isCloser)

/-! ## Members -/

/-- The tokens are read as the members `items` of `type`, up to places, in front of a border. There is
no render block among them. -/
def Announces (type : Bytes) (items : List Member) (ts : List Token) : Prop :=
  ∃ items' : List Member, items'.map Member.unplaced = items ∧ (∀ m ∈ items', m.render? = none)
    ∧ ∀ k, isBorder (next k) = true → isBorder (next (ts ++ k)) = true ∧
      members type false (ts ++ k) = (members type false k).map (items' ++ ·)

theorem Announces.nil {type : Bytes} : Announces type [] [] :=
  ⟨[], rfl, by simp, fun k hk => ⟨hk, by simp [Reading.map]⟩⟩

theorem Announces.append {type : Bytes} {items more : List Member} {ts us : List Token}
    (h : Announces type items ts) (h' : Announces type more us) :
    Announces type (items ++ more) (ts ++ us) := by
  obtain ⟨is, rfl, his, hread⟩ := h
  obtain ⟨js, rfl, hjs, hread'⟩ := h'
  refine ⟨is ++ js, by simp, List.forall_mem_append.2 ⟨his, hjs⟩, fun k hk => ?_⟩
  obtain ⟨hborder', heq'⟩ := hread' k hk
  obtain ⟨hborder, heq⟩ := hread (us ++ k) hborder'
  rw [List.append_assoc, heq, heq']
  exact ⟨hborder, by simp [Reading.map, Function.comp_def]⟩

theorem announces_inject {type t n : Bytes} {s s' s'' : Span} {w : List Token} (hw : Named t w) :
    Announces type [.data (Injection.image { type := t, name := n, span := {} })]
      (⟨.keyword .injectKw, s⟩ :: (w ++ [⟨.identifier n, s'⟩, ⟨.punct .semicolon, s''⟩])) := by
  refine ⟨[.data ⟨.inject, ⟨t, place w⟩, n, none, s'⟩], rfl, by simp [Member.render?],
    fun k _ => ⟨rfl, ?_⟩⟩
  have hnext : next (⟨.identifier n, s'⟩ :: ⟨.punct .semicolon, s''⟩ :: k) ≠ .punct .dot := by simp [next]
  have hmember : member type false ⟨.keyword .injectKw, s⟩
      (w ++ ⟨.identifier n, s'⟩ :: ⟨.punct .semicolon, s''⟩ :: k) =
        .ok (.data ⟨.inject, ⟨t, place w⟩, n, none, s'⟩) k := by
    simp [member, dataMember, hw.type hnext, place]
  simp only [List.cons_append, List.append_assoc, List.nil_append]
  rw [members_cons (by simp), hmember, Reading.onward_ok (by simp; omega) fun rest => _]
  rfl

theorem startsMember_of_orderly {type : Bytes} {hasRender : Bool} {t : Token} {ts : List Token}
    (h : Reading.Orderly (member type hasRender t ts).errors) : t.kind.startsMember = true := by
  rw [member] at h
  split at h
  · simp [*, TokenKind.startsMember]
  · simp [*, TokenKind.startsMember]
  · simp [*, TokenKind.startsMember]
  · simp [*, TokenKind.startsMember]
  · simp [*, TokenKind.startsMember]
  · exact absurd h (Reading.not_orderly_expected _ _ _)

/-- Members that are read start with a token that members start with. -/
theorem isBorder_members {type : Bytes} {hasRender : Bool} {w k : List Token}
    (hw : Balanced w) (ho : Reading.Orderly (members type hasRender (w ++ k)).errors)
    {k' : List Token} (hk' : isBorder (next k') = true) : isBorder (next (w ++ k')) = true := by
  cases w with
  | nil => exact hk'
  | cons t w =>
    have ht : ¬ (t.kind = .punct .rbrace ∨ t.kind = .eof) := by
      rintro (ht | ht) <;> exact joins_balanced.nil.not_closed (by rw [ht]; rfl) hw
    rw [List.cons_append, members_cons ht] at ho
    exact isBorder_of_startsMember (startsMember_of_orderly (Reading.orderly_append.1 ho).1)

/-- The text of a code block is read in the file as it is read alone. -/
theorem announces_block {type : Bytes} {b : CodeBlock} {ts : List Token} (h : b.IsMembers type)
    (hkinds : (TokenStream.scan b.code).tokens.map (·.kind) = ts.map (·.kind) ++ [TokenKind.eof]) :
    Announces type ((b.members type).map Member.unplaced) ts := by
  obtain ⟨us, t, hus, ht, hne⟩ := TokenStream.exists_tokens_eq {} b.code
  obtain ⟨hsame, hlike⟩ := like_of_kinds hus hkinds
  have hsimilar : Reading.Similar (SameList Member.unplaced Member.Worded) (members type false (ts ++ [t]))
      (members type false (us ++ [t])) := similar_members hlike
  obtain ⟨hvalue, herrors, hrest⟩ := hsimilar
  have hreading : members type false (us ++ [t]) = b.reading type := by
    rw [CodeBlock.reading, ← hus]
    rfl
  rw [hreading] at hvalue herrors hrest
  have hclean : (members type false (ts ++ [t])).errors = [] := by
    rw [h.read] at herrors
    simpa [Reading.SameErrors] using herrors
  have ho : Reading.Orderly (members type false (ts ++ [t])).errors := by
    simp [Reading.Orderly, hclean]
  obtain ⟨w, items, es, again, r, heq, hw, hr, hin⟩ := exists_membersIn ho
  have hread := hin.members_eq hr
  rw [heq, hread] at hvalue hrest hclean
  obtain ⟨rfl, rfl⟩ := hw.eq_of_eof (forall_kind (p := (· ≠ .eof)) hsame hne) ht heq
    (hrest.next_eq.trans h.whole)
  obtain rfl : es = [] := hclean
  have hitems : items.map Member.unplaced = (b.members type).map Member.unplaced := by
    rw [CodeBlock.members]
    generalize (b.reading type).value = value at hvalue
    cases hvalue with
    | some hsame => exact hsame.1
  have hplain : ∀ m ∈ items, m.render? = none := by
    intro m hm
    have hmem : m.unplaced ∈ (b.members type).map Member.unplaced := hitems ▸ List.mem_map_of_mem hm
    obtain ⟨m', hm', hunplaced⟩ := List.mem_map.1 hmem
    have hnone := congrArg Member.render? hunplaced
    rw [render?_unplaced, render?_unplaced, h.plain m' hm'] at hnone
    exact Option.map_eq_none_iff.1 hnone.symm
  have hagain : again = false := by
    rw [hin.again_eq, Bool.false_or, List.any_eq_false]
    exact fun m hm => by simp [Member.isRender, hplain m hm]
  subst hagain
  refine ⟨items, hitems, hplain, fun k hk => ⟨isBorder_members hw ho hk, ?_⟩⟩
  rw [hin.members_append k hk]
  simp [Reading.report]

/-- A render block behind the members of a type, and the brace that closes the type. -/
theorem exists_members_render (type : Bytes) {ops : List RenderOp} {ts : List Token}
    (h : WriteScope.RendersTokens ops ts) : ∃ b : RenderBlock, b.unplaced = { ops, span := {} } ∧
      isBorder (next ts) = true ∧ ∀ s k, members type false (ts ++ ⟨.punct .rbrace, s⟩ :: k) =
        .ok [.render b] (⟨.punct .rbrace, s⟩ :: k) := by
  obtain ⟨s₁, s₂, s₃, w, rfl, hw⟩ := h
  obtain ⟨ops', hops, hread⟩ := hw.renderOps_eq
  refine ⟨{ ops := ops', span := s₁ }, ?_, rfl, fun s k => ?_⟩
  · rw [RenderBlock.unplaced, RenderOp.allUnplaced_eq, hops]
  have hmember : member type false ⟨.keyword .renderKw, s₁⟩ (⟨.punct .lbrace, s₂⟩ ::
      (w ++ ⟨.punct .rbrace, s₃⟩ :: ⟨.punct .rbrace, s⟩ :: k)) =
        .ok (.render { ops := ops', span := s₁ }) (⟨.punct .rbrace, s⟩ :: k) := by
    simp only [member]
    rw [renderBlock_cons, closing_eq rfl (hread s₃ _)]
    exact Reading.andThen_ok _ _ _
  simp only [List.cons_append, List.append_assoc, List.nil_append]
  rw [members_cons (by simp), hmember, Reading.onward_ok (by simp; omega) fun rest => _,
    members_of_isCloser rfl]
  rfl

/-! ## Types -/

/-- The tokens are read as the head `d` of a type, up to places. -/
def Heads (d : TypeDecl) (ts : List Token) : Prop :=
  ∃ d' : TypeDecl, d'.unplaced = d ∧ ∀ k, startsType (next (ts ++ k)) = true ∧ typeHead (ts ++ k) = .ok d' k

/-- The route in front of a type. -/
inductive Routed : Option Bytes → List Token → Prop where
  | none : Routed none []
  | some {r : Bytes} {s s' s'' s₃ : Span} : Routed (some r)
      [⟨.punct .lbracket, s⟩, ⟨.keyword .routeKw, s'⟩, ⟨.string r, s''⟩, ⟨.punct .rbracket, s₃⟩]

/-- The base behind the name of a type. -/
inductive Based : Option Bytes → List Token → Prop where
  | none : Based none []
  | some {n : Bytes} {s : Span} {w : List Token} : Named n w → Based (some n) (⟨.punct .colon, s⟩ :: w)

theorem Routed.routePart {r : Option Bytes} {ts : List Token} (h : Routed r ts) (s : Span)
    (k : List Token) : routePart (ts ++ ⟨.keyword .componentKw, s⟩ :: k) =
      .ok r (⟨.keyword .componentKw, s⟩ :: k) := by
  cases h with
  | none => simp [Tokens.routePart, next]
  | some => simp [Tokens.routePart, next]

/-- Behind the name of a component, its base and its brace are read. -/
theorem typeHead_of_routed {r : Option Bytes} {ts : List Token} (h : Routed r ts) (name : Bytes)
    (s p : Span) (k : List Token) :
    typeHead (ts ++ ⟨.keyword .componentKw, s⟩ :: ⟨.identifier name, p⟩ :: k) =
      Reading.andThen (if next k = .punct .colon then (type k.tail).map some else .ok none k)
        fun base ts => (mark .lbrace ts).map fun _ =>
          { kind := .component, name, base, route := r, span := s } := by
  have hkind (ts : List Token) : typeKind (⟨.keyword .componentKw, s⟩ :: ts) = .ok .component ts := rfl
  rw [typeHead, h.routePart]
  simp only [Reading.andThen_ok, hkind, identifier_cons, place, List.headD_cons]

theorem heads_component (name : Bytes) {r b : Option Bytes} {ts us : List Token} {s p q : Span}
    (hr : Routed r ts) (hb : Based b us) :
    Heads { kind := .component, name, base := b.map fun n => { name := n, span := {} }, route := r,
            span := {} }
      (ts ++ ⟨.keyword .componentKw, s⟩ :: ⟨.identifier name, p⟩ :: (us ++ [⟨.punct .lbrace, q⟩])) := by
  have hstart (k : List Token) : startsType (next (ts ++ ⟨.keyword .componentKw, s⟩ :: k)) = true := by
    cases hr <;> rfl
  cases hb with
  | none =>
    refine ⟨{ kind := .component, name, base := none, route := r, span := s }, rfl, fun k => ?_⟩
    simp only [List.append_assoc, List.cons_append, List.nil_append]
    refine ⟨hstart _, ?_⟩
    rw [typeHead_of_routed hr]
    simp [next]
  | @some n s₃ w hw =>
    refine ⟨{ kind := .component, name, base := some { name := n, span := place w }, route := r,
              span := s }, rfl, fun k => ?_⟩
    simp only [List.append_assoc, List.cons_append, List.nil_append]
    refine ⟨hstart _, ?_⟩
    have hnext : next (⟨.punct .lbrace, q⟩ :: k) ≠ .punct .dot := by simp [next]
    rw [typeHead_of_routed hr]
    simp [next, hw.type hnext]

/-- The tokens are read as the type `d`, up to places. -/
def Types (d : TypeDecl) (ts : List Token) : Prop :=
  ∃ d' : TypeDecl, d'.unplaced = d ∧ ∀ k, startsType (next (ts ++ k)) = true ∧ typeDecl (ts ++ k) = .ok d' k

theorem types_component {d : TypeDecl} {items : List Member} {ops : List RenderOp}
    {hs ms rs : List Token} {s : Span} (hd : Heads d hs) (hm : Announces d.name items ms)
    (hr : WriteScope.RendersTokens ops rs) :
    Types (declOf d (items ++ [Member.render { ops, span := {} }]))
      (hs ++ (ms ++ (rs ++ [⟨.punct .rbrace, s⟩]))) := by
  obtain ⟨d', rfl, hhead⟩ := hd
  obtain ⟨items', rfl, -, hmembers⟩ := hm
  obtain ⟨b, hb, hborder, hrender⟩ := exists_members_render d'.name hr
  refine ⟨declOf d' (items' ++ [Member.render b]), ?_, fun k => ?_⟩
  · rw [unplaced_declOf, List.map_append, List.map_singleton, Member.unplaced, hb]
  simp only [List.append_assoc, List.cons_append, List.nil_append]
  refine ⟨(hhead _).1, ?_⟩
  have hbody : members d'.name false (ms ++ (rs ++ ⟨.punct .rbrace, s⟩ :: k)) =
      .ok (items' ++ [Member.render b]) (⟨.punct .rbrace, s⟩ :: k) := by
    have hnext : isBorder (next (rs ++ ⟨.punct .rbrace, s⟩ :: k)) = true := by
      cases rs with
      | nil => rfl
      | cons => exact hborder
    exact (hmembers _ hnext).2.trans (congrArg (Reading.map _) (hrender s k))
  rw [typeDecl_eq, (hhead _).2, Reading.recover_ok, Reading.andThen_ok]
  exact closing_eq rfl hbody

/-! ## Files -/

/-- The tokens are read as using declarations of the namespaces `us`. -/
def Imports (us : List Bytes) (ts : List Token) : Prop :=
  ∃ us' : List Using, us'.map (·.ns) = us ∧ ∀ hasNs hasType k, unitItems hasNs hasType (ts ++ k) =
    (unitItems hasNs hasType k).map (us'.map .using ++ ·)

theorem Imports.nil : Imports [] [] := ⟨[], rfl, fun _ _ _ => by simp [Reading.map]⟩

theorem Imports.append {us us' : List Bytes} {ts ts' : List Token} (h : Imports us ts)
    (h' : Imports us' ts') : Imports (us ++ us') (ts ++ ts') := by
  obtain ⟨is, rfl, his⟩ := h
  obtain ⟨js, rfl, hjs⟩ := h'
  refine ⟨is ++ js, by simp, fun hasNs hasType k => ?_⟩
  rw [List.append_assoc, his, hjs]
  simp [Reading.map, Function.comp_def]

theorem nameStatement_named {n : Bytes} {w : List Token} (hw : Named n w) (s : Span) (k : List Token) :
    nameStatement (w ++ ⟨.punct .semicolon, s⟩ :: k) = .ok n k := by
  have hnext : next (⟨.punct .semicolon, s⟩ :: k) ≠ .punct .dot := by simp [next]
  simp [nameStatement, hw.qualifiedName hnext]

theorem imports_using {n : Bytes} {s s' : Span} {w : List Token} (hw : Named n w) :
    Imports [n] (⟨.keyword .usingKw, s⟩ :: (w ++ [⟨.punct .semicolon, s'⟩])) := by
  refine ⟨[{ ns := n, span := s }], rfl, fun hasNs hasType k => ?_⟩
  have hitem : unitItem hasNs hasType ⟨.keyword .usingKw, s⟩ (w ++ ⟨.punct .semicolon, s'⟩ :: k) =
      .ok (.using { ns := n, span := s }) k := by
    simp [unitItem, nameStatement_named hw]
  simp only [List.cons_append, List.append_assoc, List.nil_append]
  rw [unitItems_cons (by simp), hitem, Reading.onward_ok (by simp; omega) fun rest => _]
  rfl

/-- The namespace in front of a file, if it has one. -/
inductive Spaced : Bytes → List Token → Prop where
  | none : Spaced [] []
  | some {n : Bytes} {s s' : Span} {w : List Token} : Named n w →
      Spaced n (⟨.keyword .namespaceKw, s⟩ :: (w ++ [⟨.punct .semicolon, s'⟩]))

theorem unitItems_namespace {n : Bytes} {s s' : Span} {w : List Token} (hw : Named n w)
    (k : List Token) :
    unitItems false false (⟨.keyword .namespaceKw, s⟩ :: (w ++ ⟨.punct .semicolon, s'⟩ :: k)) =
      (unitItems true false k).map (UnitItem.ns n :: ·) := by
  have hitem : unitItem false false ⟨.keyword .namespaceKw, s⟩ (w ++ ⟨.punct .semicolon, s'⟩ :: k) =
      .ok (.ns n) k := by
    simp [unitItem, nameStatement_named hw]
    rfl
  rw [unitItems_cons (by simp), hitem, Reading.onward_ok (by simp; omega) fun rest => _]
  rfl

theorem Types.unitItems_eq {d : TypeDecl} {ts : List Token} (h : Types d ts) {e : Token}
    (he : e.kind = .eof) : ∃ d' : TypeDecl, d'.unplaced = d ∧ ∀ hasNs,
      unitItems hasNs false (ts ++ [e]) = .ok [.type d'] [e] := by
  obtain ⟨d', hd, hread⟩ := h
  refine ⟨d', hd, fun hasNs => ?_⟩
  obtain ⟨hstart, htype⟩ := hread [e]
  cases ts with
  | nil =>
    rw [List.nil_append, next_cons, he] at hstart
    cases hstart
  | cons t ts =>
    rw [List.cons_append] at hstart htype ⊢
    rw [next_cons] at hstart
    have ht : t.kind ≠ .eof := by
      intro ht
      rw [ht] at hstart
      cases hstart
    rw [unitItems_cons ht, unitItem_type hstart, htype, Reading.map_ok,
      Reading.onward_ok (by simp) fun rest => _, unitItems_of_eof he]
    rfl

/-- A file of a namespace, usings and one type is read as these, without errors. -/
theorem exists_unitItems {n : Bytes} {us : List Bytes} {d : TypeDecl} {ts ts' ts'' : List Token}
    {e : Token} (hn : Spaced n ts) (hus : Imports us ts') (hd : Types d ts'') (he : e.kind = .eof) :
    ∃ items, unitItems false false (ts ++ (ts' ++ (ts'' ++ [e]))) = .ok items [e] ∧
      ∀ file ds, (SyntaxTree.ofItems file items ds).ns = n
        ∧ (SyntaxTree.ofItems file items ds).usings.map (·.ns) = us
        ∧ (SyntaxTree.ofItems file items ds).types.map TypeDecl.unplaced = [d] := by
  obtain ⟨us', rfl, himports⟩ := hus
  obtain ⟨d', rfl, htype⟩ := hd.unitItems_eq he
  cases hn with
  | none =>
    refine ⟨us'.map UnitItem.using ++ [UnitItem.type d'], ?_, fun file ds => ?_⟩
    · rw [List.nil_append, himports, htype]
      rfl
    · simp [SyntaxTree.ofItems]
  | some hw =>
    refine ⟨.ns n :: (us'.map UnitItem.using ++ [UnitItem.type d']), ?_, fun file ds => ?_⟩
    · simp only [List.cons_append, List.append_assoc, List.nil_append]
      rw [unitItems_namespace hw, himports, htype]
      rfl
    · simp [SyntaxTree.ofItems]

end Tokens

end ViewCompiler
