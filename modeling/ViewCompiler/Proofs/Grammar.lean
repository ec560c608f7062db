import ViewCompiler.Proofs.MemberConsumption

/-!
The grammar of the component language (section 6.2 of the specification), over the kinds of tokens.
Each relation says which words write a given tree, whatever the places in it.

The grammar is read with what the specification leaves open: a type may be a built-in keyword
wherever one stands, using directives may follow types, a file has at most one namespace and none
behind a type, a type at most one render block and a component operation at most one child block.
-/

namespace ViewCompiler

/-- The precedence of an operator. -/
def BinaryOp.precedence : BinaryOp → Precedence
  | or => .disjunction
  | and => .conjunction
  | eq | ne => .equality
  | lt | gt | le | ge => .comparison
  | add | sub => .additive
  | mul | div | mod => .multiplicative

theorem Precedence.operator?_eq_some {p : Precedence} {k : TokenKind} {op : BinaryOp} :
    p.operator? k = some op ↔ k = .punct op.mark ∧ op.precedence = p := by
  constructor
  · intro h
    unfold Precedence.operator? at h
    split at h <;> cases h <;> exact ⟨rfl, rfl⟩
  · rintro ⟨rfl, rfl⟩
    cases op <;> rfl

/-- The keyword that a data member starts with. -/
def MemberKind.keyword : MemberKind → Keyword
  | param => .paramKw
  | inject => .injectKw
  | field => .fieldKw

/-- The keyword that a type starts with. -/
def TypeKind.keyword : TypeKind → Keyword
  | component => .componentKw
  | cls => .classKw

namespace Grammar

/-- Kinds of tokens in a row. -/
abbrev Word := List TokenKind

/-! ## Lists -/

section
variable {α : Type} (P : α → Word → Prop)

/-- Any number of items. -/
inductive Many : List α → Word → Prop
  | nil : Many [] []
  | cons : P a u → Many as v → Many (a :: as) (u ++ v)

/-- Any number of items with commas between them. -/
inductive Commas : List α → Word → Prop
  | nil : Commas [] []
  | one : P a w → Commas [a] w
  | cons : P a u → Commas (b :: bs) v → Commas (a :: b :: bs) (u ++ .punct .comma :: v)

end

/-! ## Names and types -/

/-- Identifiers with dots between them. -/
inductive Name : Bytes → Word → Prop
  | one : Name n [.identifier n]
  | dotted : Name m w → Name (n ++ Ascii.dot :: m) (.identifier n :: .punct .dot :: w)

/-- A built-in keyword or a name. -/
inductive TypeName : Bytes → Word → Prop
  | builtin : k.isBuiltinType = true → TypeName k.text [.keyword k]
  | name : Name n w → TypeName n w

/-! ## Expressions -/

/-- Expressions of a precedence or a tighter one, or operands if no precedence is given. -/
inductive Term : Option Precedence → Expr → Word → Prop
  | int : Term none (.int s v) [.int d v]
  | string : Term none (.string s t) [.string t]
  | true : Term none (.bool s true) [.keyword .trueKw]
  | false : Term none (.bool s false) [.keyword .falseKw]
  | name : Term none (.name s n) [.identifier n]
  | not : Term none e w → Term none (.unary s .not e) (.punct .bang :: w)
  | neg : Term none e w → Term none (.unary s .neg e) (.punct .minus :: w)
  | paren : Term (some .disjunction) e w →
    Term none e (.punct .lparen :: (w ++ [.punct .rparen]))
  | tighter : Term p.tighter? e w → Term (some p) e w
  | binary {op : BinaryOp} : Term (some op.precedence) l u → Term op.precedence.tighter? r v →
    Term (some op.precedence) (.binary s op l r) (u ++ .punct op.mark :: v)

/-- An expression. -/
abbrev Expression : Expr → Word → Prop := Term (some .disjunction)

/-! ## Statements -/

mutual

inductive Statement : Stmt → Word → Prop
  | assign : Expression e w →
    Statement (.assign s n e) (.identifier n :: .punct .assign :: (w ++ [.punct .semicolon]))
  | call : Commas Expression es w →
    Statement (.call s none m es)
      (.identifier m :: .punct .lparen :: (w ++ [.punct .rparen, .punct .semicolon]))
  | callOn : Commas Expression es w →
    Statement (.call s (some n) m es)
      (.identifier n :: .punct .dot :: .identifier m :: .punct .lparen ::
        (w ++ [.punct .rparen, .punct .semicolon]))
  | conditional : Conditional c w → Statement c (.keyword .ifKw :: w)
  | ret : Statement (.ret s) [.keyword .returnKw, .punct .semicolon]

/-- A conditional behind its `if`. -/
inductive Conditional : Stmt → Word → Prop
  | plain : Expression e u → Block ss v →
    Conditional (.cond s e ss []) (.punct .lparen :: (u ++ .punct .rparen :: v))
  | elseBlock : Expression e u → Block ss v → Block ss' w →
    Conditional (.cond s e ss ss')
      (.punct .lparen :: (u ++ .punct .rparen :: (v ++ .keyword .elseKw :: w)))
  | elseIf : Expression e u → Block ss v → Conditional c w →
    Conditional (.cond s e ss [c])
      (.punct .lparen :: (u ++ .punct .rparen :: (v ++ .keyword .elseKw :: .keyword .ifKw :: w)))

inductive Block : List Stmt → Word → Prop
  | intro : Statements ss w → Block ss (.punct .lbrace :: (w ++ [.punct .rbrace]))

inductive Statements : List Stmt → Word → Prop
  | nil : Statements [] []
  | cons : Statement c u → Statements ss v → Statements (c :: ss) (u ++ v)

end

/-! ## Render operations -/

mutual

inductive Operation : RenderOp → Word → Prop
  | openElement : Operation (.openElement s t) [.keyword .openKw, .string t, .punct .semicolon]
  | attr : Expression e w →
    Operation (.attr s n e)
      (.keyword .attrKw :: .string n :: .punct .assign :: (w ++ [.punct .semicolon]))
  | closeElement : Operation (.closeElement s) [.keyword .closeKw, .punct .semicolon]
  | text : Operation (.text s t) [.keyword .textKw, .string t, .punct .semicolon]
  | value : Expression e w → Operation (.value s e) (.keyword .exprKw :: (w ++ [.punct .semicolon]))
  | component : TypeName n u → Content args childSpan child w →
    Operation (.component s ⟨n, p⟩ args childSpan child)
      (.keyword .componentKw :: (u ++ .punct .lbrace :: (w ++ [.punct .rbrace])))

/-- Arguments of a component and at most one child block, in any order. -/
inductive Content : List ComponentArg → Option Span → List RenderOp → Word → Prop
  | nil : Content [] none [] []
  | arg : Expression e u → Content args childSpan child w →
    Content (⟨n, e, s⟩ :: args) childSpan child
      (.keyword .attrKw :: .identifier n :: .punct .assign :: (u ++ .punct .semicolon :: w))
  | child : Render ops u → Content args none [] w →
    Content args (some s) ops (.keyword .childKw :: (u ++ w))

inductive Render : List RenderOp → Word → Prop
  | intro : Operations ops w → Render ops (.punct .lbrace :: (w ++ [.punct .rbrace]))

inductive Operations : List RenderOp → Word → Prop
  | nil : Operations [] []
  | cons : Operation op u → Operations ops v → Operations (op :: ops) (u ++ v)

end

/-! ## Declarations -/

/-- The initial value of a member. -/
inductive Init : Option Expr → Word → Prop
  | none : Init none []
  | some : Expression e w → Init (some e) (.punct .assign :: w)

inductive Param : Parameter → Word → Prop
  | intro : TypeName n u → Param ⟨⟨n, p⟩, m, s⟩ (u ++ [.identifier m])

/-- A member of a type. Only fields have initial values. -/
inductive Member : Tokens.Member → Word → Prop
  | data {kind : MemberKind} : TypeName n u → Init init v → (init.isSome → kind = .field) →
    Member (.data ⟨kind, ⟨n, p⟩, m, init, s⟩)
      (.keyword kind.keyword :: (u ++ .identifier m :: (v ++ [.punct .semicolon])))
  | method : Commas Param ps u → Block ss v →
    Member (.method ⟨m, ps, ss, s⟩)
      (.keyword .methodKw :: .identifier m :: .punct .lparen :: (u ++ .punct .rparen :: v))
  | render : Render ops w → Member (.render ⟨ops, s⟩) (.keyword .renderKw :: w)

inductive Route : Option Bytes → Word → Prop
  | none : Route none []
  | some : Route (some r)
      [.punct .lbracket, .keyword .routeKw, .string r, .punct .rbracket]

inductive Base : Option TypeRef → Word → Prop
  | none : Base none []
  | some : TypeName n w → Base (some ⟨n, p⟩) (.punct .colon :: w)

/-- A type with at most one render block. -/
inductive Declaration : TypeDecl → Word → Prop
  | intro {kind : TypeKind} {ms : List Tokens.Member} : Route route u → Base base v →
    Many Member ms w → (ms.filter (·.isRender)).length ≤ 1 →
    Declaration (Tokens.declOf { kind, name, base, route, span } ms)
      (u ++ .keyword kind.keyword :: .identifier name ::
        (v ++ .punct .lbrace :: (w ++ [.punct .rbrace])))

end Grammar

namespace Tokens.UnitItem

def isNamespace : UnitItem → Bool
  | ns _ => true
  | _ => false

def isType : UnitItem → Bool
  | type _ => true
  | _ => false

end Tokens.UnitItem

namespace Grammar

/-- What stands at the top of a file. -/
inductive Item : Tokens.UnitItem → Word → Prop
  | ns : Name n w → Item (.ns n) (.keyword .namespaceKw :: (w ++ [.punct .semicolon]))
  | using : Name n w → Item (.using ⟨n, s⟩) (.keyword .usingKw :: (w ++ [.punct .semicolon]))
  | type : Declaration d w → Item (.type d) w

/-- A file: at most one namespace, and none behind a type. -/
structure File (items : List Tokens.UnitItem) (w : Word) : Prop where
  listed : Many Item items w
  single : (items.filter (·.isNamespace)).length ≤ 1
  early : items.Pairwise fun i j => i.isType = true → j.isNamespace = false

/-! ## The end of the text -/

section
variable {α : Type} {P : α → Word → Prop}

theorem Many.eof_notMem (hP : ∀ {a w}, P a w → .eof ∉ w) {as : List α} {w : Word}
    (h : Many P as w) : .eof ∉ w := by
  induction h with
  | nil => simp
  | cons ha _ ih => simp [hP ha, ih]

theorem Commas.eof_notMem (hP : ∀ {a w}, P a w → .eof ∉ w) {as : List α} {w : Word}
    (h : Commas P as w) : .eof ∉ w := by
  induction h with
  | nil => simp
  | one ha => exact hP ha
  | cons ha _ ih => simp [hP ha, ih]

end

theorem Name.eof_notMem {n : Bytes} {w : Word} (h : Name n w) : .eof ∉ w := by
  induction h <;> simp [*]

theorem TypeName.eof_notMem {n : Bytes} {w : Word} (h : TypeName n w) : .eof ∉ w := by
  cases h with
  | builtin => simp
  | name hn => exact hn.eof_notMem

theorem Term.eof_notMem {q : Option Precedence} {e : Expr} {w : Word} (h : Term q e w) : .eof ∉ w := by
  induction h <;> simp [*]

mutual

theorem Statement.eof_notMem {c : Stmt} {w : Word} : Statement c w → .eof ∉ w
  | .assign he => by simp [he.eof_notMem]
  | .call hes | .callOn hes => by simp [hes.eof_notMem Term.eof_notMem]
  | .conditional hc => by simp [hc.eof_notMem]
  | .ret => by simp

theorem Conditional.eof_notMem {c : Stmt} {w : Word} : Conditional c w → .eof ∉ w
  | .plain he hss => by simp [he.eof_notMem, hss.eof_notMem]
  | .elseBlock he hss hss' => by simp [he.eof_notMem, hss.eof_notMem, hss'.eof_notMem]
  | .elseIf he hss hc => by simp [he.eof_notMem, hss.eof_notMem, hc.eof_notMem]

theorem Block.eof_notMem {ss : List Stmt} {w : Word} : Block ss w → .eof ∉ w
  | .intro hss => by simp [hss.eof_notMem]

theorem Statements.eof_notMem {ss : List Stmt} {w : Word} : Statements ss w → .eof ∉ w
  | .nil => by simp
  | .cons hc hss => by simp [hc.eof_notMem, hss.eof_notMem]

end

mutual

theorem Operation.eof_notMem {op : RenderOp} {w : Word} : Operation op w → .eof ∉ w
  | .openElement | .closeElement | .text => by simp
  | .attr he | .value he => by simp [he.eof_notMem]
  | .component hn hc => by simp [hn.eof_notMem, hc.eof_notMem]

theorem Content.eof_notMem {args : List ComponentArg} {childSpan : Option Span}
    {child : List RenderOp} {w : Word} : Content args childSpan child w → .eof ∉ w
  | .nil => by simp
  | .arg he hc => by simp [he.eof_notMem, hc.eof_notMem]
  | .child hr hc => by simp [hr.eof_notMem, hc.eof_notMem]

theorem Render.eof_notMem {ops : List RenderOp} {w : Word} : Render ops w → .eof ∉ w
  | .intro hops => by simp [hops.eof_notMem]

theorem Operations.eof_notMem {ops : List RenderOp} {w : Word} : Operations ops w → .eof ∉ w
  | .nil => by simp
  | .cons hop hops => by simp [hop.eof_notMem, hops.eof_notMem]

end

theorem Member.eof_notMem {m : Tokens.Member} {w : Word} (h : Member m w) : .eof ∉ w := by
  cases h with
  | data hn hi =>
    cases hi with
    | none => simp [hn.eof_notMem]
    | some he => simp [hn.eof_notMem, he.eof_notMem]
  | method hps hss =>
    have hparam {p : Parameter} {w : Word} (h : Param p w) : .eof ∉ w := by
      cases h with
      | intro hn => simp [hn.eof_notMem]
    simp [hps.eof_notMem hparam, hss.eof_notMem]
  | render hr => simp [hr.eof_notMem]

theorem Declaration.eof_notMem {d : TypeDecl} {w : Word} (h : Declaration d w) : .eof ∉ w := by
  cases h with
  | intro hr hb hms =>
    have hmembers := hms.eof_notMem Member.eof_notMem
    cases hr <;> cases hb with
    | none => simp [hmembers]
    | some hn => simp [hmembers, hn.eof_notMem]

theorem Item.eof_notMem {i : Tokens.UnitItem} {w : Word} (h : Item i w) : .eof ∉ w := by
  cases h with
  | ns hn | «using» hn => simp [hn.eof_notMem]
  | type hd => exact hd.eof_notMem

end Grammar

end ViewCompiler
