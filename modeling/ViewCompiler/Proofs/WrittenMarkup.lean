import ViewCompiler.Proofs.Numerals
import ViewCompiler.Proofs.RenderAppended
import ViewCompiler.Proofs.WrittenTokens

/-!
The tokens of written markup. `Tokens.Markup` is the grammar of what a render block is written of,
with the names of the components in it; `WriteScope.writes_nodes` says that the markup of a template
is written so, if its expressions can be parsed and the types of the table have names that can be
written.
-/

namespace ViewCompiler

/-! ## Names -/

namespace Bytes

/-- A text that is scanned as one identifier. -/
def IsWord (w : Bytes) : Prop := w.isIdentifier = true ∧ Keyword.ofText? w = none

instance (w : Bytes) : Decidable w.IsWord := inferInstanceAs (Decidable (_ ∧ _))

/-- Words with dots between them. -/
inductive IsQualified : Bytes → Prop where
  | word {w : Bytes} : IsWord w → IsQualified w
  | dot {w m : Bytes} : IsWord w → IsQualified m → IsQualified (w ++ Ascii.dot :: m)

theorem IsQualified.append {m n : Bytes} (hm : IsQualified m) (hn : IsQualified n) :
    IsQualified (m ++ Ascii.dot :: n) := by
  induction hm with
  | word hw => exact .dot hw hn
  | dot hw _ ih =>
    rw [List.append_assoc]
    exact .dot hw ih

theorem IsQualified.ne_nil {m : Bytes} (h : IsQualified m) : m ≠ [] := by
  cases h with
  | word hw =>
    rintro rfl
    cases hw.1
  | dot => simp

theorem IsQualified.head {m : Bytes} (h : IsQualified m) :
    ∃ b bs, m = b :: bs ∧ Ascii.isNameStart b = true := by
  have word {w : Bytes} (hw : IsWord w) : ∃ b bs, w = b :: bs ∧ Ascii.isNameStart b = true := by
    cases w with
    | nil => cases hw.1
    | cons b bs => exact ⟨b, bs, rfl, by simpa using (Bool.and_eq_true_iff.1 hw.1).1⟩
  cases h with
  | word hw => exact word hw
  | dot hw _ =>
    obtain ⟨b, bs, rfl, hb⟩ := word hw
    exact ⟨b, _, rfl, hb⟩

end Bytes

namespace Tokens

/-- The tokens of a name. -/
inductive Named : Bytes → List Token → Prop where
  | word {n : Bytes} {s : Span} : Named n [⟨.identifier n, s⟩]
  | dot {n m : Bytes} {s s' : Span} {w : List Token} :
      Named m w → Named (n ++ Ascii.dot :: m) (⟨.identifier n, s⟩ :: ⟨.punct .dot, s'⟩ :: w)

theorem Named.flat {m : Bytes} {w : List Token} (h : Named m w) : Flat w := by
  induction h with
  | word => exact .single rfl
  | dot _ ih => exact joins_flat.cons (.single rfl) (joins_flat.cons (.single rfl) ih)

end Tokens

namespace TokenStream

open Tokens (Named)

variable {x : UInt8} {v : Bytes} {P : List Token → Prop}

theorem writes_keyword (k : Keyword) (hx : Ascii.isNameByte x = false) (h : Writes (x :: v) P) :
    Writes (k.text ++ x :: v) (Leads (.keyword k) P) := by
  have hw : k.text.isIdentifier = true := by cases k <;> rfl
  have hk : wordKind k.text = .keyword k := by cases k <;> rfl
  exact hk ▸ writes_word hw hx h

theorem writes_name {m : Bytes} (hm : m.IsQualified) (hx : Ascii.isNameByte x = false)
    (h : Writes (x :: v) P) :
    Writes (m ++ x :: v) (Joined (Named m) P) := by
  have kind {w : Bytes} (hw : w.IsWord) : wordKind w = .identifier w := by rw [wordKind, hw.2]
  induction hm with
  | word hw =>
    refine (writes_word hw.1 hx h).mono ?_
    rintro _ ⟨s, us, rfl, hus⟩
    exact ⟨[⟨_, s⟩], us, rfl, kind hw ▸ .word, hus⟩
  | @dot w m hw hm ih =>
    obtain ⟨b, bs, rfl, hb⟩ := hm.head
    rw [List.append_assoc]
    have hdot : Punct.ofTwoBytes? Ascii.dot b = none := ofTwoBytes?_eq_none (by decide) b
    refine (writes_word hw.1 rfl (writes_mark rfl rfl hdot ih)).mono ?_
    rintro _ ⟨s, _, rfl, s', _, rfl, w, us, rfl, hw', hus⟩
    exact ⟨⟨_, s⟩ :: ⟨_, s'⟩ :: w, us, rfl, kind hw ▸ .dot hw', hus⟩

end TokenStream

/-! ## The grammar of markup -/

namespace Tokens

open TokenStream (Valued wordKind)

/-- Arguments of a component. -/
inductive Arguments : List Token → Prop where
  | nil : Arguments []
  | cons {n : Bytes} {s s' s'' : Span} {v ts : List Token} :
      Valued v → Arguments ts →
      Arguments (⟨.keyword .attrKw, s⟩ :: ⟨wordKind n, s'⟩ :: ⟨.punct .assign, s''⟩ :: (v ++ ts))

/-- Written markup, and the names of its components in order. -/
inductive Markup : List Bytes → List Token → Prop where
  | nil : Markup [] []
  | append {ns ns' : List Bytes} {ts ts' : List Token} :
      Markup ns ts → Markup ns' ts' → Markup (ns ++ ns') (ts ++ ts')
  | openElement {tag : Bytes} {s s' s'' : Span} :
      Markup [] [⟨.keyword .openKw, s⟩, ⟨.string tag, s'⟩, ⟨.punct .semicolon, s''⟩]
  | attr {n : Bytes} {s s' s'' : Span} {v : List Token} :
      Valued v → Markup [] (⟨.keyword .attrKw, s⟩ :: ⟨.string n, s'⟩ :: ⟨.punct .assign, s''⟩ :: v)
  | closeElement {s s' : Span} : Markup [] [⟨.keyword .closeKw, s⟩, ⟨.punct .semicolon, s'⟩]
  | text {t : Bytes} {s s' s'' : Span} :
      Markup [] [⟨.keyword .textKw, s⟩, ⟨.string t, s'⟩, ⟨.punct .semicolon, s''⟩]
  | value {s : Span} {v : List Token} : Valued v → Markup [] (⟨.keyword .exprKw, s⟩ :: v)
  | leaf {n : Bytes} {s s' s'' : Span} {w args : List Token} :
      Named n w → Arguments args →
      Markup [n] (⟨.keyword .componentKw, s⟩ :: (w ++ ⟨.punct .lbrace, s'⟩ ::
        (args ++ [⟨.punct .rbrace, s''⟩])))
  | component {n : Bytes} {ns : List Bytes} {s₁ s₂ s₃ s₄ s₅ s₆ : Span} {w args ts : List Token} :
      Named n w → Arguments args → Markup ns ts →
      Markup (n :: ns) (⟨.keyword .componentKw, s₁⟩ :: (w ++ ⟨.punct .lbrace, s₂⟩ ::
        (args ++ ⟨.keyword .childKw, s₃⟩ :: ⟨.punct .lbrace, s₄⟩ ::
          (ts ++ [⟨.punct .rbrace, s₅⟩, ⟨.punct .rbrace, s₆⟩]))))

theorem Arguments.flat {ts : List Token} (h : Arguments ts) : Flat ts := by
  have word (n : Bytes) : (wordKind n).isPlain = true := by
    rw [wordKind]
    split <;> rfl
  induction h with
  | nil => exact joins_flat.nil
  | cons hv _ ih =>
    exact joins_flat.cons (.single rfl) (joins_flat.cons (.single (word _))
      (joins_flat.cons (.single rfl) (joins_flat.append hv.flat ih)))

theorem Arguments.append {ts us : List Token} (h : Arguments ts) (h' : Arguments us) :
    Arguments (ts ++ us) := by
  induction h with
  | nil => exact h'
  | cons hv _ ih =>
    simp only [List.cons_append, List.append_assoc]
    exact .cons hv ih

theorem Balanced.component (s s' s'' : Span) {w ts : List Token} (hw : Flat w)
    (hts : Balanced ts) : Balanced (⟨.keyword .componentKw, s⟩ :: (w ++ ⟨.punct .lbrace, s'⟩ ::
      (ts ++ [⟨.punct .rbrace, s''⟩]))) :=
  joins_balanced.cons (.single rfl) (hw.balanced.append (.block rfl rfl hts))

theorem Markup.balanced {ns : List Bytes} {ts : List Token} (h : Markup ns ts) : Balanced ts := by
  induction h with
  | nil => exact joins_balanced.nil
  | append _ _ ih ih' => exact ih.append ih'
  | openElement | closeElement | text => exact Flat.balanced (by simp [Flat, TokenKind.isPlain])
  | attr hv =>
    exact Flat.balanced (joins_flat.cons (.single rfl) (joins_flat.cons (.single rfl)
      (joins_flat.cons (.single rfl) hv.flat)))
  | value hv => exact Flat.balanced (joins_flat.cons (.single rfl) hv.flat)
  | leaf hw ha => exact .component _ _ _ hw.flat ha.flat.balanced
  | @component n ns s₁ s₂ s₃ s₄ s₅ s₆ w args ts hw ha _ ih =>
    have hchild : Balanced (⟨.keyword .childKw, s₃⟩ :: (⟨.punct .lbrace, s₄⟩ :: ts ++
        [⟨.punct .rbrace, s₅⟩])) := joins_balanced.cons (.single rfl) (.block rfl rfl ih)
    simpa using Balanced.component s₁ s₂ s₆ hw.flat (ha.flat.balanced.append hchild)

/-- The tokens of a render block with the components `ns`, up to the end of its file. -/
structure MarkupTail (ns : List Bytes) (k : List Token) : Prop where
  exists_eq : ∃ (s s' : Span) (w : List Token) (c b e : Token),
    k = ⟨.keyword .renderKw, s⟩ :: ⟨.punct .lbrace, s'⟩ :: (w ++ c :: b :: [e])
      ∧ Markup ns w ∧ c.kind = .punct .rbrace ∧ b.kind = .punct .rbrace ∧ e.kind = .eof

theorem MarkupTail.renderTail {ns : List Bytes} {k : List Token} (h : MarkupTail ns k) :
    RenderTail k := by
  obtain ⟨s, s', w, c, b, e, hk, hw, hends⟩ := h.exists_eq
  exact ⟨s, s', w, c, b, e, hk, hw.balanced, hends⟩

end Tokens

/-! ## Markup as it is written -/

namespace Attribute

/-- The expression of the attribute, if it has one, can be parsed. -/
def Sound (a : Attribute) : Prop := ∀ code, a.expression? = some code → (Expr.parse? code).isSome = true

end Attribute

namespace Node

/-- All expressions of the markup can be parsed. -/
inductive Sound : Node → Prop where
  | text {span : Span} {t : Bytes} : Sound (.text span t)
  | expr {span : Span} {code : Bytes} : (Expr.parse? code).isSome = true → Sound (.expr span code)
  | element {span : Span} {tag : Bytes} {attributes : List Attribute} {children : List Node} :
      (∀ a ∈ attributes, a.Sound) → (∀ n ∈ children, Sound n) →
      Sound (.element span tag attributes children)

end Node

namespace SymbolTable

/-- The types of the table have names that can be written. -/
def Nameable (t : SymbolTable) : Prop := ∀ s ∈ t.types, s.fullName.IsQualified

theorem Nameable.nameOf {t : SymbolTable} (h : t.Nameable) {id : TypeId} {s : TypeSymbol}
    (hs : t.get? id = some s) : (t.nameOf id).IsQualified := by
  rw [SymbolTable.nameOf, hs]
  exact h s (List.mem_of_getElem? hs)

end SymbolTable

namespace WriteScope

open TokenStream
open Tokens (Flat Markup Arguments)

variable {c : WriteScope} {v : Bytes} {P : List Token → Prop}

theorem writes_lineMark (digits : Bytes) (hd : Ascii.lf ∉ digits) (h : Writes v P) :
    Writes ("#line " ++ digits ++ "\n" ++ v) P := by
  have hlf : Ascii.lf ∉ ("line " : Bytes) ++ digits := by
    rw [List.mem_append, not_or]
    exact ⟨by decide, hd⟩
  have hline : ("#line " : Bytes) = Ascii.hash :: ("line " : Bytes) := rfl
  have hend : ("\n" : Bytes) = [Ascii.lf] := rfl
  simpa [hline, hend] using writes_directive hlf h

theorem writes_mapLine (s : Span) (h : Writes v P) : Writes (c.mapLine s ++ v) P :=
  writes_lineMark _ (Bytes.not_mem_ofNat rfl) h

/-! ### Statements -/

theorem writes_opening (k : Keyword) {t : Bytes} (ht : t = k.text ++ [Ascii.space])
    (h : Writes v P) : Writes (t ++ v) (Leads (.keyword k) P) := by
  rw [ht, List.append_assoc]
  exact writes_keyword k rfl (writes_blank rfl h)

theorem writes_semicolon : Writes ";\n" (Leads (.punct .semicolon) (· = [])) :=
  writes_mark (b := Ascii.semicolon) rfl rfl rfl (writes_blank rfl (.nil rfl))

theorem writes_lbrace (h : Writes v P) : Writes ("\x7b\n" ++ v) (Leads (.punct .lbrace) P) :=
  writes_mark (b := Ascii.lbrace) rfl rfl rfl (writes_blank rfl h)

theorem scans_rbrace (cursor : Cursor) (ys : Bytes) :
    ∃ s cursor', Scans cursor ("\x7d\n" ++ ys) [⟨.punct .rbrace, s⟩] cursor' ys :=
  scans_mark rfl rfl rfl rfl cursor ys

theorem writes_rbrace : Writes "\x7d\n" (Leads (.punct .rbrace) (· = [])) :=
  writes_mark (b := Ascii.rbrace) rfl rfl rfl (writes_blank rfl (.nil rfl))

/-- Texts that stand for the value of an attribute. -/
def Stands (w : Bytes) : Prop := Writes (w ++ ";\n") Valued

theorem stands_expression {code : Bytes} (h : (Expr.parse? code).isSome = true) : Stands code :=
  writes_expression h

theorem Stands.of_leads {w : Bytes} {k : TokenKind} (hk : k.isTerm = true)
    (h : Writes (w ++ ";\n") (Leads k (Leads (.punct .semicolon) (· = [])))) : Stands w := by
  refine h.mono ?_
  rintro _ ⟨s, _, rfl, s', _, rfl, rfl⟩
  exact ⟨[⟨k, s⟩], [⟨_, s'⟩], rfl, Tokens.termed_single hk, .inr ⟨s', rfl⟩⟩

theorem stands_quote (t : Bytes) : Stands (Literal.quote t) :=
  .of_leads rfl (writes_quote t writes_semicolon)

theorem stands_true : Stands "true" := .of_leads rfl (writes_keyword .trueKw rfl writes_semicolon)

theorem writes_text (span : Span) (t : Bytes) :
    Writes (c.mapLine span ++ "text " ++ Literal.quote t ++ ";\n") (Markup []) := by
  simp only [List.append_assoc]
  refine (writes_mapLine span (writes_opening .textKw rfl (writes_quote t writes_semicolon))).mono ?_
  rintro _ ⟨s, _, rfl, s', _, rfl, s'', _, rfl, rfl⟩
  exact .text

theorem writes_expr (span : Span) {code : Bytes} (h : (Expr.parse? code).isSome = true) :
    Writes (c.mapLine span ++ "expr " ++ code ++ ";\n") (Markup []) := by
  simp only [List.append_assoc]
  refine (writes_mapLine span (writes_opening .exprKw rfl (stands_expression h))).mono ?_
  rintro _ ⟨s, v, rfl, hv⟩
  exact .value hv

theorem writes_open (span : Span) (tag : Bytes) :
    Writes (c.mapLine span ++ "open " ++ Literal.quote tag ++ ";\n") (Markup []) := by
  simp only [List.append_assoc]
  refine (writes_mapLine span (writes_opening .openKw rfl (writes_quote tag writes_semicolon))).mono ?_
  rintro _ ⟨s, _, rfl, s', _, rfl, s'', _, rfl, rfl⟩
  exact .openElement

theorem writes_close : Writes "close;\n" (Markup []) := by
  refine Writes.mono (writes_keyword .closeKw rfl writes_semicolon) ?_
  rintro _ ⟨s, _, rfl, s', _, rfl, rfl⟩
  exact .closeElement

theorem writes_assign {w : Bytes} (h : Stands w) :
    Writes (" = " ++ (w ++ ";\n")) (Leads (.punct .assign) Valued) :=
  writes_blank rfl (writes_mark (b := Ascii.equal) rfl rfl rfl (writes_blank rfl h))

theorem writes_elementAttribute {a : Attribute} (h : a.Sound) :
    Writes (c.elementAttribute a) (Markup []) := by
  rw [elementAttribute]
  simp only [List.append_assoc]
  refine (writes_mapLine a.span (writes_opening .attrKw rfl
    (writes_quote a.plainName (writes_assign ?_)))).mono ?_
  · split
    · next code _ hcode => exact stands_expression (h _ hcode)
    · exact stands_quote _
    · exact stands_true
  · rintro _ ⟨s, _, rfl, s', _, rfl, s'', v, rfl, hv⟩
    exact .attr hv

/-! ### Components -/

theorem code_append (a b : Written) : (a ++ b).code = a.code ++ b.code := rfl

theorem code_text (t : Bytes) : (Written.text t).code = t := rfl

theorem code_all (parts : List Written) : (Written.all parts).code = parts.flatMap (·.code) := by
  have h (w : Written) : (parts.foldl (· ++ ·) w).code = w.code ++ parts.flatMap (·.code) := by
    induction parts generalizing w with
    | nil => simp
    | cons p parts ih => rw [List.foldl_cons, ih, code_append, List.flatMap_cons, List.append_assoc]
  exact h {}

theorem stands_argument {type : TypeId} {a : Attribute} (h : a.Sound) :
    Stands (c.argument type a).code := by
  rw [argument]
  split
  · next code _ hcode => exact stands_expression (h _ hcode)
  · exact stands_true
  · split
    · exact stands_quote _
    · split
      · exact stands_quote _
      · split
        · next hvalue => exact stands_expression hvalue
        · exact stands_quote _

theorem writes_componentAttribute {type : TypeId} {a : Attribute} (h : a.Sound) :
    Writes (c.componentAttribute type a).code Arguments := by
  rw [componentAttribute]
  split
  · next hname =>
    simp only [code_append, code_text, List.append_assoc]
    refine (writes_mapLine a.span (writes_opening .attrKw rfl
      (writes_word hname rfl (writes_assign (stands_argument h))))).mono ?_
    rintro _ ⟨s, _, rfl, s', _, rfl, s'', v, rfl, hv⟩
    rw [← List.append_nil v]
    exact .cons hv .nil
  · exact .nil .nil

/-- The component that an element means, if it means one. -/
def meaning? (c : WriteScope) (span : Span) (tag : Bytes) : Option TypeId :=
  if isComponentTag tag then (c.component? span tag).1 else none

mutual

/-- The components that the elements of a node mean, in order. -/
def components (c : WriteScope) : Node → List TypeId
  | .text _ _ | .expr _ _ => []
  | .element span tag _ children =>
    (c.meaning? span tag).toList ++ c.allComponents children

def allComponents (c : WriteScope) : List Node → List TypeId
  | [] => []
  | n :: ns => c.components n ++ c.allComponents ns

end

/-- An element means a component that its tag resolves to. -/
theorem resolve_of_meaning? {span : Span} {tag : Bytes} {type : TypeId}
    (h : c.meaning? span tag = some type) : (c.table.resolve tag c.ns c.usings).type = some type
      ∧ ∃ s, c.table.get? type = some s ∧ s.isComponent = true := by
  rw [meaning?] at h
  split at h
  · dsimp only [component?] at h
    split at h
    · cases h
    · split at h
      · next hfound =>
        split at h
        · next hany =>
          cases h
          exact ⟨hfound, (Option.any_eq_true _ _).1 hany⟩
        · cases h
      · cases h
  · cases h

/-- The child block of a component, if it has one. -/
def childText (c : WriteScope) (children : List Node) : Bytes :=
  if children.all (·.isBlank) then []
  else "child \x7b\n" ++ ((c.nodes children).code ++ "\x7d\n")

theorem code_node_component {span : Span} {tag : Bytes} {attributes : List Attribute}
    {children : List Node} {type : TypeId} (h : c.meaning? span tag = some type) :
    (c.node (.element span tag attributes children)).code =
      c.mapLine span ++ ("component " ++ (c.table.nameOf type ++ (" \x7b\n"
        ++ (attributes.flatMap (fun a => (c.componentAttribute type a).code)
        ++ (c.childText children ++ "\x7d\n"))))) := by
  rw [meaning?] at h
  rw [node]
  split at h
  · next htag =>
    simp only [htag, if_true, h, code_append, code_all, code_text, List.append_assoc, List.flatMap_map,
      childText]
    split <;> simp [code_append, code_text]
  · cases h

theorem code_node_element {span : Span} {tag : Bytes} {attributes : List Attribute}
    {children : List Node} (h : c.meaning? span tag = none) :
    (c.node (.element span tag attributes children)).code =
      (c.mapLine span ++ "open " ++ Literal.quote tag ++ ";\n")
        ++ (attributes.flatMap c.elementAttribute ++ ((c.nodes children).code ++ "close;\n")) := by
  rw [meaning?] at h
  rw [node]
  split at h
  · next htag => simp only [htag, if_true, h, code_append, code_text, List.append_assoc]
  · next htag => simp [htag, code_append, code_text]

/-! ### Nodes -/

theorem writes_elementAttributes {attributes : List Attribute} (h : ∀ a ∈ attributes, a.Sound) :
    Writes (attributes.flatMap c.elementAttribute) (Markup []) :=
  .flatMap .nil .append fun a ha => writes_elementAttribute (h a ha)

theorem writes_componentAttributes (type : TypeId) {attributes : List Attribute}
    (h : ∀ a ∈ attributes, a.Sound) :
    Writes (attributes.flatMap fun a => (c.componentAttribute type a).code) Arguments :=
  .flatMap .nil .append fun a ha => writes_componentAttribute (h a ha)

theorem writes_nodes_of {ns : List Node}
    (h : ∀ n ∈ ns, Writes (c.node n).code (Markup ((c.components n).map c.table.nameOf))) :
    Writes (c.nodes ns).code (Markup ((c.allComponents ns).map c.table.nameOf)) := by
  induction ns with
  | nil =>
    rw [nodes, allComponents]
    exact .nil .nil
  | cons n ns ih =>
    rw [nodes, allComponents, code_append, List.map_append]
    exact (h n (by simp)).append (ih fun m hm => h m (by simp [hm])) .append

theorem allComponents_of_isBlank {ns : List Node} (h : ns.all (·.isBlank) = true) :
    c.allComponents ns = [] := by
  induction ns with
  | nil => rw [allComponents]
  | cons n ns ih =>
    rw [List.all_cons, Bool.and_eq_true] at h
    rw [allComponents, ih h.2]
    cases n with
    | text => rw [components, List.append_nil]
    | expr | element => cases h.1

/-- A component with its child block, if it has one. -/
theorem writes_component (ht : c.table.Nameable) {span : Span} {tag : Bytes} {type : TypeId}
    (hm : c.meaning? span tag = some type) {attributes : List Attribute} {children : List Node}
    (ha : ∀ a ∈ attributes, a.Sound)
    (hc : Writes (c.nodes children).code (Markup ((c.allComponents children).map c.table.nameOf))) :
    Writes (c.node (.element span tag attributes children)).code
      (Markup ((type :: c.allComponents children).map c.table.nameOf)) := by
  obtain ⟨-, symbol, hs, -⟩ := resolve_of_meaning? hm
  have start {v : Bytes} {P : List Token → Prop} (h : Writes v P) :=
    writes_mapLine (c := c) span (writes_opening .componentKw (t := "component ") rfl
      (writes_name (ht.nameOf hs) (x := Ascii.space) rfl (writes_blank rfl (writes_lbrace h))))
  have args := writes_componentAttributes (c := c) type ha
  rw [code_node_component hm, childText]
  split
  · next hblank =>
    rw [allComponents_of_isBlank hblank]
    refine Writes.mono (start (args.joined writes_rbrace)) ?_
    rintro _ ⟨s, _, rfl, w, _, rfl, hw, s', _, rfl, as, _, rfl, has, s'', _, rfl, rfl⟩
    exact .leaf hw has
  · have child := writes_keyword .childKw (x := Ascii.space) rfl (writes_blank rfl (writes_lbrace
      ((hc.joined writes_rbrace).joined writes_rbrace)))
    refine Writes.mono (start (args.joined child)) ?_
    rintro _ ⟨s₁, _, rfl, w, _, rfl, hw, s₂, _, rfl, as, _, rfl, has, s₃, _, rfl, s₄, _, rfl,
      _, _, rfl, ⟨ts, _, rfl, hts, s₅, _, rfl, rfl⟩, s₆, _, rfl, rfl⟩
    simp only [List.append_assoc, List.singleton_append]
    exact .component hw has hts

/-- The markup of a node, with its components by their names. -/
theorem writes_node (ht : c.table.Nameable) {n : Node} (h : n.Sound) :
    Writes (c.node n).code (Markup ((c.components n).map c.table.nameOf)) := by
  induction h with
  | @text span t =>
    rw [node, components]
    split
    · exact .nil .nil
    · exact writes_text span t
  | @expr span code h =>
    rw [node, components]
    exact writes_expr span h
  | @element span tag attributes children ha _ ih =>
    rw [components]
    cases hm : c.meaning? span tag with
    | some type => exact writes_component ht hm ha (writes_nodes_of ih)
    | none =>
      rw [code_node_element hm]
      have content := (writes_nodes_of ih).append writes_close Markup.append
      rw [List.append_nil] at content
      exact (writes_open span tag).append ((writes_elementAttributes ha).append content .append) .append

theorem writes_nodes (ht : c.table.Nameable) {ns : List Node} (h : ∀ n ∈ ns, n.Sound) :
    Writes (c.nodes ns).code (Markup ((c.allComponents ns).map c.table.nameOf)) :=
  writes_nodes_of fun n hn => writes_node ht (h n hn)

/-! ### The render block -/

/-- The tokens of a render block. -/
def RenderTokens (names : List Bytes) (ts : List Token) : Prop :=
  ∃ s s' s'' w, ts = ⟨.keyword .renderKw, s⟩ :: ⟨.punct .lbrace, s'⟩ :: (w ++ [⟨.punct .rbrace, s''⟩])
    ∧ Markup names w

theorem writes_render (ht : c.table.Nameable) {t : Template} (h : ∀ n ∈ t.nodes, n.Sound) :
    Writes (c.render t).code (RenderTokens ((c.allComponents t.nodes).map c.table.nameOf)) := by
  have default : Writes ("#line default\n\x7d\n" : Bytes) (Leads (.punct .rbrace) (· = [])) :=
    writes_lineMark "default" (by decide) writes_rbrace
  have block := writes_keyword .renderKw (x := Ascii.space) rfl (writes_blank rfl (writes_lbrace
    ((writes_nodes ht h).joined default)))
  rw [render]
  simp only [code_append, code_text, List.append_assoc]
  refine Writes.mono block ?_
  rintro _ ⟨s, _, rfl, s', _, rfl, w, _, rfl, hw, s'', _, rfl, rfl⟩
  exact ⟨s, s', s'', w, rfl, hw⟩

/-- A render block and the brace that ends its type. -/
theorem markupTail_of_clean (ht : c.table.Nameable) {t : Template} (h : ∀ n ∈ t.nodes, n.Sound)
    {cursor : Cursor} (hclean : (scanFrom cursor ((c.render t).code ++ "\x7d\n")).errors = []) :
    Tokens.MarkupTail ((c.allComponents t.nodes).map c.table.nameOf)
      (scanFrom cursor ((c.render t).code ++ "\x7d\n")).tokens := by
  have hw := (writes_render ht h).joined writes_rbrace
  rw [← List.append_nil ((c.render t).code ++ _)] at hclean ⊢
  obtain ⟨_, c', hs, _, _, rfl, ⟨s, s', s'', w, rfl, hmarkup⟩, s₃, _, rfl, rfl⟩ := hw cursor [] hclean
  rw [hs.scanFrom_eq, scanFrom]
  exact ⟨s, s', w, ⟨_, s''⟩, ⟨_, s₃⟩, ⟨.eof, c'.span⟩, by simp, hmarkup, rfl, rfl, rfl⟩

end WriteScope

end ViewCompiler
