import ViewCompiler.Proofs.PrintedOps
import ViewCompiler.Proofs.PrintedTokens
import ViewCompiler.Proofs.TemplateSoundness

/-!
Markup and the render operations it stands for. `WriteScope.image` gives the operations of a node
directly, without the text between. `WriteScope.Printable.prints` says that the text that is written
for a node is read as its image, up to places, if what is copied into it bare can stand there: names
that are words, and expressions that can stand in front of a semicolon.
-/

namespace ViewCompiler

/-! ## Values -/

/-- The expression that a text is, without places. -/
def Expr.ofCode (code : Bytes) : Expr := ((Expr.parse? code).getD default).unplaced

/-- What an attribute is given: an expression, text, or nothing. -/
inductive AttributeValue where
  | code (code : Bytes)
  | text (text : Bytes)
  | flag
deriving DecidableEq, Repr

namespace AttributeValue

def code? : AttributeValue → Option Bytes
  | code c => some c
  | _ => none

def image : AttributeValue → Expr
  | code c => .ofCode c
  | text t => .string {} t
  | flag => .bool {} true

/-- How the value is written. -/
def written : AttributeValue → Bytes
  | code c => c
  | text t => Literal.quote t
  | flag => "true"

end AttributeValue

/-- What an attribute of an element is given. -/
def Attribute.given (a : Attribute) : AttributeValue :=
  a.expression?.elim (a.value.elim .flag .text) .code

/-! ## Images -/

namespace WriteScope

/-- Whether a component takes the value of that attribute as text: only what its parameters of
another type are given is an expression. -/
def takesText (c : WriteScope) (type : TypeId) (name : Bytes) : Bool :=
  ((c.table.findMember? type name).bind c.table.member?).all fun m =>
    m.kind ≠ .param ∨ m.type = ("string" : Bytes)

/-- What an attribute of a component is given. -/
def given (c : WriteScope) (type : TypeId) (a : Attribute) : AttributeValue :=
  a.expression?.elim (a.value.elim .flag fun value =>
    if c.takesText type a.plainName then .text value else .code value) .code

def attributeImage (a : Attribute) : RenderOp := .attr {} a.plainName a.given.image

def argumentImage (c : WriteScope) (type : TypeId) (a : Attribute) : ComponentArg where
  name := a.plainName
  value := (c.given type a).image
  span := {}

mutual

/-- The render operations that a node stands for, without places. -/
def image (c : WriteScope) : Node → List RenderOp
  | .text _ t => if t.all Ascii.isSpace then [] else [.text {} t]
  | .expr _ code => [.value {} (.ofCode code)]
  | .element span tag attributes children =>
    (c.meaning? span tag).elim
      (.openElement {} tag :: (attributes.map attributeImage ++ (c.imageAll children
        ++ [.closeElement {}])))
      fun type => [.component {} { name := c.table.nameOf type, span := {} }
        (attributes.map (c.argumentImage type))
        (if children.all (·.isBlank) then none else some {}) (c.imageAll children)]

def imageAll (c : WriteScope) : List Node → List RenderOp
  | [] => []
  | n :: ns => c.image n ++ c.imageAll ns

end

mutual

/-- The expressions in the markup, as they are written. -/
def codes (c : WriteScope) : Node → List Bytes
  | .text _ _ => []
  | .expr _ code => [code]
  | .element span tag attributes children =>
    attributes.filterMap (fun a => ((c.meaning? span tag).elim a.given (c.given · a)).code?)
      ++ c.allCodes children

def allCodes (c : WriteScope) : List Node → List Bytes
  | [] => []
  | n :: ns => c.codes n ++ c.allCodes ns

end

mutual

/-- The names of the attributes that components have in the markup. -/
def parameters (c : WriteScope) : Node → List Bytes
  | .text _ _ | .expr _ _ => []
  | .element span tag attributes children =>
    (c.meaning? span tag).elim [] (fun _ => attributes.map (·.plainName)) ++ c.allParameters children

def allParameters (c : WriteScope) : List Node → List Bytes
  | [] => []
  | n :: ns => c.parameters n ++ c.allParameters ns

end

end WriteScope

/-! ## Places -/

namespace Node

/-- All places of the markup have the property `Q`. -/
inductive Placed (Q : Span → Prop) : Node → Prop where
  | text {span : Span} {t : Bytes} : Q span → Placed Q (.text span t)
  | expr {span : Span} {code : Bytes} : Q span → Placed Q (.expr span code)
  | element {span : Span} {tag : Bytes} {attributes : List Attribute} {children : List Node} :
      Q span → (∀ a ∈ attributes, Q a.span) → (∀ n ∈ children, Placed Q n) →
      Placed Q (.element span tag attributes children)

end Node

/-! ## Reports -/

namespace WriteScope

variable {c : WriteScope}

theorem reports_append (a b : Written) : (a ++ b).reports = a.reports ++ b.reports := rfl

theorem reports_text (t : Bytes) : (Written.text t).reports = [] := rfl

theorem reports_all (parts : List Written) :
    (Written.all parts).reports = parts.flatMap (·.reports) := by
  have h (w : Written) : (parts.foldl (· ++ ·) w).reports = w.reports ++ parts.flatMap (·.reports) := by
    induction parts generalizing w with
    | nil => simp
    | cons p parts ih =>
      rw [List.foldl_cons, ih, reports_append, List.flatMap_cons, List.append_assoc]
  exact h {}

theorem mem_allParts {α : Type} {f : Node → List α} {F : List Node → List α}
    (hF : ∀ n ns, F (n :: ns) = f n ++ F ns) {ns : List Node} {n : Node} (hn : n ∈ ns) : f n ⊆ F ns := by
  induction ns with
  | nil => cases hn
  | cons m ns ih =>
    rw [hF]
    rcases List.mem_cons.1 hn with rfl | hn
    · exact List.subset_append_left _ _
    · exact List.Subset.trans (ih hn) (List.subset_append_right _ _)

theorem reports_nodes_of_isBlank {ns : List Node} (h : ns.all (·.isBlank) = true) :
    (c.nodes ns).reports = [] := by
  induction ns with
  | nil => rfl
  | cons n ns ih =>
    rw [List.all_cons, Bool.and_eq_true] at h
    rw [nodes, reports_append, ih h.2]
    cases n with
    | text span t =>
      have ht : t.all Ascii.isSpace = true := h.1
      rw [node, if_pos ht]
      rfl
    | expr | element => cases h.1

/-- What is reported of attributes of a component. -/
theorem reports_componentAttribute_subset {span : Span} {tag : Bytes} {attributes : List Attribute}
    {children : List Node} {type : TypeId} (h : c.meaning? span tag = some type) {a : Attribute}
    (ha : a ∈ attributes) : (c.componentAttribute type a).reports ⊆
      (c.node (.element span tag attributes children)).reports := by
  rw [meaning?] at h
  rw [node]
  split at h
  · next htag =>
    simp only [htag, if_true, h, reports_append, reports_all, List.flatMap_map]
    intro r hr
    simp only [List.mem_append]
    exact .inl (.inl (.inr (List.mem_flatMap.2 ⟨a, ha, hr⟩)))
  · cases h

/-- What is reported of the content of an element. -/
theorem reports_nodes_subset {span : Span} {tag : Bytes} {attributes : List Attribute}
    {children : List Node} : (c.nodes children).reports ⊆
      (c.node (.element span tag attributes children)).reports := by
  rw [node]
  intro r hr
  generalize (if isComponentTag tag then c.component? span tag else (none, [])) = found
  obtain ⟨component, reports⟩ := found
  cases component with
  | none => simp [reports_append, hr]
  | some type =>
    dsimp only
    split
    · next hblank =>
      rw [reports_nodes_of_isBlank hblank] at hr
      cases hr
    · simp [reports_append, hr]

/-! ## Printing -/

open TokenStream
open Tokens (Shows Passes Stated)

variable {s : Bool} {v : Bytes} {P : List Token → Prop}

theorem prints_mapLine {span : Span} (hs : c.item.userLine span.line ≠ 0) (h : Prints true v P) :
    Prints true (c.mapLine span ++ v) P := by
  refine prints_lineNumber (Nat.pos_of_ne_zero fun h => hs ?_) (UInt32.toNat_lt _) h
  exact UInt32.toNat_inj.1 h

theorem prints_semicolon : Prints s ";\n" (Leads (.punct .semicolon) (· = [])) :=
  prints_mark_lf (b := Ascii.semicolon) rfl rfl rfl (.nil rfl)

theorem prints_lbrace (h : Prints true v P) : Prints s ("\x7b\n" ++ v) (Leads (.punct .lbrace) P) :=
  prints_mark_lf (b := Ascii.lbrace) rfl rfl rfl h

theorem prints_rbrace : Prints s "\x7d\n" (Leads (.punct .rbrace) (· = [])) :=
  prints_mark_lf (b := Ascii.rbrace) rfl rfl rfl (.nil rfl)

/-- A value that can be printed: an expression must be one and must leave the semicolon behind it. -/
def Sayable (g : AttributeValue) : Prop :=
  ∀ code, g.code? = some code → Inline {} code ∧ (Expr.parse? code).isSome = true

theorem prints_expression {code : Bytes} (hi : Inline {} code) (h : (Expr.parse? code).isSome = true) :
    Prints false (code ++ ";\n") (Stated (.ofCode code)) := by
  obtain ⟨e, he⟩ := Option.isSome_iff_exists.1 h
  refine (prints_statement hi (expr_of_parse? he).1).mono ?_
  rintro _ ⟨us, s, rfl, hkinds⟩
  refine ⟨us, s, rfl, ?_⟩
  rw [Expr.ofCode, he, Option.getD_some]
  exact Tokens.spells_of_parse? he hkinds

theorem prints_value {g : AttributeValue} (h : Sayable g) :
    Prints false (g.written ++ ";\n") (Stated g.image) := by
  cases g with
  | code code => exact prints_expression (h code rfl).1 (h code rfl).2
  | text t =>
    refine (prints_quote t prints_semicolon).mono ?_
    rintro _ ⟨s, _, rfl, s', _, rfl, rfl⟩
    exact ⟨[_], s', rfl, Tokens.spells_string t s⟩
  | flag =>
    refine Prints.mono (prints_keyword .trueKw rfl prints_semicolon) ?_
    rintro _ ⟨s, _, rfl, s', _, rfl, rfl⟩
    exact ⟨[_], s', rfl, Tokens.spells_true s⟩

theorem prints_assign {g : AttributeValue} (h : Sayable g) :
    Prints s (" = " ++ (g.written ++ ";\n")) (Leads (.punct .assign) (Stated g.image)) :=
  prints_space (prints_mark (b := Ascii.equal) rfl rfl rfl (prints_space (prints_value h)))

theorem prints_text {span : Span} (hs : c.item.userLine span.line ≠ 0) (t : Bytes) :
    Prints true (c.mapLine span ++ "text " ++ Literal.quote t ++ ";\n") (Shows [.text {} t]) := by
  simp only [List.append_assoc]
  refine (prints_mapLine hs (prints_opening .textKw rfl (prints_quote t prints_semicolon))).mono ?_
  rintro _ ⟨s, _, rfl, s', _, rfl, s'', _, rfl, rfl⟩
  exact Tokens.shows_text

theorem prints_expr {span : Span} (hs : c.item.userLine span.line ≠ 0) {code : Bytes}
    (hi : Inline {} code) (h : (Expr.parse? code).isSome = true) :
    Prints true (c.mapLine span ++ "expr " ++ code ++ ";\n") (Shows [.value {} (.ofCode code)]) := by
  simp only [List.append_assoc]
  refine (prints_mapLine hs (prints_opening .exprKw rfl (prints_expression hi h))).mono ?_
  rintro _ ⟨s, v, rfl, hv⟩
  exact Tokens.shows_value hv

theorem prints_open {span : Span} (hs : c.item.userLine span.line ≠ 0) (tag : Bytes) :
    Prints true (c.mapLine span ++ "open " ++ Literal.quote tag ++ ";\n")
      (Shows [.openElement {} tag]) := by
  simp only [List.append_assoc]
  refine (prints_mapLine hs (prints_opening .openKw rfl (prints_quote tag prints_semicolon))).mono ?_
  rintro _ ⟨s, _, rfl, s', _, rfl, s'', _, rfl, rfl⟩
  exact Tokens.shows_openElement

theorem prints_close : Prints true "close;\n" (Shows [.closeElement {}]) := by
  refine Prints.mono (prints_keyword .closeKw rfl prints_semicolon) ?_
  rintro _ ⟨s, _, rfl, s', _, rfl, rfl⟩
  exact Tokens.shows_closeElement

/-! ### Attributes -/

theorem elementAttribute_eq (a : Attribute) : c.elementAttribute a =
    c.mapLine a.span ++ ("attr " ++ (Literal.quote a.plainName ++ (" = " ++ (a.given.written ++ ";\n")))) := by
  rw [elementAttribute, Attribute.given]
  cases a.expression? with
  | some code => simp [AttributeValue.written]
  | none => cases a.value <;> simp [AttributeValue.written]

theorem isSome_of_given {a : Attribute} (ha : a.Sound) {code : Bytes}
    (hcode : a.given.code? = some code) : (Expr.parse? code).isSome = true := by
  refine ha code ?_
  rw [Attribute.given] at hcode
  cases hexpr : a.expression? with
  | some e => simpa [hexpr, AttributeValue.code?] using hcode
  | none => cases hval : a.value <;> simp [hexpr, hval, AttributeValue.code?] at hcode

theorem prints_elementAttribute {a : Attribute} (hs : c.item.userLine a.span.line ≠ 0)
    (h : Sayable a.given) : Prints true (c.elementAttribute a) (Shows [attributeImage a]) := by
  rw [elementAttribute_eq]
  refine (prints_mapLine hs (prints_opening .attrKw rfl
    (prints_quote a.plainName (prints_assign h)))).mono ?_
  rintro _ ⟨s, _, rfl, s', _, rfl, s'', v, rfl, hv⟩
  exact Tokens.shows_attr hv

/-- Without an error the value of an argument is written as it is given. -/
theorem code_argument {type : TypeId} {a : Attribute} (ha : a.Sound)
    (h : ¬ Faulty (c.argument type a).reports) :
    (c.argument type a).code = (c.given type a).written ∧
      ∀ code, (c.given type a).code? = some code → (Expr.parse? code).isSome = true := by
  rw [argument] at h ⊢
  rw [given, takesText]
  cases hexpr : a.expression? with
  | some code =>
    refine ⟨rfl, ?_⟩
    rintro _ ⟨⟩
    exact ha code hexpr
  | none =>
    cases hval : a.value with
    | none => exact ⟨rfl, by simp [AttributeValue.code?]⟩
    | some value =>
      cases hm : (c.table.findMember? type a.plainName).bind c.table.member? with
      | none => exact ⟨rfl, by simp [AttributeValue.code?]⟩
      | some m =>
        simp only [hexpr, hval, hm] at h ⊢
        by_cases htext : m.kind ≠ .param ∨ m.type = ("string" : Bytes)
        · simp [htext, AttributeValue.code?, AttributeValue.written, Written.text]
        · simp only [if_neg htext] at h ⊢
          simp only [Option.elim, Option.all_some, decide_eq_true_eq, if_neg htext]
          split at h
          · next hvalue =>
            refine ⟨by rw [if_pos hvalue]; rfl, ?_⟩
            rintro _ ⟨⟩
            exact hvalue
          · exact absurd ⟨_, List.mem_singleton.2 rfl, rfl⟩ h

theorem prints_componentAttribute {type : TypeId} {a : Attribute} (ha : a.Sound)
    (hs : c.item.userLine a.span.line ≠ 0) (hn : a.plainName.IsWord)
    (hp : ∀ code, (c.given type a).code? = some code → Inline {} code)
    (h : ¬ Faulty (c.componentAttribute type a).reports) :
    Prints true (c.componentAttribute type a).code (Passes [c.argumentImage type a]) := by
  rw [componentAttribute, if_pos hn.1] at h ⊢
  simp only [reports_append, reports_text, List.nil_append, List.append_nil] at h
  obtain ⟨hcode, hparse⟩ := code_argument ha h
  have hsay : Sayable (c.given type a) := fun code hc => ⟨hp code hc, hparse code hc⟩
  simp only [code_append, code_text, List.append_assoc, hcode]
  refine (prints_mapLine hs (prints_opening .attrKw rfl (prints_word hn rfl (prints_assign hsay)))).mono ?_
  rintro _ ⟨s, _, rfl, s', _, rfl, s'', v, rfl, hv⟩
  exact Tokens.passes_arg hv

/-- Texts that are printed one after the other. -/
theorem prints_flatMap {α β : Type} {R : List β → List Token → Prop} {f : α → Bytes}
    {g : α → List β} (hnil : R [] [])
    (happend : ∀ {as bs ts us}, R as ts → R bs us → R (as ++ bs) (ts ++ us)) {xs : List α}
    (h : ∀ x ∈ xs, Prints true (f x) (R (g x))) : Prints true (xs.flatMap f) (R (xs.flatMap g)) := by
  induction xs with
  | nil => exact .nil hnil
  | cons x xs ih =>
    rw [List.flatMap_cons, List.flatMap_cons]
    exact (h x (by simp)).append (ih fun y hy => h y (by simp [hy])) happend

theorem prints_map {α β : Type} {R : List β → List Token → Prop} {f : α → Bytes} {g : α → β}
    (hnil : R [] []) (happend : ∀ {as bs ts us}, R as ts → R bs us → R (as ++ bs) (ts ++ us))
    {xs : List α} (h : ∀ x ∈ xs, Prints true (f x) (R [g x])) :
    Prints true (xs.flatMap f) (R (xs.map g)) := by
  rw [List.map_eq_flatMap]
  exact prints_flatMap hnil happend h

/-! ### Nodes -/

theorem imageAll_of_isBlank {ns : List Node} (h : ns.all (·.isBlank) = true) : c.imageAll ns = [] := by
  induction ns with
  | nil => rw [imageAll]
  | cons n ns ih =>
    rw [List.all_cons, Bool.and_eq_true] at h
    rw [imageAll, ih h.2]
    cases n with
    | text span t =>
      have ht : t.all Ascii.isSpace = true := h.1
      rw [image, if_pos ht, List.append_nil]
    | expr | element => cases h.1

theorem prints_nodes_of {ns : List Node}
    (h : ∀ n ∈ ns, Prints true (c.node n).code (Shows (c.image n))) :
    Prints true (c.nodes ns).code (Shows (c.imageAll ns)) := by
  induction ns with
  | nil =>
    rw [nodes, imageAll]
    exact .nil .nil
  | cons n ns ih =>
    rw [nodes, imageAll, code_append]
    exact (h n (by simp)).append (ih fun m hm => h m (by simp [hm])) .append

theorem prints_component {span : Span} {tag : Bytes} {attributes : List Attribute}
    {children : List Node} {type : TypeId} (hm : c.meaning? span tag = some type)
    (hs : c.item.userLine span.line ≠ 0) (hn : (c.table.nameOf type).IsQualified)
    (ha : ∀ a ∈ attributes, Prints true (c.componentAttribute type a).code
      (Passes [c.argumentImage type a]))
    (hc : Prints true (c.nodes children).code (Shows (c.imageAll children))) :
    Prints true (c.node (.element span tag attributes children)).code
      (Shows (c.image (.element span tag attributes children))) := by
  have start {v : Bytes} {P : List Token → Prop} (h : Prints true v P) :=
    prints_mapLine (c := c) hs (prints_opening .componentKw (t := "component ") rfl
      (prints_name hn (x := Ascii.space) rfl (prints_space (prints_lbrace h))))
  have args := prints_map .nil .append ha
  rw [code_node_component hm, childText, image, hm, Option.elim_some]
  split
  · next hblank =>
    rw [imageAll_of_isBlank hblank]
    refine Prints.mono (start (args.joined prints_rbrace)) ?_
    rintro _ ⟨s, _, rfl, w, _, rfl, hw, s', _, rfl, as, _, rfl, has, s'', _, rfl, rfl⟩
    exact Tokens.shows_component hw has.fills
  · have child := prints_opening (s := true) .childKw (t := "child ") rfl (prints_lbrace
      ((hc.joined prints_rbrace).joined prints_rbrace))
    refine Prints.mono (start (args.joined child)) ?_
    rintro _ ⟨s₁, _, rfl, w, _, rfl, hw, s₂, _, rfl, as, _, rfl, has, s₃, _, rfl, s₄, _, rfl,
      _, _, rfl, ⟨ts, _, rfl, hts, s₅, _, rfl, rfl⟩, s₆, _, rfl, rfl⟩
    have hfills := has.fills_child (s := s₃) (p := s₄) (q := s₅) hts
    have hshows := Tokens.shows_component (s := s₁) (p := s₂) (q := s₆) hw hfills
    simpa using hshows

/-- Markup that is printed and read back: its expressions can be parsed and can stand in front of a
semicolon, names that are copied are words, all places have a line number, and nothing is reported
as an error. -/
structure Printable (c : WriteScope) (n : Node) : Prop where
  sound : n.Sound
  placed : n.Placed fun s => c.item.userLine s.line ≠ 0
  clean : ¬ Faulty (c.node n).reports
  codes : ∀ code ∈ c.codes n, Inline {} code
  names : ∀ type ∈ c.components n, (c.table.nameOf type).IsQualified
  parameters : ∀ p ∈ c.parameters n, p.IsWord

namespace Printable

variable {span : Span} {tag : Bytes} {attributes : List Attribute} {children : List Node}

theorem child (h : c.Printable (.element span tag attributes children)) {n : Node}
    (hn : n ∈ children) : c.Printable n where
  sound := by
    cases h.sound with
    | element _ hchildren => exact hchildren n hn
  placed := by
    cases h.placed with
    | element _ _ hchildren => exact hchildren n hn
  clean hf := h.clean ((hf.mono (mem_allParts (F := fun ns => (c.nodes ns).reports)
    (fun m ns => by rw [nodes, reports_append]) hn)).mono reports_nodes_subset)
  codes code hcode := h.codes code (by
    rw [WriteScope.codes]
    exact List.mem_append_right _ (mem_allParts (fun m ns => by rw [allCodes]) hn hcode))
  names type htype := h.names type (by
    rw [components]
    exact List.mem_append_right _ (mem_allParts (fun m ns => by rw [allComponents]) hn htype))
  parameters p hp := h.parameters p (by
    rw [WriteScope.parameters]
    exact List.mem_append_right _ (mem_allParts (fun m ns => by rw [allParameters]) hn hp))

theorem place (h : c.Printable (.element span tag attributes children)) :
    c.item.userLine span.line ≠ 0 ∧ ∀ a ∈ attributes, c.item.userLine a.span.line ≠ 0 := by
  cases h.placed with
  | element hspan hattributes _ => exact ⟨hspan, hattributes⟩

theorem attribute_sound (h : c.Printable (.element span tag attributes children)) :
    ∀ a ∈ attributes, a.Sound := by
  cases h.sound with
  | element hattributes _ => exact hattributes

theorem inline_of_given (h : c.Printable (.element span tag attributes children)) {a : Attribute}
    (ha : a ∈ attributes) {code : Bytes}
    (hcode : ((c.meaning? span tag).elim a.given (c.given · a)).code? = some code) : Inline {} code :=
  h.codes code (by
    rw [WriteScope.codes]
    exact List.mem_append_left _ (List.mem_filterMap.2 ⟨a, ha, hcode⟩))

/-- The attributes of an element that is no component. -/
theorem prints_elementAttributes (h : c.Printable (.element span tag attributes children))
    (hm : c.meaning? span tag = none) : Prints true (attributes.flatMap c.elementAttribute)
      (Shows (attributes.map attributeImage)) := by
  refine prints_map .nil .append fun a ha => ?_
  refine prints_elementAttribute (h.place.2 a ha) fun code hcode => ⟨?_, ?_⟩
  · exact h.inline_of_given ha (by rw [hm]; exact hcode)
  · exact isSome_of_given (h.attribute_sound a ha) hcode

theorem prints_componentAttributes (h : c.Printable (.element span tag attributes children))
    {type : TypeId} (hm : c.meaning? span tag = some type) : ∀ a ∈ attributes,
      Prints true (c.componentAttribute type a).code (Passes [c.argumentImage type a]) := by
  intro a ha
  refine prints_componentAttribute (h.attribute_sound a ha) (h.place.2 a ha) ?_ ?_ ?_
  · refine h.parameters _ ?_
    rw [WriteScope.parameters, hm]
    exact List.mem_append_left _ (List.mem_map_of_mem ha)
  · exact fun code hcode => h.inline_of_given ha (by rw [hm]; exact hcode)
  · exact fun hf => h.clean (hf.mono (reports_componentAttribute_subset hm ha))

/-- What is written for a node is read as its image. -/
theorem prints {n : Node} (h : c.Printable n) : Prints true (c.node n).code (Shows (c.image n)) := by
  have hsound := h.sound
  induction hsound with
  | @text span t =>
    have hs : c.item.userLine span.line ≠ 0 := by
      cases h.placed
      assumption
    rw [node, image]
    split
    · exact .nil .nil
    · exact prints_text hs t
  | @expr span code hparse =>
    have hs : c.item.userLine span.line ≠ 0 := by
      cases h.placed
      assumption
    rw [node, image]
    exact prints_expr hs (h.codes code (by simp [WriteScope.codes])) hparse
  | @element span tag attributes children _ _ ih =>
    have hchildren := prints_nodes_of fun m hm => ih m hm (h.child hm)
    cases hm : c.meaning? span tag with
    | some type =>
      refine prints_component hm h.place.1 (h.names type ?_) (h.prints_componentAttributes hm) hchildren
      simp [components, hm]
    | none =>
      rw [code_node_element hm, image, hm, Option.elim_none]
      exact (prints_open h.place.1 tag).append ((h.prints_elementAttributes hm).append
        (hchildren.append prints_close .append) .append) .append

end Printable

/-- The tokens of a render block with the operations `ops`. -/
def RendersTokens (ops : List RenderOp) (ts : List Token) : Prop :=
  ∃ s s' s'' w, ts = ⟨.keyword .renderKw, s⟩ :: ⟨.punct .lbrace, s'⟩ ::
    (w ++ [⟨.punct .rbrace, s''⟩]) ∧ Shows ops w

theorem prints_render {t : Template} (h : ∀ n ∈ t.nodes, c.Printable n) :
    Prints true (c.render t).code (RendersTokens (c.imageAll t.nodes)) := by
  have default : Prints true ("#line default\n" ++ ("\x7d\n" : Bytes)) (Leads (.punct .rbrace) (· = [])) :=
    prints_lineDefault prints_rbrace
  have block := prints_opening (s := true) .renderKw (t := "render ") rfl (prints_lbrace
    ((prints_nodes_of fun n hn => (h n hn).prints).joined default))
  rw [render]
  simp only [code_append, code_text, List.append_assoc]
  refine Prints.mono block ?_
  rintro _ ⟨s, _, rfl, s', _, rfl, w, _, rfl, hw, s'', _, rfl, rfl⟩
  exact ⟨s, s', s'', w, rfl, hw⟩

end WriteScope

end ViewCompiler
