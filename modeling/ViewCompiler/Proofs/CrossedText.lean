import ViewCompiler.Proofs.MarkupBraces
import ViewCompiler.Proofs.SingleComponent
import ViewCompiler.Proofs.TokenOffsets

/-!
Text that is crossed while a file is scanned. `TokenStream.Crosses` says that the lexemes of a text end
with it, whatever is wrong with it and whatever follows, and that a line starts there. All that is
written for a template is such text: the lines of a declaration, code blocks that are clean alone, and
markup whose expressions can be parsed (`WriteScope.crosses_node`), even if a comment behind an
expression takes the semicolon.
-/

namespace ViewCompiler

namespace TokenStream

/-- Wherever the text `w` stands in text that is near, scanning comes from its start to its end, where a
line starts. With `s` it may have to stand at the start of a line. -/
def Crosses (s : Bool) (w : Bytes) : Prop :=
  ∀ c ys, c.Near (w ++ ys) → (s = true → c.column = 1) → ∃ c', Runs c (w ++ ys) c' ys ∧ c'.column = 1

variable {s : Bool} {v w m : Bytes} {b x : UInt8}

theorem Prints.crosses {P : List Token → Prop} (h : Prints s w P) : Crosses s w := by
  intro c ys hnear hc
  obtain ⟨ts, c', hs, hc', -⟩ := h c ys hnear hc
  exact ⟨c', hs.runs, hc'⟩

namespace Crosses

theorem nil : Crosses true [] := fun c _ _ hc => ⟨c, .done, hc rfl⟩

theorem append (h : Crosses s v) (h' : Crosses true w) : Crosses s (v ++ w) := by
  intro c ys hnear hc
  rw [List.append_assoc] at hnear ⊢
  obtain ⟨c', hv, hc'⟩ := h c (w ++ ys) hnear hc
  obtain ⟨c'', hw, hc''⟩ := h' c' ys (hv.near hnear) fun _ => hc'
  exact ⟨c'', hv.trans hw, hc''⟩

theorem flatMap {α : Type} {f : α → Bytes} {xs : List α} (h : ∀ x ∈ xs, Crosses true (f x)) :
    Crosses true (xs.flatMap f) := by
  induction xs with
  | nil => exact nil
  | cons x xs ih =>
    rw [List.flatMap_cons]
    exact (h x (by simp)).append (ih fun y hy => h y (by simp [hy]))

end Crosses

/-! ## Lexemes -/

theorem crosses_lexeme {k : Option TokenKind} (hw : IsLexeme w k v) (h : Crosses false v) :
    Crosses s (w ++ v) := by
  intro c ys hnear _
  rw [List.append_assoc] at hnear ⊢
  have hlexeme := hw.runs c ys
  obtain ⟨c', hruns, hc'⟩ := h _ ys (hlexeme.near hnear) (by simp)
  exact ⟨c', hlexeme.trans hruns, hc'⟩

theorem crosses_space (h : Crosses false v) : Crosses s (Ascii.space :: v) :=
  crosses_lexeme (isLexeme_blank rfl v) h

theorem crosses_mark {p : Punct} (hb : isMark b = true) (hp : Punct.ofByte? b = some p)
    (hx : Punct.ofTwoBytes? b x = none) (h : Crosses false (x :: v)) : Crosses s (b :: x :: v) :=
  crosses_lexeme (isLexeme_mark hb hp hx v) h

theorem crosses_quote (t : Bytes) (h : Crosses false v) : Crosses s (Literal.quote t ++ v) :=
  crosses_lexeme (isLexeme_quote t v) h

theorem crosses_word (hw : w.isIdentifier = true) (hx : Ascii.isNameByte x = false)
    (h : Crosses false (x :: v)) : Crosses s (w ++ x :: v) :=
  crosses_lexeme (isLexeme_word hw hx v) h

/-- A keyword and the space behind it. -/
theorem crosses_opening (k : Keyword) {t : Bytes} (ht : t = k.text ++ [Ascii.space])
    (h : Crosses false v) : Crosses s (t ++ v) := by
  have hword : k.text.isIdentifier = true := by cases k <;> rfl
  rw [ht, List.append_assoc]
  exact crosses_word hword rfl (crosses_space h)

/-- Identifiers with dots between them, keywords among them. -/
theorem crosses_spelt (hm : m.isQualifiedName = true) (hx : Ascii.isNameByte x = false)
    (h : Crosses false (x :: v)) : Crosses s (m ++ x :: v) := by
  induction hn : m.length using Nat.strongRecOn generalizing s m with
  | ind n ih =>
  rw [Bytes.isQualifiedName] at hm
  by_cases hdot : Ascii.dot ∈ m
  · obtain ⟨w, m, rfl, hw⟩ := List.eq_append_cons_of_mem hdot
    rw [Bytes.splitOn_append hw, List.all_cons, Bool.and_eq_true] at hm
    have hlt : m.length < n := by
      simp only [List.length_append, List.length_cons] at hn
      omega
    have hrest : Crosses false (m ++ x :: v) := ih m.length hlt hm.2 rfl
    cases m with
    | nil => cases hm.2
    | cons b bs =>
      have hmark : Punct.ofTwoBytes? Ascii.dot b = none := ofTwoBytes?_eq_none (by decide) b
      rw [List.append_assoc]
      exact crosses_word hm.1 rfl (crosses_mark rfl rfl hmark hrest)
  · rw [Bytes.splitOn_of_not_mem hdot] at hm
    exact crosses_word (by simpa using hm) hx h

theorem crosses_semicolon : Crosses s ";\n" := WriteScope.prints_semicolon.crosses

theorem crosses_lbrace (h : Crosses true v) : Crosses s ("\x7b\n" ++ v) :=
  (WriteScope.prints_lbrace (.nil (P := (· = [])) rfl)).crosses.append h

theorem crosses_rbrace : Crosses s "\x7d\n" := WriteScope.prints_rbrace.crosses

/-! ## Expressions -/

theorem runs_lf (c : Cursor) (ys : Bytes) : ∃ c', Runs c (Ascii.lf :: ys) c' ys ∧ c'.column = 1 :=
  ⟨_, (scans_lf c ys).runs, c.column_step_lf⟩

theorem exists_runs_words {l : Bytes} (hl : ∀ b ∈ l, isWording b = true)
    (hx : Ascii.isNameByte x = false) (c : Cursor) (ys : Bytes) :
    ∃ c', Runs c (l ++ x :: ys) c' (x :: ys) := by
  induction hn : l.length using Nat.strongRecOn generalizing c l with
  | ind n ih =>
  cases l with
  | nil => exact ⟨c, .done⟩
  | cons b l =>
    obtain ⟨-, us, l', rfl, hrest⟩ := ofText_wording (l := l) (hl b (by simp)) hx c.startsLine ys
    have hlt : l'.length < n := by
      simp only [List.length_cons, List.length_append] at hn
      omega
    obtain ⟨c', hruns⟩ := ih _ hlt (fun b hb => hl b (by simp [hb])) _ rfl
    rw [List.cons_append]
    exact ⟨c', .lexeme rfl (by rw [hrest]; exact hruns)⟩

/-- A text that is clean alone is crossed also in front of the end of a statement. -/
theorem crosses_statement {c₀ : Cursor} {bs : Bytes} (h : (scanFrom c₀ bs).errors = []) :
    Crosses s (bs ++ ";\n") := by
  induction hn : bs.length using Nat.strongRecOn generalizing s c₀ bs with
  | ind n ih =>
  cases bs with
  | nil => exact crosses_semicolon
  | cons b bs =>
    obtain ⟨he, hrest⟩ := errors_cons h
    have hlt := hn ▸ Lexeme.length_ofText_rest_lt c₀.startsLine b bs
    generalize c₀.startsLine = s₀ at *
    intro c ys hnear _
    have hend : (";\n" : Bytes) ++ ys = Ascii.semicolon :: Ascii.lf :: ys := rfl
    rw [List.append_assoc, List.cons_append] at hnear ⊢
    rcases ofText_self_or_directive c.startsLine he with hs | ⟨rfl, rfl, hs⟩
    · rcases ofText_statement_self ys he with heq | ⟨-, -, -, hlf⟩
      · rw [← hs] at heq
        have hfirst := heq ▸ hnear.after (s := c.startsLine)
        obtain ⟨c', hruns, hc'⟩ := ih _ hlt (s := false) hrest rfl _ ys
          (by rw [List.append_assoc]; exact hfirst) (by simp)
        rw [List.append_assoc] at hruns
        exact ⟨c', .lexeme heq.symm hruns, hc'⟩
      · rw [← hs] at hlf
        obtain ⟨c', hruns, hc'⟩ := runs_lf _ ys
        exact ⟨c', .lexeme rfl (by rw [hend, hlf]; exact hruns), hc'⟩
    -- what is a directive alone is a hash sign and words inside of a line
    · obtain ⟨l, r, rfl, hl, hlf, hafter⟩ := exists_of_directive he
      rw [hafter] at hrest hlt
      rw [List.append_assoc] at hnear ⊢
      have hsign : Runs c (Ascii.hash :: (l ++ (r ++ (";\n" ++ ys)))) (c.step Ascii.hash)
          (l ++ (r ++ (";\n" ++ ys))) := .lexeme (by rw [hs, Lexeme.ofText_hash]) .done
      have words (c : Cursor) :
          ∃ c', Runs c (l ++ (r ++ (";\n" ++ ys))) c' (r ++ (";\n" ++ ys)) := by
        cases r with
        | nil => exact exists_runs_words hl rfl c _
        | cons x r =>
          obtain rfl := hlf x rfl
          exact exists_runs_words hl rfl c _
      obtain ⟨c₁, hwords⟩ := words (c.step Ascii.hash)
      have hfront := hsign.trans hwords
      have hrestNear := hfront.near hnear
      rw [← List.append_assoc] at hrestNear
      obtain ⟨c', hruns, hc'⟩ := ih _ hlt (s := false) hrest rfl c₁ ys hrestNear (by simp)
      rw [List.append_assoc] at hruns
      exact ⟨c', hfront.trans hruns, hc'⟩

/-! ## Lines -/

/-- Lines whose comments end are crossed. -/
theorem exists_runs_lines {c : Cursor} {bs : Bytes} (hlast : bs.getLast? ≠ some Ascii.backslash)
    (h : ∀ e ∈ (scanFrom c (bs ++ [Ascii.lf])).errors, e.2 ≠ .unterminatedComment) (ys : Bytes) :
    ∃ c', Runs c (bs ++ Ascii.lf :: ys) c' ys ∧ c'.column = 1 := by
  induction hn : bs.length using Nat.strongRecOn generalizing c bs with
  | ind n ih =>
  cases bs with
  | nil => exact runs_lf c ys
  | cons b bs =>
    let l := Lexeme.ofText c.startsLine b bs
    have hraw : l.raw ++ l.rest = b :: bs := Lexeme.ofText_raw_append_rest _ _ _
    have hlt : l.rest.length < n := hn ▸ Lexeme.length_ofText_rest_lt _ _ _
    have herror : (Lexeme.ofText c.startsLine b (bs ++ [Ascii.lf])).error = l.error :=
      Lexeme.error_append_lf hlast rfl
    rw [List.cons_append, scanFrom_cons] at h
    obtain ⟨hfirst, hrest⟩ := List.forall_mem_append.1 h
    have hl : l.error ≠ some .unterminatedComment := by
      intro hl
      exact hfirst (c.span, .unterminatedComment) (by simp [herror, l, hl]) rfl
    have happ (zs : Bytes) := Lexeme.ofText_append_line hlast hl zs
    rw [happ []] at hrest
    obtain ⟨c', hruns, hc'⟩ := ih _ hlt (c := c.after l) (getLast?_rest_ne (hraw ▸ hlast)) hrest rfl
    rw [List.cons_append]
    exact ⟨c', .lexeme (happ ys).symm hruns, hc'⟩

end TokenStream

namespace WriteScope

open TokenStream

variable {c : WriteScope} {t : Template} {name : Bytes} {s : Bool}

/-! ## Declarations -/

theorem crosses_mapLine {span : Span} (hs : c.item.userLine span.line ≠ 0) :
    Crosses true (c.mapLine span) := by
  have hline := prints_mapLine hs (.nil (P := (· = [])) rfl)
  rw [List.append_nil] at hline
  exact hline.crosses

theorem crosses_declarationLines {base : Option TypeRef} (hn : name.IsWord)
    (hb : ∀ b ∈ base, b.name.isQualifiedName = true)
    (hs : ∀ b ∈ base, c.item.userLine b.span.line ≠ 0) :
    Crosses true (c.declarationLines name base) := by
  cases base with
  | none => exact (prints_declarationLines hn (by simp) hs).crosses
  | some b =>
    have hbrace : Crosses false " \x7b\n" := crosses_space (crosses_lbrace .nil)
    have hbase : Crosses false (" : " ++ (b.name ++ " \x7b\n")) :=
      crosses_space (crosses_mark (b := Ascii.colon) rfl rfl rfl
        (crosses_space (crosses_spelt (hb b rfl) rfl hbrace)))
    rw [declarationLines]
    simp only [List.append_assoc]
    exact (crosses_mapLine (hs b rfl)).append
      (crosses_opening .componentKw rfl (crosses_word hn.1 rfl hbase))

theorem crosses_injectLine {i : Injection} (ht : i.type.isQualifiedName = true)
    (hn : i.name.isIdentifier = true) (hs : c.item.userLine i.span.line ≠ 0) :
    Crosses true (c.injectLine i) := by
  have hname : Crosses false (" " ++ (i.name ++ ";\n")) :=
    crosses_space (crosses_word hn rfl crosses_semicolon)
  rw [injectLine]
  simp only [List.append_assoc]
  exact (crosses_mapLine hs).append (crosses_opening .injectKw rfl (crosses_spelt ht rfl hname))

theorem crosses_codeLines {b : CodeBlock} (hb : (scan b.code).errors = [])
    (hs : c.item.userLine b.span.line ≠ 0) : Crosses true (c.codeLines b) := by
  rw [codeLines, List.append_assoc]
  exact (crosses_mapLine hs).append (prints_lines hb).crosses

/-! ## Markup -/

theorem crosses_value {w : Bytes} (h : Crosses false (w ++ ";\n")) : Crosses s (" = " ++ (w ++ ";\n")) :=
  crosses_space (crosses_mark (b := Ascii.equal) rfl rfl rfl (crosses_space h))

theorem crosses_expression {code : Bytes} (h : (Expr.parse? code).isSome = true) :
    Crosses s (code ++ ";\n") := by
  obtain ⟨e, he⟩ := Option.isSome_iff_exists.1 h
  exact crosses_statement (expr_of_parse? he).1

theorem crosses_true : Crosses s ("true" ++ ";\n") :=
  crosses_word (w := Keyword.trueKw.text) rfl rfl crosses_semicolon

theorem crosses_quoted (t : Bytes) : Crosses s (Literal.quote t ++ ";\n") :=
  crosses_quote t crosses_semicolon

theorem crosses_given {a : Attribute} (h : a.Sound) : Crosses s (a.given.written ++ ";\n") := by
  cases hgiven : a.given with
  | code code => exact crosses_expression (isSome_of_given h (by rw [hgiven]; rfl))
  | text t => exact crosses_quoted t
  | flag => exact crosses_true

theorem crosses_elementAttribute {a : Attribute} (h : a.Sound)
    (hs : c.item.userLine a.span.line ≠ 0) : Crosses true (c.elementAttribute a) := by
  rw [elementAttribute_eq]
  exact (crosses_mapLine hs).append
    (crosses_opening .attrKw rfl (crosses_quote _ (crosses_value (crosses_given h))))

theorem crosses_argument {type : TypeId} {a : Attribute} (h : a.Sound) :
    Crosses s ((c.argument type a).code ++ ";\n") := by
  rw [argument]
  split
  · next code _ hcode => exact crosses_expression (h _ hcode)
  · exact crosses_true
  · split
    · exact crosses_quoted _
    · split
      · exact crosses_quoted _
      · split
        · next hvalue => exact crosses_expression hvalue
        · exact crosses_quoted _

theorem crosses_componentAttribute {type : TypeId} {a : Attribute} (h : a.Sound)
    (hs : c.item.userLine a.span.line ≠ 0) : Crosses true (c.componentAttribute type a).code := by
  rw [componentAttribute]
  split
  · next hname =>
    simp only [code_append, code_text, List.append_assoc]
    exact (crosses_mapLine hs).append (crosses_opening .attrKw rfl
      (crosses_word hname rfl (crosses_value (crosses_argument h))))
  · exact .nil

theorem crosses_elementAttributes {attributes : List Attribute}
    (ha : ∀ a ∈ attributes, a.Sound ∧ c.item.userLine a.span.line ≠ 0) :
    Crosses true (attributes.flatMap c.elementAttribute) :=
  .flatMap fun a hmem => crosses_elementAttribute (ha a hmem).1 (ha a hmem).2

/-- A component in front of what is between its braces behind the attributes. -/
theorem crosses_component (ht : c.table.Nameable) {span : Span} {tag : Bytes} {type : TypeId}
    {attributes : List Attribute} {v : Bytes} (hm : c.meaning? span tag = some type)
    (hs : c.item.userLine span.line ≠ 0)
    (ha : ∀ a ∈ attributes, a.Sound ∧ c.item.userLine a.span.line ≠ 0) (h : Crosses true v) :
    Crosses true (c.mapLine span ++ ("component " ++ (c.table.nameOf type ++ (" \x7b\n"
      ++ (attributes.flatMap (fun a => (c.componentAttribute type a).code) ++ v))))) := by
  obtain ⟨-, symbol, hsymbol, -⟩ := resolve_of_meaning? hm
  have hname : (c.table.nameOf type).isQualifiedName = true :=
    Bytes.isQualifiedName_of_isQualified (ht.nameOf hsymbol)
  have hargs : Crosses true (attributes.flatMap fun a => (c.componentAttribute type a).code) :=
    .flatMap fun a hmem => crosses_componentAttribute (ha a hmem).1 (ha a hmem).2
  exact (crosses_mapLine hs).append (crosses_opening .componentKw rfl
    (crosses_spelt hname rfl (crosses_space (crosses_lbrace (hargs.append h)))))

/-- What is written of an element in front of its content. -/
def elementStart (c : WriteScope) (span : Span) (tag : Bytes) (attributes : List Attribute) : Bytes :=
  (c.meaning? span tag).elim
    ((c.mapLine span ++ "open " ++ Literal.quote tag ++ ";\n") ++ attributes.flatMap c.elementAttribute)
    fun type => c.mapLine span ++ ("component " ++ (c.table.nameOf type ++ (" \x7b\n"
      ++ (attributes.flatMap (fun a => (c.componentAttribute type a).code) ++ "child \x7b\n"))))

theorem crosses_elementStart (ht : c.table.Nameable) {span : Span} {tag : Bytes}
    {attributes : List Attribute} (hs : c.item.userLine span.line ≠ 0)
    (ha : ∀ a ∈ attributes, a.Sound ∧ c.item.userLine a.span.line ≠ 0) :
    Crosses true (c.elementStart span tag attributes) := by
  rw [elementStart]
  cases hm : c.meaning? span tag with
  | none => exact (prints_open hs tag).crosses.append (crosses_elementAttributes ha)
  | some type =>
    exact crosses_component ht hm hs ha (crosses_opening (t := "child ") .childKw rfl (crosses_lbrace .nil))

theorem crosses_nodes_of {ns : List Node} (h : ∀ n ∈ ns, Crosses true (c.node n).code) :
    Crosses true (c.nodes ns).code := by
  induction ns with
  | nil =>
    rw [nodes]
    exact .nil
  | cons n ns ih =>
    rw [nodes, code_append]
    exact (h n (by simp)).append (ih fun m hm => h m (by simp [hm]))

/-- Markup whose expressions can be parsed is crossed, whatever else is wrong with it. -/
theorem crosses_node (ht : c.table.Nameable) {n : Node} (h : n.Sound)
    (hp : n.Placed fun s => c.item.userLine s.line ≠ 0) : Crosses true (c.node n).code := by
  induction h with
  | @text span t =>
    cases hp with
    | text hs =>
      rw [node]
      split
      · exact .nil
      · exact (prints_text hs t).crosses
  | @expr span code hcode =>
    cases hp with
    | expr hs =>
      rw [node, code_text, List.append_assoc, List.append_assoc]
      exact (crosses_mapLine hs).append (crosses_opening .exprKw rfl (crosses_expression hcode))
  | @element span tag attributes children ha _ ih =>
    cases hp with
    | element hs hattributes hplaced =>
      have ha := fun a hmem => (⟨ha a hmem, hattributes a hmem⟩ : _ ∧ _)
      have hchildren := crosses_nodes_of fun n hn => ih n hn (hplaced n hn)
      cases hm : c.meaning? span tag with
      | none =>
        rw [code_node_element hm]
        exact (prints_open hs tag).crosses.append
          ((crosses_elementAttributes ha).append (hchildren.append prints_close.crosses))
      | some type =>
        have hchild : Crosses true (c.childText children) := by
          rw [childText]
          split
          · exact .nil
          · exact crosses_opening (t := "child ") .childKw rfl
              (crosses_lbrace (hchildren.append crosses_rbrace))
        rw [code_node_component hm]
        exact crosses_component ht hm hs ha (hchild.append crosses_rbrace)

end WriteScope

end ViewCompiler
