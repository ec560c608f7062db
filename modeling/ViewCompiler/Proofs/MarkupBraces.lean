import ViewCompiler.Proofs.CodeBraces
import ViewCompiler.Proofs.WrittenMarkup

/-!
The braces of written markup, whatever is wrong with it. An expression that can be parsed has no braces,
but where it is written it may be scanned with errors: a directive in front of it is none there, and
one behind it takes the semicolon. It has no braces there either (`TokenStream.even_expression`), so the
braces of a written render block match (`WriteScope.renderTail_render`).
-/

namespace ViewCompiler

namespace TokenStream

open Tokens (nest)

/-! ## Depths -/

/-- Wherever the text stands, scanning goes from `d` open blocks at its start to `d'` open blocks at
`rest`, whatever is wrong with it. -/
def Reaches (d d' : Nat) (text rest : Bytes) : Prop :=
  ∀ c, ∃ ts es c',
    scanFrom c text = ⟨ts ++ (scanFrom c' rest).tokens, es ++ (scanFrom c' rest).errors⟩
      ∧ nest d ts = some d'

variable {d d' d'' : Nat} {b x : UInt8} {bs v w text rest rest' : Bytes}

theorem Reaches.refl : Reaches d d text text := fun c => ⟨[], [], c, rfl, rfl⟩

theorem Reaches.trans (h : Reaches d d' text rest) (h' : Reaches d' d'' rest rest') :
    Reaches d d'' text rest' := by
  intro c
  obtain ⟨ts, es, c', hscan, hts⟩ := h c
  obtain ⟨us, es', c'', hscan', hus⟩ := h' c'
  refine ⟨ts ++ us, es ++ es', c'', ?_, ?_⟩
  · rw [hscan, hscan']
    simp
  · rw [Tokens.nest_append, hts]
    exact hus

/-- A text that closes what it opens, wherever it stands. -/
def Even (w : Bytes) : Prop := ∀ d v, Reaches d d (w ++ v) v

namespace Even

theorem nil : Even [] := fun _ _ => .refl

theorem append (h : Even v) (h' : Even w) : Even (v ++ w) := by
  intro d rest
  rw [List.append_assoc]
  exact (h d _).trans (h' d rest)

theorem flatMap {α : Type} {f : α → Bytes} {xs : List α} (h : ∀ x ∈ xs, Even (f x)) :
    Even (xs.flatMap f) := by
  induction xs with
  | nil => exact nil
  | cons x xs ih => exact (h x (by simp)).append (ih fun y hy => h y (by simp [hy]))

end Even

/-! ## Lexemes -/

theorem reaches_step (d' : Nat) (h : ∀ s, (∀ span, nest d ((Lexeme.ofText s b bs).token.map
      fun kind => (⟨kind, span⟩ : Token)).toList = some d')
    ∧ Reaches d' d'' (Lexeme.ofText s b bs).rest rest) : Reaches d d'' (b :: bs) rest := by
  intro c
  obtain ⟨htoken, hrest⟩ := h c.startsLine
  generalize hl : Lexeme.ofText c.startsLine b bs = l at htoken hrest
  obtain ⟨ts, es, c', hscan, hts⟩ := hrest (c.after l)
  refine ⟨tokenAt c l ++ ts, (l.error.map fun e => (c.span, e)).toList ++ es, c', ?_, ?_⟩
  · rw [scanFrom_cons]
    dsimp only
    rw [hl, hscan, List.append_assoc, List.append_assoc]
  · rw [Tokens.nest_append, tokenAt, htoken c.span]
    exact hts

/-- A lexeme that is no brace. -/
theorem reaches_plain (h : ∀ s, (∀ kind ∈ (Lexeme.ofText s b bs).token, kind.isPlain = true)
    ∧ Reaches d d' (Lexeme.ofText s b bs).rest rest) : Reaches d d' (b :: bs) rest := by
  refine reaches_step d fun s => ⟨fun span => ?_, (h s).2⟩
  cases htoken : (Lexeme.ofText s b bs).token with
  | none => rfl
  | some kind => exact Tokens.nest_cons_of_isPlain ((h s).1 kind htoken) d []

theorem reaches_lexeme {k : Option TokenKind} (hw : IsLexeme w k [])
    (hk : ∀ kind ∈ k, kind.isPlain = true) (v : Bytes) : Reaches d d (w ++ v) v := by
  obtain ⟨b, bs, rfl, hl⟩ := hw
  rw [List.cons_append]
  refine reaches_plain fun s => ?_
  have heq : Lexeme.ofText s b (bs ++ v) = { raw := b :: bs, rest := v, token := k } := hl s v
  rw [heq]
  exact ⟨hk, .refl⟩

theorem reaches_blank (hb : Lexeme.isBlank b = true) (v : Bytes) : Reaches d d (b :: v) v :=
  reaches_lexeme (isLexeme_blank hb []) (by simp) v

theorem even_blank (hb : Lexeme.isBlank b = true) : Even [b] := fun _ v => reaches_blank hb v

theorem even_quote (t : Bytes) : Even (Literal.quote t) := fun _ v =>
  reaches_lexeme (isLexeme_quote t []) (by simp [TokenKind.isPlain]) v

theorem reaches_mark {p : Punct} (hb : isMark b = true) (hp : Punct.ofByte? b = some p)
    (hx : Punct.ofTwoBytes? b x = none) (hnest : ∀ span, nest d [⟨.punct p, span⟩] = some d')
    (v : Bytes) : Reaches d d' (b :: x :: v) (x :: v) := by
  have hmark (s : Bool) : Lexeme.ofText s b (x :: v) =
      { raw := [b], rest := x :: v, token := some (.punct p) } := by
    rw [ofText_of_isMark hb, Lexeme.ofMark, List.head?_cons, Option.bind_some, hx, hp]
  refine reaches_step d' fun s => ?_
  rw [hmark]
  exact ⟨hnest, .refl⟩

/-- A mark and a blank behind it. -/
theorem reaches_mark_blank {p : Punct} (hb : isMark b = true) (hp : Punct.ofByte? b = some p)
    (hx : Punct.ofTwoBytes? b x = none) (hnest : ∀ span, nest d [⟨.punct p, span⟩] = some d')
    (hblank : Lexeme.isBlank x = true) (v : Bytes) : Reaches d d' (b :: x :: v) v :=
  (reaches_mark hb hp hx hnest v).trans (reaches_blank hblank v)

theorem even_semicolon : Even ";\n" := fun _ v =>
  reaches_mark_blank (p := .semicolon) rfl rfl rfl (fun _ => rfl) rfl v

theorem even_assign : Even " = " := fun _ v => (reaches_blank rfl _).trans
  (reaches_mark_blank (p := .assign) rfl rfl rfl (fun _ => rfl) rfl v)

theorem Even.block (h : Even w) : Even ("\x7b\n" ++ (w ++ "\x7d\n")) := by
  intro d v
  rw [List.append_assoc, List.append_assoc]
  have opened : Reaches d (d + 1) ("\x7b\n" ++ (w ++ ("\x7d\n" ++ v))) (w ++ ("\x7d\n" ++ v)) :=
    reaches_mark_blank (p := .lbrace) rfl rfl rfl (fun _ => rfl) rfl _
  have closed : Reaches (d + 1) d ("\x7d\n" ++ v) v :=
    reaches_mark_blank (p := .rbrace) rfl rfl rfl (fun _ => rfl) rfl v
  exact opened.trans ((h (d + 1) _).trans closed)

/-! ## Words -/

/-- The first lexeme of words ends with them. -/
theorem ofText_wording {l : Bytes} (hb : isWording b = true) (hx : Ascii.isNameByte x = false)
    (s : Bool) (v : Bytes) : (∀ kind ∈ (Lexeme.ofText s b (l ++ x :: v)).token, kind.isPlain = true)
      ∧ ∃ us l', l = us ++ l' ∧ (Lexeme.ofText s b (l ++ x :: v)).rest = l' ++ x :: v := by
  have rest {p : UInt8 → Bool} (hp : p x = false) : ∃ us l', l = us ++ l' ∧
      (l ++ x :: v).dropWhile p = l' ++ x :: v :=
    ⟨l.takeWhile p, l.dropWhile p, List.takeWhile_append_dropWhile.symm, dropWhile_append_of_not hp l v⟩
  have word : ∀ w, ∀ kind ∈ some (wordKind w), kind.isPlain = true := by
    rintro w _ ⟨⟩
    rw [wordKind]
    split <;> rfl
  rw [isWording, Bool.or_eq_true, Bool.or_eq_true, beq_iff_eq] at hb
  obtain (hname | hblank) | rfl := hb
  · by_cases hstart : Ascii.isNameStart b = true
    · rw [ofText_of_isNameStart hstart]
      exact ⟨word _, rest hx⟩
    · have hdigit : Ascii.isDigit b = true := by
        simp only [Ascii.isNameStart, Ascii.isNameByte, Ascii.isAlnum, Bool.or_eq_true] at hname hstart
        grind
      have hxd : Ascii.isDigit x = false := by
        cases hxd : Ascii.isDigit x with
        | false => rfl
        | true => simp [Ascii.isNameByte_of_isDigit hxd] at hx
      rw [ofText_of_isDigit hdigit, Lexeme.ofDigits]
      split
      · exact ⟨by simp [TokenKind.isPlain], rest hxd⟩
      · exact ⟨by simp [TokenKind.isPlain], rest hxd⟩
  · rw [Lexeme.ofText_blank hblank]
    exact ⟨by simp, [], l, rfl, rfl⟩
  · have htwo : (l ++ x :: v).head?.bind (Punct.ofTwoBytes? Ascii.dot) = none :=
      Option.bind_eq_none_iff.2 fun x _ => ofTwoBytes?_eq_none (by decide) x
    rw [ofText_of_isMark rfl, Lexeme.ofMark, htwo]
    refine ⟨?_, [], l, rfl, rfl⟩
    rintro _ ⟨⟩
    rfl

theorem reaches_words {l : Bytes} (hl : ∀ b ∈ l, isWording b = true) (hx : Ascii.isNameByte x = false)
    (v : Bytes) : Reaches d d (l ++ x :: v) (x :: v) := by
  induction hn : l.length using Nat.strongRecOn generalizing l with
  | ind n ih =>
  cases l with
  | nil => exact .refl
  | cons b l =>
    refine reaches_plain fun s => ?_
    obtain ⟨hplain, us, l', rfl, hrest⟩ := ofText_wording (l := l) (hl b (by simp)) hx s v
    refine ⟨hplain, ?_⟩
    have hlt : l'.length < n := by
      simp only [List.length_cons, List.length_append] at hn
      omega
    exact hrest ▸ ih l'.length hlt (fun c hc => hl c (by simp [hc])) rfl

theorem even_words {l : Bytes} (hl : ∀ b ∈ l, isWording b = true) (hx : Ascii.isNameByte x = false)
    (hv : Even (x :: v)) : Even (l ++ x :: v) := by
  intro d rest
  rw [List.append_assoc]
  exact (reaches_words hl hx (v ++ rest)).trans (hv d rest)

theorem even_keyword (k : Keyword) (hx : Ascii.isNameByte x = false) (hv : Even (x :: v)) :
    Even (k.text ++ x :: v) := by
  have hall : k.text.all isWording = true := by cases k <;> rfl
  exact even_words (List.all_eq_true.1 hall) hx hv

/-! ## Directives -/

/-- A line that is a directive where lines start. -/
theorem reaches_directive {l : Bytes} (hl : ∀ b ∈ l, isWording b = true) (hlf : Ascii.lf ∉ l)
    (v : Bytes) : Reaches d d (Ascii.hash :: (l ++ Ascii.lf :: v)) v := by
  refine reaches_plain fun s => ?_
  cases s with
  | true =>
    obtain ⟨htoken, hrest⟩ := ofText_directive rfl hlf v
    rw [htoken, hrest]
    exact ⟨by simp, reaches_blank rfl v⟩
  | false =>
    rw [Lexeme.ofText_hash]
    exact ⟨by simp, (reaches_words hl rfl v).trans (reaches_blank rfl v)⟩

/-! ## Expressions -/

/-- A directive without errors is words up to the end of its line. -/
theorem exists_of_directive (he : (Lexeme.ofText true Ascii.hash bs).error = none) :
    ∃ l r, bs = l ++ r ∧ (∀ b ∈ l, isWording b = true) ∧ (∀ x ∈ r.head?, x = Ascii.lf)
      ∧ (Lexeme.ofText true Ascii.hash bs).rest = r := by
  have heq : Lexeme.ofText true Ascii.hash bs = Lexeme.ofDirective (Ascii.hash :: bs) := rfl
  have hline : (Ascii.hash :: bs).takeWhile (· ≠ Ascii.lf) =
      Ascii.hash :: bs.takeWhile (· ≠ Ascii.lf) := rfl
  rw [heq, Lexeme.ofDirective] at he
  split at he
  · next m hm =>
    rw [hline] at hm
    obtain ⟨l, hl, hwording⟩ := Lexeme.isWording_of_directive hm
    obtain rfl := (List.cons.inj hl).2
    refine ⟨_, bs.dropWhile (· ≠ Ascii.lf), List.takeWhile_append_dropWhile.symm, hwording, ?_, ?_⟩
    · intro x hx
      have hhead := List.head?_dropWhile_not (fun x => decide (x ≠ Ascii.lf)) bs
      rw [hx] at hhead
      simpa using hhead
    · exact (Lexeme.ofText_of_runsOn (.inl ⟨rfl, rfl⟩)).2
  · cases he

/-- A text that is clean alone is one without braces also in front of the end of a statement. -/
theorem reaches_statement {c : Cursor} (h : (scanFrom c bs).errors = [])
    (hplain : ∀ t ∈ (scanFrom c bs).tokens, t.kind.isPlain = true ∨ t.kind = .eof) (v : Bytes) :
    Reaches d d (bs ++ Ascii.semicolon :: Ascii.lf :: v) v := by
  induction hn : bs.length using Nat.strongRecOn generalizing c bs with
  | ind n ih =>
  cases bs with
  | nil => exact even_semicolon d v
  | cons b bs =>
    obtain ⟨he, hrest⟩ := errors_cons h
    have hlt := hn ▸ Lexeme.length_ofText_rest_lt c.startsLine b bs
    rw [scanFrom_cons] at hplain
    obtain ⟨hfirst, hothers⟩ := List.forall_mem_append.1 hplain
    generalize c.startsLine = s₀ at *
    have htoken : ∀ kind ∈ (Lexeme.ofText s₀ b bs).token, kind.isPlain = true := by
      intro kind hkind
      refine (hfirst ⟨kind, c.span⟩ ?_).resolve_right ?_
      · simpa [tokenAt] using hkind
      · rintro rfl
        exact Lexeme.token_ofText_ne_eof _ b bs hkind
    refine reaches_plain fun s => ?_
    rw [List.append_eq]
    rcases ofText_self_or_directive s he with hs | ⟨rfl, rfl, rfl⟩
    · rw [hs]
      rcases ofText_statement_self v he with heq | ⟨-, -, hnone, hlf⟩
      · rw [heq]
        exact ⟨htoken, ih _ hlt hrest hothers rfl⟩
      · rw [hnone, hlf]
        exact ⟨by simp, reaches_blank rfl v⟩
    · rw [Lexeme.ofText_hash]
      obtain ⟨l, r, rfl, hl, hlf, hafter⟩ := exists_of_directive he
      rw [hafter] at hrest hothers hlt
      refine ⟨by simp, ?_⟩
      rw [List.append_assoc]
      have hwords : Reaches d d (l ++ (r ++ Ascii.semicolon :: Ascii.lf :: v))
          (r ++ Ascii.semicolon :: Ascii.lf :: v) := by
        cases r with
        | nil => exact reaches_words hl rfl _
        | cons x r =>
          obtain rfl := hlf x rfl
          exact reaches_words hl rfl _
      exact hwords.trans (ih _ hlt hrest hothers rfl)

theorem even_expression {code : Bytes} (h : (Expr.parse? code).isSome = true) : Even (code ++ ";\n") := by
  intro d v
  rw [List.append_assoc]
  obtain ⟨e, he⟩ := Option.isSome_iff_exists.1 h
  obtain ⟨hclean, ts, t, htokens, ht, hts, -⟩ := expr_of_parse? he
  refine reaches_statement hclean (fun t' ht' => ?_) v
  change t' ∈ (scan code).tokens at ht'
  rw [htokens] at ht'
  rcases List.mem_append.1 ht' with hmem | hlast
  · exact .inl (hts.flat t' hmem)
  · exact .inr (List.mem_singleton.1 hlast ▸ ht)

end TokenStream

namespace WriteScope

open TokenStream

variable {c : WriteScope}

/-! ## Markup -/

theorem even_lineMark {digits : Bytes} (hd : ∀ b ∈ digits, Ascii.isNameByte b = true) :
    Even ("#line " ++ digits ++ "\n") := by
  intro d v
  have hl : ∀ b ∈ ("line " : Bytes) ++ digits, isWording b = true := by
    have hall : ("line " : Bytes).all isWording = true := by decide
    exact List.forall_mem_append.2 ⟨List.all_eq_true.1 hall, fun b hb =>
      isWording_of_isNameByte (hd b hb)⟩
  have hlf : Ascii.lf ∉ ("line " : Bytes) ++ digits := by
    rw [List.mem_append, not_or]
    exact ⟨by decide, fun h => by cases hd _ h⟩
  rw [List.append_assoc, List.append_assoc]
  have hline := reaches_directive (d := d) hl hlf v
  rw [List.append_assoc] at hline
  exact hline

theorem even_mapLine (s : Span) : Even (c.mapLine s) :=
  even_lineMark fun _ hb => Ascii.isNameByte_of_isDigit (Bytes.isDigit_of_mem_ofNat hb)

/-- A keyword and a blank behind it. -/
theorem even_opening (k : Keyword) {t : Bytes} (ht : t = k.text ++ [Ascii.space]) : Even t := by
  rw [ht]
  exact even_keyword k rfl (even_blank rfl)

theorem isWording_of_isIdentifier {w : Bytes} (h : w.isIdentifier = true) :
    ∀ b ∈ w, isWording b = true := fun b hb =>
  isWording_of_isNameByte (List.all_eq_true.1 (Bool.and_eq_true_iff.1 h).2 b hb)

theorem isWording_of_isQualified {m : Bytes} (h : m.IsQualified) : ∀ b ∈ m, isWording b = true := by
  induction h with
  | word hw => exact isWording_of_isIdentifier hw.1
  | dot hw _ ih =>
    exact List.forall_mem_append.2 ⟨isWording_of_isIdentifier hw.1, List.forall_mem_cons.2 ⟨rfl, ih⟩⟩

theorem even_elementAttribute {a : Attribute} (h : a.Sound) : Even (c.elementAttribute a) := by
  rw [elementAttribute, List.append_assoc]
  refine ((((even_mapLine a.span).append (even_opening .attrKw rfl)).append (even_quote _)).append
    even_assign).append ?_
  split
  · next code _ hcode => exact even_expression (h _ hcode)
  · exact (even_quote _).append even_semicolon
  · exact even_keyword .trueKw rfl even_semicolon

theorem even_argument {type : TypeId} {a : Attribute} (h : a.Sound) :
    Even ((c.argument type a).code ++ ";\n") := by
  have quoted (t : Bytes) : Even (Literal.quote t ++ ";\n") := (even_quote t).append even_semicolon
  rw [argument]
  split
  · next code _ hcode => exact even_expression (h _ hcode)
  · exact even_keyword .trueKw rfl even_semicolon
  · split
    · exact quoted _
    · split
      · exact quoted _
      · split
        · next hvalue => exact even_expression hvalue
        · exact quoted _

theorem even_componentAttribute {type : TypeId} {a : Attribute} (h : a.Sound) :
    Even (c.componentAttribute type a).code := by
  rw [componentAttribute]
  split
  · next hname =>
    simp only [code_append, code_text, List.append_assoc]
    exact (even_mapLine a.span).append ((even_opening .attrKw rfl).append
      (even_words (isWording_of_isIdentifier hname) rfl (even_assign.append (even_argument h))))
  · exact .nil

theorem even_nodes_of {ns : List Node} (h : ∀ n ∈ ns, Even (c.node n).code) : Even (c.nodes ns).code := by
  induction ns with
  | nil =>
    rw [nodes]
    exact .nil
  | cons n ns ih =>
    rw [nodes, code_append]
    exact (h n (by simp)).append (ih fun m hm => h m (by simp [hm]))

theorem even_node (ht : c.table.Nameable) {n : Node} (h : n.Sound) : Even (c.node n).code := by
  induction h with
  | @text span t =>
    rw [node]
    split
    · exact .nil
    · exact (((even_mapLine span).append (even_opening .textKw rfl)).append (even_quote t)).append
        even_semicolon
  | @expr span code h =>
    rw [node, code_text, List.append_assoc]
    exact ((even_mapLine span).append (even_opening .exprKw rfl)).append (even_expression h)
  | @element span tag attributes children ha _ ih =>
    have hchildren := even_nodes_of ih
    cases hm : c.meaning? span tag with
    | none =>
      have start : Even (c.mapLine span ++ "open " ++ Literal.quote tag ++ ";\n") :=
        (((even_mapLine span).append (even_opening .openKw rfl)).append (even_quote tag)).append
          even_semicolon
      have close : Even "close;\n" := even_keyword .closeKw rfl even_semicolon
      rw [code_node_element hm]
      exact start.append ((Even.flatMap fun a h => even_elementAttribute (ha a h)).append
        (hchildren.append close))
    | some type =>
      obtain ⟨-, symbol, hs, -⟩ := resolve_of_meaning? hm
      have child : Even (c.childText children) := by
        rw [childText]
        split
        · exact .nil
        · exact (even_opening (t := "child ") .childKw rfl).append hchildren.block
      have args : Even (attributes.flatMap fun a => (c.componentAttribute type a).code) :=
        .flatMap fun a h => even_componentAttribute (ha a h)
      have block := (args.append child).block
      rw [List.append_assoc] at block
      rw [code_node_component hm]
      exact (even_mapLine span).append ((even_opening .componentKw rfl).append
        (even_words (isWording_of_isQualified (ht.nameOf hs)) rfl ((even_blank rfl).append block)))

theorem even_nodes (ht : c.table.Nameable) {ns : List Node} (h : ∀ n ∈ ns, n.Sound) :
    Even (c.nodes ns).code := even_nodes_of fun n hn => even_node ht (h n hn)

/-! ## The render block -/

theorem scans_renderStart (cursor : Cursor) (ys : Bytes) :
    ∃ s s' cursor', Scans cursor ("render \x7b\n" ++ ys)
      [⟨.keyword .renderKw, s⟩, ⟨.punct .lbrace, s'⟩] cursor' ys := by
  have hrender : IsLexeme "render" (some (wordKind "render")) [Ascii.space] :=
    isLexeme_word (by decide) rfl []
  obtain ⟨c₁, hword⟩ := scans_lexeme hrender cursor ("\x7b\n" ++ ys)
  obtain ⟨c₂, hblank⟩ := scans_lexeme (isLexeme_blank (b := Ascii.space) rfl []) c₁ ("\x7b\n" ++ ys)
  obtain ⟨s', c₃, hmark⟩ := scans_mark (b := Ascii.lbrace) (x := Ascii.lf) rfl rfl rfl rfl c₂ ys
  exact ⟨cursor.span, s', c₃, hword.trans (hblank.trans hmark)⟩

/-- A render block and the brace that ends its type, whatever is wrong in it. -/
theorem renderTail_render (ht : c.table.Nameable) {t : Template} (h : ∀ n ∈ t.nodes, n.Sound)
    (cursor : Cursor) :
    Tokens.RenderTail (scanFrom cursor ((c.render t).code ++ "\x7d\n")).tokens := by
  have hdefault : ("default" : Bytes).all Ascii.isNameByte = true := by decide
  have hline : Even ("#line " ++ ("default" : Bytes) ++ "\n") :=
    even_lineMark (List.all_eq_true.1 hdefault)
  have content : Even ((c.nodes t.nodes).code ++ "#line default\n") :=
    (even_nodes ht h).append hline
  let ends : Bytes := "\x7d\n" ++ ("\x7d\n" ++ ([] : Bytes))
  have htext : (c.render t).code ++ "\x7d\n" =
      "render \x7b\n" ++ (((c.nodes t.nodes).code ++ "#line default\n") ++ ends) := by
    have hend : ("#line default\n\x7d\n" : Bytes) = "#line default\n" ++ "\x7d\n" := rfl
    simp [render, code_append, code_text, hend, ends]
  obtain ⟨s, s', c₁, hstart⟩ := scans_renderStart cursor
    (((c.nodes t.nodes).code ++ "#line default\n") ++ ends)
  obtain ⟨w, es, c₂, hcontent, hw⟩ := content 0 ends c₁
  obtain ⟨s₂, c₃, hblock⟩ := scans_rbrace c₂ ("\x7d\n" ++ ([] : Bytes))
  obtain ⟨s₃, c₄, htype⟩ := scans_rbrace c₃ []
  rw [htext, hstart.scanFrom_eq, hcontent, hblock.scanFrom_eq, htype.scanFrom_eq, scanFrom]
  have hw : Tokens.Balanced w := Tokens.balanced_of_nest hw
  exact ⟨s, s', w, ⟨_, s₂⟩, ⟨_, s₃⟩, ⟨.eof, c₄.span⟩, by simp, hw, rfl, rfl, rfl⟩

end WriteScope

end ViewCompiler
