import ViewCompiler.Proofs.CodeBraces
import ViewCompiler.Proofs.TemplateImage

/-!
One template is one component. What a template copies into its file between the head of its component
and the render block is balanced: names and types have no braces, and the braces of a code block match
(`WriteScope.writes_members`). So the component ends where its file ends, and the render block is its
own (`Item.parse_generate_component`).
-/

namespace ViewCompiler

/-! ## What is taken into a template -/

namespace Template

/-- The names of the template are identifiers with dots between them, and its code blocks end in front
of the brace that closes them. -/
structure Admitted (t : Template) : Prop where
  usings : ∀ u ∈ t.usings, u.ns.isQualifiedName = true
  injections : ∀ i ∈ t.injections, i.type.isQualifiedName = true ∧ i.name.isIdentifier = true
  base : ∀ b ∈ t.base, b.name.isQualifiedName = true
  code : ∀ b ∈ t.code, ∃ zs, Stretch.Closes 1 b.code zs

end Template

namespace Piece

/-- If the piece is a code block, it ends in front of the brace that closes it. -/
def Closed : Piece → Prop
  | code _ _ block => ∀ b, block = .ok b → ∃ zs, Stretch.Closes 1 b.code zs
  | _ => True

theorem closed_scan (inWord : Bool) (s : Source) : (scan inWord s).value.Closed := by
  have comment (close : Bytes) (span : Span) (s : Source) : (comment close span s).value.Closed := by
    rw [Piece.comment]
    split <;> trivial
  have expression (span : Span) (e : Bytes) (s : Source) : (expression span e s).value.Closed := by
    rw [Piece.expression]
    split <;> trivial
  rw [scan]
  split
  · split
    · rw [ofDirective]
      split
      · exact fun b hb => closes_codeBlock hb
      · trivial
    · rw [transition]
      dsimp only
      split
      · trivial
      split
      · exact comment _ _ _
      split
      · trivial
      split
      · rw [parenthesized]
        split
        · exact expression _ _ _
        · trivial
      split
      · exact expression _ _ _
      · trivial
  split
  · exact comment _ _ _
  split
  · rw [ofEndTag]
    split <;> trivial
  split
  · trivial
  · trivial

theorem closed_scanAll (inWord : Bool) (s : Source) : ∀ p ∈ scanAll inWord s, p.1.Closed := by
  fun_induction scanAll inWord s with
  | case1 => simp
  | case2 inWord s _ r ih => exact List.forall_mem_cons.2 ⟨closed_scan inWord s, ih⟩

end Piece

namespace Draft

/-- All that was taken has been checked. -/
def admission : MarkupInvariant where
  node _ := True
  element _ := True
  outside := Template.Admitted
  node_text _ _ := trivial
  node_of_element _ := trivial
  element_push _ _ := trivial

theorem admitted_directive {t t' : Template} {span : Span} {argument : Bytes} {k : DirectiveKeyword}
    (ht : t.outside.Admitted) (h : directive t span argument k = .ok t') : t'.outside.Admitted := by
  cases directs_of_directive h with
  | page => exact ⟨ht.usings, ht.injections, ht.base, ht.code⟩
  | imports hname =>
    exact ⟨List.forall_mem_append.2 ⟨ht.usings, by simpa using hname⟩, ht.injections, ht.base, ht.code⟩
  | inject htype hname =>
    refine ⟨ht.usings, List.forall_mem_append.2 ⟨ht.injections, ?_⟩, ht.base, ht.code⟩
    simpa using ⟨htype, hname⟩
  | inherits hname => exact ⟨ht.usings, ht.injections, by simpa [Template.outside] using hname, ht.code⟩
  | code => exact ht

theorem meets_admission {p : Piece} (h : p.Closed) : p.Meets admission := by
  cases p with
  | text | expr | startTag | endTag | gap => trivial
  | directive => exact fun _ _ ht hdirective => admitted_directive ht hdirective
  | code =>
    intro t b ht hb
    exact ⟨ht.usings, ht.injections, ht.base,
      List.forall_mem_append.2 ⟨ht.code, by simpa using h b hb⟩⟩

end Draft

theorem Bytes.isQualifiedName_of_isQualified {s : Bytes} (h : s.IsQualified) :
    s.isQualifiedName = true :=
  List.all_eq_true.2 fun w hw => (Bytes.isQualified_iff.1 h w hw).1

theorem Template.admitted_parse (text : Bytes) : (Template.parse text).Admitted := by
  have hstart : Draft.Keeps Draft.admission {} :=
    ⟨by simp, by simp, by simp, by simp [Template.outside], by simp [Template.outside],
      by simp [Template.outside], by simp [Template.outside]⟩
  have hpieces := Piece.closed_scanAll false { rest := text }
  have hout := (hstart.foldl_step fun p hp => Draft.meets_admission (hpieces p hp)).finish.2
  exact ⟨hout.usings, hout.injections, hout.base, hout.code⟩

/-! ## Lines -/

namespace TokenStream

open Tokens (Balanced Flat)

/-- The column behind a part of a text depends on the bytes of the part only. -/
theorem Scans.column {c c' : Cursor} {text rest : Bytes} {ts : List Token}
    (h : Scans c text ts c' rest) : ∃ w, text = w ++ rest ∧ c'.column = (c.steps w).column := by
  induction h with
  | done => exact ⟨[], rfl, rfl⟩
  | @lexeme c c' b bs rest ts l hl _ _ ih =>
    obtain ⟨w, hrest, hcolumn⟩ := ih
    refine ⟨l.raw ++ w, ?_, ?_⟩
    · rw [List.append_assoc, ← hrest, hl, Lexeme.ofText_raw_append_rest]
    · rw [hcolumn, Cursor.steps, Cursor.steps, List.foldl_append]
      refine Cursor.column_steps_congr ?_ w
      rw [Cursor.after]
      change _ = (c.steps l.raw).column
      exact Cursor.column_steps_congr (by rfl) l.raw

theorem Scans.column_eq {c c' : Cursor} {w rest : Bytes} {ts : List Token}
    (h : Scans c (w ++ Ascii.lf :: rest) ts c' rest) : c'.column = 1 := by
  obtain ⟨v, hv, hcolumn⟩ := h.column
  obtain rfl : w ++ [Ascii.lf] = v := by
    rw [List.append_cons] at hv
    exact List.append_cancel_right hv
  rw [hcolumn, Cursor.steps, List.foldl_append]
  exact Cursor.column_step_lf _

/-- Where the lines `w` are scanned without errors from the start of a line their tokens have the
property `P`, and a line starts behind them. -/
def WritesLines (w : Bytes) (P : List Token → Prop) : Prop :=
  ∀ c ys, c.column = 1 → (scanFrom c (w ++ ys)).errors = [] →
    ∃ ts c', Scans c (w ++ ys) ts c' ys ∧ c'.column = 1 ∧ P ts

namespace WritesLines

variable {v w : Bytes} {P P' Q : List Token → Prop}

theorem mono (h : WritesLines w P) (hP : ∀ ts, P ts → P' ts) : WritesLines w P' := by
  intro c ys hc hclean
  obtain ⟨ts, c', hs, hc', hts⟩ := h c ys hc hclean
  exact ⟨ts, c', hs, hc', hP ts hts⟩

theorem append (h : WritesLines v P) (h' : WritesLines w P')
    (hQ : ∀ {ts us}, P ts → P' us → Q (ts ++ us)) : WritesLines (v ++ w) Q := by
  intro c ys hc hclean
  rw [List.append_assoc] at hclean ⊢
  obtain ⟨ts, c', hs, hc', hts⟩ := h c (w ++ ys) hc hclean
  rw [hs.scanFrom_eq] at hclean
  obtain ⟨us, c'', hs', hc'', hus⟩ := h' c' ys hc' hclean
  exact ⟨ts ++ us, c'', hs.trans hs', hc'', hQ hts hus⟩

theorem joined (h : WritesLines v P) (h' : WritesLines w P') : WritesLines (v ++ w) (Joined P P') :=
  h.append h' fun hts hus => ⟨_, _, rfl, hts, hus⟩

theorem nil (h : P []) : WritesLines [] P := fun c _ hc _ => ⟨[], c, .done, hc, h⟩

theorem flatMap_and {α : Type} {f : α → Bytes} {R : α → Prop} {xs : List α} (hnil : P [])
    (happend : ∀ {ts us}, P ts → P us → P (ts ++ us))
    (h : ∀ x ∈ xs, WritesLines (f x) fun ts => P ts ∧ R x) :
    WritesLines (xs.flatMap f) fun ts => P ts ∧ ∀ x ∈ xs, R x := by
  induction xs with
  | nil => exact .nil ⟨hnil, by simp⟩
  | cons x xs ih =>
    rw [List.flatMap_cons]
    refine (h x (by simp)).append (ih fun y hy => h y (by simp [hy])) ?_
    exact fun hts hus => ⟨happend hts.1 hus.1, List.forall_mem_cons.2 ⟨hts.2, hus.2⟩⟩

theorem flatMap {α : Type} {f : α → Bytes} {xs : List α} (hnil : P [])
    (happend : ∀ {ts us}, P ts → P us → P (ts ++ us)) (h : ∀ x ∈ xs, WritesLines (f x) P) :
    WritesLines (xs.flatMap f) P := by
  have hand := flatMap_and (R := fun _ => True) hnil happend fun x hx =>
    (h x hx).mono fun _ hts => ⟨hts, trivial⟩
  exact hand.mono fun _ hts => hts.1

end WritesLines

theorem Writes.lines {w : Bytes} {P : List Token → Prop} (h : Writes w P)
    (hlf : w.getLast? = some Ascii.lf) : WritesLines w P := by
  obtain ⟨w, rfl⟩ := List.getLast?_eq_some_iff.1 hlf
  intro c ys _ hclean
  obtain ⟨ts, c', hs, hts⟩ := h c ys hclean
  refine ⟨ts, c', hs, ?_, hts⟩
  rw [List.append_assoc] at hs
  exact hs.column_eq

/-! ## Names -/

/-- The tokens of identifiers with dots between them; keywords may be among them. -/
inductive Spelt : Bytes → List Token → Prop where
  | word {n : Bytes} {s : Span} : Spelt n [⟨wordKind n, s⟩]
  | dot {n m : Bytes} {s s' : Span} {w : List Token} :
      Spelt m w → Spelt (n ++ Ascii.dot :: m) (⟨wordKind n, s⟩ :: ⟨.punct .dot, s'⟩ :: w)

theorem isPlain_wordKind (n : Bytes) : (wordKind n).isPlain = true := by
  rw [wordKind]
  split <;> rfl

theorem Spelt.flat {n : Bytes} {w : List Token} (h : Spelt n w) : Flat w := by
  induction h with
  | word => exact .single (isPlain_wordKind _)
  | dot _ ih =>
    exact Tokens.joins_flat.cons (.single (isPlain_wordKind _)) (Tokens.joins_flat.cons (.single rfl) ih)

theorem writes_spelt {m v : Bytes} {x : UInt8} {P : List Token → Prop} (hm : m.isQualifiedName = true)
    (hx : Ascii.isNameByte x = false) (h : Writes (x :: v) P) :
    Writes (m ++ x :: v) (Joined (Spelt m) P) := by
  induction hn : m.length using Nat.strongRecOn generalizing m with
  | ind n ih =>
  rw [Bytes.isQualifiedName] at hm
  by_cases hdot : Ascii.dot ∈ m
  · obtain ⟨w, m, rfl, hw⟩ := List.eq_append_cons_of_mem hdot
    rw [Bytes.splitOn_append hw, List.all_cons, Bool.and_eq_true] at hm
    have hrest := ih m.length (by simp at hn; omega) hm.2 rfl
    cases m with
    | nil => cases hm.2
    | cons b bs =>
      have hmark : Punct.ofTwoBytes? Ascii.dot b = none := ofTwoBytes?_eq_none (by decide) b
      rw [List.append_assoc]
      refine (writes_word hm.1 rfl (writes_mark rfl rfl hmark hrest)).mono ?_
      rintro _ ⟨s, _, rfl, s', _, rfl, w, us, rfl, hw, hus⟩
      exact ⟨⟨_, s⟩ :: ⟨_, s'⟩ :: w, us, rfl, .dot hw, hus⟩
  · rw [Bytes.splitOn_of_not_mem hdot] at hm
    refine (writes_word (by simpa using hm) hx h).mono ?_
    rintro _ ⟨s, us, rfl, hus⟩
    exact ⟨[⟨_, s⟩], us, rfl, .word, hus⟩

end TokenStream

namespace WriteScope

open TokenStream
open Tokens (Balanced Flat Routed Spaced)

variable {c : WriteScope} {t : Template} {name : Bytes}

/-! ## The head of the component -/

theorem writes_namespaceLine {ns : Bytes} (h : ns = [] ∨ ns.IsQualified) :
    WritesLines (namespaceLine ns) (Spaced ns) := by
  rcases h with rfl | h
  · exact .nil .none
  · rw [namespaceLine, if_neg h.ne_nil]
    refine Writes.lines ?_ ?_
    · rw [List.append_assoc]
      refine (writes_opening .namespaceKw rfl (writes_name h rfl writes_semicolon)).mono ?_
      rintro _ ⟨s, _, rfl, w, _, rfl, hw, s', _, rfl, rfl⟩
      exact .some hw
    · rw [List.getLast?_append]
      rfl

/-- The tokens of using declarations. -/
inductive Uses : List Token → Prop where
  | nil : Uses []
  | cons {n : Bytes} {s s' : Span} {w ts : List Token} : Spelt n w → Uses ts →
      Uses (⟨.keyword .usingKw, s⟩ :: (w ++ ⟨.punct .semicolon, s'⟩ :: ts))

theorem Uses.append {ts us : List Token} (h : Uses ts) (h' : Uses us) : Uses (ts ++ us) := by
  induction h with
  | nil => exact h'
  | cons hw _ ih =>
    simp only [List.cons_append, List.append_assoc]
    exact .cons hw ih

theorem writes_usings {us : List Bytes} (h : ∀ u ∈ us, u.isQualifiedName = true) :
    WritesLines (us.flatMap usingLine) Uses := by
  refine .flatMap .nil .append fun u hu => Writes.lines ?_ ?_
  · rw [usingLine, List.append_assoc]
    refine (writes_opening .usingKw rfl (writes_spelt (h u hu) rfl writes_semicolon)).mono ?_
    rintro _ ⟨s, _, rfl, w, _, rfl, hw, s', _, rfl, rfl⟩
    exact .cons hw .nil
  · rw [usingLine, List.getLast?_append]
    rfl

theorem writes_routeLine (route : Option (Span × Bytes)) :
    WritesLines (c.routeLine route) (Routed (route.map (·.2))) := by
  cases route with
  | none => exact .nil .none
  | some r =>
    refine Writes.lines ?_ ?_
    · have hend : Writes "]\n" (Leads (.punct .rbracket) (· = [])) :=
        writes_mark (b := Ascii.rbracket) rfl rfl rfl (writes_blank rfl (.nil rfl))
      have hroute := writes_opening .routeKw (t := "route ") rfl (writes_quote r.2 hend)
      have hline := writes_mark (b := Ascii.lbracket) rfl rfl rfl hroute
      rw [routeLine]
      simp only [List.append_assoc]
      refine (writes_mapLine r.1 hline).mono ?_
      rintro _ ⟨s, _, rfl, s', _, rfl, s'', _, rfl, s₃, _, rfl, rfl⟩
      exact .some
    · rw [routeLine, List.getLast?_append]
      rfl

/-- The tokens that open the declaration of a component, with a base or without. -/
def Opens (name : Bytes) (ts : List Token) : Prop :=
  ∃ s s' s'' bs, ts = ⟨.keyword .componentKw, s⟩ :: ⟨.identifier name, s'⟩ ::
    (bs ++ [⟨.punct .lbrace, s''⟩]) ∧ (bs = [] ∨ ∃ p w, bs = ⟨.punct .colon, p⟩ :: w ∧ Flat w)

theorem writes_declarationLines {base : Option TypeRef} (hn : name.IsWord)
    (hb : ∀ b ∈ base, b.name.isQualifiedName = true) :
    WritesLines (c.declarationLines name base) (Opens name) := by
  have hkind : wordKind name = .identifier name := by rw [wordKind, hn.2]
  have hbrace : Writes " \x7b\n" (Leads (.punct .lbrace) (· = [])) :=
    writes_blank (b := Ascii.space) rfl (writes_lbrace (.nil rfl))
  cases base with
  | none =>
    refine Writes.lines ?_ ?_
    · have hline := writes_opening .componentKw (t := "component ") rfl (writes_word hn.1 rfl hbrace)
      have hlines := writes_lineMark "1" (by decide) hline
      rw [hkind] at hlines
      refine Writes.mono hlines ?_
      rintro _ ⟨s, _, rfl, s', _, rfl, s'', _, rfl, rfl⟩
      exact ⟨s, s', s'', [], rfl, .inl rfl⟩
    · rw [declarationLines, List.getLast?_append]
      rfl
  | some b =>
    refine Writes.lines ?_ ?_
    · have hbase : Writes (" : " ++ (b.name ++ " \x7b\n"))
          (Leads (.punct .colon) (Joined (Spelt b.name) (Leads (.punct .lbrace) (· = [])))) :=
        writes_blank (b := Ascii.space) rfl (writes_mark (b := Ascii.colon) rfl rfl rfl
          (writes_blank (b := Ascii.space) rfl (writes_spelt (hb b rfl) rfl hbrace)))
      have hline := writes_opening .componentKw (t := "component ") rfl (writes_word hn.1 rfl hbase)
      rw [declarationLines]
      simp only [List.append_assoc]
      rw [hkind] at hline
      refine (writes_mapLine b.span hline).mono ?_
      rintro _ ⟨s, _, rfl, s', _, rfl, s'', _, rfl, w, _, rfl, hw, s₃, _, rfl, rfl⟩
      exact ⟨s, s', s₃, ⟨.punct .colon, s''⟩ :: w, by simp, .inr ⟨s'', w, rfl, hw.flat⟩⟩
    · rw [declarationLines, List.getLast?_append]
      rfl

/-! ## The members of the component -/

theorem writes_injectLine {i : Injection} (ht : i.type.isQualifiedName = true)
    (hn : i.name.isIdentifier = true) : WritesLines (c.injectLine i) Balanced := by
  refine Writes.lines ?_ ?_
  · have hname : Writes (" " ++ (i.name ++ ";\n"))
        (Leads (wordKind i.name) (Leads (.punct .semicolon) (· = []))) :=
      writes_blank (b := Ascii.space) rfl (writes_word hn rfl writes_semicolon)
    rw [injectLine]
    simp only [List.append_assoc]
    refine (writes_mapLine i.span (writes_opening .injectKw rfl (writes_spelt ht rfl hname))).mono ?_
    rintro _ ⟨s, _, rfl, w, _, rfl, hw, s', _, rfl, s'', _, rfl, rfl⟩
    refine Flat.balanced (Tokens.joins_flat.cons (.single rfl) (Tokens.joins_flat.append hw.flat ?_))
    exact Tokens.joins_flat.cons (.single (isPlain_wordKind _)) (.single rfl)
  · rw [injectLine, List.getLast?_append]
    rfl

theorem writes_codeLines {b : CodeBlock} {zs : Bytes} (h : Stretch.Closes 1 b.code zs)
    (hu : Unbroken {} b.code) : WritesLines (c.codeLines b) fun ts => Balanced ts ∧ Nested b.code := by
  have hmap : WritesLines (c.mapLine b.span) (· = []) := by
    refine Writes.lines ?_ ?_
    · have hline := writes_mapLine (c := c) b.span (.nil (P := (· = [])) rfl)
      rwa [List.append_nil] at hline
    · rw [mapLine, List.getLast?_append]
      rfl
  have hcode : WritesLines (b.code ++ ("\n" : Bytes)) fun ts => Balanced ts ∧ Nested b.code := by
    intro cursor ys hc hclean
    rw [List.append_assoc] at hclean ⊢
    obtain ⟨hnested, ts, c', hs, hts⟩ := exists_scans_balanced hc hu h hclean
    exact ⟨ts, c', hs, hs.column_eq, hts, hnested⟩
  rw [codeLines, List.append_assoc]
  refine hmap.append hcode ?_
  rintro _ us rfl hus
  exact hus

theorem writes_members (ht : t.Admitted) (hu : ∀ b ∈ t.code, Unbroken {} b.code) :
    WritesLines (c.members t) fun ts => Balanced ts ∧ ∀ b ∈ t.code, Nested b.code := by
  have hinject := WritesLines.flatMap (f := c.injectLine) Tokens.joins_balanced.nil .append
    fun i hi => writes_injectLine (ht.injections i hi).1 (ht.injections i hi).2
  have hcode := WritesLines.flatMap_and (f := c.codeLines) (R := fun b => Nested b.code)
    Tokens.joins_balanced.nil .append fun b hb =>
      (ht.code b hb).elim fun zs hzs => writes_codeLines hzs (hu b hb)
  have hend : WritesLines "#line default\n" Balanced :=
    Writes.lines (writes_lineMark (v := []) "default" (by decide) (.nil Tokens.joins_balanced.nil)) rfl
  have hmembers : WritesLines (t.injections.flatMap c.injectLine ++ t.code.flatMap c.codeLines)
      fun ts => Balanced ts ∧ ∀ b ∈ t.code, Nested b.code :=
    hinject.append hcode fun hts hus => ⟨hts.append hus.1, hus.2⟩
  exact hmembers.append hend fun hts hus => ⟨hts.1.append hus, hts.2⟩

/-- The text of a file up to its render block: the head of a component, and balanced members. -/
theorem writes_head (ht : t.Admitted) (hns : c.ns = [] ∨ c.ns.IsQualified)
    (hus : ∀ u ∈ c.usings, u.isQualifiedName = true) (hn : name.IsWord)
    (hu : ∀ b ∈ t.code, Unbroken {} b.code) : WritesLines (c.header t name ++ c.members t)
      (Joined (Spaced c.ns) (Joined Uses (Joined (Routed (t.route.map (·.2)))
        (Joined (Opens name) fun ts => Balanced ts ∧ ∀ b ∈ t.code, Nested b.code)))) := by
  rw [header_eq]
  simp only [List.append_assoc]
  exact (writes_namespaceLine hns).joined ((writes_usings hus).joined ((writes_routeLine t.route).joined
    ((writes_declarationLines hn ht.base).joined (writes_members ht hu))))

end WriteScope

/-! ## Reading the file -/

namespace Tokens

open Reading (Orderly)
open TokenKind (isBorder)
open TokenStream (Spelt wordKind)
open WriteScope (Opens Uses)

/-- Two parts without braces in front of a brace are the same. -/
theorem Flat.unique {v w r r' : List Token} {t t' : Token} (hv : Flat v) (hw : Flat w)
    (ht : t.kind.isPlain = false) (ht' : t'.kind.isPlain = false)
    (h : v ++ t :: r = w ++ t' :: r') : v = w ∧ t :: r = t' :: r' := by
  rcases List.append_eq_append_iff.1 h with ⟨u, rfl, hu⟩ | ⟨u, rfl, hu⟩
  · cases u with
    | nil => exact ⟨by simp, hu⟩
    | cons x u =>
      cases hu
      simp [hw t (by simp)] at ht
  · cases u with
    | nil => exact ⟨by simp, hu.symm⟩
    | cons x u =>
      cases hu
      simp [hv t' (by simp)] at ht'

theorem errors_nameStatement {ts rest : List Token} {n : Bytes} (h : qualifiedName ts = .ok n rest) :
    (nameStatement ts).errors = (mark .semicolon rest).errors := by
  have hrecover {α : Type} (r : Reading α) : r.recover.errors = r.errors := by
    rw [Reading.recover]
    split <;> rfl
  rw [nameStatement, hrecover, h]
  simp [Reading.andThen, Reading.ok, Reading.map, Reading.report]

/-- A name that is read as a whole has no keywords in it. -/
theorem named_of_spelt {n : Bytes} {w k : List Token} {s : Span} (h : Spelt n w)
    (ho : Orderly (nameStatement (w ++ ⟨.punct .semicolon, s⟩ :: k)).errors) : Named n w := by
  have word {n : Bytes} {s : Span} {ts : List Token}
      (ho : Orderly (nameStatement (⟨wordKind n, s⟩ :: ts)).errors) : wordKind n = .identifier n := by
    cases hk : Keyword.ofText? n with
    | none => simp [wordKind, hk]
    | some kw =>
      have hfirst : Orderly (identifier "name" (⟨.keyword kw, s⟩ :: ts)).errors := by
        simp only [wordKind, hk] at ho
        exact Reading.orderly_of_andThen (Reading.orderly_of_andThen (Reading.orderly_recover.1 ho))
      exact absurd hfirst (Reading.not_orderly_expected _ _ _)
  induction h with
  | @word n s' =>
    rw [word ho]
    exact .word
  | @dot n m s₁ s₂ w hw ih =>
    have hn : wordKind n = .identifier n := word ho
    obtain ⟨m', s₃, w', rfl⟩ : ∃ m' s₃ w', w = ⟨wordKind m', s₃⟩ :: w' := by
      cases hw with
      | word => exact ⟨_, _, [], rfl⟩
      | dot => exact ⟨_, _, _, rfl⟩
    rw [hn] at ho ⊢
    refine .dot (ih ?_)
    cases hk : Keyword.ofText? m' with
    | none =>
      have hm : wordKind m' = .identifier m' := by simp [wordKind, hk]
      simp only [hm, List.cons_append] at ho ⊢
      rw [errors_nameStatement rfl] at ho ⊢
      exact ho
    | some kw =>
      have hm : wordKind m' = .keyword kw := by simp [wordKind, hk]
      simp only [hm, List.cons_append] at ho
      rw [errors_nameStatement rfl] at ho
      exact absurd ho (Reading.not_orderly_expected _ _ _)

theorem imports_of_uses {ts k : List Token} (h : Uses ts) {hasNs hasType : Bool}
    (ho : Orderly (unitItems hasNs hasType (ts ++ k)).errors) : ∃ us, Imports us ts := by
  induction h with
  | nil => exact ⟨[], .nil⟩
  | @cons n s s' w ts hw _ ih =>
    have hfirst : Orderly (nameStatement (w ++ ⟨.punct .semicolon, s'⟩ :: (ts ++ k))).errors := by
      simp only [List.cons_append, List.append_assoc] at ho
      rw [unitItems_cons (by simp)] at ho
      exact (Reading.orderly_append.1 ho).1
    have hone : Imports [n] (⟨.keyword .usingKw, s⟩ :: (w ++ [⟨.punct .semicolon, s'⟩])) :=
      imports_using (named_of_spelt hw hfirst)
    rw [List.append_cons, ← List.cons_append] at ho ⊢
    obtain ⟨us, hus, hread⟩ := hone
    rw [List.append_assoc, hread] at ho
    obtain ⟨vs, hvs⟩ := ih ho
    exact ⟨_, Imports.append ⟨us, hus, hread⟩ hvs⟩

/-- The head of a component is read up to its brace. -/
theorem typeHead_component {route : Option Bytes} {name : Bytes} {rs bs r : List Token} {s s' s'' : Span}
    (hr : Routed route rs) (hb : bs = [] ∨ ∃ p w, bs = ⟨.punct .colon, p⟩ :: w ∧ Flat w)
    (ho : Orderly (typeHead (rs ++ ⟨.keyword .componentKw, s⟩ :: ⟨.identifier name, s'⟩ ::
      (bs ++ ⟨.punct .lbrace, s''⟩ :: r))).errors) :
    ∃ (head : TypeDecl) (es : List (Span × SyntaxError)),
      typeHead (rs ++ ⟨.keyword .componentKw, s⟩ :: ⟨.identifier name, s'⟩ ::
        (bs ++ ⟨.punct .lbrace, s''⟩ :: r)) = ⟨some head, es, r⟩
      ∧ head.kind = .component ∧ head.name = name := by
  rw [typeHead_of_routed hr] at ho ⊢
  rcases hb with rfl | ⟨p, w, rfl, hw⟩
  · exact ⟨{ kind := .component, name, route, span := s }, [], rfl, rfl, rfl⟩
  · rw [List.cons_append, if_pos (next_cons ..), List.tail_cons] at ho ⊢
    have htype : Orderly ((type (w ++ ⟨.punct .lbrace, s''⟩ :: r)).map some).errors :=
      Reading.orderly_of_andThen ho
    obtain ⟨v, base, es, r', heq, hv, hc⟩ := reads_type htype
    have hread : type (w ++ ⟨.punct .lbrace, s''⟩ :: r) = ⟨some base, es, r'⟩ := by rw [heq, hc.here]
    have hbrace : Orderly (mark .lbrace r').errors := by
      rw [hread] at ho
      exact (Reading.orderly_append.1 ho).2
    have hnext : next r' = .punct .lbrace := by
      refine Decidable.byContradiction fun hn => ?_
      rw [mark, take, if_neg hn] at hbrace
      exact Reading.not_orderly_expected _ _ _ hbrace
    obtain ⟨q, r', rfl⟩ := exists_cons_of_next hnext (by simp)
    obtain ⟨rfl, hrest⟩ := hw.unique hv.2.flat rfl rfl heq
    cases hrest
    refine ⟨{ kind := .component, name, base := some base, route, span := s }, es, ?_, rfl, rfl⟩
    rw [hread]
    simp [Reading.andThen, Reading.map, Reading.report, mark, take, next_cons, Reading.ok]

/-- A component whose members are balanced, with a render block behind them, owns the block. -/
theorem typeDecl_component {route : Option Bytes} {name : Bytes} {rs os m k : List Token}
    (hr : Routed route rs) (hos : Opens name os) (hm : Balanced m) (hk : RenderTail k)
    (hclean : (typeDecl (rs ++ (os ++ (m ++ k)))).errors = []) :
    ∃ d e, e.kind = .eof ∧ typeDecl (rs ++ (os ++ (m ++ k))) = ⟨some d, [], [e]⟩
      ∧ d.kind = .component ∧ d.name = name ∧ RendersTail k d := by
  have ho : Orderly (typeDecl (rs ++ (os ++ (m ++ k)))).errors := by simp [Orderly, hclean]
  have hohead : Orderly (typeHead (rs ++ (os ++ (m ++ k)))).errors :=
    Reading.orderly_recover.1 (Reading.orderly_of_andThen ho)
  obtain ⟨v, head, es, r, heq, -, hc⟩ := reads_typeHead.recover (Reading.orderly_of_andThen ho)
  obtain ⟨rfl, hkind, rfl⟩ : r = m ++ k ∧ head.kind = .component ∧ head.name = name := by
    obtain ⟨s, s', s'', bs, rfl, hbs⟩ := hos
    simp only [List.cons_append, List.append_assoc, List.nil_append] at heq hohead
    obtain ⟨head', es', hhead, hkind, hname⟩ := typeHead_component hr hbs hohead
    have hread := hc.here
    rw [← heq, hhead] at hread
    cases hread
    exact ⟨rfl, hkind, hname⟩
  obtain ⟨t, ts, rfl, ht⟩ : ∃ t ts, k = t :: ts ∧ t.kind.startsMember = true := by
    obtain ⟨s, s', w, c, b, e, rfl, -⟩ := hk.exists_eq
    exact ⟨_, _, rfl, rfl⟩
  have hbody : Orderly (closing (members head.name false) (declOf head) (m ++ t :: ts)).errors := by
    rw [typeDecl_eq, heq, hc.here, Reading.andThen] at ho
    exact (Reading.orderly_append.1 ho).2
  obtain ⟨items, es', again, hin⟩ := exists_membersIn_append hm ht (orderly_of_closing hbody)
  have htype := TypeIn.of_membersIn hc hk.isBorder hin
  rw [heq, ← List.append_assoc] at ho hclean ⊢
  obtain ⟨d, es₁, e, he, hread, hd, hrender⟩ := htype.typeDecl_render hk ho
  obtain rfl : es₁ = [] := by rwa [hread] at hclean
  have hdkind : d.kind = head.kind := congrArg (·.kind) hd
  have hdname : d.name = head.name := congrArg (·.name) hd
  exact ⟨d, e, he, hread, hdkind.trans hkind, hdname, hrender rfl⟩

/-- Using declarations and a component with balanced members and a render block. -/
theorem unitItems_uses {route : Option Bytes} {name : Bytes} {us rs os m k : List Token} {hasNs : Bool}
    (hu : Uses us) (hr : Routed route rs) (hos : Opens name os) (hm : Balanced m) (hk : RenderTail k)
    (hclean : (unitItems hasNs false (us ++ (rs ++ (os ++ (m ++ k))))).errors = []) :
    ∃ (vs : List Using) (d : TypeDecl),
      (unitItems hasNs false (us ++ (rs ++ (os ++ (m ++ k))))).value =
        some (vs.map UnitItem.using ++ [UnitItem.type d])
      ∧ d.kind = .component ∧ d.name = name ∧ RendersTail k d := by
  have ho : Orderly (unitItems hasNs false (us ++ (rs ++ (os ++ (m ++ k))))).errors := by
    simp [Orderly, hclean]
  obtain ⟨_, vs, -, hread⟩ := imports_of_uses hu ho
  rw [hread] at hclean ⊢
  obtain ⟨t, ts, hts, ht, hne⟩ : ∃ t ts, rs ++ (os ++ (m ++ k)) = t :: ts ∧ startsType t.kind = true
      ∧ ts ≠ [] := by
    obtain ⟨s, s', s'', bs, rfl, -⟩ := hos
    cases hr with
    | none => exact ⟨_, _, rfl, rfl, by simp⟩
    | some => exact ⟨_, _, rfl, rfl, by simp⟩
  have hne' : t.kind ≠ .eof := by
    intro h
    rw [h] at ht
    cases ht
  have htype : (typeDecl (rs ++ (os ++ (m ++ k)))).errors = [] := by
    change (unitItems hasNs false (rs ++ (os ++ (m ++ k)))).errors = [] at hclean
    rw [hts, unitItems_cons hne', unitItem_type ht] at hclean
    rw [hts]
    exact (List.append_eq_nil_iff.1 hclean).1
  obtain ⟨d, e, he, hdecl, hkind, hname, hrender⟩ := typeDecl_component hr hos hm hk htype
  refine ⟨vs, d, ?_, hkind, hname, hrender⟩
  rw [hts] at hdecl ⊢
  simp [Reading.map, (unitItems_last ht he hdecl hne).1]

/-- A file that starts with a namespace, usings and the head of a component, and ends with a render
block, has no other types and the block belongs to the component, if what stands between is
balanced. -/
theorem unitItems_component {n : Bytes} {route : Option Bytes} {name : Bytes}
    {ns us rs os m k : List Token} (hn : Spaced n ns) (hu : Uses us) (hr : Routed route rs)
    (hos : Opens name os) (hm : Balanced m) (hk : RenderTail k)
    (hclean : (unitItems false false (ns ++ (us ++ (rs ++ (os ++ (m ++ k)))))).errors = []) :
    ∃ (items : List UnitItem) (d : TypeDecl),
      (unitItems false false (ns ++ (us ++ (rs ++ (os ++ (m ++ k)))))).value = some items
      ∧ (∀ file ds, (SyntaxTree.ofItems file items ds).ns = n
        ∧ (SyntaxTree.ofItems file items ds).types = [d])
      ∧ d.kind = .component ∧ d.name = name ∧ RendersTail k d := by
  cases hn with
  | none =>
    obtain ⟨vs, d, hvalue, hd⟩ := unitItems_uses hu hr hos hm hk hclean
    exact ⟨_, d, hvalue, fun file ds => by simp [SyntaxTree.ofItems], hd⟩
  | @some _ s s' w hw =>
    simp only [List.cons_append, List.append_assoc, List.nil_append] at hclean ⊢
    rw [unitItems_namespace hw] at hclean ⊢
    obtain ⟨vs, d, hvalue, hd⟩ := unitItems_uses hu hr hos hm hk hclean
    refine ⟨.ns n :: (vs.map UnitItem.using ++ [UnitItem.type d]), d, ?_,
      fun file ds => by simp [SyntaxTree.ofItems], hd⟩
    simp [Reading.map, hvalue]

end Tokens

/-! ## The component of a template -/

namespace TypeDecl

/-- The type renders the block at the start of `rest`, where this is the last part of the text. -/
def Owns (d : TypeDecl) (text rest : Bytes) : Prop :=
  ∃ ts c, TokenStream.Scans {} text ts c rest
    ∧ Tokens.RendersTail (TokenStream.scanFrom c rest).tokens d

end TypeDecl

theorem SyntaxTree.scanned_of_parse {source file : Bytes} (h : (parse source file).diagnostics = []) :
    (TokenStream.scan source).errors = [] := by
  simpa [TokenStream.diagnostics] using (List.append_eq_nil_iff.1 h).1

namespace WriteScope

variable {c : WriteScope} {t : Template} {name : Bytes}

/-- The file of a template is read as one component, if it is read without a report. -/
theorem parse_file (file : Bytes) (ht : t.Admitted) (htable : c.table.Nameable)
    (hns : c.ns = [] ∨ c.ns.IsQualified) (hus : ∀ u ∈ c.usings, u.isQualifiedName = true)
    (hn : name.IsWord) (hu : ∀ b ∈ t.code, TokenStream.Unbroken {} b.code)
    (hs : ∀ n ∈ t.nodes, n.Sound) {source : Bytes}
    (hsource : source = c.header t name ++ c.members t ++ ((c.render t).code ++ "\x7d\n"))
    (hclean : (SyntaxTree.parse source file).diagnostics = []) :
    (∃ d, (SyntaxTree.parse source file).types = [d] ∧ d.kind = .component ∧ d.name = name
        ∧ d.Owns source ((c.render t).code ++ "\x7d\n"))
      ∧ (SyntaxTree.parse source file).ns = c.ns ∧ ∀ b ∈ t.code, TokenStream.Nested b.code := by
  have hscan := SyntaxTree.scanned_of_parse hclean
  have hread := SyntaxTree.errors_of_parse hclean
  obtain ⟨_, cursor, hscans, -, ns, _, rfl, hns, us, _, rfl, hus, rs, _, rfl, hrs, os, m, rfl, hos, hm,
    hnested⟩ := writes_head ht hns hus hn hu {} ((c.render t).code ++ "\x7d\n") rfl (hsource ▸ hscan)
  rw [← hsource] at hscans
  rw [TokenStream.scan, hscans.scanFrom_eq] at hscan hread
  have hk := (markupTail_of_clean htable hs hscan).renderTail
  simp only [List.append_assoc] at hread
  obtain ⟨items, d, hvalue, htree, hkind, hname, hrenders⟩ :=
    Tokens.unitItems_component hns hus hrs hos hm hk hread
  rw [SyntaxTree.parse, TokenStream.scan, hscans.scanFrom_eq]
  simp only [List.append_assoc, hvalue]
  exact ⟨⟨d, (htree _ _).2, hkind, hname, _, cursor, hscans, hrenders⟩, (htree _ _).1, hnested⟩

end WriteScope

namespace Item

variable {i : Item} {o : TemplateOptions} {table : SymbolTable}

/-- The file of an item has one type. It is the component of the item, in the namespace of the item,
and it owns the render block, if no string in a code block has a backslash at the end of a line: no
code block closes a brace that it did not open. -/
theorem parse_generate_component (file : Bytes)
    (h : Diagnostic.hasErrors (i.generate o (some table)).value.diagnostics = false) (ho : o.Named)
    (ht : table.Nameable) (hu : ∀ b ∈ i.template.code, TokenStream.Unbroken {} b.code)
    (hclean : (SyntaxTree.parse (i.generate o (some table)).value.code file).diagnostics = []) :
    (∃ d, (SyntaxTree.parse (i.generate o (some table)).value.code file).types = [d]
        ∧ d.kind = .component ∧ d.name = ComponentName.ofPath i.path
        ∧ d.Owns (i.generate o (some table)).value.code
          (((i.scope o table).render i.template).code ++ "\x7d\n"))
      ∧ (SyntaxTree.parse (i.generate o (some table)).value.code file).ns =
        ComponentName.namespaceOf o.rootNamespace i.path
      ∧ ∀ b ∈ i.template.code, TokenStream.Nested b.code := by
  have hvalid := isValid_of_generate h
  have hadmitted : i.template.Admitted := Template.admitted_parse i.content
  have hus : ∀ u ∈ i.template.allUsings o.imports, u.isQualifiedName = true := by
    intro u hu
    rcases Template.mem_of_mem_allUsings hu with hu | ⟨v, hv, rfl⟩
    · exact Bytes.isQualifiedName_of_isQualified (ho.imports u hu)
    · exact hadmitted.usings v hv
  have hsource := @code_generate i o table hvalid
  rw [← List.append_assoc] at hsource
  exact (i.scope o table).parse_file file hadmitted ht
    (ComponentName.isQualified_namespaceOf ho.root i.path) hus (ComponentName.isWord_of_isValid hvalid) hu
    (Template.sound_parse (not_faulty_of_generate h)) hsource hclean

/-- A template with braces in the strings and the comments of its code. -/
def menuItem : Item := .ofFile
  { path := "Menus/Menu.view"
    content := "<p>@Label</p>
@code \x7b
  field string Label = \"\x7d \\\" \x7b\"; // \x7d
  /* \x7b */ method Clear() \x7b Label = \"\"; \x7d
\x7d
<Panel Title=\"\x7d\"/>\n"
    kind := .template } "" "/app/"

theorem parse_generate_component_menu :
    Diagnostic.hasErrors (menuItem.generate boardOptions (some boardTable)).value.diagnostics = false
      ∧ boardOptions.Named ∧ boardTable.Nameable
      ∧ menuItem.template.code.length = 1
      ∧ (∀ b ∈ menuItem.template.code, TokenStream.Unbroken {} b.code)
      ∧ (SyntaxTree.parse (menuItem.generate boardOptions (some boardTable)).value.code
          "Menu").diagnostics = []
      ∧ (∃ d, (SyntaxTree.parse (menuItem.generate boardOptions (some boardTable)).value.code
            "Menu").types = [d] ∧ d.kind = .component ∧ d.name = "Menu"
          ∧ d.Owns (menuItem.generate boardOptions (some boardTable)).value.code
            (((menuItem.scope boardOptions boardTable).render menuItem.template).code ++ "\x7d\n"))
      ∧ (SyntaxTree.parse (menuItem.generate boardOptions (some boardTable)).value.code
          "Menu").ns = "App.Menus"
      ∧ ∀ b ∈ menuItem.template.code, TokenStream.Nested b.code := by
  have ho : boardOptions.Named := by decide +kernel
  have ht : boardTable.Nameable := by decide +kernel
  -- All of this is read off the template, which is parsed once for it.
  obtain ⟨hclean, hlength, hu, hread⟩ : Diagnostic.hasErrors
        (menuItem.generate boardOptions (some boardTable)).value.diagnostics = false
      ∧ menuItem.template.code.length = 1
      ∧ (∀ b ∈ menuItem.template.code, TokenStream.Unbroken {} b.code)
      ∧ (SyntaxTree.parse (menuItem.generate boardOptions (some boardTable)).value.code
          "Menu").diagnostics = [] := by
    rw [menuItem]
    repeat rw [Bytes.ofString_ofList]
    decide +kernel
  have hns : ComponentName.namespaceOf boardOptions.rootNamespace menuItem.path = "App.Menus" := by
    decide +kernel
  have hname : ComponentName.ofPath menuItem.path = "Menu" := by decide +kernel
  have htree := parse_generate_component "Menu" hclean ho ht hu hread
  rw [hns, hname] at htree
  exact ⟨hclean, ho, ht, hlength, hu, hread, htree⟩

end Item

end ViewCompiler
