import ViewCompiler.Proofs.WrittenMarkup

/-!
The markup of a template without errors. An attribute whose expression cannot be parsed is reported
when it is read, and reports are never dropped, so in a template without errors every expression can
be parsed (`Template.sound_parse`).
-/

namespace ViewCompiler

/-- Some report is an error. -/
def Faulty (es : List TemplateReport) : Prop := ∃ r ∈ es, r.2.severity = .error

theorem Faulty.mono {es es' : List TemplateReport} (h : Faulty es) (hs : es ⊆ es') : Faulty es' := by
  obtain ⟨r, hr, he⟩ := h
  exact ⟨r, hs hr, he⟩

/-! ## Pieces -/

namespace Attribute

theorem sound_check {span : Span} {name : Bytes} {value : Option Bytes} {rest : Source}
    {a : Attribute} (h : (check span name value rest).value = some a) :
    a.Sound ∨ Faulty (check span name value rest).errors := by
  rw [check] at h ⊢
  split at h
  · cases h
  next hevent =>
  rw [if_neg hevent]
  split at h
  · next hnone =>
    cases h
    refine .inl fun code hcode => ?_
    cases hnone.symm.trans hcode
  · next code hcode =>
    split at h
    · next hparse =>
      cases h
      refine .inl fun code' hcode' => ?_
      cases hcode.symm.trans hcode'
      exact hparse
    · next hparse =>
      simp only [if_neg hparse]
      exact .inr ⟨_, List.mem_singleton.2 rfl, rfl⟩

theorem sound_scan {tag : Bytes} {s : Source} {a : Attribute} (h : (scan tag s).value = some a) :
    a.Sound ∨ Faulty (scan tag s).errors := by
  rw [scan] at h ⊢
  split at h
  · cases h
  next b bs hs =>
  simp only [hs] at h ⊢
  split at h
  · next hb =>
    simp only [hb, if_true] at h ⊢
    split at h
    · next he =>
      simp only [he, if_true]
      split at h
      · exact sound_check h
      · cases h
    · next he =>
      simp only [he, if_false]
      exact sound_check h
  · cases h

end Attribute

namespace TagBody

theorem sound_scan {span : Span} {tag : Bytes} {attributes : List Attribute} {s : Source}
    (h : ∀ a ∈ attributes, a.Sound) :
    (∀ a ∈ (scan span tag attributes s).value.attributes, a.Sound) ∨
      Faulty (scan span tag attributes s).errors := by
  have abandoned (attributes : List Attribute) (s : Source) :
      (abandon attributes s).value.attributes = attributes := by
    rw [abandon]
    split <;> rfl
  fun_induction scan span tag attributes s with
  | case1 | case2 | case3 => exact .inl h
  | case4 attributes s s' h₁ h₂ h₃ a ha r => exact .inl (by simpa [r, abandoned] using h)
  | case5 attributes s s' h₁ h₂ h₃ a next ha r ih =>
    rcases Attribute.sound_scan ha with hn | hf
    · have hall : ∀ x ∈ attributes ++ [next], x.Sound :=
        List.forall_mem_append.2 ⟨h, by simpa using hn⟩
      exact (ih hall).imp_right fun hf => hf.mono (List.subset_append_right _ _)
    · exact .inr (hf.mono (List.subset_append_left _ _))

end TagBody

namespace Piece

/-- All expressions of the piece can be parsed. -/
def Sound : Piece → Prop
  | expr _ e => (Expr.parse? e).isSome = true
  | startTag _ _ attributes _ => ∀ a ∈ attributes, a.Sound
  | _ => True

theorem sound_expression (span : Span) (code : Bytes) (rest : Source) :
    (expression span code rest).value.Sound := by
  rw [expression]
  split
  · assumption
  · trivial

theorem sound_comment (close : Bytes) (span : Span) (s : Source) :
    (comment close span s).value.Sound := by
  rw [comment]
  split <;> trivial

theorem sound_transition (inWord : Bool) (s : Source) : (transition inWord s).value.Sound := by
  rw [transition]
  dsimp only
  split
  · trivial
  split
  · exact sound_comment _ _ _
  split
  · trivial
  split
  · rw [parenthesized]
    split
    · exact sound_expression _ _ _
    · trivial
  split
  · exact sound_expression _ _ _
  · trivial

theorem sound_scan (inWord : Bool) (s : Source) :
    (scan inWord s).value.Sound ∨ Faulty (scan inWord s).errors := by
  rw [scan]
  split
  · split
    · refine .inl ?_
      rw [ofDirective]
      split <;> trivial
    · exact .inl (sound_transition _ _)
  split
  · exact .inl (sound_comment _ _ _)
  split
  · refine .inl ?_
    rw [ofEndTag]
    split <;> trivial
  split
  · exact TagBody.sound_scan (by simp)
  · exact .inl trivial

theorem sound_scanAll (inWord : Bool) (s : Source) :
    ∀ p ∈ scanAll inWord s, p.1.Sound ∨ Faulty p.2 := by
  fun_induction scanAll inWord s with
  | case1 => simp
  | case2 inWord s _ r ih => exact List.forall_mem_cons.2 ⟨sound_scan inWord s, ih⟩

end Piece

/-! ## Drafts -/

namespace Template

/-- The template without its markup and reports. -/
def outside (t : Template) : Template := { t with nodes := [], errors := [] }

end Template

namespace OpenElement

/-- All expressions of the element can be parsed, so far. -/
def Sound (e : OpenElement) : Prop := (∀ a ∈ e.attributes, a.Sound) ∧ ∀ n ∈ e.children, n.Sound

end OpenElement

/-- What is kept of the markup while a template is built: a property of nodes, one of elements that
are still open, and one of all that stands outside of the markup. -/
structure MarkupInvariant where
  node : Node → Prop
  element : OpenElement → Prop
  outside : Template → Prop
  node_text : ∀ {span span' : Span} {t t' : Bytes}, node (.text span t) → node (.text span' t') →
    node (.text span (t ++ t'))
  node_of_element : ∀ {e : OpenElement}, element e → node e.node
  element_push : ∀ {e : OpenElement} {n : Node}, element e → node n → element (e.push n)

/-- The piece can be taken into any draft that keeps the invariant. -/
def Piece.Meets (I : MarkupInvariant) : Piece → Prop
  | text span t => I.node (.text span t)
  | expr span e => I.node (.expr span e)
  | startTag span tag attributes _ => I.element { span, tag, attributes }
  | directive span _ k argument => ∀ t t' : Template, I.outside t.outside →
      Draft.directive t span argument k = .ok t' → I.outside t'.outside
  | code _ _ block => ∀ (t : Template) (b : CodeBlock), I.outside t.outside → block = .ok b →
      I.outside (Template.outside { t with code := t.code ++ [b] })
  | endTag _ _ | gap => True

namespace Draft

variable {I : MarkupInvariant} {d : Draft}

/-- The invariant holds of all that was taken so far. -/
structure Keeps (I : MarkupInvariant) (d : Draft) : Prop where
  nodes : ∀ n ∈ d.template.nodes, I.node n
  opened : ∀ e ∈ d.opened, I.element e
  text : ∀ p ∈ d.text, I.node (.text p.1 p.2)
  outside : I.outside d.template.outside

theorem Keeps.addNode (h : d.Keeps I) {n : Node} (hn : I.node n) : (d.addNode n).Keeps I := by
  rw [Draft.addNode]
  split
  · next hopen =>
    exact ⟨List.forall_mem_append.2 ⟨h.nodes, by simpa using hn⟩, h.opened, h.text, h.outside⟩
  · next e es hopen =>
    have hes := h.opened
    rw [hopen] at hes
    have hes := List.forall_mem_cons.1 hes
    exact ⟨h.nodes, List.forall_mem_cons.2 ⟨I.element_push hes.1 hn, hes.2⟩, h.text, h.outside⟩

theorem Keeps.endText (h : d.Keeps I) : d.endText.Keeps I := by
  rw [Draft.endText]
  split
  · exact h
  · next span t htext =>
    have hnone : Keeps I { d with text := none } := ⟨h.nodes, h.opened, by simp, h.outside⟩
    exact hnone.addNode (h.text (span, t) htext)

theorem Keeps.close (h : d.Keeps I) (n : Nat) : (d.close n).Keeps I := by
  induction n generalizing d with
  | zero => exact h
  | succ n ih =>
    rw [Draft.close]
    split
    · exact h
    · next e es hopen =>
      have hes := h.opened
      rw [hopen] at hes
      have hes := List.forall_mem_cons.1 hes
      have h : Keeps I { d with opened := es } := ⟨h.nodes, hes.2, h.text, h.outside⟩
      exact ih (h.addNode (I.node_of_element hes.1))

theorem Keeps.report (h : d.Keeps I) (es : List TemplateReport) : (d.report es).Keeps I :=
  ⟨h.nodes, h.opened, h.text, h.outside⟩

theorem Keeps.reportPlace (h : d.Keeps I) (span : Span) (atLineStart : Bool) (k : DirectiveKeyword) :
    (d.reportPlace span atLineStart k).Keeps I := by
  rw [Draft.reportPlace]
  split
  · exact h
  · exact h.report _

theorem Keeps.endTag (h : d.Keeps I) (span : Span) (tag : Bytes) : (d.endTag span tag).Keeps I := by
  rw [Draft.endTag]
  split
  · exact h.report _
  · exact (h.report _).close _

/-- An element that has just been opened, or that has no content. -/
theorem Keeps.startTag (h : d.Keeps I) {e : OpenElement} (he : I.element e) (opens : Bool) :
    (if opens then { d with opened := e :: d.opened } else d.addNode e.node : Draft).Keeps I := by
  split
  · exact ⟨h.nodes, List.forall_mem_cons.2 ⟨he, h.opened⟩, h.text, h.outside⟩
  · exact h.addNode (I.node_of_element he)

theorem Keeps.finish (h : d.Keeps I) :
    (∀ n ∈ d.finish.nodes, I.node n) ∧ I.outside d.finish.outside := by
  have hend := (h.endText.report (d.endText.opened.reverse.map (·.report))).close d.endText.opened.length
  exact ⟨hend.nodes, hend.outside⟩

/-- What a directive makes of a template: it gives it the route or the base that it has not had, or one more
using or injection, and the names in it are names. -/
inductive Directs (t : Template) (span : Span) : Template → Prop where
  | page {path : Bytes} : t.route = none → Directs t span { t with route := some (span, path) }
  | imports {ns : Bytes} : ns.isQualifiedName = true →
    Directs t span { t with usings := t.usings ++ [{ ns, span }] }
  | inject {type name : Bytes} : type.isQualifiedName = true → name.isIdentifier = true →
    Directs t span { t with injections := t.injections ++ [{ type, name, span }] }
  | inherits {name : Bytes} : name.isQualifiedName = true → t.base = none →
    Directs t span { t with base := some { name, span } }
  | code : Directs t span t

theorem directs_of_directive {t t' : Template} {span : Span} {argument : Bytes} {k : DirectiveKeyword}
    (h : directive t span argument k = .ok t') : Directs t span t' := by
  cases k with
  | page =>
    simp only [directive] at h
    split at h
    · cases h
    · split at h
      · cases h
      · next hroute =>
        cases h
        exact .page (by simpa using hroute)
  | inherits =>
    simp only [directive] at h
    split at h
    · cases h
    · next hname =>
      split at h
      · cases h
      · next hbase =>
        cases h
        exact .inherits (by simpa using hname) (by simpa using hbase)
  | inject =>
    simp only [directive] at h
    split at h
    · next hnames =>
      cases h
      exact .inject hnames.1 hnames.2
    · cases h
  | imports =>
    dsimp only [directive] at h
    generalize (if argument.getLast? = some Ascii.semicolon then argument.dropLast else argument) = ns at h
    split at h
    · next hname =>
      cases h
      exact .imports hname
    · cases h
  | code =>
    cases h
    exact .code

/-- A directive leaves markup and reports as they are. -/
theorem nodes_directive {t t' : Template} {span : Span} {argument : Bytes} {k : DirectiveKeyword}
    (h : directive t span argument k = .ok t') : t'.nodes = t.nodes ∧ t'.errors = t.errors := by
  cases directs_of_directive h <;> exact ⟨rfl, rfl⟩

theorem Keeps.add (h : d.Keeps I) {p : Piece} (hp : p.Meets I) : (d.add p).Keeps I := by
  have hend := h.endText
  cases p with
  | text span t =>
    rw [Draft.add, addText]
    split
    · refine ⟨h.nodes, h.opened, ?_, h.outside⟩
      rintro _ ⟨⟩
      exact hp
    · next start before htext =>
      refine ⟨h.nodes, h.opened, ?_, h.outside⟩
      rintro _ ⟨⟩
      exact I.node_text (h.text (start, before) htext) hp
  | gap => exact hend
  | expr span code => exact hend.addNode hp
  | startTag span tag attributes opens => exact hend.startTag hp _
  | endTag span tag => exact hend.endTag span tag
  | directive span atLineStart k argument =>
    rw [Draft.add]
    split
    · split
      · next t ht =>
        have hnodes := hend.nodes
        rw [← (nodes_directive ht).1] at hnodes
        exact ⟨hnodes, hend.opened, hend.text, hp _ t hend.outside ht⟩
      · exact hend.report _
    · exact hend.reportPlace _ _ _
  | code span atLineStart block =>
    have hplace := hend.reportPlace span atLineStart .code
    cases block with
    | error e => exact hplace.report _
    | ok block =>
      dsimp only [Draft.add]
      split
      · exact ⟨hplace.nodes, hplace.opened, hplace.text, hp _ block hplace.outside rfl⟩
      · exact hplace

/-- What each piece of a text keeps holds when all are taken. -/
theorem Keeps.foldl_step (h : d.Keeps I) {ps : List (Piece × List TemplateReport)}
    (hps : ∀ p ∈ ps, p.1.Meets I) : (ps.foldl Draft.step d).Keeps I := by
  induction ps generalizing d with
  | nil => exact h
  | cons p ps ih =>
    rw [List.forall_mem_cons] at hps
    exact ih ((h.report p.2).add hps.1) hps.2

/-! ### Sound drafts -/

/-- All expressions that were taken can be parsed. -/
def soundness : MarkupInvariant where
  node := Node.Sound
  element := OpenElement.Sound
  outside _ := True
  node_text _ _ := .text
  node_of_element h := .element h.1 h.2
  element_push h hn := ⟨h.1, List.forall_mem_append.2 ⟨h.2, by simpa using hn⟩⟩

theorem meets_soundness {p : Piece} (h : p.Sound) : p.Meets soundness := by
  cases p with
  | text => exact .text
  | expr => exact .expr h
  | startTag => exact ⟨h, by simp⟩
  | directive | code => exact fun _ _ _ _ => trivial
  | endTag | gap => trivial

/-! ### Reports are kept -/

theorem errors_addNode (d : Draft) (n : Node) : (d.addNode n).template.errors = d.template.errors := by
  rw [addNode]
  split <;> rfl

theorem errors_endText (d : Draft) : d.endText.template.errors = d.template.errors := by
  rw [endText]
  split
  · rfl
  · rw [errors_addNode]

theorem errors_close (d : Draft) (n : Nat) : (d.close n).template.errors = d.template.errors := by
  induction n generalizing d with
  | zero => rfl
  | succ n ih =>
    rw [close]
    split
    · rfl
    · rw [ih, errors_addNode]

theorem errors_subset_report (d : Draft) (es : List TemplateReport) :
    d.template.errors ⊆ (d.report es).template.errors := List.subset_append_left _ _

theorem errors_subset_reportPlace (d : Draft) (span : Span) (atLineStart : Bool)
    (k : DirectiveKeyword) :
    d.template.errors ⊆ (d.reportPlace span atLineStart k).template.errors := by
  rw [reportPlace]
  split
  · exact List.Subset.refl _
  · exact errors_subset_report _ _

theorem errors_subset_add (d : Draft) (p : Piece) :
    d.template.errors ⊆ (d.add p).template.errors := by
  rw [← errors_endText]
  cases p with
  | text span t =>
    rw [errors_endText, add, addText]
    split <;> exact List.Subset.refl _
  | gap => exact List.Subset.refl _
  | expr span code =>
    rw [add, errors_addNode]
    exact List.Subset.refl _
  | startTag span tag attributes opens =>
    rw [add]
    split
    · exact List.Subset.refl _
    · rw [errors_addNode]
      exact List.Subset.refl _
  | endTag span tag =>
    rw [add, endTag]
    split
    · exact errors_subset_report _ _
    · rw [errors_close]
      exact errors_subset_report _ _
  | directive span atLineStart k argument =>
    rw [add]
    split
    · split
      · next t ht =>
        rw [← (nodes_directive ht).2]
        exact List.Subset.refl _
      · exact errors_subset_report _ _
    · exact errors_subset_reportPlace _ _ _ _
  | code span atLineStart block =>
    have hplace := errors_subset_reportPlace d.endText span atLineStart .code
    cases block with
    | error e => exact List.Subset.trans hplace (errors_subset_report _ _)
    | ok block =>
      dsimp only [add]
      split
      · exact hplace
      · exact hplace

/-! ### The whole text -/

/-- A draft in which an expression that cannot be parsed was reported. -/
def Checked (d : Draft) : Prop := d.Keeps soundness ∨ Faulty d.template.errors

theorem Checked.step (h : d.Checked) {p : Piece × List TemplateReport}
    (hp : p.1.Sound ∨ Faulty p.2) : (d.step p).Checked := by
  have hadd := errors_subset_add (d.report p.2) p.1
  rcases h with h | h
  · rcases hp with hp | hp
    · exact .inl ((h.report p.2).add (meets_soundness hp))
    · exact .inr ((hp.mono (List.subset_append_right _ _)).mono hadd)
  · exact .inr ((h.mono (errors_subset_report d p.2)).mono hadd)

theorem Checked.foldl_step (h : d.Checked) {ps : List (Piece × List TemplateReport)}
    (hps : ∀ p ∈ ps, p.1.Sound ∨ Faulty p.2) : (ps.foldl Draft.step d).Checked := by
  induction ps generalizing d with
  | nil => exact h
  | cons p ps ih =>
    rw [List.forall_mem_cons] at hps
    exact ih (h.step hps.1) hps.2

theorem Checked.finish (h : d.Checked) :
    (∀ n ∈ d.finish.nodes, n.Sound) ∨ Faulty d.finish.errors := by
  rcases h with h | h
  · exact .inl h.finish.1
  · refine .inr (h.mono ?_)
    rw [Draft.finish, errors_close, ← errors_endText]
    exact errors_subset_report _ _

end Draft

/-- In a template without errors all expressions can be parsed. -/
theorem Template.sound_parse {text : Bytes} (h : ¬ Faulty (Template.parse text).errors) :
    ∀ n ∈ (Template.parse text).nodes, n.Sound := by
  have hstart : Draft.Checked {} := .inl ⟨by simp, by simp, by simp, trivial⟩
  have hrun := hstart.foldl_step (Piece.sound_scanAll false { rest := text })
  exact hrun.finish.resolve_right h

end ViewCompiler
