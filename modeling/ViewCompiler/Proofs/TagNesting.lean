import ViewCompiler.Proofs.LookupReports
import ViewCompiler.Proofs.StartTags

/-!
How the tags of a template nest. While a template is built, what is open, what is around what, and what is
reported of it depends on the tags alone (`Draft.Shape`): each piece that is no tag leaves it as it is,
and each tag changes it as `Nesting.openAt` and `Nesting.passed` say (`Draft.Follows`). So every element
and every end tag is accounted for once, and the tree has an element inside of another exactly if its
tag comes while the other is open (`Template.nesting_accounted`).
-/

namespace ViewCompiler

/-! ## The tags of a template -/

namespace Nesting

/-- The element that the tag at a position stands for. -/
def elementAt (tags : List Tag) (i : Nat) : Option (Span × Bytes) := tags[i]?.bind Tag.element?

/-- What is reported of a tag without a partner. -/
def reportOf (tags : List Tag) (i : Nat) : Option TemplateReport := tags[i]?.bind Tag.report?

/-- The positions of the start tags among the first `k` tags. -/
def startsBefore (tags : List Tag) (k : Nat) : List Nat :=
  (List.range k).filter fun i => (elementAt tags i).isSome

/-- The positions of the start tags. -/
def starts (tags : List Tag) : List Nat := startsBefore tags tags.length

end Nesting

/-! ## Elements in the order of their tags -/

namespace Template

/-- The tags of a text, as they follow each other. Which of them open an element, `Piece.opening_iff`
says. -/
def tags (text : Bytes) : List Tag := (Piece.scanAll false { rest := text }).filterMap (·.1.tag?)

/-- An element with the numbers of the elements around it, innermost first. Elements are numbered in the
order of the text. -/
structure Entry where
  span : Span
  tag : Bytes
  around : List Nat
deriving DecidableEq, Repr, Inhabited

end Template

namespace Node

mutual

/-- The elements of a node that is inside of others; the first one has the number `n`. -/
def entries (around : List Nat) (n : Nat) : Node → List Template.Entry
  | text _ _ | expr _ _ => []
  | element span tag _ children => { span, tag, around } :: allEntries (n :: around) (n + 1) children

def allEntries (around : List Nat) (n : Nat) : List Node → List Template.Entry
  | [] => []
  | x :: xs => x.entries around n ++ allEntries around (n + (x.entries around n).length) xs

end

theorem allEntries_append (around : List Nat) (n : Nat) (xs ys : List Node) :
    allEntries around n (xs ++ ys) =
      allEntries around n xs ++ allEntries around (n + (allEntries around n xs).length) ys := by
  induction xs generalizing n with
  | nil => rfl
  | cons x xs ih =>
    rw [List.cons_append, allEntries, allEntries, ih, List.append_assoc, List.length_append, Nat.add_assoc]

end Node

namespace Template

/-- The elements of a template. -/
def entries (t : Template) : List Entry := Node.allEntries [] 0 t.nodes

/-- The element of number `b` is inside of the one of number `a`. -/
def Inside (t : Template) (b a : Nat) : Prop := ∃ e, t.entries[b]? = some e ∧ a ∈ e.around

end Template

/-! ## The shape of a draft -/

namespace OpenElement

def startTag (e : OpenElement) : Tag := .opening e.span e.tag

end OpenElement

namespace Draft

/-- The elements so far, and the numbers of those that are open, innermost first. -/
structure Spine where
  entries : List Template.Entry
  around : List Nat

/-- The elements of nodes behind which elements are open. -/
def spineOf (top : List Node) : List OpenElement → Spine
  | [] => { entries := Node.allEntries [] 0 top, around := [] }
  | e :: es =>
    let s := spineOf top es
    let around := s.entries.length :: s.around
    { entries := s.entries ++ { span := e.span, tag := e.tag, around := s.around } ::
        Node.allEntries around (s.entries.length + 1) e.children
      around }

def spine (d : Draft) : Spine := spineOf d.template.nodes d.opened

/-- What a draft has of tags: those that are open, the elements, and the reports of how they nest. -/
structure Shape where
  opened : List Tag
  spine : Spine
  reports : List TemplateReport

def shape (d : Draft) : Shape where
  opened := d.opened.map (·.startTag)
  spine := d.spine
  reports := d.template.errors.filter (·.2.isNesting)

namespace Shape

/-- A next element. -/
def next (s : Shape) (span : Span) (tag : Bytes) : Spine :=
  { s.spine with entries := s.spine.entries ++ [{ span, tag, around := s.spine.around }] }

/-- An element that is opened. -/
def opening (s : Shape) (span : Span) (tag : Bytes) : Shape :=
  { s with
    opened := .opening span tag :: s.opened
    spine := { s.next span tag with around := s.spine.entries.length :: s.spine.around } }

/-- The innermost elements are closed. -/
def drop (s : Shape) (n : Nat) : Shape :=
  { s with opened := s.opened.drop n, spine := { s.spine with around := s.spine.around.drop n } }

/-- Tags have no partners. -/
def report (s : Shape) (es : List TemplateReport) : Shape := { s with reports := s.reports ++ es }

end Shape

variable {d : Draft}

theorem spine_addNode (d : Draft) (n : Node) : (d.addNode n).spine =
    { d.spine with entries := d.spine.entries ++ n.entries d.spine.around d.spine.entries.length } := by
  rw [addNode]
  split
  · next hopen =>
    simp only [spine, hopen, spineOf, Node.allEntries_append]
    simp [Node.allEntries]
  · next e es hopen =>
    simp only [spine, hopen, spineOf, OpenElement.push, Node.allEntries_append]
    simp [Node.allEntries, Nat.add_assoc, Nat.add_comm 1]

theorem shape_addNode (d : Draft) (n : Node) : (d.addNode n).shape =
    { d.shape with
      spine := { d.spine with
        entries := d.spine.entries ++ n.entries d.spine.around d.spine.entries.length } } := by
  have hopened : (d.addNode n).opened.map (·.startTag) = d.opened.map (·.startTag) := by
    rw [addNode]
    split
    · rfl
    · next e es hopen => rw [hopen]; rfl
  rw [shape, spine_addNode, hopened, errors_addNode]
  rfl

theorem shape_addNode_of_nil {n : Node} (h : ∀ around k, n.entries around k = []) :
    (d.addNode n).shape = d.shape := by
  rw [shape_addNode, h, List.append_nil]
  rfl

theorem shape_endText (d : Draft) : d.endText.shape = d.shape := by
  rw [endText]
  split
  · rfl
  · rw [shape_addNode_of_nil fun _ _ => by rw [Node.entries]]
    rfl

theorem shape_report (d : Draft) (es : List TemplateReport) :
    (d.report es).shape = d.shape.report (es.filter (·.2.isNesting)) := by
  rw [shape, report, List.filter_append]
  rfl

theorem shape_report_of_local {es : List TemplateReport} (h : Local es) : (d.report es).shape = d.shape := by
  have hnone : es.filter (·.2.isNesting) = [] := by
    refine List.filter_eq_nil_iff.2 fun r hr => ?_
    have hlocal := h r hr
    rw [TemplateError.isLocal, Bool.and_eq_true, Bool.not_eq_true', Bool.not_eq_true'] at hlocal
    simp [hlocal.2]
  rw [shape_report, hnone, Shape.report, List.append_nil]

theorem shape_reportPlace (d : Draft) (span : Span) (atLineStart : Bool) (k : DirectiveKeyword) :
    (d.reportPlace span atLineStart k).shape = d.shape := by
  rw [reportPlace]
  split
  · rfl
  · exact shape_report_of_local (.singleton rfl)

/-- A piece that is no tag leaves the shape as it is. -/
theorem shape_add {p : Piece} (hp : p.tag? = none) (hlocal : p.IsLocal) : (d.add p).shape = d.shape := by
  cases p with
  | text span t =>
    rw [add, addText]
    split <;> rfl
  | gap => exact shape_endText d
  | expr span code =>
    rw [add, shape_addNode_of_nil fun _ _ => by rw [Node.entries], shape_endText]
  | startTag | endTag => cases hp
  | directive span atLineStart k argument =>
    rw [add, ← shape_endText d]
    split
    · split
      · next t ht =>
        obtain ⟨hnodes, herrors⟩ := nodes_directive ht
        simp only [shape, spine, hnodes, herrors]
      · next e he => exact shape_report_of_local (.singleton (isLocal_directive he))
    · exact shape_reportPlace _ _ _ _
  | code span atLineStart block =>
    have hplace := (shape_reportPlace d.endText span atLineStart .code).trans (shape_endText d)
    cases block with
    | error e => exact (shape_report_of_local (.singleton hlocal)).trans hplace
    | ok block =>
      dsimp only [add]
      split
      · exact hplace
      · exact hplace

theorem shape_opened (d : Draft) (span : Span) (tag : Bytes) (attributes : List Attribute) :
    ({ d with opened := { span, tag, attributes } :: d.opened } : Draft).shape =
      d.shape.opening span tag := by
  simp [shape, spine, spineOf, Node.allEntries, Shape.opening, Shape.next, OpenElement.startTag]

theorem shape_leaf (d : Draft) (span : Span) (tag : Bytes) (attributes : List Attribute) :
    (d.addNode (.element span tag attributes [])).shape = { d.shape with spine := d.shape.next span tag } := by
  rw [shape_addNode, Node.entries, Node.allEntries]
  rfl

theorem shape_close (d : Draft) (n : Nat) : (d.close n).shape = d.shape.drop n := by
  induction n generalizing d with
  | zero => rfl
  | succ n ih =>
    rw [close]
    split
    · next hopen => simp [shape, spine, hopen, spineOf, Shape.drop]
    · next e es hopen =>
      rw [ih, shape_addNode]
      simp [shape, spine, hopen, spineOf, Shape.drop, OpenElement.node, Node.entries]

end Draft

/-! ## What the shape of a draft is -/

namespace Nesting

variable {tags : List Tag} {i j k : Nat}

/-- The element is that of the tag at `i`, inside of the elements that are open there. -/
def IsAt (tags : List Tag) (e : Template.Entry) (i : Nat) : Prop :=
  elementAt tags i = some (e.span, e.tag) ∧
    e.around.map ((starts tags)[·]?) = (openAt tags i).map some

theorem startsBefore_succ (tags : List Tag) (k : Nat) : startsBefore tags (k + 1) =
    startsBefore tags k ++ if (elementAt tags k).isSome then [k] else [] := by
  rw [startsBefore, startsBefore, List.range_succ, List.filter_append, List.filter_singleton,
    cond_eq_ite]

theorem startsBefore_isPrefix (hk : k ≤ tags.length) : startsBefore tags k <+: starts tags := by
  obtain ⟨n, hn⟩ := Nat.exists_eq_add_of_le hk
  rw [starts, hn, startsBefore, startsBefore, List.range_add, List.filter_append]
  exact List.prefix_append _ _

/-- A start tag has the number of the start tags in front of it. -/
theorem getElem?_starts {element : Span × Bytes} (h : elementAt tags k = some element) :
    (starts tags)[(startsBefore tags k).length]? = some k := by
  have hlt : k < tags.length := lt_length (Option.isSome_of_eq_some h)
  have hprefix : startsBefore tags (k + 1) <+: starts tags := startsBefore_isPrefix hlt
  obtain ⟨ys, hys⟩ := hprefix
  rw [← hys, startsBefore_succ, h, List.append_assoc, List.getElem?_append_right (Nat.le_refl _),
    Nat.sub_self]
  rfl

/-- A tag without a partner can be reported. -/
theorem Unpaired.isSome_reportOf {p : Nat → Option Nat} (h : Unpaired tags p i) :
    (reportOf tags i).isSome := by
  have hreport {α : Type} {f : Tag → Option α} (hf : ∀ t, (f t).isSome → t.report?.isSome)
      (h : (tags[i]?.bind f).isSome) : (reportOf tags i).isSome := by
    rw [reportOf]
    cases ht : tags[i]? with
    | none => rw [ht] at h; cases h
    | some t => rw [ht] at h; exact hf t h
  rcases h with ⟨h, -⟩ | ⟨h, -⟩
  · exact hreport (fun t ht => by cases t <;> first | rfl | cases ht) h
  · exact hreport (fun t ht => by cases t <;> first | rfl | cases ht) h

/-- A start tag closes nothing. -/
theorem not_closed_of_element (h : (elementAt tags i).isSome) : ¬ (closedBy tags i).isSome = true := by
  rw [elementAt] at h
  rw [closedBy]
  cases ht : tags[i]? with
  | none => rw [ht] at h; cases h
  | some t =>
    rw [ht] at h
    cases t with
    | closing => cases h
    | opening | leaf => exact Bool.false_ne_true

theorem exists_getElem?_of_forall₂ {α β : Type} {R : α → β → Prop} {as : List α} {bs : List β}
    (h : List.Forall₂ R as bs) {n : Nat} {a : α} (ha : as[n]? = some a) :
    ∃ b, bs[n]? = some b ∧ R a b := by
  induction h generalizing n with
  | nil => cases ha
  | @cons a' b' _ _ hab _ ih =>
    cases n with
    | zero =>
      cases ha
      exact ⟨b', rfl, hab⟩
    | succ n => exact ih ha

/-- In a list that decreases, the first one with a property has the greater ones in front of it. -/
theorem find?_of_findIdx? {os : List Nat} (hos : os.Pairwise (· > ·)) {P : Nat → Bool} {n : Nat}
    (h : os.findIdx? P = some n) : ∃ i, os.find? P = some i ∧ os.take n = os.filter (i < ·) ∧
      os.drop (n + 1) = os.filter (· < i) := by
  induction hos generalizing n with
  | nil => cases h
  | @cons o os ho _ ih =>
    by_cases hP : P o = true
    · rw [List.findIdx?_cons, if_pos hP] at h
      cases h
      have hless : ∀ x ∈ os, x < o := ho
      have hnone : ∀ x ∈ o :: os, ¬ o < x :=
        List.forall_mem_cons.2 ⟨Nat.lt_irrefl o, fun x hx => Nat.lt_asymm (hless x hx)⟩
      refine ⟨o, List.find?_cons_of_pos hP, ?_, ?_⟩
      · exact (List.filter_eq_nil_iff.2 (by simpa using hnone)).symm
      · rw [List.filter_cons_of_neg (by simp)]
        exact (List.filter_eq_self.2 (by simpa using hless)).symm
    · rw [List.findIdx?_cons, if_neg hP, Option.map_eq_some_iff] at h
      obtain ⟨n, hn, rfl⟩ := h
      obtain ⟨i, hi, htake, hdrop⟩ := ih hn
      have hlt : i < o := ho i (List.mem_of_find?_eq_some hi)
      refine ⟨i, by rw [List.find?_cons_of_neg hP, hi], ?_, ?_⟩
      · rw [List.filter_cons_of_pos (by simpa using hlt), ← htake]
        rfl
      · rw [List.filter_cons_of_neg (by simpa using Nat.le_of_lt hlt), ← hdrop]
        rfl

end Nesting

namespace Draft

open Nesting

/-- The shape that the first `k` tags give. -/
structure Follows (s : Shape) (tags : List Tag) (k : Nat) : Prop where
  opened : s.opened.map some = (openAt tags k).map (tags[·]?)
  around : s.spine.around.map ((starts tags)[·]?) = (openAt tags k).map some
  entries : List.Forall₂ (IsAt tags) s.spine.entries (startsBefore tags k)
  reports : s.reports = ((List.range k).flatMap (passed tags)).filterMap (reportOf tags)

namespace Follows

variable {s : Shape} {tags : List Tag} {k : Nat} {span : Span} {tag : Bytes}

/-- The next element stands for the next tag. -/
theorem next (h : Follows s tags k) (ht : elementAt tags k = some (span, tag)) :
    List.Forall₂ (IsAt tags) (s.next span tag).entries (startsBefore tags (k + 1)) ∧
      (starts tags)[s.spine.entries.length]? = some k := by
  rw [startsBefore_succ, ht, h.entries.length_eq]
  exact ⟨List.rel_append h.entries (.cons ⟨ht, h.around⟩ .nil), getElem?_starts ht⟩

theorem flatMap_passed (hpassed : passed tags k = []) :
    (List.range (k + 1)).flatMap (passed tags) = (List.range k).flatMap (passed tags) := by
  rw [List.range_succ, List.flatMap_append, List.flatMap_singleton, hpassed, List.append_nil]

theorem opening (h : Follows s tags k) (ht : tags[k]? = some (.opening span tag)) :
    Follows (s.opening span tag) tags (k + 1) := by
  have helement : elementAt tags k = some (span, tag) := by rw [elementAt, ht]; rfl
  have hopened : (openedBy tags k).isSome := by rw [openedBy, ht]; rfl
  obtain ⟨hentries, hnumber⟩ := h.next helement
  constructor
  · rw [openAt_of_opened hopened, List.map_cons, ht, ← h.opened]
    rfl
  · rw [openAt_of_opened hopened, List.map_cons, ← h.around, ← hnumber]
    rfl
  · exact hentries
  · rw [flatMap_passed (passed_eq_nil (closedBy_of_opened hopened))]
    exact h.reports

theorem leaf (h : Follows s tags k) (ht : tags[k]? = some (.leaf span tag)) :
    Follows { s with spine := s.next span tag } tags (k + 1) := by
  have helement : elementAt tags k = some (span, tag) := by rw [elementAt, ht]; rfl
  have hopened : ¬ (openedBy tags k).isSome = true := by simp [openedBy, ht, Tag.opened?]
  have hclosed : closedBy tags k = none := by rw [closedBy, ht]; rfl
  have hnone : partner tags k = none := by rw [partner, closes, hclosed]; rfl
  constructor
  · rw [openAt_of_none hopened hnone]
    exact h.opened
  · rw [openAt_of_none hopened hnone]
    exact h.around
  · exact (h.next helement).1
  · rw [flatMap_passed (passed_eq_nil hclosed)]
    exact h.reports

/-- The names of the elements that are open. -/
theorem names {d : Draft} (h : Follows d.shape tags k) :
    d.opened.map (fun e => some e.tag) = (openAt tags k).map (openedBy tags) := by
  have hnames := congrArg (List.map fun t : Option Tag => t.bind Tag.opened?) h.opened
  simp only [shape, List.map_map] at hnames
  exact hnames

/-- The reports of the elements that are open. -/
theorem openReports {d : Draft} (h : Follows d.shape tags k) :
    d.opened.map (fun e => some e.report) = (openAt tags k).map (reportOf tags) := by
  have hreports := congrArg (List.map fun t : Option Tag => t.bind Tag.report?) h.opened
  simp only [shape, List.map_map] at hreports
  exact hreports

theorem eq_filterMap {α β : Type} {f : α → Option β} {as : List α} {bs : List β}
    (h : bs.map some = as.map f) : bs = as.filterMap f := by
  have hsome : (bs.map some).filterMap id = bs := by rw [List.filterMap_map]; exact List.filterMap_some
  have hmap : (as.map f).filterMap id = as.filterMap f := List.filterMap_map
  rw [← hsome, h, hmap]

theorem filter_reports (es : List OpenElement) :
    (es.map (·.report)).filter (·.2.isNesting) = es.map (·.report) :=
  List.filter_eq_self.2 fun r hr => by
    obtain ⟨e, -, rfl⟩ := List.mem_map.1 hr
    rfl

theorem reports_closing (h : Follows s tags k) {rs : List TemplateReport}
    (hrs : rs = (passed tags k).filterMap (reportOf tags)) : (s.report rs).reports =
      ((List.range (k + 1)).flatMap (passed tags)).filterMap (reportOf tags) := by
  rw [List.range_succ, List.flatMap_append, List.flatMap_singleton, List.filterMap_append, ← h.reports, hrs]
  rfl

theorem closing {d : Draft} (h : Follows d.shape tags k) (ht : tags[k]? = some (.closing span tag)) :
    Follows (d.endTag span tag).shape tags (k + 1) := by
  have hclosed : closedBy tags k = some tag := by rw [closedBy, ht]; rfl
  have hopened : ¬ (openedBy tags k).isSome = true := by simp [openedBy, ht, Tag.opened?]
  have hstarts : startsBefore tags (k + 1) = startsBefore tags k := by
    rw [startsBefore_succ, elementAt, ht]
    exact List.append_nil _
  have hpartner : partner tags k = (openAt tags k).find? fun i => openedBy tags i = some tag := by
    rw [partner, closes, hclosed]
    rfl
  have hindex : d.opened.findIdx? (·.tag = tag) =
      (openAt tags k).findIdx? fun i => openedBy tags i = some tag := by
    have hmap := congrArg (List.findIdx? (fun name : Option Bytes => name = some tag)) h.names
    rw [List.findIdx?_map, List.findIdx?_map] at hmap
    simpa [Function.comp_def] using hmap
  rw [endTag, hindex]
  cases hfind : (openAt tags k).findIdx? fun i => openedBy tags i = some tag with
  | none =>
    have hnone : partner tags k = none := by
      rw [hpartner, List.find?_eq_none]
      simpa using List.findIdx?_eq_none_iff.1 hfind
    dsimp only
    rw [shape_report]
    refine ⟨?_, ?_, ?_, h.reports_closing ?_⟩
    · rw [openAt_of_none hopened hnone]
      exact h.opened
    · rw [openAt_of_none hopened hnone]
      exact h.around
    · rw [hstarts]
      exact h.entries
    · rw [passed, hnone, hclosed]
      simp [reportOf, ht, Tag.report?, TemplateError.isNesting]
  | some n =>
    obtain ⟨i, hi, htake, hdrop⟩ := find?_of_findIdx? (pairwise_openAt tags k) hfind
    have hsome : partner tags k = some i := hpartner.trans hi
    dsimp only
    rw [shape_close, shape_report, filter_reports]
    refine ⟨?_, ?_, ?_, h.reports_closing ?_⟩
    · rw [openAt_of_partner hsome, ← hdrop, List.map_drop, ← h.opened, ← List.map_drop]
      rfl
    · rw [openAt_of_partner hsome, ← hdrop, List.map_drop, ← h.around, ← List.map_drop]
      rfl
    · rw [hstarts]
      exact h.entries
    · have htaken := congrArg (List.take n) h.openReports
      rw [← List.map_take, ← List.map_take, htake] at htaken
      rw [passed, hsome]
      exact eq_filterMap (by rw [List.map_map]; exact htaken)

/-- A piece that is no tag. -/
theorem quiet {d : Draft} (h : Follows d.shape tags k) {p : Piece} {es : List TemplateReport}
    (hp : p.tag? = none) (hpiece : p.IsLocal) (hes : Local es) :
    Follows (d.step (p, es)).shape tags k := by
  have hshape : (d.step (p, es)).shape = d.shape :=
    (shape_add hp hpiece).trans (shape_report_of_local hes)
  rwa [hshape]

/-- The next tag. -/
theorem step {d : Draft} (h : Follows d.shape tags k) {p : Piece} {es : List TemplateReport} {t : Tag}
    (hp : p.tag? = some t) (ht : tags[k]? = some t) (hes : Local es) :
    Follows (d.step (p, es)).shape tags (k + 1) := by
  have hend : Follows (d.report es).endText.shape tags k := by
    rw [shape_endText, shape_report_of_local hes]
    exact h
  cases p with
  | startTag span tag attributes opens =>
    cases opens with
    | true =>
      cases hp
      have hshape := shape_opened (d.report es).endText span tag attributes
      exact hshape ▸ hend.opening ht
    | false =>
      cases hp
      have hshape := shape_leaf (d.report es).endText span tag attributes
      exact hshape ▸ hend.leaf ht
  | endTag span tag =>
    cases hp
    exact hend.closing ht
  | _ => cases hp

/-- All tags. -/
theorem foldl {ps : List (Piece × List TemplateReport)} (hps : ∀ p ∈ ps, p.1.IsLocal ∧ Local p.2)
    {d : Draft} {done : List Tag} (htags : tags = done ++ ps.filterMap (·.1.tag?))
    (h : Follows d.shape tags done.length) : Follows (ps.foldl Draft.step d).shape tags tags.length := by
  induction ps generalizing d done with
  | nil =>
    have hdone : tags = done := htags.trans (List.append_nil done)
    rw [hdone] at h ⊢
    exact h
  | cons p ps ih =>
    obtain ⟨⟨hpiece, hes⟩, hps⟩ := List.forall_mem_cons.1 hps
    cases hp : p.1.tag? with
    | none =>
      refine ih hps ?_ (h.quiet hp hpiece hes)
      rw [htags, List.filterMap_cons_none (f := fun p : Piece × _ => p.1.tag?) hp]
    | some t =>
      rw [List.filterMap_cons_some (f := fun p : Piece × _ => p.1.tag?) hp] at htags
      have ht : tags[done.length]? = some t := by rw [htags]; simp
      have hnext : Follows (d.step p).shape tags (done ++ [t]).length := by
        rw [List.length_append]
        exact h.step hp ht hes
      exact ih hps (by rw [htags]; simp) hnext

end Follows

/-! ## The end of a template -/

theorem entries_of_opened {d : Draft} (h : d.opened = []) : d.template.entries = d.spine.entries := by
  rw [spine, h]
  rfl

theorem entries_finish (d : Draft) : d.finish.entries = d.spine.entries := by
  have hclose := shape_close (d.endText.report (d.endText.opened.reverse.map (·.report)))
    d.endText.opened.length
  have hopened : ((d.endText.report (d.endText.opened.reverse.map (·.report))).close
      d.endText.opened.length).opened = [] := by
    have h := congrArg Shape.opened hclose
    refine List.map_eq_nil_iff.1 (h.trans (List.drop_eq_nil_of_le ?_))
    exact Nat.le_of_eq (List.length_map _)
  have hspine := congrArg (fun s => s.spine.entries) (shape_endText d)
  rw [finish, entries_of_opened hopened]
  exact (congrArg (fun s => s.spine.entries) hclose).trans hspine

theorem reports_finish (d : Draft) : d.finish.errors.filter (·.2.isNesting) =
    d.endText.shape.reports ++ (d.endText.opened.map (·.report)).reverse := by
  rw [finish, errors_close, report, List.filter_append, Follows.filter_reports, List.map_reverse]
  rfl

end Draft

namespace Template

open Nesting

theorem follows (text : Bytes) :
    Draft.Follows ((Piece.scanAll false { rest := text }).foldl Draft.step {}).shape (tags text)
      (tags text).length := by
  have hstart : Draft.Follows ({} : Draft).shape (tags text) ([] : List Tag).length :=
    ⟨rfl, rfl, .nil, rfl⟩
  exact hstart.foldl (Piece.reads_scanAll false { rest := text }) rfl

theorem reports_parse (text : Bytes) : (parse text).errors.filter (·.2.isNesting) =
    (reported (tags text)).filterMap (reportOf (tags text)) := by
  have h := follows text
  rw [← Draft.shape_endText] at h
  have hopen := Draft.Follows.eq_filterMap ((List.map_map ..).trans h.openReports)
  rw [parse, Draft.reports_finish, reported, List.filterMap_append, h.reports, List.filterMap_reverse, hopen]

theorem entries_parse (text : Bytes) :
    List.Forall₂ (IsAt (tags text)) (parse text).entries (starts (tags text)) := by
  rw [parse, Draft.entries_finish]
  exact (follows text).entries

/-- The reports of how tags nest are those of the tags without a partner. -/
theorem map_reports_parse (text : Bytes) : ((parse text).errors.filter (·.2.isNesting)).map some =
    (reported (tags text)).map (reportOf (tags text)) := by
  rw [reports_parse, List.map_filterMap_some_eq_filter_map_isSome]
  refine List.filter_eq_self.2 fun r hr => ?_
  obtain ⟨i, hi, rfl⟩ := List.mem_map.1 hr
  exact (mem_reported.1 hi).isSome_reportOf

theorem elements_parse (text : Bytes) : (parse text).entries.map (fun e => some (e.span, e.tag)) =
    (starts (tags text)).map (elementAt (tags text)) := by
  have h := entries_parse text
  generalize (parse text).entries = es at h
  generalize starts (tags text) = is at h
  induction h with
  | nil => rfl
  | cons he _ ih => rw [List.map_cons, List.map_cons, ih, he.1]

/-- An element is inside of those that are open where its tag is. -/
theorem inside_iff (text : Bytes) (a b : Nat) : (parse text).Inside b a ↔
    ∃ i k, (starts (tags text))[a]? = some i ∧ (starts (tags text))[b]? = some k ∧
      IsOpen (tags text) (partner (tags text)) i k := by
  have hentries := entries_parse text
  constructor
  · rintro ⟨e, he, ha⟩
    obtain ⟨k, hk, hat⟩ := exists_getElem?_of_forall₂ hentries he
    have hmem : (starts (tags text))[a]? ∈ (openAt (tags text) k).map some :=
      hat.2 ▸ List.mem_map_of_mem ha
    obtain ⟨i, hi, heq⟩ := List.mem_map.1 hmem
    exact ⟨i, k, heq.symm, hk, mem_openAt.1 hi⟩
  · rintro ⟨i, k, hi, hk, hopen⟩
    obtain ⟨e, he, hat⟩ := exists_getElem?_of_forall₂ hentries.flip hk
    have hmem : some i ∈ e.around.map ((starts (tags text))[·]?) :=
      hat.2 ▸ List.mem_map_of_mem (mem_openAt.2 hopen)
    obtain ⟨a', ha', heq⟩ := List.mem_map.1 hmem
    have hlt : a' < (starts (tags text)).length := (List.getElem?_eq_some_iff.1 heq).1
    obtain rfl : a' = a :=
      (List.getElem?_inj hlt (List.nodup_range.filter _)).1 (heq.trans hi.symm)
    exact ⟨e, he, ha'⟩

/-- The tags of a text are accounted for in the template. -/
structure Accounted (t : Template) (tags : List Tag) (partner : Nat → Option Nat) : Prop where
  /-- An end tag belongs to the innermost open element of its name, if there is one. -/
  pairing : Pairing tags partner
  /-- An element has one end tag at most. -/
  injective : ∀ i j k, partner j = some i → partner k = some i → j = k
  /-- What was opened inside of an element that is closed is not open any more, and has no end tag. -/
  passed : ∀ i j k, partner j = some i → IsOpen tags partner k j → i < k →
    Unpaired tags partner k ∧ ¬ IsOpen tags partner k (j + 1)
  /-- An element without end tag, or an end tag without element, is reported once. -/
  reports : ∃ is : List Nat, is.Nodup ∧ (∀ i, i ∈ is ↔ Unpaired tags partner i) ∧
    (t.errors.filter (·.2.isNesting)).map some = is.map (reportOf tags)
  /-- The elements are those of the start tags, in their order. -/
  elements : t.entries.map (fun e => some (e.span, e.tag)) = (starts tags).map (elementAt tags)
  /-- An element is inside of those that are open where its tag is. -/
  inside : ∀ a b, t.Inside b a ↔
    ∃ i k, (starts tags)[a]? = some i ∧ (starts tags)[b]? = some k ∧ IsOpen tags partner i k
  /-- Nothing is reported if the tags are nested like brackets. -/
  wellNested : t.errors.filter (·.2.isNesting) = [] ↔ WellNested (tags.filterMap Tag.mark?)
  /-- Then an element is inside of another if its tag is between the two tags of that one. -/
  between : WellNested (tags.filterMap Tag.mark?) → ∀ a b, t.Inside b a ↔
    ∃ i k j, (starts tags)[a]? = some i ∧ (starts tags)[b]? = some k ∧ partner j = some i ∧ i < k ∧ k < j

/-- In any text, each element and each end tag is accounted for. -/
theorem nesting_accounted (text : Bytes) : (parse text).Accounted (tags text) (partner (tags text)) where
  pairing := pairing_partner _
  injective _ _ _ := partner_injective
  passed i j k hj hk hik := by
    have hmem : k ∈ Nesting.passed (tags text) j := mem_passed.2 (.inr ⟨hk, i, hj, hik⟩)
    exact ⟨unpaired_of_mem_passed hmem, not_isOpen_of_mem_passed hmem (Nat.lt_succ_self j)⟩
  reports := ⟨reported (tags text), nodup_reported _, fun _ => mem_reported, map_reports_parse text⟩
  elements := elements_parse text
  inside := inside_iff text
  wellNested := by
    rw [← reported_eq_nil_iff, ← List.map_eq_nil_iff (f := some), map_reports_parse, List.map_eq_nil_iff]
  between hnested a b := by
    rw [inside_iff]
    refine exists_congr fun i => exists_congr fun k => ?_
    simp only [exists_and_left]
    refine and_congr_right fun _ => and_congr_right fun hk => ?_
    have hstart := (List.mem_filter.1 (List.mem_of_getElem? hk)).2
    have hpaired (hopened : (openedBy (tags text) i).isSome) : ∃ j, partner (tags text) j = some i := by
      by_contra hnone
      have hmem := mem_reported.2 (.inr ⟨hopened, not_exists.1 hnone⟩)
      rw [reported_eq_nil_iff.2 hnested] at hmem
      cases hmem
    have hne {j : Nat} (hj : partner (tags text) j = some i) : k ≠ j := by
      rintro rfl
      exact not_closed_of_element hstart (closed_of_partner hj)
    constructor
    · intro hopen
      obtain ⟨j, hj, hik, hkj⟩ := (isOpen_iff_between (hpaired hopen.opened)).1 hopen
      exact ⟨j, hj, hik, Nat.lt_of_le_of_ne hkj (hne hj)⟩
    · rintro ⟨j, hj, hik, hkj⟩
      exact (isOpen_of_partner hj).mono hik (Nat.le_of_lt hkj)

end Template

end ViewCompiler
