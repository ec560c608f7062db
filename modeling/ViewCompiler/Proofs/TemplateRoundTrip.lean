import ViewCompiler.Proofs.TemplatePrinter

/-!
Printing and parsing markup. `Draft.Reads` says where a first part of a text brings a template that is
being built, whatever stands behind that part. A printed node adds itself to the innermost open element
and leaves the others as they are (`Draft.reads_node`), so printed markup is read back
(`Template.parse_print`).
-/

namespace ViewCompiler

namespace Draft

variable {d : Draft} {inWord : Bool}

/-! ## Drafts -/

theorem report_nil (d : Draft) : d.report [] = d := by simp [report]

theorem text_addNode (d : Draft) (n : Node) : (d.addNode n).text = d.text := by
  rw [addNode]
  split <;> rfl

theorem text_endText (d : Draft) : d.endText.text = none := by
  rw [endText]
  split
  · assumption
  · rw [text_addNode]

theorem endText_of_none (h : d.text = none) : d.endText = d := by rw [endText, h]

theorem endText_addNode (d : Draft) (n : Node) : (d.endText.addNode n).endText = d.endText.addNode n :=
  endText_of_none (by rw [text_addNode, text_endText])

/-- Nodes become children of the innermost open element. -/
theorem foldl_addNode {e : OpenElement} {es : List OpenElement} (h : d.opened = e :: es)
    (ns : List Node) :
    ns.foldl addNode d = { d with opened := { e with children := e.children ++ ns } :: es } := by
  induction ns generalizing d e with
  | nil => rw [List.append_nil, ← h, List.foldl_nil]
  | cons n ns ih =>
    have hadd : d.addNode n = { d with opened := e.push n :: es } := by rw [addNode, h]
    rw [List.foldl_cons, hadd, ih rfl]
    simp [OpenElement.push]

/-- Outside of elements, nodes become nodes of the template. -/
theorem foldl_addNode_top (h : d.opened = []) (ns : List Node) : ns.foldl addNode d =
    { d with template := { d.template with nodes := d.template.nodes ++ ns } } := by
  induction ns generalizing d with
  | nil => rw [List.append_nil, List.foldl_nil]
  | cons n ns ih =>
    have hadd : d.addNode n =
        { d with template := { d.template with nodes := d.template.nodes ++ [n] } } := by rw [addNode, h]
    have hopened : (d.addNode n).opened = [] := by rw [hadd]; exact h
    rw [List.foldl_cons, ih hopened, hadd]
    simp

/-- An end tag closes the innermost element if it has its name. -/
theorem endTag_of_opened {e : OpenElement} {es : List OpenElement} (h : d.opened = e :: es)
    (span : Span) :
    d.endTag span e.tag = ({ d with opened := es } : Draft).addNode e.node := by
  rw [endTag, h]
  simp [List.findIdx?_cons, report_nil, close, h]

/-! ## Reading a part of a text -/

/-- The draft at the end of a text. -/
def readAll (d : Draft) (inWord : Bool) (s : Source) : Draft := (Piece.scanAll inWord s).foldl step d

/-- In front of any text, reading `bs` gives a draft with the property. -/
def Reads (d : Draft) (inWord : Bool) (bs : Bytes) (P : Draft → Bool → Prop) : Prop :=
  ∀ (s : Source) (ys : Bytes), s.rest = bs ++ ys →
    ∃ d' w s', d.readAll inWord s = d'.readAll w s' ∧ s'.rest = ys ∧ P d' w

namespace Reads

variable {as bs : Bytes} {P Q : Draft → Bool → Prop}

theorem nil (h : P d inWord) : d.Reads inWord [] P := fun s _ hs => ⟨d, inWord, s, rfl, hs, h⟩

theorem trans (h : d.Reads inWord as P) (h' : ∀ d' w, P d' w → d'.Reads w bs Q) :
    d.Reads inWord (as ++ bs) Q := by
  intro s ys hs
  obtain ⟨d₁, w₁, s₁, hread, hs₁, hd₁⟩ := h s (bs ++ ys) (by rw [hs, List.append_assoc])
  obtain ⟨d₂, w₂, s₂, hread', hs₂, hd₂⟩ := h' d₁ w₁ hd₁ s₁ ys hs₁
  exact ⟨d₂, w₂, s₂, hread.trans hread', hs₂, hd₂⟩

theorem mono (h : d.Reads inWord bs P) (hPQ : ∀ d' w, P d' w → Q d' w) : d.Reads inWord bs Q := by
  intro s ys hs
  obtain ⟨d', w, s', hread, hs', hd'⟩ := h s ys hs
  exact ⟨d', w, s', hread, hs', hPQ d' w hd'⟩

/-- A text that is scanned as one piece. -/
theorem piece (hbs : bs ≠ []) (h : ∀ s ys, s.rest = bs ++ ys → ∃ p r,
      Piece.scan inWord s = { value := p, rest := r } ∧ r.rest = ys ∧ P (d.add p) p.endsInName) :
    d.Reads inWord bs P := by
  intro s ys hs
  obtain ⟨p, r, hscan, hr, hp⟩ := h s ys hs
  refine ⟨d.add p, p.endsInName, r, ?_, hr, hp⟩
  have hne : s.rest ≠ [] := by simp [hs, hbs]
  rw [readAll, Piece.scanAll, dif_neg hne, hscan, List.foldl_cons, step, report_nil]
  rfl

end Reads

/-! ## Nodes that are read back -/

/-- The draft may take the node next: no text goes on before text, and an expression is not in a word. -/
def Ready (d : Draft) (inWord : Bool) : Node → Prop
  | .text _ _ => d.text = none
  | .expr _ _ => inWord = false
  | .element .. => True

/-- The draft `d'` is `d` with a node like `n` in it, ready for what fits behind the node. -/
structure Took (d : Draft) (n : Node) (d' : Draft) (inWord : Bool) : Prop where
  node : ∃ n', n'.unplaced = n.unplaced ∧ d'.endText = d.endText.addNode n'
  ready : ∀ m, n.Fits m → d'.Ready inWord m

/-- The draft `d'` is `d` with nodes like `ns` in it. -/
def TookAll (d : Draft) (ns : List Node) (d' : Draft) : Prop :=
  ∃ ns', Node.allUnplaced ns' = Node.allUnplaced ns ∧ d'.endText = ns'.foldl addNode d.endText

/-- A node that no text goes on behind. -/
theorem took_addNode {n n' : Node} (h : n'.unplaced = n.unplaced) :
    d.Took n (d.endText.addNode n') false where
  node := ⟨n', h, endText_addNode d n'⟩
  ready m _ := by
    cases m with
    | text => exact (text_addNode _ _).trans (text_endText d)
    | expr => rfl
    | element => trivial

theorem reads_byte {b : UInt8} (hb : b ≠ Ascii.less) (d : Draft) (inWord : Bool) :
    d.Reads inWord (Node.printByte b) fun d' w =>
      (∃ span, d' = d.addText span [b]) ∧ w = Ascii.isNameByte b := by
  by_cases hat : b = Ascii.atSign
  · subst hat
    exact .piece (by decide) fun s ys hs =>
      ⟨_, _, Piece.scan_doubled inWord hs, by rw [Source.rest_drop, hs]; rfl, ⟨s.span, rfl⟩, rfl⟩
  · rw [Node.printByte, if_neg hat]
    exact .piece (by simp) fun s ys hs =>
      ⟨_, _, Piece.scan_byte hat hb inWord hs, by rw [Source.rest_drop, hs]; rfl, ⟨s.span, rfl⟩, rfl⟩

/-- Text behind text is added to it. -/
theorem reads_more {span : Span} {before t : Bytes} (ht : Ascii.less ∉ t)
    (hd : d.text = some (span, before))
    (hw : inWord = before.getLast?.any Ascii.isNameByte) :
    d.Reads inWord (t.flatMap Node.printByte) fun d' w =>
      d' = { d with text := some (span, before ++ t) } ∧
        w = (before ++ t).getLast?.any Ascii.isNameByte := by
  induction t generalizing d inWord before with
  | nil => exact .nil ⟨by rw [List.append_nil, ← hd], by rw [List.append_nil, hw]⟩
  | cons b t ih =>
    rw [List.mem_cons, not_or] at ht
    refine (reads_byte (Ne.symm ht.1) d inWord).trans ?_
    rintro _ w ⟨⟨span', rfl⟩, rfl⟩
    have hadd : d.addText span' [b] = { d with text := some (span, before ++ [b]) } := by rw [addText, hd]
    rw [hadd]
    refine (ih ht.2 rfl (by simp)).mono ?_
    rintro d' w ⟨rfl, rfl⟩
    simp

/-- Text that starts is what goes on. -/
theorem reads_start {t : Bytes} (hne : t ≠ []) (ht : Ascii.less ∉ t) (hd : d.text = none) :
    d.Reads inWord (t.flatMap Node.printByte) fun d' w =>
      ∃ span, d' = { d with text := some (span, t) } ∧ w = t.getLast?.any Ascii.isNameByte := by
  obtain ⟨b, t, rfl⟩ := List.exists_cons_of_ne_nil hne
  rw [List.mem_cons, not_or] at ht
  rw [List.flatMap_cons]
  refine (reads_byte (Ne.symm ht.1) d inWord).trans ?_
  rintro _ w ⟨⟨span, rfl⟩, rfl⟩
  have hadd : d.addText span [b] = { d with text := some (span, [b]) } := by rw [addText, hd]
  rw [hadd]
  refine (reads_more ht.2 rfl (by simp)).mono ?_
  rintro d' w ⟨rfl, rfl⟩
  exact ⟨span, rfl, rfl⟩

theorem reads_text {span : Span} {t : Bytes} (h : (Node.text span t).Printable) (hd : d.text = none) :
    d.Reads inWord (Node.text span t).print (d.Took (.text span t)) := by
  rw [Node.Printable] at h
  rw [Node.print]
  refine (reads_start h.1 h.2 hd).mono ?_
  rintro d' w ⟨start, rfl, rfl⟩
  refine ⟨⟨.text start t, rfl, ?_⟩, fun m hm => ?_⟩
  · rw [endText_of_none hd]
    change ({ d with text := none } : Draft).addNode _ = _
    rw [← hd]
  · cases m with
    | text => exact hm.elim
    | expr => exact hm
    | element => trivial

theorem reads_expr {span : Span} {code : Bytes} (h : (Node.expr span code).Printable) :
    d.Reads false (Node.expr span code).print (d.Took (.expr span code)) := by
  rw [Node.Printable] at h
  obtain ⟨inner, rfl, hcode⟩ := h
  rw [Node.print]
  refine .piece (by simp) fun s ys hs => ?_
  obtain ⟨r, hscan, hr⟩ := Piece.scan_expr hcode hs
  exact ⟨_, r, hscan, hr, took_addNode rfl⟩

/-- An element is read back if its children are. -/
theorem reads_element {span : Span} {tag : Bytes} {attributes : List Attribute} {children : List Node}
    (h : (Node.element span tag attributes children).Printable)
    (hchildren : ∀ d : Draft, d.text = none →
      d.Reads false (Node.printAll children) fun d' _ => d.TookAll children d') :
    d.Reads inWord (Node.element span tag attributes children).print
      (d.Took (.element span tag attributes children)) := by
  rw [Node.Printable] at h
  obtain ⟨hstart, htag, hattributes, hvoid, -⟩ := h
  rw [Node.print]
  by_cases hv : isVoidElement tag = true
  · rw [if_pos hv, List.append_nil, hvoid hv]
    refine .piece (by simp [Node.printStart]) fun s ys hs => ?_
    obtain ⟨read, r, hscan, hsame, hr⟩ := Piece.scan_startTag hstart htag hattributes inWord hs
    rw [hv] at hscan
    refine ⟨_, r, hscan, hr, took_addNode ?_⟩
    simp [OpenElement.node, Node.unplaced, hsame]
  · rw [if_neg hv]
    refine Reads.trans (P := fun d' w => w = false ∧ ∃ e : OpenElement, e.tag = tag ∧
      e.attributes.map Attribute.unplaced = attributes.map Attribute.unplaced ∧ e.children = [] ∧
        d' = { d.endText with opened := e :: d.endText.opened }) ?_ ?_
    · refine .piece (by simp [Node.printStart]) fun s ys hs => ?_
      obtain ⟨read, r, hscan, hsame, hr⟩ := Piece.scan_startTag hstart htag hattributes inWord hs
      rw [Bool.eq_false_iff.2 hv] at hscan
      exact ⟨_, r, hscan, hr, rfl, { span := s.span, tag, attributes := read }, rfl, hsame, rfl, rfl⟩
    rintro _ _ ⟨rfl, e, rfl, hsame, hnone, rfl⟩
    have htext : ({ d.endText with opened := e :: d.endText.opened } : Draft).text = none :=
      text_endText d
    refine (hchildren _ htext).trans ?_
    rintro d' w ⟨ns, hns, hd'⟩
    -- the children are in the element, which is still the innermost one
    rw [endText_of_none htext, foldl_addNode rfl, hnone, List.nil_append] at hd'
    refine .piece (by simp [Node.printEnd]) fun s ys hs => ?_
    obtain ⟨r, hscan, hr⟩ := Piece.scan_endTag hstart htag w hs
    refine ⟨_, r, hscan, hr, ?_⟩
    have hadd : d'.add (.endTag s.span e.tag) =
        d.endText.addNode (.element e.span e.tag e.attributes ns) := by
      rw [add, hd']
      exact endTag_of_opened
        (d := { d.endText with opened := { e with children := ns } :: d.endText.opened }) rfl s.span
    rw [hadd]
    exact took_addNode (by simp [Node.unplaced, hsame, hns])

mutual

/-- A printed node is read back, wherever it may stand. -/
theorem reads_node : ∀ (n : Node) (d : Draft) (inWord : Bool), n.Printable → d.Ready inWord n →
    d.Reads inWord n.print (d.Took n)
  | .text _ _, _, _, h, hd => reads_text h hd
  | .expr _ _, _, _, h, hd => hd ▸ reads_expr h
  | .element _ _ _ children, _, _, h, _ => reads_element h fun d hd => by
    rw [Node.Printable] at h
    exact reads_nodes children d false h.2.2.2.2 fun m _ => by
      cases m with
      | text => exact hd
      | expr => rfl
      | element => trivial

/-- Printed nodes are read back, one behind the other. -/
theorem reads_nodes : ∀ (ns : List Node) (d : Draft) (inWord : Bool), Node.AllPrintable ns →
    (∀ n ∈ ns.head?, d.Ready inWord n) →
    d.Reads inWord (Node.printAll ns) fun d' _ => d.TookAll ns d'
  | [], d, _, _, _ => .nil ⟨[], rfl, rfl⟩
  | n :: ns, d, inWord, h, hd => by
    rw [Node.AllPrintable] at h
    obtain ⟨hn, hfits, hns⟩ := h
    rw [Node.printAll]
    refine (reads_node n d inWord hn (hd n rfl)).trans ?_
    rintro d₁ w ⟨⟨n', hn', hd₁⟩, hready⟩
    refine (reads_nodes ns d₁ w hns fun m hm => hready m (hfits m hm)).mono ?_
    rintro d₂ _ ⟨ns', hns', hd₂⟩
    exact ⟨n' :: ns', by rw [Node.allUnplaced, Node.allUnplaced, hn', hns'],
      by rw [hd₂, hd₁, List.foldl_cons]⟩

end

end Draft

/-! ## Templates -/

namespace Template

/-- The template with no places in its markup. -/
def unplaced (t : Template) : Template := { t with nodes := Node.allUnplaced t.nodes }

/-- Printing and parsing: printed markup is read back up to places, with nothing else in the template,
and nothing is wrong with it. -/
theorem parse_print {ns : List Node} (h : Node.AllPrintable ns) :
    (parse (Node.printAll ns)).unplaced = { nodes := Node.allUnplaced ns } := by
  have hready : ∀ n ∈ ns.head?, Draft.Ready {} false n := by
    rintro (_ | _ | _) _ <;> first | rfl | trivial
  obtain ⟨d, w, s, hread, hs, ns', hns', hd⟩ :=
    Draft.reads_nodes ns {} false h hready { rest := Node.printAll ns } [] (List.append_nil _).symm
  have hend : d.readAll w s = d := by
    rw [Draft.readAll, Piece.scanAll, dif_pos hs]
    rfl
  have hdraft : d.endText = { template := { nodes := ns' } } := by
    rw [hd, Draft.endText_of_none rfl, Draft.foldl_addNode_top rfl]
    rfl
  have hparse : parse (Node.printAll ns) = { nodes := ns' } := by
    change (Draft.readAll {} false { rest := Node.printAll ns }).finish = _
    rw [hread, hend, Draft.finish, hdraft]
    rfl
  rw [hparse, unplaced, hns']

/-- A form with attributes of each kind, and text and an expression among its elements. -/
def form : List Node := [
  .element {} "form" [
    { name := "@onsubmit", value := some "save", span := {} },
    { name := "hidden", value := none, span := {} },
    { name := "title", value := some "say \"hi\"", span := {} }] [
      .text {} "me@home: ",
      .expr {} "(\"a)\\\"(\" + (n - 1))",
      .element {} "br" [] [],
      .element {} "Kit.Field" [{ name := "Value", value := some "@name", span := {} }] []],
  .text {} "(c)"]

theorem parse_print_form : Node.AllPrintable form ∧
    Node.printAll form = "<form @onsubmit=\"save\" hidden title='say \"hi\"'>me@@home: " ++
      "@(\"a)\\\"(\" + (n - 1))<br><Kit.Field Value=\"@name\"></Kit.Field></form>(c)" ∧
      (parse (Node.printAll form)).unplaced = { nodes := Node.allUnplaced form } :=
  ⟨by decide +kernel, by decide +kernel, parse_print (by decide +kernel)⟩

end Template

end ViewCompiler
