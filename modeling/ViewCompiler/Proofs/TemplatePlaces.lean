import ViewCompiler.Proofs.MarkupImage

/-!
The places of a template. Reading moves forward over the text, so no place is behind its last line
(`Template.placed_parse`). In a file whose lines can be numbered in 32 bits no place of the template
has the line number zero (`Item.Numbered.placed_parse`).
-/

namespace ViewCompiler

/-! ## Sources -/

namespace Position

/-- Moving over bytes passes as many lines as they have line feeds, or fewer if the number of the
line overflows. -/
theorem line_steps_le (p : Position) (bs : Bytes) :
    (p.steps bs).line.toNat ≤ p.line.toNat + bs.lineFeeds := by
  induction bs generalizing p with
  | nil => exact Nat.le_refl _
  | cons b bs ih =>
    have hsteps := ih (p.step b)
    have hstep : (p.step b).line.toNat ≤ p.line.toNat + (if b = Ascii.lf then 1 else 0) := by
      rw [step]
      split
      · exact Nat.mod_le _ _
      · exact Nat.le_refl _
    have hfeeds : Bytes.lineFeeds (b :: bs) = Bytes.lineFeeds bs + (if b = Ascii.lf then 1 else 0) := by
      simp [Bytes.lineFeeds, List.count_cons]
    change ((p.step b).steps bs).line.toNat ≤ _
    omega

end Position

namespace Source

/-- Nothing of the text that is left is behind line `m`. -/
def Within (m : Nat) (s : Source) : Prop := s.position.line.toNat + s.rest.lineFeeds ≤ m

variable {m : Nat} {s : Source}

theorem Within.drop (h : s.Within m) (n : Nat) : (s.drop n).Within m := by
  have hline := Position.line_steps_le s.position (s.rest.take n)
  have hfeeds : Bytes.lineFeeds (s.rest.take n) + Bytes.lineFeeds (s.rest.drop n) = s.rest.lineFeeds := by
    rw [Bytes.lineFeeds, Bytes.lineFeeds, ← List.count_append, List.take_append_drop]
    rfl
  have h : s.position.line.toNat + s.rest.lineFeeds ≤ m := h
  change (s.position.steps (s.rest.take n)).line.toNat + Bytes.lineFeeds (s.rest.drop n) ≤ m
  omega

theorem Within.dropWhile (h : s.Within m) (p : UInt8 → Bool) : (s.dropWhile p).Within m := h.drop _

theorem Within.finish (h : s.Within m) : s.finish.Within m := h.drop _

theorem Within.line_le (h : s.Within m) : s.span.line.toNat ≤ m :=
  Nat.le_trans (Nat.le_add_right _ _) h

end Source

/-! ## Pieces -/

/-- Places up to line `m`. -/
def UpTo (m : Nat) (s : Span) : Prop := s.line.toNat ≤ m

variable {m : Nat} {s : Source}

namespace Attribute

theorem within_scanValue (h : s.Within m) : (scanValue s).rest.Within m := by
  rw [scanValue]
  split
  · exact h
  split
  · dsimp only
    split
    · exact h.finish
    · exact h.drop _
  · dsimp only
    split
    · exact h
    · exact h.drop _

theorem span_check {span : Span} {name : Bytes} {value : Option Bytes} {rest : Source}
    {a : Attribute} (h : (check span name value rest).value = some a) : a.span = span := by
  rw [check] at h
  split at h
  · cases h
  split at h
  · cases h
    rfl
  · split at h
    · cases h
      rfl
    · cases h
      rfl

theorem within_scan (tag : Bytes) (h : s.Within m) :
    (scan tag s).rest.Within m ∧ ∀ a, (scan tag s).value = some a → UpTo m a.span := by
  have hname := (h.drop (s.rest.takeWhile Ascii.isAttributeByte).length).dropWhile Ascii.isSpace
  rw [scan]
  split
  · exact ⟨h, by simp⟩
  split
  · dsimp only
    split
    · split
      · refine ⟨?_, fun a ha => ?_⟩
        · rw [rest_check]
          exact within_scanValue ((hname.drop 1).dropWhile _)
        · rw [span_check ha]
          exact h.line_le
      · exact ⟨within_scanValue ((hname.drop 1).dropWhile _), by simp⟩
    · refine ⟨?_, fun a ha => ?_⟩
      · rw [rest_check]
        exact hname
      · rw [span_check ha]
        exact h.line_le
  · exact ⟨h, by simp⟩

end Attribute

namespace TagBody

theorem within_abandon {attributes : List Attribute} (h : s.Within m) :
    (abandon attributes s).rest.Within m := by
  rw [abandon]
  split
  · exact h.finish
  · exact h.drop _

theorem within_scan (span : Span) (tag : Bytes) {attributes : List Attribute} (h : s.Within m)
    (ha : ∀ a ∈ attributes, UpTo m a.span) :
    (∀ a ∈ (scan span tag attributes s).value.attributes, UpTo m a.span) ∧
      (scan span tag attributes s).rest.Within m := by
  have abandoned (attributes : List Attribute) (s : Source) :
      (abandon attributes s).value.attributes = attributes := by
    rw [abandon]
    split <;> rfl
  fun_induction scan span tag attributes s with
  | case1 attributes s s' => exact ⟨ha, h.dropWhile _⟩
  | case2 attributes s s' | case3 attributes s s' => exact ⟨ha, (h.dropWhile _).drop _⟩
  | case4 attributes s s' h₁ h₂ h₃ a hnone r =>
    obtain ⟨hrest, -⟩ := Attribute.within_scan tag (h.dropWhile Ascii.isSpace)
    exact ⟨by simpa [r, abandoned] using ha, within_abandon hrest⟩
  | case5 attributes s s' h₁ h₂ h₃ a next hnext r ih =>
    obtain ⟨hrest, hspan⟩ := Attribute.within_scan tag (h.dropWhile Ascii.isSpace)
    exact ih hrest (List.forall_mem_append.2 ⟨ha, by simpa using hspan next hnext⟩)

end TagBody

namespace Piece

/-- All places of the piece have the property `Q`. -/
def Placed (Q : Span → Prop) : Piece → Prop
  | text span _ | expr span _ | directive span _ _ _ => Q span
  | startTag span _ attributes _ => Q span ∧ ∀ a ∈ attributes, Q a.span
  | code _ _ block => ∀ b, block = .ok b → Q b.span
  | endTag _ _ | gap => True

/-- A piece up to line `m`, in front of text up to that line. -/
def Up (m : Nat) (r : Scanned Piece) : Prop := r.value.Placed (UpTo m) ∧ r.rest.Within m

theorem up_comment {close : Bytes} {span : Span} (h : s.Within m) : Up m (comment close span s) := by
  rw [comment]
  split
  · exact ⟨trivial, h.drop _⟩
  · exact ⟨trivial, h.finish⟩

theorem up_expression {span : Span} {code : Bytes} (hspan : UpTo m span) (h : s.Within m) :
    Up m (expression span code s) := by
  rw [expression]
  split
  · exact ⟨hspan, h⟩
  · exact ⟨trivial, h⟩

theorem up_transition {inWord : Bool} (h : s.Within m) : Up m (transition inWord s) := by
  rw [transition]
  dsimp only
  split
  · exact ⟨h.line_le, h.drop _⟩
  split
  · exact up_comment (h.drop _)
  split
  · exact ⟨h.line_le, h.drop _⟩
  split
  · rw [parenthesized]
    split
    · exact up_expression h.line_le ((h.drop _).drop _)
    · exact ⟨trivial, (h.drop _).finish⟩
  split
  · exact up_expression h.line_le (h.drop _)
  · exact ⟨h.line_le, h.drop _⟩

theorem within_codeBlock (h : s.Within m) :
    (∀ b, (codeBlock s).value = .ok b → UpTo m b.span) ∧ (codeBlock s).rest.Within m := by
  have hbody := (h.dropWhile Ascii.isSpace).drop 1
  rw [codeBlock]
  dsimp only
  split
  · split
    · refine ⟨?_, ?_⟩
      · rintro b ⟨⟩
        exact hbody.line_le
      · rw [leaveLine]
        split
        · exact (hbody.drop _).drop _
        · exact hbody.drop _
    · exact ⟨by simp, hbody.finish⟩
  · exact ⟨by simp, h.dropWhile _⟩

theorem up_ofDirective {k : DirectiveKeyword} (h : s.Within m) : Up m (ofDirective k s) := by
  rw [ofDirective]
  dsimp only
  split
  · exact within_codeBlock (h.drop _)
  · exact ⟨h.line_le, (h.drop _).drop _⟩

theorem up_scan {inWord : Bool} (h : s.Within m) : Up m (scan inWord s) := by
  rw [scan]
  split
  · split
    · exact up_ofDirective h
    · exact up_transition h
  split
  · exact up_comment (h.drop _)
  split
  · have hafter := (h.drop (((s.rest.drop 2).takeWhile Ascii.isTagByte).length + 2)).dropWhile Ascii.isSpace
    rw [ofEndTag]
    split
    · exact ⟨trivial, hafter.drop _⟩
    · exact ⟨trivial, hafter⟩
  split
  · obtain ⟨hattributes, hrest⟩ := TagBody.within_scan s.span
      (s.rest.tail.takeWhile Ascii.isTagByte) (h.drop ((s.rest.tail.takeWhile Ascii.isTagByte).length + 1))
      (List.forall_mem_nil _)
    exact ⟨⟨h.line_le, hattributes⟩, hrest⟩
  · exact ⟨h.line_le, h.drop _⟩

theorem placed_scanAll (inWord : Bool) (h : s.Within m) :
    ∀ p ∈ scanAll inWord s, p.1.Placed (UpTo m) := by
  fun_induction scanAll inWord s with
  | case1 => simp
  | case2 inWord s _ r ih => exact List.forall_mem_cons.2 ⟨(up_scan h).1, ih (up_scan h).2⟩

end Piece

/-! ## Templates -/

namespace Template

/-- All places of the template that are written have the property `Q`. -/
structure Placed (Q : Span → Prop) (t : Template) : Prop where
  nodes : ∀ n ∈ t.nodes, n.Placed Q
  route : ∀ r ∈ t.route, Q r.1
  injections : ∀ i ∈ t.injections, Q i.span
  base : ∀ b ∈ t.base, Q b.span
  code : ∀ b ∈ t.code, Q b.span

end Template

namespace Draft

variable {Q : Span → Prop} {d : Draft}

/-- All places that were taken have the property `Q`. -/
def placement (Q : Span → Prop) : MarkupInvariant where
  node := Node.Placed Q
  element e := Q e.span ∧ (∀ a ∈ e.attributes, Q a.span) ∧ ∀ n ∈ e.children, n.Placed Q
  outside := Template.Placed Q
  node_text h _ := by
    cases h with
    | text hspan => exact .text hspan
  node_of_element h := .element h.1 h.2.1 h.2.2
  element_push h hn := ⟨h.1, h.2.1, List.forall_mem_append.2 ⟨h.2.2, by simpa using hn⟩⟩

theorem placed_directive {t t' : Template} {span : Span} {argument : Bytes} {k : DirectiveKeyword}
    (hspan : Q span) (ht : t.outside.Placed Q) (h : directive t span argument k = .ok t') :
    t'.outside.Placed Q := by
  have hnodes : ∀ n ∈ t'.outside.nodes, n.Placed Q := by simp [Template.outside]
  cases directs_of_directive h with
  | page =>
    exact ⟨hnodes, by simpa [Template.outside] using hspan, ht.injections, ht.base, ht.code⟩
  | imports => exact ⟨hnodes, ht.route, ht.injections, ht.base, ht.code⟩
  | inject =>
    exact ⟨hnodes, ht.route, List.forall_mem_append.2 ⟨ht.injections, by simpa using hspan⟩, ht.base, ht.code⟩
  | inherits =>
    exact ⟨hnodes, ht.route, ht.injections, by simpa [Template.outside] using hspan, ht.code⟩
  | code => exact ht

theorem meets_placement {p : Piece} (h : p.Placed Q) : p.Meets (placement Q) := by
  cases p with
  | text => exact .text h
  | expr => exact .expr h
  | startTag => exact ⟨h.1, h.2, by simp⟩
  | directive => exact fun _ _ ht hdirective => placed_directive h ht hdirective
  | code =>
    intro t b ht hb
    exact ⟨ht.nodes, ht.route, ht.injections, ht.base,
      List.forall_mem_append.2 ⟨ht.code, by simpa using h b hb⟩⟩
  | endTag | gap => trivial

end Draft

/-- All places of a template are on the lines of its text. -/
theorem Template.placed_parse (text : Bytes) :
    (Template.parse text).Placed (UpTo (text.lineFeeds + 1)) := by
  have hstart : Draft.Keeps (Draft.placement (UpTo (text.lineFeeds + 1))) {} :=
    ⟨by simp, by simp, by simp, by simp [Template.outside], by simp [Template.outside],
      by simp [Template.outside], by simp [Template.outside], by simp [Template.outside]⟩
  have hsource : Source.Within (text.lineFeeds + 1) { rest := text } := Nat.le_of_eq (Nat.add_comm _ _)
  have hpieces := Piece.placed_scanAll false hsource
  obtain ⟨hnodes, hout⟩ := (hstart.foldl_step fun p hp => Draft.meets_placement (hpieces p hp)).finish
  exact ⟨hnodes, hout.route, hout.injections, hout.base, hout.code⟩

/-! ## Numbered lines -/

theorem Node.Placed.mono {Q R : Span → Prop} {n : Node} (h : n.Placed Q) (hQ : ∀ s, Q s → R s) :
    n.Placed R := by
  induction h with
  | text hs => exact .text (hQ _ hs)
  | expr hs => exact .expr (hQ _ hs)
  | element hs hattributes _ ih => exact .element (hQ _ hs) (fun a ha => hQ _ (hattributes a ha)) ih

theorem Template.Placed.mono {Q R : Span → Prop} {t : Template} (h : t.Placed Q)
    (hQ : ∀ s, Q s → R s) : t.Placed R where
  nodes n hn := (h.nodes n hn).mono hQ
  route r hr := hQ _ (h.route r hr)
  injections i hi := hQ _ (h.injections i hi)
  base b hb := hQ _ (h.base b hb)
  code b hb := hQ _ (h.code b hb)

namespace Item

/-- The lines of the file can be numbered in 32 bits. -/
def Numbered (i : Item) : Prop := (i.content.lineFeeds : Int) + 1 - i.lineOffset < 4294967296

instance (i : Item) : Decidable i.Numbered := inferInstanceAs (Decidable (_ < _))

theorem lineFeeds_withoutReturns (text : Bytes) : (withoutReturns text).lineFeeds = text.lineFeeds := by
  rw [withoutReturns, Bytes.lineFeeds, Bytes.lineFeeds, List.count_filter (by decide)]

theorem lineFeeds_takeWhile_add_dropWhile (p : UInt8 → Bool) (s : Bytes) :
    Bytes.lineFeeds (s.takeWhile p) + Bytes.lineFeeds (s.dropWhile p) = s.lineFeeds := by
  rw [Bytes.lineFeeds, Bytes.lineFeeds, ← List.count_append, List.takeWhile_append_dropWhile]
  rfl

/-- Preparing a file does not change the number of its lines. -/
theorem numbered_ofFile {file : SourceFile} {prologue workingDirectory : Bytes} :
    (ofFile file prologue workingDirectory).Numbered ↔ file.content.lineFeeds + 1 < 4294967296 := by
  let text := withoutReturns prologue ++ withoutReturns file.content
  have hblanks := lineFeeds_takeWhile_add_dropWhile Ascii.isSpace text
  have htext : text.lineFeeds = (withoutReturns prologue).lineFeeds + file.content.lineFeeds := by
    rw [← lineFeeds_withoutReturns file.content]
    exact List.count_append
  have hlines : (Bytes.lineFeeds (text.dropWhile Ascii.isSpace) : Int) + 1 -
      ((withoutReturns prologue).lineFeeds - Bytes.lineFeeds (text.takeWhile Ascii.isSpace)) =
        file.content.lineFeeds + 1 := by
    omega
  change (Bytes.lineFeeds (text.dropWhile Ascii.isSpace) : Int) + 1 -
    ((withoutReturns prologue).lineFeeds - Bytes.lineFeeds (text.takeWhile Ascii.isSpace))
      < 4294967296 ↔ _
  rw [hlines]
  omega

theorem Numbered.userLine_ne_zero {i : Item} (h : i.Numbered) {line : UInt32}
    (hline : line.toNat ≤ i.content.lineFeeds + 1) : i.userLine line ≠ 0 := by
  rw [Numbered] at h
  rw [userLine]
  split
  · decide
  · next hlow =>
    intro hzero
    have hmod := congrArg UInt32.toNat hzero
    rw [UInt32.toNat_ofNat_of_lt' (by rw [UInt32.size]; omega)] at hmod
    have hpos : 0 < ((line.toNat : Int) - i.lineOffset).toNat := by omega
    exact absurd hmod (Nat.ne_of_gt hpos)

/-- All places of the template have a line number. -/
theorem Numbered.placed_parse {i : Item} (h : i.Numbered) :
    (Template.parse i.content).Placed fun s => i.userLine s.line ≠ 0 :=
  (Template.placed_parse i.content).mono fun _ hs => h.userLine_ne_zero hs

end Item

end ViewCompiler
