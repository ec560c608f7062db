import Mathlib.Data.List.TakeWhile
import ViewCompiler.Proofs.NestedTags

/-!
Start tags. A start tag ends with `>`, with `/>` or not at all (`TagBody.Ends`), and it opens its element
exactly if it ends with `>` and the element may have content (`Piece.opening_iff`).
-/

namespace ViewCompiler

/-! ## The ends of start tags -/

/-- How a start tag ends: with `>`, with `/>`, or not at all. -/
inductive TagEnd where
  | greater | slashGreater | missing
deriving DecidableEq, Repr, Inhabited

/-- An attribute starts with a byte of its name. -/
theorem Attribute.exists_start {tag : Bytes} {s : Source} {a : Attribute}
    (h : (scan tag s).value = some a) : ∃ b bs, s.rest = b :: bs ∧ Ascii.isAttributeStart b = true := by
  rw [scan] at h
  split at h
  · cases h
  · next b bs hs =>
    split at h
    · next hb => exact ⟨b, bs, hs, hb⟩
    · cases h

namespace TagBody

/-- Neither the end of a tag nor an attribute. -/
structure Malformed (tag : Bytes) (s : Source) : Prop where
  nonempty : s.rest ≠ []
  notClosed : ¬ s.rest.startsWith "/>"
  notGreater : s.rest.head? ≠ some Ascii.greater
  unread : (Attribute.scan tag s).value = none

/-- The start tag of that name ends so behind its name. An attribute that cannot be read is skipped with
all up to the next `>`, and then the byte in front of that says how the tag ends. -/
inductive Ends (tag : Bytes) : Source → TagEnd → Prop
  | missing {s : Source} (h : (s.dropWhile Ascii.isSpace).rest = []) : Ends tag s .missing
  | closed {s : Source} (h : (s.dropWhile Ascii.isSpace).rest.startsWith "/>") :
    Ends tag s .slashGreater
  | greater {s : Source} (h : (s.dropWhile Ascii.isSpace).rest.head? = some Ascii.greater) :
    Ends tag s .greater
  | next {s : Source} {a : Attribute} {e : TagEnd}
    (ha : (Attribute.scan tag (s.dropWhile Ascii.isSpace)).value = some a)
    (ends : Ends tag (Attribute.scan tag (s.dropWhile Ascii.isSpace)).rest e) : Ends tag s e
  | lost {s : Source} (h : Malformed tag (s.dropWhile Ascii.isSpace))
    (hlost : Ascii.greater ∉ (Attribute.scan tag (s.dropWhile Ascii.isSpace)).rest.rest) :
    Ends tag s .missing
  | skipped {s : Source} {front ys : Bytes} (h : Malformed tag (s.dropWhile Ascii.isSpace))
    (hrest : (Attribute.scan tag (s.dropWhile Ascii.isSpace)).rest.rest =
      front ++ Ascii.greater :: ys) (hfront : Ascii.greater ∉ front) :
    Ends tag s (if front.getLast? = some Ascii.slash then .slashGreater else .greater)

theorem opens_abandon_of_not_mem (attributes : List Attribute) {s : Source}
    (h : Ascii.greater ∉ s.rest) : (abandon attributes s).value.opens = false := by
  have hall : s.rest.takeWhile (· ≠ Ascii.greater) = s.rest :=
    List.takeWhile_eq_self_iff.2 fun b hb => decide_eq_true (ne_of_mem_of_not_mem hb h)
  rw [abandon, hall, if_pos rfl]

theorem opens_abandon (attributes : List Attribute) {s : Source} {front ys : Bytes}
    (hrest : s.rest = front ++ Ascii.greater :: ys) (hfront : Ascii.greater ∉ front) :
    (abandon attributes s).value.opens = decide (front.getLast? ≠ some Ascii.slash) := by
  have htake : s.rest.takeWhile (· ≠ Ascii.greater) = front := by
    rw [hrest, List.takeWhile_append_of_pos fun b hb => decide_eq_true (ne_of_mem_of_not_mem hb hfront),
      List.takeWhile_cons_of_neg (by simp), List.append_nil]
  have hlength : front.length ≠ s.rest.length := by simp [hrest]
  rw [abandon, htake, if_neg hlength]

/-- Behind the attributes, what follows decides. -/
theorem scan_of_malformed {span : Span} {tag : Bytes} {attributes : List Attribute} {s : Source}
    (h : Malformed tag (s.dropWhile Ascii.isSpace)) : (scan span tag attributes s).value =
      (abandon attributes (Attribute.scan tag (s.dropWhile Ascii.isSpace)).rest).value := by
  rw [scan]
  dsimp only
  rw [if_neg h.nonempty, if_neg h.notClosed, if_neg h.notGreater]
  split
  · rfl
  · next hsome => rw [h.unread] at hsome; cases hsome

/-- An attribute that is read belongs to the tag. -/
theorem scan_of_attribute {span : Span} {tag : Bytes} {attributes : List Attribute} {s : Source}
    {a : Attribute} (h : (Attribute.scan tag (s.dropWhile Ascii.isSpace)).value = some a) :
    (scan span tag attributes s).value = (scan span tag (attributes ++ [a])
      (Attribute.scan tag (s.dropWhile Ascii.isSpace)).rest).value := by
  obtain ⟨b, bs, hs, hb⟩ := Attribute.exists_start h
  rw [scan]
  dsimp only
  rw [hs, if_neg (List.cons_ne_nil b bs)]
  split
  · next hclosed =>
    obtain rfl : Ascii.slash = b := (List.cons_prefix_cons.1 (List.isPrefixOf_iff_prefix.1 hclosed)).1
    cases hb
  rw [if_neg (by rintro ⟨⟩; cases hb)]
  split
  · next hnone => rw [h] at hnone; cases hnone
  · next next hnext =>
    cases hnext.symm.trans h
    rfl

/-- A tag opens its element if it ends with `>`. -/
theorem Ends.opens_scan {tag : Bytes} {s : Source} {e : TagEnd} (h : Ends tag s e) (span : Span)
    (attributes : List Attribute) :
    (scan span tag attributes s).value.opens = true ↔ e = .greater := by
  induction h generalizing attributes with
  | missing h => rw [scan, if_pos h]; simp
  | @closed s h =>
    have hne : (s.dropWhile Ascii.isSpace).rest ≠ [] := by
      intro hnil
      rw [hnil] at h
      cases h
    rw [scan, if_neg hne, if_pos h]
    simp
  | @greater s h =>
    obtain ⟨ys, hys⟩ := List.head?_eq_some_iff.1 h
    have hclosed : ¬ (s.dropWhile Ascii.isSpace).rest.startsWith "/>" = true := by
      rw [hys]
      exact Bool.false_ne_true
    rw [scan, if_neg (by rw [hys]; exact List.cons_ne_nil _ _), if_neg hclosed, if_pos h]
    simp
  | next ha _ ih => rw [scan_of_attribute ha]; exact ih _
  | lost h hlost => rw [scan_of_malformed h, opens_abandon_of_not_mem _ hlost]; simp
  | skipped h hrest hfront =>
    rw [scan_of_malformed h, opens_abandon _ hrest hfront, decide_eq_true_iff]
    split <;> simp [*]

theorem exists_ends (tag : Bytes) (s : Source) : ∃ e, Ends tag s e := by
  fun_induction scan {} tag [] s with
  | case1 attributes s s' h => exact ⟨_, .missing h⟩
  | case2 attributes s s' _ h => exact ⟨_, .closed h⟩
  | case3 attributes s s' _ _ h => exact ⟨_, .greater h⟩
  | case4 attributes s s' h₁ h₂ h₃ a hnone r =>
    have hmalformed : Malformed tag s' := ⟨h₁, h₂, h₃, hnone⟩
    by_cases hmem : Ascii.greater ∈ a.rest.rest
    · obtain ⟨front, ys, hrest, hfront⟩ := List.eq_append_cons_of_mem hmem
      exact ⟨_, .skipped hmalformed hrest hfront⟩
    · exact ⟨_, .lost hmalformed hmem⟩
  | case5 attributes s s' h₁ h₂ h₃ a next hnext r ih =>
    obtain ⟨e, he⟩ := ih
    exact ⟨e, .next hnext he⟩

/-- The tag opens its element exactly if it ends with `>`. -/
theorem opens_scan (span : Span) (tag : Bytes) (attributes : List Attribute) (s : Source) :
    (scan span tag attributes s).value.opens = true ↔ Ends tag s .greater := by
  obtain ⟨e, he⟩ := exists_ends tag s
  constructor
  · intro h
    exact (he.opens_scan span attributes).1 h ▸ he
  · intro h
    exact (h.opens_scan span attributes).2 rfl
end TagBody

/-! ## Start tags among the pieces -/

namespace Piece

/-- The tag that a piece is. -/
def tag? : Piece → Option Tag
  | startTag span tag _ opens => some (if opens then .opening span tag else .leaf span tag)
  | endTag span tag => some (.closing span tag)
  | _ => none

/-- A start tag begins here: a letter stands behind `<`. -/
def StartsTag (s : Source) : Prop := ∃ b ys, s.rest = Ascii.less :: b :: ys ∧ Ascii.isLetter b = true

/-- A letter behind `<` makes a start tag. -/
theorem scan_less {s : Source} {b : UInt8} {ys : Bytes} (hb : Ascii.isLetter b = true) (inWord : Bool)
    (hs : s.rest = Ascii.less :: b :: ys) : scan inWord s = ofStartTag s := by
  have hcomment : ¬ Bytes.startsWith (Ascii.less :: b :: ys) "<!--" = true := by
    intro h
    have hprefix := (List.cons_prefix_cons.1 (List.isPrefixOf_iff_prefix.1 h)).2
    obtain rfl : Ascii.bang = b := (List.cons_prefix_cons.1 hprefix).1
    cases hb
  have hslash : ¬ some b = some Ascii.slash := by
    rintro ⟨⟩
    cases hb
  rw [scan, hs]
  simp only [List.head?_cons, List.tail_cons]
  rw [if_neg (by decide), if_neg hcomment, if_neg fun h => hslash h.2.1, if_pos ⟨trivial, hb⟩]

theorem tag?_comment (close : Bytes) (span : Span) (s : Source) :
    (comment close span s).value.tag? = none := by
  rw [comment]
  split <;> rfl

theorem tag?_expression (span : Span) (code : Bytes) (rest : Source) :
    (expression span code rest).value.tag? = none := by
  rw [expression]
  split <;> rfl

theorem tag?_transition (inWord : Bool) (s : Source) : (transition inWord s).value.tag? = none := by
  rw [transition]
  dsimp only
  split
  · rfl
  split
  · exact tag?_comment _ _ _
  split
  · rfl
  split
  · rw [parenthesized]
    split
    · exact tag?_expression _ _ _
    · rfl
  split
  · exact tag?_expression _ _ _
  · rfl

theorem tag?_ofDirective (k : DirectiveKeyword) (s : Source) : (ofDirective k s).value.tag? = none := by
  rw [ofDirective]
  dsimp only
  split <;> rfl

/-- No other piece starts an element. -/
theorem startsTag_of_element {inWord : Bool} {s : Source} {t : Tag}
    (ht : (scan inWord s).value.tag? = some t) (h : t.element?.isSome) : StartsTag s := by
  rw [scan] at ht
  split at ht
  · split at ht
    · rw [tag?_ofDirective] at ht
      cases ht
    · rw [tag?_transition] at ht
      cases ht
  split at ht
  · rw [tag?_comment] at ht
    cases ht
  split at ht
  · rw [ofEndTag] at ht
    split at ht
    all_goals
      cases ht
      cases h
  split at ht
  · next hstarts =>
    obtain ⟨bs, hs⟩ := List.head?_eq_some_iff.1 hstarts.1
    rw [hs, List.tail_cons] at hstarts
    obtain ⟨b, hnext, hletter⟩ := (Option.any_eq_true _ _).1 hstarts.2
    obtain ⟨ys, rfl⟩ := List.head?_eq_some_iff.1 hnext
    exact ⟨b, ys, hs, hletter⟩
  · cases ht

/-- What is read at a place opens an element exactly if a start tag begins there that ends with `>`, and
the element is not one of those that are always empty. -/
theorem opening_iff {inWord : Bool} {s : Source} {span : Span} {tag : Bytes} :
    (scan inWord s).value.tag? = some (.opening span tag) ↔
      StartsTag s ∧ span = s.span ∧ tag = s.rest.tail.takeWhile Ascii.isTagByte ∧
        TagBody.Ends tag (s.drop (tag.length + 1)) .greater ∧ isVoidElement tag = false := by
  have hstart (h : StartsTag s) : (scan inWord s).value.tag? = (ofStartTag s).value.tag? := by
    obtain ⟨b, ys, hs, hb⟩ := h
    rw [scan_less hb inWord hs]
  constructor
  · intro h
    have hstarts := startsTag_of_element h rfl
    rw [hstart hstarts, ofStartTag, tag?] at h
    split at h
    · next hopens =>
      cases h
      obtain ⟨hends, hvoid⟩ := Bool.and_eq_true_iff.1 hopens
      exact ⟨hstarts, rfl, rfl, (TagBody.opens_scan _ _ _ _).1 hends, by simpa using hvoid⟩
    · cases h
  · rintro ⟨hstarts, rfl, rfl, hends, hvoid⟩
    rw [hstart hstarts, ofStartTag, tag?, (TagBody.opens_scan _ _ _ _).2 hends, hvoid]
    rfl

end Piece

end ViewCompiler
