import ViewCompiler.Proofs.CodeBraces
import ViewCompiler.Proofs.TemplatePlaces

/-!
Where the code of a template comes from. Reading only moves forward over the text
(`Piece.behind_scan`), and what it takes out of the text unchanged stands at the place it is given:
the code blocks of a template, and its expressions, which stand behind an at sign
(`Template.originates_parse`).
-/

namespace ViewCompiler

/-! ## Sources -/

namespace Source

/-- What is left of a source after some bytes. -/
def Behind (start s : Source) : Prop := ∃ n, s = start.drop n

namespace Behind

variable {start s : Source}

theorem refl (s : Source) : s.Behind s := ⟨0, rfl⟩

theorem drop (h : start.Behind s) (n : Nat) : start.Behind (s.drop n) := by
  obtain ⟨m, rfl⟩ := h
  exact ⟨m + n, start.drop_drop m n⟩

theorem dropWhile (h : start.Behind s) (p : UInt8 → Bool) : start.Behind (s.dropWhile p) := h.drop _

theorem finish (h : start.Behind s) : start.Behind s.finish := h.drop _

end Behind

/-- The source has the text `code` at the place `span`. -/
def Holds (s : Source) (span : Span) (code : Bytes) : Prop :=
  ∃ n after, (s.drop n).span = span ∧ (s.drop n).rest = code ++ after

theorem Behind.holds {start s : Source} (h : start.Behind s) {code after : Bytes}
    (hs : s.rest = code ++ after) : start.Holds s.span code := by
  obtain ⟨n, rfl⟩ := h
  exact ⟨n, after, rfl, hs⟩

end Source

/-! ## Moving forward -/

variable {start s : Source}

namespace Attribute

theorem behind_scanValue (h : start.Behind s) : start.Behind (scanValue s).rest := by
  rw [scanValue]
  split
  · exact h
  split
  · dsimp only
    split
    · exact h.finish
    · exact h.drop _
  · dsimp only
    split
    · exact h
    · exact h.drop _

theorem behind_scan (tag : Bytes) (h : start.Behind s) : start.Behind (scan tag s).rest := by
  have hname := (h.drop (s.rest.takeWhile Ascii.isAttributeByte).length).dropWhile Ascii.isSpace
  have hvalue := behind_scanValue ((hname.drop 1).dropWhile Ascii.isSpace)
  rw [scan]
  split
  · exact h
  split
  · dsimp only
    split
    · split
      · rw [rest_check]
        exact hvalue
      · exact hvalue
    · rw [rest_check]
      exact hname
  · exact h

end Attribute

namespace TagBody

theorem behind_abandon {attributes : List Attribute} (h : start.Behind s) :
    start.Behind (abandon attributes s).rest := by
  rw [abandon]
  split
  · exact h.finish
  · exact h.drop _

theorem behind_scan (span : Span) (tag : Bytes) (attributes : List Attribute) (h : start.Behind s) :
    start.Behind (scan span tag attributes s).rest := by
  fun_induction scan span tag attributes s with
  | case1 attributes s s' => exact h.dropWhile _
  | case2 attributes s s' | case3 attributes s s' => exact (h.dropWhile _).drop _
  | case4 attributes s s' h₁ h₂ h₃ a hnone r =>
    exact behind_abandon (Attribute.behind_scan tag (h.dropWhile Ascii.isSpace))
  | case5 attributes s s' h₁ h₂ h₃ a next hnext r ih =>
    exact ih (Attribute.behind_scan tag (h.dropWhile Ascii.isSpace))

end TagBody

namespace Piece

/-- The code of the piece stands in the source. An expression stands behind its at sign. -/
def Originates (start : Source) : Piece → Prop
  | expr span e => start.Holds span (Ascii.atSign :: e)
  | code _ _ block => ∀ b, block = .ok b → start.Holds b.span b.code
  | _ => True

/-- The code of a piece stands in the source, and so does the text behind the piece. -/
def Moves (start : Source) (r : Scanned Piece) : Prop :=
  r.value.Originates start ∧ start.Behind r.rest

theorem moves_comment {close : Bytes} {span : Span} (h : start.Behind s) :
    Moves start (comment close span s) := by
  rw [comment]
  split
  · exact ⟨trivial, h.drop _⟩
  · exact ⟨trivial, h.finish⟩

theorem moves_expression {span : Span} {code : Bytes} (hcode : start.Holds span (Ascii.atSign :: code))
    (h : start.Behind s) : Moves start (expression span code s) := by
  rw [expression]
  split
  · exact ⟨hcode, h⟩
  · exact ⟨trivial, h⟩

theorem moves_parenthesized (h : start.Behind s) {bs : Bytes}
    (hs : s.rest = Ascii.atSign :: Ascii.lparen :: bs) :
    Moves start (parenthesized s.span (s.drop 2)) := by
  have hbs : (s.drop 2).rest = bs := by
    rw [Source.rest_drop, hs]
    rfl
  rw [parenthesized, hbs]
  split
  · next n hn =>
    obtain ⟨v, zs, rfl, rfl⟩ := Stretch.exists_of_matching? hn
    have hcode : s.rest = (Ascii.atSign :: ("(" ++ v ++ ")")) ++ zs := by
      have hopen : ("(" : Bytes) = [Ascii.lparen] := rfl
      have hclose : (")" : Bytes) = [Ascii.rparen] := rfl
      rw [hs, hopen, hclose]
      simp
    rw [List.take_left]
    exact moves_expression (h.holds hcode) ((h.drop _).drop _)
  · exact ⟨trivial, (h.drop _).finish⟩

theorem moves_transition {inWord : Bool} (h : start.Behind s)
    (hs : s.rest.head? = some Ascii.atSign) : Moves start (transition inWord s) := by
  obtain ⟨bs, hbs⟩ := List.head?_eq_some_iff.1 hs
  rw [transition]
  dsimp only
  split
  · exact ⟨trivial, h.drop _⟩
  split
  · exact moves_comment (h.drop _)
  split
  · exact ⟨trivial, h.drop _⟩
  split
  · next hparen =>
    rw [hbs, List.tail_cons] at hparen
    obtain ⟨bs, rfl⟩ := List.head?_eq_some_iff.1 hparen
    exact moves_parenthesized h hbs
  split
  · have hname : s.rest = (Ascii.atSign :: s.rest.tail.takeWhile Ascii.isNameByte) ++
        s.rest.tail.dropWhile Ascii.isNameByte := by
      rw [List.cons_append, List.takeWhile_append_dropWhile, hbs]
      rfl
    exact moves_expression (h.holds hname) (h.drop _)
  · exact ⟨trivial, h.drop _⟩

theorem moves_codeBlock (h : start.Behind s) :
    (∀ b, (codeBlock s).value = .ok b → start.Holds b.span b.code) ∧
      start.Behind (codeBlock s).rest := by
  have hbody := (h.dropWhile Ascii.isSpace).drop 1
  rw [codeBlock]
  dsimp only
  split
  · split
    · next n hn =>
      obtain ⟨v, zs, hrest, rfl⟩ := Stretch.exists_of_matching? hn
      refine ⟨?_, ?_⟩
      · rintro b ⟨⟩
        rw [hrest, List.take_left]
        exact hbody.holds hrest
      · rw [leaveLine]
        split
        · exact (hbody.drop _).drop _
        · exact hbody.drop _
    · exact ⟨by simp, hbody.finish⟩
  · exact ⟨by simp, h.dropWhile _⟩

theorem moves_ofDirective {k : DirectiveKeyword} (h : start.Behind s) :
    Moves start (ofDirective k s) := by
  rw [ofDirective]
  dsimp only
  split
  · exact moves_codeBlock (h.drop _)
  · exact ⟨trivial, (h.drop _).drop _⟩

theorem moves_scan {inWord : Bool} (h : start.Behind s) : Moves start (scan inWord s) := by
  rw [scan]
  split
  · next hat =>
    split
    · exact moves_ofDirective h
    · exact moves_transition h hat
  split
  · exact moves_comment (h.drop _)
  split
  · have hafter := (h.drop (((s.rest.drop 2).takeWhile Ascii.isTagByte).length + 2)).dropWhile Ascii.isSpace
    rw [ofEndTag]
    split
    · exact ⟨trivial, hafter.drop _⟩
    · exact ⟨trivial, hafter⟩
  split
  · exact ⟨trivial, TagBody.behind_scan s.span _ [] (h.drop _)⟩
  · exact ⟨trivial, h.drop _⟩

/-- Reading only moves forward. -/
theorem behind_scan (inWord : Bool) (s : Source) : s.Behind (scan inWord s).rest :=
  (moves_scan (.refl s)).2

theorem originates_scanAll (inWord : Bool) (h : start.Behind s) :
    ∀ p ∈ scanAll inWord s, p.1.Originates start := by
  fun_induction scanAll inWord s with
  | case1 => simp
  | case2 inWord s _ r ih => exact List.forall_mem_cons.2 ⟨(moves_scan h).1, ih (moves_scan h).2⟩

end Piece

/-! ## Expressions of the markup -/

namespace Node

mutual

/-- The expressions of a node with their places, those of attributes apart. -/
def exprs : Node → List (Span × Bytes)
  | .text _ _ => []
  | .expr span code => [(span, code)]
  | .element _ _ _ children => allExprs children

def allExprs : List Node → List (Span × Bytes)
  | [] => []
  | n :: ns => n.exprs ++ allExprs ns

end

theorem allExprs_append (ms ns : List Node) : allExprs (ms ++ ns) = allExprs ms ++ allExprs ns := by
  induction ms with
  | nil => rw [List.nil_append, allExprs, List.nil_append]
  | cons m ms ih => rw [List.cons_append, allExprs, allExprs, ih, List.append_assoc]

theorem allExprs_singleton (n : Node) : allExprs [n] = n.exprs := by
  rw [allExprs, allExprs, List.append_nil]

theorem mem_allExprs {p : Span × Bytes} {ns : List Node} :
    p ∈ allExprs ns ↔ ∃ n ∈ ns, p ∈ n.exprs := by
  induction ns with
  | nil => simp [allExprs]
  | cons n ns ih => simp [allExprs, ih]

end Node

/-! ## Templates -/

namespace Template

/-- The code blocks of the template and the expressions of its markup stand in the source. -/
structure Originates (start : Source) (t : Template) : Prop where
  code : ∀ b ∈ t.code, start.Holds b.span b.code
  exprs : ∀ p ∈ Node.allExprs t.nodes, start.Holds p.1 (Ascii.atSign :: p.2)

end Template

namespace Draft

/-- All code that was taken stands in the source. -/
def origins (start : Source) : MarkupInvariant where
  node n := ∀ p ∈ n.exprs, start.Holds p.1 (Ascii.atSign :: p.2)
  element e := ∀ p ∈ Node.allExprs e.children, start.Holds p.1 (Ascii.atSign :: p.2)
  outside t := ∀ b ∈ t.code, start.Holds b.span b.code
  node_text _ _ := by
    intro p hp
    rw [Node.exprs] at hp
    cases hp
  node_of_element h := by
    intro p hp
    rw [OpenElement.node, Node.exprs] at hp
    exact h p hp
  element_push h hn := by
    intro p hp
    rw [OpenElement.push, Node.allExprs_append, Node.allExprs_singleton] at hp
    exact (List.mem_append.1 hp).elim (h p) (hn p)

theorem code_directive {t t' : Template} {span : Span} {argument : Bytes} {k : DirectiveKeyword}
    (h : directive t span argument k = .ok t') : t'.code = t.code := by
  cases directs_of_directive h <;> rfl

theorem meets_origins {p : Piece} (h : p.Originates start) : p.Meets (origins start) := by
  cases p with
  | text span t =>
    intro p hp
    rw [Node.exprs] at hp
    cases hp
  | expr span code =>
    intro p hp
    rw [Node.exprs, List.mem_singleton] at hp
    rw [hp]
    exact h
  | startTag span tag attributes opens =>
    intro p hp
    rw [Node.allExprs] at hp
    cases hp
  | directive span atLineStart k argument =>
    intro t t' ht hdirective b hb
    have hcode : t'.code = t.code := code_directive hdirective
    change b ∈ t'.code at hb
    rw [hcode] at hb
    exact ht b hb
  | code span atLineStart block =>
    intro t b ht hb
    exact List.forall_mem_append.2 ⟨ht, by simpa using h b hb⟩
  | endTag | gap => trivial

end Draft

/-- The code of a template stands in its text. -/
theorem Template.originates_parse (text : Bytes) :
    (Template.parse text).Originates { rest := text } := by
  have hstart : Draft.Keeps (Draft.origins { rest := text }) {} :=
    ⟨by simp, by simp, by simp, by simp [Draft.origins, Template.outside]⟩
  have hpieces := Piece.originates_scanAll false (.refl { rest := text })
  obtain ⟨hnodes, hout⟩ := (hstart.foldl_step fun p hp => Draft.meets_origins (hpieces p hp)).finish
  refine ⟨hout, fun p hp => ?_⟩
  obtain ⟨n, hn, hp⟩ := Node.mem_allExprs.1 hp
  exact hnodes n hn p hp

end ViewCompiler
