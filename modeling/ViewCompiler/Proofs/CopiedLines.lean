import ViewCompiler.Proofs.CrossedText
import ViewCompiler.Proofs.DeclarationGate
import ViewCompiler.Proofs.TemplateOrigins

/-!
Lines of copied code. Code blocks and expressions are copied into the file that is written for a
template, each behind a line directive. Whatever stands in front of a copy is crossed while the file
is scanned, so the directive is read as one, and every token of the copy is on the line of the template
file that its first byte comes from (`Item.mirrored_generate`).
-/

namespace ViewCompiler

/-! ## Copies -/

/-- A text of a template that is copied into a file: what the file has in front of the copy, the place
that the line directive in front of it names, and the text. -/
structure Copy where
  before : Bytes
  span : Span
  code : Bytes
deriving DecidableEq, Repr

namespace Copy

/-- The copy in a file with `w` in front. -/
def behind (w : Bytes) (k : Copy) : Copy := { k with before := w ++ k.before }

theorem behind_behind (v w : Bytes) (k : Copy) : (k.behind v).behind w = k.behind (w ++ v) := by
  rw [behind, behind, behind, List.append_assoc]

theorem map_behind {α : Type} (f : Span → Bytes → α) (w : Bytes) (ks : List Copy) :
    (ks.map (behind w)).map (fun k => f k.span k.code) = ks.map fun k => f k.span k.code := by
  rw [List.map_map]
  rfl

end Copy

namespace WriteScope

/-- The copies of code blocks. -/
def blockCopies (c : WriteScope) : List CodeBlock → List Copy
  | [] => []
  | b :: bs => { before := c.mapLine b.span, span := b.span, code := b.code } ::
      (c.blockCopies bs).map (.behind (c.codeLines b))

mutual

/-- The copies of the expressions of a node, those of attributes apart. -/
def exprCopies (c : WriteScope) : Node → List Copy
  | .text _ _ => []
  | .expr span code => [{ before := c.mapLine span ++ "expr ", span, code }]
  | .element span tag attributes children =>
    (c.allExprCopies children).map (.behind (c.elementStart span tag attributes))

def allExprCopies (c : WriteScope) : List Node → List Copy
  | [] => []
  | n :: ns => c.exprCopies n ++ (c.allExprCopies ns).map (.behind (c.node n).code)

end

/-- Every code block is copied. -/
theorem map_blockCopies (c : WriteScope) (bs : List CodeBlock) :
    (c.blockCopies bs).map (fun k => (k.span, k.code)) = bs.map fun b => (b.span, b.code) := by
  induction bs with
  | nil => rfl
  | cons b bs ih =>
    rw [blockCopies, List.map_cons, Copy.map_behind Prod.mk, ih]
    rfl

mutual

/-- Every expression is copied. -/
theorem map_exprCopies (c : WriteScope) (n : Node) :
    (c.exprCopies n).map (fun k => (k.span, k.code)) = n.exprs := by
  match n with
  | .text _ _ =>
    rw [exprCopies, Node.exprs]
    rfl
  | .expr _ _ =>
    rw [exprCopies, Node.exprs]
    rfl
  | .element _ _ _ children =>
    rw [exprCopies, Node.exprs, Copy.map_behind Prod.mk]
    exact map_allExprCopies c children

theorem map_allExprCopies (c : WriteScope) (ns : List Node) :
    (c.allExprCopies ns).map (fun k => (k.span, k.code)) = Node.allExprs ns := by
  match ns with
  | [] =>
    rw [allExprCopies, Node.allExprs]
    rfl
  | n :: ns =>
    rw [allExprCopies, Node.allExprs, List.map_append, Copy.map_behind Prod.mk, map_exprCopies c n,
      map_allExprCopies c ns]

end

/-! ## What stands in front of a copy -/

open TokenStream

variable {c : WriteScope} {v w : Bytes} {k : Copy}

/-- The text `w` has the copy, and scanning comes to the line directive in front of it. -/
structure Reaches (c : WriteScope) (w : Bytes) (k : Copy) : Prop where
  front : ∃ lead word, Crosses true lead ∧ k.before = lead ++ (c.mapLine k.span ++ word)
    ∧ (word = [] ∨ word = "expr ")
  copied : ∃ after, w = k.before ++ (k.code ++ after) ∧ after ≠ []

namespace Reaches

theorem behind (h : c.Reaches w k) (hv : Crosses true v) : c.Reaches (v ++ w) (k.behind v) := by
  obtain ⟨lead, word, hlead, hbefore, hword⟩ := h.front
  obtain ⟨after, rfl, hafter⟩ := h.copied
  refine ⟨⟨v ++ lead, word, hv.append hlead, ?_, hword⟩, after, ?_, hafter⟩
  · change v ++ k.before = v ++ lead ++ (c.mapLine k.span ++ word)
    rw [hbefore, List.append_assoc]
  · change v ++ (k.before ++ (k.code ++ after)) = v ++ k.before ++ (k.code ++ after)
    rw [List.append_assoc]

theorem forall_behind {ks : List Copy} (h : ∀ k ∈ ks, c.Reaches w k) (hv : Crosses true v) :
    ∀ k ∈ ks.map (.behind v), c.Reaches (v ++ w) k := by
  intro k hk
  obtain ⟨k', hk', rfl⟩ := List.mem_map.1 hk
  exact (h k' hk').behind hv

theorem append (h : c.Reaches w k) (v : Bytes) : c.Reaches (w ++ v) k := by
  obtain ⟨after, rfl, hafter⟩ := h.copied
  refine ⟨h.front, after ++ v, ?_, by simp [hafter]⟩
  rw [List.append_assoc, List.append_assoc]

end Reaches

theorem reaches_blockCopies {bs : List CodeBlock} (hclean : ∀ b ∈ bs, (scan b.code).errors = [])
    (hs : ∀ b ∈ bs, c.item.userLine b.span.line ≠ 0) :
    ∀ k ∈ c.blockCopies bs, c.Reaches (bs.flatMap c.codeLines) k := by
  induction bs with
  | nil => simp [blockCopies]
  | cons b bs ih =>
    rw [List.forall_mem_cons] at hclean hs
    rw [blockCopies, List.forall_mem_cons, List.flatMap_cons]
    refine ⟨?_, ?_⟩
    · refine ⟨⟨[], [], .nil, by simp, .inl rfl⟩, "\n" ++ bs.flatMap c.codeLines, ?_, ?_⟩
      · simp only [codeLines, List.append_assoc]
      · exact List.cons_ne_nil _ _
    · exact Reaches.forall_behind (ih hclean.2 hs.2) (crosses_codeLines hclean.1 hs.1)

theorem allExprCopies_of_isBlank {ns : List Node} (h : ns.all (·.isBlank) = true) :
    c.allExprCopies ns = [] := by
  induction ns with
  | nil => rw [allExprCopies]
  | cons n ns ih =>
    rw [List.all_cons, Bool.and_eq_true] at h
    rw [allExprCopies, ih h.2]
    cases n with
    | text => rw [exprCopies, List.map_nil, List.append_nil]
    | expr | element => cases h.1

/-- An element is its start, its content and its end, unless it has no content. -/
theorem code_element_eq {span : Span} {tag : Bytes} {attributes : List Attribute}
    {children : List Node} (h : children.all (·.isBlank) = false) :
    ∃ ending, (c.node (.element span tag attributes children)).code =
      c.elementStart span tag attributes ++ ((c.nodes children).code ++ ending) := by
  rw [elementStart]
  cases hm : c.meaning? span tag with
  | none =>
    rw [code_node_element hm]
    refine ⟨"close;\n", ?_⟩
    rw [Option.elim_none, List.append_assoc _ (attributes.flatMap _)]
  | some type =>
    rw [code_node_component hm, childText, if_neg (by simp [h])]
    refine ⟨"\x7d\n" ++ "\x7d\n", ?_⟩
    simp only [Option.elim_some, List.append_assoc]

theorem reaches_nodes_of {ns : List Node} (hcross : ∀ n ∈ ns, Crosses true (c.node n).code)
    (h : ∀ n ∈ ns, ∀ k ∈ c.exprCopies n, c.Reaches (c.node n).code k) :
    ∀ k ∈ c.allExprCopies ns, c.Reaches (c.nodes ns).code k := by
  induction ns with
  | nil => simp [allExprCopies]
  | cons n ns ih =>
    rw [List.forall_mem_cons] at hcross h
    rw [allExprCopies, nodes, code_append]
    exact List.forall_mem_append.2
      ⟨fun k hk => (h.1 k hk).append _, Reaches.forall_behind (ih hcross.2 h.2) hcross.1⟩

theorem reaches_exprCopies (ht : c.table.Nameable) {n : Node} (h : n.Sound)
    (hp : n.Placed fun s => c.item.userLine s.line ≠ 0) :
    ∀ k ∈ c.exprCopies n, c.Reaches (c.node n).code k := by
  induction h with
  | @text span t =>
    rw [exprCopies]
    simp
  | @expr span code hcode =>
    rw [exprCopies, List.forall_mem_singleton]
    refine ⟨⟨[], "expr ", .nil, by simp, .inr rfl⟩, ";\n", ?_, List.cons_ne_nil _ _⟩
    rw [node, code_text]
    simp only [List.append_assoc]
  | @element span tag attributes children ha hchildren ih =>
    cases hp with
    | element hs hattributes hplaced =>
      rw [exprCopies]
      cases hblank : children.all (·.isBlank) with
      | true =>
        rw [allExprCopies_of_isBlank hblank]
        simp
      | false =>
        have hcopies := reaches_nodes_of
          (fun n hn => crosses_node ht (hchildren n hn) (hplaced n hn))
          fun n hn => ih n hn (hplaced n hn)
        have hstart : Crosses true (c.elementStart span tag attributes) :=
          crosses_elementStart ht hs fun a hmem => ⟨ha a hmem, hattributes a hmem⟩
        obtain ⟨ending, hcode⟩ := code_element_eq (c := c) hblank
        rw [hcode]
        exact Reaches.forall_behind (fun k hk => (hcopies k hk).append ending) hstart

end WriteScope

/-! ## From the start of a file to a copy -/

namespace TokenStream

/-- What may stand between a directive and a copy stays on its line. -/
theorem exists_runs_opening {word : Bytes} (hword : word = [] ∨ word = "expr ") {c : Cursor}
    (hc : c.column = 1) (ys : Bytes) : ∃ c', Runs c (word ++ ys) c' ys ∧ c'.line = c.line
      ∧ c'.shift = c.shift ∧ c'.column.toNat = word.length + 1 := by
  rcases hword with rfl | rfl
  · exact ⟨c, .done, rfl, rfl, congrArg UInt32.toNat hc⟩
  · have hexpr := (isLexeme_word (w := Keyword.exprKw.text) rfl (x := Ascii.space) rfl []).runs c ys
    have hspace := (isLexeme_blank (b := Ascii.space) rfl []).runs (c.steps Keyword.exprKw.text) ys
    have hruns : Runs c ("expr " ++ ys) (c.steps (Keyword.exprKw.text ++ [Ascii.space])) ys :=
      c.steps_append _ _ ▸ hexpr.trans hspace
    have hcolumn : (c.steps (Keyword.exprKw.text ++ [Ascii.space])).column =
        (Cursor.steps {} (Keyword.exprKw.text ++ [Ascii.space])).column := Cursor.column_steps_congr hc _
    refine ⟨_, hruns, Cursor.line_steps_of_not_mem (by decide) c, c.shift_steps _, ?_⟩
    rw [hcolumn]
    rfl

/-- A directive that means something, with the end of its line. -/
theorem runs_directive {c : Cursor} {l : Bytes} {n : Nat} (hc : c.startsLine = true) (hlf : Ascii.lf ∉ l)
    (hn : Lexeme.directive (Ascii.hash :: l) = .ok (.startAt n)) (ys : Bytes) :
    ∃ c', Runs c (Ascii.hash :: (l ++ Ascii.lf :: ys)) c' ys ∧ c'.column = 1
      ∧ c'.shift = (n : Int) - c'.line.toNat := by
  have hline : ∀ x ∈ Ascii.hash :: l, decide (x ≠ Ascii.lf) = true := by
    intro x hx
    rcases List.mem_cons.1 hx with rfl | hx
    · decide
    · exact decide_eq_true fun heq => hlf (heq ▸ hx)
  let d : Lexeme := { raw := Ascii.hash :: l, rest := Ascii.lf :: ys, mapping := some (.startAt n) }
  have hd : d = Lexeme.ofText c.startsLine Ascii.hash (l ++ Ascii.lf :: ys) := by
    rw [Lexeme.ofText, if_pos ⟨rfl, hc⟩, Lexeme.ofDirective, ← List.cons_append,
      takeWhile_append_of_not (by simp), dropWhile_append_of_not (by simp),
      List.takeWhile_eq_self_iff.2 hline, List.dropWhile_eq_nil_iff.2 hline, hn]
    rfl
  have hafter : c.after d = { c.steps d.raw with shift := c.shiftTo n } := Cursor.steps_shift _ _ _
  have hsame : (c.steps d.raw).line = c.line :=
    Cursor.line_steps_of_not_mem (fun hmem => by simpa using hline _ hmem) c
  obtain ⟨c', hruns, hc'⟩ : ∃ c', Runs (c.after d) (Ascii.lf :: ys) c' ys ∧ c' = (c.after d).step Ascii.lf :=
    ⟨_, (isLexeme_blank (b := Ascii.lf) rfl []).runs (c.after d) ys, rfl⟩
  refine ⟨c', .lexeme hd hruns, ?_, ?_⟩
  · rw [hc', Cursor.column_step_lf]
  · rw [hc', hafter]
    change (n : Int) - ((c.line + 1).toNat : Int) = (n : Int) - (((c.steps d.raw).line + 1).toNat : Int)
    rw [hsame]

end TokenStream

namespace WriteScope

open TokenStream

variable {c : WriteScope} {w head : Bytes} {k : Copy}

theorem runs_mapLine {span : Span} (hs : c.item.userLine span.line ≠ 0) {cursor : Cursor}
    (hc : cursor.startsLine = true) (ys : Bytes) : ∃ c', Runs cursor (c.mapLine span ++ ys) c' ys
      ∧ c'.column = 1 ∧ c'.shift = ((c.item.userLine span.line).toNat : Int) - c'.line.toNat := by
  have hpos : 0 < (c.item.userLine span.line).toNat :=
    Nat.pos_of_ne_zero fun h => hs (UInt32.toNat_inj.1 h)
  have hline : ("#line " : Bytes) = Ascii.hash :: ("line " : Bytes) := rfl
  have hend : ("\n" : Bytes) = [Ascii.lf] := rfl
  have hlf : Ascii.lf ∉ ("line " : Bytes) ++ Bytes.ofNat (c.item.userLine span.line).toNat := by
    rw [List.mem_append, not_or]
    exact ⟨by decide, Bytes.not_mem_ofNat rfl⟩
  obtain ⟨c', hruns, hc'⟩ := runs_directive hc hlf
    (Lexeme.directive_ofNat hpos (UInt32.toNat_lt _)) ys
  refine ⟨c', ?_, hc'⟩
  rw [mapLine, hline, hend]
  simpa using hruns

/-- The tokens of a copy have the line of the directive in front of it, and as many more as there are
line feeds between. -/
theorem Reaches.line_eq (h : c.Reaches w k) {c₁ : Cursor} (hhead : Runs {} (head ++ w) c₁ w)
    (hc₁ : c₁.column = 1) (hs : c.item.userLine k.span.line ≠ 0)
    (hsize : (head ++ w).length < 4294967296) (hcode : k.code.Unhashed) {p : Nat × Token}
    (hp : p ∈ placed (head ++ w)) (hle : (head ++ k.before).length ≤ p.1)
    (hlt : p.1 < (head ++ k.before).length + k.code.length) :
    p.2.span.line = UInt32.ofNat ((c.item.userLine k.span.line).toNat
      + Bytes.lineFeeds (k.code.take (p.1 - (head ++ k.before).length))) := by
  obtain ⟨lead, word, hlead, hbefore, hword⟩ := h.front
  obtain ⟨after, rfl, hafter⟩ := h.copied
  let rest := k.code ++ after
  have hbehind : k.before ++ rest = lead ++ (c.mapLine k.span ++ (word ++ rest)) := by
    rw [hbefore]
    simp only [List.append_assoc]
  have hstart : ({} : Cursor).Near (head ++ (k.before ++ rest)) := by
    rwa [Cursor.Near, Nat.zero_add]
  have hnear := hhead.near hstart
  rw [hbehind] at hnear
  obtain ⟨c₂, hruns₂, hc₂⟩ := hlead c₁ (c.mapLine k.span ++ (word ++ rest)) hnear fun _ => hc₁
  have hstarts : c₂.startsLine = true := (hruns₂.near hnear).startsLine hc₂
  obtain ⟨c₃, hruns₃, hc₃, hshift₃⟩ := runs_mapLine hs hstarts (word ++ rest)
  obtain ⟨c₄, hruns₄, hline₄, hshift₄, hc₄⟩ := exists_runs_opening hword hc₃ rest
  have hruns : Runs {} ((head ++ k.before) ++ rest) c₄ rest := by
    have hwhole : (head ++ k.before) ++ rest = head ++ (k.before ++ rest) := List.append_assoc ..
    rw [hwhole]
    refine hhead.trans ?_
    change Runs c₁ (k.before ++ rest) c₄ rest
    rw [hbehind]
    exact hruns₂.trans (hruns₃.trans hruns₄)
  have htext : head ++ (k.before ++ (k.code ++ after)) = (head ++ k.before) ++ rest := by
    rw [List.append_assoc]
  rw [htext] at hp hsize
  have hmem := hruns.mem_placedFrom hp (by rw [Nat.zero_add]; exact hle)
  rw [Nat.zero_add] at hmem
  -- what the text has behind the copy is enough for the numbers of line and column not to overflow
  have hlast : 0 < after.length := List.length_pos_iff.2 hafter
  have hword : word.length ≤ (head ++ k.before).length := by
    rw [hbefore]
    simp only [List.length_append]
    omega
  have hrest : rest.length = k.code.length + after.length := List.length_append
  have hlength : ((head ++ k.before) ++ rest).length = (head ++ k.before).length + rest.length :=
    List.length_append
  have hline : c₄.line.toNat ≤ 1 + Bytes.lineFeeds (head ++ k.before) := by
    rw [hruns.line_eq]
    exact Cursor.line_steps_le {} _
  have hfront := Bytes.lineFeeds_le_length (head ++ k.before)
  have hfeeds := Bytes.lineFeeds_le_length k.code
  have hpos : 0 < (c.item.userLine k.span.line).toNat :=
    Nat.pos_of_ne_zero fun h => hs (UInt32.toNat_inj.1 h)
  exact line_of_mem_placedFrom (by omega) (by omega) (by omega) hcode hmem hlt hpos
    (by rw [hshift₄, hshift₃, hline₄])

end WriteScope

/-! ## Lines of the template -/

/-- Moving over a text passes as many lines as it has line feeds, if they can be counted. -/
theorem Position.line_steps {p : Position} {bs : Bytes}
    (h : p.line.toNat + bs.lineFeeds < 4294967296) :
    (p.steps bs).line.toNat = p.line.toNat + bs.lineFeeds := by
  have hstep (p : Position) (b : UInt8) :
      (if b = Ascii.lf then p.line + 1 else p.line) = (p.step b).line := by
    rw [step]
    split <;> rfl
  rw [← Bytes.toNat_lineAfter h, steps, Bytes.lineAfter, List.foldl_hom line hstep]

namespace Item

variable {i : Item}

/-- The line of the content on which a byte stands. -/
def lineAt (i : Item) (n : Nat) : UInt32 := UInt32.ofNat (Bytes.lineFeeds (i.content.take n) + 1)

/-- The lines of the content and of the file, and the bytes of the text that is written for it, can be
numbered in 32 bits. -/
structure Measured (i : Item) (generated : Bytes) : Prop where
  content : i.content.lineFeeds + 1 < 4294967296
  file : i.Numbered
  generated : generated.length < 4294967296

/-- The lines of the file go on as those of the content do. -/
theorem Numbered.userLine_add (h : i.Numbered) {line : UInt32} {m : Nat}
    (hline : line.toNat ≤ i.content.lineFeeds + 1) (hfile : 1 ≤ (line.toNat : Int) - i.lineOffset)
    (hm : line.toNat + m < 4294967296) :
    UInt32.ofNat ((i.userLine line).toNat + m) = i.userLine (UInt32.ofNat (line.toNat + m)) := by
  rw [Numbered] at h
  have hstart : (i.userLine line).toNat = ((line.toNat : Int) - i.lineOffset).toNat := by
    rw [userLine, if_neg (by omega)]
    exact UInt32.toNat_ofNat_of_lt' (by rw [UInt32.size]; omega)
  have hbehind : (UInt32.ofNat (line.toNat + m)).toNat = line.toNat + m :=
    UInt32.toNat_ofNat_of_lt' (by rw [UInt32.size]; exact hm)
  rw [hstart, userLine, hbehind, if_neg (by omega)]
  congr 1
  omega

/-- The copy `k` of a text that stands in the content behind `mark`, from the byte `n` on, keeps the
lines of the file: if it starts on one of them, and no line of it starts with a hash sign, each of its
tokens has the line that the first byte of the token comes from. -/
structure Mirrored (i : Item) (generated mark : Bytes) (k : Copy) (n : Nat) : Prop where
  copied : ∃ after, generated = k.before ++ (k.code ++ after)
  place : (Source.drop { rest := i.content } n).span = k.span
  text : ∃ after, i.content.drop n = mark ++ (k.code ++ after)
  lines : 1 ≤ (k.span.line.toNat : Int) - i.lineOffset → k.code.Unhashed →
    ∀ p ∈ TokenStream.placed generated, k.before.length ≤ p.1 →
      p.1 < k.before.length + k.code.length →
        p.2.span.line = i.userLine (i.lineAt (n + mark.length + (p.1 - k.before.length)))

/-- A copy keeps lines if scanning comes to its directive. -/
theorem exists_mirrored {c : WriteScope} {head w mark : Bytes} {k : Copy} (h : c.Reaches w k)
    {c₁ : Cursor} (hhead : TokenStream.Runs {} (head ++ w) c₁ w) (hc₁ : c₁.column = 1)
    (hm : c.item.Measured (head ++ w)) (hmark : mark.lineFeeds = 0)
    (hk : Source.Holds { rest := c.item.content } k.span (mark ++ k.code)) :
    ∃ n, c.item.Mirrored (head ++ w) mark (k.behind head) n := by
  obtain ⟨n, after, hplace, hrest⟩ := hk
  have htext : c.item.content.drop n = mark ++ (k.code ++ after) := by
    rw [← List.append_assoc]
    exact hrest
  refine ⟨n, ?_, hplace, ⟨after, htext⟩, ?_⟩
  · obtain ⟨after, rfl, -⟩ := h.copied
    exact ⟨after, (List.append_assoc ..).symm⟩
  intro hfile hcode p hp hle hlt
  change (head ++ k.before).length ≤ p.1 at hle
  change p.1 < (head ++ k.before).length + k.code.length at hlt
  change _ = c.item.userLine (c.item.lineAt (n + mark.length + (p.1 - (head ++ k.before).length)))
  generalize hj : p.1 - (head ++ k.before).length = j
  have hat : c.item.content.take (n + mark.length + j) =
      c.item.content.take n ++ (mark ++ k.code.take j) := by
    rw [Nat.add_assoc, List.take_add, htext, List.take_length_add_append,
      List.take_append_of_le_length (by omega)]
  have hfeeds := congrArg Bytes.lineFeeds (List.take_append_drop (n + mark.length + j) c.item.content)
  simp only [hat, Bytes.lineFeeds_append, hmark] at hfeeds
  have hlines := hm.content
  have hline : k.span.line.toNat = Bytes.lineFeeds (c.item.content.take n) + 1 := by
    rw [← hplace, Nat.add_comm]
    exact Position.line_steps (p := {}) (by change 1 + Bytes.lineFeeds (c.item.content.take n) < _; omega)
  have hs : c.item.userLine k.span.line ≠ 0 := hm.file.userLine_ne_zero (by omega)
  have hlineAt : c.item.lineAt (n + mark.length + j) =
      UInt32.ofNat (k.span.line.toNat + Bytes.lineFeeds (k.code.take j)) := by
    rw [lineAt, hat, Bytes.lineFeeds_append, Bytes.lineFeeds_append, hmark, hline]
    congr 1
    omega
  rw [hlineAt, h.line_eq hhead hc₁ hs hm.generated hcode hp hle hlt, hj]
  exact hm.file.userLine_add (by omega) hfile (by omega)

end Item

/-! ## Files -/

namespace WriteScope

open TokenStream

variable {c : WriteScope} {t : Template} {name : Bytes}

/-- The lines in front of the declaration. -/
def openingLines (c : WriteScope) : Bytes := namespaceLine c.ns ++ c.usings.flatMap usingLine

/-- The lines from the declaration to the first code block. -/
def headLines (c : WriteScope) (t : Template) (name : Bytes) : Bytes :=
  c.routeLine t.route ++ (c.declarationLines name t.base ++ t.injections.flatMap c.injectLine)

theorem openingLines_cases (c : WriteScope) :
    c.openingLines = [] ∨ ∃ bs, c.openingLines = bs ++ ";\n" := by
  have husings : c.usings.flatMap usingLine = [] ∨ ∃ bs, c.usings.flatMap usingLine = bs ++ ";\n" := by
    rcases List.eq_nil_or_concat c.usings with hnil | ⟨us, u, hus⟩
    · exact .inl (by rw [hnil]; rfl)
    · refine .inr ⟨us.flatMap usingLine ++ ("using " ++ u), ?_⟩
      rw [hus, List.concat_eq_append, List.flatMap_append, List.flatMap_singleton, usingLine]
      simp only [List.append_assoc]
  rw [openingLines]
  rcases husings with hnil | ⟨bs, hbs⟩
  · rw [hnil, List.append_nil, namespaceLine]
    split
    · exact .inl rfl
    · exact .inr ⟨_, rfl⟩
  · exact .inr ⟨namespaceLine c.ns ++ bs, by rw [hbs, List.append_assoc]⟩

theorem exists_runs_openingLines (h : (scan c.openingLines).CommentsEnd) (w : Bytes) :
    ∃ c', Runs {} (c.openingLines ++ w) c' w ∧ c'.column = 1 := by
  rcases c.openingLines_cases with hnil | ⟨bs, hbs⟩
  · rw [hnil]
    exact ⟨{}, .done, rfl⟩
  · have hend : (";\n" : Bytes) = [Ascii.semicolon] ++ [Ascii.lf] := rfl
    rw [hbs, hend, ← List.append_assoc] at h ⊢
    have hlast : (bs ++ [Ascii.semicolon]).getLast? ≠ some Ascii.backslash := by
      rw [List.getLast?_append, List.getLast?_singleton, Option.some_or]
      decide
    rw [List.append_assoc _ [Ascii.lf]]
    exact exists_runs_lines hlast h w

theorem crosses_headLines (hn : name.IsWord) (ht : t.Admitted)
    (hs : t.Placed fun s => c.item.userLine s.line ≠ 0) : Crosses true (c.headLines t name) := by
  have hinjections : Crosses true (t.injections.flatMap c.injectLine) := .flatMap fun i hi =>
    crosses_injectLine (ht.injections i hi).1 (ht.injections i hi).2 (hs.injections i hi)
  exact (prints_routeLine hs.route).crosses.append
    ((crosses_declarationLines hn ht.base hs.base).append hinjections)

theorem crosses_members (hs : t.Placed fun s => c.item.userLine s.line ≠ 0)
    (hclean : ∀ b ∈ t.code, (scan b.code).errors = []) :
    Crosses true (t.code.flatMap c.codeLines ++ "#line default\n") := by
  have hcode : Crosses true (t.code.flatMap c.codeLines) :=
    .flatMap fun b hb => crosses_codeLines (hclean b hb) (hs.code b hb)
  have hdefault : Prints true ("#line default\n" ++ ([] : Bytes)) (· = []) := prints_lineDefault (.nil rfl)
  rw [List.append_nil] at hdefault
  exact hcode.append hdefault.crosses

theorem header_append_injections (c : WriteScope) (t : Template) (name : Bytes) :
    c.header t name ++ t.injections.flatMap c.injectLine = c.openingLines ++ c.headLines t name := by
  rw [header_eq, openingLines, headLines]
  simp only [List.append_assoc]

end WriteScope

namespace Item

open TokenStream WriteScope

variable {i : Item} {o : TemplateOptions} {table : Option SymbolTable}

/-- The copies of the code blocks of the template in the file that is written for it. -/
def blockCopies (i : Item) (o : TemplateOptions) (table : Option SymbolTable) : List Copy :=
  let t := Template.parse i.content
  let c := i.scope o (table.getD {})
  let name := ComponentName.ofPath i.path
  if ComponentName.isValid name then
    (c.blockCopies t.code).map (.behind (c.header t name ++ t.injections.flatMap c.injectLine))
  else []

/-- The copies of the expressions of the markup in the file that is written for the template. -/
def exprCopies (i : Item) (o : TemplateOptions) (table : SymbolTable) : List Copy :=
  let t := Template.parse i.content
  let c := i.scope o table
  let name := ComponentName.ofPath i.path
  if ComponentName.isValid name then
    (c.allExprCopies t.nodes).map (.behind (c.header t name ++ c.members t ++ "render \x7b\n"))
  else []

theorem map_blockCopies (hvalid : ComponentName.isValid (ComponentName.ofPath i.path) = true) :
    (i.blockCopies o table).map (fun k => (k.span, k.code)) =
      (Template.parse i.content).code.map fun b => (b.span, b.code) := by
  rw [blockCopies, if_pos hvalid, Copy.map_behind Prod.mk, WriteScope.map_blockCopies]

theorem map_exprCopies (hvalid : ComponentName.isValid (ComponentName.ofPath i.path) = true)
    (table : SymbolTable) : (i.exprCopies o table).map (fun k => (k.span, k.code)) =
      Node.allExprs (Template.parse i.content).nodes := by
  rw [exprCopies, if_pos hvalid, Copy.map_behind Prod.mk, WriteScope.map_allExprCopies]

/-- The parts of the file that is written for the template. -/
theorem code_generate_eq (hvalid : ComponentName.isValid (ComponentName.ofPath i.path) = true) :
    (i.generate o table).value.code =
      (i.scope o (table.getD {})).openingLines ++
        ((i.scope o (table.getD {})).headLines i.template (ComponentName.ofPath i.path) ++
          (i.template.code.flatMap (i.scope o (table.getD {})).codeLines ++ ("#line default\n" ++
            ((if table.isSome then (i.scope o (table.getD {})).render i.template else {}).code ++
              "\x7d\n")))) := by
  have hcode : (i.template.write i o table (ComponentName.ofPath i.path)).code =
      ((i.scope o (table.getD {})).header i.template (ComponentName.ofPath i.path) ++
        (i.scope o (table.getD {})).members i.template) ++
      (if table.isSome then (i.scope o (table.getD {})).render i.template else {}).code ++ "\x7d\n" :=
    rfl
  rw [value_generate, if_pos hvalid]
  refine hcode.trans ?_
  rw [WriteScope.members, ← List.append_assoc _ (WriteScope.headLines _ i.template _),
    ← header_append_injections]
  simp only [List.append_assoc]

/-- The same with the markup. -/
theorem code_generate_some (hvalid : ComponentName.isValid (ComponentName.ofPath i.path) = true)
    (symbols : SymbolTable) : (i.generate o (some symbols)).value.code =
      (i.scope o symbols).openingLines ++
        (((i.scope o symbols).headLines i.template (ComponentName.ofPath i.path) ++
          ((i.template.code.flatMap (i.scope o symbols).codeLines ++ "#line default\n") ++
            "render \x7b\n")) ++
          (((i.scope o symbols).nodes i.template.nodes).code ++ ("#line default\n\x7d\n" ++ "\x7d\n"))) := by
  rw [code_generate_eq hvalid]
  simp only [Option.getD_some, Option.isSome_some, if_true, render, code_append, code_text,
    List.append_assoc]

/-- The place that a copy names holds what is copied. -/
theorem holds_block (hvalid : ComponentName.isValid (ComponentName.ofPath i.path) = true) {k : Copy}
    (hk : k ∈ i.blockCopies o table) : Source.Holds { rest := i.content } k.span k.code := by
  have hmem : (k.span, k.code) ∈ (Template.parse i.content).code.map fun b => (b.span, b.code) :=
    map_blockCopies hvalid ▸ List.mem_map_of_mem hk
  obtain ⟨b, hb, hsame⟩ := List.mem_map.1 hmem
  obtain ⟨hspan, hcode⟩ := Prod.mk.inj hsame
  rw [← hspan, ← hcode]
  exact (Template.originates_parse i.content).code b hb

theorem holds_expr (hvalid : ComponentName.isValid (ComponentName.ofPath i.path) = true)
    {symbols : SymbolTable} {k : Copy} (hk : k ∈ i.exprCopies o symbols) :
    Source.Holds { rest := i.content } k.span (Ascii.atSign :: k.code) := by
  have hmem : (k.span, k.code) ∈ Node.allExprs (Template.parse i.content).nodes :=
    map_exprCopies hvalid symbols ▸ List.mem_map_of_mem hk
  exact (Template.originates_parse i.content).exprs _ hmem

/-- A copy behind the opening lines keeps lines if scanning comes to its directive. -/
theorem exists_mirrored_behind {w mark : Bytes} {k : Copy}
    (hw : (i.generate o table).value.code = (i.scope o (table.getD {})).openingLines ++ w)
    (hm : i.Measured (i.generate o table).value.code)
    (hopening : (scan (i.scope o (table.getD {})).openingLines).CommentsEnd)
    (hk : (i.scope o (table.getD {})).Reaches w k) (hmark : mark.lineFeeds = 0)
    (hholds : Source.Holds { rest := i.content } k.span (mark ++ k.code)) :
    ∃ n, i.Mirrored (i.generate o table).value.code mark
      (k.behind (i.scope o (table.getD {})).openingLines) n := by
  obtain ⟨c', hruns, hc'⟩ := exists_runs_openingLines hopening w
  rw [hw] at hm ⊢
  exact exists_mirrored hk hruns hc' hm hmark hholds

theorem exists_mirrored_block (hm : i.Measured (i.generate o table).value.code)
    (hopening : (scan (i.scope o (table.getD {})).openingLines).CommentsEnd)
    (hblocks : ∀ b ∈ (Template.parse i.content).code, (scan b.code).errors = [])
    {k : Copy} (hk : k ∈ i.blockCopies o table) :
    ∃ n, i.Mirrored (i.generate o table).value.code [] k n := by
  by_cases hvalid : ComponentName.isValid (ComponentName.ofPath i.path) = true
  · have hholds := holds_block hvalid hk
    have hplaced := hm.file.placed_parse
    have hhead := WriteScope.crosses_headLines (c := i.scope o (table.getD {}))
      (ComponentName.isWord_of_isValid hvalid) (Template.admitted_parse i.content) hplaced
    rw [blockCopies, if_pos hvalid] at hk
    obtain ⟨k, hcopy, rfl⟩ := List.mem_map.1 hk
    have hreach := WriteScope.reaches_blockCopies (c := i.scope o (table.getD {})) hblocks
      hplaced.code k hcopy
    rw [WriteScope.header_append_injections, ← Copy.behind_behind]
    exact exists_mirrored_behind (code_generate_eq hvalid) hm hopening ((hreach.append _).behind hhead) rfl hholds
  · rw [blockCopies, if_neg hvalid] at hk
    cases hk

theorem exists_mirrored_expr {symbols : SymbolTable} (ht : symbols.Nameable)
    (hclean : Diagnostic.hasErrors (i.generate o (some symbols)).value.diagnostics = false)
    (hm : i.Measured (i.generate o (some symbols)).value.code)
    (hopening : (scan (i.scope o symbols).openingLines).CommentsEnd)
    (hblocks : ∀ b ∈ (Template.parse i.content).code, (scan b.code).errors = [])
    {k : Copy} (hk : k ∈ i.exprCopies o symbols) :
    ∃ n, i.Mirrored (i.generate o (some symbols)).value.code [Ascii.atSign] k n := by
  have hvalid := isValid_of_generate hclean
  have hholds := holds_expr hvalid hk
  have hplaced := hm.file.placed_parse
  have hsound := Template.sound_parse (not_faulty_of_generate hclean)
  have hhead := WriteScope.crosses_headLines (c := i.scope o symbols)
    (ComponentName.isWord_of_isValid hvalid) (Template.admitted_parse i.content) hplaced
  have hmembers := WriteScope.crosses_members (c := i.scope o symbols) hplaced hblocks
  have hrender : Crosses true "render \x7b\n" :=
    crosses_opening (t := "render ") .renderKw rfl (crosses_lbrace .nil)
  rw [exprCopies, if_pos hvalid] at hk
  obtain ⟨k, hcopy, rfl⟩ := List.mem_map.1 hk
  have hreach := WriteScope.reaches_nodes_of (c := i.scope o symbols)
    (fun n hn => WriteScope.crosses_node ht (hsound n hn) (hplaced.nodes n hn))
    (fun n hn => WriteScope.reaches_exprCopies ht (hsound n hn) (hplaced.nodes n hn)) k hcopy
  have hbefore : (i.scope o symbols).header i.template (ComponentName.ofPath i.path) ++
      (i.scope o symbols).members i.template ++ "render \x7b\n" = (i.scope o symbols).openingLines ++
        ((i.scope o symbols).headLines i.template (ComponentName.ofPath i.path) ++
          ((i.template.code.flatMap (i.scope o symbols).codeLines ++ "#line default\n") ++
            "render \x7b\n")) := by
    rw [WriteScope.members, ← List.append_assoc (WriteScope.openingLines _), ← header_append_injections]
    simp only [List.append_assoc]
  rw [hbefore, ← Copy.behind_behind]
  exact exists_mirrored_behind (code_generate_some hvalid symbols) hm hopening
    ((hreach.append _).behind (hhead.append (hmembers.append hrender))) rfl hholds

/-- In the file that is written for a template, with or without its markup, every code block keeps its
lines if the comments of the opening lines and all code blocks end. So does every expression of the
markup if the template has no error. -/
theorem mirrored_generate (hm : i.Measured (i.generate o table).value.code)
    (hopening : (scan (i.scope o (table.getD {})).openingLines).CommentsEnd)
    (hblocks : ∀ b ∈ (Template.parse i.content).code, (scan b.code).errors = []) :
    (ComponentName.isValid (ComponentName.ofPath i.path) = true →
        (i.blockCopies o table).map (fun k => (k.span, k.code)) =
          (Template.parse i.content).code.map fun b => (b.span, b.code))
      ∧ (∀ k ∈ i.blockCopies o table, ∃ n, i.Mirrored (i.generate o table).value.code [] k n)
      ∧ ∀ symbols, table = some symbols → symbols.Nameable →
        Diagnostic.hasErrors (i.generate o table).value.diagnostics = false →
          (i.exprCopies o symbols).map (fun k => (k.span, k.code)) =
              Node.allExprs (Template.parse i.content).nodes
            ∧ ∀ k ∈ i.exprCopies o symbols,
              ∃ n, i.Mirrored (i.generate o table).value.code [Ascii.atSign] k n := by
  refine ⟨map_blockCopies, fun k hk => exists_mirrored_block hm hopening hblocks hk, ?_⟩
  rintro symbols rfl ht hclean
  exact ⟨map_exprCopies (isValid_of_generate hclean) symbols,
    fun k hk => exists_mirrored_expr ht hclean hm hopening hblocks hk⟩

/-- A template behind a prologue, with a comment and a field that go over two lines. -/
def totalItem : Item := .ofFile
  { path := "Total.view"
    content := "<p>@(Count +\n  Step)</p>\n@code \x7b\n  /* what\n  counts */ field int Count = 3;\n\x7d
@code \x7b field int Step =\n  1; \x7d"
    kind := .template } "@using Kit\n" "/app/"

def totalOptions : TemplateOptions := { rootNamespace := "App", imports := [] }

theorem mirrored_generate_total :
    totalItem.Measured (totalItem.generate totalOptions (some {})).value.code
      ∧ (scan (totalItem.scope totalOptions {}).openingLines).CommentsEnd
      ∧ (∀ b ∈ (Template.parse totalItem.content).code, (scan b.code).errors = [])
      ∧ SymbolTable.Nameable {}
      ∧ Diagnostic.hasErrors (totalItem.generate totalOptions (some {})).value.diagnostics = false
      ∧ (totalItem.blockCopies totalOptions (some {})).map (fun k => (k.span, k.code)) =
        ([({ line := 4, column := 8 }, "\n  /* what\n  counts */ field int Count = 3;\n"),
          ({ line := 8, column := 8 }, " field int Step =\n  1; ")] : List (Span × Bytes))
      ∧ (∀ k ∈ totalItem.blockCopies totalOptions (some {}),
        ∃ n, totalItem.Mirrored (totalItem.generate totalOptions (some {})).value.code [] k n)
      ∧ (totalItem.exprCopies totalOptions {}).map (fun k => (k.span, k.code)) =
        ([({ line := 2, column := 4 }, "(Count +\n  Step)")] : List (Span × Bytes))
      ∧ ∀ k ∈ totalItem.exprCopies totalOptions {},
        ∃ n, totalItem.Mirrored (totalItem.generate totalOptions (some {})).value.code [Ascii.atSign] k n := by
  -- All of this is read off the template, which is parsed once for it.
  obtain ⟨hfile, hlines, hlength, hopening, hblocks, hclean, hblockCodes, hexprCodes⟩ :
      totalItem.Numbered ∧ totalItem.content.lineFeeds + 1 < 4294967296
        ∧ (totalItem.generate totalOptions (some {})).value.code.length < 4294967296
        ∧ (scan (totalItem.scope totalOptions {}).openingLines).CommentsEnd
        ∧ (∀ b ∈ (Template.parse totalItem.content).code, (scan b.code).errors = [])
        ∧ Diagnostic.hasErrors (totalItem.generate totalOptions (some {})).value.diagnostics = false
        ∧ (Template.parse totalItem.content).code.map (fun b => (b.span, b.code)) =
          ([({ line := 4, column := 8 }, "\n  /* what\n  counts */ field int Count = 3;\n"),
            ({ line := 8, column := 8 }, " field int Step =\n  1; ")] : List (Span × Bytes))
        ∧ Node.allExprs (Template.parse totalItem.content).nodes =
          ([({ line := 2, column := 4 }, "(Count +\n  Step)")] : List (Span × Bytes)) := by
    rw [totalItem]
    repeat rw [Bytes.ofString_ofList]
    decide +kernel
  have hm : totalItem.Measured (totalItem.generate totalOptions (some {})).value.code :=
    ⟨hlines, hfile, hlength⟩
  have ht : SymbolTable.Nameable {} := fun _ hs => absurd hs List.not_mem_nil
  obtain ⟨hcode, hcopies, hmarkup⟩ := mirrored_generate hm hopening hblocks
  obtain ⟨hexprs, hexprCopies⟩ := hmarkup {} rfl ht hclean
  have hname : ComponentName.isValid (ComponentName.ofPath totalItem.path) = true := by decide +kernel
  exact ⟨hm, hopening, hblocks, ht, hclean, (hcode hname).trans hblockCodes, hcopies,
    hexprs.trans hexprCodes, hexprCopies⟩

/-- A template in a project where the root namespace opens a comment. The code block ends it, so the
line directive in front of the block is not read. -/
def openItem : Item where
  name := "Page.view"
  path := "/Page.view"
  physicalPath := "Page.view"
  content := "@code \x7b\n/* x */ field int a = 1;\n\x7d"

def openOptions : TemplateOptions := { rootNamespace := "A; /*", imports := [] }

/-- There is a token of the copied block with a line that no byte of the template is on. -/
theorem not_mirrored_open :
    openItem.Measured (openItem.generate openOptions none).value.code
      ∧ (∀ b ∈ (Template.parse openItem.content).code, (scan b.code).errors = [])
      ∧ ∃ k ∈ openItem.blockCopies openOptions none,
        1 ≤ (k.span.line.toNat : Int) - openItem.lineOffset ∧ k.code.Unhashed
          ∧ ∃ p ∈ placed (openItem.generate openOptions none).value.code,
            k.before.length ≤ p.1 ∧ p.1 < k.before.length + k.code.length
              ∧ ∀ n, p.2.span.line ≠ openItem.userLine (openItem.lineAt n) := by
  have hm : openItem.Measured (openItem.generate openOptions none).value.code :=
    ⟨by decide +kernel, by decide +kernel, by decide +kernel⟩
  have hthree (n : Nat) : openItem.userLine (openItem.lineAt n) ≤ 3 := by
    have hfeeds : Bytes.lineFeeds (openItem.content.take n) ≤ 2 :=
      ((List.take_sublist n openItem.content).count_le Ascii.lf).trans (by decide)
    rw [lineAt]
    generalize Bytes.lineFeeds (openItem.content.take n) = m at hfeeds ⊢
    obtain rfl | rfl | rfl : m = 0 ∨ m = 1 ∨ m = 2 := by omega
    all_goals decide
  have hsix : ∃ k ∈ openItem.blockCopies openOptions none,
      1 ≤ (k.span.line.toNat : Int) - openItem.lineOffset ∧ k.code.Unhashed
        ∧ ∃ p ∈ placed (openItem.generate openOptions none).value.code,
          k.before.length ≤ p.1 ∧ p.1 < k.before.length + k.code.length ∧ p.2.span.line = 6 := by
    decide +kernel
  obtain ⟨k, hk, hfile, hcode, p, hp, hle, hlt, hline⟩ := hsix
  refine ⟨hm, by decide +kernel, k, hk, hfile, hcode, p, hp, hle, hlt, fun n heq => ?_⟩
  have hle := hthree n
  rw [← heq, hline] at hle
  exact absurd hle (by decide)

end Item

end ViewCompiler
