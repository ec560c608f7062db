import ViewCompiler.Proofs.CopiedLines

/-!
Lines of the file a template was prepared from. Each byte of the prepared text is marked with where it
comes from (`Item.marked`); the marks are put on before the text is prepared, and without them it is the
content (`Item.map_fst_marked`). A line of the content is mapped back to the line of the file on which
its bytes stood, also by the reports about the template (`Item.userLine_marked`).
-/

namespace ViewCompiler

/-! ## Reports stand at bytes of the text -/

namespace Source

/-- A byte of the source is at the place `span`. -/
def HasByte (s : Source) (span : Span) : Prop := ∃ n < s.rest.length, (s.drop n).span = span

theorem Behind.hasByte {start s : Source} (h : start.Behind s) (hs : s.rest ≠ []) :
    start.HasByte s.span := by
  obtain ⟨n, rfl⟩ := h
  refine ⟨n, ?_, rfl⟩
  rw [rest_drop, ne_eq, List.drop_eq_nil_iff] at hs
  exact Nat.lt_of_not_le hs

end Source

/-- All reports are about places with the property `Q`. -/
def ReportedAt (Q : Span → Prop) (es : List TemplateReport) : Prop := ∀ r ∈ es, Q r.1

section
variable {Q : Span → Prop} {es es' : List TemplateReport} {span : Span} {e : TemplateError}

theorem ReportedAt.nil : ReportedAt Q [] := by simp [ReportedAt]

theorem ReportedAt.singleton (h : Q span) : ReportedAt Q [(span, e)] := List.forall_mem_singleton.2 h

theorem ReportedAt.append (h : ReportedAt Q es) (h' : ReportedAt Q es') : ReportedAt Q (es ++ es') :=
  List.forall_mem_append.2 ⟨h, h'⟩

end

variable {start s : Source}

namespace Attribute

theorem reportedAt_check {Q : Span → Prop} {span : Span} (hspan : Q span) (name : Bytes)
    (value : Option Bytes) (rest : Source) : ReportedAt Q (check span name value rest).errors := by
  rw [check]
  split
  · exact .singleton hspan
  split
  · exact .nil
  split
  · exact .nil
  · exact .singleton hspan

theorem reportedAt_scan (tag : Bytes) (h : start.Behind s) :
    ReportedAt start.HasByte (scan tag s).errors := by
  rw [scan]
  split
  · exact .nil
  next b bs hs =>
  have hspan : start.HasByte s.span := h.hasByte (by rw [hs]; exact List.cons_ne_nil b bs)
  split
  · dsimp only
    split
    · split
      · exact reportedAt_check hspan _ _ _
      · exact .singleton hspan
    · exact reportedAt_check hspan _ _ _
  · exact .singleton hspan

end Attribute

theorem TagBody.reportedAt_scan {span : Span} (tag : Bytes) (attributes : List Attribute)
    (hspan : start.HasByte span) (h : start.Behind s) :
    ReportedAt start.HasByte (scan span tag attributes s).errors := by
  have abandoned (attributes : List Attribute) (s : Source) : (abandon attributes s).errors = [] := by
    rw [abandon]
    split <;> rfl
  fun_induction scan span tag attributes s with
  | case1 => exact .singleton hspan
  | case2 | case3 => exact .nil
  | case4 attributes s s' h₁ h₂ h₃ a ha r =>
    exact (Attribute.reportedAt_scan tag (h.dropWhile _)).append (by rw [abandoned]; exact .nil)
  | case5 attributes s s' h₁ h₂ h₃ a next ha r ih =>
    have hattribute := h.dropWhile Ascii.isSpace
    exact (Attribute.reportedAt_scan tag hattribute).append (ih (Attribute.behind_scan tag hattribute))

namespace Piece

/-- The places about which a piece may have to be reported when it is taken into a draft have the
property `Q`. -/
def StandsAt (Q : Span → Prop) : Piece → Prop
  | startTag span _ _ _ | endTag span _ | directive span _ _ _ | code span _ _ => Q span
  | text _ _ | expr _ _ | gap => True

/-- What is and what may be reported of the piece is about bytes of the source. -/
def Reports (start : Source) (r : Scanned Piece) : Prop :=
  r.value.StandsAt start.HasByte ∧ ReportedAt start.HasByte r.errors

theorem reports_comment {close : Bytes} {span : Span} (hspan : start.HasByte span) (s : Source) :
    Reports start (comment close span s) := by
  rw [comment]
  split
  · exact ⟨trivial, .nil⟩
  · exact ⟨trivial, .singleton hspan⟩

theorem reports_expression {span : Span} (hspan : start.HasByte span) (code : Bytes) (rest : Source) :
    Reports start (expression span code rest) := by
  rw [expression]
  split
  · exact ⟨trivial, .nil⟩
  · exact ⟨trivial, .singleton hspan⟩

theorem reports_transition (inWord : Bool) (hspan : start.HasByte s.span) :
    Reports start (transition inWord s) := by
  rw [transition]
  dsimp only
  split
  · exact ⟨trivial, .nil⟩
  split
  · exact reports_comment hspan _
  split
  · exact ⟨trivial, .nil⟩
  split
  · rw [parenthesized]
    split
    · exact reports_expression hspan _ _
    · exact ⟨trivial, .singleton hspan⟩
  split
  · exact reports_expression hspan _ _
  · exact ⟨trivial, .singleton hspan⟩

theorem reports_scan (inWord : Bool) (h : start.Behind s) (hs : s.rest ≠ []) :
    Reports start (scan inWord s) := by
  have hspan := h.hasByte hs
  rw [scan]
  split
  · split
    · rw [ofDirective]
      dsimp only
      split <;> exact ⟨hspan, .nil⟩
    · exact reports_transition inWord hspan
  split
  · exact reports_comment hspan _
  split
  · rw [ofEndTag]
    split
    · exact ⟨hspan, .nil⟩
    · exact ⟨hspan, .singleton hspan⟩
  split
  · exact ⟨hspan, TagBody.reportedAt_scan _ [] hspan (h.drop _)⟩
  · exact ⟨trivial, .nil⟩

theorem reports_scanAll (inWord : Bool) (h : start.Behind s) :
    ∀ p ∈ scanAll inWord s, p.1.StandsAt start.HasByte ∧ ReportedAt start.HasByte p.2 := by
  fun_induction scanAll inWord s with
  | case1 => simp
  | case2 inWord s hs r ih =>
    exact List.forall_mem_cons.2 ⟨reports_scan inWord h hs, ih (moves_scan h).2⟩

end Piece

namespace Draft

variable {Q : Span → Prop} {d : Draft}

/-- The elements that are open, and will be reported if they are not closed, stand where `Q` holds. -/
def openedAt (Q : Span → Prop) : MarkupInvariant where
  node _ := True
  element e := Q e.span
  outside _ := True
  node_text _ _ := trivial
  node_of_element _ := trivial
  element_push h _ := h

theorem meets_openedAt {p : Piece} (h : p.StandsAt Q) : p.Meets (openedAt Q) := by
  cases p with
  | startTag => exact h
  | directive | code => exact fun _ _ _ _ => trivial
  | text | expr | endTag | gap => trivial

theorem reportedAt_opened {es : List OpenElement} (h : ∀ e ∈ es, Q e.span) :
    ReportedAt Q (es.map (·.report)) := by
  intro r hr
  obtain ⟨e, he, rfl⟩ := List.mem_map.1 hr
  exact h e he

theorem reportedAt_reportPlace {span : Span} (hspan : Q span) (h : ReportedAt Q d.template.errors)
    (atLineStart : Bool) (k : DirectiveKeyword) :
    ReportedAt Q (d.reportPlace span atLineStart k).template.errors := by
  rw [reportPlace]
  split
  · exact h
  · exact h.append (.singleton hspan)

theorem reportedAt_add {p : Piece} (hopen : d.Keeps (openedAt Q)) (h : ReportedAt Q d.template.errors)
    (hp : p.StandsAt Q) : ReportedAt Q (d.add p).template.errors := by
  have hend : ReportedAt Q d.endText.template.errors := by rwa [errors_endText]
  cases p with
  | text span t =>
    rw [add, addText]
    split <;> exact h
  | gap => exact hend
  | expr span code =>
    rw [add, errors_addNode]
    exact hend
  | startTag span tag attributes opens =>
    rw [add]
    split
    · exact hend
    · rw [errors_addNode]
      exact hend
  | endTag span tag =>
    rw [add, endTag]
    split
    · exact hend.append (.singleton hp)
    · rw [errors_close]
      exact hend.append (reportedAt_opened fun e he => hopen.endText.opened e (List.mem_of_mem_take he))
  | directive span atLineStart k argument =>
    rw [add]
    split
    · split
      · next t ht =>
        rw [← (nodes_directive ht).2] at hend
        exact hend
      · exact hend.append (.singleton hp)
    · exact reportedAt_reportPlace hp hend _ _
  | code span atLineStart block =>
    have hplace := reportedAt_reportPlace hp hend atLineStart .code
    cases block with
    | error e => exact hplace.append (.singleton hp)
    | ok block =>
      dsimp only [add]
      split <;> exact hplace

theorem reportedAt_foldl_step {ps : List (Piece × List TemplateReport)}
    (hps : ∀ p ∈ ps, p.1.StandsAt Q ∧ ReportedAt Q p.2) (hopen : d.Keeps (openedAt Q))
    (h : ReportedAt Q d.template.errors) :
    ReportedAt Q (ps.foldl Draft.step d).finish.errors := by
  induction ps generalizing d with
  | nil =>
    rw [List.foldl_nil, finish, errors_close]
    refine ReportedAt.append (by rwa [errors_endText]) (reportedAt_opened fun e he => ?_)
    exact hopen.endText.opened e (List.mem_reverse.1 he)
  | cons p ps ih =>
    rw [List.forall_mem_cons] at hps
    obtain ⟨⟨hp, hes⟩, hps⟩ := hps
    have hreport : ReportedAt Q (d.report p.2).template.errors := h.append hes
    have hkeeps : (d.report p.2).Keeps (openedAt Q) := hopen.report p.2
    exact ih hps (hkeeps.add (meets_openedAt hp)) (reportedAt_add hkeeps hreport hp)

end Draft

/-- All that is reported of a template is about a byte of its text. -/
theorem Template.reportedAt_parse (text : Bytes) :
    ReportedAt (Source.HasByte { rest := text }) (Template.parse text).errors :=
  Draft.reportedAt_foldl_step (Piece.reports_scanAll false (.refl _))
    ⟨by simp, by simp, by simp, trivial⟩ .nil

/-! ## Where the bytes of the content come from -/

namespace Item

/-- A byte of the prologue or of the file, by its offset there. -/
inductive Origin where
  | prologue (offset : Nat)
  | file (offset : Nat)
deriving DecidableEq, Repr

namespace Origin

/-- The byte that stands there. -/
def byte? (prologue content : Bytes) : Origin → Option UInt8
  | .prologue n => prologue[n]?
  | .file n => content[n]?

/-- The line of the file that the byte belongs to. The prologue belongs to the first one. -/
def line (content : Bytes) : Origin → Nat
  | .prologue _ => 1
  | .file n => 1 + Bytes.lineFeeds (content.take n)

end Origin

/-- The bytes of the prologue and of the file with their origins. -/
def markedText (prologue content : Bytes) : List (UInt8 × Origin) :=
  prologue.zipIdx.map (fun p => (p.1, .prologue p.2)) ++ content.zipIdx.map (fun p => (p.1, .file p.2))

/-- The bytes of a prepared text with their origins: those that are left when the carriage returns and
the leading blanks are cut. -/
def marked (prologue content : Bytes) : List (UInt8 × Origin) :=
  ((markedText prologue content).filter (·.1 ≠ Ascii.cr)).dropWhile (Ascii.isSpace ·.1)

section
variable {α β : Type}

theorem map_filter_comp (f : α → β) (p : β → Bool) (xs : List α) :
    (xs.filter fun x => p (f x)).map f = (xs.map f).filter p := by
  rw [List.filter_map]
  rfl

theorem map_dropWhile_comp (f : α → β) (p : β → Bool) (xs : List α) :
    (xs.dropWhile fun x => p (f x)).map f = (xs.map f).dropWhile p := by
  rw [List.dropWhile_map]
  rfl

/-- What a filter has left of a list up to one of its members. -/
theorem exists_of_getElem?_filter {p : α → Bool} {xs : List α} {x : α} {n : Nat}
    (h : (xs.filter p)[n]? = some x) :
    ∃ us vs, xs = us ++ x :: vs ∧ (xs.filter p).take n = us.filter p := by
  obtain ⟨hlt, hx⟩ := List.getElem?_eq_some_iff.1 h
  have hsplit : xs.filter p = (xs.filter p).take n ++ x :: (xs.filter p).drop (n + 1) := by
    rw [← hx, ← List.drop_eq_getElem_cons hlt, List.take_append_drop]
  obtain ⟨us, ws, rfl, hus, hws⟩ := List.filter_eq_append_iff.1 hsplit
  obtain ⟨vs, zs, rfl, hvs, -, -⟩ := List.filter_eq_cons_iff.1 hws
  refine ⟨us ++ vs, zs, by rw [List.append_assoc], ?_⟩
  rw [← hus, List.filter_append, List.filter_eq_nil_iff.2 hvs, List.append_nil]

end

/-- What stands in front of a byte in the text of both. -/
def Origin.before (prologue content : Bytes) : Origin → Bytes
  | .prologue n => prologue.take n
  | .file n => prologue ++ content.take n

variable {prologue content us : Bytes} {b : UInt8} {o : Origin}

theorem map_fst_markedText (prologue content : Bytes) :
    (markedText prologue content).map Prod.fst = prologue ++ content := by
  have hfst (f : Nat → Origin) (bs : Bytes) :
      (bs.zipIdx.map fun p => (p.1, f p.2)).map Prod.fst = bs := by
    rw [List.map_map]
    exact List.zipIdx_map_fst 0 bs
  rw [markedText, List.map_append, hfst, hfst]

/-- The mark of a byte says which one it is. -/
theorem of_markedText_eq {us vs : List (UInt8 × Origin)}
    (h : markedText prologue content = us ++ (b, o) :: vs) :
    o.byte? prologue content = some b ∧ us.map Prod.fst = o.before prologue content := by
  have hget : (markedText prologue content)[us.length]? = some (b, o) := by
    rw [h, List.getElem?_append_right (Nat.le_refl _), Nat.sub_self]
    rfl
  have hfront : us.map Prod.fst = (prologue ++ content).take us.length := by
    rw [← map_fst_markedText, ← List.map_take, h, List.take_left]
  have hlength : (prologue.zipIdx.map fun p => (p.1, Origin.prologue p.2)).length = prologue.length := by
    rw [List.length_map, List.length_zipIdx]
  rw [markedText] at hget
  by_cases hlt : us.length < prologue.length
  · rw [List.getElem?_append_left (by rwa [hlength]), List.getElem?_map, List.getElem?_zipIdx,
      Option.map_map, Option.map_eq_some_iff] at hget
    obtain ⟨x, hx, heq⟩ := hget
    obtain ⟨rfl, rfl⟩ := Prod.mk.inj heq
    rw [List.take_append_of_le_length (Nat.le_of_lt hlt)] at hfront
    simpa [Origin.byte?, Origin.before] using ⟨hx, hfront⟩
  · rw [List.getElem?_append_right (by rw [hlength]; omega), hlength, List.getElem?_map,
      List.getElem?_zipIdx, Option.map_map, Option.map_eq_some_iff] at hget
    obtain ⟨x, hx, heq⟩ := hget
    obtain ⟨rfl, rfl⟩ := Prod.mk.inj heq
    rw [List.take_append, List.take_of_length_le (by omega)] at hfront
    simpa [Origin.byte?, Origin.before] using ⟨hx, hfront⟩

theorem withoutReturns_append (s t : Bytes) :
    withoutReturns (s ++ t) = withoutReturns s ++ withoutReturns t := List.filter_append s t

theorem map_fst_filter_markedText (prologue content : Bytes) :
    ((markedText prologue content).filter (·.1 ≠ Ascii.cr)).map Prod.fst =
      withoutReturns (prologue ++ content) := by
  rw [map_filter_comp Prod.fst (fun b => decide (b ≠ Ascii.cr)), map_fst_markedText, withoutReturns]

variable {file : SourceFile} {workingDirectory : Bytes}

theorem content_ofFile : (ofFile file prologue workingDirectory).content =
    (withoutReturns (prologue ++ file.content)).dropWhile Ascii.isSpace := by
  rw [withoutReturns_append]
  rfl

theorem lineOffset_ofFile : (ofFile file prologue workingDirectory).lineOffset =
    (prologue.lineFeeds : Int) -
      Bytes.lineFeeds ((withoutReturns (prologue ++ file.content)).takeWhile Ascii.isSpace) := by
  rw [withoutReturns_append, ← lineFeeds_withoutReturns prologue]
  rfl

/-- The marked bytes are those of the content. -/
theorem map_fst_marked (file : SourceFile) (prologue workingDirectory : Bytes) :
    (marked prologue file.content).map Prod.fst =
      (ofFile file prologue workingDirectory).content := by
  rw [marked, map_dropWhile_comp Prod.fst Ascii.isSpace, map_fst_filter_markedText, content_ofFile]

/-- The lines in front of a byte of the content, and those that were cut, are the lines in front of the
byte where it comes from. -/
theorem lineFeeds_before (workingDirectory : Bytes) {k : Nat} (h : (marked prologue file.content)[k]? = some (b, o)) :
    o.byte? prologue file.content = some b ∧
      Bytes.lineFeeds ((withoutReturns (prologue ++ file.content)).takeWhile Ascii.isSpace) +
        Bytes.lineFeeds ((ofFile file prologue workingDirectory).content.take k) =
          (o.before prologue file.content).lineFeeds := by
  let kept := (markedText prologue file.content).filter (·.1 ≠ Ascii.cr)
  let blanks := kept.takeWhile (Ascii.isSpace ·.1)
  have hkept : kept = blanks ++ marked prologue file.content := List.takeWhile_append_dropWhile.symm
  have hfst : kept.map Prod.fst = withoutReturns (prologue ++ file.content) :=
    map_fst_filter_markedText _ _
  have hblanks : blanks.map Prod.fst =
      (withoutReturns (prologue ++ file.content)).takeWhile Ascii.isSpace := by
    rw [← hfst, List.takeWhile_map]
    rfl
  have hget : kept[blanks.length + k]? = some (b, o) := by
    rw [hkept, List.getElem?_append_right (Nat.le_add_right _ _), Nat.add_sub_cancel_left, h]
  obtain ⟨us, vs, hmarked, htake⟩ := exists_of_getElem?_filter hget
  obtain ⟨hbyte, hbefore⟩ := of_markedText_eq hmarked
  have hfront : blanks.map Prod.fst ++ (ofFile file prologue workingDirectory).content.take k =
      withoutReturns (o.before prologue file.content) := by
    have hpart : kept.take (blanks.length + k) =
        blanks ++ (marked prologue file.content).take k := by
      rw [hkept, List.take_length_add_append]
    rw [← map_fst_marked file prologue workingDirectory, ← List.map_take, ← List.map_append, ← hpart,
      ← hbefore, withoutReturns, ← map_filter_comp Prod.fst (fun b => decide (b ≠ Ascii.cr))]
    exact congrArg (List.map Prod.fst) htake
  refine ⟨hbyte, ?_⟩
  rw [← hblanks, ← Bytes.lineFeeds_append, hfront, lineFeeds_withoutReturns]

/-- The lines that were cut and those of the content are the lines of the prologue and of the file. -/
theorem lineFeeds_content_ofFile (file : SourceFile) (prologue workingDirectory : Bytes) :
    Bytes.lineFeeds ((withoutReturns (prologue ++ file.content)).takeWhile Ascii.isSpace) +
      (ofFile file prologue workingDirectory).content.lineFeeds =
        prologue.lineFeeds + file.content.lineFeeds := by
  rw [content_ofFile, lineFeeds_takeWhile_add_dropWhile, lineFeeds_withoutReturns, Bytes.lineFeeds_append]

/-- The line on which a byte of the content stands is mapped to that of the byte it comes from. -/
theorem toNat_userLine_lineAt {k : Nat} (hprologue : prologue.lineFeeds < 2147483648)
    (hfile : file.content.lineFeeds < 2147483648)
    (h : (marked prologue file.content)[k]? = some (b, o)) :
    ((ofFile file prologue workingDirectory).userLine
      ((ofFile file prologue workingDirectory).lineAt k)).toNat = o.line file.content := by
  obtain ⟨-, hbefore⟩ := lineFeeds_before workingDirectory h
  have hcontent := lineFeeds_content_ofFile file prologue workingDirectory
  have htake : Bytes.lineFeeds ((ofFile file prologue workingDirectory).content.take k) ≤
      (ofFile file prologue workingDirectory).content.lineFeeds := (List.take_sublist _ _).count_le _
  have hline : ((ofFile file prologue workingDirectory).lineAt k).toNat =
      Bytes.lineFeeds ((ofFile file prologue workingDirectory).content.take k) + 1 :=
    UInt32.toNat_ofNat_of_lt' (by rw [UInt32.size]; omega)
  rw [userLine, hline, lineOffset_ofFile]
  cases o with
  | prologue n =>
    have hprefix : Bytes.lineFeeds (prologue.take n) ≤ prologue.lineFeeds :=
      (List.take_sublist _ _).count_le _
    rw [Origin.before] at hbefore
    have hlow : ((Bytes.lineFeeds ((ofFile file prologue workingDirectory).content.take k) + 1 : Nat) : Int)
        - (prologue.lineFeeds - Bytes.lineFeeds
          ((withoutReturns (prologue ++ file.content)).takeWhile Ascii.isSpace)) ≤ 1 := by
      omega
    split
    · rfl
    · next hnot =>
      have hone := Int.le_antisymm hlow (Int.not_lt.1 hnot)
      rw [hone]
      rfl
  | file n =>
    have hprefix : Bytes.lineFeeds (file.content.take n) ≤ file.content.lineFeeds :=
      (List.take_sublist _ _).count_le _
    rw [Origin.before, Bytes.lineFeeds_append] at hbefore
    have hmapped : ((Bytes.lineFeeds ((ofFile file prologue workingDirectory).content.take k) + 1 : Nat) : Int)
        - (prologue.lineFeeds - Bytes.lineFeeds
          ((withoutReturns (prologue ++ file.content)).takeWhile Ascii.isSpace)) =
            ((1 + Bytes.lineFeeds (file.content.take n) : Nat) : Int) := by
      omega
    rw [hmapped, if_neg (by omega), Int.toNat_natCast]
    exact UInt32.toNat_ofNat_of_lt' (by rw [UInt32.size]; omega)

/-- A place of the text of the content is on the line of its byte. -/
theorem line_drop {i : Item} (h : i.content.lineFeeds + 1 < 4294967296) (k : Nat) :
    (Source.drop { rest := i.content } k).span.line = i.lineAt k := by
  have htake : Bytes.lineFeeds (i.content.take k) ≤ i.content.lineFeeds :=
    (List.take_sublist _ _).count_le _
  have hline : (Source.drop { rest := i.content } k).span.line.toNat =
      1 + Bytes.lineFeeds (i.content.take k) :=
    Position.line_steps (p := {}) (by change 1 + Bytes.lineFeeds (i.content.take k) < _; omega)
  rw [lineAt, Nat.add_comm, ← hline, UInt32.ofNat_toNat]

/-- The lines of a prepared file are mapped back to its own. The offset that does it fits into 32 bits.
The marked bytes are those of the content, and each of them is the one it is marked as; its line in the
content is mapped to its line in the file, or to the first one if it comes from the prologue. All that
is reported of the template is about one of the bytes, and is located on the line of that byte. -/
theorem userLine_marked {file : SourceFile} {prologue : Bytes} (workingDirectory : Bytes)
    (hprologue : prologue.lineFeeds < 2147483648) (hfile : file.content.lineFeeds < 2147483648) :
    let i := ofFile file prologue workingDirectory
    (-2147483648 ≤ i.lineOffset ∧ i.lineOffset < 2147483648) ∧
    (marked prologue file.content).map Prod.fst = i.content ∧
    (∀ (k : Nat) (b : UInt8) (o : Origin), (marked prologue file.content)[k]? = some (b, o) →
      o.byte? prologue file.content = some b ∧
        (i.userLine (i.lineAt k)).toNat = o.line file.content) ∧
    ∀ r ∈ (Template.parse i.content).errors,
      ∃ (k : Nat) (b : UInt8) (o : Origin), (marked prologue file.content)[k]? = some (b, o) ∧
        r.1 = (Source.drop { rest := i.content } k).span ∧
        ∃ line : UInt32, line.toNat = o.line file.content ∧
          (i.diagnostic r).location = some { file := file.path, span := { line, column := r.1.column } } := by
  intro i
  have hcontent : _ + i.content.lineFeeds = _ := lineFeeds_content_ofFile file prologue workingDirectory
  have hoffset : i.lineOffset = _ := lineOffset_ofFile
  refine ⟨by omega, map_fst_marked file prologue workingDirectory, fun k b o h => ?_, fun r hr => ?_⟩
  · exact ⟨(lineFeeds_before workingDirectory h).1,
      toNat_userLine_lineAt hprologue hfile h⟩
  · obtain ⟨k, hk, hspan⟩ := Template.reportedAt_parse i.content r hr
    have hlt : k < (marked prologue file.content).length := by
      rw [← List.length_map (f := Prod.fst), map_fst_marked file prologue workingDirectory]
      exact hk
    refine ⟨k, _, _, List.getElem?_eq_getElem hlt, hspan.symm, i.userLine r.1.line, ?_, rfl⟩
    rw [← hspan, line_drop (by omega)]
    exact toNat_userLine_lineAt hprologue hfile (List.getElem?_eq_getElem hlt)

/-- A page that starts with an empty line. -/
def indexPage : SourceFile := { path := "Index.view", content := "\r\n<h1>\r\nHi @ </h1>", kind := .template }

/-- Behind a prologue of two lines, the first of which is cut, the at sign of the page is on line 4 of the
content and on line 3 of the page. The prologue is ascribed to line 1. -/
theorem userLine_marked_index :
    Bytes.lineFeeds "\n<Theme>\r\n" < 2147483648 ∧ indexPage.content.lineFeeds < 2147483648 ∧
      (marked "\n<Theme>\r\n" indexPage.content)[17]? = some (Ascii.atSign, .file 11) ∧
      ((ofFile indexPage "\n<Theme>\r\n" "/").userLine 4).toNat = 3 ∧
      ((ofFile indexPage "\n<Theme>\r\n" "/").userLine 1).toNat = 1 :=
  have hprologue : Bytes.lineFeeds "\n<Theme>\r\n" < 2147483648 := by decide
  have hfile : indexPage.content.lineFeeds < 2147483648 := by decide
  have hlines := (userLine_marked "/" hprologue hfile).2.2.1
  ⟨hprologue, hfile, rfl, (hlines 17 _ _ rfl).2, (hlines 0 _ _ rfl).2⟩

end Item

end ViewCompiler
