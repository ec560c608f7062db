import ViewCompiler.Proofs.TemplateRoundTrip
import ViewCompiler.Proofs.TemplateSoundness

/-!
Addresses in text: an at sign behind a letter, a digit or an underscore is text, unless the word behind
it is a keyword of a directive. Directives are looked for first, so `jane@page` is one that may not
stand there (`Template.parse_address`).
-/

namespace ViewCompiler

/-! ## Keywords are words -/

/-- A text starts with a word that ends there if the word is all it has in front of other bytes. -/
theorem startsWith_word {p : UInt8 → Bool} {w : Bytes} (hw : w.all p = true) (bs : Bytes) :
    (bs.startsWith w && !(bs.drop w.length).head?.any p) = true ↔ bs.takeWhile p = w := by
  rw [Bool.and_eq_true, Bool.not_eq_true', Bytes.startsWith, List.isPrefixOf_iff_prefix]
  constructor
  · rintro ⟨⟨rest, rfl⟩, hstop⟩
    rw [List.drop_left] at hstop
    cases rest with
    | nil =>
      rw [List.append_nil]
      exact List.takeWhile_eq_self_iff.2 (List.all_eq_true.1 hw)
    | cons x xs => exact takeWhile_append_stop hw (by simpa using hstop) xs
  · rintro rfl
    refine ⟨List.takeWhile_prefix p, ?_⟩
    have hdrop : bs.drop (bs.takeWhile p).length = bs.dropWhile p :=
      (congrArg (List.drop _) List.takeWhile_append_dropWhile.symm).trans List.drop_left
    rw [hdrop]
    have hstop := List.head?_dropWhile_not p bs
    cases hhead : (bs.dropWhile p).head? with
    | none => rfl
    | some x => simpa [hhead] using hstop

namespace DirectiveKeyword

theorem all_text (k : DirectiveKeyword) : k.text.all Ascii.isNameByte = true := by cases k <;> rfl

theorem mem_all (k : DirectiveKeyword) : k ∈ all := by cases k <;> decide

theorem text_injective {k k' : DirectiveKeyword} (h : k.text = k'.text) : k = k' := by
  cases k <;> cases k' <;> first | rfl | cases h

end DirectiveKeyword

namespace Piece

variable {s : Source} {ys : Bytes}

/-- A directive is one whose keyword is the whole word behind the at sign. -/
theorem keyword?_eq_some_iff {bs : Bytes} {k : DirectiveKeyword} :
    keyword? bs = some k ↔ bs.takeWhile Ascii.isNameByte = k.text := by
  rw [keyword?]
  constructor
  · intro h
    have hk := List.find?_some h
    exact (startsWith_word k.all_text bs).1 hk
  · intro h
    cases hfind : DirectiveKeyword.all.find? fun k =>
        bs.startsWith k.text && !(bs.drop k.text.length).head?.any Ascii.isNameByte with
    | none =>
      have hk := List.find?_eq_none.1 hfind k k.mem_all
      exact absurd ((startsWith_word k.all_text bs).2 h) hk
    | some k' =>
      have hk' := List.find?_some hfind
      have hword := (startsWith_word k'.all_text bs).1 hk'
      rw [DirectiveKeyword.text_injective (hword.symm.trans h)]

theorem scan_keyword {k : DirectiveKeyword} (inWord : Bool) (hs : s.rest = Ascii.atSign :: ys)
    (hk : keyword? ys = some k) : scan inWord s = ofDirective k s := by
  rw [scan, hs]
  simp only [List.head?_cons, List.tail_cons, if_true, hk]

/-- In a word, an at sign in front of a word is text. -/
theorem scan_inWord {b : UInt8} (hb : Ascii.isNameByte b = true)
    (hs : s.rest = Ascii.atSign :: b :: ys) (hk : keyword? (b :: ys) = none) :
    scan true s = { value := text s.span "@", rest := s.drop 1 } := by
  have hat : some b ≠ some Ascii.atSign := by
    rintro ⟨⟩
    cases hb
  have hstar : some b ≠ some Ascii.star := by
    rintro ⟨⟩
    cases hb
  rw [scan, hs]
  simp only [List.head?_cons, List.tail_cons, if_true, hk, transition, hs, if_neg hat, if_neg hstar]

end Piece

/-- Bytes that are printed as they are. -/
theorem Node.flatMap_printByte {t : Bytes} (h : Ascii.atSign ∉ t) : t.flatMap printByte = t := by
  induction t with
  | nil => rfl
  | cons b t ih =>
    rw [List.mem_cons, not_or] at h
    rw [List.flatMap_cons, ih h.2, printByte, if_neg (Ne.symm h.1)]
    rfl

namespace Draft

variable {d : Draft} {inWord : Bool} {s : Source} {ys : Bytes}

/-! ## Drafts -/

theorem readAll_of_scan (hs : s.rest ≠ []) :
    d.readAll inWord s = (d.step ((Piece.scan inWord s).value, (Piece.scan inWord s).errors)).readAll
      (Piece.scan inWord s).value.endsInName (Piece.scan inWord s).rest := by
  rw [readAll, Piece.scanAll, dif_neg hs, List.foldl_cons]
  rfl

theorem readAll_of_nil (hs : s.rest = []) : d.readAll inWord s = d := by
  rw [readAll, Piece.scanAll, dif_pos hs]
  rfl

theorem errors_subset_step (d : Draft) (p : Piece × List TemplateReport) :
    d.template.errors ⊆ (d.step p).template.errors :=
  List.Subset.trans (errors_subset_report d p.2) (errors_subset_add _ p.1)

theorem errors_subset_readAll (d : Draft) (inWord : Bool) (s : Source) :
    d.template.errors ⊆ (d.readAll inWord s).template.errors := by
  rw [readAll]
  induction Piece.scanAll inWord s generalizing d with
  | nil => exact List.Subset.refl _
  | cons p ps ih => exact List.Subset.trans (errors_subset_step d p) (ih _)

theorem errors_subset_finish (d : Draft) : d.template.errors ⊆ d.finish.errors := by
  rw [finish, errors_close, ← errors_endText]
  exact errors_subset_report _ _

theorem opened_addNode_ne_nil (n : Node) (hd : d.opened ≠ []) : (d.addNode n).opened ≠ [] := by
  rw [addNode]
  split
  · contradiction
  · exact List.cons_ne_nil _ _

theorem opened_endText_ne_nil (hd : d.opened ≠ []) : d.endText.opened ≠ [] := by
  rw [endText]
  split
  · exact hd
  · exact opened_addNode_ne_nil _ hd

/-- In an element nothing is placed, so a directive is reported. -/
theorem reportPlace_of_opened (hd : d.opened ≠ []) (span : Span) (atLineStart : Bool)
    (k : DirectiveKeyword) : d.endText.isPlaced atLineStart = false ∧
      (span, .misplacedDirective k) ∈ (d.endText.reportPlace span atLineStart k).template.errors := by
  have hplace : d.endText.isPlaced atLineStart = false := by
    rw [isPlaced, List.isEmpty_eq_false_iff.2 (opened_endText_ne_nil hd), Bool.and_false]
  refine ⟨hplace, ?_⟩
  rw [reportPlace, hplace, if_neg Bool.false_ne_true]
  exact List.mem_append_right _ (List.mem_singleton.2 rfl)

theorem mem_errors_add_directive (hd : d.opened ≠ []) (span : Span) (atLineStart : Bool)
    (k : DirectiveKeyword) (argument : Bytes) : (span, .misplacedDirective k) ∈
      (d.add (.directive span atLineStart k argument)).template.errors := by
  obtain ⟨hplace, hmem⟩ := reportPlace_of_opened hd span atLineStart k
  rw [add, hplace, if_neg Bool.false_ne_true]
  exact hmem

theorem mem_errors_add_code (hd : d.opened ≠ []) (span : Span) (atLineStart : Bool)
    (block : Except TemplateError CodeBlock) : (span, .misplacedDirective .code) ∈
      (d.add (.code span atLineStart block)).template.errors := by
  obtain ⟨hplace, hmem⟩ := reportPlace_of_opened hd span atLineStart .code
  cases block with
  | error e => exact errors_subset_report _ _ hmem
  | ok block =>
    dsimp only [add]
    rw [hplace, if_neg Bool.false_ne_true]
    exact hmem

/-- In an element a directive is reported, whatever comes with it. -/
theorem mem_errors_ofDirective (hd : d.opened ≠ []) (k : DirectiveKeyword) (s : Source) :
    (s.span, .misplacedDirective k) ∈
      (d.step ((Piece.ofDirective k s).value, (Piece.ofDirective k s).errors)).template.errors := by
  rw [step, Piece.ofDirective]
  split
  · next hk =>
    subst hk
    exact mem_errors_add_code (d := d.report []) hd _ _ _
  · exact mem_errors_add_directive (d := d.report []) hd _ _ _ _

/-! ## Text in an element -/

/-- A draft in a paragraph that has text so far. -/
def InParagraph (t : Bytes) (d : Draft) : Prop :=
  ∃ span start, d = { opened := [{ span, tag := "p", attributes := [] }], text := some (start, t) }

theorem reads_paragraph {t : Bytes} (hne : t ≠ []) (ht : Ascii.less ∉ t) :
    Reads {} false (Node.printStart "p" [] ++ t.flatMap Node.printByte) fun d w =>
      d.InParagraph t ∧ w = t.getLast?.any Ascii.isNameByte := by
  refine Reads.trans (P := fun d w => w = false ∧
    ∃ span, d = { opened := [{ span, tag := "p", attributes := [] }] }) ?_ ?_
  · refine .piece (by decide) fun s ys hs => ?_
    obtain ⟨read, r, hscan, hsame, hr⟩ := Piece.scan_startTag rfl rfl (by simp) false hs
    obtain rfl : read = [] := List.map_eq_nil_iff.1 hsame
    exact ⟨_, r, hscan, hr, rfl, s.span, rfl⟩
  rintro _ _ ⟨rfl, span, rfl⟩
  refine (reads_start hne ht rfl).mono ?_
  rintro _ _ ⟨start, rfl, rfl⟩
  exact ⟨⟨span, start, rfl⟩, rfl⟩

/-- Text that goes on to the end of its paragraph. -/
theorem reads_paragraph_end {before t : Bytes} (ht : Ascii.less ∉ t) (hd : d.InParagraph before)
    (hw : inWord = before.getLast?.any Ascii.isNameByte) :
    d.Reads inWord (t.flatMap Node.printByte ++ Node.printEnd "p") fun d' _ => ∃ span start,
      d' = { template := { nodes := [.element span "p" [] [.text start (before ++ t)]] } } := by
  obtain ⟨span, start, rfl⟩ := hd
  refine (reads_more ht rfl hw).trans ?_
  rintro _ w ⟨rfl, rfl⟩
  refine .piece (by decide) fun s ys hs => ?_
  obtain ⟨r, hscan, hr⟩ := Piece.scan_endTag rfl rfl _ hs
  exact ⟨_, r, hscan, hr, span, start, rfl⟩

/-- Behind a name in a paragraph, a keyword is reported. -/
theorem InParagraph.mem_errors_readAll {name : Bytes} (hd : d.InParagraph name) (inWord : Bool)
    (hs : s.rest = Ascii.atSign :: ys) {k : DirectiveKeyword} (hk : Piece.keyword? ys = some k) :
    (s.span, .misplacedDirective k) ∈ (d.readAll inWord s).template.errors := by
  have hopened : d.opened ≠ [] := by
    obtain ⟨span, start, rfl⟩ := hd
    exact List.cons_ne_nil _ _
  rw [readAll_of_scan (by rw [hs]; exact List.cons_ne_nil _ _), Piece.scan_keyword inWord hs hk]
  exact errors_subset_readAll _ _ _ (mem_errors_ofDirective hopened k s)

/-- Behind a name in a paragraph, any other word is text with the at sign and what follows it. -/
theorem InParagraph.readAll_eq {name t : Bytes} (hd : d.InParagraph name) (hless : Ascii.less ∉ t)
    (hat : Ascii.atSign ∉ t) (hword : t.head?.any Ascii.isNameByte = true)
    (hs : s.rest = Ascii.atSign :: (t ++ "</p>")) (hk : Piece.keyword? (t ++ "</p>") = none) :
    ∃ span start, d.readAll true s =
      { template := { nodes := [.element span "p" [] [.text start (name ++ "@" ++ t)]] } } := by
  obtain ⟨b, bs, rfl, hb⟩ := exists_cons_of_head hword
  have hadd : (d.add (.text s.span "@")).InParagraph (name ++ "@") := by
    obtain ⟨span, start, rfl⟩ := hd
    exact ⟨span, start, rfl⟩
  have hlast : false = (name ++ ("@" : Bytes)).getLast?.any Ascii.isNameByte := by
    rw [List.getLast?_append]
    rfl
  obtain ⟨d', w, s', hread, hs', span, start, rfl⟩ :=
    reads_paragraph_end hless hadd hlast (s.drop 1) [] (by
      rw [Source.rest_drop, hs, Node.flatMap_printByte hat, List.append_nil]
      rfl)
  refine ⟨span, start, ?_⟩
  rw [readAll_of_scan (by rw [hs]; exact List.cons_ne_nil _ _), Piece.scan_inWord hb hs hk]
  rw [step, report_nil]
  exact hread.trans (readAll_of_nil hs')

end Draft

/-! ## Addresses -/

namespace Template

/-- A name and a host with an at sign between them stay text unless the word behind the sign is a keyword
of a directive; then the directive is reported. -/
theorem parse_address {name host tail : Bytes} (hname : name ≠ [] ∧ name.all Ascii.isNameByte = true)
    (hhost : host ≠ [] ∧ host.all Ascii.isNameByte = true)
    (htail : Ascii.less ∉ tail ∧ Ascii.atSign ∉ tail) :
    let t := parse ("<p>" ++ name ++ "@" ++ host ++ tail ++ "</p>")
    let word := (host ++ tail).takeWhile Ascii.isNameByte
    (t.unplaced = { nodes := [.element {} "p" [] [.text {} (name ++ "@" ++ host ++ tail)]] } ↔
      ∀ k : DirectiveKeyword, k.text ≠ word) ∧
    ∀ k : DirectiveKeyword, k.text = word → ∃ span, (span, .misplacedDirective k) ∈ t.errors := by
  intro t word
  have hnameByte {w : Bytes} {b : UInt8} (hw : w.all Ascii.isNameByte = true)
      (hb : Ascii.isNameByte b = false) : b ∉ w := by
    intro hmem
    rw [List.all_eq_true.1 hw b hmem] at hb
    cases hb
  have hkeyword (k : DirectiveKeyword) :
      Piece.keyword? (host ++ tail ++ "</p>") = some k ↔ k.text = word := by
    have hword : (host ++ tail ++ "</p>").takeWhile Ascii.isNameByte = word :=
      takeWhile_append_of_not rfl (host ++ tail) _
    rw [Piece.keyword?_eq_some_iff, hword, eq_comm]
  have hlast : name.getLast?.any Ascii.isNameByte = true := by
    rw [List.getLast?_eq_some_getLast hname.1]
    exact List.all_eq_true.1 hname.2 _ (List.getLast_mem hname.1)
  -- the at sign is reached in the paragraph, behind the name
  obtain ⟨d, w, s, hread, hs, hd, rfl⟩ :=
    Draft.reads_paragraph hname.1 (hnameByte hname.2 rfl)
      { rest := "<p>" ++ name ++ "@" ++ host ++ tail ++ "</p>" }
      (Ascii.atSign :: (host ++ tail ++ "</p>")) (by
        rw [Node.flatMap_printByte (hnameByte hname.2 rfl)]
        simp only [List.append_assoc]
        rfl)
  rw [hlast] at hread
  have hfinish : t = (d.readAll true s).finish := congrArg Draft.finish hread
  have hreport (k : DirectiveKeyword) (hk : k.text = word) :
      (s.span, .misplacedDirective k) ∈ t.errors := by
    rw [hfinish]
    exact Draft.errors_subset_finish _ (hd.mem_errors_readAll true hs ((hkeyword k).2 hk))
  refine ⟨⟨fun h k hk => ?_, fun h => ?_⟩, fun k hk => ⟨s.span, hreport k hk⟩⟩
  · have herrors : t.errors = [] := congrArg errors h
    have hmem := hreport k hk
    rw [herrors] at hmem
    cases hmem
  · have hnone : Piece.keyword? (host ++ tail ++ "</p>") = none :=
      Option.eq_none_iff_forall_ne_some.2 fun k hk => h k ((hkeyword k).1 hk)
    have hless : Ascii.less ∉ host ++ tail :=
      List.not_mem_append (hnameByte hhost.2 rfl) htail.1
    have hat : Ascii.atSign ∉ host ++ tail :=
      List.not_mem_append (hnameByte hhost.2 rfl) htail.2
    have hfirst : (host ++ tail).head?.any Ascii.isNameByte = true := by
      obtain ⟨b, bs, rfl⟩ := List.exists_cons_of_ne_nil hhost.1
      exact List.all_eq_true.1 hhost.2 b List.mem_cons_self
    obtain ⟨span, start, hend⟩ := hd.readAll_eq hless hat hfirst hs hnone
    rw [hfinish, hend, ← List.append_assoc]
    rfl

/-- An address with a host that is no keyword, and one whose host is. -/
theorem parse_address_mail :
    (parse ("<p>" ++ "me" ++ "@" ++ "example" ++ ".org" ++ "</p>")).unplaced =
        { nodes := [.element {} "p" [] [.text {} ("me" ++ "@" ++ "example" ++ ".org")]] } ∧
      ∃ span, (span, TemplateError.misplacedDirective .page) ∈
        (parse ("<p>" ++ "jane" ++ "@" ++ "page" ++ "" ++ "</p>")).errors :=
  ⟨(parse_address (by decide) (by decide) (by decide)).1.2 (by intro k; cases k <;> decide),
    (@parse_address "jane" "page" "" (by decide) (by decide) (by decide)).2 .page rfl⟩

end Template

end ViewCompiler
