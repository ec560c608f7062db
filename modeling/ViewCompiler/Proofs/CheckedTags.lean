import ViewCompiler.Proofs.CheckedStretches
import ViewCompiler.Proofs.TemplateOrigins

/-!
Reading the tags of a template by offsets. A tag whose attributes cannot be read is left behind its end,
and the byte in front of that is looked at: it is there, and it is a slash only where one has been passed
(`AfterSlash`).
-/

namespace ViewCompiler.Checked

/-! ## Tags -/

/-- A value without quotes. -/
def bareValue : Reading Position Bytes :=
  readUntil do
    let b ← peek 0
    let ends ← startsWith "/>"
    return Ascii.isSpace b || b == Ascii.greater || ends || b == Ascii.quote || b == Ascii.apostrophe

/-- The attribute of that name and value, if an attribute may be so. -/
def judge (span : Span) (name : Bytes) (value : Option Bytes) : Option Attribute × List TemplateReport :=
  let r := Attribute.check span name value { rest := [] }
  (r.value, r.errors)

/-- Reads the value behind an equality sign. -/
def attributeValue : Reading Position (Except (Bytes → TemplateError) Bytes) := do
  let quote ← peek 0
  if quote = Ascii.quote ∨ quote = Ascii.apostrophe then
    let _ ← advance
    let value ← readWhile (· ≠ quote)
    if ← atEnd then return .error .unclosedValue
    else
      let _ ← advance
      return .ok value
  else
    let value ← bareValue
    if value = [] then return .error .missingValue else return .ok value

def tagAttribute (tag : Bytes) : Reading Position (Option Attribute × List TemplateReport) := do
  let here ← place
  let b ← peek 0
  if Ascii.isAttributeStart b then
    let name ← readWhile Ascii.isAttributeByte
    skipSpace
    let sign ← peek 0
    if sign = Ascii.equal then
      let _ ← advance
      skipSpace
      match ← attributeValue with
      | .ok value => return judge here.span name (some value)
      | .error e => return (none, [(here.span, e name)])
    else return judge here.span name none
  else return (none, [(here.span, .unexpectedByte b tag)])

/-- Leaves a tag whose attributes cannot be read, and says whether an element is opened. -/
def leaveTag : Reading Position Bool := do
  let _ ← readWhile (· ≠ Ascii.greater)
  if ← atEnd then return false
  else
    let last ← previous
    let _ ← advance
    return last ≠ Ascii.slash

/-- A tag that is being read: its attributes so far, and what was wrong with them. -/
abbrev TagState := List Attribute × List TemplateReport

/-- Reads the next attribute of a tag, or leaves the tag. -/
def attributeTurn (tag : Bytes) (s : TagState) : Reading Position (Turn TagState (TagBody × List TemplateReport)) := do
  let a ← tagAttribute tag
  match a.1 with
  | some next => return .again (s.1 ++ [next], s.2 ++ a.2)
  | none => return .stop ({ attributes := s.1, opens := ← leaveTag }, s.2 ++ a.2)

/-- Goes on in a tag, up to its end. -/
def tagTurn (span : Span) (tag : Bytes) (s : TagState) :
    Reading Position (Turn TagState (TagBody × List TemplateReport)) := do
  skipSpace
  if ← atEnd then return .stop ({ attributes := s.1, opens := false }, s.2 ++ [(span, .unclosedTag tag)])
  else if ← startsWith "/>" then
    advanceBy 2
    return .stop ({ attributes := s.1, opens := false }, s.2)
  else
    let b ← peek 0
    if b = Ascii.greater then
      let _ ← advance
      return .stop ({ attributes := s.1, opens := true }, s.2)
    else attributeTurn tag s

/-- A piece of a template and what was wrong with it. -/
abbrev RawPiece := Piece × List TemplateReport

def startTag : Reading Position RawPiece := do
  let here ← place
  let _ ← advance
  let tag ← readWhile Ascii.isTagByte
  let body ← loop (tagTurn here.span tag) ([], [])
  return (.startTag here.span tag body.1.attributes (body.1.opens && !isVoidElement tag), body.2)

def endTag : Reading Position RawPiece := do
  let here ← place
  advanceBy 2
  let tag ← readWhile Ascii.isTagByte
  skipSpace
  let b ← peek 0
  if b = Ascii.greater then
    let _ ← advance
    return (.endTag here.span tag, [])
  else return (.endTag here.span tag, [(here.span, .malformedEndTag tag)])

section

variable {text bs tag name : Bytes} {s s' : Source} {b : UInt8} {span : Span} {value : Option Bytes}

theorem dropWhile_eq_finish {q : UInt8 → Bool} (h : (s.rest.takeWhile q).length = s.rest.length) :
    s.dropWhile q = s.finish := congrArg s.drop h

theorem suffix_behind (h : s.rest <:+ text) (hbehind : s.Behind s') : s'.rest <:+ text := by
  obtain ⟨n, rfl⟩ := hbehind
  exact suffix_drop h n

theorem finish_drop (s : Source) (n : Nat) : (s.drop n).finish = s.finish := by
  rw [Source.finish, Source.drop_drop]
  exact drop_of_length_le (by rw [Source.length_drop_rest]; omega)

theorem takes_readWhile_drop (h : s.rest <:+ text) (n : Nat) (q : UInt8 → Bool) : Takes (readWhile q) text (s.drop n)
    ((s.rest.drop n).takeWhile q) (s.drop (((s.rest.drop n).takeWhile q).length + n)) := by
  rw [Nat.add_comm, ← s.drop_drop]
  exact takes_readWhile (suffix_drop h n) q

/-- The text goes on behind the bytes that satisfy `q` if these are not all. -/
theorem exists_dropWhile_eq_cons {q : UInt8 → Bool} (h : (s.rest.takeWhile q).length ≠ s.rest.length) :
    ∃ e es, (s.dropWhile q).rest = e :: es := by
  refine List.exists_cons_of_ne_nil fun hnil => h ?_
  have hsplit : s.rest.takeWhile q ++ s.rest.dropWhile q = s.rest := List.takeWhile_append_dropWhile
  rw [Source.rest_dropWhile] at hnil
  rw [hnil, List.append_nil] at hsplit
  rw [hsplit]

/-! ## Attributes -/

theorem startsWith_close (b : UInt8) (bs : Bytes) :
    Bytes.startsWith (b :: bs) "/>" = (b = Ascii.slash && bs.head? = some Ascii.greater) := by
  rw [Bool.eq_iff_iff, Bool.and_eq_true, decide_eq_true_iff, decide_eq_true_iff]
  exact Bytes.startsWith_pair

theorem upTo_bareValue (v : Bytes) : upTo (fun v => Ascii.isSpace (v[0]?.getD Ascii.nul)
      || v[0]?.getD Ascii.nul == Ascii.greater || Bytes.startsWith v "/>"
      || v[0]?.getD Ascii.nul == Ascii.quote || v[0]?.getD Ascii.nul == Ascii.apostrophe) v =
    Stretch.bareValue v := by
  induction v with
  | nil => rfl
  | cons b bs ih =>
    rw [upTo, Stretch.bareValue, ih, startsWith_close]
    refine if_congr ?_ rfl rfl
    rw [List.getElem?_cons_zero, Option.getD_some]
    simp only [Bool.or_eq_true, beq_iff_eq, decide_eq_true_eq]
    grind

theorem takes_bareValue (h : s.rest <:+ text) : Takes bareValue text s (Stretch.bareValue s.rest)
    (s.drop (Stretch.bareValue s.rest).length) := by
  rw [← upTo_bareValue]
  exact takes_readUntil h fun v p hv => (gives_peek hv 0).bind ((gives_startsWith hv _).bind .pure)

theorem check_eq_judge (span : Span) (name : Bytes) (value : Option Bytes) (s : Source) :
    Attribute.check span name value s =
      { value := (judge span name value).1, errors := (judge span name value).2, rest := s } := by
  rw [judge, Attribute.check, Attribute.check]
  dsimp only
  split
  · rfl
  · split
    · rfl
    · split <;> rfl

theorem takes_quotedValue (h : s.rest <:+ text) (hs : s.rest = b :: bs)
    (hb : b = Ascii.quote ∨ b = Ascii.apostrophe) :
    Takes attributeValue text s (Attribute.scanValue s).value (Attribute.scanValue s).rest := by
  have hrest := suffix_drop h 1
  refine (takes_next h hs).bind (.ite (fun _ => ?_) fun hno => absurd hb hno)
  refine (takes_advance h hs).bind ((takes_readWhile hrest (· ≠ b)).bind ?_)
  rw [Attribute.scanValue, hs]
  dsimp only
  rw [if_pos hb, rest_drop_one hs]
  split
  · next hend =>
    rw [← rest_drop_one hs] at hend
    rw [dropWhile_eq_finish hend, finish_drop]
    exact (takes_end s.rest_finish).bind .pure
  · next hend =>
    rw [← rest_drop_one hs] at hend
    obtain ⟨e, es, he⟩ := exists_dropWhile_eq_cons hend
    have hclose : s.drop ((bs.takeWhile (· ≠ b)).length + 2) = ((s.drop 1).dropWhile (· ≠ b)).drop 1 := by
      rw [Source.dropWhile, Source.drop_drop, Source.drop_drop, rest_drop_one hs]
      exact congrArg s.drop (by omega)
    have hmore := takes_more (suffix_drop hrest _) he
    rw [hclose]
    exact hmore.bind ((takes_advance (suffix_drop hrest _) he).bind .pure)

theorem takes_attributeValue (h : s.rest <:+ text) :
    Takes attributeValue text s (Attribute.scanValue s).value (Attribute.scanValue s).rest := by
  by_cases hquoted : ∃ b bs, s.rest = b :: bs ∧ (b = Ascii.quote ∨ b = Ascii.apostrophe)
  · obtain ⟨b, bs, hs, hb⟩ := hquoted
    exact takes_quotedValue h hs hb
  have hscan : Attribute.scanValue s = if Stretch.bareValue s.rest = []
      then { value := .error .missingValue, rest := s }
      else { value := .ok (Stretch.bareValue s.rest), rest := s.drop (Stretch.bareValue s.rest).length } := by
    rw [Attribute.scanValue]
    split
    · next hs => rw [hs]; rfl
    · next b bs hs => rw [if_neg fun hb => hquoted ⟨b, bs, hs, hb⟩]
  refine (takes_peek h 0).bind (.ite (fun hquote => ?_) fun _ => (takes_bareValue h).bind ?_)
  · cases hs : s.rest with
    | nil =>
      rw [hs] at hquote
      exact absurd hquote (by decide)
    | cons b bs =>
      rw [hs] at hquote
      exact absurd ⟨b, bs, hs, hquote⟩ hquoted
  · rw [hscan]
    split
    · next hnil =>
      rw [hnil]
      exact .pure
    · exact .pure

/-- Behind the name of an attribute and the blanks after it. -/
def behindName (s : Source) : Source := (s.dropWhile Ascii.isAttributeByte).dropWhile Ascii.isSpace

/-- Behind an equality sign and the blanks after it. -/
def behindSign (s : Source) : Source := (s.drop 1).dropWhile Ascii.isSpace

theorem scan_unexpected (hs : s.rest = b :: bs) (hb : ¬ Ascii.isAttributeStart b) : Attribute.scan tag s =
    { value := none, errors := [(s.span, .unexpectedByte b tag)], rest := s } := by
  rw [Attribute.scan, hs]
  exact if_neg hb

theorem scan_without_value (hs : s.rest = b :: bs) (hb : Ascii.isAttributeStart b)
    (hsign : (behindName s).rest.head? ≠ some Ascii.equal) : Attribute.scan tag s =
    Attribute.check s.span (s.rest.takeWhile Ascii.isAttributeByte) none (behindName s) := by
  rw [Attribute.scan]
  split
  · next hnil => exact absurd (hnil.symm.trans hs) (List.cons_ne_nil _ _).symm
  · next hc =>
    rw [(List.cons.inj (hc.symm.trans hs)).1, if_pos hb]
    exact if_neg hsign

theorem scan_with_value (hs : s.rest = b :: bs) (hb : Ascii.isAttributeStart b)
    (hsign : (behindName s).rest.head? = some Ascii.equal) : Attribute.scan tag s =
    match (Attribute.scanValue (behindSign (behindName s))).value with
    | .ok value => Attribute.check s.span (s.rest.takeWhile Ascii.isAttributeByte) (some value)
        (Attribute.scanValue (behindSign (behindName s))).rest
    | .error e =>
      { value := none, errors := [(s.span, e (s.rest.takeWhile Ascii.isAttributeByte))],
        rest := (Attribute.scanValue (behindSign (behindName s))).rest } := by
  rw [Attribute.scan]
  split
  · next hnil => exact absurd (hnil.symm.trans hs) (List.cons_ne_nil _ _).symm
  · next hc =>
    rw [(List.cons.inj (hc.symm.trans hs)).1, if_pos hb]
    exact if_pos hsign

theorem takes_tagAttribute (tag : Bytes) (h : s.rest <:+ text) (hs : s.rest = b :: bs) : Takes (tagAttribute tag) text s
    ((Attribute.scan tag s).value, (Attribute.scan tag s).errors) (Attribute.scan tag s).rest := by
  refine gives_place.bind ((takes_next h hs).bind (.ite (fun hb => ?_) fun hb => ?_))
  · have hname := suffix_drop h (s.rest.takeWhile Ascii.isAttributeByte).length
    have hbehind : (behindName s).rest <:+ text := suffix_drop hname _
    refine (takes_readWhile h _).bind ((takes_skipSpace hname).bind ?_)
    refine takes_ifNext (by decide) hbehind (fun hsign hadvance => ?_) fun hsign => ?_
    · have hvalue : (behindSign (behindName s)).rest <:+ text := suffix_drop (suffix_drop hbehind 1) _
      have hskip : Takes skipSpace text ((behindName s).drop 1) () (behindSign (behindName s)) :=
        takes_skipSpace (suffix_drop hbehind 1)
      rw [scan_with_value hs hb hsign]
      refine hadvance.bind (hskip.bind ((takes_attributeValue hvalue).bind ?_))
      cases (Attribute.scanValue (behindSign (behindName s))).value with
      | ok value =>
        dsimp only
        rw [check_eq_judge]
        exact .pure
      | error e => exact .pure
    · rw [scan_without_value hs hb hsign, check_eq_judge]
      exact .pure
  · rw [scan_unexpected hs hb]
    exact .pure

/-! ## Leaving a tag -/

/-- The byte in front of the next one is there, and is not a slash. -/
def OffSlash (text : Bytes) (s : Source) : Prop := ∃ b, b ≠ Ascii.slash ∧ Takes previous text s b s

theorem OffSlash.of_drop {w : Bytes} (h : s.rest <:+ text) (hw : w <+: s.rest) (hb : w.getLast? = some b)
    (hslash : b ≠ Ascii.slash) : OffSlash text (s.drop w.length) := ⟨b, hslash, takes_previous h hw hb⟩

/-- Bytes of a kind that a slash is not of can be passed. -/
theorem OffSlash.dropWhile {q : UInt8 → Bool} (hoff : s.rest.takeWhile q = [] → OffSlash text s)
    (h : s.rest <:+ text) (hq : q Ascii.slash = false) : OffSlash text (s.dropWhile q) := by
  cases hlast : (s.rest.takeWhile q).getLast? with
  | none =>
    rw [List.getLast?_eq_none_iff] at hlast
    rw [Source.dropWhile, hlast]
    exact hoff hlast
  | some b =>
    refine .of_drop h (List.takeWhile_prefix q) hlast fun hslash => ?_
    have hb : q b := List.mem_takeWhile_imp (List.mem_of_getLast? hlast)
    rw [hslash, hq] at hb
    exact Bool.false_ne_true hb

theorem offSlash_behindName (h : s.rest <:+ text) (hs : s.rest = b :: bs) (hb : Ascii.isAttributeStart b) :
    OffSlash text (behindName s) := by
  refine .dropWhile (fun _ => .dropWhile (fun hnil => ?_) h (by decide)) (suffix_drop h _) (by decide)
  rw [hs, List.takeWhile_cons_of_pos (Ascii.isAttributeByte_of_isAttributeStart hb)] at hnil
  exact absurd hnil (List.cons_ne_nil _ _)

theorem offSlash_behindSign (h : s.rest <:+ text) (hs : s.rest.head? = some Ascii.equal) :
    OffSlash text (behindSign s) := by
  obtain ⟨w, hw⟩ := List.head?_eq_some_iff.1 hs
  have hsign : [Ascii.equal] <+: s.rest := ⟨w, hw.symm⟩
  have hpast : OffSlash text (s.drop [Ascii.equal].length) := .of_drop h hsign rfl (by decide)
  exact .dropWhile (fun _ => hpast) (suffix_drop h 1) (by decide)

/-- Any attribute may have a value. -/
theorem value_check_ne_none (span : Span) (name value : Bytes) (s : Source) :
    (Attribute.check span name (some value) s).value ≠ none := by
  have hvalue : ¬ (some value).isNone := Bool.false_ne_true
  rw [Attribute.check, if_neg fun hevent => hvalue hevent.2]
  split
  · exact Option.some_ne_none _
  · split <;> exact Option.some_ne_none _

/-- A value that cannot be read is not left, or else the text has ended. -/
theorem rest_scanValue_of_error {e : Bytes → TemplateError} (he : (Attribute.scanValue s).value = .error e) :
    (Attribute.scanValue s).rest = s ∨ (Attribute.scanValue s).rest.rest = [] := by
  rw [Attribute.scanValue] at he ⊢
  split at he
  · exact .inl rfl
  split at he
  · next hquote =>
    rw [if_pos hquote]
    dsimp only at he ⊢
    split at he
    · next hend =>
      rw [if_pos hend]
      exact .inr s.rest_finish
    · exact nomatch he
  · next hquote =>
    rw [if_neg hquote]
    dsimp only at he ⊢
    split at he
    · next hnil =>
      rw [if_pos hnil]
      exact .inl rfl
    · exact nomatch he

/-- An attribute that cannot be read ends in front of the end of the tag only if no slash stands there. -/
theorem offSlash_scan (h : s.rest <:+ text) (hs : s.rest = b :: bs) (hb : b ≠ Ascii.greater)
    (hnone : (Attribute.scan tag s).value = none)
    (hend : (Attribute.scan tag s).rest.rest.head? = some Ascii.greater) :
    OffSlash text (Attribute.scan tag s).rest := by
  -- where reading gives up it has passed a name, a sign or blanks last, or nothing
  by_cases hstart : Ascii.isAttributeStart b
  · have hbehind : (behindName s).rest <:+ text := suffix_drop (suffix_drop h _) _
    by_cases hsign : (behindName s).rest.head? = some Ascii.equal
    · rw [scan_with_value hs hstart hsign] at hnone hend ⊢
      cases hvalue : (Attribute.scanValue (behindSign (behindName s))).value with
      | ok value =>
        rw [hvalue] at hnone
        exact absurd hnone (value_check_ne_none s.span _ value _)
      | error e =>
        rw [hvalue] at hend
        rcases rest_scanValue_of_error hvalue with hsame | hnil
        · dsimp only
          rw [hsame]
          exact offSlash_behindSign hbehind hsign
        · dsimp only at hend
          rw [hnil] at hend
          exact nomatch hend
    · rw [scan_without_value hs hstart hsign, Attribute.rest_check]
      exact offSlash_behindName h hs hstart
  · rw [scan_unexpected hs hstart, hs] at hend
    exact absurd (Option.some.inj hend) hb

/-- The byte in front of the end of a tag tells whether the last byte that was skipped is a slash. -/
theorem exists_takes_previous_skipped (h : s.rest <:+ text) (hend : s.rest.takeWhile (· ≠ Ascii.greater) ≠ s.rest)
    (hoff : s.rest.head? = some Ascii.greater → OffSlash text s) : ∃ b,
    Takes previous text (s.dropWhile (· ≠ Ascii.greater)) b (s.dropWhile (· ≠ Ascii.greater)) ∧
      ((s.rest.takeWhile (· ≠ Ascii.greater)).getLast? ≠ some Ascii.slash ↔ b ≠ Ascii.slash) := by
  cases hlast : (s.rest.takeWhile (· ≠ Ascii.greater)).getLast? with
  | none =>
    rw [List.getLast?_eq_none_iff] at hlast
    have hsame : s.dropWhile (· ≠ Ascii.greater) = s := by rw [Source.dropWhile, hlast]; rfl
    have hhead : s.rest.head? = some Ascii.greater := by
      cases hs : s.rest with
      | nil => exact absurd (hlast.trans hs.symm) hend
      | cons b bs =>
        by_cases hb : b = Ascii.greater
        · rw [hb, List.head?_cons]
        · have hpass : (decide (b ≠ Ascii.greater)) = true := decide_eq_true hb
          rw [hs, List.takeWhile_cons_of_pos (by exact hpass)] at hlast
          exact absurd hlast (List.cons_ne_nil _ _)
    obtain ⟨b, hb, hprevious⟩ := hoff hhead
    rw [hsame]
    exact ⟨b, hprevious, iff_of_true (Option.some_ne_none _).symm hb⟩
  | some c => exact ⟨c, takes_previous h (List.takeWhile_prefix _) hlast, by rw [Ne, Option.some_inj]⟩

theorem takes_leaveTag (h : s.rest <:+ text) (hoff : s.rest.head? = some Ascii.greater → OffSlash text s)
    (attributes : List Attribute) : Takes leaveTag text s (TagBody.abandon attributes s).value.opens
      (TagBody.abandon attributes s).rest := by
  refine (takes_readWhile h (· ≠ Ascii.greater)).bind ?_
  rw [TagBody.abandon]
  split
  · next hend =>
    rw [dropWhile_eq_finish hend]
    exact (takes_end s.rest_finish).bind .pure
  · next hend =>
    obtain ⟨e, es, he⟩ := exists_dropWhile_eq_cons hend
    obtain ⟨b, hprevious, hb⟩ := exists_takes_previous_skipped h (fun hall => hend (congrArg List.length hall)) hoff
    have hbehind : (s.dropWhile (· ≠ Ascii.greater)).rest <:+ text := suffix_drop h _
    rw [← Source.drop_drop, decide_eq_decide.2 hb]
    exact (takes_more hbehind he).bind (hprevious.bind ((takes_advance hbehind he).bind .pure))

/-! ## Tags -/

theorem value_abandon (attributes : List Attribute) (s : Source) :
    (TagBody.abandon attributes s).value = { attributes, opens := (TagBody.abandon attributes s).value.opens } := by
  rw [TagBody.abandon]
  split <;> rfl

theorem errors_abandon (attributes : List Attribute) (s : Source) : (TagBody.abandon attributes s).errors = [] := by
  rw [TagBody.abandon]
  split <;> rfl

theorem takes_attributeTurn_again {next : Attribute} (st : TagState) (h : s.rest <:+ text) (hs : s.rest = b :: bs)
    (hnext : (Attribute.scan tag s).value = some next) : Takes (attributeTurn tag st) text s
      (.again (st.1 ++ [next], st.2 ++ (Attribute.scan tag s).errors)) (Attribute.scan tag s).rest := by
  have hread := takes_tagAttribute tag h hs
  rw [hnext] at hread
  exact hread.bind .pure

theorem takes_attributeTurn_stop (st : TagState) (h : s.rest <:+ text) (hs : s.rest = b :: bs)
    (hb : b ≠ Ascii.greater) (hnone : (Attribute.scan tag s).value = none) : Takes (attributeTurn tag st) text s
      (.stop ((TagBody.abandon st.1 (Attribute.scan tag s).rest).value, st.2 ++ (Attribute.scan tag s).errors))
      (TagBody.abandon st.1 (Attribute.scan tag s).rest).rest := by
  have hread := takes_tagAttribute tag h hs
  have hrest := suffix_behind h (Attribute.behind_scan tag (.refl s))
  have hleave := takes_leaveTag hrest (offSlash_scan h hs hb hnone) st.1
  rw [hnone] at hread
  rw [value_abandon]
  exact hread.bind (hleave.bind .pure)

/-- A tag that has not ended goes on with an attribute. -/
theorem takes_tagTurn {st : TagState} {t : Turn TagState (TagBody × List TemplateReport)} (h : s.rest <:+ text)
    (hs : (s.dropWhile Ascii.isSpace).rest = b :: bs)
    (hclose : ¬ (s.dropWhile Ascii.isSpace).rest.startsWith "/>") (hb : b ≠ Ascii.greater)
    (hturn : Takes (attributeTurn tag st) text (s.dropWhile Ascii.isSpace) t s') :
    Takes (tagTurn span tag st) text s t s' := by
  have hrest : (s.dropWhile Ascii.isSpace).rest <:+ text := suffix_drop h _
  have hstart := takes_startsWith hrest "/>"
  rw [Bool.eq_false_iff.2 hclose] at hstart
  refine (takes_skipSpace h).bind ((takes_more hrest hs).bind (hstart.bind ((takes_next hrest hs).bind ?_)))
  exact .ite (fun hgreater => absurd hgreater hb) fun _ => hturn

theorem takes_tagTurns (span : Span) (tag : Bytes) (attributes : List Attribute) (s : Source) :
    ∀ errors, s.rest <:+ text → Takes (loop (tagTurn span tag) (attributes, errors)) text s
      ((TagBody.scan span tag attributes s).value, errors ++ (TagBody.scan span tag attributes s).errors)
      (TagBody.scan span tag attributes s).rest := by
  fun_induction TagBody.scan span tag attributes s with
  | case1 attributes s s' hend =>
    intro errors h
    exact gives_loop_stop ((takes_skipSpace h).bind ((takes_end hend).bind .pure))
  | case2 attributes s s' hend hclose =>
    intro errors h
    have hrest : s'.rest <:+ text := suffix_drop h _
    obtain ⟨b, bs, hs⟩ := List.exists_cons_of_ne_nil hend
    have hstart := takes_startsWith hrest "/>"
    rw [hclose] at hstart
    rw [List.append_nil]
    exact gives_loop_stop ((takes_skipSpace h).bind ((takes_more hrest hs).bind (hstart.bind
      ((takes_advanceBy hrest 2).bind .pure))))
  | case3 attributes s s' hend hclose hgreater =>
    intro errors h
    have hrest : s'.rest <:+ text := suffix_drop h _
    obtain ⟨bs, hs⟩ := List.head?_eq_some_iff.1 hgreater
    have hstart := takes_startsWith hrest "/>"
    rw [Bool.eq_false_iff.2 hclose] at hstart
    rw [List.append_nil]
    refine gives_loop_stop ((takes_skipSpace h).bind ((takes_more hrest hs).bind (hstart.bind
      ((takes_next hrest hs).bind (.ite (fun _ => ?_) fun hno => absurd rfl hno)))))
    exact (takes_advance hrest hs).bind .pure
  | case4 attributes s s' hend hclose hgreater a hnone r =>
    intro errors h
    have hrest : s'.rest <:+ text := suffix_drop h _
    obtain ⟨b, bs, hs⟩ := List.exists_cons_of_ne_nil hend
    have hb : b ≠ Ascii.greater := fun hb => hgreater (by rw [hs, hb, List.head?_cons])
    have hturn := takes_attributeTurn_stop (attributes, errors) hrest hs hb hnone
    rw [errors_abandon, List.append_nil]
    exact gives_loop_stop (takes_tagTurn h hs hclose hb hturn)
  | case5 attributes s s' hend hclose hgreater a next hnext r ih =>
    intro errors h
    have hrest : s'.rest <:+ text := suffix_drop h _
    obtain ⟨b, bs, hs⟩ := List.exists_cons_of_ne_nil hend
    have hb : b ≠ Ascii.greater := fun hb => hgreater (by rw [hs, hb, List.head?_cons])
    have hturn := takes_attributeTurn_again (attributes, errors) hrest hs hnext
    rw [← List.append_assoc]
    have hrest' := suffix_behind hrest (Attribute.behind_scan tag (.refl s'))
    refine gives_loop_again (takes_tagTurn h hs hclose hb hturn) h ?_ (ih _ hrest')
    exact Nat.lt_of_lt_of_le (Attribute.length_scan_rest_lt hnext) (Source.length_dropWhile_rest_le _ _)

theorem takes_startTag (h : s.rest <:+ text) (hs : s.rest = b :: bs) : Takes startTag text s
    ((Piece.ofStartTag s).value, (Piece.ofStartTag s).errors) (Piece.ofStartTag s).rest := by
  have hread := takes_readWhile_drop h 1 Ascii.isTagByte
  have hbody := takes_tagTurns s.span (s.rest.tail.takeWhile Ascii.isTagByte) [] _ []
    (suffix_drop h ((s.rest.tail.takeWhile Ascii.isTagByte).length + 1))
  rw [List.drop_one] at hread
  exact gives_place.bind ((takes_advance h hs).bind (hread.bind (hbody.bind .pure)))

theorem takes_endTag (h : s.rest <:+ text) : Takes endTag text s
    ((Piece.ofEndTag s).value, (Piece.ofEndTag s).errors) (Piece.ofEndTag s).rest := by
  have hread := takes_readWhile_drop h 2 Ascii.isTagByte
  have hafter := suffix_drop h (((s.rest.drop 2).takeWhile Ascii.isTagByte).length + 2)
  rw [Piece.ofEndTag]
  refine gives_place.bind ((takes_advanceBy h 2).bind (hread.bind ?_))
  generalize s.drop (((s.rest.drop 2).takeWhile Ascii.isTagByte).length + 2) = after at hafter ⊢
  have hend : (after.dropWhile Ascii.isSpace).rest <:+ text := suffix_drop hafter _
  refine (takes_skipSpace hafter).bind
    (takes_ifNext (by decide) hend (fun hgreater hadvance => ?_) fun hgreater => ?_)
  · rw [if_pos hgreater]
    exact hadvance.bind .pure
  · rw [if_neg hgreater]
    exact .pure

end

end ViewCompiler.Checked
