import ViewCompiler.Proofs.CheckedReading
import ViewCompiler.Template.Scan

/-!
Reading the stretches of a template by offsets: strings, comments, and what stands inside of brackets.
`Takes` says what a reading comes to, in terms of the text that is left.
-/

namespace ViewCompiler.Checked

/-! ## Stretches -/

def skipSpace : Reading Position Unit := do
  let _ ← readWhile Ascii.isSpace

/-- Moves over a byte of a string, or two behind a backslash. -/
def quotedTurn (_ : Unit) : Reading Position (Turn Unit Unit) := do
  if ← atEnd then return .stop ()
  else
    let b ← peek 0
    if b = Ascii.quote ∨ b = Ascii.lf then return .stop ()
    else
      let b ← advance
      let last ← atEnd
      let next ← peek 0
      if b = Ascii.backslash ∧ !last ∧ next ≠ Ascii.lf then
        let _ ← advance
        return .again ()
      else return .again ()

/-- Moves over a string, which ends with its line. -/
def quoted : Reading Position Unit := do
  let _ ← advance
  loop quotedTurn ()
  let b ← peek 0
  if b = Ascii.quote then
    let _ ← advance
    return
  else return

/-- Moves over a string, if there is one. -/
def skipString : Reading Position Bool := do
  let b ← peek 0
  if b = Ascii.quote then
    quoted
    return true
  else return false

/-- Moves over a string or a comment, if there is one. -/
def skipTrivia : Reading Position Bool := do
  let b ← peek 0
  if b = Ascii.quote then
    quoted
    return true
  else if ← startsWith "//" then
    let _ ← readWhile (· ≠ Ascii.lf)
    return true
  else if ← startsWith "/*" then
    advanceBy 2
    let _ ← readUntil (startsWith "*/")
    advanceBy 2
    return true
  else return false

/-- Moves on inside of `depth` pairs, up to the byte that ends the last of them. -/
def balancedTurn (skip : Reading Position Bool) (opening closing : UInt8) (depth : Nat) :
    Reading Position (Turn Nat Bool) := do
  if ← atEnd then return .stop false
  else if ← skip then return .again depth
  else
    let b ← peek 0
    if b = opening then
      let _ ← advance
      return .again (depth + 1)
    else if b = closing then
      if depth ≤ 1 then return .stop true
      else
        let _ ← advance
        return .again (depth - 1)
    else
      let _ ← advance
      return .again depth

/-- Moves over the next `close`. -/
def closeTurn (close : Bytes) (_ : Unit) : Reading Position (Turn Unit Bool) := do
  if ← atEnd then return .stop false
  else if ← startsWith close then
    advanceBy close.length
    return .stop true
  else
    let _ ← advance
    return .again ()

/-! ## What the readings give -/

/-- Without a fault the reading gives `a`, and comes from `s` to `s'`. -/
abbrev Takes {α : Type} (m : Reading Position α) (text : Bytes) (s : Source) (a : α) (s' : Source) : Prop :=
  Gives m text s.rest s.position a s'.rest s'.position

/-- A reading moves over as many bytes as `length` says, and says whether these are any. -/
def Covers (skip : Reading Position Bool) (length : Bytes → Nat) (text : Bytes) : Prop :=
  ∀ s b bs, s.rest <:+ text → s.rest = b :: bs →
    Takes skip text s (decide (0 < length s.rest)) (s.drop (length s.rest))

section

variable {text bs : Bytes} {s s' : Source} {b : UInt8} {n : Nat}

theorem suffix_drop (h : s.rest <:+ text) (n : Nat) : (s.drop n).rest <:+ text :=
  (List.drop_suffix _ _).trans h

theorem rest_drop_one (hs : s.rest = b :: bs) : (s.drop 1).rest = bs := by
  rw [Source.rest_drop, hs, List.drop_one, List.tail_cons]

theorem suffix_tail (h : s.rest <:+ text) (hs : s.rest = b :: bs) : bs <:+ text :=
  (List.suffix_cons b bs).trans (hs ▸ h)

theorem takes_more (h : s.rest <:+ text) (hs : s.rest = b :: bs) : Takes atEnd text s false s := by
  have hend := gives_atEnd (p := s.position) h
  rw [hs] at hend
  rw [Takes, hs]
  exact hend

theorem takes_end (hs : s.rest = []) : Takes atEnd text s true s := by
  rw [Takes, hs]
  exact gives_atEnd List.nil_suffix

theorem takes_next (h : s.rest <:+ text) (hs : s.rest = b :: bs) : Takes (peek 0) text s b s := by
  have hpeek := gives_peek (p := s.position) h 0
  rw [hs] at hpeek
  rw [Takes, hs]
  exact hpeek

theorem takes_peek (h : s.rest <:+ text) (i : Nat) : Takes (peek i) text s (s.rest[i]?.getD Ascii.nul) s :=
  gives_peek h i

theorem takes_advanceBy (h : s.rest <:+ text) (n : Nat) : Takes (advanceBy n) text s () (s.drop n) :=
  gives_advanceBy h n

theorem takes_advance (h : s.rest <:+ text) (hb : s.rest = b :: bs) : Takes advance text s b (s.drop 1) := by
  obtain ⟨rest, position⟩ := s
  dsimp only at h hb
  subst hb
  exact gives_advance h

/-- A byte other than NUL can be moved over where it has been seen. -/
theorem takes_ifNext {α : Type} {m k : Reading Position α} {a : α} (hb : b ≠ Ascii.nul) (h : s.rest <:+ text)
    (hyes : s.rest.head? = some b → Takes advance text s b (s.drop 1) → Takes m text s a s')
    (hno : s.rest.head? ≠ some b → Takes k text s a s') :
    Takes (do
      let c ← peek 0
      if c = b then m else k) text s a s' := by
  refine (takes_peek h 0).bind (.ite (fun hc => ?_) fun hc => hno fun hhead => hc ((getD_zero_eq_iff hb).2 hhead))
  have hhead := (getD_zero_eq_iff hb).1 hc
  obtain ⟨w, hw⟩ := List.head?_eq_some_iff.1 hhead
  exact hyes hhead (takes_advance h hw)

theorem takes_readUntil {m : Reading Position Bool} {stop : Bytes → Bool} (h : s.rest <:+ text)
    (hm : ∀ v p, v <:+ text → Gives m text v p (stop v) v p) :
    Takes (readUntil m) text s (upTo stop s.rest) (s.drop (upTo stop s.rest).length) := by
  have htake := List.prefix_iff_eq_take.1 (prefix_upTo stop s.rest)
  change Gives _ text s.rest s.position _ _ (s.position.steps (s.rest.take _))
  rw [← htake]
  exact gives_readUntil h hm

theorem takes_readWhile (h : s.rest <:+ text) (q : UInt8 → Bool) :
    Takes (readWhile q) text s (s.rest.takeWhile q) (s.dropWhile q) := by
  have htake := List.prefix_iff_eq_take.1 (List.takeWhile_prefix q (l := s.rest))
  rw [Takes, Source.rest_dropWhile]
  change Gives _ text s.rest s.position _ _ (s.position.steps (s.rest.take _))
  rw [← htake]
  exact gives_readWhile h q

theorem takes_skipSpace (h : s.rest <:+ text) : Takes skipSpace text s () (s.dropWhile Ascii.isSpace) :=
  (takes_readWhile h _).bind .pure

/-- The text from `s` to `s.drop n` is cut out there. -/
theorem takes_sliceFrom (h : s.rest <:+ text) (n : Nat) :
    Takes (sliceFrom (text.length - s.rest.length)) text (s.drop n) (s.rest.take n) (s.drop n) := by
  have hsplit : s.rest.take n ++ (s.drop n).rest = s.rest := List.take_append_drop n s.rest
  have hslice := gives_slice (w := s.rest.take n) (v := (s.drop n).rest) (p := (s.drop n).position) (hsplit ▸ h)
  rw [hsplit] at hslice
  exact hslice

/-- The byte in front of the next one is the last of those that have been passed. -/
theorem takes_previous {w : Bytes} (h : s.rest <:+ text) (hw : w <+: s.rest) (hb : w.getLast? = some b) :
    Takes previous text (s.drop w.length) b (s.drop w.length) := by
  obtain ⟨u, hu⟩ := h
  obtain ⟨v, hv⟩ := hw
  obtain ⟨w', rfl⟩ := List.getLast?_eq_some_iff.1 hb
  have hrest : (s.drop (w' ++ [b]).length).rest = v := by rw [Source.rest_drop, ← hv, List.drop_left]
  have htext : (u ++ w') ++ b :: v = text := by rw [← hu, ← hv, List.append_assoc, List.append_assoc]; rfl
  rw [Takes, hrest]
  exact gives_previous htext

/-! ## Stretches of text -/

/-- A byte of a string that is not escaped. -/
theorem takes_quotedTurn (h : s.rest <:+ text) (hs : s.rest = b :: bs) (hb : ¬ (b = Ascii.quote ∨ b = Ascii.lf))
    (hplain : b = Ascii.backslash → bs = [] ∨ bs.head? = some Ascii.lf) :
    Takes (quotedTurn ()) text s (.again ()) (s.drop 1) := by
  refine (takes_more h hs).bind (.ite (fun hno => nomatch hno) fun _ => (takes_next h hs).bind ?_)
  refine .ite (fun hyes => absurd hyes hb) fun _ => (takes_advance h hs).bind ?_
  have hdrop := suffix_drop h 1
  refine (gives_atEnd hdrop).bind ((takes_peek hdrop 0).bind (.ite (fun hyes => ?_) fun _ => .pure))
  obtain ⟨hback, hmore, hnext⟩ := hyes
  rw [Source.rest_drop, hs, List.drop_one, List.tail_cons] at hmore hnext
  rcases hplain hback with rfl | hlf
  · exact nomatch hmore
  · obtain ⟨es, rfl⟩ := List.head?_eq_some_iff.1 hlf
    exact absurd rfl hnext

theorem takes_quotedTurn_escape {e : UInt8} (h : s.rest <:+ text) (hs : s.rest = Ascii.backslash :: e :: bs)
    (he : e ≠ Ascii.lf) : Takes (quotedTurn ()) text s (.again ()) (s.drop 2) := by
  have hb : ¬ (Ascii.backslash = Ascii.quote ∨ Ascii.backslash = Ascii.lf) := by decide
  refine (takes_more h hs).bind (.ite (fun hno => nomatch hno) fun _ => (takes_next h hs).bind ?_)
  refine .ite (fun hyes => absurd hyes hb) fun _ => (takes_advance h hs).bind ?_
  have hdrop := suffix_drop h 1
  have hs' : (s.drop 1).rest = e :: bs := rest_drop_one hs
  refine (takes_more hdrop hs').bind ((takes_next hdrop hs').bind (.ite (fun _ => ?_) fun hno => ?_))
  · rw [← s.drop_drop 1 1]
    exact (takes_advance hdrop hs').bind .pure
  · exact absurd ⟨rfl, rfl, he⟩ hno

/-- A loop goes on farther on in the text. -/
theorem takes_loop_again {σ α : Type} {turn : σ → Reading Position (Turn σ α)} {x x' : σ} {a : α} {m : Nat}
    (hturn : Takes (turn x) text s (.again x') (s.drop m)) (h : s.rest <:+ text) (hm : 0 < m)
    (hne : s.rest ≠ []) (hloop : Takes (loop turn x') text (s.drop m) a s') :
    Takes (loop turn x) text s a s' := by
  refine gives_loop_again hturn h ?_ hloop
  have hpos := List.length_pos_iff.2 hne
  rw [Source.length_drop_rest]
  omega

theorem takes_quotedTurn_stop (h : s.rest <:+ text) (hs : s.rest = b :: bs) (hb : b = Ascii.quote ∨ b = Ascii.lf) :
    Takes (quotedTurn ()) text s (.stop ()) s := by
  refine (takes_more h hs).bind (.ite (fun hno => nomatch hno) fun _ => (takes_next h hs).bind ?_)
  exact .ite (fun _ => .pure) fun hno => absurd hb hno

/-- A string is passed up to its closing quote, or to the end of its line. -/
theorem exists_takes_quoted (v : Bytes) : ∀ s : Source, s.rest = v → v <:+ text → ∃ n,
    Takes (loop quotedTurn ()) text s () (s.drop n) ∧
      Stretch.string v = if (v.drop n).head? = some Ascii.quote then n + 1 else n := by
  -- the loop leaves the closing quote, which the length of the string counts
  fun_induction Stretch.string v with
  | case1 =>
    intro s hs h
    exact ⟨0, gives_loop_stop ((takes_end hs).bind .pure), rfl⟩
  | case2 bs =>
    intro s hs h
    exact ⟨0, gives_loop_stop (takes_quotedTurn_stop (hs ▸ h) hs (.inl rfl)), rfl⟩
  | case3 bs hquote =>
    intro s hs h
    exact ⟨0, gives_loop_stop (takes_quotedTurn_stop (hs ▸ h) hs (.inr rfl)), rfl⟩
  | case4 hquote hlf =>
    intro s hs h
    rw [← hs] at h
    have hturn := takes_quotedTurn h hs (by decide) fun _ => .inl rfl
    have hend : (s.drop 1).rest = [] := rest_drop_one hs
    have hloop : Takes (loop quotedTurn ()) text (s.drop 1) () (s.drop 1) :=
      gives_loop_stop ((takes_end hend).bind .pure)
    exact ⟨1, takes_loop_again hturn h Nat.one_pos (by simp [hs]) hloop, rfl⟩
  | case5 es hquote hlf =>
    intro s hs h
    rw [← hs] at h
    have hturn := takes_quotedTurn h hs (by decide) fun _ => .inr rfl
    have hrest : (s.drop 1).rest = Ascii.lf :: es := rest_drop_one hs
    have hstop := takes_quotedTurn_stop (suffix_drop h 1) hrest (.inr rfl)
    exact ⟨1, takes_loop_again hturn h Nat.one_pos (by simp [hs]) (gives_loop_stop hstop), rfl⟩
  | case6 e es he hquote hlf ih =>
    intro s hs h
    rw [← hs] at h
    have hturn := takes_quotedTurn_escape h hs he
    have hrest : (s.drop 2).rest = es := by rw [Source.rest_drop, hs]; rfl
    obtain ⟨n, hloop, hstring⟩ := ih (s.drop 2) hrest (hrest ▸ suffix_drop h 2)
    refine ⟨2 + n, takes_loop_again hturn h Nat.two_pos (by simp [hs]) (s.drop_drop 2 n ▸ hloop), ?_⟩
    rw [hstring, Nat.add_comm 2 n]
    change _ = if (es.drop n).head? = some Ascii.quote then n + 2 + 1 else n + 2
    split <;> omega
  | case7 b bs hquote hlf hbackslash ih => 
    intro s hs h
    rw [← hs] at h
    have hturn := takes_quotedTurn h hs (not_or.2 ⟨hquote, hlf⟩) fun hb => absurd hb hbackslash
    obtain ⟨n, hloop, hstring⟩ := ih (s.drop 1) (rest_drop_one hs) (suffix_tail h hs)
    refine ⟨1 + n, takes_loop_again hturn h Nat.one_pos (by simp [hs]) (s.drop_drop 1 n ▸ hloop), ?_⟩
    rw [hstring, Nat.add_comm 1 n]
    change _ = if (bs.drop n).head? = some Ascii.quote then n + 1 + 1 else n + 1
    split <;> omega

theorem takes_quoted (h : s.rest <:+ text) (hs : s.rest = Ascii.quote :: bs) :
    Takes quoted text s () (s.drop (Stretch.string bs + 1)) := by
  have hrest : (s.drop 1).rest = bs := rest_drop_one hs
  obtain ⟨n, hloop, hstring⟩ := exists_takes_quoted bs (s.drop 1) hrest (suffix_tail h hs)
  have hn : (s.drop (1 + n)).rest <:+ text := suffix_drop h _
  have hbehind : (s.drop (1 + n)).rest = bs.drop n := by rw [← Source.drop_drop, Source.rest_drop, hrest]
  rw [Source.drop_drop] at hloop
  rw [hstring, ← hbehind, Nat.add_comm]
  refine (takes_advance h hs).bind (hloop.bind (takes_ifNext (by decide) hn (fun hyes hadvance => ?_) fun hno => ?_))
  · rw [Source.drop_drop, Nat.add_assoc] at hadvance
    rw [if_pos hyes]
    exact hadvance.bind .pure
  · rw [if_neg hno]
    exact .pure

theorem covers_skipString : Covers skipString Stretch.leadingString text := by
  intro s b bs h hs
  rw [hs, Stretch.leadingString, List.head?_cons, List.tail_cons]
  refine (takes_next h hs).bind (.ite (fun hyes => ?_) fun hno => ?_)
  · subst hyes
    rw [if_pos rfl]
    exact (takes_quoted h hs).bind .pure
  · rw [if_neg fun hquote => hno (Option.some.inj hquote)]
    exact .pure


theorem takes_startsWith (h : s.rest <:+ text) (t : Bytes) :
    Takes (startsWith t) text s (Bytes.startsWith s.rest t) s := gives_startsWith h t

theorem drop_of_length_le (h : s.rest.length ≤ n) : s.drop n = s.finish := by
  rw [Source.finish, Source.drop, Source.drop, List.drop_of_length_le h, List.take_of_length_le h,
    List.drop_length, List.take_length]

/-- What ends with `close` ends behind the text up to it. -/
theorem through?_eq_upTo (close v : Bytes) : Stretch.through? close v =
    if (upTo (Bytes.startsWith · close) v).length < v.length
    then some ((upTo (Bytes.startsWith · close) v).length + close.length) else none := by
  induction v with
  | nil => rfl
  | cons b bs ih =>
    rw [Stretch.through?, upTo]
    split
    · rw [List.length_nil, if_pos (List.length_pos_iff.2 (List.cons_ne_nil b bs)), Nat.zero_add]
    · rw [ih, List.length_cons, List.length_cons]
      simp only [Nat.succ_lt_succ_iff]
      split
      · rw [Option.map_some, Nat.add_right_comm]
      · rfl

/-- The end of a block comment, behind its start. -/
theorem drop_through? (s : Source) : (((s.drop 2).drop
      (upTo (Bytes.startsWith · "*/") (s.drop 2).rest).length).drop 2) =
    s.drop (((Stretch.through? "*/" (s.rest.drop 2)).map (· + 2)).getD s.rest.length) := by
  rw [through?_eq_upTo, Source.drop_drop, Source.drop_drop, Source.rest_drop]
  have hle := (prefix_upTo (Bytes.startsWith · "*/") (s.rest.drop 2)).length_le
  split
  · rw [Option.map_some, Option.getD_some]
    exact congrArg s.drop (by change _ = _ + 2 + 2; omega)
  · next hend =>
    rw [Option.map_none, Option.getD_none]
    refine drop_of_length_le ?_
    rw [List.length_drop] at hle hend
    omega

theorem covers_skipTrivia : Covers skipTrivia Stretch.leadingTrivia text := by
  intro s b bs h hs
  have hhead : s.rest.head? = some b := by rw [hs, List.head?_cons]
  refine (takes_next h hs).bind (.ite (fun hyes => ?_) fun hno => ?_)
  · subst hyes
    have hlength : Stretch.leadingTrivia s.rest = Stretch.string bs + 1 := by
      rw [Stretch.leadingTrivia, if_pos hhead, hs, List.tail_cons]
    rw [hlength]
    exact (takes_quoted h hs).bind .pure
  rw [Stretch.leadingTrivia, if_neg fun hquote => hno (Option.some.inj (hhead.symm.trans hquote))]
  refine (takes_startsWith h _).bind (.ite (fun hyes => ?_) fun hno => ?_)
  · have hslash : b = Ascii.slash := by
      rw [hs] at hyes
      exact (List.cons_prefix_cons.1 (List.isPrefixOf_iff_prefix.1 hyes)).1.symm
    have hpos : decide (0 < (s.rest.takeWhile (· ≠ Ascii.lf)).length) = true := by
      rw [hs, hslash]
      rfl
    rw [if_pos hyes, hpos]
    exact (takes_readWhile h _).bind .pure
  rw [if_neg hno]
  refine (takes_startsWith h _).bind (.ite (fun hyes => ?_) fun hno => ?_)
  · have hpos : decide (0 < ((Stretch.through? "*/" (s.rest.drop 2)).map (· + 2)).getD s.rest.length) = true := by
      rw [decide_eq_true_eq]
      cases Stretch.through? "*/" (s.rest.drop 2) with
      | none => exact List.length_pos_iff.2 (by simp [hs])
      | some n => exact Nat.succ_pos _
    have hread : Takes (readUntil (startsWith "*/")) text (s.drop 2) (upTo (Bytes.startsWith · "*/") (s.drop 2).rest)
        ((s.drop 2).drop (upTo (Bytes.startsWith · "*/") (s.drop 2).rest).length) :=
      takes_readUntil (suffix_drop h 2) fun v p hv => gives_startsWith hv _
    rw [if_pos hyes, hpos, ← drop_through?]
    refine (takes_advanceBy h 2).bind (hread.bind ?_)
    exact (takes_advanceBy (suffix_drop (suffix_drop h 2) _) 2).bind .pure
  · rw [if_neg hno]
    exact .pure

/-- What is found farther on is found from here, or else the end of the text. -/
theorem takes_loop_found {σ : Type} {turn : σ → Reading Position (Turn σ Bool)} {x x' : σ} {found : Option Nat}
    (hturn : Takes (turn x) text s (.again x') (s.drop n)) (h : s.rest <:+ text) (hn : 0 < n)
    (hne : s.rest ≠ [])
    (hloop : Takes (loop turn x') text (s.drop n) found.isSome
      ((s.drop n).drop (found.getD (s.rest.drop n).length))) :
    Takes (loop turn x) text s (found.map (· + n)).isSome (s.drop ((found.map (· + n)).getD s.rest.length)) := by
  refine takes_loop_again hturn h hn hne ?_
  rw [Source.drop_drop] at hloop
  cases found with
  | none =>
    have hend : s.drop (n + (s.rest.drop n).length) = s.drop s.rest.length := by
      rw [List.length_drop]
      exact drop_of_length_le (by omega)
    rw [Option.getD_none, hend] at hloop
    exact hloop
  | some m =>
    rw [Option.getD_some, Nat.add_comm n m] at hloop
    exact hloop

theorem takes_loop_found_one {σ : Type} {turn : σ → Reading Position (Turn σ Bool)} {x x' : σ}
    {found : Option Nat} (hturn : Takes (turn x) text s (.again x') (s.drop 1)) (h : s.rest <:+ text)
    (hs : s.rest = b :: bs)
    (hloop : Takes (loop turn x') text (s.drop 1) found.isSome ((s.drop 1).drop (found.getD bs.length))) :
    Takes (loop turn x) text s (found.map (· + 1)).isSome
      (s.drop ((found.map (· + 1)).getD (b :: bs).length)) := by
  rw [← rest_drop_one hs] at hloop
  rw [← hs]
  exact takes_loop_found hturn h Nat.one_pos (by simp [hs]) hloop

/-- What ends a comment is found, or else the end of the text. -/
theorem takes_closeTurn (close v : Bytes) : ∀ s : Source, s.rest = v → v <:+ text →
    Takes (loop (closeTurn close) ()) text s (Stretch.through? close v).isSome
      (s.drop ((Stretch.through? close v).getD v.length)) := by
  induction v with
  | nil =>
    intro s hs h
    exact gives_loop_stop ((takes_end hs).bind .pure)
  | cons b bs ih =>
    intro s hs h
    rw [← hs] at h
    rw [Stretch.through?]
    have hstart := takes_startsWith h close
    rw [hs] at hstart
    split
    · next hclose =>
      rw [hclose] at hstart
      exact gives_loop_stop ((takes_more h hs).bind (hstart.bind ((takes_advanceBy h _).bind .pure)))
    · next hclose =>
      rw [Bool.not_eq_true] at hclose
      rw [hclose] at hstart
      have hturn : Takes (closeTurn close ()) text s (.again ()) (s.drop 1) :=
        (takes_more h hs).bind (hstart.bind ((takes_advance h hs).bind .pure))
      exact takes_loop_found_one hturn h hs (ih _ (rest_drop_one hs) (suffix_tail h hs))

theorem Covers.takes_false {skip : Reading Position Bool} {length : Bytes → Nat} (hskip : Covers skip length text)
    (h : s.rest <:+ text) (hs : s.rest = b :: bs) (hlength : ¬ 0 < length (b :: bs)) :
    Takes skip text s false s := by
  have hcovered := hskip s b bs h hs
  rw [hs, decide_eq_false hlength, Nat.eq_zero_of_not_pos hlength] at hcovered
  exact hcovered

/-- The byte that ends `depth` pairs is found, or else the end of the text. -/
theorem takes_balanced {skip : Reading Position Bool} {length : Bytes → Nat} (hskip : Covers skip length text)
    (opening closing : UInt8) (depth : Nat) (v : Bytes) : ∀ s : Source, s.rest = v → v <:+ text →
    Takes (loop (balancedTurn skip opening closing) depth) text s
      (Stretch.matching? length opening closing depth v).isSome
      (s.drop ((Stretch.matching? length opening closing depth v).getD v.length)) := by
  -- one turn of the loop for each step of `matching?`: all that `skip` covers is passed in one
  fun_induction Stretch.matching? length opening closing depth v with
  | case1 depth =>
    intro s hs h
    exact gives_loop_stop ((takes_end hs).bind .pure)
  | case2 depth b bs hlength ih =>
    intro s hs h
    rw [← hs] at h
    have hturn : Takes (balancedTurn skip opening closing depth) text s (.again depth) (s.drop (length s.rest)) := by
      have hcovered := hskip s b bs h hs
      rw [hs, decide_eq_true hlength, ← hs] at hcovered
      exact (takes_more h hs).bind (hcovered.bind .pure)
    rw [← hs] at ih hlength ⊢
    exact takes_loop_found hturn h hlength (by simp [hs]) (ih _ rfl (suffix_drop h _))
  | case3 depth bs hlength ih =>
    intro s hs h
    rw [← hs] at h
    have hturn : Takes (balancedTurn skip opening closing depth) text s (.again (depth + 1)) (s.drop 1) :=
      (takes_more h hs).bind ((hskip.takes_false h hs hlength).bind ((takes_next h hs).bind
        (.ite (fun _ => (takes_advance h hs).bind .pure) fun hne => absurd rfl hne)))
    exact takes_loop_found_one hturn h hs (ih _ (rest_drop_one hs) (suffix_tail h hs))
  | case4 depth bs hle hlength hne =>
    intro s hs h
    rw [← hs] at h
    refine gives_loop_stop ((takes_more h hs).bind ((hskip.takes_false h hs hlength).bind
      ((takes_next h hs).bind (.ite (fun hopen => absurd hopen hne) fun _ => ?_))))
    exact .ite (fun _ => .ite (fun _ => .pure) fun hgt => absurd hle hgt) fun hno => absurd rfl hno
  | case5 depth bs hgt hlength hne ih =>
    intro s hs h
    rw [← hs] at h
    have hturn : Takes (balancedTurn skip opening closing depth) text s (.again (depth - 1)) (s.drop 1) := by
      refine (takes_more h hs).bind ((hskip.takes_false h hs hlength).bind
        ((takes_next h hs).bind (.ite (fun hopen => absurd hopen hne) fun _ => ?_)))
      refine .ite (fun _ => .ite (fun hle => absurd hle hgt) fun _ => ?_) fun hno => absurd rfl hno
      exact (takes_advance h hs).bind .pure
    exact takes_loop_found_one hturn h hs (ih _ (rest_drop_one hs) (suffix_tail h hs))
  | case6 depth b bs hlength hopen hclose ih =>
    intro s hs h
    rw [← hs] at h
    have hturn : Takes (balancedTurn skip opening closing depth) text s (.again depth) (s.drop 1) := by
      refine (takes_more h hs).bind ((hskip.takes_false h hs hlength).bind
        ((takes_next h hs).bind (.ite (fun hyes => absurd hyes hopen) fun _ => ?_)))
      exact .ite (fun hyes => absurd hyes hclose) fun _ => (takes_advance h hs).bind .pure
    exact takes_loop_found_one hturn h hs (ih _ (rest_drop_one hs) (suffix_tail h hs))

end

end ViewCompiler.Checked
