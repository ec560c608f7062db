import Mathlib.Data.List.TakeWhile
import ViewCompiler.Proofs.Lexemes

/-!
What a byte of a text stands in: a string, a comment, or neither. `Mode` is read off a text byte by byte.
Lexemes start outside strings and comments, and inside a lexeme no line starts there
(`Mode.reads_ofText`).
-/

namespace ViewCompiler

/-! ## Where a byte stands -/

/-- What the next byte of a text stands in. -/
inductive Mode where
  /-- Outside strings and comments, at the start of a line or not. -/
  | between (lineStart : Bool)
  /-- Behind a slash that may start a comment. -/
  | slash
  /-- In a comment or a directive that ends with its line. -/
  | line
  /-- In a block comment, behind a star or not. -/
  | block (star : Bool)
  /-- In a string, behind a backslash that escapes or not. -/
  | string (escaped : Bool)
deriving DecidableEq, Repr

namespace Mode

/-- A byte that stands outside strings and comments. -/
def outside (lineStart : Bool) (b : UInt8) : Mode :=
  if b = Ascii.lf then .between true
  else if b = Ascii.quote then .string false
  else if b = Ascii.slash then .slash
  else if b = Ascii.hash ∧ lineStart then .line
  else .between false

def step (m : Mode) (b : UInt8) : Mode :=
  match m with
  | between lineStart => outside lineStart b
  | slash =>
    if b = Ascii.slash then .line
    else if b = Ascii.star then .block false
    else outside false b
  | line => if b = Ascii.lf then .between true else .line
  | block star => if star ∧ b = Ascii.slash then .between false else .block (b = Ascii.star)
  | string true => .string false
  | string false =>
    if b = Ascii.quote then .between false
    else if b = Ascii.lf then .between true
    else .string (b = Ascii.backslash)

def steps (m : Mode) (w : Bytes) : Mode := w.foldl step m

/-- No byte of the text stands outside strings and comments at the start of a line. -/
def Quiet : Mode → Bytes → Prop
  | _, [] => True
  | m, b :: w => m ≠ .between true ∧ Quiet (m.step b) w

variable {m : Mode} {b : UInt8} {s : Bool} {v w bs : Bytes}

theorem steps_append (m : Mode) (v w : Bytes) : m.steps (v ++ w) = (m.steps v).steps w := List.foldl_append

theorem Quiet.steps_ne (h : Quiet m (v ++ b :: w)) : m.steps v ≠ .between true := by
  induction v generalizing m with
  | nil => exact h.1
  | cons x v ih => exact ih h.2

/-- A line feed ends everything but block comments and, behind a backslash, strings. -/
theorem step_lf (m : Mode) :
    m.step Ascii.lf = .between true ∨ m.step Ascii.lf = .block false ∨ m.step Ascii.lf = .string false := by
  cases m with
  | between s => exact .inl rfl
  | slash => exact .inl rfl
  | line => exact .inl rfl
  | block star => cases star <;> exact .inr (.inl rfl)
  | string escaped =>
    cases escaped with
    | false => exact .inl rfl
    | true => exact .inr (.inr rfl)

/-- Only a line feed starts a line. -/
theorem eq_lf_of_step (h : m.step b = .between true) : b = Ascii.lf := by
  by_contra hb
  have houtside (s : Bool) : outside s b ≠ .between true := by
    rw [outside, if_neg hb]
    split
    · exact Mode.noConfusion
    split
    · exact Mode.noConfusion
    split <;> simp
  cases m with
  | between s => exact houtside s h
  | slash =>
    rw [step] at h
    split at h
    · cases h
    split at h
    · cases h
    · exact houtside false h
  | line =>
    rw [step, if_neg hb] at h
    cases h
  | block star =>
    rw [step] at h
    split at h <;> cases h
  | string escaped =>
    cases escaped with
    | true => cases h
    | false =>
      rw [step, if_neg hb] at h
      split at h <;> cases h

/-- A run that stays where it is. -/
theorem run_of_step_eq (hm : m ≠ .between true) (h : ∀ b ∈ w, m.step b = m) : Quiet m w ∧ m.steps w = m := by
  induction w with
  | nil => exact ⟨trivial, rfl⟩
  | cons b w ih =>
    obtain ⟨hb, hw⟩ := List.forall_mem_cons.1 h
    obtain ⟨hquiet, hsteps⟩ := ih hw
    refine ⟨⟨hm, hb.symm ▸ hquiet⟩, ?_⟩
    change (m.step b).steps w = m
    rw [hb, hsteps]

theorem run_line (h : Ascii.lf ∉ w) : Quiet .line w ∧ steps .line w = .line :=
  run_of_step_eq (by decide) fun b hb => if_neg (by rintro rfl; exact h hb)

/-- Names and numbers. -/
theorem step_isNameByte (h : Ascii.isNameByte b = true) (s : Bool) :
    (between s).step b = .between false := by
  have hne {x : UInt8} (hx : Ascii.isNameByte x = false) : b ≠ x := by
    rintro rfl
    rw [h] at hx
    cases hx
  change outside s b = _
  rw [outside, if_neg (hne rfl), if_neg (hne rfl), if_neg (hne rfl), if_neg fun hb => hne rfl hb.1]

theorem run_name (h : ∀ b ∈ w, Ascii.isNameByte b = true) :
    Quiet (.between false) w ∧ (between false).steps w = .between false :=
  run_of_step_eq (by decide) fun b hb => step_isNameByte (h b hb) false

/-- A block comment that ends. -/
theorem run_comment {body rest : Bytes} (h : Lexeme.splitComment bs = some (body, rest)) (star : Bool)
    (hstar : star = true → bs.head? ≠ some Ascii.slash) :
    Quiet (.block star) body ∧ (block star).steps body = .between false := by
  induction bs generalizing body star with
  | nil => cases h
  | cons b bs ih =>
    have hopen : ¬ (star = true ∧ b = Ascii.slash) := fun hb => hstar hb.1 (congrArg some hb.2)
    have hstep : (block star).step b = .block (b = Ascii.star) := if_neg hopen
    rw [Lexeme.splitComment] at h
    split at h
    · next hend =>
      cases h
      obtain ⟨rfl, -⟩ := hend
      have hclose : (block (decide (Ascii.star = Ascii.star))).step Ascii.slash = .between false := rfl
      rw [Quiet, Quiet, Quiet]
      refine ⟨⟨by simp, hstep ▸ by simp, trivial⟩, ?_⟩
      change ((block star).step Ascii.star).step Ascii.slash = _
      rw [hstep, hclose]
    · next hgo =>
      obtain ⟨⟨body', rest'⟩, hsplit, hbody⟩ := Option.map_eq_some_iff.1 h
      cases hbody
      obtain ⟨hquiet, hsteps⟩ := ih hsplit (decide (b = Ascii.star)) fun hb hslash =>
        hgo ⟨of_decide_eq_true hb, hslash⟩
      refine ⟨⟨by simp, hstep ▸ hquiet⟩, ?_⟩
      change ((block star).step b).steps body' = _
      rw [hstep, hsteps]

/-- A block comment that does not end. -/
theorem run_open_comment (h : Lexeme.splitComment bs = none) (star : Bool)
    (hstar : star = true → bs.head? ≠ some Ascii.slash) : Quiet (.block star) bs := by
  induction bs generalizing star with
  | nil => trivial
  | cons b bs ih =>
    have hopen : ¬ (star = true ∧ b = Ascii.slash) := fun hb => hstar hb.1 (congrArg some hb.2)
    have hstep : (block star).step b = .block (b = Ascii.star) := if_neg hopen
    rw [Lexeme.splitComment] at h
    split at h
    · cases h
    · next hgo =>
      have hquiet := ih (Option.map_eq_none_iff.1 h) (decide (b = Ascii.star)) fun hb hslash =>
        hgo ⟨of_decide_eq_true hb, hslash⟩
      exact ⟨by simp, hstep ▸ hquiet⟩

/-- The body of a string, which ends with its closing quote, in front of the end of its line, or with
the text. -/
theorem run_string (bs : Bytes) : Quiet (.string false) (Lexeme.stringBody bs).raw ∧
    ((string false).steps (Lexeme.stringBody bs).raw = .between false ∨ (Lexeme.stringBody bs).rest = [] ∨
      ((string false).steps (Lexeme.stringBody bs).raw = .string false ∧
        (Lexeme.stringBody bs).rest.head? = some Ascii.lf)) := by
  have hstring (e : Bool) : string e ≠ .between true := by simp
  fun_induction Lexeme.stringBody bs with
  | case1 => exact ⟨trivial, .inr (.inl rfl)⟩
  | case2 => exact ⟨⟨hstring _, trivial⟩, .inl rfl⟩
  | case3 => exact ⟨trivial, .inr (.inr ⟨rfl, rfl⟩)⟩
  | case4 => exact ⟨⟨hstring _, trivial⟩, .inr (.inl rfl)⟩
  | case5 e bs r _ _ ih => exact ⟨⟨hstring _, hstring _, ih.1⟩, ih.2⟩
  | case6 b bs hquote hlf hbackslash r ih =>
    have hstep : (string false).step b = .string false := by
      rw [step, if_neg hquote, if_neg hlf, decide_eq_false hbackslash]
    have hsteps : (string false).steps (b :: r.raw) = (string false).steps r.raw := by
      change ((string false).step b).steps r.raw = _
      rw [hstep]
    refine ⟨⟨hstring _, hstep.symm ▸ ih.1⟩, ?_⟩
    dsimp only
    rw [hsteps]
    exact ih.2

/-! ## Lexemes -/

/-- What may stand in front of a lexeme. -/
inductive Ready : Mode → Bytes → Prop where
  | between {s : Bool} {v : Bytes} : Ready (.between s) v
  | slash {b : UInt8} {v : Bytes} : b ≠ Ascii.slash → b ≠ Ascii.star → Ready .slash (b :: v)
  | lf {m : Mode} {v : Bytes} : m = .line ∨ m = .string false → Ready m (Ascii.lf :: v)
  | nil {m : Mode} : Ready m []

theorem Ready.of_line {m : Mode} (hm : m = .line ∨ m = .string false)
    (hv : v = [] ∨ v.head? = some Ascii.lf) : Ready m v := by
  cases v with
  | nil => exact .nil
  | cons b v =>
    obtain rfl : b = Ascii.lf := Option.some.inj (hv.resolve_left (List.cons_ne_nil _ _))
    exact .lf hm

/-- A lexeme whose first byte `b` stands outside strings and comments: behind that byte no line starts
there, and the next lexeme can be read where it ends. -/
def Reads (s : Bool) (b : UInt8) (l : Lexeme) : Prop :=
  ∃ w, l.raw = b :: w ∧ Quiet (outside s b) w ∧ Ready ((outside s b).steps w) l.rest

/-- What ends with its line. -/
theorem run_takeWhile_lf (bs : Bytes) : Quiet .line (bs.takeWhile (· ≠ Ascii.lf)) ∧
    Ready (steps .line (bs.takeWhile (· ≠ Ascii.lf))) (bs.dropWhile (· ≠ Ascii.lf)) := by
  have hlf : Ascii.lf ∉ bs.takeWhile (· ≠ Ascii.lf) := fun hlf => by
    simpa using List.mem_takeWhile_imp hlf
  obtain ⟨hquiet, hsteps⟩ := run_line hlf
  refine ⟨hquiet, hsteps.symm ▸ .of_line (.inl rfl) ?_⟩
  cases h : bs.dropWhile (· ≠ Ascii.lf) with
  | nil => exact .inl rfl
  | cons b w =>
    have hb := List.head?_dropWhile_not (fun b => decide (b ≠ Ascii.lf)) bs
    rw [h] at hb
    exact .inr (congrArg some (by simpa using hb))

theorem reads_directive (bs : Bytes) : Reads true Ascii.hash (Lexeme.ofDirective (Ascii.hash :: bs)) := by
  have hraw : (Lexeme.ofDirective (Ascii.hash :: bs)).raw = Ascii.hash :: bs.takeWhile (· ≠ Ascii.lf) := by
    rw [Lexeme.ofDirective]
    split <;> rfl
  have hrest : (Lexeme.ofDirective (Ascii.hash :: bs)).rest = bs.dropWhile (· ≠ Ascii.lf) := by
    rw [Lexeme.ofDirective]
    split <;> rfl
  exact ⟨_, hraw, (run_takeWhile_lf bs).1, hrest.symm ▸ (run_takeWhile_lf bs).2⟩

theorem reads_lineComment (s : Bool) (bs : Bytes) : Reads s Ascii.slash
    { raw := Ascii.slash :: Ascii.slash :: bs.takeWhile (· ≠ Ascii.lf), rest := bs.dropWhile (· ≠ Ascii.lf) } :=
  ⟨_, rfl, ⟨Mode.noConfusion, (run_takeWhile_lf bs).1⟩, (run_takeWhile_lf bs).2⟩

theorem reads_blockComment (s : Bool) (bs : Bytes) :
    Reads s Ascii.slash (Lexeme.ofBlockComment [Ascii.slash, Ascii.star] bs) := by
  rw [Lexeme.ofBlockComment]
  split
  · next body rest hsplit =>
    obtain ⟨hquiet, hsteps⟩ := run_comment hsplit false Bool.noConfusion
    refine ⟨Ascii.star :: body, rfl, ⟨Mode.noConfusion, hquiet⟩, ?_⟩
    have hend : (outside s Ascii.slash).steps (Ascii.star :: body) = .between false := hsteps
    exact hend ▸ .between
  · next hsplit =>
    exact ⟨Ascii.star :: bs, rfl, ⟨Mode.noConfusion, run_open_comment hsplit false Bool.noConfusion⟩, .nil⟩

/-- Words and numbers. -/
theorem reads_name {l : Lexeme} (hb : Ascii.isNameByte b = true) (hw : ∀ x ∈ w, Ascii.isNameByte x = true)
    (hraw : l.raw = b :: w) : Reads s b l := by
  have hfirst : outside s b = .between false := step_isNameByte hb s
  obtain ⟨hquiet, hsteps⟩ := run_name hw
  refine ⟨w, hraw, hfirst.symm ▸ hquiet, ?_⟩
  rw [hfirst, hsteps]
  exact .between

theorem reads_string (s : Bool) (bs : Bytes) : Reads s Ascii.quote (Lexeme.ofString Ascii.quote bs) := by
  obtain ⟨hquiet, hend⟩ := run_string bs
  refine ⟨(Lexeme.stringBody bs).raw, rfl, hquiet, ?_⟩
  change Ready ((string false).steps (Lexeme.stringBody bs).raw) (Lexeme.stringBody bs).rest
  rcases hend with hend | hend | ⟨hend, hlf⟩
  · rw [hend]
    exact .between
  · rw [hend]
    exact .nil
  · exact .of_line (.inr hend) (.inr hlf)

/-- The second byte of a mark. -/
theorem step_ofTwoBytes? {c : UInt8} {p : Punct} (h : Punct.ofTwoBytes? b c = some p) :
    (between false).step c = .between false := by
  rw [Punct.ofTwoBytes?] at h
  split at h
  · next hequal => rw [hequal]; rfl
  split at h
  · next hand => rw [hand.2]; rfl
  split at h
  · next hor => rw [hor.2]; rfl
  · cases h

/-- Marks, and bytes that start no lexeme. -/
theorem reads_mark (hlf : b ≠ Ascii.lf) (hquote : b ≠ Ascii.quote) (hhash : ¬ (b = Ascii.hash ∧ s = true))
    (hslash : b = Ascii.slash → bs.head? ≠ some Ascii.slash ∧ bs.head? ≠ some Ascii.star) :
    Reads s b (Lexeme.ofMark b bs) := by
  rw [Lexeme.ofMark]
  by_cases hb : b = Ascii.slash
  · subst hb
    have hnone : bs.head?.bind (Punct.ofTwoBytes? Ascii.slash) = none :=
      Option.bind_eq_none_iff.2 fun c _ => ofTwoBytes?_eq_none (by decide) c
    rw [hnone]
    refine ⟨[], rfl, trivial, ?_⟩
    obtain ⟨hfirst, hsecond⟩ := hslash rfl
    cases bs with
    | nil => exact .nil
    | cons c bs => exact .slash (fun hc => hfirst (congrArg some hc)) fun hc => hsecond (congrArg some hc)
  · have hfirst : outside s b = .between false := by
      rw [outside, if_neg hlf, if_neg hquote, if_neg hb, if_neg hhash]
    rw [Reads, hfirst]
    split
    · next p hp =>
      obtain ⟨c, hc, htwo⟩ := Option.bind_eq_some_iff.1 hp
      obtain ⟨bs, rfl⟩ := List.head?_eq_some_iff.1 hc
      refine ⟨[c], rfl, ⟨by decide, trivial⟩, ?_⟩
      change Ready ((between false).step c) bs
      exact (step_ofTwoBytes? htwo).symm ▸ .between
    · split <;> exact ⟨[], rfl, trivial, .between⟩

theorem reads_ofText (s : Bool) (b : UInt8) (bs : Bytes) : Reads s b (Lexeme.ofText s b bs) := by
  rw [Lexeme.ofText]
  split
  · next hhash =>
    obtain ⟨rfl, rfl⟩ := hhash
    exact reads_directive bs
  next hhash =>
  split
  · next hblank =>
    refine ⟨[], rfl, trivial, ?_⟩
    simp only [Lexeme.isBlank, Bool.or_eq_true, beq_iff_eq] at hblank
    rcases hblank with ((rfl | rfl) | rfl) | rfl <;> exact .between
  next hblank =>
  split
  · next hcomment =>
    obtain ⟨rfl, hhead⟩ := hcomment
    obtain ⟨bs, rfl⟩ := List.head?_eq_some_iff.1 hhead
    exact reads_lineComment s bs
  next hline =>
  split
  · next hcomment =>
    obtain ⟨rfl, hhead⟩ := hcomment
    obtain ⟨bs, rfl⟩ := List.head?_eq_some_iff.1 hhead
    exact reads_blockComment s bs
  next hblock =>
  split
  · next hname =>
    exact reads_name (Ascii.isNameByte_of_isNameStart hname) (fun b => List.mem_takeWhile_imp) rfl
  split
  · next hdigit =>
    have hraw : (Lexeme.ofDigits b bs).raw = b :: bs.takeWhile Ascii.isDigit := by
      rw [Lexeme.ofDigits]
      split <;> rfl
    exact reads_name (Ascii.isNameByte_of_isDigit hdigit)
      (fun b hb => Ascii.isNameByte_of_isDigit (List.mem_takeWhile_imp hb)) hraw
  split
  · next hquote => exact hquote ▸ reads_string s bs
  · next hquote =>
    have hlf : b ≠ Ascii.lf := by
      rintro rfl
      exact hblank rfl
    exact reads_mark hlf hquote hhash fun hb => ⟨fun hc => hline ⟨hb, hc⟩, fun hc => hblock ⟨hb, hc⟩⟩

end Mode

end ViewCompiler
