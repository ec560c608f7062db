import ViewCompiler.Proofs.Scanning
import ViewCompiler.Template.Source

/-!
Reading a text by offsets, with checks. A `Reading` holds an offset into a text and the place of its
next byte. Moving on at the end of the text, looking at a byte that is not there, cutting out a part that
starts behind the end, and a turn of a loop that moves nowhere are faults (`Overrun`). `Gives` says that
a reading does none of this, and what comes of it.
-/

namespace ViewCompiler.Checked

/-! ## Readings -/

/-- What must not happen while a text is read. -/
inductive Overrun where
  /-- Moving on at the end of the text. -/
  | advance
  /-- Looking at a byte that is not there. -/
  | index (i : Nat)
  /-- Cutting out a part that starts behind the end. -/
  | slice (start : Nat)
  /-- Going on with a loop without having moved. -/
  | idle
deriving DecidableEq, Repr, Inhabited

/-- Places that follow the bytes of a text. -/
class Place (P : Type) where
  step : P → UInt8 → P

instance : Place Cursor := ⟨Cursor.step⟩

instance : Place Position := ⟨Position.step⟩

/-- How far a text has been read. -/
structure Head (P : Type) where
  offset : Nat
  place : P
deriving DecidableEq, Repr

/-- A computation that reads a text. -/
abbrev Reading (P α : Type) := ReaderT Bytes (StateT (Head P) (Except Overrun)) α

/-- Whether a loop goes on. -/
inductive Turn (σ α : Type) where
  | again (s : σ)
  | stop (a : α)

section

variable {P α σ : Type}

def offset : Reading P Nat := return (← get).offset

def place : Reading P P := return (← get).place

def modifyPlace (f : P → P) : Reading P Unit := fun _ h => .ok ((), { h with place := f h.place })

/-- The byte at an offset. -/
def index (i : Nat) : Reading P UInt8 := fun text h =>
  match text[i]? with
  | some b => .ok (b, h)
  | none => .error (.index i)

def atEnd : Reading P Bool := return (← read).length ≤ (← offset)

/-- The byte that is `ahead` bytes farther on, NUL if the text has ended there. -/
def peek (ahead : Nat) : Reading P UInt8 := do
  let i := (← offset) + ahead
  if i < (← read).length then index i else return Ascii.nul

/-- The byte in front of the next one. -/
def previous : Reading P UInt8 := do
  let i ← offset
  if i = 0 then throw (.index i) else index (i - 1)

/-- At most `n` bytes of the text from `start` on. -/
def slice (start n : Nat) : Reading P Bytes := fun text h =>
  if start ≤ text.length then .ok ((text.drop start).take n, h) else .error (.slice start)

/-- The text from `start` up to the next byte. -/
def sliceFrom (start : Nat) : Reading P Bytes := do slice start ((← offset) - start)

/-- Whether the text goes on with `t`. -/
def startsWith (t : Bytes) : Reading P Bool := return (← slice (← offset) t.length) == t

/-- Takes turns until one stops. Every turn that does not stop has to move on. -/
def turns (turn : σ → Reading P (Turn σ α)) (s : σ) (text : Bytes) (h : Head P) :
    Except Overrun (α × Head P) :=
  match turn s text h with
  | .error e => .error e
  | .ok (.stop a, h') => .ok (a, h')
  | .ok (.again s', h') =>
    if h.offset < h'.offset ∧ h'.offset ≤ text.length then turns turn s' text h' else .error .idle
termination_by text.length - h.offset

def loop (turn : σ → Reading P (Turn σ α)) (s : σ) : Reading P α := fun text h => turns turn s text h

variable [Place P]

/-- Moves over the next byte. -/
def advance : Reading P UInt8 := fun text h =>
  match text[h.offset]? with
  | some b => .ok (b, { offset := h.offset + 1, place := Place.step h.place b })
  | none => .error .advance

/-- Reads up to where `stop` says, or to the end. -/
def readUntil (stop : Reading P Bool) : Reading P Bytes :=
  loop (fun out => do
    if ← atEnd then return .stop out
    else if ← stop then return .stop out
    else return .again (out ++ [← advance])) []

/-- Reads the bytes that satisfy `p`. -/
def readWhile (p : UInt8 → Bool) : Reading P Bytes := readUntil (return !p (← peek 0))

/-- Moves over the next `n` bytes, or to the end. -/
def advanceBy : Nat → Reading P Unit
  | 0 => return
  | n + 1 => do
    if ← atEnd then return
    else
      let _ ← advance
      advanceBy n

end

/-! ## What readings give -/

/-- The head in front of `v`, which is what is left of the text. -/
def before {P : Type} (text v : Bytes) (p : P) : Head P := { offset := text.length - v.length, place := p }

/-- The place behind a text. -/
def past {P : Type} [Place P] (p : P) (w : Bytes) : P := w.foldl Place.step p

/-- Without a fault the reading gives `a`, and comes from `v` at `p` to `v'` at `p'`. -/
def Gives {P α : Type} (m : Reading P α) (text v : Bytes) (p : P) (a : α) (v' : Bytes) (p' : P) : Prop :=
  m text (before text v p) = .ok (a, before text v' p')

namespace Gives

variable {P α β σ : Type} {m : Reading P α} {k : α → Reading P β} {text v v' v'' : Bytes} {p p' p'' : P}
variable {a : α} {b : β}

theorem pure : Gives (Pure.pure a : Reading P α) text v p a v p := rfl

theorem bind (h : Gives m text v p a v' p') (h' : Gives (k a) text v' p' b v'' p'') :
    Gives (m >>= k) text v p b v'' p'' := by
  have hm : (m >>= k) text (before text v p) =
      (m text (before text v p)).bind fun r => k r.1 text r.2 := rfl
  rw [Gives, hm, h]
  exact h'

theorem ite {c : Prop} [Decidable c] {m n : Reading P α} (hm : c → Gives m text v p a v' p')
    (hn : ¬ c → Gives n text v p a v' p') : Gives (if c then m else n) text v p a v' p' := by
  split
  · next hc => exact hm hc
  · next hc => exact hn hc

end Gives

section

variable {P : Type} {text u v w : Bytes} {b : UInt8} {bs : Bytes} {p : P}

theorem drop_offset (h : v <:+ text) : text.drop (text.length - v.length) = v :=
  (List.suffix_iff_eq_drop.1 h).symm

theorem getElem?_offset (h : v <:+ text) (i : Nat) : text[text.length - v.length + i]? = v[i]? := by
  rw [← List.getElem?_drop, drop_offset h]

theorem gives_offset : Gives offset text v p (text.length - v.length) v p := rfl

theorem gives_place : Gives place text v p p v p := rfl

theorem gives_modifyPlace (f : P → P) : Gives (modifyPlace f) text v p () v (f p) := rfl

theorem gives_atEnd (h : v <:+ text) : Gives atEnd text v p v.isEmpty v p := by
  have hlength := h.length_le
  have hend : decide (text.length ≤ text.length - v.length) = v.isEmpty := by
    cases v with
    | nil => simp
    | cons b bs =>
      rw [List.length_cons] at hlength ⊢
      exact decide_eq_false (by omega)
  rw [← hend]
  rfl

theorem gives_index (h : v <:+ text) {i : Nat} (hi : v[i]? = some b) :
    Gives (index (text.length - v.length + i)) text v p b v p := by
  rw [Gives, index, getElem?_offset h, hi]

/-- NUL stands for the end of the text, any other byte only for itself. -/
theorem getD_eq_iff {i : Nat} (hb : b ≠ Ascii.nul) : v[i]?.getD Ascii.nul = b ↔ v[i]? = some b := by
  cases v[i]? with
  | none => simpa using hb.symm
  | some x => simp

theorem getD_zero_eq_iff (hb : b ≠ Ascii.nul) : v[0]?.getD Ascii.nul = b ↔ v.head? = some b := by
  rw [getD_eq_iff hb, List.head?_eq_getElem?]

theorem getD_one_eq_iff {x : UInt8} (hx : x ≠ Ascii.nul) :
    (b :: bs)[1]?.getD Ascii.nul = x ↔ bs.head? = some x := by
  rw [getD_eq_iff hx, List.getElem?_cons_succ, List.head?_eq_getElem?]

/-- A byte that can be looked at, or NUL. -/
theorem gives_peek (h : v <:+ text) (i : Nat) : Gives (peek i) text v p (v[i]?.getD Ascii.nul) v p := by
  have hlength := h.length_le
  refine gives_offset.bind (.bind (a := text) rfl ?_)
  refine .ite (fun hi => ?_) fun hi => ?_
  · have hv : i < v.length := by omega
    rw [List.getElem?_eq_getElem hv]
    exact gives_index h (List.getElem?_eq_getElem hv)
  · rw [List.getElem?_eq_none (by omega)]
    exact .pure

theorem gives_previous (h : u ++ b :: v = text) : Gives previous text v p b v p := by
  have hlength := congrArg List.length h
  rw [List.length_append, List.length_cons] at hlength
  refine gives_offset.bind (.ite (fun hzero => absurd hzero (by omega)) fun _ => ?_)
  have hindex : text[text.length - v.length - 1]? = some b := by
    rw [show text.length - v.length - 1 = u.length by omega, ← h]
    exact List.getElem?_append_right (Nat.le_refl _) |>.trans (by rw [Nat.sub_self]; rfl)
  rw [Gives, index, hindex]

theorem gives_slice (h : w ++ v <:+ text) : Gives (sliceFrom (text.length - (w ++ v).length)) text v p w v p := by
  have hlength := h.length_le
  refine gives_offset.bind ?_
  rw [Gives, slice, if_pos (Nat.sub_le _ _), drop_offset h]
  rw [List.length_append] at hlength ⊢
  rw [show text.length - v.length - (text.length - (w.length + v.length)) = w.length by omega,
    List.take_left]

theorem gives_startsWith (h : v <:+ text) (t : Bytes) :
    Gives (startsWith t) text v p (Bytes.startsWith v t) v p := by
  have htake : (v.take t.length == t) = Bytes.startsWith v t := by
    rw [Bytes.startsWith, Bool.eq_iff_iff, beq_iff_eq, List.isPrefixOf_iff_prefix, List.prefix_iff_eq_take]
    exact eq_comm
  rw [← htake]
  refine gives_offset.bind (.bind ?_ .pure)
  rw [Gives, slice, if_pos (Nat.sub_le _ _), drop_offset h]

variable [Place P]

theorem gives_advance (h : b :: bs <:+ text) :
    Gives advance text (b :: bs) p b bs (Place.step p b) := by
  have hlength := h.length_le
  have hb := getElem?_offset h 0
  rw [Nat.add_zero] at hb
  rw [Gives, advance, before]
  dsimp only
  rw [hb, before]
  rw [List.length_cons] at hlength ⊢
  rw [show text.length - (bs.length + 1) + 1 = text.length - bs.length by omega]
  rfl

end

/-! ## Loops -/

section

variable {P α σ : Type} {turn : σ → Reading P (Turn σ α)} {s s' : σ} {a : α}
variable {text v v' v'' : Bytes} {p p' p'' : P}

theorem gives_loop_stop (h : Gives (turn s) text v p (.stop a) v' p') : Gives (loop turn s) text v p a v' p' := by
  rw [Gives, loop, turns, h]

/-- A turn that does not stop leaves less of the text. -/
theorem gives_loop_again (h : Gives (turn s) text v p (.again s') v' p') (hv : v <:+ text)
    (hlt : v'.length < v.length) (h' : Gives (loop turn s') text v' p' a v'' p'') :
    Gives (loop turn s) text v p a v'' p'' := by
  have hlength := hv.length_le
  have hmoved : (before text v p).offset < (before text v' p').offset ∧
      (before text v' p').offset ≤ text.length := by
    dsimp only [before]
    omega
  rw [Gives, loop, turns, h]
  dsimp only
  rw [if_pos hmoved]
  exact h'

end

section

variable {P : Type} [Place P] {text v w : Bytes} {b : UInt8} {bs : Bytes} {p : P}

/-- The text up to the first rest that satisfies `stop`. -/
def upTo (stop : Bytes → Bool) : Bytes → Bytes
  | [] => []
  | b :: bs => if stop (b :: bs) then [] else b :: upTo stop bs

theorem prefix_upTo (stop : Bytes → Bool) (v : Bytes) : upTo stop v <+: v := by
  induction v with
  | nil => exact List.prefix_rfl
  | cons b bs ih =>
    rw [upTo]
    split
    · exact List.nil_prefix
    · exact List.cons_prefix_cons.2 ⟨rfl, ih⟩

theorem gives_readUntil {m : Reading P Bool} {stop : Bytes → Bool} (h : v <:+ text)
    (hm : ∀ v p, v <:+ text → Gives m text v p (stop v) v p) :
    Gives (readUntil m) text v p (upTo stop v) (v.drop (upTo stop v).length) (past p (upTo stop v)) := by
  suffices hloop : ∀ out, Gives (loop _ out) text v p (out ++ upTo stop v)
      (v.drop (upTo stop v).length) (past p (upTo stop v)) from hloop []
  induction v generalizing p with
  | nil =>
    intro out
    rw [upTo, List.append_nil]
    exact gives_loop_stop ((gives_atEnd h).bind .pure)
  | cons b bs ih =>
    intro out
    have hbs : bs <:+ text := (List.suffix_cons b bs).trans h
    rw [upTo]
    split
    · next hstop =>
      rw [List.append_nil]
      refine gives_loop_stop ((gives_atEnd h).bind ((hm _ p h).bind (.ite (fun _ => .pure) ?_)))
      exact fun hgo => absurd hstop hgo
    · next hgo =>
      have hturn : Gives (do return Turn.again (out ++ [← advance])) text (b :: bs) p
          (Turn.again (α := Bytes) (out ++ [b])) bs (Place.step p b) := (gives_advance h).bind .pure
      have hrest := ih hbs (p := Place.step p b) (out ++ [b])
      rw [List.append_assoc] at hrest
      refine gives_loop_again ((gives_atEnd h).bind ((hm _ p h).bind (.ite ?_ fun _ => hturn))) h
        (Nat.lt_succ_self _) hrest
      exact fun hstop => absurd hstop hgo

theorem upTo_not (q : UInt8 → Bool) (v : Bytes) :
    upTo (fun v => !q (v.head?.getD Ascii.nul)) v = v.takeWhile q := by
  induction v with
  | nil => rfl
  | cons b bs ih =>
    rw [upTo, List.takeWhile_cons, ih]
    cases hb : q b <;> simp [hb]

theorem gives_readWhile (h : v <:+ text) (q : UInt8 → Bool) :
    Gives (readWhile q) text v p (v.takeWhile q) (v.dropWhile q) (past p (v.takeWhile q)) := by
  have hstop (v : Bytes) (p : P) (hv : v <:+ text) :
      Gives (return !q (← peek 0)) text v p (!q (v[0]?.getD Ascii.nul)) v p := (gives_peek hv 0).bind .pure
  have hread := gives_readUntil (p := p) h hstop
  have hhead : (fun v : Bytes => !q (v[0]?.getD Ascii.nul)) = fun v => !q (v.head?.getD Ascii.nul) := by
    funext v
    rw [List.head?_eq_getElem?]
  have hdrop : v.drop (v.takeWhile q).length = v.dropWhile q := by
    have hsplit : v.takeWhile q ++ v.dropWhile q = v := List.takeWhile_append_dropWhile
    exact (congrArg (List.drop _) hsplit.symm).trans List.drop_left
  rw [hhead, upTo_not, hdrop] at hread
  exact hread

theorem gives_advanceBy (h : v <:+ text) (n : Nat) :
    Gives (advanceBy n) text v p () (v.drop n) (past p (v.take n)) := by
  induction n generalizing v p with
  | zero => exact .pure
  | succ n ih =>
    refine (gives_atEnd h).bind ?_
    cases v with
    | nil => exact .pure
    | cons b bs =>
      exact (gives_advance h).bind (ih ((List.suffix_cons b bs).trans h))

end

end ViewCompiler.Checked
