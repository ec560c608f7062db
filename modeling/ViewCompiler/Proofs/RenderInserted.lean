import ViewCompiler.Proofs.SimilarReadings

/-!
Files with a render block put in front of their last brace, whatever is wrong with them. Where the
two files differ, a reader that expects anything else fails in both of them, and skipping to where it
can go on skips the whole block; a reader of members takes the block as one more member. So both files
declare the same up to what is rendered, and each error of the file without the block is reported of
the file with it, or is an error of order and that file has one too (`Tokens.follows_unitItems`).
-/

namespace ViewCompiler

namespace TokenKind

/-- Tokens that neither a name nor an expression goes on with, where a block may be put in. -/
def isStop : TokenKind → Bool
  | eof | punct .rbrace | keyword .renderKw => true
  | _ => false

theorem isStop_of_isCloser {k : TokenKind} (h : k.isCloser = true) : k.isStop = true := by
  unfold isCloser at h
  split at h <;> first | rfl | cases h

end TokenKind

namespace Tokens

open Reading (Accord Agree Orderly)
open TokenKind (isCloser isStop)

theorem ne_of_isStop {kind kind' : TokenKind} (h : isStop kind = true) (h' : isStop kind' = false) :
    kind ≠ kind' := by
  rintro rfl
  rw [h] at h'
  cases h'

/-! ## The files -/

/-- A render block, the brace behind it and the end of the file. -/
structure Insert where
  tokens : List Token
  renderTail : RenderTail tokens

/-- What is left of a file, and what is left of the file with the block: the block comes, or it has
been and the tokens have other places. -/
inductive Beside (k : Insert) : List Token → List Token → Prop where
  | front (p : List Token) {b e : Token} : b.kind = .punct .rbrace → e.kind = .eof →
      Beside k (p ++ [b, e]) (p ++ k.tokens)
  | brace {b e b' e' : Token} : b.kind = .punct .rbrace → e.kind = .eof → b'.kind = .punct .rbrace →
      e'.kind = .eof → Beside k [b, e] [b', e']
  | ended {e e' : Token} : e.kind = .eof → e'.kind = .eof → Beside k [e] [e']

/-- Where the files differ. -/
inductive Parted (k : Insert) : List Token → List Token → Prop where
  | block {b e : Token} : b.kind = .punct .rbrace → e.kind = .eof → Parted k [b, e] k.tokens
  | brace {b e b' e' : Token} : b.kind = .punct .rbrace → e.kind = .eof → b'.kind = .punct .rbrace →
      e'.kind = .eof → Parted k [b, e] [b', e']
  | ended {e e' : Token} : e.kind = .eof → e'.kind = .eof → Parted k [e] [e']

section
variable {k : Insert} {t : Token} {ts us : List Token}

theorem Insert.next_tokens (k : Insert) : next k.tokens = .keyword .renderKw := by
  obtain ⟨s, s', w, c, b, e, heq, -⟩ := k.renderTail.exists_eq
  rw [heq]
  rfl

theorem Parted.isCloser_left (h : Parted k ts us) : isCloser (next ts) = true := by
  cases h with
  | block hb | brace hb => rw [next_cons, hb]; rfl
  | ended he => rw [next_cons, he]; rfl

theorem Parted.isStop_right (h : Parted k ts us) : isStop (next us) = true := by
  cases h with
  | block => rw [k.next_tokens]; rfl
  | brace _ _ hb => rw [next_cons, hb]; rfl
  | ended _ he => rw [next_cons, he]; rfl

namespace Beside

/-- The same token comes next, or the files differ from here on. -/
theorem head (h : Beside k ts us) :
    (∃ t ts' us', ts = t :: ts' ∧ us = t :: us' ∧ Beside k ts' us') ∨ Parted k ts us := by
  cases h with
  | front p hb he =>
    cases p with
    | nil => exact .inr (.block hb he)
    | cons t p => exact .inl ⟨t, _, _, rfl, rfl, .front p hb he⟩
  | brace hb he hb' he' => exact .inr (.brace hb he hb' he')
  | ended he he' => exact .inr (.ended he he')

theorem cons_left (h : Beside k (t :: ts) us) (ht : isStop t.kind = false) :
    ∃ us', us = t :: us' ∧ Beside k ts us' := by
  rcases h.head with ⟨t, ts, us, heq, rfl, h'⟩ | hparted
  · cases heq
    exact ⟨us, rfl, h'⟩
  · have hstop := TokenKind.isStop_of_isCloser hparted.isCloser_left
    rw [next_cons, ht] at hstop
    cases hstop

theorem cons_of_not_closer (h : Beside k (t :: ts) us)
    (ht : ¬ (t.kind = .punct .rbrace ∨ t.kind = .eof)) : ∃ us', us = t :: us' ∧ Beside k ts us' := by
  rcases h.head with ⟨t, ts, us, heq, rfl, h'⟩ | hparted
  · cases heq
    exact ⟨us, rfl, h'⟩
  · exact absurd (eq_of_isCloser hparted.isCloser_left) ht

theorem cons_right (h : Beside k ts (t :: us)) (ht : isStop t.kind = false) :
    ∃ ts', ts = t :: ts' ∧ Beside k ts' us := by
  rcases h.head with ⟨t, ts, us, rfl, heq, h'⟩ | hparted
  · cases heq
    exact ⟨ts, rfl, h'⟩
  · have hstop := hparted.isStop_right
    rw [next_cons, ht] at hstop
    cases hstop

theorem not_nil_left : ¬ Beside k [] us := by
  intro h
  rcases h.head with ⟨t, ts, us, heq, -⟩ | hparted
  · cases heq
  · cases hparted

/-- Both files go on with a token that is no stop, or neither does. -/
theorem next_eq_iff (h : Beside k ts us) {kind : TokenKind} (hkind : isStop kind = false) :
    next ts = kind ↔ next us = kind := by
  rcases h.head with ⟨t, ts, us, rfl, rfl, -⟩ | hparted
  · rfl
  · have hleft := TokenKind.isStop_of_isCloser hparted.isCloser_left
    have hright := hparted.isStop_right
    constructor
    · rintro rfl
      rw [hleft] at hkind
      cases hkind
    · rintro rfl
      rw [hright] at hkind
      cases hkind

/-! ### Skipping -/

theorem clip (h : Beside k ts us) {bound bound' : List Token} (hb : Beside k bound bound') :
    Beside k (clip bound ts) (Tokens.clip bound' us) := by
  have hlen : 5 ≤ k.tokens.length := by
    obtain ⟨s, s', w, c, b, e, heq, -⟩ := k.renderTail.exists_eq
    rw [heq]
    simp
  by_cases hiff : ts.length ≤ bound.length ↔ us.length ≤ bound'.length
  · rw [Tokens.clip, Tokens.clip]
    by_cases hfits : ts.length ≤ bound.length
    · rw [if_pos hfits, if_pos (hiff.1 hfits)]
      exact h
    · rw [if_neg hfits, if_neg fun hle => hfits (hiff.2 hle)]
      exact hb
  -- The block is all that is left, but the bound is behind it.
  cases hb with
  | front q =>
    cases h with
    | front p => simp at hiff
    | brace | ended => exact absurd (by simp; omega) hiff
  | brace hb₂ he₂ hb₃ he₃ =>
    cases h with
    | front p hb₁ he₁ =>
      cases p with
      | nil =>
        have hlong : ¬ k.tokens.length ≤ 2 := by omega
        simpa [Tokens.clip, hlong] using Beside.brace hb₁ he₁ hb₃ he₃
      | cons t p => exact absurd (by simp; omega) hiff
    | brace | ended => simp at hiff
  | ended =>
    cases h with
    | front p => exact absurd (by simp; omega) hiff
    | brace | ended => simp at hiff

end Beside

/-- Inside of a block, what opens and closes blocks of its own is skipped. -/
theorem synchronizeAt_nest {d d' : Nat} {w : List Token} (h : nest d w = some d') (ts : List Token) :
    synchronizeAt (d + 1) (w ++ ts) = synchronizeAt (d' + 1) ts := by
  fun_induction nest d w with
  | case1 => cases h; rfl
  | case2 | case4 => cases h
  | case3 d t w ht ih | case5 t w ht d ih =>
    rw [List.cons_append, synchronizeAt.eq_def]
    simpa only [ht] using ih h
  | case6 d t w h₁ h₂ h₃ ih =>
    rw [List.cons_append, synchronizeAt.eq_def]
    dsimp only
    split <;> first | contradiction | simpa using ih h

theorem skipBlockAt_nest {d d' : Nat} {w : List Token} (h : nest d w = some d') (ts : List Token) :
    skipBlockAt (d + 1) (w ++ ts) = skipBlockAt (d' + 1) ts := by
  fun_induction nest d w with
  | case1 => cases h; rfl
  | case2 | case4 => cases h
  | case3 d t w ht ih =>
    rw [List.cons_append, skipBlockAt]
    simpa only [ht] using ih h
  | case5 t w ht d ih =>
    rw [List.cons_append, skipBlockAt]
    simpa [ht] using ih h
  | case6 d t w h₁ h₂ h₃ ih =>
    rw [List.cons_append, skipBlockAt]
    split <;> first | contradiction | exact ih h

/-- The block is skipped whole. -/
theorem Insert.exists_synchronize (k : Insert) : ∃ s r b e, k.tokens = ⟨.keyword .renderKw, s⟩ :: r
    ∧ synchronize r = [b, e] ∧ synchronize k.tokens = [b, e] ∧ b.kind = .punct .rbrace
    ∧ e.kind = .eof := by
  obtain ⟨s, s', w, c, b, e, heq, hw, hc, hb, he⟩ := k.renderTail.exists_eq
  have hskip : synchronize (⟨.punct .lbrace, s'⟩ :: (w ++ c :: [b, e])) = [b, e] := by
    refine (synchronizeAt_nest (hw 0) _).trans ?_
    simp only [synchronizeAt, hc]
  rw [heq]
  exact ⟨s, _, b, e, rfl, hskip, hskip, hb, he⟩

namespace Beside

theorem synchronizeAt (h : Beside k ts us) (depth : Nat) :
    Beside k (synchronizeAt depth ts) (Tokens.synchronizeAt depth us) := by
  cases h with
  | @front p b e hb he =>
    induction p generalizing depth with
    | nil =>
      obtain ⟨s, s', w, c, b', e', heq, hw, hc, hb', he'⟩ := k.renderTail.exists_eq
      have hskip : Tokens.synchronizeAt depth k.tokens =
          Tokens.synchronizeAt (depth + 1) (c :: [b', e']) := by
        rw [heq]
        exact synchronizeAt_nest (hw depth) _
      rw [List.nil_append, List.nil_append, hskip]
      rcases depth with _ | _ | depth
      · simp only [Tokens.synchronizeAt, hb, hc]
        exact .brace hb he hb' he'
      · simp only [Tokens.synchronizeAt, hb, hc, hb']
        exact .ended he he'
      · cases depth <;> simp only [Tokens.synchronizeAt, hb, hc, hb', he, he'] <;> exact .ended he he'
    | cons t p ih =>
      have hfront : Beside k (t :: (p ++ [b, e])) (t :: (p ++ k.tokens)) := .front (t :: p) hb he
      rw [List.cons_append, List.cons_append, Tokens.synchronizeAt.eq_def,
        Tokens.synchronizeAt.eq_def depth (t :: (p ++ k.tokens))]
      dsimp only
      split
      · exact hfront
      · exact ih _
      · split
        · exact hfront
        · exact .front p hb he
        · exact ih _
      · split
        · exact .front p hb he
        · exact ih _
      · exact ih _
  | brace hb he hb' he' =>
    rcases depth with _ | _ | depth
    · simp only [Tokens.synchronizeAt, hb, hb']
      exact .brace hb he hb' he'
    · simp only [Tokens.synchronizeAt, hb, hb']
      exact .ended he he'
    · simp only [Tokens.synchronizeAt, hb, hb', he, he']
      exact .ended he he'
  | ended he he' =>
    rw [Tokens.synchronizeAt.eq_def, Tokens.synchronizeAt.eq_def]
    simp only [he, he']
    exact .ended he he'

/-- A block is skipped whole, or what closes it is not there. -/
theorem skipBlockAt (h : Beside k ts us) (depth : Nat) :
    Beside k (skipBlockAt (depth + 1) ts) (Tokens.skipBlockAt (depth + 1) us) := by
  cases h with
  | @front p b e hb he =>
    induction p generalizing depth with
    | nil =>
      obtain ⟨s, s', w, c, b', e', heq, hw, hc, hb', he'⟩ := k.renderTail.exists_eq
      have hskip : Tokens.skipBlockAt (depth + 1) k.tokens =
          Tokens.skipBlockAt (depth + 2) (c :: [b', e']) := by
        rw [heq]
        exact skipBlockAt_nest (hw (depth + 1)) _
      rw [List.nil_append, List.nil_append, hskip]
      cases depth <;> simp [Tokens.skipBlockAt, hb, hc, hb', he, he'] <;> exact .ended he he'
    | cons t p ih =>
      rw [List.cons_append, List.cons_append, Tokens.skipBlockAt, Tokens.skipBlockAt]
      split
      · exact .front (t :: p) hb he
      · exact ih _
      · cases depth with
        | zero => simpa using Beside.front p hb he
        | succ depth => simpa using ih depth
      · exact ih _
  | brace hb he hb' he' =>
    cases depth <;> simp [Tokens.skipBlockAt, hb, hb', he, he'] <;> exact .ended he he'
  | ended he he' =>
    simp only [Tokens.skipBlockAt, he, he']
    exact .ended he he'

end Beside

/-! ## Readings -/

/-- Every error is reported there too, or it is one of order, and something is wrong with the order
there. -/
def Echoed (es es' : List (Span × SyntaxError)) : Prop :=
  ∀ e ∈ es, e ∈ es' ∨ e.2.code = "IL1001" ∧ ¬ Orderly es'

theorem Echoed.refl (es : List (Span × SyntaxError)) : Echoed es es := fun _ he => .inl he

theorem Echoed.nil_left (es : List (Span × SyntaxError)) : Echoed [] es := fun _ he => by cases he

theorem Echoed.expected {what what' : Bytes} {s s' : Span} {found found' : TokenKind} :
    Echoed [(s, .expected what found)] [(s', .expected what' found')] := by
  intro e he
  rw [List.mem_singleton.1 he]
  exact .inr ⟨rfl, Reading.not_orderly_expected _ _ _⟩

instance : Accord Echoed (Beside k) where
  nil := .refl []
  append h h' e he := by
    rcases List.mem_append.1 he with he | he
    · refine (h e he).imp (List.mem_append_left _) (And.imp_right fun ho => ?_)
      exact fun happend => ho (Reading.orderly_append.1 happend).1
    · refine (h' e he).imp (List.mem_append_right _) (And.imp_right fun ho => ?_)
      exact fun happend => ho (Reading.orderly_append.1 happend).2
  clip hb h := h.clip hb
  synchronize h := h.synchronizeAt 0

/-- The second reading is that of the file with the block. -/
abbrev Follows (k : Insert) {α : Type} (R : α → α → Prop) (r r' : Reading α) : Prop :=
  Agree Echoed (Beside k) R r r'

namespace Follows

variable {α β : Type} {R : α → α → Prop} {S : β → β → Prop} {r r' : Reading α}

theorem expected {what : Bytes} (h : Beside k ts us) :
    Follows k R (.expected what ts) (.expected what us) := ⟨.none, .expected, h⟩

theorem error {s : Span} {e : SyntaxError} (h : Beside k ts us) :
    Follows k R { value := none, errors := [(s, e)], rest := ts }
      { value := none, errors := [(s, e)], rest := us } := ⟨.none, .refl _, h⟩

theorem value_eq (h : Follows k Eq r r') : r.value = r'.value := by
  obtain ⟨v, es, ts⟩ := r
  obtain ⟨v', es', us⟩ := r'
  cases h.value with
  | none => rfl
  | some hab => rw [hab]

/-- Both readings go on with the same value. -/
theorem bind {f g : α → List Token → Reading β} (h : Follows k Eq r r')
    (hf : ∀ a ts us, Beside k ts us → Follows k S (f a ts) (g a us)) :
    Follows k S (r.andThen f) (r'.andThen g) := by
  refine h.andThen fun a _ ts us hab h => ?_
  cases hab
  exact hf a ts us h

theorem bindWithin {f g : α → List Token → Reading β} (hts : Beside k ts us) (h : Follows k Eq r r')
    (hf : ∀ a ts' us', ts'.length ≤ ts.length → Beside k ts' us' →
      Follows k S (f a ts') (g a us')) :
    Follows k S (r.within ts fun a rest _ => f a rest) (r'.within us fun a rest _ => g a rest) := by
  refine h.within hts fun a _ ts' us' hlen hab h' => ?_
  cases hab
  exact hf a ts' us' hlen h'

/-- What is made of the same value is the same. -/
theorem mapEq (h : Follows k Eq r r') (f : α → β) : Follows k Eq (r.map f) (r'.map f) :=
  h.map fun _ _ hab => congrArg f hab

/-- A reader that looks at the next token first. -/
theorem first {f : List Token → Reading α} (what : Bytes) (h : Beside k ts us)
    (hstop : ∀ ts, isStop (next ts) = true → f ts = .expected what ts)
    (hcons : ∀ t ts us, Beside k ts us → Beside k (t :: ts) (t :: us) →
      Follows k R (f (t :: ts)) (f (t :: us))) : Follows k R (f ts) (f us) := by
  rcases h.head with ⟨t, ts, us, rfl, rfl, h'⟩ | hparted
  · exact hcons t ts us h' h
  · rw [hstop _ (TokenKind.isStop_of_isCloser hparted.isCloser_left), hstop _ hparted.isStop_right]
    exact .expected h

/-- One of two readings, by the next token. -/
theorem ite_next {kind : TokenKind} {q q' : Reading α} (hkind : isStop kind = false)
    (h : Beside k ts us) (hr : Beside k ts.tail us.tail → Follows k R r r') (hq : Follows k R q q') :
    Follows k R (if next ts = kind then r else q) (if next us = kind then r' else q') := by
  rcases h.head with ⟨t, ts, us, rfl, rfl, htail⟩ | hparted
  · exact .ite (fun _ => hr htail) fun _ => hq
  · have hleft := TokenKind.isStop_of_isCloser hparted.isCloser_left
    rw [if_neg (ne_of_isStop hleft hkind), if_neg (ne_of_isStop hparted.isStop_right hkind)]
    exact hq

end Follows

/-! ### Names and types -/

theorem follows_take {kind : TokenKind} {what : Bytes} (hkind : isStop kind = false)
    (h : Beside k ts us) : Follows k Eq (take kind what ts) (take kind what us) := by
  refine .first what h (fun ts hts => if_neg (ne_of_isStop hts hkind)) fun t ts us h h' => ?_
  exact .ite (fun _ => .ok rfl h) fun _ => Follows.expected h'

theorem follows_mark {p : Punct} (hp : isStop (.punct p) = false) (h : Beside k ts us) :
    Follows k Eq (mark p ts) (mark p us) := follows_take hp h

theorem follows_identifier {what : Bytes} (h : Beside k ts us) :
    Follows k Eq (identifier what ts) (identifier what us) := by
  refine .first what h (fun ts hts => ?_) fun t ts us h h' => ?_
  · rw [identifier]
    split
    · next hn =>
      rw [hn] at hts
      cases hts
    · rfl
  · rw [identifier, identifier, next_cons, next_cons]
    split
    · exact .ok rfl h
    · exact .expected h'

theorem follows_literal {what : Bytes} (h : Beside k ts us) :
    Follows k Eq (literal what ts) (literal what us) := by
  refine .first what h (fun ts hts => ?_) fun t ts us h h' => ?_
  · rw [literal]
    split
    · next hn =>
      rw [hn] at hts
      cases hts
    · rfl
  · rw [literal, literal, next_cons, next_cons]
    split
    · exact .ok rfl h
    · exact .expected h'

theorem dotted_beside (h : Beside k ts us) :
    (dotted ts).1 = (dotted us).1 ∧ Beside k (dotted ts).2 (dotted us).2 := by
  induction ts using dotted.induct generalizing us with
  | case1 s n s' ts _ _ _ ih =>
    obtain ⟨us, rfl, htail⟩ := h.cons_left rfl
    obtain ⟨us, rfl, hrest⟩ := htail.cons_left rfl
    obtain ⟨hfirst, hsecond⟩ := ih hrest
    exact ⟨by simp [dotted, hfirst], by simpa [dotted] using hsecond⟩
  | case2 ts hts =>
    have hus : ∀ s n s' us', us = ⟨.punct .dot, s⟩ :: ⟨.identifier n, s'⟩ :: us' → False := by
      rintro s n s' us' rfl
      obtain ⟨ts, rfl, htail⟩ := h.cons_right rfl
      obtain ⟨ts, rfl, -⟩ := htail.cons_right rfl
      exact hts _ _ _ _ rfl
    rw [dotted.eq_2 _ hts, dotted.eq_2 _ hus]
    exact ⟨rfl, h⟩

theorem follows_qualifiedName (h : Beside k ts us) :
    Follows k Eq (qualifiedName ts) (qualifiedName us) := by
  refine (follows_identifier h).bind fun n ts us h => ?_
  obtain ⟨hname, hrest⟩ := dotted_beside h
  exact .ok (by rw [hname]) hrest

theorem type_of_isStop (h : isStop (next ts) = true) : type ts = .expected "type" ts := by
  rw [type]
  split
  · next keyword hn =>
    refine if_neg fun hbuiltin => ?_
    rw [hn] at h
    revert hbuiltin h
    cases keyword <;> decide
  · next hn =>
    rw [hn] at h
    cases h
  · rfl

theorem follows_type (h : Beside k ts us) : Follows k Eq (type ts) (type us) := by
  refine .first "type" h (fun ts => type_of_isStop) fun t ts us h h' => ?_
  rw [type, type, next_cons, next_cons]
  split
  · exact .ite (fun _ => .ok rfl h) fun _ => Follows.expected h'
  · exact (follows_qualifiedName h').mapEq _
  · exact .expected h'

/-! ### Expressions -/

theorem follows_operandOf {p : Precedence}
    (hb : ∀ q, p.tighter? = some q → Follows k Eq (binary q ts) (binary q us))
    (ho : Follows k Eq (operand ts) (operand us)) : Follows k Eq (operandOf p ts) (operandOf p us) := by
  rw [operandOf, operandOf]
  split
  · exact hb _ ‹_›
  · exact ho

theorem operator?_of_isStop {p : Precedence} {kind : TokenKind} (h : isStop kind = true) :
    p.operator? kind = none := by
  unfold isStop at h
  split at h <;> first | (cases p <;> rfl) | cases h

theorem operand_of_isStop (h : isStop (next ts) = true) : operand ts = .expected "expression" ts := by
  cases ts with
  | nil => rw [operand]
  | cons t ts =>
    rw [next_cons] at h
    rw [operand]
    split <;> simp_all [isStop]

theorem follows_expressions (k : Insert) :
    (∀ ts us, Beside k ts us → Follows k Eq (operand ts) (operand us)) ∧
    (∀ p ts us, Beside k ts us → Follows k Eq (binary p ts) (binary p us)) ∧
    ∀ p left ts us, Beside k ts us → Follows k Eq (operators p left ts) (operators p left us) := by
  apply operand.mutual_induct
  case case1 => exact fun us h => absurd h Beside.not_nil_left
  case case2 | case3 | case4 | case5 | case6 =>
    intros
    rename_i us h
    obtain ⟨us, rfl, htail⟩ := h.cons_left (by simp [*, isStop])
    simp only [operand, *]
    exact .ok rfl htail
  case case7 | case8 =>
    intro t tail ht ih us h
    obtain ⟨us, rfl, htail⟩ := h.cons_left (by rw [ht]; rfl)
    simp only [operand, ht]
    exact (ih us htail).mapEq _
  case case9 =>
    intro t tail ht ih us h
    obtain ⟨us, rfl, htail⟩ := h.cons_left (by rw [ht]; rfl)
    simp only [operand, ht]
    exact (ih us htail).bind fun e ts us h => (follows_mark rfl h).mapEq _
  case case10 =>
    intro t tail h₁ h₂ h₃ h₄ h₅ h₆ h₇ h₈ us h
    have hother (vs : List Token) : operand (t :: vs) = .expected "expression" (t :: vs) := by
      rw [operand]
      split <;> simp_all
    rw [hother]
    rcases h.head with ⟨t, ts, us, heq, rfl, -⟩ | hparted
    · cases heq
      rw [hother]
      exact .expected h
    · rw [operand_of_isStop hparted.isStop_right]
      exact .expected h
  case case11 =>
    intro p ts hb ho ih us h
    rw [binary_eq, binary_eq]
    exact .bindWithin h (follows_operandOf (fun q hq => hb q hq us h) (ho us h))
      fun a ts' us' hlen h' => ih a ts' hlen us' h'
  case case12 => exact fun _ _ us h => absurd h Beside.not_nil_left
  case case13 =>
    intro p left t tail hnone us h
    have hnone' : p.operator? (next us) = none := by
      rcases h.head with ⟨t, ts, us, heq, rfl, -⟩ | hparted
      · cases heq
        exact hnone
      · exact operator?_of_isStop hparted.isStop_right
    rw [operators_of_none hnone, operators_of_none hnone']
    exact .ok rfl h
  case case14 =>
    intro p left t tail op hop hb ho ih us h
    obtain ⟨us, rfl, h'⟩ := h.cons_left (by
      cases hstop : isStop t.kind with
      | false => rfl
      | true =>
        rw [operator?_of_isStop hstop] at hop
        cases hop)
    rw [operators_cons hop, operators_cons hop]
    exact .bindWithin h' (follows_operandOf (fun q _ => hb q us h') (ho us h'))
      fun a ts' us' hlen h' => ih a ts' hlen us' h'

theorem follows_expr (h : Beside k ts us) : Follows k Eq (expr ts) (expr us) :=
  (follows_expressions k).2.1 .disjunction ts us h

/-! ### Blocks -/

/-- The brace that ends a block, where a block ends. -/
theorem follows_rbrace (hus : isCloser (next us) = true) (h : Beside k ts us) :
    Follows k Eq (mark .rbrace ts) (mark .rbrace us) := by
  rcases h.head with ⟨t, ts, us, rfl, rfl, htail⟩ | hparted
  · exact .ite (fun _ => .ok rfl htail) fun _ => Follows.expected h
  cases hparted with
  | block =>
    rw [k.next_tokens] at hus
    cases hus
  | brace hb he hb' he' =>
    rw [mark, mark, take, take, if_pos (show next [_, _] = _ from hb),
      if_pos (show next [_, _] = _ from hb')]
    exact .ok rfl (.ended he he')
  | @ended e e' he he' =>
    have hne {e : Token} (he : e.kind = .eof) : next [e] ≠ .punct .rbrace := by simp [next_cons, he]
    rw [mark, mark, take, take, if_neg (hne he), if_neg (hne he')]
    exact .expected h

theorem follows_closing {α β : Type} {R : α → α → Prop} {S : β → β → Prop} {f : List Token → Reading α}
    {g g' : α → β} (hend : isCloser (next (f us).rest) = true) (h : Follows k R (f ts) (f us))
    (hg : ∀ a b, R a b → S (g a) (g' b)) : Follows k S (closing f g ts) (closing f g' us) := by
  rw [closing, closing]
  generalize f us = r' at h hend
  generalize f ts = r at h
  obtain ⟨v, es, rest⟩ := r
  obtain ⟨v', es', rest'⟩ := r'
  obtain ⟨value, errors, hrest⟩ := h
  cases value with
  | none => exact ⟨.none, errors, hrest⟩
  | some hab =>
    have hmark := follows_rbrace hend hrest
    exact Agree.report ⟨.some (hg _ _ hab), hmark.errors, hmark.rest⟩ errors

theorem Braced.follows {α : Type} {R : α → α → Prop} {f F : List Token → Reading α} (hF : Braced f F)
    (h : Beside k ts us) (hend : ∀ us, isCloser (next (f us).rest) = true)
    (hf : ∀ s ts' us', ts = ⟨.punct .lbrace, s⟩ :: ts' → Beside k ts' us' →
      Follows k R (f ts') (f us')) : Follows k R (F ts) (F us) := by
  by_cases hn : next ts = .punct .lbrace
  · obtain ⟨s, ts, rfl⟩ := exists_cons_of_next hn (by simp)
    obtain ⟨us, rfl, htail⟩ := h.cons_left rfl
    rw [hF.cons, hF.cons]
    exact follows_closing (hend us) (hf s ts us rfl htail) fun _ _ hs => hs
  · rw [hF.other _ hn, hF.other _ fun hn' => hn ((h.next_eq_iff rfl).2 hn')]
    exact Agree.recover (Follows.expected h)

namespace ItemReader

variable {α : Type} {g : Token → List Token → Reading α} {F : List Token → Reading (List α)}

/-- Items are read up to the end of their block. -/
theorem isCloser_next_rest (hF : ItemReader g F) (ts : List Token) :
    isCloser (next (F ts).rest) = true := by
  induction hn : ts.length using Nat.strongRecOn generalizing ts with
  | ind n ih =>
  cases ts with
  | nil =>
    rw [hF.nil]
    rfl
  | cons t ts =>
    rw [hF.cons]
    split
    · next ht =>
      rw [Reading.ok, next_cons]
      rcases ht with ht | ht <;> rw [ht] <;> rfl
    · have hlen := length_clip_le ts (g t ts).rest
      exact ih _ (by simp at hn; omega) _ rfl

theorem nil_of_isCloser (hF : ItemReader g F) (h : isCloser (next ts) = true) : F ts = .ok [] ts := by
  cases ts with
  | nil => exact hF.nil
  | cons t ts =>
    rw [next_cons] at h
    rw [hF.cons, if_pos (eq_of_isCloser h)]

/-- No item starts as the block does that is put in. At the end of the items it is skipped. -/
theorem follows_end (hF : ItemReader g F) {what : Bytes}
    (hskip : ∀ s ts, g ⟨.keyword .renderKw, s⟩ ts =
      ⟨none, [(s, .expected what (.keyword .renderKw))], synchronize ts⟩)
    (hts : isCloser (next ts) = true) (h : Beside k ts us) : Follows k Eq (F ts) (F us) := by
  rw [hF.nil_of_isCloser hts]
  rcases h.head with ⟨t, ts, us, rfl, rfl, -⟩ | hparted
  · rw [hF.nil_of_isCloser (by rwa [next_cons] at hts ⊢)]
    exact .ok rfl h
  cases hparted with
  | block hb he =>
    obtain ⟨s, r, b', e', heq, hr, -, hb', he'⟩ := k.exists_synchronize
    have hlen : (synchronize r).length ≤ r.length := length_synchronizeAt_le 0 r
    rw [heq, hF.cons, if_neg (by simp), hskip, Reading.onward_eq hlen, hr,
      hF.nil_of_isCloser (by rw [next_cons, hb']; rfl)]
    exact ⟨.some rfl, .nil_left _, .brace hb he hb' he'⟩
  | brace hb he hb' he' =>
    rw [hF.nil_of_isCloser (by rw [next_cons, hb']; rfl)]
    exact .ok rfl h
  | ended he he' =>
    rw [hF.nil_of_isCloser (by rw [next_cons, he']; rfl)]
    exact .ok rfl h

theorem follows_cons (hF : ItemReader g F) (ht : ¬ (t.kind = .punct .rbrace ∨ t.kind = .eof))
    (h : Beside k (t :: ts) us)
    (hitem : ∀ us', Beside k (t :: ts) (t :: us') → Beside k ts us' → Follows k Eq (g t ts) (g t us'))
    (ih : ∀ ts' us', ts'.length ≤ ts.length → Beside k ts' us' → Follows k Eq (F ts') (F us')) :
    Follows k Eq (F (t :: ts)) (F us) := by
  obtain ⟨us, rfl, htail⟩ := h.cons_of_not_closer ht
  rw [hF.cons, hF.cons, if_neg ht, if_neg ht]
  have hfirst := hitem us h htail
  refine hfirst.onward htail fun ts' us' hlen h' => ?_
  rw [hfirst.value_eq]
  exact (ih ts' us' hlen h').mapEq _

end ItemReader

/-! ### Statements -/

theorem follows_arguments (h : Beside k ts us) : Follows k Eq (arguments ts) (arguments us) := by
  induction ts using arguments.induct generalizing us with
  | case1 ts ih =>
    rw [arguments_eq, arguments_eq]
    refine .bindWithin h (follows_expr h) fun e ts' us' hlen h' => ?_
    by_cases hn : next ts' = .punct .comma
    · obtain ⟨s, ts', rfl⟩ := exists_cons_of_next hn (by simp)
      obtain ⟨us', rfl, htail⟩ := h'.cons_left rfl
      exact (ih s ts' hlen htail).mapEq _
    · rw [moreArguments_of_next hn, moreArguments_of_next fun hn' => hn ((h'.next_eq_iff rfl).2 hn')]
      exact .ok rfl h'

theorem follows_simpleStmt {s : Span} {name : Bytes} (h : Beside k ts us) :
    Follows k Eq (simpleStmt s name ts) (simpleStmt s name us) := by
  rw [simpleStmt, simpleStmt]
  refine .ite_next rfl h (fun h => ?_) ?_
  · exact (follows_expr h).bind fun e ts us h => (follows_mark rfl h).mapEq _
  refine Follows.bind (.ite_next rfl h (fun h => (follows_identifier h).mapEq _) (.ok rfl h)) ?_
  rintro ⟨receiver, method⟩ ts us h
  refine (follows_take rfl h).bind fun _ ts us h => ?_
  refine Follows.bind (.ite_next rfl h (fun _ => .ok rfl h) (follows_arguments h)) fun args ts us h => ?_
  exact (follows_mark rfl h).bind fun _ ts us h => (follows_mark rfl h).mapEq _

theorem follows_elsePart {s : Span} {c : Expr} {ss : List Stmt} (h : Beside k ts us)
    (hnested : ∀ v n ts' us', ts = ⟨.keyword .elseKw, v⟩ :: ⟨.keyword .ifKw, n⟩ :: ts' →
      Beside k ts' us' → Follows k Eq (conditional n ts') (conditional n us'))
    (hblock : ∀ v ts' us', ts = ⟨.keyword .elseKw, v⟩ :: ts' → Beside k ts' us' →
      Follows k Eq (block ts') (block us')) :
    Follows k Eq (elsePart s c ss ts) (elsePart s c ss us) := by
  by_cases hn : next ts = .keyword .elseKw
  · obtain ⟨v, ts, rfl⟩ := exists_cons_of_next hn (by simp)
    obtain ⟨us, rfl, htail⟩ := h.cons_left rfl
    rw [elsePart, elsePart]
    by_cases hn : next ts = .keyword .ifKw
    · obtain ⟨n, ts, rfl⟩ := exists_cons_of_next hn (by simp)
      obtain ⟨us, rfl, hbody⟩ := htail.cons_left rfl
      rw [elseBranch, elseBranch]
      exact (hnested v n ts us rfl hbody).mapEq _
    · rw [elseBranch_of_next hn, elseBranch_of_next fun hn' => hn ((htail.next_eq_iff rfl).2 hn')]
      exact (hblock v ts us rfl htail).mapEq _
  · rw [elsePart_of_next hn, elsePart_of_next fun hn' => hn ((h.next_eq_iff rfl).2 hn')]
    exact .ok rfl h

theorem stmt_render (s : Span) (ts : List Token) : (stmt ⟨.keyword .renderKw, s⟩ ts).recover =
    ⟨none, [(s, .expected "statement" (.keyword .renderKw))], synchronize ts⟩ := by
  simp [stmt, Reading.recover]

theorem follows_statements (k : Insert) :
    (∀ s ts us, Beside k ts us → Follows k Eq (conditional s ts) (conditional s us)) ∧
    (∀ ts us, Beside k ts us → Follows k Eq (block ts) (block us)) ∧
    (∀ ts us, Beside k ts us → Follows k Eq (stmts ts) (stmts us)) ∧
    ∀ t ts us, t.kind ≠ .punct .rbrace → Beside k ts us → Follows k Eq (stmt t ts) (stmt t us) := by
  apply conditional.mutual_induct
  case case1 =>
    intro s ts hblock hnested helse us h
    rw [conditional_eq, conditional_eq]
    refine .bindWithin h (follows_mark rfl h) fun _ ts₁ us₁ h₁ h => ?_
    refine .bindWithin h (follows_expr h) fun c ts₂ us₂ h₂ h => ?_
    refine .bindWithin h (follows_mark rfl h) fun _ ts₃ us₃ h₃ h => ?_
    refine .bindWithin h (hblock ts₁ h₁ ts₂ h₂ ts₃ h₃ us₃ h) fun ss ts₄ us₄ h₄ h => ?_
    refine follows_elsePart h ?_ ?_
    · rintro v n ts₆ us₆ rfl h₆
      exact hnested ts₁ h₁ ts₂ h₂ ts₃ h₃ v n ts₆ h₄ us₆ h₆
    · rintro v ts₅ us₅ rfl h₅
      exact helse ts₁ h₁ ts₂ h₂ ts₃ h₃ v ts₅ h₄ us₅ h₅
  case case2 =>
    intro s ts ih us h
    refine braced_block.follows h itemReader_stmts.isCloser_next_rest ?_
    rintro s ts us ⟨⟩ h
    exact ih us h
  case case3 =>
    intro ts hts us h
    exact braced_block.follows h itemReader_stmts.isCloser_next_rest
      fun s ts' _ heq _ => (hts s ts' heq).elim
  case case4 => exact fun us h => absurd h Beside.not_nil_left
  case case5 =>
    intro t ts ht us h
    refine itemReader_stmts.follows_end stmt_render ?_ h
    rcases ht with ht | ht <;> rw [next_cons, ht] <;> rfl
  case case6 =>
    intro t ts ht hstmt ih us h
    exact itemReader_stmts.follows_cons ht h
      (fun us _ h => (hstmt us (fun hb => ht (.inl hb)) h).recover) fun ts' us' hlen h' => ih ts' hlen us' h'
  case case7 =>
    intro t ts ht ih us _ h
    simp only [stmt, ht]
    exact ih us h
  case case8 =>
    intro t ts ht us _ h
    simp only [stmt, ht]
    exact (follows_mark rfl h).mapEq _
  case case9 =>
    intro t ts name ht us _ h
    simp only [stmt, ht]
    exact follows_simpleStmt h
  case case10 => exact fun t ts ht us hne _ => absurd ht hne
  case case11 =>
    intro t ts h₁ h₂ h₃ h₄ us _ h
    rw [stmt, stmt]
    split
    · exact absurd ‹_› h₁
    · exact absurd ‹_› h₂
    · exact absurd ‹_› (h₃ _)
    · exact absurd ‹_› h₄
    · exact .error h

/-! ### Render operations -/

theorem follows_componentArg {s : Span} (h : Beside k ts us) :
    Follows k Eq (componentArg s ts) (componentArg s us) := by
  refine (follows_identifier h).bind fun name ts us h => ?_
  refine (follows_mark rfl h).bind fun _ ts us h => ?_
  exact (follows_expr h).bind fun e ts us h => (follows_mark rfl h).mapEq _

theorem follows_childBlock {hasChild : Bool} {s : Span}
    (h : Follows k Eq (renderBlock ts) (renderBlock us)) :
    Follows k Eq (childBlock hasChild s ts) (childBlock hasChild s us) :=
  h.bind fun _ _ _ h => .ite (fun _ => Follows.error h) fun _ => .ok rfl h

theorem isCloser_next_componentBody (hasChild : Bool) (ts : List Token) :
    isCloser (next (componentBody hasChild ts).rest) = true := by
  induction hn : ts.length using Nat.strongRecOn generalizing hasChild ts with
  | ind n ih =>
  by_cases hcloser : isCloser (next ts) = true
  · rw [componentBody_of_isCloser hcloser]
    exact hcloser
  cases ts with
  | nil => exact absurd rfl hcloser
  | cons t ts =>
    have step (hasChild : Bool) (rest : List Token) :
        isCloser (next (componentBody hasChild (Tokens.clip ts rest)).rest) = true := by
      have hlen := length_clip_le ts rest
      exact ih _ (by simp at hn; omega) _ _ rfl
    by_cases hattr : t.kind = .keyword .attrKw
    · rw [componentBody_attr hattr]
      exact step _ _
    by_cases hchild : t.kind = .keyword .childKw
    · rw [componentBody_child hchild]
      exact step _ _
    have hne : t.kind ≠ .punct .rbrace ∧ t.kind ≠ .eof := by
      constructor <;> intro ht <;> exact hcloser (by rw [next_cons, ht]; rfl)
    rw [componentBody_other hne.1 hne.2 hattr hchild]
    exact step _ _

theorem componentBody_tokens (hasChild : Bool) (k : Insert) : ∃ s b e,
    b.kind = .punct .rbrace ∧ e.kind = .eof ∧ componentBody hasChild k.tokens =
      ⟨some {}, [(s, .expected "'attr' or 'child'" (.keyword .renderKw))], [b, e]⟩ := by
  obtain ⟨s, r, b, e, heq, hr, hskip, hb, he⟩ := k.exists_synchronize
  refine ⟨s, b, e, hb, he, ?_⟩
  have hlen : [b, e].length ≤ r.length := hr ▸ length_synchronizeAt_le 0 r
  rw [heq] at hskip ⊢
  rw [componentBody_other (by simp) (by simp) (by simp) (by simp), hskip, Reading.onward_eq hlen,
    componentBody_of_isCloser (by rw [next_cons, hb]; rfl)]
  rfl

theorem follows_componentBody_of_isCloser {hasChild : Bool} (hts : isCloser (next ts) = true)
    (h : Beside k ts us) :
    Follows k Eq (componentBody hasChild ts) (componentBody hasChild us) := by
  rw [componentBody_of_isCloser hts]
  rcases h.head with ⟨t, ts, us, rfl, rfl, -⟩ | hparted
  · rw [componentBody_of_isCloser (by rwa [next_cons] at hts ⊢)]
    exact .ok rfl h
  cases hparted with
  | block hb he =>
    obtain ⟨s, b', e', hb', he', hread⟩ := componentBody_tokens hasChild k
    rw [hread]
    exact ⟨.some rfl, .nil_left _, .brace hb he hb' he'⟩
  | brace hb he hb' he' =>
    rw [componentBody_of_isCloser (by rw [next_cons, hb']; rfl)]
    exact .ok rfl h
  | ended he he' =>
    rw [componentBody_of_isCloser (by rw [next_cons, he']; rfl)]
    exact .ok rfl h

theorem renderOp_render (s : Span) (ts : List Token) : (renderOp ⟨.keyword .renderKw, s⟩ ts).recover =
    ⟨none, [(s, .expected "render operation" (.keyword .renderKw))], synchronize ts⟩ := by
  simp [renderOp, Reading.recover]

theorem follows_render (k : Insert) :
    (∀ t ts us, t.kind ≠ .punct .rbrace → Beside k (t :: ts) (t :: us) → Beside k ts us →
      Follows k Eq (renderOp t ts) (renderOp t us)) ∧
    (∀ hasChild ts us, Beside k ts us →
      Follows k Eq (componentBody hasChild ts) (componentBody hasChild us)) ∧
    (∀ ts us, Beside k ts us → Follows k Eq (renderBlock ts) (renderBlock us)) ∧
    ∀ ts us, Beside k ts us → Follows k Eq (renderOps ts) (renderOps us) := by
  apply renderOp.mutual_induct
  case case1 | case4 =>
    intro t ts ht us _ _ h
    simp only [renderOp, ht]
    exact (follows_literal h).bind fun _ ts us h => (follows_mark rfl h).mapEq _
  case case2 =>
    intro t ts ht us _ _ h
    simp only [renderOp, ht]
    refine (follows_literal h).bind fun _ ts us h => ?_
    refine (follows_mark rfl h).bind fun _ ts us h => ?_
    exact (follows_expr h).bind fun _ ts us h => (follows_mark rfl h).mapEq _
  case case3 =>
    intro t ts ht us _ _ h
    simp only [renderOp, ht]
    exact (follows_mark rfl h).mapEq _
  case case5 =>
    intro t ts ht us _ _ h
    simp only [renderOp, ht]
    exact (follows_expr h).bind fun _ ts us h => (follows_mark rfl h).mapEq _
  case case6 =>
    rintro ⟨_, s⟩ ts rfl ih us _ _ h
    rw [renderOp_component, renderOp_component]
    refine .bindWithin h (follows_type h) fun type ts₁ us₁ h₁ h => ?_
    refine .bindWithin h (follows_mark rfl h) fun _ ts₂ us₂ h₂ h => ?_
    exact follows_closing (isCloser_next_componentBody false us₂) (ih ts₁ h₁ ts₂ h₂ us₂ h)
      fun _ _ hb => by rw [hb]
  case case7 => exact fun t ts ht us hne _ _ => absurd ht hne
  case case8 =>
    intro t ts ht us _ h _
    simp only [renderOp, ht]
    exact .expected h
  case case9 =>
    intro t ts h₁ h₂ h₃ h₄ h₅ h₆ h₇ h₈ us _ _ h
    rw [renderOp, renderOp]
    split <;> first | contradiction | exact .error h
  case case10 => exact fun hasChild us h => absurd h Beside.not_nil_left
  case case11 | case12 =>
    intro hasChild t ts ht us h
    have hcloser : isCloser (next (t :: ts)) = true := by rw [next_cons, ht]; rfl
    exact follows_componentBody_of_isCloser hcloser h
  case case13 =>
    intro hasChild t ts ht ih us h
    obtain ⟨us, rfl, htail⟩ := h.cons_left (by rw [ht]; rfl)
    rw [componentBody_attr ht, componentBody_attr ht]
    have harg : Follows k Eq (componentArg t.span ts).recover (componentArg t.span us).recover :=
      (follows_componentArg htail).recover
    refine .onward htail harg fun ts' us' hlen h' => ?_
    rw [harg.value_eq]
    exact (ih ts' hlen us' h').mapEq _
  case case14 =>
    intro hasChild t ts ht child hblock ih us h
    obtain ⟨us, rfl, htail⟩ := h.cons_left (by rw [ht]; rfl)
    rw [componentBody_child ht, componentBody_child ht]
    have hchild : Follows k Eq (childBlock hasChild t.span ts) (childBlock hasChild t.span us) :=
      follows_childBlock (hblock us htail)
    refine .onward htail hchild fun ts' us' hlen h' => ?_
    rw [← hchild.value_eq]
    exact (ih ts' hlen us' h').mapEq _
  case case15 =>
    intro hasChild t ts h₁ h₂ h₃ h₄ ih us h
    obtain ⟨us, rfl, htail⟩ := h.cons_of_not_closer (not_or.2 ⟨h₁, h₂⟩)
    rw [componentBody_other h₁ h₂ h₃ h₄, componentBody_other h₁ h₂ h₃ h₄]
    refine .onward (R := Eq) htail (Follows.error (h.synchronizeAt 0)) fun ts' us' hlen h' => ?_
    exact ih ts' hlen us' h'
  case case16 =>
    intro s ts ih us h
    refine braced_renderBlock.follows h itemReader_renderOps.isCloser_next_rest ?_
    rintro s ts us ⟨⟩ h
    exact ih us h
  case case17 =>
    intro ts hts us h
    exact braced_renderBlock.follows h itemReader_renderOps.isCloser_next_rest
      fun s ts' _ heq _ => (hts s ts' heq).elim
  case case18 => exact fun us h => absurd h Beside.not_nil_left
  case case19 =>
    intro t ts ht us h
    refine itemReader_renderOps.follows_end renderOp_render ?_ h
    rcases ht with ht | ht <;> rw [next_cons, ht] <;> rfl
  case case20 =>
    intro t ts ht hop ih us h
    refine itemReader_renderOps.follows_cons ht h
      (fun us h h' => (hop us (fun hb => ht (.inl hb)) h h').recover) fun ts' us' hlen h' => ih ts' hlen us' h'

end

end Tokens

end ViewCompiler
