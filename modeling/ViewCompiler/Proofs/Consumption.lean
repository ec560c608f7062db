import ViewCompiler.Ast.Parse

/-!
What a clean reading consumes. A reader that reports nothing about the order of the tokens takes a
first part of them, in which every brace has its partner, and it reads that part in the same way
wherever else it stands (`Tokens.Reads`). "Wherever" is limited by what readers look at without
taking it: the tokens behind the part may be exchanged from a border on, a token that continues no
part.

This file has the notions and the laws by which they pass through the ways that readings are joined;
then the readers without braces, which take flat parts: names, types and expressions.
-/

namespace ViewCompiler

/-! ## Braces -/

namespace TokenKind

/-- Tokens that open and close nothing and do not end the text. -/
def isPlain : TokenKind → Bool
  | eof | punct .lbrace | punct .rbrace => false
  | _ => true

/-- What ends a block. -/
def isCloser : TokenKind → Bool
  | eof | punct .rbrace => true
  | _ => false

/-- Tokens that a member of a type starts with. -/
def startsMember : TokenKind → Bool
  | keyword .paramKw | keyword .injectKw | keyword .fieldKw | keyword .methodKw
  | keyword .renderKw => true
  | _ => false

/-- Tokens inside of a member: they open and close nothing, and no member starts with them. -/
def isInner (k : TokenKind) : Bool := k.isPlain && !k.startsMember

/-- Tokens that do not continue what stands before them. -/
def isBorder : TokenKind → Bool
  | eof | punct .rbrace | punct .semicolon => true
  | k => k.startsMember

/-- Tokens that expressions are made of. -/
def isTerm : TokenKind → Bool
  | identifier _ | int _ _ | string _ | keyword .trueKw | keyword .falseKw => true
  | punct p => !(p matches .lbrace | .rbrace | .lbracket | .rbracket | .semicolon | .colon | .comma
    | .dot | .assign)
  | _ => false

theorem isInner_of_isTerm {k : TokenKind} (h : k.isTerm = true) : k.isInner = true := by
  have hp : k.isPlain = true := by
    unfold isPlain
    split
    · cases h
    · cases h
    · cases h
    · rfl
  have hs : k.startsMember = false := by
    unfold startsMember
    split
    · cases h
    · cases h
    · cases h
    · cases h
    · cases h
    · rfl
  rw [isInner, hp, hs]
  rfl

theorem isBorder_of_isCloser {k : TokenKind} (h : k.isCloser = true) : k.isBorder = true := by
  unfold isCloser at h
  split at h
  · rfl
  · rfl
  · cases h

end TokenKind

namespace Tokens

/-- The depth of blocks behind the tokens, if no block is closed that they did not open and the
text does not end in them. -/
def nest (depth : Nat) : List Token → Option Nat
  | [] => some depth
  | t :: ts =>
    match t.kind with
    | .eof => none
    | .punct .lbrace => nest (depth + 1) ts
    | .punct .rbrace =>
      match depth with
      | 0 => none
      | depth + 1 => nest depth ts
    | _ => nest depth ts

/-- Every brace has its partner. -/
def Balanced (w : List Token) : Prop := ∀ depth, nest depth w = some depth

/-- There are no braces. -/
def Flat (w : List Token) : Prop := ∀ t ∈ w, t.kind.isPlain = true

/-- There are no braces, and no tokens that a member starts with. -/
def Inner (w : List Token) : Prop := ∀ t ∈ w, t.kind.isInner = true

theorem Inner.flat {w : List Token} (h : Inner w) : Flat w :=
  fun t ht => (Bool.and_eq_true_iff.1 (h t ht)).1

theorem nest_append (depth : Nat) (v w : List Token) :
    nest depth (v ++ w) = (nest depth v).bind (nest · w) := by
  fun_induction nest depth v <;> simp_all [nest]

theorem nest_cons_of_isPlain {t : Token} (h : t.kind.isPlain = true) (depth : Nat)
    (ts : List Token) : nest depth (t :: ts) = nest depth ts := by
  cases hk : t.kind with
  | eof => simp [hk, TokenKind.isPlain] at h
  | punct p => cases p <;> simp_all [nest, TokenKind.isPlain]
  | _ => simp [nest, hk]

theorem Flat.balanced {w : List Token} (h : Flat w) : Balanced w := by
  induction w with
  | nil => exact fun _ => rfl
  | cons t ts ih =>
    rw [Flat, List.forall_mem_cons] at h
    intro depth
    rw [nest_cons_of_isPlain h.1]
    exact ih h.2 depth

theorem Balanced.append {v w : List Token} (hv : Balanced v) (hw : Balanced w) :
    Balanced (v ++ w) := by
  intro depth
  rw [nest_append, hv]
  exact hw depth

theorem Balanced.block {w : List Token} {l r : Token} (hl : l.kind = .punct .lbrace)
    (hr : r.kind = .punct .rbrace) (hw : Balanced w) : Balanced (l :: w ++ [r]) := by
  intro depth
  have h : nest (depth + 1) (w ++ [r]) = some depth := by
    rw [nest_append, hw]
    simp [nest, hr]
  simpa [nest, hl] using h

/-- No block is closed inside of a balanced part. -/
theorem Balanced.not_closed {v w : List Token} {t : Token} (hv : Balanced v)
    (ht : t.kind.isCloser = true) : ¬ Balanced (v ++ t :: w) := by
  intro h
  have h := h 0
  rw [nest_append, hv] at h
  unfold TokenKind.isCloser at ht
  split at ht <;> simp_all [nest]

/-- Two balanced parts in front of what ends their block are the same. -/
theorem Balanced.unique {v w rest rest' : List Token} {t t' : Token} (hv : Balanced v)
    (hw : Balanced w) (ht : t.kind.isCloser = true) (ht' : t'.kind.isCloser = true)
    (h : v ++ t :: rest = w ++ t' :: rest') : v = w ∧ t :: rest = t' :: rest' := by
  rcases List.append_eq_append_iff.1 h with ⟨u, rfl, hu⟩ | ⟨u, rfl, hu⟩
  · cases u with
    | nil => exact ⟨by simp, hu⟩
    | cons x u =>
      cases hu
      exact absurd hw (hv.not_closed ht)
  · cases u with
    | nil => exact ⟨by simp, hu.symm⟩
    | cons x u =>
      cases hu
      exact absurd hv (hw.not_closed ht')

/-- The text does not end inside of a balanced part. -/
theorem Balanced.ne_eof {w : List Token} (h : Balanced w) {t : Token} (ht : t ∈ w) : t.kind ≠ .eof := by
  intro heof
  obtain ⟨u, v, rfl⟩ := List.append_of_mem ht
  have h := h 0
  rw [nest_append] at h
  cases hu : nest 0 u with
  | none => simp [hu] at h
  | some depth => simp [hu, nest, heof] at h

/-- A balanced part in front of the end of the text is all of the text. -/
theorem Balanced.eq_of_eof {ts w r : List Token} {t : Token} (hw : Balanced w)
    (hts : ∀ u ∈ ts, u.kind ≠ .eof) (ht : t.kind = .eof) (h : ts ++ [t] = w ++ r)
    (hr : next r = .eof) : ts = w ∧ r = [t] := by
  rcases List.append_eq_append_iff.1 h with ⟨u, rfl, hu⟩ | ⟨u, rfl, rfl⟩
  · cases u with
    | nil => exact ⟨by simp, hu.symm⟩
    | cons x u =>
      obtain rfl : t = x := (List.cons.inj hu).1
      exact absurd ht (hw.ne_eof (by simp))
  · cases u with
    | nil => exact ⟨by simp, rfl⟩
    | cons x u => exact absurd hr (hts x (by simp))

end Tokens

/-! ## Clean readings -/

namespace Reading

/-- Nothing is wrong with the order of the tokens, though a block may be a second one. -/
def Orderly (es : List (Span × SyntaxError)) : Prop := ∀ e ∈ es, e.2.code ≠ "IL1001"

theorem orderly_append {es es' : List (Span × SyntaxError)} :
    Orderly (es ++ es') ↔ Orderly es ∧ Orderly es' := List.forall_mem_append

theorem not_orderly_expected (span : Span) (what : Bytes) (found : TokenKind) :
    ¬ Orderly [(span, .expected what found)] :=
  fun h => h _ (List.mem_singleton.2 rfl) rfl

theorem orderly_of_andThen {α β : Type} {r : Reading α} {f : α → List Token → Reading β}
    (h : Orderly (r.andThen f).errors) : Orderly r.errors := by
  dsimp only [andThen] at h
  split at h
  · exact (orderly_append.1 h).1
  · exact h

theorem orderly_of_within {α β : Type} {r : Reading α} {bound : List Token}
    {f : α → (rest : List Token) → rest.length ≤ bound.length → Reading β}
    (h : Orderly (r.within bound f).errors) : Orderly r.errors := by
  dsimp only [within] at h
  split at h
  · exact (orderly_append.1 h).1
  · exact h

theorem orderly_recover {α : Type} {r : Reading α} : Orderly r.recover.errors ↔ Orderly r.errors := by
  rw [recover]
  split <;> rfl

end Reading

namespace Tokens

open Reading (Orderly)

/-- The reader `f` takes the part `w` in front of `r`, with the value `v` and the errors `es`, and
does the same when what follows is exchanged from a border on. -/
structure Consumes {α : Type} (border : TokenKind → Bool) (f : List Token → Reading α)
    (w : List Token) (v : Option α) (es : List (Span × SyntaxError)) (r : List Token) : Prop where
  here : f (w ++ r) = { value := v, errors := es, rest := r }
  elsewhere : ∀ {q k k' : List Token}, r = q ++ k → border (next k) = true →
    border (next k') = true → f (w ++ (q ++ k')) = { value := v, errors := es, rest := q ++ k' }

/-- A clean reading of `ts` takes a part with the property `W`. -/
def Takes {α : Type} (border : TokenKind → Bool) (W : List Token → Prop)
    (f : List Token → Reading α) (ts : List Token) : Prop :=
  Orderly (f ts).errors → ∃ w v es r, ts = w ++ r ∧ W w ∧ Consumes border f w v es r

/-- A clean reading of `ts` takes a part with the property `W`, and it has a value. -/
def Reads {α : Type} (border : TokenKind → Bool) (W : List Token → Prop)
    (f : List Token → Reading α) (ts : List Token) : Prop :=
  Orderly (f ts).errors → ∃ w a es r, ts = w ++ r ∧ W w ∧ Consumes border f w (some a) es r

/-- Properties of parts that hold of joined parts. -/
structure Joins (W : List Token → Prop) : Prop where
  nil : W []
  append : ∀ {v w : List Token}, W v → W w → W (v ++ w)

theorem Joins.cons {W : List Token → Prop} (h : Joins W) {t : Token} {w : List Token}
    (ht : W [t]) (hw : W w) : W (t :: w) := h.append ht hw

theorem joins_all (p : TokenKind → Bool) : Joins fun w => ∀ t ∈ w, p t.kind = true where
  nil := by simp
  append hv hw := List.forall_mem_append.2 ⟨hv, hw⟩

theorem joins_flat : Joins Flat := joins_all TokenKind.isPlain

theorem joins_inner : Joins Inner := joins_all TokenKind.isInner

theorem joins_balanced : Joins Balanced where
  nil := joins_flat.nil.balanced
  append := .append

theorem Flat.single {t : Token} (h : t.kind.isPlain = true) : Flat [t] := by simpa [Flat] using h

theorem Inner.single {t : Token} (h : t.kind.isInner = true) : Inner [t] := by simpa [Inner] using h

theorem Balanced.single {t : Token} (h : t.kind.isPlain = true) : Balanced [t] :=
  (Flat.single h).balanced

/-- Parts with the property `W` that are not empty. -/
def Proper (W : List Token → Prop) (w : List Token) : Prop := w ≠ [] ∧ W w

theorem Joins.proper_append {W : List Token → Prop} (h : Joins W) {v w : List Token}
    (hv : Proper W v) (hw : W w) : Proper W (v ++ w) :=
  ⟨by simp [hv.1], h.append hv.2 hw⟩

theorem next_cons (t : Token) (ts : List Token) : next (t :: ts) = t.kind := rfl

/-- What is not the next token in front of a border is not the next one in front of another. -/
theorem next_append_ne {border : TokenKind → Bool} {q k k' : List Token} {x : TokenKind}
    (h : next (q ++ k) ≠ x) (hk : border (next k') = true) (hx : border x = false) :
    next (q ++ k') ≠ x := by
  cases q with
  | nil =>
    rintro rfl
    rw [List.nil_append, hk] at hx
    cases hx
  | cons t q => exact h

namespace Consumes

variable {α β : Type} {border : TokenKind → Bool} {f : List Token → Reading α}
  {w r : List Token} {v : Option α} {a : α} {es : List (Span × SyntaxError)}

theorem mono {border' : TokenKind → Bool} (h : Consumes border f w v es r)
    (hb : ∀ k, border' k = true → border k = true) : Consumes border' f w v es r where
  here := h.here
  elsewhere hr hk hk' := h.elsewhere hr (hb _ hk) (hb _ hk')

/-- A reader that is another one behind a part that it takes first. -/
theorem after {F : List Token → Reading β} {g : List Token → Reading α} {u : List Token}
    {φ : Reading α → Reading β} {v' : Option β} {es' : List (Span × SyntaxError)}
    (hF : ∀ ts, F (u ++ ts) = φ (g ts))
    (hφ : ∀ rest, φ { value := v, errors := es, rest } = { value := v', errors := es', rest })
    (h : Consumes border g w v es r) : Consumes border F (u ++ w) v' es' r where
  here := by rw [List.append_assoc, hF, h.here, hφ]
  elsewhere hr hk hk' := by rw [List.append_assoc, hF, h.elsewhere hr hk hk', hφ]

theorem andThen {g : α → List Token → Reading β} {w' r' : List Token} {b : Option β}
    {es' : List (Span × SyntaxError)} (h : Consumes border f w (some a) es (w' ++ r'))
    (hg : Consumes border (g a) w' b es' r') :
    Consumes border (fun ts => (f ts).andThen g) (w ++ w') b (es ++ es') r' where
  here := by
    rw [List.append_assoc, h.here, Reading.andThen]
    simp [hg.here, Reading.report]
  elsewhere := by
    intro q k k' hr hk hk'
    have hq : w' ++ r' = (w' ++ q) ++ k := by rw [hr, List.append_assoc]
    have hf := h.elsewhere hq hk hk'
    rw [List.append_assoc] at hf
    rw [List.append_assoc, hf, Reading.andThen]
    simp [hg.elsewhere hr hk hk', Reading.report]

end Consumes

namespace Reads

variable {α β : Type} {border : TokenKind → Bool} {W : List Token → Prop}
  {f F : List Token → Reading α} {G : List Token → Reading β} {ts tail : List Token} {t : Token}
  {a : α}

theorem takes (h : Reads border W f ts) : Takes border W f ts := by
  intro ho
  obtain ⟨w, a, es, r, hts, hw, hc⟩ := h ho
  exact ⟨w, some a, es, r, hts, hw, hc⟩

theorem mono {border' : TokenKind → Bool} {W' : List Token → Prop} (h : Reads border W f ts)
    (hb : ∀ k, border' k = true → border k = true) (hW : ∀ {w}, W w → W' w) :
    Reads border' W' f ts := by
  intro ho
  obtain ⟨w, a, es, r, hts, hw, hc⟩ := h ho
  exact ⟨w, a, es, r, hts, hW hw, hc.mono hb⟩

theorem of_proper (h : Reads border (Proper W) f ts) : Reads border W f ts := h.mono (fun _ hk => hk) (·.2)

/-- A reader that notes the place of its first token. -/
theorem placed {f : Span → List Token → Reading α}
    (h : ∀ s, Reads border (Proper W) (f s) ts) :
    Reads border (Proper W) (fun ts => f (place ts) ts) ts := by
  intro ho
  obtain ⟨w, a, es, r, rfl, hw, hc⟩ := h _ ho
  refine ⟨w, a, es, r, rfl, hw, ?_⟩
  obtain ⟨t, w, rfl⟩ := List.exists_cons_of_ne_nil hw.1
  exact ⟨hc.here, hc.elsewhere⟩

/-- A reader that reports an unexpected token has no clean reading. -/
theorem of_expected (what : Bytes) (h : F ts = .expected what ts) : Reads border W F ts := by
  intro ho
  rw [h] at ho
  exact absurd ho (Reading.not_orderly_expected _ _ _)

/-- A reader that takes one token. -/
theorem token (ht : W [t]) (hF : ∀ ts, F (t :: ts) = .ok a ts) :
    Reads border (Proper W) F (t :: tail) := by
  intro _
  refine ⟨[t], a, [], tail, rfl, ⟨by simp, ht⟩, ?_, ?_⟩
  · exact hF tail
  · exact fun _ _ _ => hF _

/-- A reader that takes nothing, because of the next token. -/
theorem nothing (hj : Joins W) {P : TokenKind → Prop} (hP : P (next ts))
    (hb : ∀ k, border k = true → P k) (hF : ∀ ts, P (next ts) → F ts = .ok a ts) :
    Reads border W F ts := by
  intro _
  refine ⟨[], a, [], ts, rfl, hj.nil, hF ts hP, ?_⟩
  intro q k k' hr _ hk'
  refine hF _ ?_
  cases q with
  | nil => exact hb _ hk'
  | cons t q =>
    subst hr
    exact hP

theorem map {g : α → β} (h : Reads border W f ts) :
    Reads border W (fun ts => (f ts).map g) ts := by
  intro ho
  obtain ⟨w, a, es, r, rfl, hw, hc⟩ := h ho
  exact ⟨w, g a, es, r, rfl, hw,
    hc.after (u := []) (φ := Reading.map g) (fun _ => rfl) fun _ => rfl⟩

theorem recover (h : Reads border W f ts) : Reads border W (fun ts => (f ts).recover) ts := by
  intro ho
  obtain ⟨w, a, es, r, rfl, hw, hc⟩ := h (Reading.orderly_recover.1 ho)
  exact ⟨w, a, es, r, rfl, hw,
    hc.after (u := []) (φ := Reading.recover) (fun _ => rfl) fun _ => rfl⟩

/-- A reader that is another one behind its first token. -/
theorem cons (hj : Joins W) (ht : W [t]) (hF : ∀ ts, F (t :: ts) = f ts)
    (h : Reads border W f tail) : Reads border (Proper W) F (t :: tail) := by
  intro ho
  rw [hF] at ho
  obtain ⟨w, a, es, r, rfl, hw, hc⟩ := h ho
  exact ⟨t :: w, a, es, r, rfl, ⟨by simp, hj.cons ht hw⟩,
    hc.after (u := [t]) (φ := id) hF fun _ => rfl⟩

/-- Joining readers joins the parts that they take. -/
theorem andThen_of {V U : List Token → Prop} {g : α → List Token → Reading β}
    (hV : ∀ {v w}, W v → U w → V (v ++ w)) (h : Reads border W f ts)
    (hg : ∀ a r, r.length ≤ ts.length → Reads border U (g a) r) :
    Reads border V (fun ts => (f ts).andThen g) ts := by
  intro ho
  obtain ⟨w, a, es, r, rfl, hw, hc⟩ := h (Reading.orderly_of_andThen ho)
  have hr : Orderly (g a r).errors := by
    dsimp only at ho
    rw [hc.here, Reading.andThen] at ho
    exact (Reading.orderly_append.1 ho).2
  obtain ⟨w', b, es', r', rfl, hw', hc'⟩ := hg a r (by simp) hr
  exact ⟨w ++ w', b, es ++ es', r', by simp, hV hw hw', hc.andThen hc'⟩

theorem andThen {g : α → List Token → Reading β} (hj : Joins W) (h : Reads border W f ts)
    (hg : ∀ a r, r.length ≤ ts.length → Reads border W (g a) r) :
    Reads border W (fun ts => (f ts).andThen g) ts := andThen_of hj.append h hg

/-- Joining with a bound on the rest is plain joining: what was read took a part. -/
theorem within {g : α → List Token → Reading β} (hj : Joins W) (h : Reads border W f ts)
    (hg : ∀ a r, r.length ≤ ts.length → Reads border W (g a) r) :
    Reads border W (fun ts => (f ts).within ts fun a rest _ => g a rest) ts := by
  intro ho
  obtain ⟨w, a, es, r, rfl, hw, hc⟩ := h (Reading.orderly_of_within ho)
  have hle : (f (w ++ r)).rest.length ≤ (w ++ r).length := by simp [hc.here]
  have hr : Orderly (g a r).errors := by
    dsimp only at ho
    rw [Reading.within_eq_andThen hle, hc.here, Reading.andThen] at ho
    exact (Reading.orderly_append.1 ho).2
  obtain ⟨w', b, es', r', rfl, hw', hc'⟩ := hg a r (by simp) hr
  have h' := hc.andThen hc'
  refine ⟨w ++ w', b, es ++ es', r', by simp, hj.append hw hw', ?_, ?_⟩
  · have := h'.here
    rw [List.append_assoc] at this ⊢
    rw [Reading.within_eq_andThen hle, this]
  · intro q k k' hr hk hk'
    have hq : w' ++ r' = (w' ++ q) ++ k := by rw [hr, List.append_assoc]
    have hf := hc.elsewhere hq hk hk'
    have := h'.elsewhere hr hk hk'
    rw [List.append_assoc] at hf this ⊢
    rw [Reading.within_eq_andThen (by simp [hf]), this]

end Reads

/-- Going on after a first reading that may have no value. -/
theorem Reads.onward {α β : Type} {border : TokenKind → Bool} {W : List Token → Prop}
    {f : List Token → Reading α} {F : List Token → Reading β} {tail : List Token} {t : Token}
    {g : Option α → List Token → Reading β} (hj : Joins W) (ht : W [t])
    (hF : ∀ ts, F (t :: ts) = (f ts).onward ts fun rest _ => g (f ts).value rest)
    (h : Takes border W f tail)
    (hg : ∀ r, r.length ≤ tail.length → Reads border W (g (f tail).value) r) :
    Reads border (Proper W) F (t :: tail) := by
  intro ho
  rw [hF] at ho
  have ho := Reading.orderly_append.1 ho
  obtain ⟨w, v, es, r, rfl, hw, hc⟩ := h ho.1
  have hr : Orderly (g v r).errors := by
    simpa [hc.here, clip_eq] using ho.2
  obtain ⟨w', b, es', r', rfl, hw', hc'⟩ := hg r (by simp) (by rwa [hc.here])
  rw [hc.here] at hc'
  refine ⟨t :: (w ++ w'), b, es ++ es', r', by simp,
    ⟨by simp, hj.cons ht (hj.append hw hw')⟩, ?_, ?_⟩
  · rw [List.cons_append, List.append_assoc, hF, hc.here, Reading.onward_eq (by simp)]
    simp [hc'.here, Reading.report]
  · intro q k k' hr hk hk'
    have hq : w' ++ r' = (w' ++ q) ++ k := by rw [hr, List.append_assoc]
    have hf := hc.elsewhere hq hk hk'
    rw [List.append_assoc] at hf
    rw [List.cons_append, List.append_assoc, hF, hf, Reading.onward_eq (by simp)]
    simp [hc'.elsewhere hr hk hk', Reading.report]

/-! ## Tokens, names and types -/

section

open TokenKind (isBorder)

variable {ts : List Token}

theorem reads_take_of {W : List Token → Prop} {kind : TokenKind} {what : Bytes} (hk : kind ≠ .eof)
    (hW : ∀ {t : Token}, t.kind = kind → W [t]) :
    Reads isBorder (Proper W) (take kind what) ts := by
  by_cases hn : next ts = kind
  · cases ts with
    | nil => exact absurd hn.symm hk
    | cons t ts =>
      have ht : t.kind = kind := hn
      exact .token (hW ht) fun _ => if_pos ht
  · exact .of_expected what (if_neg hn)

theorem reads_take {kind : TokenKind} {what : Bytes} (h : kind.isInner = true) :
    Reads isBorder (Proper Inner) (take kind what) ts := by
  refine reads_take_of ?_ fun ht => .single (ht ▸ h)
  rintro rfl
  cases h

theorem reads_mark {p : Punct} (h : (TokenKind.punct p).isInner = true) :
    Reads isBorder (Proper Inner) (mark p) ts := reads_take h

theorem reads_identifier {what : Bytes} :
    Reads isBorder (Proper Inner) (identifier what) ts := by
  cases ts with
  | nil => exact .of_expected what rfl
  | cons t ts =>
    cases hk : t.kind with
    | identifier n =>
      refine .token (a := n) (.single (by rw [hk]; rfl)) fun _ => ?_
      simp [identifier, next_cons, hk]
    | _ => exact .of_expected what (by simp [identifier, next_cons, hk])

theorem reads_literal {what : Bytes} : Reads isBorder (Proper Inner) (literal what) ts := by
  cases ts with
  | nil => exact .of_expected what rfl
  | cons t ts =>
    cases hk : t.kind with
    | string s =>
      refine .token (a := s) (.single (by rw [hk]; rfl)) fun _ => ?_
      simp [literal, next_cons, hk]
    | _ => exact .of_expected what (by simp [literal, next_cons, hk])

/-- What does not continue a name in front of a border does not continue it in front of another. -/
theorem dotted_append_eq_nil {q k k' : List Token}
    (h : ∀ s n s' ts, q ++ k = ⟨.punct .dot, s⟩ :: ⟨.identifier n, s'⟩ :: ts → False)
    (hk' : isBorder (next k') = true) : dotted (q ++ k') = ([], q ++ k') := by
  generalize hq : q ++ k' = l
  fun_cases dotted l with
  | case1 s n s' ts =>
    match q with
    | [] =>
      subst hq
      cases hk'
    | [x] =>
      cases hq
      cases hk'
    | x :: y :: q =>
      cases hq
      exact (h _ _ _ _ rfl).elim
  | case2 => rfl

theorem reads_dotted {α : Type} (g : Bytes → α) :
    Reads isBorder Inner (fun ts => .ok (g (dotted ts).1) (dotted ts).2) ts := by
  induction ts using dotted.induct generalizing g with
  | case1 s n s' ts _ _ _ ih =>
    refine .of_proper (.cons joins_inner (.single rfl) (fun _ => rfl) ?_)
    exact .of_proper (.cons joins_inner (.single rfl) (fun _ => rfl) (ih fun m => g (Ascii.dot :: n ++ m)))
  | case2 ts h =>
    intro _
    have hn : dotted ts = ([], ts) := dotted.eq_2 _ h
    refine ⟨[], g [], [], ts, rfl, joins_inner.nil, by simp [hn, Reading.ok], ?_⟩
    rintro q k k' rfl _ hk'
    simp [dotted_append_eq_nil h hk', Reading.ok]

theorem reads_qualifiedName : Reads isBorder (Proper Inner) qualifiedName ts :=
  .andThen_of joins_inner.proper_append reads_identifier fun n _ _ => reads_dotted (n ++ ·)

theorem reads_type : Reads isBorder (Proper Inner) type ts := by
  cases ts with
  | nil => exact .of_expected "type" rfl
  | cons t ts =>
    cases hk : t.kind with
    | keyword k =>
      by_cases hb : k.isBuiltinType = true
      · refine .token (a := { name := k.text, span := t.span }) (.single ?_) ?_
        · rw [hk]
          cases k <;> first | rfl | cases hb
        simp [type, next_cons, hk, hb, place]
      · exact .of_expected "type" (by simp [type, next_cons, hk, hb])
    | identifier n =>
      refine .cons joins_inner (.single (by rw [hk]; rfl)) (fun ts => ?_)
        (reads_dotted fun m => { name := n ++ m, span := t.span })
      simp [type, next_cons, hk, qualifiedName, identifier, Reading.map, Reading.andThen,
        Reading.ok, Reading.report, place]
    | _ => exact .of_expected "type" (by simp [type, next_cons, hk])

/-! ## Expressions -/

/-- Tokens of expressions. -/
def Termed (w : List Token) : Prop := ∀ t ∈ w, t.kind.isTerm = true

theorem joins_termed : Joins Termed := joins_all TokenKind.isTerm

theorem termed_single {t : Token} (h : t.kind.isTerm = true) : Termed [t] := by
  simpa [Termed] using h

theorem Termed.inner {w : List Token} (h : Termed w) : Inner w :=
  fun t ht => TokenKind.isInner_of_isTerm (h t ht)

theorem Termed.flat {w : List Token} (h : Termed w) : Flat w := h.inner.flat

/-- The operands of a precedence. -/
def operandOf (p : Precedence) (ts : List Token) : Reading Expr :=
  match p.tighter? with
  | some q => binary q ts
  | none => operand ts

theorem binary_eq (p : Precedence) (ts : List Token) :
    binary p ts = (operandOf p ts).within ts fun left rest _ => operators p left rest := by
  rw [binary, operandOf]
  split <;> simp_all

theorem operators_cons {p : Precedence} {t : Token} {op : BinaryOp}
    (h : p.operator? t.kind = some op) (left : Expr) (ts : List Token) :
    operators p left (t :: ts) = (operandOf p ts).within ts fun right rest _ =>
      operators p (.binary t.span op left right) rest := by
  rw [operators, h]
  rfl

theorem operators_of_none {p : Precedence} {left : Expr} (h : p.operator? (next ts) = none) :
    operators p left ts = .ok left ts := by
  cases ts with
  | nil => rw [operators]
  | cons t ts => simp [operators, show p.operator? t.kind = none from h]

theorem operator?_of_isBorder {k : TokenKind} (h : isBorder k = true) (p : Precedence) :
    p.operator? k = none := by
  unfold isBorder at h
  split at h
  · cases p <;> rfl
  · cases p <;> rfl
  · cases p <;> rfl
  · unfold TokenKind.startsMember at h
    split at h <;> first | (cases p <;> rfl) | cases h

theorem isTerm_of_operator? {p : Precedence} {k : TokenKind} {op : BinaryOp}
    (h : p.operator? k = some op) : k.isTerm = true := by
  unfold Precedence.operator? at h
  split at h <;> first | rfl | cases h

theorem reads_operandOf {p : Precedence}
    (hb : ∀ q, p.tighter? = some q → Reads isBorder Termed (binary q) ts)
    (ho : Reads isBorder Termed operand ts) : Reads isBorder Termed (operandOf p) ts := by
  cases h : p.tighter? with
  | some q =>
    rw [show operandOf p = binary q from funext fun ts => by rw [operandOf, h]]
    exact hb q h
  | none =>
    rw [show operandOf p = operand from funext fun ts => by rw [operandOf, h]]
    exact ho

theorem reads_expressions :
    (∀ ts, Reads isBorder Termed operand ts) ∧ (∀ p ts, Reads isBorder Termed (binary p) ts) ∧
      ∀ p left ts, Reads isBorder Termed (operators p left) ts := by
  have token {t tail} (e : Expr) (ht : t.kind.isTerm = true) (h : ∀ ts, operand (t :: ts) = .ok e ts) :
      Reads isBorder Termed operand (t :: tail) := .of_proper (.token (termed_single ht) h)
  have sign {t : Token} {tail} (op : UnaryOp) (ht : t.kind.isTerm = true)
      (h : ∀ ts, operand (t :: ts) = (operand ts).map (.unary t.span op))
      (ih : Reads isBorder Termed operand tail) : Reads isBorder Termed operand (t :: tail) :=
    .of_proper (.cons joins_termed (termed_single ht) h ih.map)
  have none {p left ts} (h : p.operator? (next ts) = none) :
      Reads isBorder Termed (operators p left) ts :=
    .nothing joins_termed (P := fun k => p.operator? k = .none) h
      (fun _ hk => operator?_of_isBorder hk p) fun _ => operators_of_none
  apply operand.mutual_induct
  case case1 => exact .of_expected "expression" (by simp [operand])
  case case2 =>
    exact fun t _ _ v h => token (.int t.span v) (by rw [h]; rfl) fun _ => by simp only [operand, h]
  case case3 =>
    exact fun t _ s h => token (.string t.span s) (by rw [h]; rfl) fun _ => by simp only [operand, h]
  case case4 =>
    exact fun t _ h => token (.bool t.span true) (by rw [h]; rfl) fun _ => by simp only [operand, h]
  case case5 =>
    exact fun t _ h => token (.bool t.span false) (by rw [h]; rfl) fun _ => by simp only [operand, h]
  case case6 =>
    exact fun t _ n h => token (.name t.span n) (by rw [h]; rfl) fun _ => by simp only [operand, h]
  case case7 => exact fun t _ h => sign .not (by rw [h]; rfl) fun _ => by simp only [operand, h]
  case case8 => exact fun t _ h => sign .neg (by rw [h]; rfl) fun _ => by simp only [operand, h]
  case case9 =>
    intro t tail h ih
    have paren {ts} : Reads isBorder Termed (mark .rparen) ts :=
      .of_proper (reads_take_of (by simp) fun ht => termed_single (by rw [ht]; rfl))
    have inner := ih.andThen joins_termed fun e _ _ => paren.map (g := fun _ => e)
    exact .of_proper (.cons joins_termed (termed_single (by rw [h]; rfl)) (fun ts => by simp only [operand, h]) inner)
  case case10 =>
    intro t tail h₁ h₂ h₃ h₄ h₅ h₆ h₇ h₈
    refine .of_expected "expression" ?_
    rw [operand]
    split <;> simp_all
  case case11 =>
    intro p ts hb ho ih
    rw [show binary p = _ from funext (binary_eq p)]
    exact .within joins_termed (reads_operandOf hb ho) ih
  case case12 =>
    intro p left
    exact none (operator?_of_isBorder rfl p)
  case case13 => exact fun p left t tail h => none h
  case case14 =>
    intro p left t tail op h hb ho ih
    refine .of_proper (.cons joins_termed (termed_single (isTerm_of_operator? h)) (operators_cons h left) ?_)
    exact .within joins_termed (reads_operandOf (fun q _ => hb q) ho) ih

theorem reads_termed : Reads isBorder Termed expr ts := reads_expressions.2.1 .disjunction ts

theorem reads_expr : Reads isBorder Inner expr ts := reads_termed.mono (fun _ hk => hk) Termed.inner

end

end Tokens

end ViewCompiler
