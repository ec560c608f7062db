import ViewCompiler.Proofs.Consumption

/-!
Clean readings of statements, render operations, members and types. Blocks are read up to a closing
brace, so what stands between the braces of a block is balanced (`reads_closing`), and all readers
that have to do with blocks take balanced parts. In a block with its braces no member starts outside
of the braces (`Enclosed`).
-/

namespace ViewCompiler

namespace Tokens

open Reading (Orderly)
open TokenKind (isBorder isCloser)

theorem exists_cons_of_next {ts : List Token} {kind : TokenKind} (h : next ts = kind)
    (hk : kind ≠ .eof) : ∃ s tail, ts = ⟨kind, s⟩ :: tail := by
  cases ts with
  | nil => exact absurd h.symm hk
  | cons t tail =>
    obtain ⟨_, s⟩ := t
    exact ⟨s, tail, by rw [← h, next_cons]⟩

theorem eq_of_isCloser {t : Token} (h : isCloser t.kind = true) :
    t.kind = .punct .rbrace ∨ t.kind = .eof := by
  unfold isCloser at h
  split at h <;> simp_all

theorem isPlain_of_not {t : Token} (h : ¬ (t.kind = .punct .rbrace ∨ t.kind = .eof))
    (hl : t.kind ≠ .punct .lbrace) : t.kind.isPlain = true := by
  unfold TokenKind.isPlain
  split <;> simp_all

/-! ## Enclosed parts -/

/-- What stands behind a balanced part is balanced if all of it is. -/
theorem Balanced.of_append {v w : List Token} (h : Balanced (v ++ w)) (hv : Balanced v) :
    Balanced w := by
  intro depth
  have := h depth
  rwa [nest_append, hv] at this

/-- The depth behind some tokens is counted from the depth in front of them. -/
theorem nest_add {d d' : Nat} {w : List Token} (h : nest d w = some d') (n : Nat) :
    nest (d + n) w = some (d' + n) := by
  fun_induction nest d w with
  | case1 d =>
    cases h
    rfl
  | case2 => cases h
  | case3 d t ts ht ih =>
    simp only [nest, ht]
    rw [Nat.add_right_comm]
    exact ih h
  | case4 => cases h
  | case5 t ts ht d ih =>
    simp only [nest, ht, Nat.add_right_comm d 1 n]
    exact ih h
  | case6 d t ts _ _ _ ih => simp_all [nest]

theorem balanced_of_nest {w : List Token} (h : nest 0 w = some 0) : Balanced w := by
  intro depth
  simpa using nest_add h depth

/-- Inside of a block, in front of its end, a brace is open. -/
theorem Balanced.not_opened {u v w : List Token} {l : Token} (hl : l.kind = .punct .lbrace)
    (hw : Balanced w) (h : w = u ++ v) : ¬ Balanced (l :: u) := by
  intro hu
  have hu : nest 1 u = some 0 := by simpa [nest, hl] using hu 0
  have hall := hw 0
  rw [h, nest_append] at hall
  cases hpart : nest 0 u with
  | none => simp [hpart] at hall
  | some d => simp [nest_add hpart 1] at hu

/-- Every brace has its partner, and members start inside of braces only. -/
structure Enclosed (w : List Token) : Prop where
  balanced : Balanced w
  startsMember : ∀ {u v : List Token} {t : Token}, w = u ++ t :: v → Balanced u →
    t.kind.startsMember = false

theorem Inner.enclosed {w : List Token} (h : Inner w) : Enclosed w where
  balanced := h.flat.balanced
  startsMember := by
    rintro u v t rfl -
    simpa using (Bool.and_eq_true_iff.1 (h t (by simp))).2

theorem Enclosed.append {v w : List Token} (hv : Enclosed v) (hw : Enclosed w) :
    Enclosed (v ++ w) where
  balanced := hv.balanced.append hw.balanced
  startsMember := by
    intro u r t h hu
    rcases List.append_eq_append_iff.1 h with ⟨a, rfl, ha⟩ | ⟨a, rfl, ha⟩
    · exact hw.startsMember ha (hu.of_append hv.balanced)
    · cases a with
      | nil => exact hw.startsMember (u := []) ha.symm joins_balanced.nil
      | cons x a =>
        cases ha
        exact hv.startsMember rfl hu

theorem joins_enclosed : Joins Enclosed where
  nil := joins_inner.nil.enclosed
  append := .append

theorem Balanced.enclosed_block {w : List Token} {l r : Token} (hl : l.kind = .punct .lbrace)
    (hr : r.kind = .punct .rbrace) (hw : Balanced w) : Enclosed (l :: w ++ [r]) where
  balanced := hw.block hl hr
  startsMember := by
    intro u v t h hu
    cases u with
    | nil =>
      cases h
      rw [hl]
      rfl
    | cons x u =>
      obtain ⟨rfl, htail⟩ : l = x ∧ w ++ [r] = u ++ t :: v := List.cons.inj h
      rcases List.append_eq_append_iff.1 htail with ⟨a, rfl, ha⟩ | ⟨a, ha, -⟩
      · cases a with
        | nil =>
          cases ha
          rw [hr]
          rfl
        | cons => simp at ha
      · exact absurd hu (hw.not_opened hl ha)

/-! ## More ways to join readings -/

namespace Reads

variable {α β : Type} {border : TokenKind → Bool} {W : List Token → Prop}
  {f g F : List Token → Reading α} {ts : List Token}

theorem balanced (h : Reads border Inner f ts) : Reads border Balanced f ts :=
  h.mono (fun _ hk => hk) fun hw => hw.flat.balanced

theorem enclosed (h : Reads border Inner f ts) : Reads border Enclosed f ts :=
  h.mono (fun _ hk => hk) Inner.enclosed

theorem proper_enclosed (h : Reads border (Proper Inner) f ts) :
    Reads border (Proper Enclosed) f ts :=
  h.mono (fun _ hk => hk) fun hw => ⟨hw.1, hw.2.enclosed⟩

theorem proper_balanced (h : Reads border (Proper Enclosed) f ts) :
    Reads border (Proper Balanced) f ts :=
  h.mono (fun _ hk => hk) fun hw => ⟨hw.1, hw.2.balanced⟩

theorem closed (h : Reads isBorder W f ts) : Reads isCloser W f ts :=
  h.mono (fun _ => TokenKind.isBorder_of_isCloser) id

theorem of_not_orderly (h : ¬ Orderly (F ts).errors) : Reads border W F ts :=
  fun ho => absurd ho h

/-- Two readers that agree unless the next token is of one kind. -/
theorem of_next_ne {kind : TokenKind} (hb : border kind = false) (hn : next ts ≠ kind)
    (hF : ∀ ts, next ts ≠ kind → F ts = g ts) (hg : Reads border W g ts) :
    Reads border W F ts := by
  intro ho
  rw [hF ts hn] at ho
  obtain ⟨w, a, es, r, rfl, hw, hc⟩ := hg ho
  refine ⟨w, a, es, r, rfl, hw, ?_, ?_⟩
  · rw [hF _ hn, hc.here]
  · intro q k k' hr hk hk'
    have hn' : next ((w ++ q) ++ k') ≠ kind := by
      refine next_append_ne (k := k) ?_ hk' hb
      rwa [List.append_assoc, ← hr]
    rw [List.append_assoc] at hn'
    rw [hF _ hn', hc.elsewhere hr hk hk']

/-- A reader that takes a token of one kind and goes on, or reads something else. -/
theorem ite_next (hj : Joins W) (hW : ∀ {t : Token}, t.kind.isInner = true → W [t])
    {kind : TokenKind} (hp : kind.isInner = true) (hb : border kind = false)
    (hf : Reads border W f ts.tail) (hg : Reads border W g ts) :
    Reads border W (fun ts => if next ts = kind then f ts.tail else g ts) ts := by
  by_cases hn : next ts = kind
  · cases ts with
    | nil =>
      subst hn
      cases hp
    | cons t tail =>
      have ht : t.kind = kind := hn
      exact .of_proper (.cons hj (hW (ht ▸ hp)) (fun _ => if_pos ht) hf)
  · exact .of_next_ne hb hn (fun _ h => if_neg h) hg

/-- A reader that takes nothing in front of one kind of token, and reads something else. -/
theorem ite_peek (hj : Joins W) {kind : TokenKind} {a : α} (hb : border kind = false)
    (hg : Reads border W g ts) :
    Reads border W (fun ts => if next ts = kind then .ok a ts else g ts) ts := by
  by_cases hn : next ts = kind
  · intro _
    refine ⟨[], a, [], ts, rfl, hj.nil, if_pos hn, ?_⟩
    rintro q k k' rfl hk _
    have hn' : next (q ++ k') = kind := by
      cases q with
      | nil =>
        rw [List.nil_append] at hn
        rw [hn, hb] at hk
        cases hk
      | cons t q => exact hn
    exact if_pos hn'
  · exact .of_next_ne hb hn (fun _ h => if_neg h) hg

end Reads

theorem Takes.closed {α : Type} {W : List Token → Prop} {f : List Token → Reading α}
    {ts : List Token} (h : Takes isBorder W f ts) : Takes isCloser W f ts := by
  intro ho
  obtain ⟨w, v, es, r, hts, hw, hc⟩ := h ho
  exact ⟨w, v, es, r, hts, hw, hc.mono fun _ => TokenKind.isBorder_of_isCloser⟩

/-! ## Blocks -/

/-- Reads to the end of a block that `f` reads the content of. -/
def closing {α β : Type} (f : List Token → Reading α) (g : α → β) (ts : List Token) : Reading β :=
  (f ts).andThen fun a rest =>
    let close := mark .rbrace rest
    { value := some (g a), errors := close.errors, rest := close.rest }

section

variable {α β : Type} {f : List Token → Reading α} {g : α → β} {ts : List Token}

theorem orderly_of_closing (ho : Orderly (closing f g ts).errors) : Orderly (f ts).errors :=
  Reading.orderly_of_andThen ho

theorem next_of_closing {a : α} {es : List (Span × SyntaxError)} {r : List Token}
    (ho : Orderly (closing f g ts).errors) (hf : f ts = ⟨some a, es, r⟩) :
    next r = .punct .rbrace := by
  refine Decidable.byContradiction fun hn => ?_
  rw [closing, hf, Reading.andThen] at ho
  have hm := (Reading.orderly_append.1 ho).2
  dsimp only at hm
  rw [mark, take, if_neg hn] at hm
  exact Reading.not_orderly_expected _ _ _ hm

theorem closing_eq {a : α} {es : List (Span × SyntaxError)} {t : Token} {r : List Token}
    (ht : t.kind = .punct .rbrace) (hf : f ts = ⟨some a, es, t :: r⟩) :
    closing f g ts = ⟨some (g a), es, r⟩ := by
  rw [closing, hf, Reading.andThen]
  simp [mark, take, next_cons, ht, Reading.ok, Reading.report]

/-- A clean reading of a block finds its closing brace. -/
theorem reads_closing (h : Reads isCloser Balanced f ts) (ho : Orderly (closing f g ts).errors) :
    ∃ w a es t r, ts = w ++ t :: r ∧ t.kind = .punct .rbrace ∧ Balanced w
      ∧ Consumes isBorder (closing f g) (w ++ [t]) (some (g a)) es r := by
  obtain ⟨w, a, es, r, rfl, hw, hc⟩ := h (orderly_of_closing ho)
  obtain ⟨s, r, rfl⟩ := exists_cons_of_next (next_of_closing ho hc.here) (by simp)
  refine ⟨w, a, es, ⟨.punct .rbrace, s⟩, r, rfl, rfl, hw, ?_, ?_⟩
  · rw [List.append_assoc, List.singleton_append, closing_eq rfl hc.here]
  · intro q k k' _ _ _
    have hborder : isCloser (next (⟨.punct .rbrace, s⟩ :: (q ++ k'))) = true := rfl
    have hf := hc.elsewhere (q := []) rfl rfl hborder
    rw [List.nil_append] at hf
    rw [List.append_assoc, List.singleton_append, closing_eq rfl hf]

end

/-- A block with its braces. -/
theorem Reads.block {α β : Type} {f : List Token → Reading α} {g : α → β}
    {F : List Token → Reading β} {t : Token} {tail : List Token} (ht : t.kind = .punct .lbrace)
    (hF : ∀ ts, F (t :: ts) = closing f g ts) (h : Reads isCloser Balanced f tail) :
    Reads isBorder (Proper Enclosed) F (t :: tail) := by
  intro ho
  rw [hF] at ho
  obtain ⟨w, a, es, t', r, rfl, ht', hw, hc⟩ := reads_closing h ho
  refine ⟨t :: w ++ [t'], g a, es, r, by simp, ⟨by simp, hw.enclosed_block ht ht'⟩, ?_⟩
  exact hc.after (u := [t]) (φ := id) hF fun _ => rfl

/-- The items of a block up to its end. -/
structure ItemReader {α : Type} (f : Token → List Token → Reading α)
    (F : List Token → Reading (List α)) : Prop where
  nil : F [] = .ok [] []
  cons : ∀ t ts, F (t :: ts) =
    if t.kind = .punct .rbrace ∨ t.kind = .eof then .ok [] (t :: ts)
    else (f t ts).onward ts fun rest _ => (F rest).map ((f t ts).value.toList ++ ·)
  /-- No item starts with a brace. -/
  brace : ∀ {t : Token} {ts : List Token}, t.kind = .punct .lbrace → ¬ Orderly (f t ts).errors

namespace ItemReader

variable {α : Type} {f : Token → List Token → Reading α} {F : List Token → Reading (List α)}

theorem reads_none (h : ItemReader f F) {ts : List Token} (hts : isCloser (next ts) = true) :
    Reads isCloser Balanced F ts := by
  refine .nothing (a := []) (P := fun k => isCloser k = true) joins_balanced hts (fun _ hk => hk) ?_
  intro ts hts
  cases ts with
  | nil => exact h.nil
  | cons t ts =>
    rw [next_cons] at hts
    rw [h.cons, if_pos (eq_of_isCloser hts)]

theorem reads_cons (h : ItemReader f F) {t : Token} {ts : List Token}
    (ht : ¬ (t.kind = .punct .rbrace ∨ t.kind = .eof)) (hf : Takes isCloser Balanced (f t) ts)
    (ih : ∀ r, r.length ≤ ts.length → Reads isCloser Balanced F r) :
    Reads isCloser Balanced F (t :: ts) := by
  have hcons (ts : List Token) := (h.cons t ts).trans (if_neg ht)
  by_cases hl : t.kind = .punct .lbrace
  · refine .of_not_orderly fun ho => ?_
    rw [hcons] at ho
    exact h.brace hl (Reading.orderly_append.1 ho).1
  · exact .of_proper (.onward (g := fun v rest => (F rest).map (v.toList ++ ·)) joins_balanced
      (.single (isPlain_of_not ht hl)) hcons hf fun r hr => (ih r hr).map)

end ItemReader

/-! ## Statements -/

section

variable {ts : List Token}

/-- The arguments behind the first one. -/
def moreArguments (e : Expr) : List Token → Reading (List Expr)
  | ⟨.punct .comma, _⟩ :: rest => (arguments rest).map (e :: ·)
  | rest => .ok [e] rest

theorem arguments_eq (ts : List Token) :
    arguments ts = (expr ts).within ts fun e rest _ => moreArguments e rest := by
  rw [arguments]
  congr
  funext e rest _
  fun_cases moreArguments e rest with
  | case1 => rfl
  | case2 rest h =>
    split
    · exact (h _ _ rfl).elim
    · rfl

theorem reads_arguments : Reads isBorder Inner arguments ts := by
  induction ts using arguments.induct with
  | case1 ts ih =>
    rw [show arguments = _ from funext arguments_eq]
    refine .within joins_inner reads_expr fun e r hr => ?_
    by_cases hn : next r = .punct .comma
    · obtain ⟨s, r, rfl⟩ := exists_cons_of_next hn (by simp)
      exact .of_proper (.cons joins_inner (.single rfl) (fun _ => rfl) (ih s r hr).map)
    · refine .nothing (a := [e]) (P := fun k => k ≠ .punct .comma) joins_inner hn ?_ ?_
      · rintro _ hk rfl
        cases hk
      · intro ts h
        exact moreArguments.eq_2 _ _ fun _ _ heq => h (heq ▸ rfl)

theorem reads_simpleStmt {span : Span} {name : Bytes} :
    Reads isBorder Inner (simpleStmt span name) ts := by
  have args {ts : List Token} : Reads isBorder Inner
      (fun ts => if next ts = .punct .rparen then .ok [] ts else arguments ts) ts :=
    .ite_peek joins_inner rfl reads_arguments
  have target {ts : List Token} : Reads isBorder Inner
      (fun ts => if next ts = .punct .dot then
        (identifier "method name" ts.tail).map fun method => (some name, method)
        else .ok (none, name) ts) ts := by
    refine .ite_next (f := fun ts => (identifier "method name" ts).map fun method => (some name, method))
      joins_inner .single rfl rfl reads_identifier.of_proper.map ?_
    exact .nothing (P := fun _ => True) joins_inner trivial (fun _ _ => trivial) fun _ _ => rfl
  have assign {ts : List Token} : Reads isBorder Inner (fun ts => (expr ts).andThen fun value ts =>
      (mark .semicolon ts).map fun _ => Stmt.assign span name value) ts :=
    .andThen joins_inner reads_expr fun _ _ _ => (reads_mark rfl).of_proper.map
  refine .ite_next joins_inner .single rfl rfl assign ?_
  refine .andThen joins_inner target fun (receiver, method) _ _ => ?_
  refine .andThen joins_inner (reads_take rfl).of_proper fun _ _ _ => ?_
  refine .andThen joins_inner args fun _ _ _ => ?_
  refine .andThen joins_inner (reads_mark rfl).of_proper fun _ _ _ => ?_
  exact (reads_mark rfl).of_proper.map

/-- What follows `else`. -/
def elseBranch (span : Span) (condition : Expr) (thenBody : List Stmt) :
    List Token → Reading Stmt
  | ⟨.keyword .ifKw, nested⟩ :: ts =>
    (conditional nested ts).map fun s => .cond span condition thenBody [s]
  | ts => (block ts).map fun elseBody => .cond span condition thenBody elseBody

/-- What follows the first body of a conditional. -/
def elsePart (span : Span) (condition : Expr) (thenBody : List Stmt) : List Token → Reading Stmt
  | ⟨.keyword .elseKw, _⟩ :: ts => elseBranch span condition thenBody ts
  | ts => .ok (.cond span condition thenBody []) ts

theorem conditional_eq (span : Span) (ts : List Token) :
    conditional span ts =
      (mark .lparen ts).within ts fun _ ts₁ _ =>
      (expr ts₁).within ts₁ fun condition ts₂ _ =>
      (mark .rparen ts₂).within ts₂ fun _ ts₃ _ =>
      (block ts₃).within ts₃ fun thenBody ts₄ _ => elsePart span condition thenBody ts₄ := by
  rw [conditional]
  congr
  funext _ _ _
  congr
  funext condition _ _
  congr
  funext _ _ _
  congr
  funext thenBody ts₄ _
  fun_cases elsePart span condition thenBody ts₄ with
  | case1 s ts =>
    fun_cases elseBranch span condition thenBody ts with
    | case1 => rfl
    | case2 ts h =>
      dsimp only
      split
      · exact (h _ _ rfl).elim
      · rfl
  | case2 ts h =>
    split
    · exact (h _ _ rfl).elim
    · rfl

theorem block_cons (s : Span) (ts : List Token) :
    block (⟨.punct .lbrace, s⟩ :: ts) = closing stmts id ts := by
  rw [block]
  rfl

theorem block_of_ne (h : next ts ≠ .punct .lbrace) : ¬ Orderly (block ts).errors := by
  intro ho
  rw [block.eq_def] at ho
  split at ho
  · exact h rfl
  · exact Reading.not_orderly_expected _ _ _ ho

/-- A block is read if its content is. -/
theorem reads_block (h : Reads isCloser Balanced stmts ts.tail) :
    Reads isBorder (Proper Enclosed) block ts := by
  by_cases hn : next ts = .punct .lbrace
  · obtain ⟨s, ts, rfl⟩ := exists_cons_of_next hn (by simp)
    exact .block rfl (block_cons s) h
  · exact .of_not_orderly (block_of_ne hn)

theorem itemReader_stmts : ItemReader (fun t ts => (stmt t ts).recover) stmts where
  nil := by rw [stmts]
  cons t ts := by rw [stmts]
  brace ht := by
    rw [stmt, ht]
    exact Reading.not_orderly_expected _ _ _

theorem reads_elsePart {span : Span} {condition : Expr} {thenBody : List Stmt}
    (hc : ∀ s nested ts', ts = ⟨.keyword .elseKw, s⟩ :: ⟨.keyword .ifKw, nested⟩ :: ts' →
      Reads isBorder Balanced (conditional nested) ts')
    (hb : ∀ s ts', ts = ⟨.keyword .elseKw, s⟩ :: ts' → Reads isBorder (Proper Balanced) block ts') :
    Reads isBorder Balanced (elsePart span condition thenBody) ts := by
  by_cases hn : next ts = .keyword .elseKw
  · obtain ⟨s, ts, rfl⟩ := exists_cons_of_next hn (by simp)
    refine .of_proper (.cons joins_balanced (.single rfl) (fun _ => rfl) ?_)
    by_cases hn : next ts = .keyword .ifKw
    · obtain ⟨nested, ts, rfl⟩ := exists_cons_of_next hn (by simp)
      exact .of_proper (.cons joins_balanced (.single rfl) (fun _ => rfl) (hc _ _ _ rfl).map)
    · refine .of_next_ne rfl hn (fun ts h => ?_)
        ((hb _ _ rfl).of_proper.map (g := fun body => .cond span condition thenBody body))
      exact elseBranch.eq_2 _ _ _ _ fun _ _ heq => h (heq ▸ rfl)
  · refine .nothing (a := .cond span condition thenBody []) (P := (· ≠ .keyword .elseKw))
      joins_balanced hn ?_ fun ts h => ?_
    · rintro _ hk rfl
      cases hk
    · exact elsePart.eq_2 _ _ _ _ fun _ _ heq => h (heq ▸ rfl)

theorem reads_statements :
    (∀ span ts, Reads isBorder Balanced (conditional span) ts)
      ∧ (∀ ts, Reads isBorder (Proper Balanced) block ts)
      ∧ (∀ ts, Reads isCloser Balanced stmts ts)
      ∧ ∀ t ts, Reads isBorder Balanced (stmt t) ts := by
  apply conditional.mutual_induct
  case case1 =>
    intro span ts hblock hnested helse
    rw [show conditional span = _ from funext (conditional_eq span)]
    refine .within joins_balanced (reads_mark rfl).of_proper.balanced fun _ ts₁ h₁ => ?_
    refine .within joins_balanced reads_expr.balanced fun condition ts₂ h₂ => ?_
    refine .within joins_balanced (reads_mark rfl).of_proper.balanced fun _ ts₃ h₃ => ?_
    refine .within joins_balanced (hblock ts₁ h₁ ts₂ h₂ ts₃ h₃).of_proper fun thenBody ts₄ h₄ => ?_
    exact reads_elsePart (fun s nested ts₆ h => hnested ts₁ h₁ ts₂ h₂ ts₃ h₃ s nested ts₆ (h ▸ h₄))
      fun s ts₅ h => helse ts₁ h₁ ts₂ h₂ ts₃ h₃ s ts₅ (h ▸ h₄)
  case case2 => exact fun s ts h => (@reads_block (⟨.punct .lbrace, s⟩ :: ts) h).proper_balanced
  case case3 =>
    intro ts h
    refine .of_not_orderly (block_of_ne fun hn => ?_)
    obtain ⟨s, ts, rfl⟩ := exists_cons_of_next hn (by simp)
    exact h _ _ rfl
  case case4 => exact itemReader_stmts.reads_none rfl
  case case5 =>
    rintro ⟨_, s⟩ tail (rfl | rfl)
    · exact itemReader_stmts.reads_none rfl
    · exact itemReader_stmts.reads_none rfl
  case case6 =>
    intro t tail ht hstmt ih
    exact itemReader_stmts.reads_cons ht hstmt.recover.closed.takes ih
  case case7 =>
    intro t ts ht ih
    rw [show stmt t = conditional t.span from funext fun ts => by simp only [stmt, ht]]
    exact ih
  case case8 =>
    intro t ts ht
    have heq : stmt t = fun ts => (mark .semicolon ts).map fun _ => .ret t.span :=
      funext fun ts => by simp only [stmt, ht]
    rw [heq]
    exact (reads_mark rfl).of_proper.balanced.map
  case case9 =>
    intro t ts name ht
    rw [show stmt t = simpleStmt t.span name from funext fun ts => by simp only [stmt, ht]]
    exact reads_simpleStmt.balanced
  case case10 =>
    intro t ts ht
    refine .of_not_orderly ?_
    simp only [stmt, ht]
    exact Reading.not_orderly_expected _ _ _
  case case11 =>
    intro t ts h₁ h₂ h₃ h₄
    refine .of_not_orderly ?_
    rw [stmt]
    split
    · exact absurd ‹_› h₁
    · exact absurd ‹_› h₂
    · exact absurd ‹_› (h₃ _)
    · exact absurd ‹_› h₄
    · exact Reading.not_orderly_expected _ _ _

/-! ## Render operations -/

theorem reads_componentArg {span : Span} : Reads isBorder Inner (componentArg span) ts := by
  refine .andThen joins_inner reads_identifier.of_proper fun name _ _ => ?_
  refine .andThen joins_inner (reads_mark rfl).of_proper fun _ _ _ => ?_
  refine .andThen joins_inner reads_expr fun value _ _ => ?_
  exact (reads_mark rfl).of_proper.map

theorem renderBlock_cons (s : Span) (ts : List Token) :
    renderBlock (⟨.punct .lbrace, s⟩ :: ts) = closing renderOps id ts := by
  rw [renderBlock]
  rfl

theorem renderBlock_of_ne (h : next ts ≠ .punct .lbrace) : ¬ Orderly (renderBlock ts).errors := by
  intro ho
  rw [renderBlock.eq_def] at ho
  split at ho
  · exact h rfl
  · exact Reading.not_orderly_expected _ _ _ ho

/-- A render block is read if its content is. -/
theorem reads_renderBlock_of (h : Reads isCloser Balanced renderOps ts.tail) :
    Reads isBorder (Proper Enclosed) renderBlock ts := by
  by_cases hn : next ts = .punct .lbrace
  · obtain ⟨s, ts, rfl⟩ := exists_cons_of_next hn (by simp)
    exact .block rfl (renderBlock_cons s) h
  · exact .of_not_orderly (renderBlock_of_ne hn)

theorem itemReader_renderOps : ItemReader (fun t ts => (renderOp t ts).recover) renderOps where
  nil := by rw [renderOps]
  cons t ts := by rw [renderOps]
  brace ht := by
    rw [renderOp, ht]
    exact Reading.not_orderly_expected _ _ _

/-- The body of a component with its braces. -/
def componentBlock (span : Span) (type : TypeRef) (ts : List Token) : Reading RenderOp :=
  (mark .lbrace ts).within ts fun _ ts₂ _ =>
    closing (componentBody false)
      (fun body => .component span type body.args body.childSpan body.child) ts₂

theorem componentBlock_cons (span : Span) (type : TypeRef) (s : Span) (ts : List Token) :
    componentBlock span type (⟨.punct .lbrace, s⟩ :: ts) = closing (componentBody false)
      (fun body => .component span type body.args body.childSpan body.child) ts := by
  have hm : mark .lbrace (⟨.punct .lbrace, s⟩ :: ts) = .ok () ts := rfl
  rw [componentBlock, Reading.within_eq_andThen (by simp [hm, Reading.ok]), hm]
  rfl

theorem renderOp_component (span : Span) (ts : List Token) :
    renderOp ⟨.keyword .componentKw, span⟩ ts =
      (type ts).within ts fun type ts₁ _ => componentBlock span type ts₁ := by
  simp only [renderOp]
  rfl

theorem reads_componentBlock {span : Span} {type : TypeRef}
    (h : ∀ ts', ts'.length ≤ ts.length → Reads isCloser Balanced (componentBody false) ts') :
    Reads isBorder (Proper Enclosed) (componentBlock span type) ts := by
  by_cases hn : next ts = .punct .lbrace
  · obtain ⟨s, tail, rfl⟩ := exists_cons_of_next hn (by simp)
    exact .block rfl (componentBlock_cons span type s) (h tail (by simp))
  · refine .of_not_orderly fun ho => ?_
    rw [componentBlock, mark, take, if_neg hn] at ho
    exact Reading.not_orderly_expected _ _ _ ho

/-- The child block of a component. Only the first one counts. -/
def childBlock (hasChild : Bool) (span : Span) (ts : List Token) : Reading (List RenderOp) :=
  (renderBlock ts).andThen fun ops rest =>
    if hasChild then { value := none, errors := [(span, .secondChild)], rest } else .ok ops rest

/-- A block that counts only if it is the first. -/
theorem takes_first {α β : Type} {f : List Token → Reading α} {g : α → β} {e : SyntaxError}
    {W : List Token → Prop} {span : Span} {seen : Bool} (h : Reads isBorder W f ts) :
    Takes isBorder W (fun ts => (f ts).andThen fun a rest =>
      if seen then { value := none, errors := [(span, e)], rest } else .ok (g a) rest) ts := by
  intro ho
  obtain ⟨w, a, es, r, rfl, hw, hc⟩ := h (Reading.orderly_of_andThen ho)
  cases seen with
  | true =>
    refine ⟨w, none, es ++ [(span, e)], r, rfl, hw, ?_⟩
    exact hc.after (u := []) (φ := (Reading.andThen · fun _ rest => ⟨none, [(span, e)], rest⟩))
      (fun _ => rfl) fun _ => rfl
  | false =>
    refine ⟨w, some (g a), es, r, rfl, hw, ?_⟩
    refine hc.after (u := []) (φ := (Reading.andThen · fun a rest => .ok (g a) rest))
      (fun _ => rfl) fun _ => ?_
    simp [Reading.andThen, Reading.ok, Reading.report]

theorem componentBody_of_isCloser {hasChild : Bool} (h : isCloser (next ts) = true) :
    componentBody hasChild ts = .ok {} ts := by
  cases ts with
  | nil => rw [componentBody]
  | cons t ts =>
    rw [next_cons] at h
    rcases eq_of_isCloser h with ht | ht
    · simp only [componentBody, ht]
    · simp only [componentBody, ht]

theorem reads_no_componentBody {hasChild : Bool} (h : isCloser (next ts) = true) :
    Reads isCloser Balanced (componentBody hasChild) ts :=
  .nothing (P := fun k => isCloser k = true) joins_balanced h (fun _ hk => hk)
    fun _ => componentBody_of_isCloser

theorem componentBody_attr {hasChild : Bool} {t : Token} (ht : t.kind = .keyword .attrKw)
    (ts : List Token) : componentBody hasChild (t :: ts) =
      (componentArg t.span ts).recover.onward ts fun rest _ => (componentBody hasChild rest).map
        fun b => { b with args := (componentArg t.span ts).recover.value.toList ++ b.args } := by
  simp only [componentBody, ht]

/-- The body of a component with the child block that was read. -/
def ComponentBody.withChild (span : Span) (child : Option (List RenderOp)) (b : ComponentBody) :
    ComponentBody :=
  match child with
  | some ops => { b with childSpan := some span, child := ops }
  | none => b

theorem componentBody_child {hasChild : Bool} {t : Token} (ht : t.kind = .keyword .childKw)
    (ts : List Token) : componentBody hasChild (t :: ts) =
      (childBlock hasChild t.span ts).onward ts fun rest _ =>
        (componentBody (hasChild || (childBlock hasChild t.span ts).value.isSome) rest).map
          (ComponentBody.withChild t.span (childBlock hasChild t.span ts).value) := by
  simp only [componentBody, ht, childBlock]
  congr

theorem reads_render :
    (∀ t ts, Reads isBorder Balanced (renderOp t) ts)
      ∧ (∀ hasChild ts, Reads isCloser Balanced (componentBody hasChild) ts)
      ∧ (∀ ts, Reads isBorder (Proper Balanced) renderBlock ts)
      ∧ ∀ ts, Reads isCloser Balanced renderOps ts := by
  apply renderOp.mutual_induct
  case case1 =>
    intro t ts ht
    have heq : renderOp t = fun ts => (literal "element name" ts).andThen fun tag ts =>
        (mark .semicolon ts).map fun _ => .openElement t.span tag :=
      funext fun ts => by simp only [renderOp, ht]
    rw [heq]
    refine .balanced (.andThen joins_inner reads_literal.of_proper fun _ _ _ => ?_)
    exact (reads_mark rfl).of_proper.map
  case case2 =>
    intro t ts ht
    have heq : renderOp t = fun ts => (literal "attribute name" ts).andThen fun name ts =>
        (mark .assign ts).andThen fun _ ts => (expr ts).andThen fun value ts =>
          (mark .semicolon ts).map fun _ => .attr t.span name value :=
      funext fun ts => by simp only [renderOp, ht]
    rw [heq]
    refine .balanced (.andThen joins_inner reads_literal.of_proper fun _ _ _ => ?_)
    refine .andThen joins_inner (reads_mark rfl).of_proper fun _ _ _ => ?_
    refine .andThen joins_inner reads_expr fun _ _ _ => ?_
    exact (reads_mark rfl).of_proper.map
  case case3 =>
    intro t ts ht
    have heq : renderOp t = fun ts => (mark .semicolon ts).map fun _ => .closeElement t.span :=
      funext fun ts => by simp only [renderOp, ht]
    rw [heq]
    exact (reads_mark rfl).of_proper.balanced.map
  case case4 =>
    intro t ts ht
    have heq : renderOp t = fun ts => (literal "text" ts).andThen fun text ts =>
        (mark .semicolon ts).map fun _ => .text t.span text :=
      funext fun ts => by simp only [renderOp, ht]
    rw [heq]
    refine .balanced (.andThen joins_inner reads_literal.of_proper fun _ _ _ => ?_)
    exact (reads_mark rfl).of_proper.map
  case case5 =>
    intro t ts ht
    have heq : renderOp t = fun ts => (expr ts).andThen fun value ts =>
        (mark .semicolon ts).map fun _ => .value t.span value :=
      funext fun ts => by simp only [renderOp, ht]
    rw [heq]
    refine .balanced (.andThen joins_inner reads_expr fun _ _ _ => ?_)
    exact (reads_mark rfl).of_proper.map
  case case6 =>
    rintro ⟨_, span⟩ ts rfl ih
    rw [show renderOp ⟨.keyword .componentKw, span⟩ = _ from funext (renderOp_component span)]
    refine .within joins_balanced reads_type.of_proper.balanced fun type ts₁ h₁ => ?_
    exact (reads_componentBlock fun ts₂ h₂ => ih ts₁ h₁ ts₂ h₂).proper_balanced.of_proper
  case case7 | case8 =>
    intro t ts ht
    refine .of_not_orderly ?_
    simp only [renderOp, ht]
    exact Reading.not_orderly_expected _ _ _
  case case9 =>
    intro t ts h₁ h₂ h₃ h₄ h₅ h₆ h₇ h₈
    refine .of_not_orderly ?_
    rw [renderOp]
    split <;> first | contradiction | exact Reading.not_orderly_expected _ _ _
  case case10 => exact fun _ => reads_no_componentBody rfl
  case case11 | case12 =>
    intro hasChild t tail ht
    exact reads_no_componentBody (by rw [next_cons, ht]; rfl)
  case case13 =>
    intro hasChild t tail ht ih
    exact .of_proper (.onward (f := fun ts => (componentArg t.span ts).recover)
      (g := fun v rest => (componentBody hasChild rest).map fun b =>
        { b with args := v.toList ++ b.args }) joins_balanced (.single (by rw [ht]; rfl))
      (componentBody_attr ht) reads_componentArg.balanced.recover.closed.takes
      fun r hr => (ih r hr).map)
  case case14 =>
    intro hasChild t tail ht child hblock ih
    have hchild : child = childBlock hasChild t.span tail := rfl
    refine .of_proper (.onward (f := childBlock hasChild t.span)
      (g := fun v rest => (componentBody (hasChild || v.isSome) rest).map
        (ComponentBody.withChild t.span v)) joins_balanced (.single (by rw [ht]; rfl))
      (componentBody_child ht) (takes_first (g := id) hblock.of_proper).closed fun r hr => ?_)
    rw [← hchild]
    exact (ih r hr).map
  case case15 =>
    intro hasChild t tail h₁ h₂ h₃ h₄ _
    refine .of_not_orderly fun ho => ?_
    rw [componentBody] at ho
    split at ho
    · contradiction
    · contradiction
    · contradiction
    · contradiction
    · exact Reading.not_orderly_expected _ _ _ (Reading.orderly_append.1 ho).1
  case case16 =>
    exact fun s ts h => (@reads_renderBlock_of (⟨.punct .lbrace, s⟩ :: ts) h).proper_balanced
  case case17 =>
    intro ts h
    refine .of_not_orderly (renderBlock_of_ne fun hn => ?_)
    obtain ⟨s, ts, rfl⟩ := exists_cons_of_next hn (by simp)
    exact h _ _ rfl
  case case18 => exact itemReader_renderOps.reads_none rfl
  case case19 =>
    rintro ⟨_, s⟩ tail (rfl | rfl)
    · exact itemReader_renderOps.reads_none rfl
    · exact itemReader_renderOps.reads_none rfl
  case case20 =>
    intro t tail ht hop ih
    exact itemReader_renderOps.reads_cons ht hop.recover.closed.takes ih

end

end Tokens

end ViewCompiler
