import ViewCompiler.Proofs.DeclaredNames

/-!
Syntax trees without places. Readers look at the kinds of tokens only: from tokens of the same kinds
(`Tokens.Like`) they give trees that differ in places at most (`Reading.Similar`). Where identifiers
are words, so are the names in what is read.
-/

namespace ViewCompiler

/-! ## Trees without places -/

namespace TypeRef

def unplaced (t : TypeRef) : TypeRef := { t with span := {} }

end TypeRef

namespace Expr

def unplaced : Expr → Expr
  | int _ value => int {} value
  | string _ text => string {} text
  | bool _ value => bool {} value
  | name _ n => name {} n
  | unary _ op e => unary {} op e.unplaced
  | binary _ op l r => binary {} op l.unplaced r.unplaced

/-- The names in the expression are words. -/
def Worded : Expr → Prop
  | name _ n => n.IsWord
  | unary _ _ e => e.Worded
  | binary _ _ l r => l.Worded ∧ r.Worded
  | _ => True

end Expr

namespace Stmt

mutual

def unplaced : Stmt → Stmt
  | assign _ target value => assign {} target value.unplaced
  | call _ receiver method args => call {} receiver method (args.map Expr.unplaced)
  | cond _ condition thenBody elseBody =>
    cond {} condition.unplaced (allUnplaced thenBody) (allUnplaced elseBody)
  | ret _ => ret {}

def allUnplaced : List Stmt → List Stmt
  | [] => []
  | s :: ss => s.unplaced :: allUnplaced ss

end

mutual

/-- The names in the statement are words. -/
def Worded : Stmt → Prop
  | assign _ _ value => value.Worded
  | call _ _ method args => method.IsWord ∧ ∀ e ∈ args, e.Worded
  | cond _ condition thenBody elseBody =>
    condition.Worded ∧ AllWorded thenBody ∧ AllWorded elseBody
  | ret _ => True

def AllWorded : List Stmt → Prop
  | [] => True
  | s :: ss => s.Worded ∧ AllWorded ss

end

theorem allUnplaced_eq (ss : List Stmt) : allUnplaced ss = ss.map unplaced := by
  induction ss with
  | nil => rfl
  | cons s ss ih => rw [allUnplaced, ih, List.map_cons]

theorem allWorded_iff {ss : List Stmt} : AllWorded ss ↔ ∀ s ∈ ss, s.Worded := by
  induction ss with
  | nil => simp [AllWorded]
  | cons s ss ih => simp [AllWorded, ih]

end Stmt

namespace ComponentArg

def unplaced (a : ComponentArg) : ComponentArg where
  name := a.name
  value := a.value.unplaced
  span := {}

end ComponentArg

namespace RenderOp

mutual

def unplaced : RenderOp → RenderOp
  | openElement _ tag => openElement {} tag
  | attr _ name e => attr {} name e.unplaced
  | closeElement _ => closeElement {}
  | text _ t => text {} t
  | value _ e => value {} e.unplaced
  | component _ type args childSpan child =>
    component {} type.unplaced (args.map ComponentArg.unplaced) (childSpan.map fun _ => {})
      (allUnplaced child)

def allUnplaced : List RenderOp → List RenderOp
  | [] => []
  | op :: ops => op.unplaced :: allUnplaced ops

end

mutual

/-- The names in the expressions of the operation are words. -/
def Worded : RenderOp → Prop
  | attr _ _ e | value _ e => e.Worded
  | component _ _ args _ child => (∀ a ∈ args, a.value.Worded) ∧ AllWorded child
  | _ => True

def AllWorded : List RenderOp → Prop
  | [] => True
  | op :: ops => op.Worded ∧ AllWorded ops

end

theorem allUnplaced_eq (ops : List RenderOp) : allUnplaced ops = ops.map unplaced := by
  induction ops with
  | nil => rfl
  | cons op ops ih => rw [allUnplaced, ih, List.map_cons]

theorem allWorded_iff {ops : List RenderOp} : AllWorded ops ↔ ∀ op ∈ ops, op.Worded := by
  induction ops with
  | nil => simp [AllWorded]
  | cons op ops ih => simp [AllWorded, ih]

end RenderOp

namespace DataMember

def unplaced (m : DataMember) : DataMember :=
  { m with type := m.type.unplaced, init := m.init.map Expr.unplaced, span := {} }

end DataMember

namespace Parameter

def unplaced (p : Parameter) : Parameter := { p with type := p.type.unplaced, span := {} }

end Parameter

namespace MethodDecl

def unplaced (m : MethodDecl) : MethodDecl :=
  { m with params := m.params.map Parameter.unplaced, body := Stmt.allUnplaced m.body, span := {} }

end MethodDecl

namespace RenderBlock

def unplaced (b : RenderBlock) : RenderBlock where
  ops := RenderOp.allUnplaced b.ops
  span := {}

end RenderBlock

namespace TypeDecl

def unplaced (d : TypeDecl) : TypeDecl :=
  { d with
    base := d.base.map TypeRef.unplaced
    members := d.members.map DataMember.unplaced
    methods := d.methods.map MethodDecl.unplaced
    render := d.render.map RenderBlock.unplaced
    span := {} }

/-- The names of the methods and the names in all bodies are words. -/
structure Worded (d : TypeDecl) : Prop where
  inits : ∀ m ∈ d.members, ∀ e ∈ m.init, e.Worded
  methods : ∀ m ∈ d.methods, m.name.IsWord ∧ Stmt.AllWorded m.body
  render : ∀ b ∈ d.render, RenderOp.AllWorded b.ops

end TypeDecl

@[simp] theorem TypeRef.unplaced_unplaced (t : TypeRef) : t.unplaced.unplaced = t.unplaced := rfl

@[simp] theorem Expr.unplaced_unplaced (e : Expr) : e.unplaced.unplaced = e.unplaced := by
  induction e <;> simp [Expr.unplaced, *]

namespace Stmt

mutual

@[simp] theorem unplaced_unplaced (c : Stmt) : c.unplaced.unplaced = c.unplaced := by
  cases c with
  | cond _ e ss ss' => simp [unplaced, allUnplaced_allUnplaced ss, allUnplaced_allUnplaced ss']
  | _ => simp [unplaced]

theorem allUnplaced_allUnplaced (ss : List Stmt) :
    allUnplaced (allUnplaced ss) = allUnplaced ss := by
  cases ss with
  | nil => rfl
  | cons c ss => simp [allUnplaced, unplaced_unplaced c, allUnplaced_allUnplaced ss]

end

end Stmt

@[simp] theorem ComponentArg.unplaced_unplaced (a : ComponentArg) :
    a.unplaced.unplaced = a.unplaced := by
  simp [ComponentArg.unplaced]

namespace RenderOp

mutual

@[simp] theorem unplaced_unplaced (op : RenderOp) : op.unplaced.unplaced = op.unplaced := by
  cases op with
  | component _ type args childSpan child =>
    simp [unplaced, allUnplaced_allUnplaced child, Option.map_map, Function.comp_def]
  | _ => simp [unplaced]

theorem allUnplaced_allUnplaced (ops : List RenderOp) :
    allUnplaced (allUnplaced ops) = allUnplaced ops := by
  cases ops with
  | nil => rfl
  | cons op ops => simp [allUnplaced, unplaced_unplaced op, allUnplaced_allUnplaced ops]

end

end RenderOp

@[simp] theorem TypeDecl.unplaced_unplaced (d : TypeDecl) : d.unplaced.unplaced = d.unplaced := by
  simp [TypeDecl.unplaced, DataMember.unplaced, MethodDecl.unplaced, Parameter.unplaced,
    RenderBlock.unplaced, Option.map_map, Function.comp_def, Stmt.allUnplaced_allUnplaced,
    RenderOp.allUnplaced_allUnplaced]
  rfl

/-! ## Tokens of the same kinds -/

namespace Tokens

/-- Tokens of the same kinds, whatever their places; identifiers are words. -/
structure Like (ts ts' : List Token) : Prop where
  kinds : ts.map (·.kind) = ts'.map (·.kind)
  worded : Worded ts

namespace Like

variable {t : Token} {ts us vs : List Token}

theorem refl (h : Worded ts) : Like ts ts := ⟨rfl, h⟩

theorem nil : Like [] [] := ⟨rfl, by simp [Worded]⟩

theorem length_eq (h : Like ts us) : ts.length = us.length := by
  simpa using congrArg List.length h.kinds

theorem cons_left (h : Like (t :: ts) us) :
    ∃ u tail, us = u :: tail ∧ u.kind = t.kind ∧ Like ts tail := by
  obtain ⟨hkinds, hworded⟩ := h
  cases us with
  | nil => cases hkinds
  | cons u us =>
    obtain ⟨hu, hus⟩ := List.cons.inj hkinds
    exact ⟨u, us, rfl, hu.symm, hus, hworded.tail⟩

theorem cons_cons {u : Token} (h : Like (t :: ts) (u :: us)) : u.kind = t.kind ∧ Like ts us := by
  obtain ⟨_, _, heq, hu, htail⟩ := h.cons_left
  cases heq
  exact ⟨hu, htail⟩

theorem cons_right (h : Like us (t :: ts)) :
    ∃ u tail, us = u :: tail ∧ u.kind = t.kind ∧ Like tail ts := by
  cases us with
  | nil => cases h.kinds
  | cons u us =>
    obtain ⟨v, tail, heq, hv, htail⟩ := h.cons_left
    cases heq
    exact ⟨u, us, rfl, hv.symm, htail⟩

theorem nil_left (h : Like [] us) : us = [] := by simpa using h.kinds.symm

theorem next_eq (h : Like ts us) : next ts = next us := by
  cases ts with
  | nil => rw [h.nil_left]
  | cons t ts =>
    obtain ⟨u, us, rfl, hu, -⟩ := h.cons_left
    exact hu.symm

theorem tail (h : Like ts us) : Like ts.tail us.tail := by
  cases ts with
  | nil =>
    rw [h.nil_left]
    exact .nil
  | cons t ts =>
    obtain ⟨u, us, rfl, -, htail⟩ := h.cons_left
    exact htail

theorem clip (h : Like ts us) {bound bound' : List Token} (hb : Like bound bound') :
    Like (clip bound ts) (Tokens.clip bound' us) := by
  rw [Tokens.clip, Tokens.clip, ← h.length_eq, ← hb.length_eq]
  split
  · exact h
  · exact hb

theorem synchronizeAt (h : Like ts us) (depth : Nat) :
    Like (synchronizeAt depth ts) (Tokens.synchronizeAt depth us) := by
  induction ts generalizing us depth with
  | nil =>
    rw [h.nil_left]
    exact .nil
  | cons t ts ih =>
    obtain ⟨u, us, rfl, hu, htail⟩ := h.cons_left
    rw [Tokens.synchronizeAt.eq_def, Tokens.synchronizeAt.eq_def depth (u :: us)]
    simp only [hu]
    split
    · exact h
    · exact ih htail _
    · split
      · exact h
      · exact htail
      · exact ih htail _
    · split
      · exact htail
      · exact ih htail _
    · exact ih htail _

theorem skipBlockAt (h : Like ts us) (depth : Nat) :
    Like (skipBlockAt depth ts) (Tokens.skipBlockAt depth us) := by
  induction ts generalizing us depth with
  | nil =>
    rw [h.nil_left]
    exact .nil
  | cons t ts ih =>
    obtain ⟨u, us, rfl, hu, htail⟩ := h.cons_left
    rw [Tokens.skipBlockAt, Tokens.skipBlockAt, hu]
    split
    · exact h
    · exact ih htail _
    · split
      · exact htail
      · exact ih htail _
    · exact ih htail _

end Like

end Tokens

/-! ## Readings that agree -/

namespace Reading

open Tokens (Like)

variable {α β : Type}

/-- Relations of errors and of tokens that readings keep when they go on, and when they skip tokens
after an error. -/
class Accord (E : List (Span × SyntaxError) → List (Span × SyntaxError) → Prop)
    (L : List Token → List Token → Prop) : Prop where
  nil : E [] []
  append : ∀ {es es' fs fs'}, E es es' → E fs fs' → E (es ++ fs) (es' ++ fs')
  clip : ∀ {bound bound' ts us}, L bound bound' → L ts us →
    L (Tokens.clip bound ts) (Tokens.clip bound' us)
  synchronize : ∀ {ts us}, L ts us → L (Tokens.synchronize ts) (Tokens.synchronize us)

/-- Values related by `R`, errors by `E` and the tokens that are left by `L`. -/
structure Agree (E : List (Span × SyntaxError) → List (Span × SyntaxError) → Prop)
    (L : List Token → List Token → Prop) (R : α → α → Prop) (r r' : Reading α) : Prop where
  value : Option.Rel R r.value r'.value
  errors : E r.errors r'.errors
  rest : L r.rest r'.rest

namespace Agree

variable {E : List (Span × SyntaxError) → List (Span × SyntaxError) → Prop}
  {L : List Token → List Token → Prop} [hA : Accord E L]
  {R : α → α → Prop} {S : β → β → Prop} {r r' : Reading α} {ts us : List Token}

theorem ok {a b : α} (h : R a b) (hts : L ts us) : Agree E L R (.ok a ts) (.ok b us) :=
  ⟨.some h, hA.nil, hts⟩

theorem report {es es' : List (Span × SyntaxError)} (h : Agree E L R r r') (hes : E es es') :
    Agree E L R (r.report es) (r'.report es') :=
  ⟨h.value, hA.append hes h.errors, h.rest⟩

omit hA in
theorem map {f g : α → β} (h : Agree E L R r r') (hf : ∀ a b, R a b → S (f a) (g b)) :
    Agree E L S (r.map f) (r'.map g) := by
  obtain ⟨v, es, ts⟩ := r
  obtain ⟨v', es', us⟩ := r'
  obtain ⟨value, errors, rest⟩ := h
  cases value with
  | some hab => exact ⟨.some (hf _ _ hab), errors, rest⟩
  | none => exact ⟨.none, errors, rest⟩

theorem andThen {f g : α → List Token → Reading β} (h : Agree E L R r r')
    (hf : ∀ a b ts us, R a b → L ts us → Agree E L S (f a ts) (g b us)) :
    Agree E L S (r.andThen f) (r'.andThen g) := by
  obtain ⟨v, es, ts⟩ := r
  obtain ⟨v', es', us⟩ := r'
  obtain ⟨value, errors, rest⟩ := h
  cases value with
  | some hab => exact (hf _ _ _ _ hab rest).report errors
  | none => exact ⟨.none, errors, rest⟩

theorem within {f g : α → List Token → Reading β} (hts : L ts us) (h : Agree E L R r r')
    (hf : ∀ a b ts' us', ts'.length ≤ ts.length → R a b → L ts' us' →
      Agree E L S (f a ts') (g b us')) :
    Agree E L S (r.within ts fun a rest _ => f a rest) (r'.within us fun b rest _ => g b rest) := by
  obtain ⟨v, es, rs⟩ := r
  obtain ⟨v', es', rs'⟩ := r'
  obtain ⟨value, errors, rest⟩ := h
  cases value with
  | some hab =>
    exact (hf _ _ _ _ (Tokens.length_clip_le _ _) hab (hA.clip hts rest)).report errors
  | none => exact ⟨.none, errors, rest⟩

theorem onward {f g : List Token → Reading β} (hts : L ts us) (h : Agree E L R r r')
    (hf : ∀ ts' us', ts'.length ≤ ts.length → L ts' us' → Agree E L S (f ts') (g us')) :
    Agree E L S (r.onward ts fun rest _ => f rest) (r'.onward us fun rest _ => g rest) :=
  (hf _ _ (Tokens.length_clip_le _ _) (hA.clip hts h.rest)).report h.errors

theorem recover (h : Agree E L R r r') : Agree E L R r.recover r'.recover := by
  obtain ⟨v, es, ts⟩ := r
  obtain ⟨v', es', us⟩ := r'
  obtain ⟨value, errors, rest⟩ := h
  cases value with
  | some hab => exact ⟨.some hab, errors, rest⟩
  | none => exact ⟨.none, errors, hA.synchronize rest⟩

omit hA in
theorem isSome_eq (h : Agree E L R r r') : r.value.isSome = r'.value.isSome := by
  obtain ⟨v, es, ts⟩ := r
  obtain ⟨v', es', us⟩ := r'
  cases h.value <;> rfl

omit hA in
theorem ite {p : Prop} [Decidable p] {q q' : Reading α} (h : p → Agree E L R r r')
    (h' : ¬ p → Agree E L R q q') : Agree E L R (if p then r else q) (if p then r' else q') := by
  split
  · next hp => exact h hp
  · next hp => exact h' hp

end Agree

/-- The same errors, at whatever places. -/
def SameErrors (es es' : List (Span × SyntaxError)) : Prop := es.map (·.2) = es'.map (·.2)

instance : Accord SameErrors Like where
  nil := rfl
  append h h' := by rw [SameErrors, List.map_append, List.map_append, h, h']
  clip hb h := h.clip hb
  synchronize h := h.synchronizeAt 0

/-- Values related by `R`, the same errors, and tokens of the same kinds left. -/
abbrev Similar (R : α → α → Prop) (r r' : Reading α) : Prop := Agree SameErrors Like R r r'

namespace Similar

variable {R : α → α → Prop} {ts us : List Token}

theorem expected {what : Bytes} (hts : Like ts us) :
    Similar R (.expected what ts) (.expected what us) :=
  ⟨.none, by simp [SameErrors, Reading.expected, hts.next_eq], hts⟩

/-- The same error, at whatever place. -/
theorem error {s s' : Span} {e : SyntaxError} (hts : Like ts us) :
    Similar R { value := none, errors := [(s, e)], rest := ts }
      { value := none, errors := [(s', e)], rest := us } :=
  ⟨.none, rfl, hts⟩

end Similar

end Reading

/-! ## Readers -/

namespace Tokens

open Reading (Similar)

/-- Equal without places, with property `P`. -/
def Same {α : Type} (f : α → α) (P : α → Prop) (a b : α) : Prop := f a = f b ∧ P a

/-- Lists whose elements are equal without places, with property `P`. -/
def SameList {α : Type} (f : α → α) (P : α → Prop) : List α → List α → Prop :=
  Same (List.map f) fun as => ∀ a ∈ as, P a

section
variable {α : Type} {f : α → α} {P : α → Prop} {a b : α} {as bs as' bs' : List α}

theorem SameList.nil : SameList f P [] [] := ⟨rfl, by simp⟩

theorem SameList.cons (h : Same f P a b) (hs : SameList f P as bs) :
    SameList f P (a :: as) (b :: bs) :=
  ⟨by rw [List.map_cons, List.map_cons, h.1, hs.1], List.forall_mem_cons.2 ⟨h.2, hs.2⟩⟩

theorem SameList.append (h : SameList f P as bs) (h' : SameList f P as' bs') :
    SameList f P (as ++ as') (bs ++ bs') :=
  ⟨by rw [List.map_append, List.map_append, h.1, h'.1], List.forall_mem_append.2 ⟨h.2, h'.2⟩⟩

/-- What was read, if anything. -/
theorem SameList.of_option {o o' : Option α} (h : Option.Rel (Same f P) o o') :
    SameList f P o.toList o'.toList := by
  cases h with
  | some h => exact .cons h .nil
  | none => exact .nil

end

section
variable {ts us : List Token}

theorem similar_take {kind : TokenKind} {what : Bytes} (h : Like ts us) :
    Similar Eq (take kind what ts) (take kind what us) := by
  rw [take, take, ← h.next_eq]
  exact .ite (fun _ => .ok rfl h.tail) fun _ => Similar.expected h

theorem similar_mark {p : Punct} (h : Like ts us) : Similar Eq (mark p ts) (mark p us) :=
  similar_take h

/-- An identifier is a word. -/
theorem similar_identifier {what : Bytes} (h : Like ts us) :
    Similar (fun m n => m = n ∧ m.IsWord) (identifier what ts) (identifier what us) := by
  rw [identifier, identifier, ← h.next_eq]
  split
  · next n hn => exact .ok ⟨rfl, h.worded.of_next hn⟩ h.tail
  · exact .expected h

theorem similar_literal {what : Bytes} (h : Like ts us) :
    Similar Eq (literal what ts) (literal what us) := by
  rw [literal, literal, ← h.next_eq]
  split
  · exact .ok rfl h.tail
  · exact .expected h

theorem dotted_like (h : Like ts us) :
    (dotted ts).1 = (dotted us).1 ∧ Like (dotted ts).2 (dotted us).2 := by
  induction ts using dotted.induct generalizing us with
  | case1 s n s' ts _ _ _ ih =>
    obtain ⟨⟨_, u⟩, tail, rfl, hdot, htail⟩ := h.cons_left
    obtain ⟨⟨_, u'⟩, tail, rfl, hname, hrest⟩ := htail.cons_left
    cases hdot
    cases hname
    obtain ⟨hfirst, hsecond⟩ := ih hrest
    exact ⟨by simp [dotted, hfirst], by simpa [dotted] using hsecond⟩
  | case2 ts hts =>
    have hus : ∀ s n s' us', us = ⟨.punct .dot, s⟩ :: ⟨.identifier n, s'⟩ :: us' → False := by
      rintro s n s' us' rfl
      obtain ⟨⟨_, _⟩, tail, rfl, hdot, htail⟩ := h.cons_right
      obtain ⟨⟨_, _⟩, tail, rfl, hname, -⟩ := htail.cons_right
      cases hdot
      cases hname
      exact hts _ _ _ _ rfl
    rw [dotted.eq_2 _ hts, dotted.eq_2 _ hus]
    exact ⟨rfl, h⟩

theorem similar_qualifiedName (h : Like ts us) :
    Similar Eq (qualifiedName ts) (qualifiedName us) := by
  refine (similar_identifier h).andThen ?_
  rintro n _ ts us ⟨rfl, -⟩ h
  obtain ⟨hname, hrest⟩ := dotted_like h
  exact .ok (by rw [hname]) hrest

theorem similar_type (h : Like ts us) :
    Similar (Same TypeRef.unplaced fun _ => True) (type ts) (type us) := by
  rw [type, type, ← h.next_eq]
  split
  · exact .ite (fun _ => .ok ⟨rfl, trivial⟩ h.tail) fun _ => Similar.expected h
  · refine (similar_qualifiedName h).map ?_
    rintro name _ rfl
    exact ⟨rfl, trivial⟩
  · exact .expected h

/-! ### Expressions -/

/-- Equal without places, with names that are words. -/
abbrev SameExpr : Expr → Expr → Prop := Same Expr.unplaced Expr.Worded

theorem SameExpr.unary {s s' : Span} {op : UnaryOp} {e e' : Expr} (h : SameExpr e e') :
    SameExpr (.unary s op e) (.unary s' op e') :=
  ⟨by rw [Expr.unplaced, Expr.unplaced, h.1], h.2⟩

theorem SameExpr.binary {s s' : Span} {op : BinaryOp} {l l' r r' : Expr} (hl : SameExpr l l')
    (hr : SameExpr r r') : SameExpr (.binary s op l r) (.binary s' op l' r') :=
  ⟨by rw [Expr.unplaced, Expr.unplaced, hl.1, hr.1], hl.2, hr.2⟩

theorem similar_operandOf {p : Precedence}
    (hb : ∀ q, p.tighter? = some q → Similar SameExpr (binary q ts) (binary q us))
    (ho : Similar SameExpr (operand ts) (operand us)) :
    Similar SameExpr (operandOf p ts) (operandOf p us) := by
  rw [operandOf, operandOf]
  split
  · exact hb _ ‹_›
  · exact ho

theorem similar_expressions :
    (∀ ts us, Like ts us → Similar SameExpr (operand ts) (operand us)) ∧
    (∀ p ts us, Like ts us → Similar SameExpr (binary p ts) (binary p us)) ∧
    ∀ p left ts right us, SameExpr left right → Like ts us →
      Similar SameExpr (operators p left ts) (operators p right us) := by
  apply operand.mutual_induct
  case case1 =>
    intro us h
    rw [h.nil_left]
    simp only [operand]
    exact .expected .nil
  case case2 | case3 | case4 | case5 =>
    intros
    rename_i us h
    obtain ⟨u, us, rfl, hu, htail⟩ := h.cons_left
    simp only [operand, *]
    exact .ok ⟨rfl, trivial⟩ htail
  case case6 =>
    intro t tail n ht us h
    obtain ⟨u, us, rfl, hu, htail⟩ := h.cons_left
    simp only [operand, hu, ht]
    exact .ok ⟨rfl, h.worded.of_next ht⟩ htail
  case case7 | case8 =>
    intro t tail ht ih us h
    obtain ⟨u, us, rfl, hu, htail⟩ := h.cons_left
    simp only [operand, hu, ht]
    exact (ih us htail).map fun _ _ he => he.unary
  case case9 =>
    intro t tail ht ih us h
    obtain ⟨u, us, rfl, hu, htail⟩ := h.cons_left
    simp only [operand, hu, ht]
    exact (ih us htail).andThen fun e e' ts us he h => (similar_mark h).map fun _ _ _ => he
  case case10 =>
    intro t tail h₁ h₂ h₃ h₄ h₅ h₆ h₇ h₈ us h
    obtain ⟨u, us, rfl, hu, htail⟩ := h.cons_left
    have hother {v : Token} {vs : List Token} (hv : v.kind = t.kind) :
        operand (v :: vs) = .expected "expression" (v :: vs) := by
      rw [operand, hv]
      split <;> simp_all
    rw [hother rfl, hother hu]
    exact .expected h
  case case11 =>
    intro p ts hb ho ih us h
    rw [binary_eq, binary_eq]
    exact .within h (similar_operandOf (fun q hq => hb q hq us h) (ho us h))
      fun a b ts' us' hlen hab h' => ih a ts' hlen b us' hab h'
  case case12 =>
    intro p left right us hleft h
    rw [h.nil_left]
    simp only [operators]
    exact .ok hleft .nil
  case case13 =>
    intro p left t tail hnone right us hleft h
    have hnone' : p.operator? (next us) = none := h.next_eq ▸ hnone
    rw [operators_of_none hnone, operators_of_none hnone']
    exact .ok hleft h
  case case14 =>
    intro p left t tail op hop hb ho ih right us hleft h
    obtain ⟨u, us, rfl, hu, htail⟩ := h.cons_left
    rw [operators_cons hop, operators_cons (hu ▸ hop)]
    refine .within htail (similar_operandOf (fun q _ => hb q us htail) (ho us htail)) ?_
    exact fun a b ts' us' hlen hab h' => ih a ts' hlen _ us' (hleft.binary hab) h'

theorem similar_expr (h : Like ts us) : Similar SameExpr (expr ts) (expr us) :=
  similar_expressions.2.1 .disjunction ts us h

end

end Tokens

end ViewCompiler
