import ViewCompiler.Proofs.LoweringTotal
import ViewCompiler.Proofs.StmtSimulation

/-!
Child blocks and their functions. Lowering numbers the child blocks that it hands over
(`Lower.Counts`); a render block and its child blocks hand over as many as become functions
(`LowerScope.fragments_renderFunctions`).
-/

namespace ViewCompiler

namespace Code

/-- The step hands over `n` child blocks. -/
def Lower.Counts {α : Type} (n : Nat) (x : Lower α) : Prop :=
  ∀ s a s', StateT.run x s = .ok (a, s') → s'.fragments = s.fragments + n

namespace Lower.Counts

variable {α β : Type} {n k : Nat} {x y : Lower α} {f : α → Lower β}

theorem pure (a : α) : Counts 0 (pure a : Lower α) := by
  rintro s _ _ ⟨⟩
  rfl

theorem bind (hx : Counts n x) (hf : ∀ a, Counts k (f a)) : Counts (n + k) (x >>= f) := by
  intro s b s'' hrun
  obtain ⟨a, s', hxrun, hfrun⟩ := run_bind_eq_ok.1 hrun
  rw [hf a s' b s'' hfrun, hx s a s' hxrun, Nat.add_assoc]

/-- What follows a step without child blocks. -/
theorem skip (hx : Counts 0 x) (hf : ∀ a, Counts k (f a)) : Counts k (x >>= f) := by
  have h := hx.bind hf
  rwa [Nat.zero_add] at h

theorem bound_bind {o : Option α} (hf : ∀ a, Counts k (f a)) : Counts k (bound o >>= f) := by
  intro s b s' hrun
  cases o with
  | none => cases hrun
  | some a => exact hf a s b s' hrun

theorem ite {p : Prop} [Decidable p] (hx : Counts n x) (hy : Counts n y) :
    Counts n (if p then x else y) := by
  split
  · exact hx
  · exact hy

theorem modifyGet {g : LowerState → α × LowerState}
    (h : ∀ s, (g s).2.fragments = s.fragments + n) : Counts n (modifyGet g : Lower α) := by
  intro s a s' hrun
  obtain rfl : (g s).2 = s' := congrArg Prod.snd (Except.ok.inj hrun)
  exact h s

theorem emit (i : Instr) : Counts 0 (emit i) := modifyGet fun _ => rfl

theorem freshTemp : Counts 0 freshTemp := modifyGet fun _ => rfl

theorem string (text : Bytes) : Counts 0 (string text) :=
  modifyGet fun s => by split <;> rfl

theorem declare (d : Declaration) : Counts 0 (declare d) := modifyGet fun _ => rfl

theorem value {type : ValueType} (i : Nat → Instr) : Counts 0 (do
    let dest ← Lower.freshTemp
    Lower.emit (i dest)
    Pure.pure (⟨.temp dest, type⟩ : Value)) :=
  freshTemp.skip fun _ => (emit _).skip fun _ => pure _

end Lower.Counts

open Lower

namespace LowerScope

variable {c : LowerScope}

theorem counts_compute (f : Runtime) (type : ValueType) (args : List Value) :
    Counts 0 (compute f type args) := .value _

theorem counts_method (id : MethodId) : Counts 0 (c.method id) :=
  .bound_bind fun _ => .bound_bind fun _ => .ite ((Counts.declare _).skip fun _ => .pure _) (.pure _)

theorem counts_fieldAddress (id : MemberId) : Counts 0 (c.fieldAddress id) :=
  Counts.freshTemp.skip fun _ => (Counts.emit _).skip fun _ => .pure _

theorem counts_read (b : Binding) : Counts 0 (c.read b) := by
  cases b with
  | param i => exact .bound_bind fun _ => .value _
  | member id => exact (counts_fieldAddress id).skip fun _ => .value _
  | method id => exact (counts_method id).skip fun _ => counts_compute _ _ _

theorem counts_toText (v : Value) (τ : Ty) : Counts 0 (toText v τ) := by
  cases τ with
  | string => exact .pure _
  | _ => exact counts_compute _ _ _

theorem counts_equality (equal : Bool) (l r : Value) (τ : Ty) :
    Counts 0 (equality equal l r τ) :=
  .ite ((counts_compute _ _ _).skip fun _ => .ite (.pure _) (.value _)) (.value _)

theorem counts_binary (op : BinaryOp) (l r : Value) (lt rt : Ty) :
    Counts 0 (binary op l r lt rt) := by
  cases op with
  | add =>
    exact .ite (.value _) ((counts_toText _ _).skip fun _ => (counts_toText _ _).skip fun _ =>
      counts_compute _ _ _)
  | eq | ne => exact counts_equality _ _ _ _
  | _ => exact .value _

theorem counts_expr (e : BoundExpr) : Counts 0 (c.expr e) := by
  induction e with
  | int | bool => exact .pure _
  | string _ text => exact (Counts.string text).skip fun _ => .pure _
  | name => exact .bound_bind fun b => counts_read b
  | unary _ op _ _ ih => cases op <;> exact ih.skip fun _ => .value _
  | binary _ op _ _ _ ihl ihr => exact ihl.skip fun _ => ihr.skip fun _ => counts_binary _ _ _ _ _

theorem counts_attr (name : Bytes) (e : BoundExpr) : Counts 0 (c.attr name e) :=
  (counts_expr e).skip fun _ => (Counts.string name).skip fun _ => .emit _

theorem counts_attributes (as : List BoundArg) : Counts 0 (c.attributes as) := by
  induction as with
  | nil => exact .pure _
  | cons a as ih => exact (counts_attr a.name a.value).skip fun _ => ih

theorem counts_descriptor (id : TypeId) : Counts 0 (c.descriptor id) :=
  .ite ((Counts.declare _).skip fun _ => .pure _) (.pure _)

theorem counts_fragment (content : MemberId) : Counts 1 (c.fragment content) := by
  have hnext : Counts 1 (modifyGet fun s => (s.fragments, { s with fragments := s.fragments + 1 }) :
      Lower Nat) := .modifyGet fun _ => rfl
  exact hnext.bind fun _ => (counts_compute _ _ _).skip fun _ => (Counts.string _).skip fun _ => .emit _

/-- An operation hands over the child block that it has. -/
theorem counts_renderOp (op : BoundOp) :
    Counts (BoundOp.childBlocks [op]).length (c.renderOp op) := by
  cases op with
  | openElement | text => exact (Counts.string _).skip fun _ => .emit _
  | attr _ name e => exact counts_attr name e
  | closeElement => exact .emit _
  | value _ e => exact (counts_expr e).skip fun _ => .emit _
  | component _ type args childSpan child content =>
    refine .bound_bind fun type => (counts_descriptor type).skip fun _ =>
      (Counts.emit _).skip fun _ => (counts_attributes args).skip fun _ => ?_
    cases childSpan with
    | none => exact .emit _
    | some span =>
      cases content with
      | none => exact .emit _
      | some content => exact (counts_fragment content).bind fun _ => .emit _

end LowerScope

end Code

/-! ## Levels of child blocks -/

namespace BoundOp

theorem childBlocks_cons (op : BoundOp) (ops : List BoundOp) :
    childBlocks (op :: ops) = childBlocks [op] ++ childBlocks ops :=
  List.filterMap_append (l := [op])

/-- A child block nests less deep than what it stands in. -/
theorem depths_lt_of_mem_childBlocks {ops block : List BoundOp} (h : block ∈ childBlocks ops) :
    depths block < depths ops := by
  induction ops with
  | nil => cases h
  | cons op ops ih =>
    rw [childBlocks_cons, List.mem_append] at h
    rw [depths]
    rcases h with h | h
    · obtain ⟨_, hop, hchild⟩ := List.mem_filterMap.1 h
      obtain rfl := List.mem_singleton.1 hop
      split at hchild
      · cases hchild
        rw [depth]
        omega
      · cases hchild
    · have := ih h
      omega

/-- Behind the blocks that the levels start with come the child blocks of all of them, if there are
enough levels. -/
theorem levels_eq {d : Nat} {blocks : List (List BoundOp)} (h : ∀ b ∈ blocks, depths b < d) :
    levels d blocks = blocks ++ (levels d blocks).flatMap childBlocks := by
  induction d generalizing blocks with
  | zero =>
    cases blocks with
    | nil => rfl
    | cons b blocks => exact absurd (h b List.mem_cons_self) (Nat.not_lt_zero _)
  | succ d ih =>
    have hinner : ∀ b ∈ blocks.flatMap childBlocks, depths b < d := by
      intro b hb
      obtain ⟨outer, houter, hb⟩ := List.mem_flatMap.1 hb
      have := depths_lt_of_mem_childBlocks hb
      have := h outer houter
      omega
    rw [levels, List.flatMap_append, ← ih hinner]

/-- The fragments are the child blocks of the render block and of the fragments, in this order. -/
theorem fragments_eq (ops : List BoundOp) :
    fragments ops = (ops :: fragments ops).flatMap childBlocks :=
  levels_eq fun _ hb => depths_lt_of_mem_childBlocks hb

end BoundOp

namespace Code

open Lower

namespace LowerScope

variable {c : LowerScope}

theorem counts_renderOps (ops : List BoundOp) :
    Counts (BoundOp.childBlocks ops).length (c.renderOps ops) := by
  induction ops with
  | nil => exact .pure _
  | cons op ops ih =>
    rw [BoundOp.childBlocks_cons, List.length_append]
    exact (counts_renderOp op).bind fun _ => ih

theorem counts_function {n : Nat} {body : Lower Unit} (h : Counts n body) (f : Function) :
    Counts n (function f body) := by
  have hstart : Counts 0 (modify fun s =>
      { s with body := [], temps := 0, labels := 0, terminated := false }) := .modifyGet fun _ => rfl
  have hget : Counts 0 (get : Lower LowerState) := by
    rintro s _ _ ⟨⟩
    rfl
  have hend : Counts 0 (get >>= fun s => Pure.pure { f with body := s.body }) :=
    hget.skip fun _ => .pure _
  exact hstart.skip fun _ => h.bind fun _ => hget.skip fun _ =>
    .ite ((Counts.emit _).skip fun _ => hend) hend

theorem counts_fragmentFunctions (index : Nat) (blocks : List (List BoundOp)) :
    Counts (blocks.flatMap BoundOp.childBlocks).length (c.fragmentFunctions index blocks) := by
  induction blocks generalizing index with
  | nil => exact .pure _
  | cons ops blocks ih =>
    rw [List.flatMap_cons, List.length_append]
    exact (counts_function (counts_renderOps ops) _).bind fun _ => (ih _).bind fun _ => .pure _

/-- Every child block that is handed over gets a function. -/
theorem fragments_renderFunctions {ops : List BoundOp} {s s' : LowerState} {fs : List Function}
    (h : StateT.run (c.renderFunctions ops) s = .ok (fs, s')) :
    s'.fragments = (BoundOp.fragments ops).length := by
  obtain ⟨_, _, ⟨⟩, h⟩ := run_bind_eq_ok.1 h
  have hcount := (counts_function (counts_renderOps ops) _).bind (fun f =>
    (counts_fragmentFunctions 0 (BoundOp.fragments ops)).bind fun fs => .pure (f :: fs)) _ _ _ h
  have hlength := congrArg List.length (BoundOp.fragments_eq ops)
  rw [List.flatMap_cons, List.length_append] at hlength
  rw [hcount, hlength]
  exact Nat.zero_add _

end LowerScope

end Code

end ViewCompiler
