import Mathlib.Data.List.Perm.Subperm
import Mathlib.Logic.Relation
import ViewCompiler.Proofs.Headers

/-!
Base types of base types. They are followed until there is none, or one that was met before
(`SymbolTable.Chain`); references may bring cycles along, so the second does happen. A declared type
is on no cycle once the cycles of a unit are broken (`Analysis.not_cyclic`), so its base types are its
base and the base types of that (`SymbolTable.bases_eq`).
-/

namespace ViewCompiler

namespace SymbolTable

open Relation (TransGen)

variable {t u : SymbolTable} {id a b : TypeId} {seen : List TypeId}

/-! ## One step -/

/-- The type that the base of a type means. -/
def base? (t : SymbolTable) (id : TypeId) : Option TypeId :=
  (t.get? id).bind fun s => if s.base = [] then none else t.find? s.base

/-- The second type is the base of the first. -/
def Extends (t : SymbolTable) (id b : TypeId) : Prop := t.base? id = some b

theorem extends_iff : t.Extends id b ↔
    ∃ s, t.get? id = some s ∧ s.base ≠ [] ∧ t.find? s.base = some b := by
  rw [Extends, base?, Option.bind_eq_some_iff]
  apply exists_congr
  intro s
  by_cases hbase : s.base = [] <;> simp [hbase]

theorem lt_of_get? {s : TypeSymbol} (h : t.get? id = some s) : id < t.types.length :=
  (List.getElem?_eq_some_iff.1 h).1

theorem Extends.lt_left (h : t.Extends id b) : id < t.types.length := by
  obtain ⟨s, hs, -⟩ := extends_iff.1 h
  exact lt_of_get? hs

theorem Extends.lt_right (h : t.Extends id b) : b < t.types.length := by
  obtain ⟨s, -, -, hb⟩ := extends_iff.1 h
  obtain ⟨_, hget, -⟩ := get?_of_find? hb
  exact lt_of_get? hget

theorem Extends.unique (h : t.Extends id a) (h' : t.Extends id b) : a = b :=
  Option.some.inj (h.symm.trans h')

theorem basesFrom_succ (fuel : Nat) (seen : List TypeId) (id : TypeId) :
    t.basesFrom (fuel + 1) seen id = match t.base? id with
      | none => []
      | some b => if b ∈ seen then [] else b :: t.basesFrom fuel (b :: seen) b := by
  rw [basesFrom, base?]
  cases t.get? id with
  | none => rfl
  | some s =>
    by_cases hbase : s.base = []
    · simp [hbase]
    · cases hfind : t.find? s.base <;> simp [hbase, hfind]

theorem returnsFrom?_succ (start : TypeId) (fuel : Nat) (seen : List TypeId) (id : TypeId) :
    t.returnsFrom? start (fuel + 1) seen id = match t.base? id with
      | none => none
      | some next =>
        if next = start then some id
        else if next ∈ seen then none
        else t.returnsFrom? start fuel (next :: seen) next := by
  rw [returnsFrom?, base?]
  cases t.get? id with
  | none => rfl
  | some s =>
    by_cases hbase : s.base = []
    · simp [hbase]
    · cases hfind : t.find? s.base <;> simp [hbase, hfind]

/-- There are no more types to be seen than the table has. -/
theorem length_le_of_nodup (hnodup : seen.Nodup) (hlt : ∀ x ∈ seen, x < t.types.length) :
    seen.length ≤ t.types.length := by
  have hsubset : seen ⊆ List.range t.types.length := fun x hx => List.mem_range.2 (hlt x hx)
  simpa using (List.subperm_of_subset hnodup hsubset).length_le

/-! ## Chains -/

/-- The types that are reached from a type, nearest first: until there is no base, or one of those
seen before. -/
inductive Chain (t : SymbolTable) : List TypeId → TypeId → List TypeId → Prop where
  | stop {seen : List TypeId} {id : TypeId} : (∀ b, t.Extends id b → b ∈ seen) → Chain t seen id []
  | step {seen bs : List TypeId} {id b : TypeId} : t.Extends id b → b ∉ seen →
    Chain t (b :: seen) b bs → Chain t seen id (b :: bs)

namespace Chain

variable {bs bs' seen' : List TypeId}

theorem unique (h : t.Chain seen id bs) (h' : t.Chain seen id bs') : bs = bs' := by
  induction h generalizing bs' with
  | stop hstop =>
    cases h' with
    | stop => rfl
    | step hext hb => exact absurd (hstop _ hext) hb
  | step hext hb _ ih =>
    cases h' with
    | stop hstop => exact absurd (hstop _ hext) hb
    | step hext' _ hrest =>
      cases hext.unique hext'
      rw [ih hrest]

/-- What cannot be reached need not be remembered. -/
theorem forget (h : t.Chain seen id bs) (hsubset : seen' ⊆ seen)
    (hreach : ∀ x ∈ seen, TransGen t.Extends id x → x ∈ seen') : t.Chain seen' id bs := by
  induction h generalizing seen' with
  | stop hstop => exact .stop fun b hb => hreach b (hstop b hb) (.single hb)
  | @step seen bs id b hext hb _ ih =>
    apply step hext fun hmem => hb (hsubset hmem)
    apply ih (List.cons_subset_cons b hsubset)
    intro x hx hbx
    rcases List.mem_cons.1 hx with rfl | hx
    · exact List.mem_cons_self
    · exact List.mem_cons_of_mem _ (hreach x hx (.head hext hbx))

end Chain

/-- The fuel is enough for a chain if there is more of it than types that were not seen. -/
theorem chain_basesFrom {fuel : Nat} (hnodup : seen.Nodup)
    (hlt : ∀ x ∈ seen, x < t.types.length) (hfuel : t.types.length < fuel + seen.length) :
    t.Chain seen id (t.basesFrom fuel seen id) := by
  induction fuel generalizing seen id with
  | zero =>
    have hle := length_le_of_nodup hnodup hlt
    omega
  | succ fuel ih =>
    rw [basesFrom_succ]
    cases hbase : t.base? id with
    | none =>
      apply Chain.stop
      intro b hb
      rw [Extends, hbase] at hb
      cases hb
    | some b =>
      have hext : t.Extends id b := hbase
      by_cases hb : b ∈ seen
      · simp only [hb, if_true]
        exact .stop fun b' hb' => hext.unique hb' ▸ hb
      · simp only [hb, if_false]
        apply Chain.step hext hb
        apply ih (List.nodup_cons.2 ⟨hb, hnodup⟩) (List.forall_mem_cons.2 ⟨hext.lt_right, hlt⟩)
        simp only [List.length_cons]
        omega

theorem chain_bases (t : SymbolTable) (id : TypeId) : t.Chain [id] id (t.bases id) := by
  by_cases hid : id < t.types.length
  · exact chain_basesFrom (List.nodup_singleton id) (by simpa using hid) (by simp)
  · have hnone : t.base? id = none := by
      rw [base?, get?, List.getElem?_eq_none (Nat.le_of_not_lt hid), Option.bind_none]
    have hempty : t.bases id = [] := by
      rw [bases]
      cases t.types.length with
      | zero => rfl
      | succ fuel => rw [basesFrom_succ, hnone]
    rw [hempty]
    exact .stop fun b hb => absurd hb.lt_left hid

/-- The base types of a type that is on no cycle. -/
theorem bases_eq (h : t.Extends id b) (hcycle : ¬ TransGen t.Extends id id) :
    t.bases id = b :: t.bases b := by
  have hchain := t.chain_bases id
  generalize t.bases id = bs at hchain ⊢
  cases hchain with
  | stop hstop =>
    cases List.mem_singleton.1 (hstop b h)
    exact absurd (.single h) hcycle
  | step hext _ hrest =>
    cases hext.unique h
    congr 1
    apply (hrest.forget (List.cons_subset_cons b (List.nil_subset _)) ?_).unique (t.chain_bases b)
    intro x hx hreach
    rcases List.mem_cons.1 hx with rfl | hx
    · exact List.mem_cons_self
    · cases List.mem_singleton.1 hx
      exact absurd (.head h hreach) hcycle

/-! ## Cycles -/

/-- What leads nowhere but to its own types leads to these types only. -/
theorem mem_of_reaches {types : List TypeId} (h : ∀ x ∈ types, ∀ y, t.Extends x y → y ∈ types)
    (ha : a ∈ types) (hreach : TransGen t.Extends a b) : b ∈ types := by
  induction hreach with
  | single hext => exact h a ha _ hext
  | tail _ hext ih => exact h _ ih _ hext

/-- If following the bases does not find the start again, it cannot be reached. All types seen so far
lead to others of them. -/
theorem not_reaches_of_returnsFrom? {start : TypeId} {fuel : Nat} (hnodup : seen.Nodup)
    (hlt : ∀ x ∈ seen, x < t.types.length) (hfuel : t.types.length < fuel + seen.length)
    (hseen : ∀ x ∈ seen, x ≠ id → ∀ y, t.Extends x y → y ∈ seen ∧ y ≠ start)
    (h : t.returnsFrom? start fuel seen id = none) :
    ∀ x ∈ seen, ¬ TransGen t.Extends x start := by
  induction fuel generalizing seen id with
  | zero =>
    have hle := length_le_of_nodup hnodup hlt
    omega
  | succ fuel ih =>
    -- If the walk ends here, the types seen lead to themselves, and not to the start.
    have hends (hid : ∀ y, t.Extends id y → y ∈ seen ∧ y ≠ start) :
        ∀ x ∈ seen, ¬ TransGen t.Extends x start := by
      have hclosed : ∀ x ∈ seen, ∀ y, t.Extends x y → y ∈ seen ∧ y ≠ start := by
        intro x hx
        by_cases hxid : x = id
        · exact hxid ▸ hid
        · exact hseen x hx hxid
      intro x hx hreach
      obtain ⟨y, hxy, hy⟩ := Relation.TransGen.tail'_iff.1 hreach
      have hmem : y ∈ seen := by
        rcases Relation.reflTransGen_iff_eq_or_transGen.1 hxy with rfl | hxy
        · exact hx
        · exact mem_of_reaches (fun z hz w hw => (hclosed z hz w hw).1) hx hxy
      exact (hclosed y hmem start hy).2 rfl
    rw [returnsFrom?_succ] at h
    cases hbase : t.base? id with
    | none =>
      apply hends
      intro y hy
      rw [Extends, hbase] at hy
      cases hy
    | some next =>
      have hext : t.Extends id next := hbase
      rw [hbase] at h
      dsimp only at h
      split at h
      · cases h
      next hstart =>
      split at h
      · next hmem => exact hends fun y hy => hext.unique hy ▸ ⟨hmem, hstart⟩
      next hmem =>
      have hrest := ih (List.nodup_cons.2 ⟨hmem, hnodup⟩)
        (List.forall_mem_cons.2 ⟨hext.lt_right, hlt⟩) (by simp only [List.length_cons]; omega) ?_ h
      · exact fun x hx => hrest x (List.mem_cons_of_mem _ hx)
      intro x hx hne y hy
      rcases List.mem_cons.1 hx with rfl | hx
      · exact absurd rfl hne
      by_cases hxid : x = id
      · cases hext.unique (hxid ▸ hy)
        exact ⟨List.mem_cons_self, hstart⟩
      · exact ⟨List.mem_cons_of_mem _ (hseen x hx hxid y hy).1, (hseen x hx hxid y hy).2⟩

/-- A type that is on a cycle is found to be. -/
theorem not_cyclic_of_returns? (h : t.returns? id = none) : ¬ TransGen t.Extends id id := by
  intro hcycle
  obtain ⟨_, hext, -⟩ := Relation.TransGen.head'_iff.1 hcycle
  refine not_reaches_of_returnsFrom? (List.nodup_singleton id) (by simpa using hext.lt_left) (by simp)
    ?_ h id (List.mem_singleton_self id) hcycle
  intro x hx hne
  exact absurd (List.mem_singleton.1 hx) hne

/-- A way back that is found is a way back. -/
theorem reaches_of_returnsFrom? {start via id : TypeId} {fuel : Nat} {seen : List TypeId}
    (h : t.returnsFrom? start fuel seen id = some via) : TransGen t.Extends id start := by
  induction fuel generalizing seen id with
  | zero => cases h
  | succ fuel ih =>
    rw [returnsFrom?_succ] at h
    cases hbase : t.base? id with
    | none =>
      rw [hbase] at h
      cases h
    | some next =>
      rw [hbase] at h
      dsimp only at h
      split at h
      · next hstart => exact hstart ▸ .single hbase
      · split at h
        · cases h
        · exact .head hbase (ih h)

theorem returns?_of_not_cyclic {id : TypeId} (h : ¬ TransGen t.Extends id id) :
    t.returns? id = none := by
  rw [← Option.not_isSome_iff_eq_none, Option.isSome_iff_exists]
  rintro ⟨via, hvia⟩
  exact h (reaches_of_returnsFrom? hvia)

variable {d : Declared} {ds : List Declared}

theorem find?_breakCycle (t : SymbolTable) (d : Declared) (name : Bytes) :
    (t.breakCycle d).1.find? name = t.find? name := by
  apply find?_congr
  have hnames := congrArg (List.map (·.fullName)) (t.breakCycle_types d)
  rw [List.map_map, List.map_map] at hnames
  exact hnames

theorem get?_breakCycle (hne : a ≠ d.id) : (t.breakCycle d).1.get? a = t.get? a := by
  rw [breakCycle]
  split
  · exact List.getElem?_set_ne hne.symm
  · rfl

/-- Breaking a cycle adds no base. -/
theorem extends_of_breakCycle (h : (t.breakCycle d).1.Extends a b) : t.Extends a b := by
  obtain ⟨s, hs, hbase, hb⟩ := extends_iff.1 h
  rw [find?_breakCycle] at hb
  rw [breakCycle] at hs
  split at hs
  · rw [get?, set, List.getElem?_set] at hs
    split at hs
    · split at hs
      · cases hs
        exact absurd rfl hbase
      · cases hs
    · exact extends_iff.2 ⟨s, hs, hbase, hb⟩
  · exact extends_iff.2 ⟨s, hs, hbase, hb⟩

theorem not_cyclic_breakCycle (t : SymbolTable) (d : Declared) :
    ¬ TransGen (t.breakCycle d).1.Extends d.id d.id := by
  rw [breakCycle]
  split
  · next via type _ htype =>
    intro hcycle
    obtain ⟨y, hext, -⟩ := Relation.TransGen.head'_iff.1 hcycle
    obtain ⟨s, hs, hbase, -⟩ := extends_iff.1 hext
    rw [get?, set, List.getElem?_set_self (lt_of_get? htype)] at hs
    cases hs
    exact hbase rfl
  · next hne =>
    cases hreturns : t.returns? d.id with
    | none => exact not_cyclic_of_returns? hreturns
    | some via =>
      intro hcycle
      obtain ⟨y, hext, -⟩ := Relation.TransGen.head'_iff.1 hcycle
      obtain ⟨s, hs, -⟩ := extends_iff.1 hext
      exact hne via s hreturns hs

theorem extends_of_breakCycles (h : (t.breakCycles ds).1.Extends a b) : t.Extends a b := by
  induction ds generalizing t with
  | nil => exact h
  | cons d ds ih => exact extends_of_breakCycle (ih h)

/-- When the cycles of declared types are broken one after the other, no cycle comes back. -/
theorem not_cyclic_breakCycles (t : SymbolTable) (hd : d ∈ ds) :
    ¬ TransGen (t.breakCycles ds).1.Extends d.id d.id := by
  induction ds generalizing t with
  | nil => cases hd
  | cons e ds ih =>
    rw [breakCycles]
    rcases List.mem_cons.1 hd with rfl | hd
    · intro hcycle
      exact t.not_cyclic_breakCycle d (TransGen.mono (fun _ _ => extends_of_breakCycles) _ _ hcycle)
    · exact ih _ hd

end SymbolTable

namespace Analysis

variable {refs : List Reference} {trees : List SyntaxTree} {d : Declared}

/-- A declared type is none of its base types. -/
theorem not_cyclic (hd : d ∈ declared refs trees) :
    ¬ Relation.TransGen (Model.analyze refs trees).table.Extends d.id d.id :=
  SymbolTable.not_cyclic_breakCycles _ hd

end Analysis

end ViewCompiler
