import Mathlib.Data.List.Induction
import Mathlib.Data.List.Nodup
import Mathlib.Data.List.Perm.Subperm
import ViewCompiler.Catalog

/-!
The closure of some libraries. A walk over the catalog leaves the finished libraries in an order in
which each comes after its dependencies (`Catalog.ordered_closure`), and in any such order the
dependencies of a library have a closure of their own, made of libraries that come earlier
(`Catalog.exists_closure`).
-/

namespace ViewCompiler

namespace Catalog

variable {c : Catalog} {order finished finished' : List Library} {l : Library} {path names : List Bytes}
  {name : Bytes} {fuel : Nat}

/-! ## Orders -/

/-- There is a library of that name. -/
def Has (ls : List Library) (name : Bytes) : Prop := ∃ l ∈ ls, l.name = name

theorem any_eq_true_iff : (finished.any (·.name = name)) = true ↔ Has finished name := by
  simp [Has]

theorem Has.mono (h : Has finished name) (hsubset : finished ⊆ finished') : Has finished' name := by
  obtain ⟨l, hl, hname⟩ := h
  exact ⟨l, hsubset hl, hname⟩

/-- The libraries are those of the catalog, have different names, and each comes after the libraries
that it depends on. -/
def Ordered (c : Catalog) (order : List Library) : Prop :=
  ∀ before l rest, order = before ++ l :: rest →
    c.find? l.name = some l ∧ ¬ Has before l.name ∧ ∀ d ∈ l.dependencies, Has before d

theorem ordered_nil (c : Catalog) : c.Ordered [] := by
  intro before l rest h
  simp at h

theorem Ordered.of_append (h : c.Ordered (order ++ finished)) : c.Ordered order :=
  fun before l rest heq => h before l (rest ++ finished) (by simp [heq])

theorem Ordered.last (h : c.Ordered (order ++ [l])) :
    c.find? l.name = some l ∧ ¬ Has order l.name ∧ ∀ d ∈ l.dependencies, Has order d :=
  h order l [] rfl

theorem Ordered.concat (h : c.Ordered order) (hfind : c.find? l.name = some l)
    (hnew : ¬ Has order l.name) (hdependencies : ∀ d ∈ l.dependencies, Has order d) :
    c.Ordered (order ++ [l]) := by
  intro before l' rest heq
  cases rest using List.reverseRecOn with
  | nil =>
    obtain ⟨rfl, hlast⟩ := List.append_inj' heq rfl
    cases hlast
    exact ⟨hfind, hnew, hdependencies⟩
  | append_singleton rest last =>
    rw [← List.cons_append, ← List.append_assoc] at heq
    exact h before l' rest (List.append_inj_left' heq rfl)

/-- Libraries of an order have different names. -/
theorem Ordered.nodup_names (h : c.Ordered order) : (order.map (·.name)).Nodup := by
  induction order using List.reverseRecOn with
  | nil => exact List.nodup_nil
  | append_singleton order l ih =>
    rw [List.map_append, List.map_singleton]
    refine List.nodup_append.2 ⟨ih h.of_append, List.pairwise_singleton _ l.name, ?_⟩
    rintro _ hname _ hlast rfl
    obtain ⟨l', hl', hsame⟩ := List.mem_map.1 hname
    exact h.last.2.1 ⟨l', hl', hsame.trans (List.mem_singleton.1 hlast)⟩

/-- An order has no more libraries than the catalog. -/
theorem Ordered.length_le (h : c.Ordered order) : order.length ≤ c.size := by
  have hsubset : order ⊆ c.libraries := by
    intro l hl
    obtain ⟨before, rest, heq⟩ := List.append_of_mem hl
    exact List.mem_of_find?_eq_some (h before l rest heq).1
  exact (List.subperm_of_subset (.of_map _ h.nodup_names) hsubset).length_le

/-! ## What a walk leaves -/

/-- More libraries are finished, in order, and none that waits. -/
structure Grows (c : Catalog) (path : List Bytes) (finished finished' : List Library) : Prop where
  ordered : c.Ordered finished'
  subset : finished ⊆ finished'
  fresh : ∀ l ∈ finished', l ∈ finished ∨ l.name ∉ path

theorem Grows.refl (h : c.Ordered finished) : c.Grows path finished finished :=
  ⟨h, List.Subset.refl _, fun _ hl => .inl hl⟩

theorem Grows.trans {finished₁ finished₂ finished₃ : List Library}
    (h : c.Grows path finished₁ finished₂) (h' : c.Grows path finished₂ finished₃) :
    c.Grows path finished₁ finished₃ where
  ordered := h'.ordered
  subset := List.Subset.trans h.subset h'.subset
  fresh l hl := (h'.fresh l hl).elim (h.fresh l) .inr

/-- If each step leaves an order that has its name, so do all. -/
theorem grows_foldlM {step : List Library → Bytes → Except ClosureError (List Library)}
    (hstep : ∀ finished name finished', c.Ordered finished → step finished name = .ok finished' →
      c.Grows path finished finished' ∧ Has finished' name)
    (hordered : c.Ordered finished) (h : names.foldlM step finished = .ok finished') :
    c.Grows path finished finished' ∧ ∀ name ∈ names, Has finished' name := by
  induction names generalizing finished with
  | nil =>
    cases h
    exact ⟨.refl hordered, by simp⟩
  | cons name names ih =>
    rw [List.foldlM_cons] at h
    cases hfirst : step finished name with
    | error e =>
      rw [hfirst] at h
      cases h
    | ok middle =>
      rw [hfirst] at h
      obtain ⟨hgrows, hname⟩ := hstep finished name middle hordered hfirst
      obtain ⟨hrest, hnames⟩ := ih hgrows.ordered h
      refine ⟨hgrows.trans hrest, List.forall_mem_cons.2 ⟨hname.mono hrest.subset, hnames⟩⟩

/-- A visit leaves an order that has the library. -/
theorem grows_visit (hordered : c.Ordered finished)
    (h : c.visit fuel path finished name = .ok finished') :
    c.Grows path finished finished' ∧ Has finished' name := by
  induction fuel generalizing path finished name finished' with
  | zero => cases h
  | succ fuel ih =>
    rw [visit] at h
    split at h
    · cases h
    · next hpath =>
      split at h
      · next hany =>
        cases h
        exact ⟨.refl hordered, any_eq_true_iff.1 hany⟩
      · next hany =>
        split at h
        · cases h
        · next l hfind =>
          have hname : l.name = name := of_decide_eq_true (List.find?_some hfind :)
          cases hwalk : l.dependencies.foldlM (c.visit fuel (name :: path)) finished with
          | error e =>
            rw [hwalk] at h
            cases h
          | ok middle =>
            rw [hwalk] at h
            cases h
            obtain ⟨hgrows, hdependencies⟩ :=
              grows_foldlM (fun _ _ _ hordered h => ih hordered h) hordered hwalk
            subst hname
            -- The library waited for its dependencies, so none of the walks has finished it.
            have hnew : ¬ Has middle l.name := by
              rintro ⟨l', hl', hsame⟩
              rcases hgrows.fresh l' hl' with hold | hpath
              · exact hany (any_eq_true_iff.2 ⟨l', hold, hsame⟩)
              · exact hpath (hsame ▸ List.mem_cons_self)
            refine ⟨⟨hgrows.ordered.concat hfind hnew hdependencies, ?_, ?_⟩, l, by simp, rfl⟩
            · exact List.subset_append_of_subset_left _ hgrows.subset
            · intro l' hl'
              rcases List.mem_append.1 hl' with hl' | hl'
              · exact (hgrows.fresh l' hl').imp_right fun hnot hmem => hnot (List.mem_cons_of_mem _ hmem)
              · rw [List.mem_singleton.1 hl']
                exact .inr hpath

/-- The closure of some libraries is an order that has them. -/
theorem ordered_closure {roots : List Bytes} (h : c.closure roots = .ok order) :
    c.Ordered order ∧ ∀ root ∈ roots, Has order root := by
  obtain ⟨hgrows, hroots⟩ := grows_foldlM (fun _ _ _ hordered h => grows_visit hordered h)
    (ordered_nil c) h
  exact ⟨hgrows.ordered, hroots⟩

/-! ## Walks among ordered libraries -/

/-- If each step only adds libraries of the order, so do all. -/
theorem exists_foldlM {step : List Library → Bytes → Except ClosureError (List Library)}
    (hstep : ∀ finished, ∀ name ∈ names, ∃ finished', step finished name = .ok finished' ∧
      ∀ l ∈ finished', l ∈ finished ∨ l ∈ order) (finished : List Library) :
    ∃ finished', names.foldlM step finished = .ok finished' ∧
      ∀ l ∈ finished', l ∈ finished ∨ l ∈ order := by
  induction names generalizing finished with
  | nil => exact ⟨finished, rfl, fun _ hl => .inl hl⟩
  | cons name names ih =>
    obtain ⟨middle, hfirst, hmiddle⟩ := hstep finished name List.mem_cons_self
    obtain ⟨finished', hrest, hfinished'⟩ :=
      ih (fun finished name hname => hstep finished name (List.mem_cons_of_mem _ hname)) middle
    refine ⟨finished', ?_, fun l hl => (hfinished' l hl).elim (hmiddle l) .inr⟩
    rw [List.foldlM_cons, hfirst]
    exact hrest

/-- A library of an order can be visited, as long as none of the order waits for it. -/
theorem exists_visit (hordered : c.Ordered order) (hname : Has order name)
    (hfuel : order.length ≤ fuel) (hpath : ∀ l ∈ order, l.name ∉ path) (finished : List Library) :
    ∃ finished', c.visit fuel path finished name = .ok finished' ∧
      ∀ l ∈ finished', l ∈ finished ∨ l ∈ order := by
  -- Dependencies come earlier, so the induction is on the order and the last library is visited.
  induction order using List.reverseRecOn generalizing name fuel path finished with
  | nil =>
    obtain ⟨l, hl, -⟩ := hname
    cases hl
  | append_singleton order last ih =>
    obtain ⟨hfind, hnew, hdependencies⟩ := hordered.last
    have hpath' : ∀ l ∈ order, l.name ∉ path := fun l hl => hpath l (List.mem_append_left _ hl)
    rw [List.length_append, List.length_singleton] at hfuel
    obtain ⟨l, hl, rfl⟩ := hname
    rcases List.mem_append.1 hl with hl | hl
    · obtain ⟨finished', hvisit, hmem⟩ :=
        ih hordered.of_append ⟨l, hl, rfl⟩ (Nat.le_of_succ_le hfuel) hpath' finished
      exact ⟨finished', hvisit, fun l hl => (hmem l hl).imp_right (List.mem_append_left _)⟩
    · rw [List.mem_singleton.1 hl]
      obtain ⟨fuel, rfl⟩ : ∃ n, fuel = n + 1 := ⟨fuel - 1, by omega⟩
      have hlast : last.name ∉ path := hpath last (List.mem_append_right _ List.mem_cons_self)
      rw [visit, if_neg hlast]
      split
      · exact ⟨finished, rfl, fun _ hl => .inl hl⟩
      · have hwaits : ∀ l ∈ order, l.name ∉ last.name :: path := by
          intro l hl hmem
          rcases List.mem_cons.1 hmem with hsame | hmem
          · exact hnew ⟨l, hl, hsame⟩
          · exact hpath' l hl hmem
        obtain ⟨finished', hwalk, hmem⟩ := exists_foldlM (fun finished d hd =>
          ih hordered.of_append (hdependencies d hd) (Nat.le_of_succ_le_succ hfuel) hwaits finished) finished
        refine ⟨finished' ++ [last], ?_, ?_⟩
        · rw [hfind]
          dsimp only
          rw [hwalk]
          rfl
        · intro l hl
          rcases List.mem_append.1 hl with hl | hl
          · exact (hmem l hl).imp_right (List.mem_append_left _)
          · exact .inr (List.mem_append_right _ hl)

/-- Libraries of an order have a closure within the order. -/
theorem exists_closure (hordered : c.Ordered order) (hnames : ∀ name ∈ names, Has order name) :
    ∃ needed, c.closure names = .ok needed ∧ needed ⊆ order := by
  have hlength := hordered.length_le
  have hstep (finished : List Library) (name : Bytes) (hname : name ∈ names) :
      ∃ finished', c.visit (c.size + 1) [] finished name = .ok finished' ∧
        ∀ l ∈ finished', l ∈ finished ∨ l ∈ order :=
    exists_visit hordered (hnames name hname) (by omega) (fun _ _ => List.not_mem_nil) finished
  obtain ⟨needed, hwalk, hmem⟩ := exists_foldlM hstep []
  exact ⟨needed, hwalk, fun l hl => (hmem l hl).resolve_left List.not_mem_nil⟩

end Catalog

end ViewCompiler
