import Mathlib.Logic.Relation
import ViewCompiler.Proofs.LibraryOrder

/-!
Which libraries a closure has, and when there is one. The walk over the catalog fails only at a name
that the catalog does not have or at a library that is needed for itself (`Catalog.fault_visit`), it
finishes nothing that is not needed (`Catalog.reached_visit`), and an order has all that its libraries
need, in front of them (`Catalog.Ordered.has_of_reaches`). So the closure of some roots exists exactly
if all they need is there and free of cycles, and then it is all they need (`Catalog.closure_sorts`).
-/

namespace ViewCompiler

namespace Catalog

open Relation (TransGen ReflTransGen)

variable {c : Catalog} {order finished finished' : List Library} {l : Library}
  {names roots path : List Bytes} {name d : Bytes} {fuel : Nat} {e : ClosureError}

/-! ## What is needed -/

/-- The catalog has a library of that name, and the library depends on `d`. -/
def DependsOn (c : Catalog) (name d : Bytes) : Prop :=
  ∃ l, c.find? name = some l ∧ d ∈ l.dependencies

/-- The name is that of a root, or of something that a root depends on, over however many libraries. -/
def Needs (c : Catalog) (roots : List Bytes) (name : Bytes) : Prop :=
  ∃ root ∈ roots, ReflTransGen c.DependsOn root name

theorem name_of_find? (h : c.find? name = some l) : l.name = name :=
  of_decide_eq_true (List.find?_some h :)

/-- Whatever a library of an order depends on comes before it. -/
theorem Ordered.has_of_reaches (h : c.Ordered order) {before rest : List Library}
    (horder : order = before ++ l :: rest) (hreach : TransGen c.DependsOn l.name d) :
    Has before d := by
  generalize hname : l.name = name at hreach
  -- The first library on the way is in front of `l`, and the rest of the way starts from it.
  induction hreach using TransGen.head_induction_on generalizing before l rest with
  | single hstep =>
    obtain ⟨hfind, -, hdependencies⟩ := h before l rest horder
    obtain ⟨l', hl', hd⟩ := hstep
    rw [← hname, hfind] at hl'
    cases hl'
    exact hdependencies d hd
  | head hstep _ ih =>
    obtain ⟨hfind, -, hdependencies⟩ := h before l rest horder
    obtain ⟨l', hl', hnext⟩ := hstep
    rw [← hname, hfind] at hl'
    cases hl'
    obtain ⟨next, hmem, hsame⟩ := hdependencies _ hnext
    obtain ⟨front, back, rfl⟩ := List.append_of_mem hmem
    have hsplit : order = front ++ next :: (back ++ l :: rest) := by simp [horder]
    have hbefore : Has front d := ih hsplit hsame
    exact hbefore.mono (List.subset_append_left _ _)

/-- An order has all that its libraries depend on. -/
theorem Ordered.has_of_mem (h : c.Ordered order) (hname : Has order name)
    (hreach : ReflTransGen c.DependsOn name d) : Has order d := by
  rcases Relation.reflTransGen_iff_eq_or_transGen.1 hreach with rfl | hreach
  · exact hname
  · obtain ⟨l, hl, rfl⟩ := hname
    obtain ⟨before, rest, rfl⟩ := List.append_of_mem hl
    exact (h.has_of_reaches rfl hreach).mono (List.subset_append_left _ _)

/-- A library of an order does not depend on itself. -/
theorem Ordered.not_cyclic (h : c.Ordered order) (hname : Has order name) :
    ¬ TransGen c.DependsOn name name := by
  intro hcycle
  obtain ⟨l, hl, rfl⟩ := hname
  obtain ⟨before, rest, rfl⟩ := List.append_of_mem hl
  exact (h before l rest rfl).2.1 (h.has_of_reaches rfl hcycle)

/-! ## Nothing else is finished -/

/-- If each step only adds what it may, so do all. -/
theorem finished_foldlM {P : Library → Prop}
    {step : List Library → Bytes → Except ClosureError (List Library)}
    (hstep : ∀ finished, ∀ name ∈ names, ∀ finished', step finished name = .ok finished' →
      ∀ l ∈ finished', l ∈ finished ∨ P l)
    (h : names.foldlM step finished = .ok finished') : ∀ l ∈ finished', l ∈ finished ∨ P l := by
  induction names generalizing finished with
  | nil =>
    cases h
    exact fun _ hl => .inl hl
  | cons name names ih =>
    rw [List.foldlM_cons] at h
    cases hfirst : step finished name with
    | error e =>
      rw [hfirst] at h
      cases h
    | ok middle =>
      rw [hfirst] at h
      have hrest := ih (fun finished name hname => hstep finished name (List.mem_cons_of_mem _ hname)) h
      intro l hl
      rcases hrest l hl with hl | hl
      · exact hstep finished name List.mem_cons_self middle hfirst l hl
      · exact .inr hl

/-- A visit finishes what the library depends on, and no other libraries. -/
theorem reached_visit (h : c.visit fuel path finished name = .ok finished') :
    ∀ l ∈ finished', l ∈ finished ∨ ReflTransGen c.DependsOn name l.name := by
  induction fuel generalizing path finished name finished' with
  | zero => cases h
  | succ fuel ih =>
    rw [visit] at h
    split at h
    · cases h
    split at h
    · cases h
      exact fun _ hl => .inl hl
    split at h
    · cases h
    next l hfind =>
    cases hwalk : l.dependencies.foldlM (c.visit fuel (name :: path)) finished with
    | error e =>
      rw [hwalk] at h
      cases h
    | ok middle =>
      rw [hwalk] at h
      cases h
      have hmiddle := finished_foldlM (P := fun l => ReflTransGen c.DependsOn name l.name)
        (fun finished d hd finished' h l' hl' =>
          (ih h l' hl').imp_right (.head ⟨l, hfind, hd⟩)) hwalk
      intro l' hl'
      rcases List.mem_append.1 hl' with hl' | hl'
      · exact hmiddle l' hl'
      · rw [List.mem_singleton.1 hl', name_of_find? hfind]
        exact .inr .refl

/-! ## Why a walk fails -/

/-- Different libraries of the catalog, such as those that wait for a library. -/
structure IsPath (c : Catalog) (path : List Bytes) : Prop where
  nodup : path.Nodup
  found : ∀ name ∈ path, ∃ l, c.find? name = some l

theorem isPath_nil (c : Catalog) : c.IsPath [] := ⟨List.nodup_nil, by simp⟩

theorem IsPath.cons (h : c.IsPath path) (hname : name ∉ path) (hfind : c.find? name = some l) :
    c.IsPath (name :: path) :=
  ⟨List.nodup_cons.2 ⟨hname, h.nodup⟩, List.forall_mem_cons.2 ⟨⟨l, hfind⟩, h.found⟩⟩

theorem IsPath.length_le (h : c.IsPath path) : path.length ≤ c.size := by
  have hsubset : path ⊆ c.libraries.map (·.name) := by
    intro name hname
    obtain ⟨l, hfind⟩ := h.found name hname
    exact List.mem_map.2 ⟨l, List.mem_of_find?_eq_some hfind, name_of_find? hfind⟩
  simpa [size] using (List.subperm_of_subset h.nodup hsubset).length_le

/-- The fuel of a walk is never used up: more of it changes nothing. -/
theorem visit_congr {fuel' : Nat} (hpath : c.IsPath path) (hfuel : c.size < fuel + path.length)
    (hfuel' : c.size < fuel' + path.length) :
    c.visit fuel path finished name = c.visit fuel' path finished name := by
  have hlength := hpath.length_le
  induction fuel generalizing fuel' path finished name with
  | zero => omega
  | succ fuel ih =>
    cases fuel' with
    | zero => omega
    | succ fuel' =>
      rw [visit, visit]
      split
      · rfl
      next hname =>
      split
      · rfl
      cases hfind : c.find? name with
      | none => rfl
      | some l =>
        have hcons := hpath.cons hname hfind
        have hwalk : c.visit fuel (name :: path) = c.visit fuel' (name :: path) := by
          funext finished d
          apply ih hcons _ _ hcons.length_le
          · rw [List.length_cons]
            omega
          · rw [List.length_cons]
            omega
        dsimp only
        rw [hwalk]

/-- What an error says about something that the library `name` needs. -/
def Fault (c : Catalog) (name : Bytes) : ClosureError → Prop
  | .missing d _ => ReflTransGen c.DependsOn name d ∧ c.find? d = none
  | .cycle d => ReflTransGen c.DependsOn name d ∧ TransGen c.DependsOn d d

theorem Fault.head (h : c.Fault d e) (hstep : c.DependsOn name d) : c.Fault name e := by
  cases e with
  | missing | cycle => exact ⟨.head hstep h.1, h.2⟩

theorem exists_of_foldlM_eq_error {step : List Library → Bytes → Except ClosureError (List Library)}
    (h : names.foldlM step finished = .error e) :
    ∃ name ∈ names, ∃ finished, step finished name = .error e := by
  induction names generalizing finished with
  | nil => cases h
  | cons name names ih =>
    rw [List.foldlM_cons] at h
    cases hfirst : step finished name with
    | error e' =>
      rw [hfirst] at h
      cases h
      exact ⟨name, List.mem_cons_self, finished, hfirst⟩
    | ok middle =>
      rw [hfirst] at h
      obtain ⟨name', hname', hstep⟩ := ih h
      exact ⟨name', List.mem_cons_of_mem _ hname', hstep⟩

/-- A visit that fails has found a fault, if the libraries that wait depend on the one visited. -/
theorem fault_visit (hpath : c.IsPath path) (hwaits : ∀ p ∈ path, TransGen c.DependsOn p name)
    (hfuel : c.size < fuel + path.length) (h : c.visit fuel path finished name = .error e) :
    c.Fault name e := by
  induction fuel generalizing path finished name with
  | zero =>
    have hlength := hpath.length_le
    omega
  | succ fuel ih =>
    rw [visit] at h
    split at h
    · next hname =>
      cases h
      exact ⟨.refl, hwaits name hname⟩
    next hname =>
    split at h
    · cases h
    split at h
    · next hfind =>
      cases h
      exact ⟨.refl, hfind⟩
    next l hfind =>
    cases hwalk : l.dependencies.foldlM (c.visit fuel (name :: path)) finished with
    | ok middle =>
      rw [hwalk] at h
      cases h
    | error e' =>
      rw [hwalk] at h
      cases h
      obtain ⟨d, hd, finished, hvisit⟩ := exists_of_foldlM_eq_error hwalk
      have hstep : c.DependsOn name d := ⟨l, hfind, hd⟩
      refine Fault.head (ih (hpath.cons hname hfind) ?_ ?_ hvisit) hstep
      · exact List.forall_mem_cons.2 ⟨.single hstep, fun p hp => (hwaits p hp).tail hstep⟩
      · rw [List.length_cons]
        omega

theorem fault_closure (h : c.closure roots = .error e) : ∃ root ∈ roots, c.Fault root e := by
  obtain ⟨root, hroot, finished, hvisit⟩ := exists_of_foldlM_eq_error h
  exact ⟨root, hroot, fault_visit c.isPath_nil (by simp) (by simp) hvisit⟩

/-! ## The closure -/

/-- The closure of some roots is in order and has what they need. -/
theorem mem_closure (h : c.closure roots = .ok order) :
    l ∈ order ↔ c.Needs roots l.name ∧ c.find? l.name = some l := by
  obtain ⟨hordered, hroots⟩ := ordered_closure h
  constructor
  · intro hl
    obtain ⟨before, rest, horder⟩ := List.append_of_mem hl
    refine ⟨?_, (hordered before l rest horder).1⟩
    have hfinished := finished_foldlM (P := fun l => c.Needs roots l.name)
      (fun finished root hroot finished' hvisit l hl =>
        (reached_visit hvisit l hl).imp_right fun hreach => ⟨root, hroot, hreach⟩) h
    exact (hfinished l hl).resolve_left List.not_mem_nil
  · rintro ⟨⟨root, hroot, hreach⟩, hfind⟩
    obtain ⟨l', hl', hname⟩ := hordered.has_of_mem (hroots root hroot) hreach
    obtain ⟨before, rest, horder⟩ := List.append_of_mem hl'
    have hfind' := (hordered before l' rest horder).1
    rw [hname, hfind] at hfind'
    cases hfind'
    exact hl'

/-- The closure of some roots exists exactly if the catalog has all that they need and none of that
depends on itself. The walk ends by itself, however much fuel it is given. The closure has different
libraries, those that are needed, and all that a library depends on comes before it. -/
theorem closure_sorts (c : Catalog) (roots : List Bytes) :
    ((∃ order, c.closure roots = .ok order) ↔ ∀ name, c.Needs roots name →
      (∃ l, c.find? name = some l) ∧ ¬ TransGen c.DependsOn name name) ∧
    (∀ fuel, c.size < fuel → roots.foldlM (c.visit fuel []) [] = c.closure roots) ∧
    ∀ order, c.closure roots = .ok order →
      (order.map (·.name)).Nodup ∧
      (∀ l, l ∈ order ↔ c.Needs roots l.name ∧ c.find? l.name = some l) ∧
      ∀ before l rest, order = before ++ l :: rest →
        ∀ d, TransGen c.DependsOn l.name d → Has before d := by
  refine ⟨⟨?_, ?_⟩, ?_, ?_⟩
  · rintro ⟨order, h⟩ name ⟨root, hroot, hreach⟩
    obtain ⟨hordered, hroots⟩ := ordered_closure h
    have hname := hordered.has_of_mem (hroots root hroot) hreach
    refine ⟨?_, hordered.not_cyclic hname⟩
    obtain ⟨l, hl, rfl⟩ := hname
    exact ⟨l, ((mem_closure h).1 hl).2⟩
  · intro hneeds
    cases h : c.closure roots with
    | ok order => exact ⟨order, rfl⟩
    | error e =>
      obtain ⟨root, hroot, hfault⟩ := fault_closure h
      cases e with
      | missing d =>
        obtain ⟨l, hfind⟩ := (hneeds d ⟨root, hroot, hfault.1⟩).1
        rw [hfault.2] at hfind
        cases hfind
      | cycle d => exact absurd hfault.2 (hneeds d ⟨root, hroot, hfault.1⟩).2
  · intro fuel hfuel
    have hvisit : c.visit fuel [] = c.visit (c.size + 1) [] := by
      funext finished name
      exact visit_congr c.isPath_nil (by simpa using hfuel) (by simp)
    rw [hvisit, closure]
  · intro order h
    obtain ⟨hordered, -⟩ := ordered_closure h
    refine ⟨hordered.nodup_names, fun l => mem_closure h, ?_⟩
    intro before l rest horder d hreach
    exact hordered.has_of_reaches horder hreach

/-- Libraries that share one of them, and two that depend on each other. -/
def sharedCatalog : Catalog := .ofList [
  { name := "Shell", dependencies := ["Forms", "Kit"] },
  { name := "Forms", dependencies := ["Kit"] },
  { name := "Kit" },
  { name := "Egg", dependencies := ["Hen", "Kit"] },
  { name := "Hen", dependencies := ["Kit", "Egg"] }]

/-- The shared library comes first and once, and the two libraries have no closure. -/
theorem closure_sorts_shared :
    (∃ order, sharedCatalog.closure ["Shell", "Kit", "Shell"] = .ok order ∧
      order.map (·.name) = [("Kit" : Bytes), "Forms", "Shell"] ∧
      ∀ l, l ∈ order ↔ sharedCatalog.Needs ["Shell", "Kit", "Shell"] l.name ∧
        sharedCatalog.find? l.name = some l) ∧
    sharedCatalog.closure ["Shell", "Egg"] = .error (.cycle "Egg") ∧
    ¬ ∀ name, sharedCatalog.Needs ["Shell", "Egg"] name →
      (∃ l, sharedCatalog.find? name = some l) ∧ ¬ TransGen sharedCatalog.DependsOn name name := by
  obtain ⟨-, -, hsorted⟩ := closure_sorts sharedCatalog ["Shell", "Kit", "Shell"]
  obtain ⟨hexists, -⟩ := closure_sorts sharedCatalog ["Shell", "Egg"]
  have hcycle : sharedCatalog.closure ["Shell", "Egg"] = .error (.cycle "Egg") := by decide +kernel
  have hnames : (sharedCatalog.closure ["Shell", "Kit", "Shell"]).toOption.map (List.map (·.name)) =
      some [("Kit" : Bytes), "Forms", "Shell"] := by
    decide +kernel
  refine ⟨?_, hcycle, ?_⟩
  · cases horder : sharedCatalog.closure ["Shell", "Kit", "Shell"] with
    | error e =>
      rw [horder] at hnames
      cases hnames
    | ok order =>
      rw [horder] at hnames
      exact ⟨order, rfl, Option.some.inj hnames, (hsorted order horder).2.1⟩
  · intro hneeds
    obtain ⟨order, horder⟩ := hexists.2 hneeds
    rw [hcycle] at horder
    cases horder

end Catalog

end ViewCompiler
