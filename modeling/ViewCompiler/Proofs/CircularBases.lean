import Mathlib.Data.Set.Card
import ViewCompiler.Proofs.CircularReports
import ViewCompiler.Proofs.ErrorCodes
import ViewCompiler.Proofs.FileOrder

/-!
How many circular bases are reported. A type has one base, so the types that are reached from a type
on a cycle are the cycle (`SymbolTable.IsCycle.eq_reached`). Breaking it takes one edge away, and with
it this cycle and no other (`SymbolTable.isCycle_breakCycle`); so there is one report for each cycle
that a declared type is on (`SymbolTable.length_breakCycles`). The other circular bases are those of
types that name themselves (`Analysis.circular_reported`).
-/

namespace ViewCompiler

open Relation (TransGen ReflTransGen)

namespace SymbolTable

variable {t : SymbolTable} {id a b : TypeId} {d : Declared} {ds : List Declared}
  {cycle : Set TypeId}

/-! ## Cycles -/

/-- The base, and the base types of it. -/
def reached (t : SymbolTable) (id : TypeId) : Set TypeId := {b | TransGen t.Extends id b}

/-- Types that lead to one another and to no other types. -/
structure IsCycle (t : SymbolTable) (cycle : Set TypeId) : Prop where
  nonempty : cycle.Nonempty
  mem_iff : ∀ id ∈ cycle, ∀ b, b ∈ cycle ↔ TransGen t.Extends id b

/-- The cycles that declared types are on. -/
def cyclesThrough (t : SymbolTable) (ds : List Declared) : Set (Set TypeId) :=
  {cycle | t.IsCycle cycle ∧ ∃ d ∈ ds, d.id ∈ cycle}

theorem IsCycle.eq_reached (h : t.IsCycle cycle) (hid : id ∈ cycle) : cycle = t.reached id :=
  Set.ext (h.mem_iff id hid)

theorem IsCycle.reaches_self (h : t.IsCycle cycle) (hid : id ∈ cycle) : TransGen t.Extends id id :=
  (h.mem_iff id hid id).1 hid

theorem IsCycle.closed (h : t.IsCycle cycle) (ha : a ∈ cycle) (hext : t.Extends a b) : b ∈ cycle :=
  (h.mem_iff a ha b).2 (.single hext)

/-- What a type leads to, its base leads to or is. -/
theorem Extends.reaches_of (hext : t.Extends id a) (h : TransGen t.Extends id b) :
    ReflTransGen t.Extends a b := by
  obtain ⟨a', hext', hreach⟩ := TransGen.head'_iff.1 h
  cases hext.unique hext'
  exact hreach

/-- From a cycle there is no way out. -/
theorem reaches_back (hcycle : TransGen t.Extends id id) (h : TransGen t.Extends id b) :
    TransGen t.Extends b id := by
  have hback {x y : TypeId} (hext : t.Extends x y) (hx : TransGen t.Extends x id) :
      TransGen t.Extends y id := by
    rcases Relation.reflTransGen_iff_eq_or_transGen.1 (hext.reaches_of hx) with rfl | hy
    · exact hcycle
    · exact hy
  induction h with
  | single hext => exact hback hext hcycle
  | tail _ hext ih => exact hback hext ih

theorem isCycle_reached (h : TransGen t.Extends id id) : t.IsCycle (t.reached id) where
  nonempty := ⟨id, h⟩
  mem_iff _ ha _ := ⟨(reaches_back h ha).trans, TransGen.trans ha⟩

/-! ## Breaking them -/

theorem breakCycle_of_not_cyclic (h : ¬ TransGen t.Extends d.id d.id) : t.breakCycle d = (t, []) := by
  rw [breakCycle, returns?_of_not_cyclic h]

/-- The type loses its base, and that is reported. -/
theorem breakCycle_of_cyclic (h : TransGen t.Extends d.id d.id) :
    ∃ (s : TypeSymbol) (r : Diagnostic),
      (t.breakCycle d).1 = t.set d.id { s with base := [] } ∧ (t.breakCycle d).2 = [r] := by
  have hreturns : t.returns? d.id ≠ none := fun hnone => not_cyclic_of_returns? hnone h
  obtain ⟨via, hvia⟩ := Option.ne_none_iff_exists'.1 hreturns
  obtain ⟨b, hext, -⟩ := TransGen.head'_iff.1 h
  obtain ⟨s, hs, -⟩ := extends_iff.1 hext
  rw [breakCycle, hvia, hs]
  exact ⟨s, _, rfl, rfl⟩

/-- The other types keep their bases. -/
theorem extends_breakCycle (hne : a ≠ d.id) : (t.breakCycle d).1.Extends a b ↔ t.Extends a b := by
  rw [extends_iff, extends_iff, get?_breakCycle hne]
  simp only [find?_breakCycle]

/-- Types that lead to one another only are not concerned by the base of another type. -/
theorem reaches_breakCycle (hclosed : ∀ x ∈ cycle, ∀ y, t.Extends x y → y ∈ cycle)
    (hd : d.id ∉ cycle) (ha : a ∈ cycle) :
    TransGen (t.breakCycle d).1.Extends a b ↔ TransGen t.Extends a b := by
  refine ⟨TransGen.mono (fun _ _ => extends_of_breakCycle) a b, fun h => ?_⟩
  have hstep {x y : TypeId} (hx : x ∈ cycle) (hext : t.Extends x y) :
      (t.breakCycle d).1.Extends x y :=
    (extends_breakCycle fun heq => hd (heq ▸ hx)).2 hext
  have hreach : b ∈ cycle ∧ TransGen (t.breakCycle d).1.Extends a b := by
    induction h with
    | single hext => exact ⟨hclosed a ha _ hext, .single (hstep ha hext)⟩
    | tail _ hext ih => exact ⟨hclosed _ ih.1 _ hext, ih.2.tail (hstep ih.1 hext)⟩
  exact hreach.2

/-- The cycles that remain are those without the type. -/
theorem isCycle_breakCycle :
    (t.breakCycle d).1.IsCycle cycle ↔ t.IsCycle cycle ∧ d.id ∉ cycle := by
  constructor
  · intro h
    have hd : d.id ∉ cycle := fun hd => t.not_cyclic_breakCycle d (h.reaches_self hd)
    have hclosed : ∀ x ∈ cycle, ∀ y, t.Extends x y → y ∈ cycle := fun x hx y hext =>
      h.closed hx ((extends_breakCycle fun heq => hd (heq ▸ hx)).2 hext)
    refine ⟨⟨h.nonempty, fun a ha b => ?_⟩, hd⟩
    rw [h.mem_iff a ha b, reaches_breakCycle hclosed hd ha]
  · rintro ⟨h, hd⟩
    refine ⟨h.nonempty, fun a ha b => ?_⟩
    rw [h.mem_iff a ha b, reaches_breakCycle (fun _ hx _ => h.closed hx) hd ha]

/-- A declared type on a cycle adds that cycle to those that remain when it is broken. -/
theorem cyclesThrough_cons (h : TransGen t.Extends d.id d.id) :
    t.cyclesThrough (d :: ds) = insert (t.reached d.id) ((t.breakCycle d).1.cyclesThrough ds) := by
  ext cycle
  simp only [cyclesThrough, Set.mem_insert_iff, Set.mem_ofPred_eq, isCycle_breakCycle]
  constructor
  · rintro ⟨hcycle, e, he, hmem⟩
    by_cases hd : d.id ∈ cycle
    · exact .inl (hcycle.eq_reached hd)
    · have hne : e ≠ d := fun heq => hd (heq ▸ hmem)
      exact .inr ⟨⟨hcycle, hd⟩, e, (List.mem_cons.1 he).resolve_left hne, hmem⟩
  · rintro (rfl | ⟨⟨hcycle, -⟩, e, he, hmem⟩)
    · exact ⟨isCycle_reached h, d, List.mem_cons_self, h⟩
    · exact ⟨hcycle, e, List.mem_cons_of_mem d he, hmem⟩

theorem cyclesThrough_cons_of_not_cyclic (h : ¬ TransGen t.Extends d.id d.id) :
    t.cyclesThrough (d :: ds) = t.cyclesThrough ds := by
  ext cycle
  simp only [cyclesThrough, Set.mem_ofPred_eq, List.exists_mem_cons_iff]
  refine and_congr_right fun hcycle => or_iff_right ?_
  exact fun hd => h (hcycle.reaches_self hd)

/-- Each cycle that a declared type is on is reported once. -/
theorem length_breakCycles (t : SymbolTable) (ds : List Declared) :
    ((t.breakCycles ds).2.length : ℕ∞) = (t.cyclesThrough ds).encard := by
  induction ds generalizing t with
  | nil =>
    have hnone : t.cyclesThrough [] = ∅ := by simp [cyclesThrough]
    rw [hnone, Set.encard_empty]
    rfl
  | cons d ds ih =>
    rw [breakCycles]
    dsimp only
    rw [List.length_append, Nat.cast_add, ih]
    by_cases h : TransGen t.Extends d.id d.id
    · have hfresh : t.reached d.id ∉ (t.breakCycle d).1.cyclesThrough ds :=
        fun hmem => (isCycle_breakCycle.1 hmem.1).2 h
      obtain ⟨-, r, -, hreport⟩ := breakCycle_of_cyclic h
      rw [cyclesThrough_cons h, Set.encard_insert_of_notMem hfresh, hreport, add_comm]
      rfl
    · rw [cyclesThrough_cons_of_not_cyclic h, breakCycle_of_not_cyclic h]
      exact zero_add _

/-- A type that is on none of these cycles is as before. -/
theorem get?_breakCycles_of_not_mem (h : ∀ cycle ∈ t.cyclesThrough ds, id ∉ cycle) :
    (t.breakCycles ds).1.get? id = t.get? id := by
  induction ds generalizing t with
  | nil => rfl
  | cons d ds ih =>
    rw [breakCycles]
    dsimp only
    by_cases hcyclic : TransGen t.Extends d.id d.id
    · rw [cyclesThrough_cons hcyclic, Set.forall_mem_insert] at h
      have hne : id ≠ d.id := fun heq => h.1 (heq ▸ hcyclic)
      rw [ih h.2, get?_breakCycle hne]
    · rw [cyclesThrough_cons_of_not_cyclic hcyclic] at h
      rw [breakCycle_of_not_cyclic hcyclic, ih h]

theorem isCircular_breakCycles : ∀ r ∈ (t.breakCycles ds).2, r.isCircular = true := by
  intro r hr
  obtain ⟨d, -, _, _, _, rfl⟩ := exists_of_mem_breakCycles hr
  exact SemanticError.isCircular_diagnostic _ _ _

/-! ## The other reports -/

theorem not_isCircular_announceAll : ∀ r ∈ (t.announceAll ds).2, ¬ r.isCircular = true := by
  intro r hr
  obtain ⟨d, -, _, rfl | rfl, rfl⟩ := exists_of_mem_announceAll hr
  · simp [SemanticError.isCircular]
  · simp [SemanticError.isCircular]

theorem not_isCircular_unreadFields {reads : List MemberId} :
    ∀ r ∈ t.unreadFields reads d, ¬ r.isCircular = true := by
  intro r hr
  obtain ⟨_, _, _, rfl⟩ := exists_of_mem_unreadFields hr
  rw [SemanticError.isCircular_diagnostic]
  exact Bool.false_ne_true

end SymbolTable

theorem SyntaxTree.not_isCircular_unusedUsings {tree : SyntaxTree} {needed : List Bytes} :
    ∀ r ∈ tree.unusedUsings needed, ¬ r.isCircular = true := by
  intro r hr
  obtain ⟨_, -, rfl⟩ := exists_of_mem_unusedUsings hr
  rw [SemanticError.isCircular_diagnostic]
  exact Bool.false_ne_true

theorem SyntaxTree.not_isCircular_parse {source file : Bytes} :
    ∀ r ∈ (parse source file).diagnostics, ¬ r.isCircular = true := by
  intro r hr hcircular
  have hcode := (report_of_mem_parse hr).2
  rw [beq_iff_eq.1 hcircular] at hcode
  exact absurd hcode (by decide)

namespace Analysis

variable {refs : List Reference} {trees : List SyntaxTree}

theorem countP_reports {α : Type} (ds : List Declared) (f : Declared → Checked α) :
    (((ds.zip (ds.map f)).flatMap fun p => p.2.findings.diagnostics p.1.scope.file).countP
      (·.isCircular)) = (ds.map fun d => (f d).circular).sum := by
  rw [flatMap_zip_map, List.countP_flatMap]
  congr 1
  exact List.map_congr_left fun d _ => (f d).countP_diagnostics d.scope.file

/-- The headers report the declared types that name themselves as their bases. -/
theorem countP_headers : ((declared refs trees).map fun d => (headerOf refs trees d).circular).sum =
    (declared refs trees).countP (·.namesItself (announced refs trees)) := by
  induction declared refs trees with
  | nil => rfl
  | cons d ds ih =>
    rw [List.map_cons, List.sum_cons, ih, List.countP_cons, headerOf, SymbolTable.circular_header,
      Nat.add_comm]

theorem countP_analyze (refs : List Reference) (trees : List SyntaxTree) :
    (Model.analyze refs trees).diagnostics.countP (·.isCircular) =
      (trees.flatMap (·.diagnostics)).countP (·.isCircular) +
      (declared refs trees).countP (·.namesItself (announced refs trees)) +
      ((headed refs trees).breakCycles (declared refs trees)).2.length := by
  obtain ⟨table, reports, hbroken⟩ : ∃ table reports,
    (headed refs trees).breakCycles (declared refs trees) = (table, reports) := ⟨_, _, rfl⟩
  have hannounced : ((SymbolTable.ofReferences refs).announceAll
      (declared refs trees)).2.countP (·.isCircular) = 0 :=
    List.countP_eq_zero.2 SymbolTable.not_isCircular_announceAll
  have hcycles : reports.countP (·.isCircular) = reports.length := by
    have hreports : reports = ((headed refs trees).breakCycles (declared refs trees)).2 := by
      rw [hbroken]
    rw [hreports, List.countP_eq_length.2 SymbolTable.isCircular_breakCycles]
  have hbodies : ((declared refs trees).map fun d => (table.body d).circular).sum = 0 := by
    simp [SymbolTable.circular_body]
  have hunread (reads : List MemberId) : ((declared refs trees).flatMap
      (table.unreadFields reads)).countP (·.isCircular) = 0 := by
    refine List.countP_eq_zero.2 fun r hr => ?_
    obtain ⟨d, -, hr⟩ := List.mem_flatMap.1 hr
    exact SymbolTable.not_isCircular_unreadFields r hr
  have hunused (needed : SyntaxTree × Nat → List Bytes) : (trees.zipIdx.flatMap fun p =>
      p.1.unusedUsings (needed p)).countP (·.isCircular) = 0 := by
    refine List.countP_eq_zero.2 fun r hr => ?_
    obtain ⟨p, -, hr⟩ := List.mem_flatMap.1 hr
    exact SyntaxTree.not_isCircular_unusedUsings r hr
  rw [analyze_of_breakCycles hbroken, hbroken]
  simp only [List.countP_append]
  rw [hannounced, countP_reports, countP_headers, hcycles, countP_reports, hbodies, hunread, hunused]
  simp only [Nat.add_zero]

/-- Circular bases are broken, and each is reported once. No declared type is a base type of itself
any more. Beyond what the files tell, which is nothing of the kind for files that were read, there is
one report for each declared type that names itself as its base, and one for each cycle of bases that
a declared type is on once the headers are resolved. A type that is on none of these cycles is left
as its header made it. -/
theorem circular_reported (refs : List Reference) (trees : List SyntaxTree) :
    (∀ d ∈ declared refs trees, ¬ TransGen (Model.analyze refs trees).table.Extends d.id d.id) ∧
    ((Model.analyze refs trees).diagnostics.countP (·.isCircular) : ℕ∞) =
      (trees.flatMap (·.diagnostics)).countP (·.isCircular) +
      (declared refs trees).countP (·.namesItself (announced refs trees)) +
      ((headed refs trees).cyclesThrough (declared refs trees)).encard ∧
    ((∀ tree ∈ trees, ∃ source file, tree = SyntaxTree.parse source file) →
      (trees.flatMap (·.diagnostics)).countP (·.isCircular) = 0) ∧
    ∀ id, (∀ cycle ∈ (headed refs trees).cyclesThrough (declared refs trees), id ∉ cycle) →
      (Model.analyze refs trees).table.get? id = (headed refs trees).get? id := by
  refine ⟨fun d hd => not_cyclic hd, ?_, ?_, ?_⟩
  · rw [countP_analyze, Nat.cast_add, Nat.cast_add, SymbolTable.length_breakCycles]
  · intro htrees
    refine List.countP_eq_zero.2 fun r hr => ?_
    obtain ⟨tree, htree, hr⟩ := List.mem_flatMap.1 hr
    obtain ⟨source, file, rfl⟩ := htrees tree htree
    exact SyntaxTree.not_isCircular_parse r hr
  · intro id hid
    rw [analyze_table, SymbolTable.get?_breakCycles_of_not_mem hid]

/-- A reference whose only type has a base that a file declares. -/
def ringReference : Reference where
  name := "Ring"
  types := [{ ns := "", name := "Back", kind := .cls, base := "Front" }]

/-- A cycle over the reference and a type that hangs on it, two types that are each other's bases, and
a type that names itself. -/
def ringFile : SyntaxTree := .parse
  "class Front : Back { }
  class Side : Front { }
  class Hen : Egg { } class Egg : Hen { }
  class Self : Self { }" "Ring.il"

/-- Of the cycles there are two. The type that only leads to one of them keeps its base. -/
theorem circular_reported_ring :
    (Model.analyze [ringReference] [ringFile]).diagnostics.countP (·.isCircular) = 3 ∧
    ((headed [ringReference] [ringFile]).cyclesThrough
      (declared [ringReference] [ringFile])).encard = 2 ∧
    (∀ d ∈ declared [ringReference] [ringFile],
      ¬ TransGen (Model.analyze [ringReference] [ringFile]).table.Extends d.id d.id) ∧
    (Model.analyze [ringReference] [ringFile]).table.Extends 2 1 := by
  obtain ⟨hacyclic, hcount, hparsed, -⟩ := circular_reported [ringReference] [ringFile]
  obtain ⟨hreports, hown, hside⟩ :
      (Model.analyze [ringReference] [ringFile]).diagnostics.countP (·.isCircular) = 3 ∧
        (declared [ringReference] [ringFile]).countP
          (·.namesItself (announced [ringReference] [ringFile])) = 1 ∧
        (Model.analyze [ringReference] [ringFile]).table.base? 2 = some 1 := by
    rw [ringFile, Bytes.ofString_ofList]
    decide +kernel
  refine ⟨hreports, ?_, hacyclic, hside⟩
  rw [hreports, hown, hparsed (List.forall_mem_singleton.2 ⟨_, _, rfl⟩), Nat.cast_zero, zero_add,
    Nat.cast_one] at hcount
  have hsum : (1 : ℕ∞) + 2 = 1 + ((headed [ringReference] [ringFile]).cyclesThrough
    (declared [ringReference] [ringFile])).encard := hcount
  exact (ENat.add_right_injective_of_ne_top ENat.one_ne_top hsum).symm

end Analysis

end ViewCompiler
