import Mathlib.Data.List.Nodup
import ViewCompiler.Template.Parse

/-!
What the nesting of a sequence of tags says. Tags are meant by their positions. An end tag belongs to
the innermost open element of its name (`Nesting.partner`), and closes all that was opened inside of it.
`Nesting.Pairing` says so without a stack, in terms of what is open alone, and nothing else is as it
says (`Nesting.Pairing.unique`).

A tag that has no partner is reported, once (`Nesting.reported`). There is none exactly if the tags are
nested like brackets (`Nesting.reported_eq_nil_iff`).
-/

namespace ViewCompiler

/-- A tag of a template: one that opens an element, one of an element without content, or an end tag. -/
inductive Tag where
  | opening (span : Span) (name : Bytes)
  | leaf (span : Span) (name : Bytes)
  | closing (span : Span) (name : Bytes)
deriving DecidableEq, Repr, Inhabited

namespace Tag

/-- The name of the element that is opened. -/
def opened? : Tag → Option Bytes
  | opening _ name => some name
  | _ => none

/-- The name of the element that is closed. -/
def closed? : Tag → Option Bytes
  | closing _ name => some name
  | _ => none

/-- The element that a start tag stands for. -/
def element? : Tag → Option (Span × Bytes)
  | opening span name | leaf span name => some (span, name)
  | closing .. => none

/-- The report that a tag has no partner. -/
def report? : Tag → Option TemplateReport
  | opening span name => some (span, .unclosedElement name)
  | leaf .. => none
  | closing span name => some (span, .unmatchedEndTag name)

end Tag

namespace Nesting

variable (tags : List Tag)

/-- The name of the element that the tag at a position opens. -/
def openedBy (i : Nat) : Option Bytes := tags[i]?.bind Tag.opened?

/-- The name of the element that the tag at a position closes. -/
def closedBy (j : Nat) : Option Bytes := tags[j]?.bind Tag.closed?

/-! ## Open elements -/

/-- Among open elements, innermost first, the one that the tag at `j` closes. -/
def closes (os : List Nat) (j : Nat) : Option Nat :=
  (closedBy tags j).bind fun name => os.find? fun i => openedBy tags i = some name

/-- The elements that are open in front of a tag, innermost first. -/
def openAt : Nat → List Nat
  | 0 => []
  | k + 1 =>
    if (openedBy tags k).isSome then k :: openAt k
    else match closes tags (openAt k) k with
      | some i => (openAt k).filter (· < i)
      | none => openAt k

/-- The start tag that an end tag belongs to. -/
def partner (j : Nat) : Option Nat := closes tags (openAt tags j) j

/-! ## Pairs of tags -/

/-- The element of the tag at `i` is open in front of the tag at `k`: no end tag between them belongs to
it or to an element around it. -/
structure IsOpen (partner : Nat → Option Nat) (i k : Nat) : Prop where
  opened : (openedBy tags i).isSome
  lt : i < k
  inside : ∀ j, i < j → j < k → ∀ h ∈ partner j, i < h

/-- Each end tag belongs to the innermost open element of its name, if there is one. -/
def Pairing (partner : Nat → Option Nat) : Prop :=
  ∀ i j, partner j = some i ↔ ∃ name, closedBy tags j = some name ∧ openedBy tags i = some name ∧
    IsOpen tags partner i j ∧ ∀ k, IsOpen tags partner k j → openedBy tags k = some name → k ≤ i

variable {tags} {p q : Nat → Option Nat} {i j k : Nat}

theorem isOpen_succ : IsOpen tags p i (k + 1) ↔
    i = k ∧ (openedBy tags i).isSome ∨ IsOpen tags p i k ∧ ∀ h ∈ p k, i < h := by
  constructor
  · rintro ⟨hopened, hlt, hinside⟩
    rcases Nat.eq_or_lt_of_le (Nat.le_of_lt_succ hlt) with rfl | hik
    · exact .inl ⟨rfl, hopened⟩
    · exact .inr ⟨⟨hopened, hik, fun j hij hjk => hinside j hij (Nat.lt_succ_of_lt hjk)⟩,
        hinside k hik (Nat.lt_succ_self k)⟩
  · rintro (⟨rfl, hopened⟩ | ⟨⟨hopened, hlt, hinside⟩, hk⟩)
    · exact ⟨hopened, Nat.lt_succ_self i, fun j hij hji => by omega⟩
    · refine ⟨hopened, Nat.lt_succ_of_lt hlt, fun j hij hjk => ?_⟩
      rcases Nat.eq_or_lt_of_le (Nat.le_of_lt_succ hjk) with rfl | hjk
      · exact hk
      · exact hinside j hij hjk

theorem IsOpen.mono (h : IsOpen tags p i k) (hij : i < j) (hjk : j ≤ k) : IsOpen tags p i j :=
  ⟨h.opened, hij, fun x hix hxj => h.inside x hix (Nat.lt_of_lt_of_le hxj hjk)⟩

/-- Only the tags in front of `k` matter for what is open there. -/
theorem IsOpen.congr (hpq : ∀ j < k, p j = q j) (h : IsOpen tags p i k) : IsOpen tags q i k :=
  ⟨h.opened, h.lt, fun j hij hjk => hpq j hjk ▸ h.inside j hij hjk⟩

/-- There is one way only to pair tags. -/
theorem Pairing.unique (hp : Pairing tags p) (hq : Pairing tags q) : p = q := by
  funext j
  induction j using Nat.strongRecOn with
  | ind j ih =>
    have hopen (k : Nat) : IsOpen tags p k j ↔ IsOpen tags q k j :=
      ⟨.congr ih, .congr fun x hx => (ih x hx).symm⟩
    refine Option.ext fun i => ?_
    rw [hp, hq]
    simp only [hopen]

/-! ## The open elements are those that are open -/

/-- A tag that opens an element closes none. -/
theorem closedBy_of_opened (h : (openedBy tags k).isSome) : closedBy tags k = none := by
  rw [openedBy] at h
  rw [closedBy]
  cases ht : tags[k]? with
  | none => rfl
  | some t =>
    rw [ht] at h
    cases t with
    | opening => rfl
    | leaf | closing => cases h

theorem partner_of_opened (h : (openedBy tags k).isSome) : partner tags k = none := by
  rw [partner, closes, closedBy_of_opened h]
  rfl

theorem openAt_of_opened (h : (openedBy tags k).isSome) : openAt tags (k + 1) = k :: openAt tags k := by
  rw [openAt, if_pos h]

theorem openAt_of_partner (h : partner tags k = some i) :
    openAt tags (k + 1) = (openAt tags k).filter (· < i) := by
  have hopened : ¬ (openedBy tags k).isSome = true := by
    intro hopened
    rw [partner_of_opened hopened] at h
    cases h
  have hcloses : closes tags (openAt tags k) k = some i := h
  rw [openAt, if_neg hopened, hcloses]

theorem openAt_of_none (hopened : ¬ (openedBy tags k).isSome = true) (h : partner tags k = none) :
    openAt tags (k + 1) = openAt tags k := by
  have hcloses : closes tags (openAt tags k) k = none := h
  rw [openAt, if_neg hopened, hcloses]

theorem mem_openAt_succ : i ∈ openAt tags (k + 1) ↔
    i = k ∧ (openedBy tags i).isSome ∨ i ∈ openAt tags k ∧ ∀ h ∈ partner tags k, i < h := by
  by_cases hopened : (openedBy tags k).isSome
  · rw [openAt_of_opened hopened, partner_of_opened hopened, List.mem_cons]
    refine or_congr ⟨?_, And.left⟩ ⟨fun hi => ⟨hi, fun h hh => by cases hh⟩, And.left⟩
    rintro rfl
    exact ⟨rfl, hopened⟩
  · have hnew : ¬ (i = k ∧ (openedBy tags i).isSome = true) := by
      rintro ⟨rfl, h⟩
      exact hopened h
    rw [or_iff_right hnew]
    cases hpartner : partner tags k with
    | none => simp [openAt_of_none hopened hpartner]
    | some h => simp [openAt_of_partner hpartner]

theorem mem_openAt : i ∈ openAt tags k ↔ IsOpen tags (partner tags) i k := by
  induction k with
  | zero => exact ⟨fun h => (List.not_mem_nil h).elim, fun h => absurd h.lt (Nat.not_lt_zero i)⟩
  | succ k ih => rw [mem_openAt_succ, isOpen_succ, ih]

/-- Inner elements were opened later. -/
theorem pairwise_openAt (tags : List Tag) (k : Nat) : (openAt tags k).Pairwise (· > ·) := by
  induction k with
  | zero => exact .nil
  | succ k ih =>
    by_cases hopened : (openedBy tags k).isSome
    · rw [openAt_of_opened hopened]
      exact .cons (fun i hi => (mem_openAt.1 hi).lt) ih
    · cases hpartner : partner tags k with
      | none => rwa [openAt_of_none hopened hpartner]
      | some h =>
        rw [openAt_of_partner hpartner]
        exact ih.filter _

/-- In a list that decreases, the first one with a property is the greatest. -/
theorem find?_eq_some_iff_of_decreasing {os : List Nat} (hos : os.Pairwise (· > ·)) {P : Nat → Bool} :
    os.find? P = some i ↔ P i = true ∧ i ∈ os ∧ ∀ k ∈ os, P k = true → k ≤ i := by
  induction hos with
  | nil => simp
  | @cons o os ho _ ih =>
    by_cases hP : P o = true
    · rw [List.find?_cons_of_pos hP, Option.some.injEq]
      constructor
      · rintro rfl
        refine ⟨hP, List.mem_cons_self, List.forall_mem_cons.2 ⟨fun _ => Nat.le_refl o, fun k hk _ => ?_⟩⟩
        exact Nat.le_of_lt (ho k hk)
      · rintro ⟨-, hi, hmax⟩
        rcases List.mem_cons.1 hi with rfl | hi
        · rfl
        · exact Nat.le_antisymm (hmax o List.mem_cons_self hP) (Nat.le_of_lt (ho i hi))
    · rw [List.find?_cons_of_neg hP, ih]
      refine and_congr_right fun hi => ?_
      have hne : i ≠ o := by
        rintro rfl
        exact hP hi
      rw [List.mem_cons, or_iff_right hne, List.forall_mem_cons]
      exact and_congr_right fun _ => (and_iff_right fun h => absurd h hP).symm

theorem pairing_partner (tags : List Tag) : Pairing tags (partner tags) := by
  intro i j
  rw [partner, closes, Option.bind_eq_some_iff]
  refine exists_congr fun name => and_congr_right fun _ => ?_
  rw [find?_eq_some_iff_of_decreasing (pairwise_openAt tags j)]
  simp only [mem_openAt, decide_eq_true_eq]

/-! ## Tags without a partner -/

/-- A tag that should have a partner has none. -/
def Unpaired (tags : List Tag) (partner : Nat → Option Nat) (i : Nat) : Prop :=
  (closedBy tags i).isSome ∧ partner i = none ∨ (openedBy tags i).isSome ∧ ∀ j, partner j ≠ some i

/-- The tags that turn out to have no partner when the tag at `j` is read: elements that are opened inside
of one that is closed, or an end tag. -/
def passed (tags : List Tag) (j : Nat) : List Nat :=
  match partner tags j with
  | some i => (openAt tags j).filter (i < ·)
  | none => if (closedBy tags j).isSome then [j] else []

/-- The tags without a partner, in the order in which they are reported. -/
def reported (tags : List Tag) : List Nat :=
  (List.range tags.length).flatMap (passed tags) ++ (openAt tags tags.length).reverse

theorem lt_length {α : Type} {f : Tag → Option α} (h : (tags[j]?.bind f).isSome) : j < tags.length := by
  by_contra hj
  rw [List.getElem?_eq_none (Nat.le_of_not_lt hj)] at h
  cases h

theorem closed_of_partner (h : partner tags j = some i) : (closedBy tags j).isSome := by
  obtain ⟨name, hname, -⟩ := (pairing_partner tags i j).1 h
  rw [hname]
  rfl

theorem isOpen_of_partner (h : partner tags j = some i) : IsOpen tags (partner tags) i j := by
  obtain ⟨name, -, -, hopen, -⟩ := (pairing_partner tags i j).1 h
  exact hopen

theorem mem_passed : i ∈ passed tags j ↔
    (i = j ∧ (closedBy tags j).isSome ∧ partner tags j = none) ∨
      IsOpen tags (partner tags) i j ∧ ∃ h, partner tags j = some h ∧ h < i := by
  rw [passed]
  cases hpartner : partner tags j with
  | none => by_cases hclosed : (closedBy tags j).isSome <;> simp [hclosed]
  | some h => simp [mem_openAt]

/-- What is passed over is not open any more. -/
theorem not_isOpen_of_mem_passed (h : i ∈ passed tags j) (hjk : j < k) :
    ¬ IsOpen tags (partner tags) i k := by
  intro hopen
  rcases mem_passed.1 h with ⟨rfl, hclosed, -⟩ | ⟨hij, x, hx, hlt⟩
  · rw [closedBy_of_opened hopen.opened] at hclosed
    cases hclosed
  · exact absurd (hopen.inside j hij.lt hjk x hx) (Nat.lt_asymm hlt)

/-- An element that is passed over has no end tag. -/
theorem unpaired_of_mem_passed (h : i ∈ passed tags j) : Unpaired tags (partner tags) i := by
  rcases mem_passed.1 h with ⟨rfl, hclosed, hnone⟩ | ⟨hij, x, hx, hlt⟩
  · exact .inl ⟨hclosed, hnone⟩
  · refine .inr ⟨hij.opened, fun k hk => ?_⟩
    have hik := isOpen_of_partner hk
    rcases Nat.lt_trichotomy k j with hkj | rfl | hjk
    · exact Nat.lt_irrefl i (hij.inside k hik.lt hkj i hk)
    · rw [hx] at hk
      cases hk
      exact Nat.lt_irrefl _ hlt
    · exact not_isOpen_of_mem_passed h hjk hik

/-- An element has one end tag at most. -/
theorem partner_injective (hj : partner tags j = some i) (hk : partner tags k = some i) : j = k := by
  have hopen {j k : Nat} (hj : partner tags j = some i) (hk : partner tags k = some i) : ¬ j < k :=
    fun hlt => Nat.lt_irrefl i
      ((isOpen_of_partner hk).inside j (isOpen_of_partner hj).lt hlt i hj)
  exact Nat.le_antisymm (Nat.le_of_not_lt (hopen hk hj)) (Nat.le_of_not_lt (hopen hj hk))

/-- What is between the tags of an element comes while the element is open; the converse needs that it
has an end tag. -/
theorem isOpen_iff_between (hpaired : ∃ j, partner tags j = some i) :
    IsOpen tags (partner tags) i k ↔ ∃ j, partner tags j = some i ∧ i < k ∧ k ≤ j := by
  constructor
  · intro hopen
    obtain ⟨j, hj⟩ := hpaired
    refine ⟨j, hj, hopen.lt, Nat.le_of_not_lt fun hlt => ?_⟩
    exact Nat.lt_irrefl i (hopen.inside j (isOpen_of_partner hj).lt hlt i hj)
  · rintro ⟨j, hj, hik, hkj⟩
    exact (isOpen_of_partner hj).mono hik hkj

/-- An element without end tag is open as long as it is not passed over. -/
theorem isOpen_or_mem_passed (hopened : (openedBy tags i).isSome) (hnone : ∀ j, partner tags j ≠ some i)
    (hik : i < k) : IsOpen tags (partner tags) i k ∨ ∃ j < k, i ∈ passed tags j := by
  induction k with
  | zero => exact absurd hik (Nat.not_lt_zero i)
  | succ k ih =>
    rcases Nat.eq_or_lt_of_le (Nat.le_of_lt_succ hik) with rfl | hik
    · exact .inl (isOpen_succ.2 (.inl ⟨rfl, hopened⟩))
    · rcases ih hik with hopen | ⟨j, hj, hmem⟩
      · by_cases hpass : ∀ h ∈ partner tags k, i < h
        · exact .inl (isOpen_succ.2 (.inr ⟨hopen, hpass⟩))
        · simp only [not_forall] at hpass
          obtain ⟨h, hh, hle⟩ := hpass
          have hne : h ≠ i := by
            rintro rfl
            exact hnone k hh
          exact .inr ⟨k, Nat.lt_succ_self k, mem_passed.2 (.inr ⟨hopen, h, hh, by omega⟩)⟩
      · exact .inr ⟨j, Nat.lt_succ_of_lt hj, hmem⟩

/-- The tags without a partner are reported. -/
theorem mem_reported : i ∈ reported tags ↔ Unpaired tags (partner tags) i := by
  simp only [reported, List.mem_append, List.mem_flatMap, List.mem_range, List.mem_reverse, mem_openAt]
  constructor
  · rintro (⟨j, -, hmem⟩ | hopen)
    · exact unpaired_of_mem_passed hmem
    · refine .inr ⟨hopen.opened, fun j hj => ?_⟩
      have hlt := lt_length (closed_of_partner hj)
      exact Nat.lt_irrefl i (hopen.inside j (isOpen_of_partner hj).lt hlt i hj)
  · rintro (⟨hclosed, hnone⟩ | ⟨hopened, hnone⟩)
    · exact .inl ⟨i, lt_length hclosed, mem_passed.2 (.inl ⟨rfl, hclosed, hnone⟩)⟩
    · exact (isOpen_or_mem_passed hopened hnone (lt_length hopened)).symm

example : reported [.opening {} "a", .opening {} "b", .closing {} "a", .closing {} "c"] = [1, 3] := by
  decide

theorem nodup_passed (tags : List Tag) (j : Nat) : (passed tags j).Nodup := by
  have hopen : (openAt tags j).Nodup := (pairwise_openAt tags j).imp Nat.ne_of_gt
  rw [passed]
  split
  · exact hopen.filter _
  · split
    · exact List.nodup_singleton j
    · exact List.nodup_nil

/-- No tag is reported twice. -/
theorem nodup_reported (tags : List Tag) : (reported tags).Nodup := by
  have hopen : (openAt tags tags.length).Nodup := (pairwise_openAt tags _).imp Nat.ne_of_gt
  rw [reported, List.nodup_append', List.nodup_flatMap, List.nodup_reverse]
  refine ⟨⟨fun j _ => nodup_passed tags j, ?_⟩, hopen, ?_⟩
  · refine List.pairwise_lt_range.imp fun {j k} hjk => ?_
    intro i hj hk
    rcases mem_passed.1 hk with ⟨rfl, hclosed, -⟩ | ⟨hopen, -⟩
    · rcases mem_passed.1 hj with ⟨rfl, -, -⟩ | ⟨hopen, -⟩
      · exact Nat.lt_irrefl _ hjk
      · rw [closedBy_of_opened hopen.opened] at hclosed
        cases hclosed
    · exact not_isOpen_of_mem_passed hj hjk hopen
  · intro i hi hi'
    obtain ⟨j, hj, hi⟩ := List.mem_flatMap.1 hi
    exact not_isOpen_of_mem_passed hi (List.mem_range.1 hj) (mem_openAt.1 (List.mem_reverse.1 hi'))

end Nesting

/-! ## Brackets -/

/-- The beginning or the end of an element. -/
inductive Mark where
  | opened (name : Bytes)
  | ended (name : Bytes)
deriving DecidableEq, Repr, Inhabited

namespace Tag

/-- Elements without content have no marks. -/
def mark? : Tag → Option Mark
  | opening _ name => some (.opened name)
  | leaf .. => none
  | closing _ name => some (.ended name)

end Tag

/-- Elements one after the other, each with well-nested content. -/
inductive WellNested : List Mark → Prop
  | nil : WellNested []
  | element {name : Bytes} {inner after : List Mark} : WellNested inner → WellNested after →
    WellNested (.opened name :: inner ++ .ended name :: after)

namespace Mark

/-- Whether marks close the elements of a stack, innermost first, and all that they open. -/
def accepts : List Bytes → List Mark → Bool
  | os, [] => os.isEmpty
  | os, .opened name :: ms => accepts (name :: os) ms
  | [], .ended _ :: _ => false
  | o :: os, .ended name :: ms => o = name && accepts os ms

/-- Marks that close the elements of a stack, innermost first, with well-nested content between. -/
inductive Closing : List Bytes → List Mark → Prop
  | nil {w : List Mark} : WellNested w → Closing [] w
  | cons {name : Bytes} {os : List Bytes} {w v : List Mark} : WellNested w → Closing os v →
    Closing (name :: os) (w ++ .ended name :: v)

theorem Closing.opened {name : Bytes} {os : List Bytes} {ms : List Mark} (h : Closing (name :: os) ms) :
    Closing os (.opened name :: ms) := by
  cases h with
  | @cons _ _ inner _ hw hv =>
    cases hv with
    | nil hv => exact .nil (.element hw hv)
    | @cons name' os w v hw' hv =>
      have hmarks : Mark.opened name :: (inner ++ .ended name :: (w ++ .ended name' :: v)) =
          (.opened name :: inner ++ .ended name :: w) ++ .ended name' :: v := by
        simp only [List.cons_append, List.append_assoc]
      rw [hmarks]
      exact .cons (.element hw hw') hv

theorem accepts_append {w : List Mark} (h : WellNested w) (os : List Bytes) (v : List Mark) :
    accepts os (w ++ v) = accepts os v := by
  induction h generalizing os v with
  | nil => rfl
  | @element name inner after _ _ ihinner ihafter =>
    rw [List.append_assoc, List.cons_append, accepts, ihinner, List.cons_append, accepts, ihafter]
    simp

theorem accepts_iff {os : List Bytes} {ms : List Mark} : accepts os ms = true ↔ Closing os ms := by
  constructor
  · intro h
    induction ms generalizing os with
    | nil =>
      rw [accepts, List.isEmpty_iff] at h
      exact h ▸ .nil .nil
    | cons m ms ih =>
      cases m with
      | opened name => exact (ih h).opened
      | ended name =>
        cases os with
        | nil => cases h
        | cons o os =>
          rw [accepts, Bool.and_eq_true, decide_eq_true_eq] at h
          obtain ⟨rfl, h⟩ := h
          exact .cons .nil (ih h)
  · intro h
    induction h with
    | nil hw =>
      have happend := accepts_append hw [] []
      rw [List.append_nil] at happend
      exact happend
    | cons hw _ ih =>
      rw [accepts_append hw, accepts, ih]
      simp

end Mark

theorem wellNested_iff_accepts {ms : List Mark} : WellNested ms ↔ Mark.accepts [] ms = true := by
  rw [Mark.accepts_iff]
  constructor
  · exact .nil
  · rintro ⟨h⟩
    exact h

namespace Nesting

variable {tags : List Tag} {i j k : Nat}

theorem passed_eq_nil (hclosed : closedBy tags j = none) : passed tags j = [] := by
  rw [passed, partner, closes, hclosed]
  rfl

theorem passed_of_length_le (h : tags.length ≤ j) : passed tags j = [] :=
  passed_eq_nil (by rw [closedBy, List.getElem?_eq_none h]; rfl)

/-- An end tag that has the name of the innermost open element closes just that one. -/
theorem openAt_of_innermost {name : Bytes} {o : Nat} {os : List Nat} (hclosed : closedBy tags k = some name)
    (hopen : openAt tags k = o :: os) (hname : openedBy tags o = some name) :
    passed tags k = [] ∧ openAt tags (k + 1) = os := by
  have hinner : ∀ x ∈ os, x < o := (List.pairwise_cons.1 (hopen ▸ pairwise_openAt tags k)).1
  have hpartner : partner tags k = some o := by
    rw [partner, closes, hclosed, hopen, Option.bind_some, List.find?_cons_of_pos (by simpa using hname)]
  rw [passed, hpartner, openAt_of_partner hpartner, hopen]
  constructor
  · have hnone : ∀ x ∈ o :: os, ¬ o < x :=
      List.forall_mem_cons.2 ⟨Nat.lt_irrefl o, fun x hx => Nat.lt_asymm (hinner x hx)⟩
    simpa using hnone
  · rw [List.filter_cons_of_neg (by simp)]
    exact List.filter_eq_self.2 (by simpa using hinner)

/-- An end tag that has another name passes over something. -/
theorem passed_ne_nil {name : Bytes} (hclosed : closedBy tags k = some name)
    (hother : ∀ o ∈ (openAt tags k).head?, openedBy tags o ≠ some name) : passed tags k ≠ [] := by
  rw [passed]
  cases hpartner : partner tags k with
  | none => simp [hclosed]
  | some i =>
    obtain ⟨name', hname', hopened, hopen, -⟩ := (pairing_partner tags i k).1 hpartner
    cases hname'.symm.trans hclosed
    have hmem := mem_openAt.2 hopen
    cases hos : openAt tags k with
    | nil =>
      rw [hos] at hmem
      cases hmem
    | cons o os =>
      have hne : i ≠ o := by
        rintro rfl
        exact hother i (by rw [hos]; rfl) hopened
      have hdecreasing := pairwise_openAt tags k
      rw [hos] at hmem hdecreasing
      have hlt : i < o := (List.pairwise_cons.1 hdecreasing).1 i ((List.mem_cons.1 hmem).resolve_left hne)
      exact List.ne_nil_of_mem (List.mem_filter.2 ⟨List.mem_cons_self, decide_eq_true hlt⟩)

/-- What is left of the tags closes the open elements exactly if nothing is reported any more. -/
theorem accepts_marks {n : Nat} (hk : k + n = tags.length) :
    Mark.accepts ((openAt tags k).filterMap (openedBy tags)) ((tags.drop k).filterMap Tag.mark?) = true ↔
      (∀ j, k ≤ j → passed tags j = []) ∧ openAt tags tags.length = [] := by
  induction n generalizing k with
  | zero =>
    obtain rfl : k = tags.length := hk
    have hpassed : ∀ j, tags.length ≤ j → passed tags j = [] := fun j => passed_of_length_le
    rw [List.drop_length, List.filterMap_nil, Mark.accepts, List.isEmpty_iff, List.filterMap_eq_nil_iff,
      and_iff_right hpassed]
    constructor
    · intro h
      refine List.eq_nil_iff_forall_not_mem.2 fun o ho => ?_
      have hopened := (mem_openAt.1 ho).opened
      rw [h o ho] at hopened
      cases hopened
    · intro h
      simp [h]
  | succ n ih =>
    have hlt : k < tags.length := by omega
    have ht : tags[k]? = some tags[k] := List.getElem?_eq_getElem hlt
    have hnext := ih (k := k + 1) (by omega)
    have hsplit : (∀ j, k ≤ j → passed tags j = []) ↔
        passed tags k = [] ∧ ∀ j, k + 1 ≤ j → passed tags j = [] := by
      constructor
      · exact fun h => ⟨h k (Nat.le_refl k), fun j hj => h j (by omega)⟩
      · rintro ⟨h, hafter⟩ j hj
        rcases Nat.eq_or_lt_of_le hj with rfl | hj
        · exact h
        · exact hafter j hj
    rw [hsplit, and_assoc, ← hnext, List.drop_eq_getElem_cons hlt]
    cases htag : tags[k] with
    | opening span name =>
      have hopened : openedBy tags k = some name := by rw [openedBy, ht, htag]; rfl
      have hsome : (openedBy tags k).isSome := by rw [hopened]; rfl
      rw [and_iff_right (passed_eq_nil (closedBy_of_opened hsome)), openAt_of_opened hsome,
        List.filterMap_cons_some hopened]
      rfl
    | leaf span name =>
      have hopened : openedBy tags k = none := by rw [openedBy, ht, htag]; rfl
      have hclosed : closedBy tags k = none := by rw [closedBy, ht, htag]; rfl
      have hnone : partner tags k = none := by rw [partner, closes, hclosed]; rfl
      rw [and_iff_right (passed_eq_nil hclosed), openAt_of_none (by simp [hopened]) hnone]
      rfl
    | closing span name =>
      have hclosed : closedBy tags k = some name := by rw [closedBy, ht, htag]; rfl
      cases hopen : openAt tags k with
      | nil =>
        have hpassed := passed_ne_nil hclosed (by simp [hopen])
        simp [Tag.mark?, Mark.accepts, hpassed]
      | cons o os =>
        obtain ⟨name', hname'⟩ :=
          Option.isSome_iff_exists.1 (mem_openAt.1 (hopen ▸ List.mem_cons_self : o ∈ openAt tags k)).opened
        by_cases hname : openedBy tags o = some name
        · obtain ⟨hpassed, hrest⟩ := openAt_of_innermost hclosed hopen hname
          rw [and_iff_right hpassed, hrest, List.filterMap_cons_some hname,
            List.filterMap_cons_some (f := Tag.mark?) rfl, Mark.accepts]
          simp
        · have hpassed := passed_ne_nil hclosed (by simpa [hopen] using hname)
          have hne : name' ≠ name := by
            rintro rfl
            exact hname hname'
          simp [Tag.mark?, Mark.accepts, hpassed, hname', hne]

theorem reported_eq_nil_iff : reported tags = [] ↔ WellNested (tags.filterMap Tag.mark?) := by
  have hmarks := accepts_marks (Nat.zero_add tags.length)
  rw [wellNested_iff_accepts]
  refine Iff.trans ?_ hmarks.symm
  rw [reported, List.append_eq_nil_iff, List.flatMap_eq_nil_iff, List.reverse_eq_nil_iff]
  refine and_congr_left fun _ => ⟨fun h j _ => ?_, fun h j _ => h j (Nat.zero_le j)⟩
  by_cases hj : j < tags.length
  · exact h j (List.mem_range.2 hj)
  · exact passed_of_length_le (Nat.le_of_not_lt hj)

end Nesting

end ViewCompiler
