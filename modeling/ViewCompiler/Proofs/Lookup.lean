import Mathlib.Data.List.Nodup
import ViewCompiler.Model

/-!
Looking up names in a symbol table. `find?` gives the first type of a full name, so it depends on
the names of the table only (`find?_congr`) and a type that it gives is found again under its own
name (`find?_nameOf`). Members and methods that a name means on a type exist in the table
(`member?_of_findMember?`, `method?_of_findMethod?`), and the member is one of the object layout.
-/

namespace ViewCompiler

namespace SymbolTable

variable {t u : SymbolTable} {id : TypeId} {name ns : Bytes} {usings : List Bytes}

/-! ## Types by name -/

theorem find?_eq_some_iff : t.find? name = some id ↔
    (t.get? id).map (·.fullName) = some name ∧
      ∀ j < id, (t.get? j).map (·.fullName) ≠ some name := by
  simp only [find?, get?, List.findIdx?_eq_some_iff_getElem, ne_eq, Option.map_eq_some_iff,
    List.getElem?_eq_some_iff]
  constructor
  · rintro ⟨h, hid, hj⟩
    refine ⟨⟨_, ⟨h, rfl⟩, by simpa using hid⟩, ?_⟩
    rintro j hlt ⟨_, ⟨hj', rfl⟩, hname⟩
    exact hj j hlt (by simpa using hname)
  · rintro ⟨⟨_, ⟨h, rfl⟩, hid⟩, hj⟩
    refine ⟨h, by simpa using hid, fun j hlt => ?_⟩
    intro hname
    exact hj j hlt ⟨_, ⟨by omega, rfl⟩, by simpa using hname⟩

theorem nameOf_of_find? (h : t.find? name = some id) : t.nameOf id = name := by
  rw [nameOf, (find?_eq_some_iff.1 h).1]
  rfl

/-- A type that is found by name is found under its own name. -/
theorem find?_nameOf (h : t.find? name = some id) : t.find? (t.nameOf id) = some id := by
  rw [nameOf_of_find? h, h]

theorem get?_of_find? (h : t.find? name = some id) : ∃ s, t.get? id = some s ∧ s.fullName = name :=
  Option.map_eq_some_iff.1 (find?_eq_some_iff.1 h).1

theorem find?_eq_findIdx? (t : SymbolTable) (name : Bytes) :
    t.find? name = (t.types.map (·.fullName)).findIdx? (· = name) := by
  rw [find?, List.findIdx?_map]
  rfl

/-- Only the names of the types matter. -/
theorem find?_congr (h : t.types.map (·.fullName) = u.types.map (·.fullName)) :
    t.find? name = u.find? name := by
  rw [find?_eq_findIdx?, find?_eq_findIdx?, h]

/-- A name that is found stays found, in the same place, when types are put behind. -/
theorem find?_append (h : t.find? name = some id) (ss : List TypeSymbol) :
    find? { types := t.types ++ ss } name = some id := by
  rw [find?, List.findIdx?_append]
  rw [find?] at h
  simp [h]

/-! ## Type names as they are written -/

theorem find?_of_mem_viaUsings {p : TypeId × Bytes} (h : p ∈ t.viaUsings name usings) :
    t.find? (p.2 ++ "." ++ name) = some p.1 ∧ p.2 ∈ usings := by
  rw [viaUsings] at h
  -- What was found so far came from a using.
  revert p
  refine List.foldlRecOn (motive := fun found : List (TypeId × Bytes) =>
    ∀ {q}, q ∈ found → t.find? (q.2 ++ "." ++ name) = some q.1 ∧ q.2 ∈ usings)
    usings _ (by simp) fun found hfound u hu => ?_
  split
  · next id hid =>
    split
    · exact hfound
    · intro q hq
      rcases List.mem_append.1 hq with hq | hq
      · exact hfound hq
      · obtain rfl : q = (id, u) := by simpa using hq
        exact ⟨hid, hu⟩
  · exact hfound

/-- A type that a written name resolves to is found by some full name. -/
theorem find?_of_resolve (h : (t.resolve name ns usings).type = some id) :
    ∃ fullName, t.find? fullName = some id := by
  rw [resolve] at h
  split at h
  · next i hi =>
    obtain rfl : i = id := by simpa using h
    obtain ⟨n, _, hn⟩ := List.exists_of_findSome?_eq_some hi
    exact ⟨_, hn⟩
  · split at h
    · simp at h
    · split at h
      · simp at h
      · next i u hvia =>
        obtain rfl : i = id := by simpa using h
        exact ⟨_, (find?_of_mem_viaUsings (p := (i, u)) (by rw [hvia]; simp)).1⟩
      · simp at h

/-! ## Inheritance -/

theorem mem_lineage_self : id ∈ t.lineage id := List.mem_cons_self

theorem mem_layout {m : MemberId} : m ∈ t.layout id ↔
    m.owner ∈ t.lineage id ∧ (t.member? m).isSome := by
  have hmember : (t.member? m).isSome ↔
      m.index < ((t.get? m.owner).map (·.members.length)).getD 0 := by
    rw [member?]
    cases t.get? m.owner <;> simp
  rw [hmember]
  simp only [layout, List.mem_flatMap, List.mem_reverse, List.mem_map, List.mem_range]
  constructor
  · rintro ⟨owner, howner, index, hindex, rfl⟩
    exact ⟨howner, hindex⟩
  · rintro ⟨howner, hindex⟩
    exact ⟨m.owner, howner, m.index, hindex, rfl⟩

theorem nodup_basesFrom (fuel : Nat) (seen : List TypeId) (id : TypeId) :
    (t.basesFrom fuel seen id).Nodup ∧ ∀ b ∈ t.basesFrom fuel seen id, b ∉ seen := by
  induction fuel generalizing seen id with
  | zero => simp [basesFrom]
  | succ fuel ih =>
    rw [basesFrom]
    split
    · simp
    · split
      · simp
      · split
        · simp
        · next b _ =>
          split
          · simp
          · next hb =>
            obtain ⟨hnodup, hseen⟩ := ih (b :: seen) b
            refine ⟨List.nodup_cons.2 ⟨fun hmem => hseen b hmem List.mem_cons_self, hnodup⟩, ?_⟩
            refine List.forall_mem_cons.2 ⟨hb, fun b' hb' => ?_⟩
            exact fun hmem => hseen b' hb' (List.mem_cons_of_mem _ hmem)

/-- No type is its own base. -/
theorem nodup_lineage (t : SymbolTable) (id : TypeId) : (t.lineage id).Nodup := by
  obtain ⟨hnodup, hseen⟩ := nodup_basesFrom (t := t) t.types.length [id] id
  exact List.nodup_cons.2 ⟨fun hmem => hseen id hmem List.mem_cons_self, hnodup⟩

/-- Every data member has one place in an object. -/
theorem nodup_layout (t : SymbolTable) (id : TypeId) : (t.layout id).Nodup := by
  rw [layout, List.nodup_flatMap]
  constructor
  · intro owner _
    exact List.nodup_range.map fun i j h => congrArg MemberId.index h
  · refine (List.nodup_reverse.2 (t.nodup_lineage id)).imp fun {a b} hab => ?_
    intro m hm hm'
    obtain ⟨_, _, rfl⟩ := List.mem_map.1 hm
    obtain ⟨_, _, h⟩ := List.mem_map.1 hm'
    exact hab (congrArg MemberId.owner h).symm

/-- The member that a name means on a type is in the layout of its objects. -/
theorem mem_layout_of_findMember? {m : MemberId} (h : t.findMember? id name = some m) :
    m ∈ t.layout id := by
  obtain ⟨owner, howner, hm⟩ := List.exists_of_findSome?_eq_some h
  obtain ⟨index, hindex, rfl⟩ := Option.map_eq_some_iff.1 hm
  obtain ⟨s, hs, hown⟩ := Option.bind_eq_some_iff.1 hindex
  obtain ⟨hlt, _⟩ := List.findIdx?_eq_some_iff_getElem.1 hown
  refine mem_layout.2 ⟨howner, ?_⟩
  rw [member?, hs]
  simpa using hlt

theorem member?_of_findMember? {m : MemberId} (h : t.findMember? id name = some m) :
    ∃ s, t.member? m = some s :=
  Option.isSome_iff_exists.1 (mem_layout.1 (mem_layout_of_findMember? h)).2

theorem method?_of_findMethod? {m : MethodId} (h : t.findMethod? id name = some m) :
    m.owner ∈ t.lineage id ∧ ∃ f, t.method? m = some f := by
  obtain ⟨owner, howner, hm⟩ := List.exists_of_findSome?_eq_some h
  obtain ⟨index, hindex, rfl⟩ := Option.map_eq_some_iff.1 hm
  obtain ⟨s, hs, hown⟩ := Option.bind_eq_some_iff.1 hindex
  obtain ⟨hlt, _⟩ := List.findIdx?_eq_some_iff_getElem.1 hown
  refine ⟨howner, s.methods[index], ?_⟩
  rw [method?, hs]
  simp [hlt]

/-! ## Closed tables -/

/-- A canonical name that means a type. -/
def Known (t : SymbolTable) (name : Bytes) : Prop := isBuiltinType name ∨ (t.find? name).isSome

instance (t : SymbolTable) (name : Bytes) : Decidable (t.Known name) :=
  inferInstanceAs (Decidable (_ ∨ _))

/-- All data members and parameters have a type that is known. -/
structure Closed (t : SymbolTable) : Prop where
  member : ∀ s ∈ t.types, ∀ m ∈ s.members, t.Known m.type
  param : ∀ s ∈ t.types, ∀ f ∈ s.methods, ∀ p ∈ f.paramTypes, t.Known p

instance (t : SymbolTable) : Decidable t.Closed :=
  decidable_of_iff ((∀ s ∈ t.types, ∀ m ∈ s.members, t.Known m.type) ∧
      ∀ s ∈ t.types, ∀ f ∈ s.methods, ∀ p ∈ f.paramTypes, t.Known p)
    ⟨fun h => ⟨h.1, h.2⟩, fun h => ⟨h.member, h.param⟩⟩

theorem Closed.known_of_member? (h : t.Closed) {m : MemberId} {s : MemberSymbol}
    (hm : t.member? m = some s) : t.Known s.type := by
  obtain ⟨type, htype, hs⟩ := Option.bind_eq_some_iff.1 hm
  exact h.member type (List.mem_of_getElem? htype) s (List.mem_of_getElem? hs)

theorem Closed.known_of_method? (h : t.Closed) {m : MethodId} {f : MethodSymbol}
    (hm : t.method? m = some f) : ∀ p ∈ f.paramTypes, t.Known p := by
  obtain ⟨type, htype, hf⟩ := Option.bind_eq_some_iff.1 hm
  exact h.param type (List.mem_of_getElem? htype) f (List.mem_of_getElem? hf)

end SymbolTable

theorem Ty.ofName_ne_error {t : SymbolTable} {name : Bytes} (h : t.Known name) :
    Ty.ofName t name ≠ .error := by
  rcases h with h | h
  · simp only [isBuiltinType, Bool.or_eq_true, decide_eq_true_eq] at h
    grind [Ty.ofName]
  · obtain ⟨id, hid⟩ := Option.isSome_iff_exists.1 h
    rw [Ty.ofName, hid]
    grind

theorem Ty.ofName_ne_methodGroup (t : SymbolTable) (name : Bytes) :
    Ty.ofName t name ≠ .methodGroup := by
  rw [Ty.ofName]
  grind

end ViewCompiler
