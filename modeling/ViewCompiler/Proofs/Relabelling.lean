import ViewCompiler.Proofs.Inheritance

/-!
Types at other positions. A table that has the same types in another order (`SymbolTable.Relabels`)
gives the same answers, with the positions translated: names mean the same types
(`SymbolTable.Relabels.resolve_eq`), which have the same bases and the same members.
-/

namespace ViewCompiler

/-! ## Relabelled positions -/

section
variable (σ : TypeId → TypeId)

def MemberId.relabel (id : MemberId) : MemberId := { id with owner := σ id.owner }

def MethodId.relabel (id : MethodId) : MethodId := { id with owner := σ id.owner }

def TypeLookup.relabel (l : TypeLookup) : TypeLookup :=
  { l with type := l.type.map σ, candidates := l.candidates.map σ }

end

theorem MemberId.relabel_injective {σ : TypeId → TypeId} (h : Function.Injective σ) :
    Function.Injective (relabel σ) := by
  rintro ⟨owner, index⟩ ⟨owner', index'⟩ heq
  obtain ⟨howner, hindex⟩ := MemberId.mk.inj heq
  exact congrArg₂ mk (h howner) hindex

namespace SymbolTable

/-! ## Tables -/

/-- The types of the first table are those of the second at other positions: both know the same
names. -/
structure Relabels (σ : TypeId → TypeId) (t u : SymbolTable) : Prop where
  injective : Function.Injective σ
  length_eq : u.types.length = t.types.length
  get?_eq : ∀ id, u.get? (σ id) = t.get? id
  find?_eq : ∀ name, u.find? name = (t.find? name).map σ

namespace Relabels

variable {σ : TypeId → TypeId} {t u : SymbolTable}

theorem nameOf_eq (h : Relabels σ t u) (id : TypeId) : u.nameOf (σ id) = t.nameOf id := by
  rw [nameOf, h.get?_eq, nameOf]

theorem member?_eq (h : Relabels σ t u) (id : MemberId) :
    u.member? (id.relabel σ) = t.member? id := by
  rw [member?, member?, ← h.get?_eq]
  rfl

theorem method?_eq (h : Relabels σ t u) (id : MethodId) :
    u.method? (id.relabel σ) = t.method? id := by
  rw [method?, method?, ← h.get?_eq]
  rfl

theorem isSome_find? (h : Relabels σ t u) (name : Bytes) :
    (u.find? name).isSome = (t.find? name).isSome := by
  rw [h.find?_eq, Option.isSome_map]

/-! ## Type names -/

theorem viaUsings_eq (h : Relabels σ t u) (name : Bytes) (usings : List Bytes) :
    u.viaUsings name usings = (t.viaUsings name usings).map (Prod.map σ id) := by
  rw [viaUsings, viaUsings]
  change usings.foldl _ (List.map (Prod.map σ id) []) = _
  refine List.foldl_hom (List.map (Prod.map σ id)) fun found v => ?_
  rw [h.find?_eq]
  cases t.find? (v ++ "." ++ name) with
  | none => rfl
  | some type =>
    have hany : (found.map (Prod.map σ id)).any (·.1 = σ type) = found.any (·.1 = type) := by
      simp [List.any_map, Function.comp_def, h.injective.eq_iff]
    simp only [Option.map_some, hany]
    split
    · rfl
    · rw [List.map_append]
      rfl

theorem resolve_eq (h : Relabels σ t u) (name ns : Bytes) (usings : List Bytes) :
    u.resolve name ns usings = (t.resolve name ns usings).relabel σ := by
  have henclosing : ((enclosingNamespaces ns).findSome? fun n => u.find? (TypeSymbol.qualify n name)) =
      ((enclosingNamespaces ns).findSome? fun n => t.find? (TypeSymbol.qualify n name)).map σ := by
    rw [List.map_findSome?]
    exact congrArg (List.findSome? · _) (funext fun n => h.find?_eq _)
  rw [resolve, resolve, henclosing, h.viaUsings_eq]
  cases (enclosingNamespaces ns).findSome? fun n => t.find? (TypeSymbol.qualify n name) with
  | some id => rfl
  | none =>
    dsimp only [Option.map_none]
    split
    · rfl
    · cases t.viaUsings name usings with
      | nil => rfl
      | cons found others =>
        cases others with
        | nil => rfl
        | cons => simp [TypeLookup.relabel, Function.comp_def]

/-! ## Bases -/

theorem base?_eq (h : Relabels σ t u) (id : TypeId) : u.base? (σ id) = (t.base? id).map σ := by
  rw [base?, base?, h.get?_eq, Option.map_bind]
  congr 1
  funext s
  rw [Function.comp_apply, h.find?_eq]
  split <;> rfl

theorem extends_iff (h : Relabels σ t u) (id b : TypeId) :
    u.Extends (σ id) (σ b) ↔ t.Extends id b := by
  rw [Extends, Extends, h.base?_eq, Option.map_eq_some_iff]
  constructor
  · rintro ⟨b', hb', hsame⟩
    rwa [← h.injective hsame]
  · exact fun hb => ⟨b, hb, rfl⟩

theorem mem_map_iff (h : Relabels σ t u) (id : TypeId) (ids : List TypeId) :
    σ id ∈ ids.map σ ↔ id ∈ ids := List.mem_map_of_injective h.injective

theorem basesFrom_eq (h : Relabels σ t u) (fuel : Nat) (seen : List TypeId) (id : TypeId) :
    u.basesFrom fuel (seen.map σ) (σ id) = (t.basesFrom fuel seen id).map σ := by
  induction fuel generalizing seen id with
  | zero => rfl
  | succ fuel ih =>
    rw [basesFrom_succ, basesFrom_succ, h.base?_eq]
    cases t.base? id with
    | none => rfl
    | some b =>
      simp only [Option.map_some, h.mem_map_iff, ← List.map_cons, ih]
      split <;> rfl

theorem lineage_eq (h : Relabels σ t u) (id : TypeId) :
    u.lineage (σ id) = (t.lineage id).map σ := by
  have hbases := h.basesFrom_eq t.types.length [id] id
  rw [lineage, lineage, bases, bases, h.length_eq, List.map_cons, ← hbases]
  rfl

theorem findMember?_eq (h : Relabels σ t u) (id : TypeId) (name : Bytes) :
    u.findMember? (σ id) name = (t.findMember? id name).map (·.relabel σ) := by
  rw [findMember?, findMember?, h.lineage_eq, List.findSome?_map, List.map_findSome?]
  congr 1
  funext owner
  rw [Function.comp_apply, Function.comp_apply, h.get?_eq, Option.map_map]
  rfl

theorem findMethod?_eq (h : Relabels σ t u) (id : TypeId) (name : Bytes) :
    u.findMethod? (σ id) name = (t.findMethod? id name).map (·.relabel σ) := by
  rw [findMethod?, findMethod?, h.lineage_eq, List.findSome?_map, List.map_findSome?]
  congr 1
  funext owner
  rw [Function.comp_apply, Function.comp_apply, h.get?_eq, Option.map_map]
  rfl

theorem derivesFrom_eq (h : Relabels σ t u) (id base : TypeId) :
    u.derivesFrom (σ id) (σ base) = t.derivesFrom id base := by
  rw [derivesFrom, derivesFrom, h.lineage_eq, Bool.eq_iff_iff, List.contains_iff_mem,
    List.contains_iff_mem, h.mem_map_iff]

theorem returnsFrom?_eq (h : Relabels σ t u) (start : TypeId) (fuel : Nat) (seen : List TypeId)
    (id : TypeId) : u.returnsFrom? (σ start) fuel (seen.map σ) (σ id) =
      (t.returnsFrom? start fuel seen id).map σ := by
  induction fuel generalizing seen id with
  | zero => rfl
  | succ fuel ih =>
    rw [returnsFrom?_succ, returnsFrom?_succ, h.base?_eq]
    cases t.base? id with
    | none => rfl
    | some next =>
      simp only [Option.map_some, h.injective.eq_iff, h.mem_map_iff, ← List.map_cons, ih]
      split
      · rfl
      · split <;> rfl

theorem returns?_eq (h : Relabels σ t u) (id : TypeId) :
    u.returns? (σ id) = (t.returns? id).map σ := by
  have hreturns := h.returnsFrom?_eq id t.types.length [id] id
  rw [returns?, returns?, h.length_eq, ← hreturns]
  rfl

end Relabels

end SymbolTable

end ViewCompiler
