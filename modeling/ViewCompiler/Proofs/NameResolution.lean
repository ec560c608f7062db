import Mathlib.Data.List.Induction
import Mathlib.Data.List.TakeWhile
import ViewCompiler.Proofs.Lookup

/-!
How a type name is resolved. `enclosingNamespaces` lists what encloses a namespace, longest first
(`mem_enclosingNamespaces`), and the usings give each type once, with the only namespace that can have
it (`SymbolTable.mem_viaUsings`). So a lookup gives what the rules of `SymbolTable.Resolves` say
(`SymbolTable.resolves_resolve`), and by these rules the usings count as a set only
(`SymbolTable.Resolves.same`).
-/

namespace ViewCompiler

/-! ## Enclosing namespaces -/

namespace Bytes

theorem beforeLast?_eq_some_iff {sep : UInt8} {s t : Bytes} :
    s.beforeLast? sep = some t ↔ ∃ u, s = t ++ sep :: u ∧ sep ∉ u := by
  rw [beforeLast?]
  constructor
  · intro h
    split at h
    · cases h
    · next b before hdrop =>
      cases h
      have hsplit := List.takeWhile_append_dropWhile (p := (· ≠ sep)) (l := s.reverse)
      have hhead := List.head?_dropWhile_not (· ≠ sep) s.reverse
      rw [hdrop] at hhead hsplit
      obtain rfl : b = sep := by simpa using hhead
      refine ⟨(s.reverse.takeWhile (· ≠ b)).reverse, ?_, fun hmem => ?_⟩
      · rw [← List.reverse_inj, List.reverse_append, List.reverse_reverse]
        simpa using hsplit.symm
      · simpa using List.mem_takeWhile_imp (List.mem_reverse.1 hmem)
  · rintro ⟨u, rfl, hu⟩
    have hpass : ∀ b ∈ u.reverse, decide (b ≠ sep) = true := by
      intro b hb
      simpa using fun heq : b = sep => hu (heq ▸ List.mem_reverse.1 hb)
    rw [List.reverse_append, List.reverse_cons, List.append_assoc,
      List.dropWhile_append_of_pos hpass]
    simp

theorem beforeLast?_eq_none_iff {sep : UInt8} {s : Bytes} : s.beforeLast? sep = none ↔ sep ∉ s := by
  have hpass : s.reverse.dropWhile (· ≠ sep) = [] ↔ sep ∉ s := by
    rw [List.dropWhile_eq_nil_iff]
    simp only [List.mem_reverse, ne_eq, decide_not, Bool.not_eq_true', decide_eq_false_iff_not]
    exact ⟨fun h hmem => h sep hmem rfl, fun h b hb heq => h (heq ▸ hb)⟩
  rw [← hpass, beforeLast?]
  split <;> simp_all

end Bytes

/-- `p` is the namespace `ns` or one around it: what stands in front of a dot of `ns`, or the global
namespace. -/
def EnclosesNamespace (p ns : Bytes) : Prop := p = ns ∨ (∃ s, ns = p ++ Ascii.dot :: s) ∨ p = []

section
variable {p ns : Bytes}

theorem EnclosesNamespace.length_le (h : EnclosesNamespace p ns) : p.length ≤ ns.length := by
  rcases h with rfl | ⟨s, rfl⟩ | rfl <;> simp

/-- In front of the last dot of a namespace stands the next one around it. -/
theorem enclosesNamespace_append {outer u : Bytes} (hu : Ascii.dot ∉ u) :
    EnclosesNamespace p (outer ++ Ascii.dot :: u) ↔
      p = outer ++ Ascii.dot :: u ∨ EnclosesNamespace p outer := by
  constructor
  · rintro (rfl | ⟨s, hs⟩ | rfl)
    · exact .inl rfl
    · refine .inr ?_
      rcases List.append_eq_append_iff.1 hs with ⟨a, rfl, ha⟩ | ⟨a, rfl, ha⟩
      · cases a with
        | nil => exact .inl (by simp)
        | cons b a =>
          obtain ⟨-, rfl⟩ := List.cons.inj ha
          simp at hu
      · cases a with
        | nil => exact .inl (by simp)
        | cons b a =>
          obtain ⟨rfl, -⟩ := List.cons.inj ha
          exact .inr (.inl ⟨a, rfl⟩)
    · exact .inr (.inr (.inr rfl))
  · rintro (rfl | rfl | ⟨s, rfl⟩ | rfl)
    · exact .inl rfl
    · exact .inr (.inl ⟨u, rfl⟩)
    · exact .inr (.inl ⟨s ++ Ascii.dot :: u, by simp⟩)
    · exact .inr (.inr rfl)

theorem mem_enclosingNamespaces : p ∈ enclosingNamespaces ns ↔ EnclosesNamespace p ns := by
  fun_induction enclosingNamespaces ns with
  | case1 => simp [EnclosesNamespace]
  | case2 ns _ outer h ih =>
    obtain ⟨u, rfl, hu⟩ := Bytes.beforeLast?_eq_some_iff.1 h
    rw [List.mem_cons, ih, enclosesNamespace_append hu]
  | case3 ns _ h =>
    have hdot : ∀ s, ns ≠ p ++ Ascii.dot :: s := by
      rintro s rfl
      exact Bytes.beforeLast?_eq_none_iff.1 h (by simp)
    simp [EnclosesNamespace, hdot]

/-- The innermost namespace comes first. -/
theorem pairwise_enclosingNamespaces (ns : Bytes) :
    (enclosingNamespaces ns).Pairwise fun p q => q.length < p.length := by
  fun_induction enclosingNamespaces ns with
  | case1 => simp
  | case2 ns _ outer h ih =>
    refine List.pairwise_cons.2 ⟨fun p hp => ?_, ih⟩
    have hle := (mem_enclosingNamespaces.1 hp).length_le
    exact Nat.lt_of_le_of_lt hle (Bytes.length_beforeLast?_lt h)
  | case3 ns hns h => simpa [List.length_pos_iff] using hns

end

/-! ## Usings -/

namespace SymbolTable

variable {t : SymbolTable} {name ns : Bytes} {usings : List Bytes} {id : TypeId}

/-- The namespace `u` has a type of that simple name. -/
def Offers (t : SymbolTable) (name u : Bytes) (id : TypeId) : Prop :=
  t.find? (u ++ "." ++ name) = some id

/-- A type belongs to one namespace. -/
theorem Offers.unique {u v : Bytes} (hu : t.Offers name u id) (hv : t.Offers name v id) : u = v := by
  have heq : u ++ "." ++ name = v ++ "." ++ name := by
    rw [← nameOf_of_find? hu, ← nameOf_of_find? hv]
  exact List.append_cancel_right (List.append_cancel_right heq)

theorem viaUsings_concat (t : SymbolTable) (name u : Bytes) (usings : List Bytes) :
    t.viaUsings name (usings ++ [u]) = match t.find? (u ++ "." ++ name) with
      | some id => if (t.viaUsings name usings).any (·.1 = id) then t.viaUsings name usings
        else t.viaUsings name usings ++ [(id, u)]
      | none => t.viaUsings name usings := by
  rw [viaUsings, List.foldl_append]
  rfl

theorem exists_mem_viaUsings {u : Bytes} (hu : u ∈ usings) (h : t.Offers name u id) :
    ∃ v, (id, v) ∈ t.viaUsings name usings := by
  induction usings using List.reverseRecOn with
  | nil => cases hu
  | append_singleton usings w ih =>
    have hkeep : (∃ v, (id, v) ∈ t.viaUsings name usings) →
        ∃ v, (id, v) ∈ t.viaUsings name (usings ++ [w]) := by
      rintro ⟨v, hv⟩
      rw [viaUsings_concat]
      split
      · split
        · exact ⟨v, hv⟩
        · exact ⟨v, List.mem_append_left _ hv⟩
      · exact ⟨v, hv⟩
    rcases List.mem_append.1 hu with hu | hu
    · exact hkeep (ih hu)
    · obtain rfl : u = w := by simpa using hu
      by_cases hany : (t.viaUsings name usings).any (·.1 = id) = true
      · obtain ⟨⟨i, v⟩, hv, hi⟩ := List.any_eq_true.1 hany
        obtain rfl : i = id := by simpa using hi
        exact hkeep ⟨v, hv⟩
      · rw [Offers] at h
        refine ⟨u, ?_⟩
        rw [viaUsings_concat, h]
        simp only [if_neg hany]
        simp

/-- What the usings give a simple name are the types that their namespaces have. -/
theorem mem_viaUsings {u : Bytes} :
    (id, u) ∈ t.viaUsings name usings ↔ u ∈ usings ∧ t.Offers name u id := by
  constructor
  · intro h
    obtain ⟨hfind, hmem⟩ := find?_of_mem_viaUsings h
    exact ⟨hmem, hfind⟩
  · rintro ⟨hmem, hoffers⟩
    obtain ⟨v, hv⟩ := exists_mem_viaUsings hmem hoffers
    obtain rfl := hoffers.unique (find?_of_mem_viaUsings hv).1
    exact hv

/-- Each type is given once. -/
theorem nodup_viaUsings (t : SymbolTable) (name : Bytes) (usings : List Bytes) :
    ((t.viaUsings name usings).map (·.1)).Nodup := by
  induction usings using List.reverseRecOn with
  | nil => simp [viaUsings]
  | append_singleton usings u ih =>
    rw [viaUsings_concat]
    split
    · next id _ =>
      split
      · exact ih
      · next hany =>
        rw [List.map_append, List.nodup_append]
        refine ⟨ih, by simp, fun i hi j hj heq => hany ?_⟩
        obtain ⟨p, hp, rfl⟩ := List.mem_map.1 hi
        obtain rfl : j = id := by simpa using hj
        exact List.any_eq_true.2 ⟨p, hp, by simpa using heq⟩
    · exact ih

end SymbolTable

/-- The outcome when the usings are asked and give these types. -/
def TypeLookup.ofGiven : List (TypeId × Bytes) → TypeLookup
  | [] => {}
  | [(id, u)] => { type := some id, viaUsing := u }
  | (id, u) :: more => { candidates := id :: more.map (·.1), viaUsing := u }

namespace SymbolTable

variable {t : SymbolTable} {name ns : Bytes} {usings : List Bytes}

theorem resolve_eq_ofGiven (t : SymbolTable) (name ns : Bytes) (usings : List Bytes) :
    t.resolve name ns usings =
      match (enclosingNamespaces ns).findSome? fun n => t.find? (TypeSymbol.qualify n name) with
      | some id => { type := some id }
      | none => if Ascii.dot ∈ name then {} else .ofGiven (t.viaUsings name usings) := by
  rw [resolve]
  cases (enclosingNamespaces ns).findSome? fun n => t.find? (TypeSymbol.qualify n name) with
  | some id => rfl
  | none =>
    simp only [List.contains_iff_mem]
    rcases t.viaUsings name usings with _ | ⟨p, _ | ⟨q, more⟩⟩ <;> rfl

/-! ## The rules -/

/-- No enclosing namespace has the name. -/
def Unenclosed (t : SymbolTable) (name ns : Bytes) : Prop :=
  ∀ p, EnclosesNamespace p ns → t.find? (TypeSymbol.qualify p name) = none

/-- The rules of name resolution: the longest enclosing namespace that has the name wins, and only
where there is none the usings are asked, for a name without dots. -/
inductive Resolves (t : SymbolTable) (name ns : Bytes) (usings : List Bytes) : TypeLookup → Prop
  /-- The type of the longest enclosing namespace that has the name. -/
  | enclosing {p : Bytes} {id : TypeId} : EnclosesNamespace p ns →
    t.find? (TypeSymbol.qualify p name) = some id →
    (∀ q, EnclosesNamespace q ns → p.length < q.length → t.find? (TypeSymbol.qualify q name) = none) →
    Resolves t name ns usings { type := some id }
  /-- Usings have no dotted names. -/
  | dotted : t.Unenclosed name ns → Ascii.dot ∈ name → Resolves t name ns usings {}
  /-- No using has the name. -/
  | unknown : t.Unenclosed name ns → Ascii.dot ∉ name →
    (∀ u ∈ usings, ∀ id, ¬ t.Offers name u id) → Resolves t name ns usings {}
  /-- The only type that the usings have, with the using that has it. -/
  | using {u : Bytes} {id : TypeId} : t.Unenclosed name ns → Ascii.dot ∉ name → u ∈ usings →
    t.Offers name u id → (∀ v ∈ usings, ∀ i, t.Offers name v i → i = id) →
    Resolves t name ns usings { type := some id, viaUsing := u }
  /-- All types that the usings have, if there are several. -/
  | ambiguous {ids : List TypeId} {u : Bytes} : t.Unenclosed name ns → Ascii.dot ∉ name →
    1 < ids.length → ids.Nodup → (∀ i, i ∈ ids ↔ ∃ v ∈ usings, t.Offers name v i) →
    Resolves t name ns usings { candidates := ids, viaUsing := u }

theorem resolves_of_unenclosed (h : t.Unenclosed name ns) (hdot : Ascii.dot ∉ name) :
    Resolves t name ns usings (.ofGiven (t.viaUsings name usings)) := by
  cases hvia : t.viaUsings name usings with
  | nil =>
    refine .unknown h hdot fun u hu i hi => ?_
    have hmem := mem_viaUsings.2 ⟨hu, hi⟩
    simp [hvia] at hmem
  | cons p more =>
    obtain ⟨id, u⟩ := p
    cases more with
    | nil =>
      have hmem : (id, u) ∈ t.viaUsings name usings := by simp [hvia]
      obtain ⟨hu, hoffers⟩ := mem_viaUsings.1 hmem
      refine .using h hdot hu hoffers fun v hv i hi => ?_
      have hmem := mem_viaUsings.2 ⟨hv, hi⟩
      simp only [hvia, List.mem_singleton, Prod.mk.injEq] at hmem
      exact hmem.1
    | cons q more =>
      have hnodup := nodup_viaUsings t name usings
      rw [hvia] at hnodup
      refine .ambiguous h hdot (by simp) hnodup fun i => ?_
      rw [← List.map_cons (f := (·.1)) (a := (id, u)), ← hvia, List.mem_map]
      constructor
      · rintro ⟨⟨j, v⟩, hmem, rfl⟩
        exact ⟨v, mem_viaUsings.1 hmem⟩
      · rintro ⟨v, hv, hoffers⟩
        exact ⟨(i, v), mem_viaUsings.2 ⟨hv, hoffers⟩, rfl⟩

/-- A lookup follows the rules. -/
theorem resolves_resolve (t : SymbolTable) (name ns : Bytes) (usings : List Bytes) :
    Resolves t name ns usings (t.resolve name ns usings) := by
  rw [resolve_eq_ofGiven]
  cases hfound : (enclosingNamespaces ns).findSome? fun n => t.find? (TypeSymbol.qualify n name) with
  | some id =>
    obtain ⟨longer, p, shorter, hsplit, hp, hlonger⟩ := List.findSome?_eq_some_iff.1 hfound
    have hpairs := hsplit ▸ pairwise_enclosingNamespaces ns
    refine .enclosing (mem_enclosingNamespaces.1 (by simp [hsplit])) hp fun q hq hlt => ?_
    have hmem := mem_enclosingNamespaces.2 hq
    rw [hsplit, List.mem_append, List.mem_cons] at hmem
    rcases hmem with hmem | rfl | hmem
    · exact hlonger q hmem
    · exact absurd hlt (Nat.lt_irrefl _)
    · have hgt := (List.pairwise_cons.1 (List.pairwise_append.1 hpairs).2.1).1 q hmem
      exact absurd hlt (Nat.lt_asymm hgt)
  | none =>
    have hnone : t.Unenclosed name ns := fun p hp =>
      List.findSome?_eq_none_iff.1 hfound p (mem_enclosingNamespaces.2 hp)
    by_cases hdot : Ascii.dot ∈ name
    · simpa only [if_pos hdot] using Resolves.dotted hnone hdot
    · simpa only [if_neg hdot] using resolves_of_unenclosed hnone hdot

/-! ## The order of usings -/

theorem perm_viaUsings {usings' : List Bytes} (h : ∀ u, u ∈ usings ↔ u ∈ usings') (t : SymbolTable)
    (name : Bytes) : (t.viaUsings name usings).Perm (t.viaUsings name usings') := by
  refine (List.perm_ext_iff_of_nodup (nodup_viaUsings ..).of_map (nodup_viaUsings ..).of_map).2 ?_
  rintro ⟨id, u⟩
  rw [mem_viaUsings, mem_viaUsings, h]

end SymbolTable

/-- Lookups with the same outcome. Of an ambiguous name it is left open which using comes first. -/
structure TypeLookup.Same (l l' : TypeLookup) : Prop where
  type : l.type = l'.type
  found : l.found = l'.found
  ambiguous : l.ambiguous = l'.ambiguous
  candidates : l.candidates.Perm l'.candidates
  viaUsing : l.ambiguous = false → l.viaUsing = l'.viaUsing

theorem TypeLookup.Same.refl (l : TypeLookup) : l.Same l := ⟨rfl, rfl, rfl, .refl _, fun _ => rfl⟩

namespace SymbolTable

variable {t : SymbolTable}

/-- What the usings give makes the same outcome in any order. -/
theorem same_of_perm {given given' : List (TypeId × Bytes)} (h : given.Perm given') :
    (TypeLookup.ofGiven given).Same (.ofGiven given') := by
  match given, given', h with
  | [], _, h =>
    obtain rfl := h.nil_eq
    exact .refl _
  | [p], _, h =>
    obtain rfl := List.singleton_perm.1 h
    exact .refl _
  | _ :: _ :: _, [], h => cases h.length_eq
  | _ :: _ :: _, [_], h => cases h.length_eq
  | (id, u) :: p :: more, (id', u') :: p' :: more', h =>
    have hids := h.map Prod.fst
    simp only [List.map_cons] at hids
    exact ⟨rfl, rfl, by simp [TypeLookup.ofGiven, TypeLookup.ambiguous], hids,
      by simp [TypeLookup.ofGiven, TypeLookup.ambiguous]⟩

/-- Usings count as a set. -/
theorem same_resolve {usings usings' : List Bytes} (h : ∀ u, u ∈ usings ↔ u ∈ usings')
    (t : SymbolTable) (name ns : Bytes) :
    (t.resolve name ns usings).Same (t.resolve name ns usings') := by
  rw [resolve_eq_ofGiven, resolve_eq_ofGiven]
  split
  · exact .refl _
  split
  · exact .refl _
  exact same_of_perm (perm_viaUsings h t name)

/-- A type name is resolved by the rules of `Resolves`, and usings that are named in another order or
more than once make no difference. -/
theorem resolve_follows (t : SymbolTable) (name ns : Bytes) (usings : List Bytes) :
    Resolves t name ns usings (t.resolve name ns usings) ∧
      ∀ usings', (∀ u, u ∈ usings ↔ u ∈ usings') →
        (t.resolve name ns usings).Same (t.resolve name ns usings') :=
  ⟨resolves_resolve t name ns usings, fun _ h => same_resolve h t name ns⟩

/-- Two namespaces that are used have a `List`. -/
def twoLists : SymbolTable :=
  { types := [{ ns := "Core", name := "List" }, { ns := "Kit", name := "List" },
      { ns := "Kit", name := "Button" }] }

/-- A name that both usings have, looked up under the usings in the other order and twice. -/
theorem resolve_follows_ambiguous :
    twoLists.resolve "List" "App.Pages" ["Core", "Kit"] = { candidates := [0, 1], viaUsing := "Core" } ∧
    twoLists.resolve "List" "App.Pages" ["Kit", "Core", "Kit"] =
      { candidates := [1, 0], viaUsing := "Kit" } ∧
    (twoLists.resolve "List" "App.Pages" ["Core", "Kit"]).Same
      (twoLists.resolve "List" "App.Pages" ["Kit", "Core", "Kit"]) :=
  ⟨by decide +kernel, by decide +kernel,
    (resolve_follows twoLists "List" "App.Pages" ["Core", "Kit"]).2 ["Kit", "Core", "Kit"]
      fun u => by simp only [List.mem_cons, List.not_mem_nil]; tauto⟩

end SymbolTable

end ViewCompiler
