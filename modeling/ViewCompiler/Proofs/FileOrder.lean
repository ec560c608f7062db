import Mathlib.Data.List.Nodup
import ViewCompiler.Ast.Parse
import ViewCompiler.Proofs.RelabelledBodies

/-!
The order of files. If the declared types have full names of their own and are on no cycle of bases,
a unit of the same files in another order is the same but for the positions of its types
(`Analysis.rearranges_analyze`): what is reported, the symbols and all bindings.
-/

namespace ViewCompiler

open Relation (TransGen)

/-! ## Positions -/

/-- Where the type at a position is found when names stand in another order. The positions before
the first of them are kept. -/
def reposition (first : Nat) (names names' : List Bytes) (id : Nat) : Nat :=
  if id < first then id
  else match names[id - first]? with
    | some name => first + names'.idxOf name
    | none => id

section
variable {first : Nat} {names names' : List Bytes}

theorem reposition_of_lt {id : Nat} (h : id < first) : reposition first names names' id = id :=
  if_pos h

theorem reposition_add {k : Nat} {name : Bytes} (h : names[k]? = some name) :
    reposition first names names' (first + k) = first + names'.idxOf name := by
  rw [reposition, if_neg (Nat.not_lt.2 (Nat.le_add_right _ _)), Nat.add_sub_cancel_left, h]

theorem reposition_of_le {id : Nat} (h : first + names.length ≤ id) :
    reposition first names names' id = id := by
  rw [reposition, if_neg (by omega), List.getElem?_eq_none (by omega)]

/-- Every position is one of those that are kept, or that of a name. -/
theorem position_cases (first : Nat) (names : List Bytes) (id : Nat) :
    id < first ∨ first + names.length ≤ id ∨ ∃ k name, id = first + k ∧ names[k]? = some name := by
  by_cases hlt : id < first
  · exact .inl hlt
  · by_cases hle : first + names.length ≤ id
    · exact .inr (.inl hle)
    · have hk : id - first < names.length := by omega
      exact .inr (.inr ⟨id - first, names[id - first], by omega, List.getElem?_eq_getElem hk⟩)

theorem idxOf?_of_mem {name : Bytes} (h : name ∈ names) :
    names.idxOf? name = some (names.idxOf name) := by
  obtain ⟨k, hk⟩ := Option.isSome_iff_exists.1 (List.isSome_idxOf?.2 h)
  rw [List.idxOf_eq_getD_idxOf?, hk, Option.getD_some]

theorem reposition_injective (hperm : names.Perm names') (hnodup : names.Nodup) :
    Function.Injective (reposition first names names') := by
  have hlength := hperm.length_eq
  have hnamed {k : Nat} {name : Bytes} (h : names[k]? = some name) :
      names'.idxOf name < names'.length :=
    List.idxOf_lt_length_of_mem (hperm.subset (List.mem_of_getElem? h))
  intro a b heq
  rcases position_cases first names a with ha | ha | ⟨k, name, rfl, hk⟩
  · rw [reposition_of_lt ha] at heq
    rcases position_cases first names b with hb | hb | ⟨j, name', rfl, hj⟩
    · rwa [reposition_of_lt hb] at heq
    · rwa [reposition_of_le hb] at heq
    · rw [reposition_add hj] at heq
      omega
  · rw [reposition_of_le ha] at heq
    rcases position_cases first names b with hb | hb | ⟨j, name', rfl, hj⟩
    · rwa [reposition_of_lt hb] at heq
    · rwa [reposition_of_le hb] at heq
    · have := hnamed hj
      rw [reposition_add hj] at heq
      omega
  · have hlt := hnamed hk
    rw [reposition_add hk] at heq
    rcases position_cases first names b with hb | hb | ⟨j, name', rfl, hj⟩
    · rw [reposition_of_lt hb] at heq
      omega
    · rw [reposition_of_le hb] at heq
      omega
    · rw [reposition_add hj] at heq
      have hname : name = name' :=
        (List.idxOf_inj (hperm.subset (List.mem_of_getElem? hk))).1 (Nat.add_left_cancel heq)
      have hlen : k < names.length := (List.getElem?_eq_some_iff.1 hk).1
      rw [(List.getElem?_inj hlen hnodup).1 (hk.trans (hname ▸ hj.symm))]

end

namespace SymbolTable

/-- Where the name of a type is found that is behind others. -/
theorem find?_append_eq (types ss : List TypeSymbol) (name : Bytes) :
    find? { types := types ++ ss } name =
      (find? { types } name).or (((ss.map (·.fullName)).idxOf? name).map (types.length + ·)) := by
  have hidx : ss.findIdx? (·.fullName = name) = (ss.map (·.fullName)).idxOf? name := by
    rw [List.idxOf?, List.findIdx?_map]
    simp only [Function.comp_def, beq_eq_decide]
  rw [find?, find?, List.findIdx?_append, hidx]
  simp only [Nat.add_comm]

/-- Types with different names, put behind others in any order. -/
theorem relabels_of_perm (types : List TypeSymbol) {ss ss' : List TypeSymbol} (hperm : ss.Perm ss')
    (hnodup : (ss.map (·.fullName)).Nodup) :
    Relabels (reposition types.length (ss.map (·.fullName)) (ss'.map (·.fullName)))
      { types := types ++ ss } { types := types ++ ss' } where
  injective := reposition_injective (hperm.map _) hnodup
  length_eq := by rw [List.length_append, List.length_append, hperm.length_eq]
  get?_eq id := by
    have hnodup' := (hperm.map (·.fullName)).nodup_iff.1 hnodup
    rcases position_cases types.length (ss.map (·.fullName)) id with hid | hid | ⟨k, name, rfl, hk⟩
    · rw [reposition_of_lt hid, get?, get?, List.getElem?_append_left hid,
        List.getElem?_append_left hid]
    · rw [reposition_of_le hid]
      rw [List.length_map] at hid
      have hlength := hperm.length_eq
      rw [get?, get?, List.getElem?_eq_none (by simp; omega), List.getElem?_eq_none (by simp; omega)]
    · rw [reposition_add hk, get?, get?, List.getElem?_append_right (Nat.le_add_right _ _),
        List.getElem?_append_right (Nat.le_add_right _ _), Nat.add_sub_cancel_left,
        Nat.add_sub_cancel_left]
      rw [List.getElem?_map, Option.map_eq_some_iff] at hk
      obtain ⟨s, hs, rfl⟩ := hk
      obtain ⟨j, hj⟩ := List.getElem?_of_mem (hperm.subset (List.mem_of_getElem? hs))
      have hname : (ss'.map (·.fullName))[j]? = some s.fullName := by rw [List.getElem?_map, hj]; rfl
      have hindex : (ss'.map (·.fullName)).idxOf s.fullName = j := by
        obtain ⟨hlt, hget⟩ := List.getElem?_eq_some_iff.1 hname
        rw [← hget]
        exact List.get_idxOf hnodup' ⟨j, hlt⟩
      rw [hindex, hj, hs]
  find?_eq name := by
    rw [find?_append_eq, find?_append_eq]
    cases hfind : find? { types } name with
    | some id =>
      obtain ⟨_, hget, -⟩ := get?_of_find? hfind
      rw [Option.some_or, Option.some_or, Option.map_some, reposition_of_lt (lt_of_get? hget)]
    | none =>
      rw [Option.none_or, Option.none_or]
      by_cases hname : name ∈ ss.map (·.fullName)
      · have hname' := (hperm.map (·.fullName)).subset hname
        rw [idxOf?_of_mem hname, idxOf?_of_mem hname', Option.map_some, Option.map_some, Option.map_some,
          reposition_add (List.getElem?_idxOf hname)]
      · have hname' := fun h => hname ((hperm.map (·.fullName)).symm.subset h)
        rw [List.idxOf?_eq_none_iff.2 hname, List.idxOf?_eq_none_iff.2 hname']
        rfl

end SymbolTable

/-! ## Declarations and their places -/

namespace Analysis

/-- The declarations of some files, each with what surrounds it. -/
def written (trees : List SyntaxTree) : List (FileScope × TypeDecl) :=
  trees.flatMap fun tree => tree.types.map fun decl => (tree.scope, decl)

/-- The full names of the declared types. -/
def names (trees : List SyntaxTree) : List Bytes :=
  (written trees).map fun p => (SymbolTable.announced p.1 p.2).fullName

/-- A declaration at the position of its name. The number of its file does not matter here. -/
def place (refs : List Reference) (trees : List SyntaxTree) (p : FileScope × TypeDecl) : Declared where
  tree := 0
  scope := p.1
  decl := p.2
  id := (SymbolTable.ofReferences refs).types.length +
    (names trees).idxOf (SymbolTable.announced p.1 p.2).fullName

variable {refs : List Reference} {trees trees' : List SyntaxTree}

theorem written_perm (hperm : trees.Perm trees') : (written trees).Perm (written trees') :=
  hperm.flatMap_right _

theorem names_perm (hperm : trees.Perm trees') : (names trees).Perm (names trees') :=
  (written_perm hperm).map _

/-- The declarations are those of the files, with the number of the file. -/
theorem map_declarations_tree (first : TypeId) (trees : List SyntaxTree) :
    (declarations first trees).map (fun d => (d.tree, d.scope, d.decl)) =
      trees.zipIdx.flatMap fun (tree, i) => tree.types.map fun decl => (i, tree.scope, decl) := by
  rw [declarations, List.map_map]
  exact List.zipIdx_map_fst 0 _

theorem map_declarations (first : TypeId) (trees : List SyntaxTree) :
    (declarations first trees).map (fun d => (d.scope, d.decl)) = written trees := by
  have hsnd := congrArg (List.map Prod.snd) (map_declarations_tree first trees)
  rw [List.map_map, List.map_flatMap] at hsnd
  have hwritten : written trees = (trees.zipIdx.map Prod.fst).flatMap fun tree =>
      tree.types.map fun decl => (tree.scope, decl) := by
    rw [List.zipIdx_map_fst]
    rfl
  rw [hwritten, List.flatMap_map]
  simp only [List.map_map] at hsnd
  exact hsnd

/-- A file has the declarations that have its number. -/
theorem exists_declared_iff {refs : List Reference} {tree : SyntaxTree} {i : Nat}
    (h : trees[i]? = some tree) {scope : FileScope} {decl : TypeDecl} :
    (∃ d ∈ declared refs trees, d.tree = i ∧ d.scope = scope ∧ d.decl = decl) ↔
      scope = tree.scope ∧ decl ∈ tree.types := by
  have hmem : (∃ d ∈ declared refs trees, d.tree = i ∧ d.scope = scope ∧ d.decl = decl) ↔
      (i, scope, decl) ∈ (declared refs trees).map fun d => (d.tree, d.scope, d.decl) := by
    simp only [List.mem_map, Prod.mk.injEq]
  rw [hmem, declared, map_declarations_tree]
  simp only [List.mem_flatMap, List.mem_map, Prod.exists, Prod.mk.injEq, List.mem_zipIdx_iff_getElem?]
  constructor
  · rintro ⟨tree', _, htree, decl', hdecl, rfl, rfl, rfl⟩
    cases htree.symm.trans h
    exact ⟨rfl, hdecl⟩
  · rintro ⟨rfl, hdecl⟩
    exact ⟨tree, i, h, decl, hdecl, rfl, rfl, rfl⟩

/-- A declaration is at the position of its name. -/
theorem place_eq (hnames : (names trees).Nodup) {d : Declared} (hd : d ∈ declared refs trees) :
    place refs trees (d.scope, d.decl) = { d with tree := 0 } := by
  obtain ⟨k, hk⟩ := List.getElem?_of_mem hd
  have hname : (names trees)[k]? = some (SymbolTable.announced d.scope d.decl).fullName := by
    rw [names, ← map_declarations (SymbolTable.ofReferences refs).types.length, List.getElem?_map,
      List.getElem?_map, ← declared, hk]
    rfl
  obtain ⟨hlt, hget⟩ := List.getElem?_eq_some_iff.1 hname
  have hindex : (names trees).idxOf (SymbolTable.announced d.scope d.decl).fullName = k := by
    rw [← hget]
    exact List.get_idxOf hnames ⟨k, hlt⟩
  rw [place, hindex, ← id_of_getElem? hk]

/-- Whatever does not depend on the number of a file is the same for the placed declarations. -/
theorem map_declared {α : Type} (hnames : (names trees).Nodup) (f : Declared → α)
    (hf : ∀ d, f { d with tree := 0 } = f d) :
    (declared refs trees).map f = (written trees).map fun p => f (place refs trees p) := by
  rw [← map_declarations (SymbolTable.ofReferences refs).types.length, List.map_map]
  refine List.map_congr_left fun d hd => ?_
  rw [Function.comp_apply, place_eq hnames hd, hf]

/-- Where a declared type is when the files stand in another order. -/
def moved (refs : List Reference) (trees trees' : List SyntaxTree) : TypeId → TypeId :=
  reposition (SymbolTable.ofReferences refs).types.length (names trees) (names trees')

theorem relabels_place (trees' : List SyntaxTree) {p : FileScope × TypeDecl} (hp : p ∈ written trees) :
    (place refs trees p).Relabels (moved refs trees trees') (place refs trees' p) where
  scope_eq := rfl
  decl_eq := rfl
  id_eq := by
    have hmem : (SymbolTable.announced p.1 p.2).fullName ∈ names trees := List.mem_map_of_mem hp
    exact (reposition_add (List.getElem?_idxOf hmem)).symm

/-- What corresponds for each declaration stands in another order. -/
theorem perm_map_declared {α : Type} (hperm : trees.Perm trees') (hnames : (names trees).Nodup)
    {f f' : Declared → α} (hf : ∀ d, f { d with tree := 0 } = f d)
    (hf' : ∀ d, f' { d with tree := 0 } = f' d)
    (h : ∀ d d' : Declared, d.Relabels (moved refs trees trees') d' → f' d' = f d) :
    ((declared refs trees).map f).Perm ((declared refs trees').map f') := by
  have hnames' : (names trees').Nodup := (names_perm hperm).nodup_iff.1 hnames
  have hsame : (written trees).map (fun p => f (place refs trees p)) =
      (written trees).map fun p => f' (place refs trees' p) :=
    List.map_congr_left fun p hp => (h _ _ (relabels_place trees' hp)).symm
  rw [map_declared hnames f hf, map_declared hnames' f' hf', hsame]
  exact (written_perm hperm).map _

theorem perm_flatMap_declared {α : Type} (hperm : trees.Perm trees') (hnames : (names trees).Nodup)
    {f f' : Declared → List α} (hf : ∀ d, f { d with tree := 0 } = f d)
    (hf' : ∀ d, f' { d with tree := 0 } = f' d)
    (h : ∀ d d' : Declared, d.Relabels (moved refs trees trees') d' → f' d' = f d) :
    ((declared refs trees).flatMap f).Perm ((declared refs trees').flatMap f') := by
  rw [List.flatMap_def, List.flatMap_def]
  exact (perm_map_declared hperm hnames hf hf' h).flatten

/-! ## Tables -/

open SymbolTable

theorem map_announced (refs : List Reference) (trees : List SyntaxTree) :
    (declared refs trees).map (fun d => SymbolTable.announced d.scope d.decl) =
      (written trees).map fun p => SymbolTable.announced p.1 p.2 := by
  rw [← map_declarations (ofReferences refs).types.length, List.map_map]
  rfl

theorem announced_eq (refs : List Reference) (trees : List SyntaxTree) : announced refs trees =
    { types := (ofReferences refs).types ++
        (written trees).map fun p => SymbolTable.announced p.1 p.2 } := by
  rw [← map_announced refs]
  exact congrArg mk announced_types

/-- What the header of a declaration says. -/
def headerOf (refs : List Reference) (trees : List SyntaxTree) (d : Declared) :
    Checked TypeSymbol :=
  (announced refs trees).header d (((announced refs trees).get? d.id).getD default)

theorem headed_eq (refs : List Reference) (trees : List SyntaxTree) : headed refs trees =
    { types := (ofReferences refs).types ++
        (declared refs trees).map fun d => (headerOf refs trees d).value } := by
  rw [headed, headers, List.map_map]
  rfl

/-- A header keeps the name of its declaration. -/
theorem map_headerOf (refs : List Reference) (trees : List SyntaxTree) :
    ((declared refs trees).map fun d => (headerOf refs trees d).value).map (·.fullName) =
      names trees := by
  have hnames : (headed refs trees).types.map (·.fullName) =
      (announced refs trees).types.map (·.fullName) := names_of_faces faces_headed
  rw [headed_eq, announced_eq, List.map_append, List.map_append] at hnames
  rw [List.append_cancel_left hnames, List.map_map]
  rfl

section
variable (hperm : trees.Perm trees') (hnames : (names trees).Nodup)
include hperm hnames

theorem relabels_announced :
    (announced refs trees).Relabels (moved refs trees trees') (announced refs trees') := by
  have hss := (written_perm hperm).map fun p => SymbolTable.announced p.1 p.2
  have hrelabels := relabels_of_perm (ofReferences refs).types hss (by rwa [List.map_map])
  rw [List.map_map, List.map_map] at hrelabels
  rw [announced_eq, announced_eq]
  exact hrelabels

theorem headerOf_eq {d d' : Declared} (hd : d.Relabels (moved refs trees trees') d') :
    headerOf refs trees' d' = (headerOf refs trees d).relabel (moved refs trees trees') := by
  have h : (announced refs trees).Relabels (moved refs trees trees') (announced refs trees') :=
    relabels_announced hperm hnames
  rw [headerOf, hd.id_eq, h.get?_eq, h.header_eq hd]
  rfl

theorem relabels_headed :
    (headed refs trees).Relabels (moved refs trees trees') (headed refs trees') := by
  have hss : ((declared refs trees).map fun d => (headerOf refs trees d).value).Perm
      ((declared refs trees').map fun d => (headerOf refs trees' d).value) := by
    refine perm_map_declared hperm hnames (fun _ => rfl) (fun _ => rfl) fun d d' hd => ?_
    rw [headerOf_eq hperm hnames hd]
    rfl
  have hrelabels := relabels_of_perm (ofReferences refs).types hss (by rwa [map_headerOf])
  rw [map_headerOf, map_headerOf] at hrelabels
  rw [headed_eq, headed_eq]
  exact hrelabels

end

/-! ## Cycles -/

end Analysis

namespace SymbolTable

variable {t : SymbolTable}

/-- Without cycles none is broken. -/
theorem breakCycles_of_returns? {ds : List Declared} (h : ∀ d ∈ ds, t.returns? d.id = none) :
    t.breakCycles ds = (t, []) := by
  induction ds with
  | nil => rfl
  | cons d ds ih =>
    have hbroken : t.breakCycle d = (t, []) := by
      rw [breakCycle, h d List.mem_cons_self]
    rw [breakCycles, hbroken]
    dsimp only
    rw [ih fun e he => h e (List.mem_cons_of_mem _ he)]
    rfl

/-- What is said of a type whose name is announced does not depend on types of other names. -/
theorem announceAll_eq_flatMap {ds : List Declared}
    (hnames : (ds.map fun d => (announced d.scope d.decl).fullName).Nodup) :
    (t.announceAll ds).2 = ds.flatMap fun d => (t.announce d).2 := by
  induction ds generalizing t with
  | nil => rfl
  | cons d ds ih =>
    obtain ⟨hfresh, hnodup⟩ := List.nodup_cons.1 hnames
    have hother : ∀ e ∈ ds,
        ((t.push (announced d.scope d.decl)).announce e).2 = (t.announce e).2 := by
      intro e he
      have hne : (announced d.scope d.decl).fullName ≠ (announced e.scope e.decl).fullName :=
        fun heq => hfresh (List.mem_map.2 ⟨e, he, heq.symm⟩)
      have hfind : ((t.push (announced d.scope d.decl)).find?
          (announced e.scope e.decl).fullName).isSome =
            (t.find? (announced e.scope e.decl).fullName).isSome := by
        rw [push, find?, find?, List.findIdx?_isSome, List.findIdx?_isSome, List.any_append]
        simp [hne]
      rw [announce, announce, hfind]
    rw [announceAll, List.flatMap_cons]
    dsimp only
    rw [show (t.announce d).1 = t.push (announced d.scope d.decl) from rfl, ih hnodup,
      List.flatMap_congr hother]

end SymbolTable

namespace Analysis

variable {refs : List Reference} {trees trees' : List SyntaxTree}

/-! ## Reports -/

/-- What the declaration and the body of a type find. -/
def findingsOf (refs : List Reference) (trees : List SyntaxTree) (d : Declared) : Findings :=
  (headerOf refs trees d).findings ++ ((headed refs trees).body d).findings

/-- The members that are read in the unit. -/
def readsOf (refs : List Reference) (trees : List SyntaxTree) : List MemberId :=
  (declared refs trees).flatMap fun d => (findingsOf refs trees d).reads

/-- The usings that are needed in the file of that number. -/
def neededOf (refs : List Reference) (trees : List SyntaxTree) (tree : Nat) : List Bytes :=
  (declared refs trees).flatMap fun d =>
    if d.tree = tree then (findingsOf refs trees d).usings else []

theorem flatMap_zip_map {α β γ : Type} (xs : List α) (f : α → β) (g : α × β → List γ) :
    (xs.zip (xs.map f)).flatMap g = xs.flatMap fun x => g (x, f x) := by
  induction xs with
  | nil => rfl
  | cons x xs ih => rw [List.map_cons, List.zip_cons_cons, List.flatMap_cons, List.flatMap_cons, ih]

/-- The passes of an analysis, over the table that is left when cycles are broken. -/
theorem analyze_of_breakCycles {table : SymbolTable} {reports : List Diagnostic}
    (hbroken : (headed refs trees).breakCycles (declared refs trees) = (table, reports)) :
    Model.analyze refs trees =
      let ds := declared refs trees
      let headers := ds.map (headerOf refs trees)
      let bodies := ds.map table.body
      let findings := (headers.zip bodies).map fun p => p.1.findings ++ p.2.findings
      { table
        types := bodies.map (·.value)
        treeCount := trees.length
        diagnostics := trees.flatMap (·.diagnostics)
          ++ ((SymbolTable.ofReferences refs).announceAll ds).2
          ++ (ds.zip headers).flatMap (fun p => p.2.findings.diagnostics p.1.scope.file)
          ++ reports
          ++ (ds.zip bodies).flatMap (fun p => p.2.findings.diagnostics p.1.scope.file)
          ++ ds.flatMap (table.unreadFields (findings.flatMap (·.reads)))
          ++ trees.zipIdx.flatMap fun p => p.1.unusedUsings
            ((ds.zip findings).flatMap fun q => if q.1.tree = p.2 then q.2.usings else []) } := by
  obtain rfl : _ = table := congrArg Prod.fst hbroken
  obtain rfl : _ = reports := congrArg Prod.snd hbroken
  rfl

/-- The passes of an analysis in which no cycle is broken. -/
theorem analyze_eq (h : ∀ d ∈ declared refs trees, (headed refs trees).returns? d.id = none) :
    Model.analyze refs trees =
      { table := headed refs trees
        types := (declared refs trees).map fun d => ((headed refs trees).body d).value
        treeCount := trees.length
        diagnostics := trees.flatMap (·.diagnostics)
          ++ ((SymbolTable.ofReferences refs).announceAll (declared refs trees)).2
          ++ ((declared refs trees).flatMap fun d =>
            (headerOf refs trees d).findings.diagnostics d.scope.file)
          ++ ((declared refs trees).flatMap fun d =>
            ((headed refs trees).body d).findings.diagnostics d.scope.file)
          ++ (declared refs trees).flatMap ((headed refs trees).unreadFields (readsOf refs trees))
          ++ trees.zipIdx.flatMap fun p => p.1.unusedUsings (neededOf refs trees p.2) } := by
  have hfindings : (((declared refs trees).map (headerOf refs trees)).zip
      ((declared refs trees).map (headed refs trees).body)).map
        (fun p => p.1.findings ++ p.2.findings) =
      (declared refs trees).map (findingsOf refs trees) := by
    rw [List.zip_map', List.map_map]
    rfl
  rw [analyze_of_breakCycles (SymbolTable.breakCycles_of_returns? h)]
  dsimp only
  rw [hfindings, List.map_map, List.append_nil, flatMap_zip_map, flatMap_zip_map, List.flatMap_map]
  simp only [flatMap_zip_map]
  rfl

/-- The usings that are needed in a file. -/
def usedBy (refs : List Reference) (trees : List SyntaxTree) (tree : SyntaxTree) : List Bytes :=
  tree.types.flatMap fun decl => (findingsOf refs trees (place refs trees (tree.scope, decl))).usings

theorem mem_neededOf (hnames : (names trees).Nodup) {tree : SyntaxTree} {i : Nat}
    (h : trees[i]? = some tree) (ns : Bytes) :
    ns ∈ neededOf refs trees i ↔ ns ∈ usedBy refs trees tree := by
  simp only [neededOf, usedBy, List.mem_flatMap]
  constructor
  · rintro ⟨d, hd, hns⟩
    split at hns
    · next hi =>
      obtain ⟨hscope, hdecl⟩ := (exists_declared_iff h).1 ⟨d, hd, hi, rfl, rfl⟩
      refine ⟨d.decl, hdecl, ?_⟩
      rw [← hscope, place_eq hnames hd]
      exact hns
    · cases hns
  · rintro ⟨decl, hdecl, hns⟩
    obtain ⟨d, hd, hi, hscope, rfl⟩ : ∃ d ∈ declared refs trees,
        d.tree = i ∧ d.scope = tree.scope ∧ d.decl = decl := (exists_declared_iff h).2 ⟨rfl, hdecl⟩
    refine ⟨d, hd, ?_⟩
    rw [← hscope, place_eq hnames hd] at hns
    rw [if_pos hi]
    exact hns

theorem unusedUsings_congr (tree : SyntaxTree) {xs ys : List Bytes} (h : ∀ ns, ns ∈ xs ↔ ns ∈ ys) :
    tree.unusedUsings xs = tree.unusedUsings ys := by
  simp only [SyntaxTree.unusedUsings, h]

theorem flatMap_zipIdx_fst {α β : Type} (xs : List α) (f : α → List β) :
    (xs.zipIdx.flatMap fun p => f p.1) = xs.flatMap f := by
  have hzip : (xs.zipIdx.map Prod.fst).flatMap f = xs.flatMap f := by
    rw [List.zipIdx_map_fst]
  rw [← hzip, List.flatMap_map]

/-- What is said of the usings of a file does not depend on its number. -/
theorem flatMap_unusedUsings (hnames : (names trees).Nodup) :
    (trees.zipIdx.flatMap fun p => p.1.unusedUsings (neededOf refs trees p.2)) =
      trees.flatMap fun tree => tree.unusedUsings (usedBy refs trees tree) := by
  rw [← flatMap_zipIdx_fst trees fun tree => tree.unusedUsings (usedBy refs trees tree)]
  refine List.flatMap_congr fun p hp => ?_
  exact unusedUsings_congr p.1 (mem_neededOf hnames (List.mem_zipIdx_iff_getElem?.1 hp))

section
variable (hperm : trees.Perm trees') (hnames : (names trees).Nodup)
include hperm hnames

theorem body_eq {d d' : Declared} (hd : d.Relabels (moved refs trees trees') d') :
    (headed refs trees').body d' = BoundType.relabel (moved refs trees trees') <$>
      ((headed refs trees).body d).relabel (moved refs trees trees') :=
  (relabels_headed hperm hnames).body_eq hd

theorem findingsOf_eq {d d' : Declared} (hd : d.Relabels (moved refs trees trees') d') :
    findingsOf refs trees' d' = (findingsOf refs trees d).relabel (moved refs trees trees') := by
  rw [findingsOf, findingsOf, headerOf_eq hperm hnames hd, body_eq hperm hnames hd,
    Findings.relabel_append]
  exact congrArg (_ ++ ·) (Checked.findings_map _ _)

theorem readsOf_perm : ((readsOf refs trees).map (·.relabel (moved refs trees trees'))).Perm
    (readsOf refs trees') := by
  rw [readsOf, List.map_flatMap]
  refine perm_flatMap_declared hperm hnames (fun _ => rfl) (fun _ => rfl) fun d d' hd => ?_
  rw [findingsOf_eq hperm hnames hd]
  rfl

theorem unreadFields_eq {d d' : Declared} (hd : d.Relabels (moved refs trees trees') d') :
    (headed refs trees').unreadFields (readsOf refs trees') d' =
      (headed refs trees).unreadFields (readsOf refs trees) d := by
  have h : (headed refs trees).Relabels (moved refs trees trees') (headed refs trees') :=
    relabels_headed hperm hnames
  have hreads (index : Nat) :
      { owner := moved refs trees trees' d.id, index } ∈ readsOf refs trees' ↔
        { owner := d.id, index } ∈ readsOf refs trees := by
    let field : MemberId := { owner := d.id, index }
    have hfield : field.relabel (moved refs trees trees') ∈
        (readsOf refs trees).map (·.relabel (moved refs trees trees')) ↔
          field ∈ readsOf refs trees :=
      List.mem_map_of_injective (MemberId.relabel_injective h.injective)
    rw [← (readsOf_perm hperm hnames).mem_iff]
    exact hfield
  rw [SymbolTable.unreadFields, SymbolTable.unreadFields, hd.id_eq, hd.decl_eq, hd.scope_eq, h.get?_eq]
  simp only [hreads]

theorem usedBy_eq {tree : SyntaxTree} (htree : tree ∈ trees) :
    usedBy refs trees' tree = usedBy refs trees tree := by
  refine List.flatMap_congr fun decl hdecl => ?_
  have hmem : (tree.scope, decl) ∈ written trees :=
    List.mem_flatMap.2 ⟨tree, htree, List.mem_map_of_mem hdecl⟩
  rw [findingsOf_eq hperm hnames (relabels_place trees' hmem)]
  rfl

theorem returns?_headed (h : ∀ d ∈ declared refs trees, (headed refs trees).returns? d.id = none) :
    ∀ d ∈ declared refs trees', (headed refs trees').returns? d.id = none := by
  have hreturns : ((declared refs trees).map fun d => ((headed refs trees).returns? d.id).isSome).Perm
      ((declared refs trees').map fun d => ((headed refs trees').returns? d.id).isSome) := by
    refine perm_map_declared hperm hnames (fun _ => rfl) (fun _ => rfl) fun d d' hd => ?_
    rw [hd.id_eq, (relabels_headed hperm hnames).returns?_eq, Option.isSome_map]
  intro d' hd'
  obtain ⟨d, hd, hsame⟩ := List.mem_map.1 (hreturns.symm.subset (List.mem_map_of_mem hd'))
  rw [h d hd] at hsame
  exact Option.isNone_iff_eq_none.1 (by simpa using hsame.symm)

theorem announceAll_perm :
    ((SymbolTable.ofReferences refs).announceAll (declared refs trees)).2.Perm
      ((SymbolTable.ofReferences refs).announceAll (declared refs trees')).2 := by
  have hfull (trees : List SyntaxTree) : ((declared refs trees).map fun d =>
      (SymbolTable.announced d.scope d.decl).fullName) = names trees := by
    have hmap := congrArg (List.map (·.fullName)) (map_announced refs trees)
    rw [List.map_map, List.map_map] at hmap
    exact hmap
  have hnames' := (names_perm hperm).nodup_iff.1 hnames
  rw [SymbolTable.announceAll_eq_flatMap (by rwa [hfull]),
    SymbolTable.announceAll_eq_flatMap (by rwa [hfull])]
  refine perm_flatMap_declared hperm hnames (fun _ => rfl) (fun _ => rfl) fun d d' hd => ?_
  rw [SymbolTable.announce, SymbolTable.announce, hd.scope_eq, hd.decl_eq]

/-- A declaration is among those of the files in the other order. -/
theorem exists_relabels {d : Declared} (hd : d ∈ declared refs trees) :
    ∃ d' ∈ declared refs trees', d.Relabels (moved refs trees trees') d' := by
  have hnames' := (names_perm hperm).nodup_iff.1 hnames
  have hp : (d.scope, d.decl) ∈ written trees := by
    rw [← map_declarations (SymbolTable.ofReferences refs).types.length]
    exact List.mem_map_of_mem hd
  have hp' := (written_perm hperm).subset hp
  rw [← map_declarations (SymbolTable.ofReferences refs).types.length] at hp'
  obtain ⟨d', hd', heq⟩ := List.mem_map.1 hp'
  have hplaced : (place refs trees (d.scope, d.decl)).Relabels (moved refs trees trees')
      (place refs trees' (d.scope, d.decl)) := relabels_place trees' hp
  rw [place_eq hnames hd, ← heq, place_eq hnames' hd'] at hplaced
  obtain ⟨hscope, hdecl⟩ := Prod.mk.inj heq
  exact ⟨d', hd', hscope, hdecl, hplaced.id_eq⟩

end

end Analysis

/-! ## Other orders -/

/-- The same model with its types in another order: the same symbols at the other positions, the same
bindings and the same reports. -/
structure Model.Rearranges (σ : TypeId → TypeId) (m m' : Model) : Prop where
  table : m.table.Relabels σ m'.table
  types : (m.types.map (·.relabel σ)).Perm m'.types
  treeCount : m.treeCount = m'.treeCount
  diagnostics : m.diagnostics.Perm m'.diagnostics

namespace Analysis

/-- The order of files does not matter: when the declared types have different full names and no
declared type is on a cycle of bases, the files in another order give the same model, but for the
positions of the declared types. What a report says and where is the same, the symbol of a
declaration is the same, and whatever a body is bound to is the same. A declared type may have the
name of a type of the references. -/
theorem rearranges_analyze {refs : List Reference} {trees trees' : List SyntaxTree}
    (hperm : trees.Perm trees') (hnames : (names trees).Nodup)
    (hacyclic : ∀ d ∈ declared refs trees, ¬ TransGen (headed refs trees).Extends d.id d.id) :
    ∃ σ : TypeId → TypeId, (Model.analyze refs trees).Rearranges σ (Model.analyze refs trees') ∧
      (∀ id < (SymbolTable.ofReferences refs).types.length, σ id = id) ∧
      ∀ d ∈ declared refs trees, ∃ d' ∈ declared refs trees', d.Relabels σ d' := by
  have hnames' : (names trees').Nodup := (names_perm hperm).nodup_iff.1 hnames
  have hreturns : ∀ d ∈ declared refs trees, (headed refs trees).returns? d.id = none :=
    fun d hd => SymbolTable.returns?_of_not_cyclic (hacyclic d hd)
  refine ⟨moved refs trees trees', ?_, fun id hid => reposition_of_lt hid,
    fun d hd => exists_relabels hperm hnames hd⟩
  rw [analyze_eq hreturns, analyze_eq (returns?_headed hperm hnames hreturns)]
  refine ⟨relabels_headed hperm hnames, ?_, hperm.length_eq, ?_⟩
  · rw [List.map_map]
    refine perm_map_declared hperm hnames (fun _ => rfl) (fun _ => rfl) fun d d' hd => ?_
    rw [body_eq hperm hnames hd]
    rfl
  · rw [flatMap_unusedUsings hnames, flatMap_unusedUsings hnames']
    refine List.Perm.append (List.Perm.append (List.Perm.append (List.Perm.append
      (List.Perm.append ?_ ?_) ?_) ?_) ?_) ?_
    · exact hperm.flatMap_right _
    · exact announceAll_perm hperm hnames
    · refine perm_flatMap_declared hperm hnames (fun _ => rfl) (fun _ => rfl) fun d d' hd => ?_
      rw [headerOf_eq hperm hnames hd, hd.scope_eq]
      rfl
    · refine perm_flatMap_declared hperm hnames (fun _ => rfl) (fun _ => rfl) fun d d' hd => ?_
      rw [body_eq hperm hnames hd, hd.scope_eq, Checked.findings_map]
      rfl
    · refine perm_flatMap_declared hperm hnames (fun _ => rfl) (fun _ => rfl) fun d d' hd => ?_
      exact unreadFields_eq hperm hnames hd
    · have hused : trees.flatMap (fun tree => tree.unusedUsings (usedBy refs trees tree)) =
          trees.flatMap fun tree => tree.unusedUsings (usedBy refs trees' tree) :=
        List.flatMap_congr fun tree htree => by rw [usedBy_eq hperm hnames htree]
      rw [hused]
      exact hperm.flatMap_right _

/-- Two files that refer to each other. -/
def pageFile : SyntaxTree := .parse
  "using Kit; namespace App;
  component Page : Panel {
    render { component Panel { attr Title = Title; } component Frame { } }
  }" "Page.il"

def panelFile : SyntaxTree := .parse
  "using Web; namespace Kit;
  component Panel { param string Title; field int count; }
  component Frame { render { component App.Page { } } }" "Panel.il"

theorem rearranges_analyze_page :
    [pageFile, panelFile].Perm [panelFile, pageFile] ∧ (names [pageFile, panelFile]).Nodup ∧
      (∀ d ∈ declared [] [pageFile, panelFile],
        ¬ TransGen (headed [] [pageFile, panelFile]).Extends d.id d.id) ∧
      ∃ σ : TypeId → TypeId,
        (Model.analyze [] [pageFile, panelFile]).Rearranges σ
          (Model.analyze [] [panelFile, pageFile]) ∧ σ 0 = 2 := by
  have hperm : [pageFile, panelFile].Perm [panelFile, pageFile] := .swap ..
  obtain ⟨hnames, hacyclic, hfirst, hlast⟩ : (names [pageFile, panelFile]).Nodup ∧
      (∀ d ∈ declared [] [pageFile, panelFile],
        (headed [] [pageFile, panelFile]).returns? d.id = none) ∧
      (Model.analyze [] [pageFile, panelFile]).table.find? "App.Page" = some 0 ∧
      (Model.analyze [] [panelFile, pageFile]).table.find? "App.Page" = some 2 := by
    rw [pageFile, panelFile, Bytes.ofString_ofList, Bytes.ofString_ofList]
    decide +kernel
  have hcycles := fun d hd => SymbolTable.not_cyclic_of_returns? (hacyclic d hd)
  obtain ⟨σ, hσ, -, -⟩ := rearranges_analyze hperm hnames hcycles
  have hfind := hσ.table.find?_eq "App.Page"
  rw [hfirst, hlast] at hfind
  exact ⟨hperm, hnames, hcycles, σ, hσ, (Option.some.inj hfind).symm⟩

end Analysis

end ViewCompiler
