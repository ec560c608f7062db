import ViewCompiler.Proofs.ErrorCodes
import ViewCompiler.Proofs.FileOrder
import ViewCompiler.Proofs.NameResolution
import ViewCompiler.Proofs.NotedFindings
import ViewCompiler.Proofs.UniqueNames

/-!
What is reported as unused. An analysis without errors over closed references reports, beyond what the
files tell, the fields that nothing reads and the usings that no written type is found through, and
nothing else (`Model.unused_reported`). Each field is reported at most once.

A field is known by the type that declares it and its position there: a field of the same name in a
derived type is another one, and what a derived type reads of its base counts for the base.
-/

namespace ViewCompiler

/-! ## Types that are found through a using -/

namespace SymbolTable

variable {t : SymbolTable} {scope : FileScope} {ref : TypeRef} {u : Bytes}

/-- The written type is found in the namespace `u` of a using: it is not built in, and the rules of
name resolution give it through `u`. -/
def FoundThrough (t : SymbolTable) (scope : FileScope) (ref : TypeRef) (u : Bytes) : Prop :=
  isBuiltinType ref.name = false ∧ u ≠ [] ∧
    ∃ id, t.Resolves ref.name scope.ns scope.usings { type := some id, viaUsing := u }

/-- The rules leave no choice where they give a type through a using. -/
theorem Resolves.resolve_eq {name ns : Bytes} {usings : List Bytes} {id : TypeId}
    (h : t.Resolves name ns usings { type := some id, viaUsing := u }) (hu : u ≠ []) :
    t.resolve name ns usings = { type := some id, viaUsing := u } := by
  cases h with
  | enclosing => exact absurd rfl hu
  | «using» hfree hdot hmem hoffers honly =>
    have hlookup := t.resolves_resolve name ns usings
    generalize t.resolve name ns usings = lookup at hlookup
    cases hlookup with
    | enclosing hp hfind => rw [hfree _ hp] at hfind; cases hfind
    | dotted _ hdotted => exact absurd hdotted hdot
    | unknown _ _ hnone => exact absurd hoffers (hnone u hmem id)
    | «using» _ _ hmem' hoffers' =>
      obtain rfl := honly _ hmem' _ hoffers'
      rw [hoffers'.unique hoffers]
    | @ambiguous ids _ _ _ hlen hnodup hids =>
      -- All of the candidates are the one type, so there cannot be two.
      have hall : ∀ i ∈ ids, i = id := fun i hi => by
        obtain ⟨v, hv, hi⟩ := (hids i).1 hi
        exact honly v hv i hi
      have hsub : ids ⊆ [id] := fun i hi => List.mem_singleton.2 (hall i hi)
      exact absurd (hnodup.length_le_of_subset hsub) (Nat.not_le_of_lt hlen)

theorem mem_neededBy : u ∈ t.neededBy scope ref ↔ t.FoundThrough scope ref u := by
  rw [neededBy, FoundThrough]
  cases isBuiltinType ref.name with
  | true => simp
  | false =>
    simp only [Bool.false_eq_true, if_false, true_and, usingOf]
    constructor
    · intro h
      split at h
      · next hfound =>
        obtain rfl := List.mem_singleton.1 h
        obtain ⟨id, hid⟩ := Option.isSome_iff_exists.1 hfound.1
        have hlookup := t.resolves_resolve ref.name scope.ns scope.usings
        have heq : t.resolve ref.name scope.ns scope.usings = { type := some id, viaUsing :=
            (t.resolve ref.name scope.ns scope.usings).viaUsing } := by
          rw [← hid, ← candidates_of_resolve hid]
        exact ⟨hfound.2, id, heq ▸ hlookup⟩
      · cases h
    · rintro ⟨hu, id, hid⟩
      simp [hid.resolve_eq hu, hu]

instance : Decidable (t.FoundThrough scope ref u) := decidable_of_iff _ mem_neededBy

/-- Only the names of the types matter. -/
theorem neededBy_congr {t' : SymbolTable} (h : ∀ name, t.find? name = t'.find? name)
    (scope : FileScope) (ref : TypeRef) : t.neededBy scope ref = t'.neededBy scope ref := by
  have hfind : t.find? = t'.find? := funext h
  rw [neededBy, neededBy, usingOf, usingOf, resolve, resolve, viaUsings, viaUsings, hfind]

end SymbolTable

/-! ## Declared fields -/

namespace Declared

/-- The fields of a declaration, each with the identity of the member. -/
def fields (d : Declared) : List (MemberId × DataMember) :=
  (d.decl.members.zipIdx.filter (·.1.kind = .field)).map fun p => ({ owner := d.id, index := p.2 }, p.1)

/-- The warning that a field is never read. -/
def neverRead (d : Declared) (m : DataMember) : Diagnostic :=
  SemanticError.diagnostic d.scope.file m.span
    (.neverRead (SymbolTable.announced d.scope d.decl).fullName m.name)

variable {d : Declared} {id : MemberId} {m : DataMember}

theorem mem_fields : (id, m) ∈ d.fields ↔
    id.owner = d.id ∧ d.decl.members[id.index]? = some m ∧ m.kind = .field := by
  simp only [fields, List.mem_map, List.mem_filter, List.mem_zipIdx_iff_getElem?, Prod.mk.injEq,
    decide_eq_true_eq, Prod.exists]
  constructor
  · rintro ⟨m, index, ⟨hm, hkind⟩, rfl, rfl⟩
    exact ⟨rfl, hm, hkind⟩
  · rintro ⟨howner, hm, hkind⟩
    exact ⟨m, id.index, ⟨hm, hkind⟩, by rw [← howner], rfl⟩

theorem nodup_fields (d : Declared) : (d.fields.map (·.1)).Nodup := by
  have hfields : (d.fields.map (·.1)).Sublist
      (d.decl.members.zipIdx.map fun p => { owner := d.id, index := p.2 }) := by
    rw [fields, List.map_map]
    exact List.filter_sublist.map _
  have hindices : d.decl.members.zipIdx.map (fun p => MemberId.mk d.id p.2) =
      (List.range d.decl.members.length).map (MemberId.mk d.id) := by
    rw [List.range_eq_range', ← List.zipIdx_map_snd 0 d.decl.members, List.map_map]
    rfl
  refine hfields.nodup ?_
  rw [hindices]
  exact List.nodup_range.map fun i j heq => congrArg MemberId.index heq

end Declared

namespace SyntaxTree

/-- The usings of a file that no type written in the file is found through. -/
def unneeded (tree : SyntaxTree) (t : SymbolTable) : List Using :=
  tree.usings.filter fun u => ¬ ∃ ref ∈ tree.typeRefs, t.FoundThrough tree.scope ref u.ns

/-- The report that a using is unnecessary. -/
def unnecessary (tree : SyntaxTree) (u : Using) : Diagnostic :=
  SemanticError.diagnostic tree.file u.span (.unnecessaryUsing u.ns)

theorem unusedUsings_eq {tree : SyntaxTree} {t : SymbolTable} {needed : List Bytes}
    (h : ∀ ns, ns ∈ needed ↔ ∃ ref ∈ tree.typeRefs, t.FoundThrough tree.scope ref ns) :
    tree.unusedUsings needed = (tree.unneeded t).map tree.unnecessary := by
  rw [unusedUsings, unneeded, ← List.filterMap_eq_map, List.filterMap_filter]
  refine List.filterMap_congr fun u _ => ?_
  by_cases hneeded : u.ns ∈ needed
  · simp [hneeded, ← h]
  · simp [hneeded, ← h, unnecessary]

end SyntaxTree

theorem filterMap_zip_zipIdx {α β γ : Type} {f : α × Nat → Option γ} {g : (α × β) × Nat → Option γ}
    {xs : List α} {ys : List β} (h : List.Forall₂ (fun x y => ∀ i, g ((x, y), i) = f (x, i)) xs ys)
    (k : Nat) : ((xs.zip ys).zipIdx k).filterMap g = (xs.zipIdx k).filterMap f := by
  induction h generalizing k with
  | nil => rfl
  | cons hxy _ ih =>
    simp only [List.zip_cons_cons, List.zipIdx_cons, List.filterMap_cons, hxy, ih]

namespace SymbolTable

/-- The warnings about a declared type whose symbol has the members of its declaration. -/
theorem unreadFields_of_members {t : SymbolTable} {d : Declared} {s : TypeSymbol}
    (hs : t.get? d.id = some s) (hname : s.fullName = (announced d.scope d.decl).fullName)
    (hmembers : s.members.map (fun m => (m.kind, m.name)) =
      d.decl.members.map fun m => (m.kind, m.name)) (reads : List MemberId) :
    t.unreadFields reads d = (d.fields.filter fun f => f.1 ∉ reads).map fun f => d.neverRead f.2 := by
  have hpairs : List.Forall₂ (fun (m : DataMember) (s : MemberSymbol) =>
      (m.kind, m.name) = (s.kind, s.name)) d.decl.members s.members := by
    rw [eq_comm, ← List.forall₂_eq_eq_eq] at hmembers
    exact List.forall₂_map_right_iff.1 (List.forall₂_map_left_iff.1 hmembers)
  rw [unreadFields, hs, Declared.fields, ← List.filterMap_eq_map, List.filterMap_filter,
    List.filterMap_map, List.filterMap_filter]
  dsimp only
  rw [hname]
  refine filterMap_zip_zipIdx (hpairs.imp fun m s h index => ?_) 0
  obtain ⟨hkind, hname⟩ := Prod.mk.inj h
  by_cases hfield : m.kind = .field <;>
    by_cases hread : { owner := d.id, index } ∈ reads <;>
      simp [← hkind, ← hname, hfield, hread, Declared.neverRead]

end SymbolTable

/-! ## Errors of the other passes -/

namespace SymbolTable

theorem isError_announceAll {t : SymbolTable} {ds : List Declared} :
    ∀ r ∈ (t.announceAll ds).2, r.isError = true := by
  intro r hr
  obtain ⟨d, -, _, rfl | rfl, rfl⟩ := exists_of_mem_announceAll hr
  · rfl
  · rfl

theorem isError_breakCycles {t : SymbolTable} {ds : List Declared} :
    ∀ r ∈ (t.breakCycles ds).2, r.isError = true := by
  intro r hr
  obtain ⟨d, -, _, _, _, rfl⟩ := exists_of_mem_breakCycles hr
  rfl

end SymbolTable

theorem Diagnostic.eq_nil_of_not_hasErrors {ds : List Diagnostic} (hall : ∀ d ∈ ds, d.isError = true)
    (h : hasErrors ds = false) : ds = [] := by
  refine List.eq_nil_iff_forall_not_mem.2 fun d hd => ?_
  exact List.any_eq_false.1 h d hd (hall d hd)

namespace Analysis

variable {refs : List Reference} {trees : List SyntaxTree}

section
variable (hrefs : Reference.Closed refs) (h : (Model.analyze refs trees).hasErrors = false)
include hrefs h

/-- Without an error, all that is found about a declared type are the usings that its types need and
the members that it reads. -/
theorem findings_of_not_hasErrors {d : Declared} (hd : d ∈ declared refs trees) :
    let m := Model.analyze refs trees
    (headerOf refs trees d).findings = { usings := d.decl.headerRefs.flatMap (m.table.neededBy d.scope) } ∧
    (m.table.body d).findings =
      { usings := (d.decl.render.toList.flatMap (fun block =>
          RenderOp.allComponents block.ops)).flatMap (m.table.neededBy d.scope)
        reads := (m.table.body d).value.reads } := by
  have hclean := clean_of_not_hasErrors h
  have hclosed : (Model.analyze refs trees).table.Closed := by
    refine closed_table hrefs fun d hd => ?_
    simpa [get?_announced hd] using (hclean d hd).1
  obtain ⟨symbol, hsymbol, -⟩ := exists_symbol hd
  have hneeded : (announced refs trees).neededBy d.scope =
      (Model.analyze refs trees).table.neededBy d.scope :=
    funext (SymbolTable.neededBy_congr (fun name => (find?_table name).symm) d.scope)
  constructor
  · rw [← hneeded]
    exact SymbolTable.findings_header (hclean d hd).1
  · have hbody := (hclean d hd).2
    exact hbody.notes_eq.symm.trans (SymbolTable.notes_body hclosed hsymbol hbody)

/-- What is found about the declared types, in headers and bodies together. -/
theorem map_findings : (((declared refs trees).map (headerOf refs trees)).zip
      ((declared refs trees).map (Model.analyze refs trees).table.body)).map
        (fun p => p.1.findings ++ p.2.findings) =
    (declared refs trees).map fun d =>
      ⟨[], d.decl.typeRefs.flatMap ((Model.analyze refs trees).table.neededBy d.scope),
        ((Model.analyze refs trees).table.body d).value.reads⟩ := by
  rw [List.zip_map', List.map_map]
  refine List.map_congr_left fun d hd => ?_
  obtain ⟨hheader, hbody⟩ := findings_of_not_hasErrors hrefs h hd
  rw [Function.comp_apply, hheader, hbody, TypeDecl.typeRefs, List.flatMap_append]
  rfl

end

/-- Passes that report nothing. -/
theorem flatMap_diagnostics_eq_nil {α : Type} {ds : List Declared} {f : Declared → Checked α}
    (h : ∀ d ∈ ds, (f d).findings.reports = []) :
    (ds.zip (ds.map f)).flatMap (fun p => p.2.findings.diagnostics p.1.scope.file) = [] := by
  rw [flatMap_zip_map, List.flatMap_eq_nil_iff]
  intro d hd
  rw [Findings.diagnostics, h d hd]
  rfl

/-- The warnings about a declared type, whatever is read. -/
theorem unreadFields_eq_map {d : Declared} (hd : d ∈ declared refs trees) (reads : List MemberId) :
    (Model.analyze refs trees).table.unreadFields reads d =
      (d.fields.filter fun f => f.1 ∉ reads).map fun f => d.neverRead f.2 := by
  obtain ⟨s, hs, hmembers⟩ := exists_members hd
  obtain ⟨s', hs', hface, -⟩ := exists_symbol hd
  cases hs.symm.trans hs'
  exact SymbolTable.unreadFields_of_members hs (Prod.mk.inj hface).1 hmembers reads

/-- The usings that the declarations with the number of a file need are those that the file needs. -/
theorem mem_needed {t : SymbolTable} {tree : SyntaxTree} {i : Nat} (htree : trees[i]? = some tree)
    (ns : Bytes) :
    (ns ∈ (declared refs trees).flatMap fun d =>
      if d.tree = i then d.decl.typeRefs.flatMap (t.neededBy d.scope) else []) ↔
      ∃ ref ∈ tree.typeRefs, t.FoundThrough tree.scope ref ns := by
  simp only [List.mem_flatMap, SyntaxTree.typeRefs]
  constructor
  · rintro ⟨d, hd, hns⟩
    split at hns
    · next hi =>
      obtain ⟨hscope, hdecl⟩ := (exists_declared_iff htree).1 ⟨d, hd, hi, rfl, rfl⟩
      obtain ⟨ref, href, hns⟩ := List.mem_flatMap.1 hns
      exact ⟨ref, ⟨d.decl, hdecl, href⟩, hscope ▸ SymbolTable.mem_neededBy.1 hns⟩
    · cases hns
  · rintro ⟨ref, ⟨decl, hdecl, href⟩, hfound⟩
    obtain ⟨d, hd, hi, hscope, rfl⟩ := (exists_declared_iff htree).2 ⟨rfl, hdecl⟩
    refine ⟨d, hd, ?_⟩
    rw [if_pos hi, hscope]
    exact List.mem_flatMap.2 ⟨ref, href, SymbolTable.mem_neededBy.2 hfound⟩

/-- What is reported of the usings when the needed ones are collected file by file. -/
theorem flatMap_unneeded {t : SymbolTable} {needed : SyntaxTree × Nat → List Bytes}
    (h : ∀ p ∈ trees.zipIdx, ∀ ns,
      ns ∈ needed p ↔ ∃ ref ∈ p.1.typeRefs, t.FoundThrough p.1.scope ref ns) :
    trees.zipIdx.flatMap (fun p => p.1.unusedUsings (needed p)) =
      trees.flatMap fun tree => (tree.unneeded t).map tree.unnecessary := by
  rw [← flatMap_zipIdx_fst trees]
  exact List.flatMap_congr fun p hp => SyntaxTree.unusedUsings_eq (h p hp)

/-- Without an error, an analysis reports what the files tell and what is unused. -/
theorem diagnostics_of_not_hasErrors (hrefs : Reference.Closed refs)
    (h : (Model.analyze refs trees).hasErrors = false) :
    (Model.analyze refs trees).diagnostics = trees.flatMap (·.diagnostics) ++
      ((declared refs trees).flatMap fun d =>
        (d.fields.filter fun f => f.1 ∉ (Model.analyze refs trees).reads).map fun f => d.neverRead f.2) ++
      trees.flatMap fun tree =>
        (tree.unneeded (Model.analyze refs trees).table).map tree.unnecessary := by
  obtain ⟨table, reports, hbroken⟩ : ∃ table reports,
    (headed refs trees).breakCycles (declared refs trees) = (table, reports) := ⟨_, _, rfl⟩
  have hanalyze := analyze_of_breakCycles hbroken
  obtain rfl : (Model.analyze refs trees).table = table := congrArg Model.table hanalyze
  have hdiagnostics := congrArg Model.diagnostics hanalyze
  have herrors := h
  rw [Model.hasErrors, hdiagnostics] at herrors
  simp only [hasErrors_append, Bool.or_eq_false_iff] at herrors
  obtain ⟨⟨⟨⟨⟨⟨-, hannounced⟩, -⟩, hcycles⟩, -⟩, -⟩, -⟩ := herrors
  have hbreaks : ∀ r ∈ reports, r.isError = true := by
    intro r hr
    have hmem : r ∈ ((headed refs trees).breakCycles (declared refs trees)).2 := by rwa [hbroken]
    exact SymbolTable.isError_breakCycles r hmem
  have hfindings := fun d => @findings_of_not_hasErrors refs trees hrefs h d
  have hreads : (Model.analyze refs trees).reads = (declared refs trees).flatMap fun d =>
      ((Model.analyze refs trees).table.body d).value.reads := by
    rw [Model.reads, analyze_types, List.flatMap_map]
  have hunread := List.flatMap_congr fun d (hd : d ∈ declared refs trees) =>
    unreadFields_eq_map hd (Model.analyze refs trees).reads
  rw [hdiagnostics]
  dsimp only
  rw [Diagnostic.eq_nil_of_not_hasErrors SymbolTable.isError_announceAll hannounced,
    Diagnostic.eq_nil_of_not_hasErrors hbreaks hcycles,
    flatMap_diagnostics_eq_nil fun d hd => congrArg Findings.reports (hfindings d hd).1,
    flatMap_diagnostics_eq_nil fun d hd => congrArg Findings.reports (hfindings d hd).2,
    map_findings hrefs h, List.flatMap_map, ← hreads, hunread]
  simp only [List.append_nil]
  congr 1
  refine flatMap_unneeded fun p hp ns => ?_
  rw [flatMap_zip_map]
  exact mem_needed (List.mem_zipIdx_iff_getElem?.1 hp) ns

/-- The identities of the declared fields. -/
def fieldIds (refs : List Reference) (trees : List SyntaxTree) : List MemberId :=
  (declared refs trees).flatMap fun d => d.fields.map (·.1)

theorem nodup_fieldIds (refs : List Reference) (trees : List SyntaxTree) :
    (fieldIds refs trees).Nodup := by
  rw [fieldIds, List.nodup_flatMap]
  refine ⟨fun d _ => d.nodup_fields, ?_⟩
  refine (List.pairwise_map.1 (nodup_ids refs trees)).imp fun {d e} hne id hd he => hne ?_
  obtain ⟨p, hp, rfl⟩ := List.mem_map.1 hd
  obtain ⟨q, hq, heq⟩ := List.mem_map.1 he
  rw [← (Declared.mem_fields.1 hp).1, ← heq, (Declared.mem_fields.1 hq).1]

/-- The declared fields are the fields of the types that the unit declares. -/
theorem mem_fieldIds {id : MemberId} : id ∈ fieldIds refs trees ↔
      (Model.analyze refs trees).declares id.owner = true ∧
        ((Model.analyze refs trees).table.member? id).map (·.kind) = some .field := by
  have hkind {d : Declared} (hd : d ∈ declared refs trees) (howner : d.id = id.owner) :
      ((Model.analyze refs trees).table.member? id).map (·.kind) =
        d.decl.members[id.index]?.map (·.kind) := by
    obtain ⟨s, hs, hmembers⟩ := exists_members hd
    have hmember := congrArg (fun ms => ms[id.index]?.map Prod.fst) hmembers
    simp only [List.getElem?_map, Option.map_map, Function.comp_def] at hmember
    rw [SymbolTable.member?, ← howner, hs]
    exact hmember
  have hdeclares : (Model.analyze refs trees).declares id.owner = true ↔
      ∃ d ∈ declared refs trees, d.id = id.owner := by
    simp [Model.declares, analyze_types]
  rw [hdeclares, fieldIds, List.mem_flatMap]
  constructor
  · rintro ⟨d, hd, hid⟩
    obtain ⟨⟨_, m⟩, hm, rfl⟩ := List.mem_map.1 hid
    obtain ⟨howner, hm, hfield⟩ := Declared.mem_fields.1 hm
    refine ⟨⟨d, hd, howner.symm⟩, ?_⟩
    rw [hkind hd howner.symm, hm, Option.map_some, hfield]
  · rintro ⟨⟨d, hd, howner⟩, hfield⟩
    rw [hkind hd howner] at hfield
    obtain ⟨m, hm, hfield⟩ := Option.map_eq_some_iff.1 hfield
    exact ⟨d, hd, List.mem_map.2 ⟨(id, m), Declared.mem_fields.2 ⟨howner.symm, hm, hfield⟩, rfl⟩⟩

/-- Files that were read tell errors only. -/
theorem flatMap_told_eq_nil
    (htrees : ∀ tree ∈ trees, ∃ source file, tree = SyntaxTree.parse source file)
    (h : (Model.analyze refs trees).hasErrors = false) : trees.flatMap (·.diagnostics) = [] := by
  refine Diagnostic.eq_nil_of_not_hasErrors ?_ ?_
  · intro r hr
    obtain ⟨tree, htree, hr⟩ := List.mem_flatMap.1 hr
    obtain ⟨source, file, rfl⟩ := htrees tree htree
    exact (SyntaxTree.report_of_mem_parse hr).1
  · rw [Model.hasErrors] at h
    simp only [Model.analyze, hasErrors_append, Bool.or_eq_false_iff] at h
    exact h.1.1.1.1.1.1

end Analysis

open Analysis (fieldIds) in
/-- What is reported as unused is unused, and all of it. Over closed references and without an error,
an analysis reports what the files tell, which is nothing for files that were read, then each field of
a declared type that no bound name, receiver or callback of any declared type means, and last each
using that no type written in its file is found through. A field is reported once, since the declared
fields are distinct, and they are the fields of the types that the unit declares. -/
theorem Model.unused_reported {refs : List Reference} {trees : List SyntaxTree}
    (hrefs : Reference.Closed refs) (h : (Model.analyze refs trees).hasErrors = false) :
    let m := Model.analyze refs trees
    m.diagnostics = trees.flatMap (·.diagnostics) ++
      ((Analysis.declared refs trees).flatMap fun d =>
        (d.fields.filter fun f => f.1 ∉ m.reads).map fun f => d.neverRead f.2) ++
      (trees.flatMap fun tree => (tree.unneeded m.table).map tree.unnecessary) ∧
    ((∀ tree ∈ trees, ∃ source file, tree = SyntaxTree.parse source file) →
      trees.flatMap (·.diagnostics) = []) ∧
    (fieldIds refs trees).Nodup ∧
    ∀ id, id ∈ fieldIds refs trees ↔
      m.declares id.owner = true ∧ (m.table.member? id).map (·.kind) = some .field :=
  ⟨Analysis.diagnostics_of_not_hasErrors hrefs h, fun htrees => Analysis.flatMap_told_eq_nil htrees h,
    Analysis.nodup_fieldIds refs trees, fun _ => Analysis.mem_fieldIds⟩

/-- A base and a type that is derived from it. The derived type reads the spare level of the base and
has a level of its own, which it only sets. -/
def gaugeFile : SyntaxTree := .parse
  "namespace Core; class Gauge { field int level; field int spare; }" "gauge.il"

def tankFile : SyntaxTree := .parse
  "using Core; using Web; namespace App;
  class Tank : Gauge {
    field int level; field callback full;
    method Fill(int n) { level = n; if (n > spare) { full(); } }
  }" "tank.il"

theorem Model.unused_reported_tank :
    Reference.Closed [] ∧ (Model.analyze [] [gaugeFile, tankFile]).hasErrors = false ∧
      (Model.analyze [] [gaugeFile, tankFile]).diagnostics.map (·.message) =
        ["The field 'Core.Gauge.level' is never read", "The field 'App.Tank.level' is never read",
          "Using directive 'Web' is unnecessary"] := by
  have hrefs : Reference.Closed [] := by decide +kernel
  have hmodel : (Model.analyze [] [gaugeFile, tankFile]).hasErrors = false := by
    rw [gaugeFile, tankFile]
    repeat rw [Bytes.ofString_ofList]
    decide +kernel
  obtain ⟨hdiagnostics, -⟩ := Model.unused_reported hrefs hmodel
  refine ⟨hrefs, hmodel, ?_⟩
  rw [hdiagnostics, gaugeFile, tankFile]
  repeat rw [Bytes.ofString_ofList]
  decide +kernel

end ViewCompiler
