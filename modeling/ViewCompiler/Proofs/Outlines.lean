import ViewCompiler.Proofs.BodyTyping
import ViewCompiler.Proofs.Headers
import ViewCompiler.Proofs.RenderAppended
import ViewCompiler.Unit

/-!
What other units see of a unit depends on outlines: neither what the types of a file render nor what
was reported about its text changes the table of an analysis, so units whose files have the same
outlines are the same reference (`CompilationUnit.reference_congr`).
-/

namespace ViewCompiler

/-! ## Outlines -/

namespace SyntaxTree

/-- A file without render blocks and reports. -/
def outline (tree : SyntaxTree) : SyntaxTree :=
  { tree with types := tree.types.map (·.outline), diagnostics := [] }

theorem outline_ofItems (file : Bytes) (items : List Tokens.UnitItem) (ds : List Diagnostic) :
    (ofItems file items ds).outline = ofItems file (items.map (·.outline)) [] := by
  simp only [outline, ofItems, List.filterMap_map, List.map_filterMap, SyntaxTree.mk.injEq]
  refine ⟨trivial, ?_, ?_, ?_, trivial⟩
  · congr 3
    funext i
    cases i <;> rfl
  · congr 1
    funext i
    cases i <;> rfl
  · congr 1
    funext i
    cases i <;> rfl

end SyntaxTree

namespace Declared

/-- A declaration without its render block. -/
def outline (d : Declared) : Declared := { d with decl := d.decl.outline }

end Declared

namespace SymbolTable

variable (t : SymbolTable) (d : Declared)

theorem value_header_outline (type : TypeSymbol) :
    (t.header d.outline type).value = (t.header d type).value := by
  rw [header, header]
  cases hrender : d.decl.render with
  | none =>
    dsimp only [Declared.outline, TypeDecl.outline]
    rfl
  | some block =>
    dsimp only [Declared.outline, TypeDecl.outline]
    by_cases hkind : type.kind = .component
    · cases d.decl.base with
      | none =>
        dsimp only
        split <;> simp only [hkind, ne_eq, not_true_eq_false, if_false]
      | some ref =>
        simp only [hkind, ne_eq, not_true_eq_false, if_false]
        rfl
    · cases d.decl.base with
      | none => simp [hkind]
      | some ref =>
        simp [hkind]
        rfl

theorem breakCycle_outline : (t.breakCycle d.outline).1 = (t.breakCycle d).1 := by
  rw [breakCycle, breakCycle]
  simp only [Declared.outline]
  split <;> rfl

theorem breakCycles_outline (ds : List Declared) :
    (t.breakCycles (ds.map (·.outline))).1 = (t.breakCycles ds).1 := by
  induction ds generalizing t with
  | nil => rfl
  | cons d ds ih =>
    rw [List.map_cons, breakCycles, breakCycles]
    simp only [breakCycle_outline, ih]

end SymbolTable

/-! ## The table of an analysis -/

namespace Analysis

variable {refs : List Reference} {trees trees' : List SyntaxTree}

theorem declarations_outline (first : TypeId) (trees : List SyntaxTree) :
    declarations first (trees.map (·.outline)) = (declarations first trees).map (·.outline) := by
  rw [declarations, declarations, List.zipIdx_map, List.flatMap_map]
  have h : (trees.zipIdx.flatMap fun p => p.1.outline.types.map fun decl =>
      (p.2, p.1.outline.scope, decl)) = (trees.zipIdx.flatMap fun p => p.1.types.map fun decl =>
        (p.2, p.1.scope, decl)).map fun q => (q.1, q.2.1, q.2.2.outline) := by
    rw [List.map_flatMap]
    congr 1
    funext p
    simp [SyntaxTree.outline, SyntaxTree.scope]
  change List.map _ (trees.zipIdx.flatMap fun p => p.1.outline.types.map fun decl =>
    (p.2, p.1.outline.scope, decl)).zipIdx = _
  rw [h, List.zipIdx_map, List.map_map, List.map_map]
  rfl

theorem declared_outline :
    declared refs (trees.map (·.outline)) = (declared refs trees).map (·.outline) :=
  declarations_outline _ trees

theorem announced_outline : announced refs (trees.map (·.outline)) = announced refs trees := by
  have h : (announced refs (trees.map (·.outline))).types = (announced refs trees).types := by
    rw [announced_types, announced_types, declared_outline, List.map_map]
    rfl
  exact congrArg SymbolTable.mk h

theorem headed_outline : headed refs (trees.map (·.outline)) = headed refs trees := by
  simp only [headed, SymbolTable.headers, announced_outline, declared_outline, List.map_map,
    SymbolTable.mk.injEq, List.append_cancel_left_eq]
  congr 1
  funext d
  exact SymbolTable.value_header_outline _ d _

theorem table_outline :
    (Model.analyze refs (trees.map (·.outline))).table = (Model.analyze refs trees).table := by
  rw [analyze_table, analyze_table, headed_outline, declared_outline, SymbolTable.breakCycles_outline]

/-- The symbols of the declared types stand in the table. -/
theorem declared_eq : (Model.analyze refs trees).declared =
    (declared refs trees).filterMap fun d => (Model.analyze refs trees).table.get? d.id := by
  rw [Model.declared, analyze_types, List.filterMap_map]
  congr 1
  funext d
  simp

theorem declared_congr (h : trees.map (·.outline) = trees'.map (·.outline)) :
    (Model.analyze refs trees).declared = (Model.analyze refs trees').declared := by
  have outlined (trees : List SyntaxTree) : (Model.analyze refs trees).declared =
      (declared refs (trees.map (·.outline))).filterMap fun d =>
        (Model.analyze refs (trees.map (·.outline))).table.get? d.id := by
    rw [declared_eq, declared_outline, table_outline, List.filterMap_map]
    rfl
  rw [outlined, outlined, h]

end Analysis

namespace CompilationUnit

/-- Units whose files have the same outlines are the same reference. -/
theorem reference_congr {u u' : CompilationUnit} (hrefs : u.references = u'.references)
    (hoptions : u.options = u'.options)
    (htrees : u.trees.map (·.outline) = u'.trees.map (·.outline)) : u.reference = u'.reference := by
  rw [reference, reference, model, model, hrefs, hoptions, Analysis.declared_congr htrees]

end CompilationUnit

end ViewCompiler
