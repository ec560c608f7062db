import ViewCompiler.Model.Body

/-!
The analysis of a unit: declarations, headers, circular bases, bodies, and last what is unused.
Diagnostics come in that order, after those of the syntax trees.
-/

namespace ViewCompiler

namespace SymbolTable

/-- Resolves the headers of all declared types against the announced names. -/
def headers (t : SymbolTable) (ds : List Declared) : List (Checked TypeSymbol) :=
  ds.map fun d => t.header d ((t.get? d.id).getD default)

/-- Warns of the fields of a declared type that are never read. -/
def unreadFields (t : SymbolTable) (reads : List MemberId) (d : Declared) : List Diagnostic :=
  match t.get? d.id with
  | none => []
  | some type =>
    (d.decl.members.zip type.members).zipIdx.filterMap fun ((m, s), index) =>
      if s.kind = .field ∧ { owner := d.id, index } ∉ reads then
        some (SemanticError.diagnostic d.scope.file m.span (.neverRead type.fullName s.name))
      else none

end SymbolTable

namespace SyntaxTree

/-- Notes the using directives of a file that were not needed. -/
def unusedUsings (tree : SyntaxTree) (needed : List Bytes) : List Diagnostic :=
  tree.usings.filterMap fun u =>
    if u.ns ∈ needed then none
    else some (SemanticError.diagnostic tree.file u.span (.unnecessaryUsing u.ns))

end SyntaxTree

namespace Model

/-- Analyses syntax trees against references. -/
def analyze (refs : List Reference) (trees : List SyntaxTree) : Model :=
  let known := SymbolTable.ofReferences refs
  let ds := declarations known.types.length trees
  let (announced, announceReports) := known.announceAll ds
  let headers := announced.headers ds
  let headed : SymbolTable := { types := known.types ++ headers.map (·.value) }
  let (table, cycleReports) := headed.breakCycles ds
  let bodies := ds.map table.body
  let findings := (headers.zip bodies).map fun (h, b) => h.findings ++ b.findings
  let reads := findings.flatMap (·.reads)
  let needed (tree : Nat) : List Bytes :=
    (ds.zip findings).flatMap fun (d, f) => if d.tree = tree then f.usings else []
  let reports {α : Type} (cs : List (Checked α)) : List Diagnostic :=
    (ds.zip cs).flatMap fun (d, c) => c.findings.diagnostics d.scope.file
  { table
    types := bodies.map (·.value)
    treeCount := trees.length
    diagnostics :=
      trees.flatMap (·.diagnostics) ++ announceReports ++ reports headers ++ cycleReports
        ++ reports bodies ++ ds.flatMap (table.unreadFields reads)
        ++ trees.zipIdx.flatMap fun (tree, i) => tree.unusedUsings (needed i) }

end Model

end ViewCompiler
