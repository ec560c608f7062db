import ViewCompiler.Model.Finding

/-!
Declaring the types of a unit: registering their names, resolving what their headers mention and
breaking circular bases. After that the table of the unit is complete.
-/

namespace ViewCompiler

/-- Where type names of a file are looked up. -/
structure FileScope where
  file : Bytes
  ns : Bytes
  usings : List Bytes
deriving DecidableEq, Repr, Inhabited

namespace SyntaxTree

def scope (tree : SyntaxTree) : FileScope where
  file := tree.file
  ns := tree.ns
  usings := tree.usings.map (·.ns)

end SyntaxTree

/-- A declaration with the file that holds it (`tree` is the position of the file) and its place
in the table. -/
structure Declared where
  tree : Nat
  scope : FileScope
  decl : TypeDecl
  id : TypeId
deriving Inhabited

namespace SymbolTable

/-! ## Type names -/

/-- The type that a name means in a file. -/
def resolveType (t : SymbolTable) (scope : FileScope) (name : Bytes) (span : Span) :
    Checked (Option TypeId) :=
  let lookup := t.resolve name scope.ns scope.usings
  match lookup.candidates with
  | first :: second :: _ => do
    .report span (.ambiguousType name (t.nameOf first) (t.nameOf second))
    pure none
  | _ =>
    match lookup.type with
    | none => do
      .report span (.typeNotFound name)
      pure none
    | some id => do
      if lookup.viaUsing ≠ [] then .needs lookup.viaUsing
      pure (some id)

/-- The canonical name of a written type, empty after a report. -/
def resolveRef (t : SymbolTable) (scope : FileScope) (ref : TypeRef) : Checked Bytes :=
  if isBuiltinType ref.name then pure ref.name
  else do
    let id ← t.resolveType scope ref.name ref.span
    pure ((id.map t.nameOf).getD [])

/-! ## Headers -/

/-- The symbols of data members. `seen` are the names declared before. -/
def headerMembers (t : SymbolTable) (scope : FileScope) (type : Bytes) (seen : List Bytes) :
    List DataMember → Checked (List MemberSymbol)
  | [] => pure []
  | m :: ms => do
    if m.name ∈ seen then .report m.span (.duplicateMember type m.name)
    let canonical ← t.resolveRef scope m.type
    if m.kind = .inject ∧ isBuiltinType canonical then
      .report m.type.span (.injectedBuiltin m.name)
    let others ← t.headerMembers scope type (m.name :: seen) ms
    pure ({ kind := m.kind, name := m.name, type := canonical } :: others)

/-- The canonical types of parameters. `seen` are the names declared before. -/
def headerParams (t : SymbolTable) (scope : FileScope) (seen : List Bytes) :
    List Parameter → Checked (List Bytes)
  | [] => pure []
  | p :: ps => do
    if p.name ∈ seen then .report p.span (.duplicateParameter p.name)
    let canonical ← t.resolveRef scope p.type
    let others ← t.headerParams scope (p.name :: seen) ps
    pure (canonical :: others)

/-- The symbols of methods, which share the names of the data members. -/
def headerMethods (t : SymbolTable) (scope : FileScope) (type : Bytes) (seen : List Bytes) :
    List MethodDecl → Checked (List MethodSymbol)
  | [] => pure []
  | m :: ms => do
    if m.name ∈ seen then .report m.span (.duplicateMember type m.name)
    let paramTypes ← t.headerParams scope [] m.params
    let others ← t.headerMethods scope type (m.name :: seen) ms
    pure ({ name := m.name, paramTypes, paramNames := m.params.map (·.name) } :: others)

/-- The base of components that name none, when the unit can see it. -/
def defaultComponentBase : Bytes := "Framework.Components.ComponentBase"

/-- The full name of a declared base, empty after a report. -/
def headerBase (t : SymbolTable) (d : Declared) (type : TypeSymbol) (ref : TypeRef) :
    Checked Bytes :=
  if isBuiltinType ref.name then do
    .report ref.span (.builtinBase ref.name)
    pure []
  else do
    match ← t.resolveType d.scope ref.name ref.span with
    | none => pure []
    | some base =>
      if base = d.id then
        .report ref.span (.ownBase type.fullName)
        pure []
      else if ((t.get? base).map (·.kind)).getD .cls ≠ type.kind then
        .report ref.span (.baseOfOtherKind type.name (t.nameOf base) type.kind)
        pure []
      else pure (t.nameOf base)

/-- The symbol of a declaration with everything its header says. -/
def header (t : SymbolTable) (d : Declared) (type : TypeSymbol) : Checked TypeSymbol := do
  let base ← match d.decl.base with
    | some ref => t.headerBase d type ref
    | none =>
      if type.kind = .component ∧ type.fullName ≠ defaultComponentBase
          ∧ (t.find? defaultComponentBase).isSome then
        pure defaultComponentBase
      else pure []
  let members ← t.headerMembers d.scope type.name [] d.decl.members
  let methods ← t.headerMethods d.scope type.name (d.decl.members.map (·.name)) d.decl.methods
  match d.decl.render with
  | some block => if type.kind ≠ .component then .report block.span (.renderOnClass type.name)
  | none => pure ()
  pure { type with base, members, methods }

/-! ## Circular bases -/

/-- Follows bases from `id`, which is reached over `seen`, back to `start`; the result is the type
whose base is `start`. Each step finds a new type of the table, so `fuel` types are enough for a
table of that size. -/
def returnsFrom? (t : SymbolTable) (start : TypeId) (fuel : Nat) (seen : List TypeId)
    (id : TypeId) : Option TypeId :=
  match fuel with
  | 0 => none
  | fuel + 1 =>
    match t.get? id with
    | none => none
    | some s =>
      if s.base = [] then none
      else match t.find? s.base with
        | none => none
        | some next =>
          if next = start then some id
          else if next ∈ seen then none
          else t.returnsFrom? start fuel (next :: seen) next

/-- The type on the base cycle through `id` whose base is `id`, if there is a cycle. -/
def returns? (t : SymbolTable) (id : TypeId) : Option TypeId :=
  t.returnsFrom? id t.types.length [id] id

/-- Takes away the base of a declared type that is reached from itself. -/
def breakCycle (t : SymbolTable) (d : Declared) : SymbolTable × List Diagnostic :=
  match t.returns? d.id, t.get? d.id with
  | some via, some type =>
    let span := (d.decl.base.map (·.span)).getD d.decl.span
    (t.set d.id { type with base := [] },
      [SemanticError.diagnostic d.scope.file span (.circularBase type.fullName (t.nameOf via))])
  | _, _ => (t, [])

/-- Breaks the cycles of declared types one after the other. -/
def breakCycles (t : SymbolTable) : List Declared → SymbolTable × List Diagnostic
  | [] => (t, [])
  | d :: ds =>
    let (t, reports) := t.breakCycle d
    let (t, others) := t.breakCycles ds
    (t, reports ++ others)

/-! ## Declarations -/

/-- What a declaration says before its header is resolved. -/
def announced (scope : FileScope) (decl : TypeDecl) : TypeSymbol where
  ns := scope.ns
  name := decl.name
  kind := decl.kind
  route := decl.route.getD []

/-- Puts a declared type into the table. A type whose full name is taken cannot be found by it. -/
def announce (t : SymbolTable) (d : Declared) : SymbolTable × List Diagnostic :=
  let type := announced d.scope d.decl
  let duplicate := if (t.find? type.fullName).isSome
    then [SemanticError.duplicateType d.scope.ns d.decl.name] else []
  let routed := if d.decl.route.isSome ∧ d.decl.kind ≠ .component
    then [SemanticError.routeOnClass d.decl.name] else []
  (t.push type, (duplicate ++ routed).map (SemanticError.diagnostic d.scope.file d.decl.span))

def announceAll (t : SymbolTable) : List Declared → SymbolTable × List Diagnostic
  | [] => (t, [])
  | d :: ds =>
    let (t, reports) := t.announce d
    let (t, others) := t.announceAll ds
    (t, reports ++ others)

end SymbolTable

/-- The declarations of the trees in order; the first gets the position `first`. -/
def declarations (first : TypeId) (trees : List SyntaxTree) : List Declared :=
  let decls := trees.zipIdx.flatMap fun (tree, i) => tree.types.map fun decl => (i, tree.scope, decl)
  decls.zipIdx.map fun ((tree, scope, decl), k) => { tree, scope, decl, id := first + k }

end ViewCompiler
