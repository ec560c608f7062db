import ViewCompiler.Symbol.Table
import ViewCompiler.Template.Name
import ViewCompiler.Template.Parse
import ViewCompiler.Token.Literal

/-!
Writing a template as a component declaration. The declaration carries `#line` directives that
lead back to the lines of the template file. Without a symbol table only the declaration is
written; with one, tags that name a component are written as such and the render block is added.
-/

namespace ViewCompiler

/-- A written text and what was reported on the way. -/
structure Written where
  code : Bytes := []
  reports : List TemplateReport := []
deriving DecidableEq, Repr, Inhabited

namespace Written

instance : Append Written := ⟨fun a b => { code := a.code ++ b.code, reports := a.reports ++ b.reports }⟩

def text (code : Bytes) : Written := { code }

/-- Writes the parts of a list one after the other. -/
def all (parts : List Written) : Written := parts.foldl (· ++ ·) {}

end Written

/-- What writing a template needs to know: the item, and the namespace and usings of the
component. -/
structure WriteScope where
  item : Item
  ns : Bytes
  usings : List Bytes
  table : SymbolTable := {}
deriving DecidableEq, Repr, Inhabited

namespace WriteScope

/-- The directive that makes the next line a line of the template file. -/
def mapLine (c : WriteScope) (s : Span) : Bytes :=
  "#line " ++ Bytes.ofNat (c.item.userLine s.line).toNat ++ "\n"

/-! ## Declarations -/

def usingLine (ns : Bytes) : Bytes := "using " ++ ns ++ ";\n"

def header (c : WriteScope) (t : Template) (name : Bytes) : Bytes :=
  let ns : Bytes := if c.ns = [] then [] else "namespace " ++ c.ns ++ ";\n"
  let route : Bytes := match t.route with
    | some (span, route) => c.mapLine span ++ "[route " ++ Literal.quote route ++ "]\n"
    | none => []
  let declaration : Bytes := match t.base with
    | some base => c.mapLine base.span ++ "component " ++ name ++ " : " ++ base.name ++ " \x7b\n"
    | none => "#line 1\ncomponent " ++ name ++ " \x7b\n"
  ns ++ c.usings.flatMap usingLine ++ route ++ declaration

def injectLine (c : WriteScope) (i : Injection) : Bytes :=
  c.mapLine i.span ++ "inject " ++ i.type ++ " " ++ i.name ++ ";\n"

def codeLines (c : WriteScope) (b : CodeBlock) : Bytes := c.mapLine b.span ++ b.code ++ "\n"

def members (c : WriteScope) (t : Template) : Bytes :=
  t.injections.flatMap c.injectLine ++ t.code.flatMap c.codeLines ++ "#line default\n"

/-! ## Components -/

/-- The component that a tag means. -/
def component? (c : WriteScope) (span : Span) (tag : Bytes) : Option TypeId × List TemplateReport :=
  let found := c.table.resolve tag c.ns c.usings
  if found.ambiguous then
    (none, [(span, .ambiguousComponent tag (found.candidates.map c.table.nameOf))])
  else match found.type with
    | some id =>
      if (c.table.get? id).any (·.isComponent) then (some id, [])
      else (none, [(span, .unknownComponent tag)])
    | none => (none, [(span, .unknownComponent tag)])

/-- The value of a component's parameter. Only string parameters take their value as text; that of
others is an expression. -/
def argument (c : WriteScope) (type : TypeId) (a : Attribute) : Written :=
  match a.expression?, a.value with
  | some code, _ => .text code
  | none, none => .text "true"
  | none, some value =>
    match (c.table.findMember? type a.plainName).bind c.table.member? with
    | none => .text (Literal.quote value)
    | some m =>
      if m.kind ≠ .param ∨ m.type = "string" then .text (Literal.quote value)
      else if (Expr.parse? value).isSome then .text value
      else
        { code := Literal.quote value
          reports := [(a.span, .parameterValue value a.plainName m.type)] }

def componentAttribute (c : WriteScope) (type : TypeId) (a : Attribute) : Written :=
  if a.plainName.isIdentifier then
    .text (c.mapLine a.span ++ "attr " ++ a.plainName ++ " = ") ++ c.argument type a ++ .text ";\n"
  else { reports := [(a.span, .parameterName a.name)] }

/-! ## Markup -/

def elementAttribute (c : WriteScope) (a : Attribute) : Bytes :=
  let value : Bytes := match a.expression?, a.value with
    | some code, _ => code
    | none, some value => Literal.quote value
    | none, none => "true"
  c.mapLine a.span ++ "attr " ++ Literal.quote a.plainName ++ " = " ++ value ++ ";\n"

end WriteScope

namespace Node

/-- Text of blanks only is not rendered. -/
def isBlank : Node → Bool
  | text _ t => t.all Ascii.isSpace
  | _ => false

end Node

namespace WriteScope

mutual

def node (c : WriteScope) : Node → Written
  | .text span t =>
    if t.all Ascii.isSpace then {}
    else .text (c.mapLine span ++ "text " ++ Literal.quote t ++ ";\n")
  | .expr span code => .text (c.mapLine span ++ "expr " ++ code ++ ";\n")
  | .element span tag attributes children =>
    let (component, reports) := if isComponentTag tag then c.component? span tag else (none, [])
    match component with
    | some type =>
      let content : Written :=
        if children.all (·.isBlank) then {}
        else .text "child \x7b\n" ++ c.nodes children ++ .text "\x7d\n"
      { code := c.mapLine span ++ "component " ++ c.table.nameOf type ++ " \x7b\n", reports }
        ++ .all (attributes.map (c.componentAttribute type)) ++ content ++ .text "\x7d\n"
    | none =>
      let start := c.mapLine span ++ "open " ++ Literal.quote tag ++ ";\n"
      { code := start ++ attributes.flatMap c.elementAttribute, reports }
        ++ c.nodes children ++ .text "close;\n"

def nodes (c : WriteScope) : List Node → Written
  | [] => {}
  | n :: ns => c.node n ++ c.nodes ns

end

def render (c : WriteScope) (t : Template) : Written :=
  .text "render \x7b\n" ++ c.nodes t.nodes ++ .text "#line default\n\x7d\n"

end WriteScope

/-! ## Components of a project -/

/-- How the templates of a project are written. -/
structure TemplateOptions where
  rootNamespace : Bytes
  imports : List Bytes
deriving DecidableEq, Repr, Inhabited

/-- A written component. -/
structure Document where
  code : Bytes := []
  diagnostics : List Diagnostic := []
deriving DecidableEq, Repr, Inhabited

namespace Template

/-- The usings of the component: the imports of the project and those of the template, each once. -/
def allUsings (t : Template) (imports : List Bytes) : List Bytes :=
  (imports ++ t.usings.map (·.ns)).foldl (fun us u => if u ∈ us then us else us ++ [u]) []

/-- The component of a template, with its render block if there is a symbol table. -/
def write (t : Template) (i : Item) (o : TemplateOptions) (table : Option SymbolTable)
    (name : Bytes) : Written :=
  let c : WriteScope :=
    { item := i, ns := ComponentName.namespaceOf o.rootNamespace i.path
      usings := t.allUsings o.imports, table := table.getD {} }
  let body : Written := if table.isSome then c.render t else {}
  .text (c.header t name ++ c.members t) ++ body ++ .text "\x7d\n"

end Template

namespace Item

/-- A file whose name no component can have. -/
def invalidName (i : Item) (name : Bytes) : Diagnostic :=
  .located i.name {} .error "TX1007"
    (name.quoted ++ " is not a valid component name; rename the file " ++ i.name.quoted)

/-- Writes the component of an item. -/
def generate (i : Item) (o : TemplateOptions) (table : Option SymbolTable) : Logged Document := do
  let t ← i.parse
  let name := ComponentName.ofPath i.path
  let faults := t.errors.map i.diagnostic
  if ComponentName.isValid name then
    let w := t.write i o table name
    let diagnostics := faults ++ w.reports.map i.diagnostic
    Logged.log .debug "markup" ((if table.isSome then Bytes.ofString "Translated " else "Declared ")
      ++ i.name ++ " (" ++ Bytes.ofNat w.code.length ++ " bytes of IL, "
      ++ Bytes.ofNat diagnostics.length ++ " diagnostic(s))")
    pure { code := w.code, diagnostics }
  else pure { diagnostics := faults ++ [i.invalidName name] }

end Item

end ViewCompiler
