import ViewCompiler.Ast.Expr

/-!
Reading statements, render operations, declarations and whole files. The reader never gives up on a
file: after an error it skips to where reading can go on and reads the rest.
-/

namespace ViewCompiler

namespace Tokens

/-! ## Statements -/

/-- One or more expressions with commas between them. -/
def arguments (ts : List Token) : Reading (List Expr) :=
  (expr ts).within ts fun e rest _ =>
    match rest with
    | { kind := .punct .comma, .. } :: rest => (arguments rest).map (e :: ·)
    | rest => .ok [e] rest
termination_by ts.length

/-- The rest of an assignment or call that starts with `name` at `span`. -/
def simpleStmt (span : Span) (name : Bytes) (ts : List Token) : Reading Stmt :=
  if next ts = .punct .assign then
    (expr ts.tail).andThen fun value ts =>
      (mark .semicolon ts).map fun _ => .assign span name value
  else
    let target : Reading (Option Bytes × Bytes) :=
      if next ts = .punct .dot then
        (identifier "method name" ts.tail).map fun method => (some name, method)
      else .ok (none, name) ts
    target.andThen fun (receiver, method) ts =>
      (take (.punct .lparen) "'(' or '='" ts).andThen fun _ ts =>
        let args : Reading (List Expr) :=
          if next ts = .punct .rparen then .ok [] ts else arguments ts
        args.andThen fun args ts =>
          (mark .rparen ts).andThen fun _ ts =>
            (mark .semicolon ts).map fun _ => .call span receiver method args

mutual

/-- A conditional after its `if`, which stands at `span`. -/
def conditional (span : Span) (ts : List Token) : Reading Stmt :=
  (mark .lparen ts).within ts fun _ ts₁ _ =>
  (expr ts₁).within ts₁ fun condition ts₂ _ =>
  (mark .rparen ts₂).within ts₂ fun _ ts₃ _ =>
  (block ts₃).within ts₃ fun thenBody ts₄ _ =>
    match ts₄ with
    | { kind := .keyword .elseKw, .. } :: ts₅ =>
      match ts₅ with
      | { kind := .keyword .ifKw, span := nested } :: ts₆ =>
        (conditional nested ts₆).map fun s => .cond span condition thenBody [s]
      | ts₅ => (block ts₅).map fun elseBody => .cond span condition thenBody elseBody
    | ts₄ => .ok (.cond span condition thenBody []) ts₄
termination_by 4 * ts.length + 1
decreasing_by all_goals grind

/-- A statement that starts with the token `t`. -/
def stmt (t : Token) (ts : List Token) : Reading Stmt :=
  match t.kind with
  | .keyword .ifKw => conditional t.span ts
  | .keyword .returnKw => (mark .semicolon ts).map fun _ => .ret t.span
  | .identifier name => simpleStmt t.span name ts
  | .punct .rbrace => .expected "statement" (t :: ts)
  | kind => { value := none, errors := [(t.span, .expected "statement" kind)], rest := ts }
termination_by 4 * ts.length + 2

/-- Statements up to the end of the block. -/
def stmts (ts : List Token) : Reading (List Stmt) :=
  match ts with
  | [] => .ok [] []
  | t :: tail =>
    if t.kind = .punct .rbrace ∨ t.kind = .eof then .ok [] (t :: tail)
    else
      let first := (stmt t tail).recover
      first.onward tail fun rest _ => (stmts rest).map (first.value.toList ++ ·)
termination_by 4 * ts.length + 3
decreasing_by all_goals grind

/-- A block of statements with its braces. -/
def block (ts : List Token) : Reading (List Stmt) :=
  match ts with
  | { kind := .punct .lbrace, .. } :: ts =>
    (stmts ts).andThen fun body rest =>
      let close := mark .rbrace rest
      { value := some body, errors := close.errors, rest := close.rest }
  | ts => (Reading.expected (Punct.text .lbrace).quoted ts).recover
termination_by 4 * ts.length
decreasing_by all_goals grind

end

/-! ## Render operations -/

/-- What the body of a component operation holds. -/
structure ComponentBody where
  args : List ComponentArg := []
  childSpan : Option Span := none
  child : List RenderOp := []
deriving Inhabited

/-- An argument of a component, after its `attr`, which stands at `span`. -/
def componentArg (span : Span) (ts : List Token) : Reading ComponentArg :=
  (identifier "parameter name" ts).andThen fun name ts =>
    (mark .assign ts).andThen fun _ ts =>
      (expr ts).andThen fun value ts =>
        (mark .semicolon ts).map fun _ => { name, value, span }

mutual

/-- A render operation that starts with the token `t`. -/
def renderOp (t : Token) (ts : List Token) : Reading RenderOp :=
  match t.kind with
  | .keyword .openKw =>
    (literal "element name" ts).andThen fun tag ts =>
      (mark .semicolon ts).map fun _ => .openElement t.span tag
  | .keyword .attrKw =>
    (literal "attribute name" ts).andThen fun name ts =>
      (mark .assign ts).andThen fun _ ts =>
        (expr ts).andThen fun value ts =>
          (mark .semicolon ts).map fun _ => .attr t.span name value
  | .keyword .closeKw => (mark .semicolon ts).map fun _ => .closeElement t.span
  | .keyword .textKw =>
    (literal "text" ts).andThen fun text ts =>
      (mark .semicolon ts).map fun _ => .text t.span text
  | .keyword .exprKw =>
    (expr ts).andThen fun value ts => (mark .semicolon ts).map fun _ => .value t.span value
  | .keyword .componentKw =>
    (type ts).within ts fun type ts₁ _ =>
    (mark .lbrace ts₁).within ts₁ fun _ ts₂ _ =>
    (componentBody false ts₂).andThen fun body rest =>
      let close := mark .rbrace rest
      { value := some (.component t.span type body.args body.childSpan body.child),
        errors := close.errors, rest := close.rest }
  | .punct .rbrace => .expected "render operation" (t :: ts)
  | .punct .lbrace => .expected "render operation" (t :: ts)
  | kind => { value := none, errors := [(t.span, .expected "render operation" kind)], rest := ts }
termination_by 4 * ts.length + 2
decreasing_by all_goals grind

/-- Render operations up to the end of the block. -/
def renderOps (ts : List Token) : Reading (List RenderOp) :=
  match ts with
  | [] => .ok [] []
  | t :: tail =>
    if t.kind = .punct .rbrace ∨ t.kind = .eof then .ok [] (t :: tail)
    else
      let first := (renderOp t tail).recover
      first.onward tail fun rest _ => (renderOps rest).map (first.value.toList ++ ·)
termination_by 4 * ts.length + 3
decreasing_by all_goals grind

/-- A block of render operations with its braces. -/
def renderBlock (ts : List Token) : Reading (List RenderOp) :=
  match ts with
  | { kind := .punct .lbrace, .. } :: ts =>
    (renderOps ts).andThen fun ops rest =>
      let close := mark .rbrace rest
      { value := some ops, errors := close.errors, rest := close.rest }
  | ts => (Reading.expected (Punct.text .lbrace).quoted ts).recover
termination_by 4 * ts.length
decreasing_by all_goals grind

/-- Arguments and child content of a component up to the end of its body. Only the first child
block counts; `hasChild` says that there was one. -/
def componentBody (hasChild : Bool) (ts : List Token) : Reading ComponentBody :=
  match ts with
  | [] => .ok {} []
  | t :: tail =>
    match t.kind with
    | .punct .rbrace | .eof => .ok {} (t :: tail)
    | .keyword .attrKw =>
      let arg := (componentArg t.span tail).recover
      arg.onward tail fun rest _ =>
        (componentBody hasChild rest).map fun b => { b with args := arg.value.toList ++ b.args }
    | .keyword .childKw =>
      let child := (renderBlock tail).andThen fun ops rest =>
        if hasChild then { value := none, errors := [(t.span, .secondChild)], rest }
        else .ok ops rest
      child.onward tail fun rest _ =>
        (componentBody (hasChild || child.value.isSome) rest).map fun b =>
          match child.value with
          | some ops => { b with childSpan := some t.span, child := ops }
          | none => b
    | kind =>
      let other : Reading Unit :=
        { value := none, errors := [(t.span, .expected "'attr' or 'child'" kind)],
          rest := synchronize (t :: tail) }
      other.onward tail fun rest _ => componentBody hasChild rest
termination_by 4 * ts.length + 1
decreasing_by all_goals grind

end

/-! ## Members -/

/-- What one member of a type is. -/
inductive Member where
  | data (member : DataMember)
  | method (method : MethodDecl)
  | render (block : RenderBlock)
deriving Inhabited

/-- A parameter, injected service or field after its keyword. -/
def dataMember (kind : MemberKind) (ts : List Token) : Reading DataMember :=
  (type ts).andThen fun type ts =>
    let span := place ts
    (identifier "member name" ts).andThen fun name ts =>
      let init : Reading (Option Expr) :=
        if kind = .field ∧ next ts = .punct .assign then (expr ts.tail).map some else .ok none ts
      init.andThen fun init ts =>
        (mark .semicolon ts).map fun _ => { kind, type, name, init, span }

def parameter (ts : List Token) : Reading Parameter :=
  (type ts).andThen fun type ts₁ =>
    (identifier "parameter name" ts₁).map fun name => { type, name, span := place ts }

/-- One or more parameters with commas between them. -/
def parameters (ts : List Token) : Reading (List Parameter) :=
  (parameter ts).within ts fun p rest _ =>
    match rest with
    | { kind := .punct .comma, .. } :: rest => (parameters rest).map (p :: ·)
    | rest => .ok [p] rest
termination_by ts.length

/-- The head of a method after its keyword: the name and the parameters. -/
def methodHead (ts : List Token) : Reading (Bytes × List Parameter) :=
  (identifier "method name" ts).andThen fun name ts =>
    (mark .lparen ts).andThen fun _ ts =>
      let params : Reading (List Parameter) :=
        if next ts = .punct .rparen then .ok [] ts else parameters ts
      params.andThen fun params ts => (mark .rparen ts).map fun _ => (name, params)

/-- A method after its keyword. -/
def method (ts : List Token) : Reading MethodDecl :=
  (methodHead ts).recover.andThen fun (name, params) ts₁ =>
    (block ts₁).map fun body => { name, params, body, span := place ts }

/-- A member of the type `type`. A second render block is read and dropped; `hasRender` says that
there was one. -/
def member (type : Bytes) (hasRender : Bool) (t : Token) (ts : List Token) : Reading Member :=
  match t.kind with
  | .keyword .paramKw => (dataMember .param ts).recover.map .data
  | .keyword .injectKw => (dataMember .inject ts).recover.map .data
  | .keyword .fieldKw => (dataMember .field ts).recover.map .data
  | .keyword .methodKw => (method ts).map .method
  | .keyword .renderKw =>
    (renderBlock ts).andThen fun ops rest =>
      if hasRender then { value := none, errors := [(t.span, .secondRender type)], rest }
      else .ok (.render { ops, span := t.span }) rest
  | kind =>
    let rest := if kind = .punct .lbrace then skipBlock (t :: ts) else synchronize (t :: ts)
    { value := none, errors := [(t.span, .expected "member declaration" kind)], rest }

/-- Members up to the end of the type's body. -/
def members (type : Bytes) (hasRender : Bool) (ts : List Token) : Reading (List Member) :=
  match ts with
  | [] => .ok [] []
  | t :: tail =>
    if t.kind = .punct .rbrace ∨ t.kind = .eof then .ok [] (t :: tail)
    else
      let first := member type hasRender t tail
      let hasRender := match first.value with
        | some (.render _) => true
        | _ => hasRender
      first.onward tail fun rest _ =>
        (members type hasRender rest).map (first.value.toList ++ ·)
termination_by ts.length
decreasing_by all_goals grind

/-! ## Types -/

/-- The route in front of a type, in brackets. -/
def routePart (ts : List Token) : Reading (Option Bytes) :=
  if next ts = .punct .lbracket then
    (take (.keyword .routeKw) "'route'" ts.tail).andThen fun _ ts =>
      (literal "route string" ts).andThen fun route ts =>
        (mark .rbracket ts).map fun _ => some route
  else .ok none ts

def typeKind (ts : List Token) : Reading TypeKind :=
  match next ts with
  | .keyword .componentKw => .ok .component ts.tail
  | .keyword .classKw => .ok .cls ts.tail
  | _ => .expected "'component' or 'class'" ts

/-- The head of a type declaration up to its opening brace. -/
def typeHead (ts : List Token) : Reading TypeDecl :=
  (routePart ts).andThen fun route ts =>
    let span := place ts
    (typeKind ts).andThen fun kind ts =>
      (identifier "type name" ts).andThen fun name ts =>
        let base : Reading (Option TypeRef) :=
          if next ts = .punct .colon then (type ts.tail).map some else .ok none ts
        base.andThen fun base ts =>
          (mark .lbrace ts).map fun _ => { kind, name, base, route, span }

/-- A type declaration. -/
def typeDecl (ts : List Token) : Reading TypeDecl :=
  (typeHead ts).recover.andThen fun head ts =>
    (members head.name false ts).andThen fun items rest =>
      let close := mark .rbrace rest
      let decl : TypeDecl :=
        { head with
          members := items.filterMap fun | .data m => some m | _ => none
          methods := items.filterMap fun | .method m => some m | _ => none
          render := items.findSome? fun | .render b => some b | _ => none }
      { value := some decl, errors := close.errors, rest := close.rest }

/-! ## Files -/

/-- What a file declares at its top. -/
inductive UnitItem where
  | ns (name : Bytes)
  | using (directive : Using)
  | type (decl : TypeDecl)
deriving Inhabited

/-- A name and a semicolon, as namespace and using declarations end. -/
def nameStatement (ts : List Token) : Reading Bytes :=
  ((qualifiedName ts).andThen fun name ts => (mark .semicolon ts).map fun _ => name).recover

/-- Skips to the next token that can start a declaration. -/
def skipToDeclaration (ts : List Token) : List Token :=
  match ts with
  | [] => []
  | t :: tail =>
    match t.kind with
    | .eof | .keyword .componentKw | .keyword .classKw | .punct .lbracket | .keyword .namespaceKw
    | .keyword .usingKw => t :: tail
    | .punct .lbrace => skipToDeclaration (clip tail (skipBlock (t :: tail)))
    | _ => skipToDeclaration tail
termination_by ts.length
decreasing_by all_goals grind [length_clip_le]

/-- The declaration that starts with the token `t`. A file has at most one namespace, in front of
its types: `hasNs` and `hasType` say what there was before. -/
def unitItem (hasNs hasType : Bool) (t : Token) (ts : List Token) : Reading UnitItem :=
  match t.kind with
  | .keyword .namespaceKw =>
    (nameStatement ts).andThen fun name rest =>
      let errors :=
        if hasNs then [(t.span, SyntaxError.secondNamespace)]
        else if hasType then [(t.span, .lateNamespace)]
        else []
      { value := some (.ns name), errors, rest }
  | .keyword .usingKw => (nameStatement ts).map fun ns => .using { ns, span := t.span }
  | .punct .lbracket | .keyword .componentKw | .keyword .classKw =>
    (typeDecl (t :: ts)).map .type
  | kind =>
    { value := none, errors := [(t.span, .expected "type declaration" kind)],
      rest := skipToDeclaration ts }

/-- Declarations up to the end of the file. -/
def unitItems (hasNs hasType : Bool) (ts : List Token) : Reading (List UnitItem) :=
  match ts with
  | [] => .ok [] []
  | t :: tail =>
    if t.kind = .eof then .ok [] (t :: tail)
    else
      let first := unitItem hasNs hasType t tail
      let (hasNs, hasType) := match first.value with
        | some (.ns _) => (true, hasType)
        | some (.type _) => (hasNs, true)
        | _ => (hasNs, hasType)
      first.onward tail fun rest _ =>
        (unitItems hasNs hasType rest).map (first.value.toList ++ ·)
termination_by ts.length
decreasing_by all_goals grind

end Tokens

/-! ## Parsing -/

namespace SyntaxTree

/-- The tree that the declarations of a file make. The last namespace declaration counts. -/
def ofItems (file : Bytes) (items : List Tokens.UnitItem) (diagnostics : List Diagnostic) :
    SyntaxTree where
  file
  ns := ((items.filterMap fun | .ns n => some n | _ => none).getLast?).getD []
  usings := items.filterMap fun | .using u => some u | _ => none
  types := items.filterMap fun | .type t => some t | _ => none
  diagnostics

/-- Parses a source text. The diagnostics of the scanner come before those of the parser. -/
def parse (source file : Bytes) : SyntaxTree :=
  let stream := TokenStream.scan source
  let unit := Tokens.unitItems false false stream.tokens
  ofItems file (unit.value.getD [])
    (stream.diagnostics file ++ unit.errors.map fun (span, e) => e.diagnostic file span)

end SyntaxTree

namespace Expr

/-- An expression and nothing after it. -/
def ofTokens (ts : List Token) : Reading Expr :=
  (Tokens.expr ts).andThen fun e rest =>
    if Tokens.next rest = .eof then .ok e rest
    else
      { value := none, errors := [(Tokens.place rest, .afterExpression (Tokens.next rest))], rest }

/-- Parses a text that is one expression; there is none if anything is wrong with it. -/
def parse? (source : Bytes) : Option Expr :=
  let stream := TokenStream.scan source
  if stream.errors.isEmpty then
    let r := ofTokens stream.tokens
    if r.errors.isEmpty then r.value else none
  else none

end Expr

end ViewCompiler
