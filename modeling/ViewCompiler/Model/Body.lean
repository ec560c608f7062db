import ViewCompiler.Model.Header

/-!
Binding the bodies of a type: field initialisers, methods and the render block. Everything is bound
against a complete table; a failure is reported once and does not stop the analysis.
-/

namespace ViewCompiler

/-- Where names of a body are looked up. `params` are the parameters of the method with their
canonical types; outside methods there are none. -/
structure BodyScope where
  table : SymbolTable
  file : FileScope
  current : TypeId
  params : List (Bytes × Bytes) := []
deriving Inhabited

namespace BodyScope

/-- What a name means: a parameter, else a data member, else a method. -/
def bind? (c : BodyScope) (name : Bytes) : Option Binding :=
  match c.params.findIdx? (·.1 = name) with
  | some i => some (.param i)
  | none =>
    match c.table.findMember? c.current name with
    | some id => some (.member id)
    | none => (c.table.findMethod? c.current name).map .method

def typeOf (c : BodyScope) : Binding → Ty
  | .param i => .ofName c.table ((c.params[i]?.map (·.2)).getD [])
  | .member id => .ofName c.table (((c.table.member? id).map (·.type)).getD [])
  | .method _ => .methodGroup

def display (c : BodyScope) (t : Ty) : Bytes := t.display c.table

def methodName (c : BodyScope) (id : MethodId) : Bytes :=
  ((c.table.method? id).map (·.name)).getD []

/-- Notes that a binding is read. -/
def read (binding : Binding) : Checked Unit :=
  match binding with
  | .member id => .reads id
  | _ => pure ()

/-! ## Expressions -/

/-- The type of a binary operation, if the operands allow it. -/
def binaryType? (op : BinaryOp) (left right : Ty) : Option Ty :=
  match op with
  | .add =>
    if left = .int ∧ right = .int then some .int
    else if (left = .string ∨ right = .string) ∧ left.isScalar ∧ right.isScalar then some .string
    else none
  | .sub | .mul | .div | .mod => if left = .int ∧ right = .int then some .int else none
  | .eq | .ne => if left = right ∧ left.isScalar then some .bool else none
  | .lt | .gt | .le | .ge => if left = .int ∧ right = .int then some .bool else none
  | .and | .or => if left = .bool ∧ right = .bool then some .bool else none

/-- The type a unary operator takes and gives. -/
def unaryType (op : UnaryOp) : Ty :=
  match op with
  | .not => .bool
  | .neg => .int

/-- Binds an expression. A field initialiser may not name anything. -/
def expr (c : BodyScope) (inInit : Bool) : Expr → Checked BoundExpr
  | .int span value => pure (.int span value)
  | .string span text => pure (.string span text)
  | .bool span value => pure (.bool span value)
  | .name span name =>
    if inInit then do
      if (c.table.findMember? c.current name).isSome
          ∨ (c.table.findMethod? c.current name).isSome then
        .report span (.memberInInitializer name)
      else .report span (.unknownName name)
      pure (.name span name none .error)
    else
      match c.bind? name with
      | none => do
        .report span (.unknownName name)
        pure (.name span name none .error)
      | some binding => do
        read binding
        pure (.name span name (some binding) (c.typeOf binding))
  | .unary span op operand => do
    let operand ← c.expr inInit operand
    if operand.type = .error then pure (.unary span op operand .error)
    else if operand.type = unaryType op then pure (.unary span op operand (unaryType op))
    else
      .report span (.unaryOperand op (c.display operand.type))
      pure (.unary span op operand .error)
  | .binary span op left right => do
    let left ← c.expr inInit left
    let right ← c.expr inInit right
    if left.type = .error ∨ right.type = .error then pure (.binary span op left right .error)
    else match binaryType? op left.type right.type with
      | some type => pure (.binary span op left right type)
      | none =>
        .report span (.binaryOperands op (c.display left.type) (c.display right.type))
        pure (.binary span op left right .error)

/-- Checks that a value can be stored where `target` is expected. A method can be stored as a
callback if it has no parameters. -/
def conversion (c : BodyScope) (target : Ty) (value : BoundExpr) : Checked Unit :=
  if target = .error ∨ value.type = .error then pure ()
  else match value with
    | .name span _ (some (.method id)) .methodGroup =>
      if target = .callback then
        if ((c.table.method? id).map (·.paramTypes)).getD [] = [] then pure ()
        else .report span (.callbackWithParameters (c.methodName id))
      else .report span (.methodConversion (c.methodName id) (c.display target))
    | value =>
      let fits : Bool := match target, value.type with
        | .object base, .object type => c.table.derivesFrom type base
        | target, type => target = type
      if fits then pure ()
      else .report value.span (.conversion (c.display value.type) (c.display target))

def exprs (c : BodyScope) : List Expr → Checked (List BoundExpr)
  | [] => pure []
  | e :: es => do
    let e ← c.expr false e
    let es ← c.exprs es
    pure (e :: es)

def conversions (c : BodyScope) : List Bytes → List BoundExpr → Checked Unit
  | type :: types, value :: values => do
    c.conversion (.ofName c.table type) value
    c.conversions types values
  | _, _ => pure ()

/-! ## Statements -/

/-- What an assignment to a name stores to, if it can be assigned. -/
def assignment (c : BodyScope) (span : Span) (target : Bytes) (value : BoundExpr) :
    Checked (Option Binding) :=
  match c.bind? target with
  | none => do
    .report span (.unknownName target)
    pure none
  | some (.method _) => do
    .report span (.assignedMethod target)
    pure none
  | some binding =>
    let injected : Bool := match binding with
      | .member id => ((c.table.member? id).map (·.kind)).getD .field == .inject
      | _ => false
    if injected then do
      .report span (.assignedService target)
      pure none
    else do
      c.conversion (c.typeOf binding) value
      pure (some binding)

/-- The receiver of a call with the type of its object. -/
def receiver (c : BodyScope) (span : Span) (name method : Bytes) :
    Checked (Option (Binding × TypeId)) :=
  match c.bind? name with
  | none | some (.method _) => do
    .report span (.unknownName name)
    pure none
  | some binding => do
    read binding
    match c.typeOf binding with
    | .object type => pure (some (binding, type))
    | .error => pure none
    | type => do
      .report span (.unknownMethod (c.display type) method)
      pure none

/-- The callback that a call without receiver runs when no method has the name. -/
def callback? (c : BodyScope) (name : Bytes) : Option Binding :=
  (c.bind? name).filter fun b => c.typeOf b == .callback

/-- Binds a call of `method` on an object of type `target`. -/
def callOn (c : BodyScope) (span : Span) (target : TypeId) (receiver : Option Binding)
    (method : Bytes) (args : List BoundExpr) : Checked (Option CallBinding) :=
  match c.table.findMethod? target method with
  | none =>
    match (if receiver.isNone then c.callback? method else none) with
    | some binding =>
      if args ≠ [] then do
        .report span (.callbackArguments method args.length)
        pure none
      else do
        read binding
        pure (some (.callback binding))
    | none => do
      .report span (.unknownMethod (c.table.nameOf target) method)
      pure none
  | some id => do
    let types := ((c.table.method? id).map (·.paramTypes)).getD []
    if types.length ≠ args.length then
      .report span (.argumentCount method types.length args.length)
      pure none
    else
      c.conversions types args
      pure (some (.method id receiver))

def call (c : BodyScope) (span : Span) (on : Option Bytes) (method : Bytes)
    (args : List BoundExpr) : Checked (Option CallBinding) :=
  match on with
  | none => c.callOn span c.current none method args
  | some name => do
    match ← c.receiver span name method with
    | none => pure none
    | some (binding, target) => c.callOn span target (some binding) method args

mutual

def stmt (c : BodyScope) : Stmt → Checked BoundStmt
  | .assign span target value => do
    let value ← c.expr false value
    let binding ← c.assignment span target value
    pure (.assign span target binding value)
  | .call span on method args => do
    let args ← c.exprs args
    let binding ← c.call span on method args
    pure (.call span binding args)
  | .cond span condition thenBody elseBody => do
    let condition ← c.expr false condition
    if condition.type ≠ .error ∧ condition.type ≠ .bool then
      .report condition.span (.conversion (c.display condition.type) "bool")
    let thenBody ← c.stmts thenBody
    let elseBody ← c.stmts elseBody
    pure (.cond span condition thenBody elseBody)
  | .ret span => pure (.ret span)

def stmts (c : BodyScope) : List Stmt → Checked (List BoundStmt)
  | [] => pure []
  | s :: ss => do
    let s ← c.stmt s
    let ss ← c.stmts ss
    pure (s :: ss)

end

/-! ## Render blocks -/

/-- Checks that a value can be the value of an attribute. -/
def attributeValue (c : BodyScope) (value : BoundExpr) : Checked Unit :=
  match value.type with
  | .error | .int | .string | .bool | .callback => pure ()
  | .methodGroup => c.conversion .callback value
  | type => .report value.span (.attributeValue (c.display type))

/-- The component that a render operation names. -/
def componentType (c : BodyScope) (ref : TypeRef) : Checked (Option TypeId) :=
  if isBuiltinType ref.name then do
    .report ref.span (.notComponent ref.name)
    pure none
  else do
    match ← c.table.resolveType c.file ref.name ref.span with
    | none => pure none
    | some id =>
      if ((c.table.get? id).map (·.isComponent)).getD false then pure (some id)
      else
        .report ref.span (.notComponent (c.table.nameOf id))
        pure none

/-- The parameter that an argument of the component `type` sets. -/
def parameter (c : BodyScope) (type : TypeId) (seen : List Bytes) (arg : ComponentArg)
    (value : BoundExpr) : Checked (Option MemberId) := do
  if arg.name ∈ seen then .report arg.span (.repeatedArgument arg.name)
  let found := (c.table.findMember? type arg.name).bind fun id =>
    (c.table.member? id).map fun m => (id, m)
  match found with
  | some (id, { kind := .param, type := paramType, .. }) =>
    c.conversion (.ofName c.table paramType) value
    pure (some id)
  | _ =>
    .report arg.span (.unknownParameter (c.table.nameOf type) arg.name)
    pure none

def componentArgs (c : BodyScope) (type : Option TypeId) (seen : List Bytes) :
    List ComponentArg → Checked (List BoundArg)
  | [] => pure []
  | arg :: args => do
    let value ← c.expr false arg.value
    let param ← match type with
      | some type => c.parameter type seen arg value
      | none => pure none
    let others ← c.componentArgs type (arg.name :: seen) args
    pure ({ name := arg.name, span := arg.span, value, param } :: others)

/-- The parameter that takes the child block of a component. -/
def childContent (c : BodyScope) (type : TypeId) (span : Span) : Checked (Option MemberId) :=
  let found := (c.table.findMember? type "ChildContent").bind fun id =>
    (c.table.member? id).map fun m => (id, m)
  let accepted := found.bind fun (id, m) =>
    if m.kind = .param ∧ m.type = "fragment" then some id else none
  match accepted with
  | some id => pure (some id)
  | none => do
    .report span (.noChildContent (c.table.nameOf type))
    pure none

mutual

/-- Binds one render operation; whether it stands in a right place is not its business. -/
def renderOp (c : BodyScope) : RenderOp → Checked BoundOp
  | .openElement span tag => pure (.openElement span tag)
  | .attr span name value => do
    let value ← c.expr false value
    c.attributeValue value
    pure (.attr span name value)
  | .closeElement span => pure (.closeElement span)
  | .text span text => pure (.text span text)
  | .value span value => do
    let value ← c.expr false value
    if value.type ≠ .error ∧ ¬ value.type.isRenderable then
      .report value.span (.unrenderable (c.display value.type))
    pure (.value span value)
  | .component span ref args childSpan child => do
    let type ← c.componentType ref
    let args ← c.componentArgs type [] args
    let child ← c.renderOps [] false child
    let content ← match childSpan, type with
      | some childSpan, some type => c.childContent type childSpan
      | _, _ => pure none
    pure (.component span type args childSpan child content)

/-- Binds render operations and checks how they nest. `opened` are the open elements, innermost
first; an attribute may only stand after `open` and other attributes. -/
def renderOps (c : BodyScope) (opened : List (Span × Bytes)) (attributes : Bool) :
    List RenderOp → Checked (List BoundOp)
  | [] => { value := [],
            findings := { reports := opened.reverse.map fun (span, tag) =>
              (span, .unclosedElement tag) } }
  | op :: ops => do
    let (opened, attributes) ← match op with
      | .openElement span tag => pure ((span, tag) :: opened, true)
      | .attr span name _ => do
        if ¬ attributes then .report span (.misplacedAttribute name)
        pure (opened, attributes)
      | .closeElement span => do
        if opened.isEmpty then .report span .closeWithoutOpen
        pure (opened.tail, false)
      | _ => pure (opened, false)
    let op ← c.renderOp op
    let ops ← c.renderOps opened attributes ops
    pure (op :: ops)

end

/-! ## Types -/

/-- Binds the initialisers of a type's members and checks them against the members' types. -/
def inits (c : BodyScope) : List DataMember → List MemberSymbol → Checked (List (Option BoundExpr))
  | m :: ms, s :: ss => do
    let init ← match m.init with
      | none => pure none
      | some e => do
        let value ← c.expr true e
        c.conversion (.ofName c.table s.type) value
        pure (some value)
    let others ← c.inits ms ss
    pure (init :: others)
  | _, _ => pure []

def methods (c : BodyScope) : List MethodDecl → List MethodSymbol → Checked (List BoundMethod)
  | m :: ms, s :: ss => do
    let body ← { c with params := s.paramNames.zip s.paramTypes }.stmts m.body
    let others ← c.methods ms ss
    pure ({ name := m.name, body } :: others)
  | _, _ => pure []

end BodyScope

/-- Binds the bodies of a declared type. -/
def SymbolTable.body (t : SymbolTable) (d : Declared) : Checked BoundType := do
  let c : BodyScope := { table := t, file := d.scope, current := d.id }
  let type := (t.get? d.id).getD default
  let inits ← c.inits d.decl.members type.members
  let methods ← c.methods d.decl.methods type.methods
  let render ← match d.decl.render with
    | none => pure none
    | some block => do
      let ops ← c.renderOps [] false block.ops
      pure (some ops)
  pure { id := d.id, inits, methods, render }

end ViewCompiler
