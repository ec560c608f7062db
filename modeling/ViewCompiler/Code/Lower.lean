import ViewCompiler.Code
import ViewCompiler.Model

/-!
Lowering a model to code. Operands are evaluated eagerly from left to right into fresh temporaries;
each child block of a render block becomes a function of its own.

Lowering fails only on something that was never bound, which an analysis without errors excludes.
-/

namespace ViewCompiler

namespace Code

/-- Why a model cannot be lowered: a name, assignment, call or component has no binding. -/
inductive LoweringError where
  | unbound
deriving DecidableEq, Repr, Inhabited

/-- What lowering has produced so far: string constants and declarations of the module, and the
body of the function at hand with its counters. -/
structure LowerState where
  strings : List Bytes := []
  declarations : List Declaration := []
  body : List Instr := []
  temps : Nat := 0
  labels : Nat := 0
  terminated : Bool := false
  fragments : Nat := 0
deriving DecidableEq, Repr, Inhabited

abbrev Lower (α : Type) := StateT LowerState (Except LoweringError) α

/-- What lowering a body needs to know: the model, the type whose code it is, and the types of the
method's parameters. -/
structure LowerScope where
  model : Model
  current : TypeId
  params : List ValueType := []
deriving Inhabited

namespace Lower

def emit (i : Instr) : Lower Unit := modify fun s => { s with body := s.body ++ [i] }

/-- The number of a temporary that is not in use. -/
def freshTemp : Lower Nat :=
  modifyGet fun s => (s.temps, { s with temps := s.temps + 1 })

def freshLabel (kind : LabelKind) : Lower Label :=
  modifyGet fun s => ({ kind, index := s.labels }, { s with labels := s.labels + 1 })

/-- The constant of a string; equal strings share one. -/
def string (text : Bytes) : Lower Operand :=
  modifyGet fun s =>
    match s.strings.findIdx? (· = text) with
    | some i => (.str i (text.length + 1), s)
    | none => (.str s.strings.length (text.length + 1), { s with strings := s.strings ++ [text] })

def declare (d : Declaration) : Lower Unit :=
  modify fun s => { s with declarations := d.insert s.declarations }

/-- What a thing is bound to; lowering fails if it was never bound. -/
def bound {α : Type} : Option α → Lower α
  | some a => pure a
  | none => throw .unbound

def setTerminated (b : Bool) : Lower Unit := modify fun s => { s with terminated := b }

/-- Calls a runtime function that gives nothing back. -/
def run (f : Runtime) (args : List Value) : Lower Unit := emit (.call none (.runtime f) args)

/-- Calls a runtime function for its result. -/
def compute (f : Runtime) (type : ValueType) (args : List Value) : Lower Value := do
  let dest ← freshTemp
  emit (.call (some (dest, type)) (.runtime f) args)
  pure ⟨.temp dest, type⟩

end Lower

open Lower

namespace LowerScope

def table (c : LowerScope) : SymbolTable := c.model.table

def typeName (c : LowerScope) : Bytes := c.table.nameOf c.current

/-! ## Symbols -/

/-- The symbol of a method, declared if it is defined elsewhere. -/
def method (c : LowerScope) (id : MethodId) : Lower Bytes := do
  let owner ← bound (c.table.get? id.owner)
  let method ← bound (c.table.method? id)
  let symbol := methodSymbol owner.fullName method.name
  if ¬ c.model.declares id.owner then
    declare (.function symbol (.ptr :: method.paramTypes.map ValueType.ofName))
  pure symbol

/-- The descriptor of a type, declared if it is defined elsewhere. -/
def descriptor (c : LowerScope) (id : TypeId) : Lower Value := do
  let type := c.table.nameOf id
  if ¬ c.model.declares id then declare (.descriptor (descriptorSymbol type))
  pure ⟨.descriptor type, .ptr⟩

/-! ## Expressions -/

/-- The slot of a data member in objects of the current type; slot 0 is the descriptor. -/
def slotOf (c : LowerScope) (id : MemberId) : Nat :=
  (((c.table.layout c.current).findIdx? (· = id)).map (· + 1)).getD 0

/-- The address of a data member of `this`. -/
def fieldAddress (c : LowerScope) (id : MemberId) : Lower Address := do
  let dest ← freshTemp
  emit (.field dest c.typeName (c.slotOf id))
  pure (.temp dest)

def memberType (c : LowerScope) (id : MemberId) : ValueType :=
  .ofName (((c.table.member? id).map (·.type)).getD [])

/-- The value of a parameter or data member; a method becomes a callback. -/
def read (c : LowerScope) : Binding → Lower Value
  | .param i => do
    let type ← bound c.params[i]?
    let dest ← freshTemp
    emit (.load dest type (.slot i))
    pure ⟨.temp dest, type⟩
  | .member id => do
    let type := c.memberType id
    let address ← c.fieldAddress id
    let dest ← freshTemp
    emit (.load dest type address)
    pure ⟨.temp dest, type⟩
  | .method id => do
    let symbol ← c.method id
    compute .makeCallback .ptr [⟨.function symbol, .initFn⟩, ⟨.self, .ptr⟩]

def arith (op : ArithOp) (left right : Operand) : Lower Value := do
  let dest ← freshTemp
  emit (.arith dest op left right)
  pure ⟨.temp dest, .i32⟩

def logic (op : LogicOp) (left right : Operand) : Lower Value := do
  let dest ← freshTemp
  emit (.logic dest op left right)
  pure ⟨.temp dest, .i1⟩

def compare (pred : Predicate) (type : ValueType) (left right : Operand) : Lower Value := do
  let dest ← freshTemp
  emit (.compare dest pred type left right)
  pure ⟨.temp dest, .i1⟩

/-- A value as text, for concatenation. -/
def toText (value : Value) (type : Ty) : Lower Value :=
  match type with
  | .string => pure value
  | .int => compute .intToString .ptr [⟨value.operand, .i32⟩]
  | _ => compute .boolToString .ptr [⟨value.operand, .i1⟩]

/-- The text of two values joined. -/
def concat (left right : Value) (leftType rightType : Ty) : Lower Value := do
  let l ← toText left leftType
  let r ← toText right rightType
  compute .concat .ptr [⟨l.operand, .ptr⟩, ⟨r.operand, .ptr⟩]

/-- Whether two values are equal, or not. Strings are compared by the runtime. -/
def equality (equal : Bool) (left right : Value) (leftType : Ty) : Lower Value :=
  if leftType = .string then do
    let same ← compute .stringEquals .i1 [⟨left.operand, .ptr⟩, ⟨right.operand, .ptr⟩]
    if equal then pure same else logic .xor same.operand (.bool true)
  else compare (if equal then .eq else .ne) left.type left.operand right.operand

/-- A binary operation on evaluated operands. -/
def binary (op : BinaryOp) (left right : Value) (leftType rightType : Ty) : Lower Value :=
  match op with
  | .add =>
    if leftType = .int ∧ rightType = .int then arith .add left.operand right.operand
    else concat left right leftType rightType
  | .sub => arith .sub left.operand right.operand
  | .mul => arith .mul left.operand right.operand
  | .div => arith .sdiv left.operand right.operand
  | .mod => arith .srem left.operand right.operand
  | .eq => equality true left right leftType
  | .ne => equality false left right leftType
  | .lt => compare .slt .i32 left.operand right.operand
  | .gt => compare .sgt .i32 left.operand right.operand
  | .le => compare .sle .i32 left.operand right.operand
  | .ge => compare .sge .i32 left.operand right.operand
  | .and => logic .and left.operand right.operand
  | .or => logic .or left.operand right.operand

def expr (c : LowerScope) : BoundExpr → Lower Value
  | .int _ value => pure ⟨.int value, .i32⟩
  | .string _ text => do
    let constant ← string text
    pure ⟨constant, .ptr⟩
  | .bool _ value => pure ⟨.bool value, .i1⟩
  | .name _ _ binding _ => do
    let binding ← bound binding
    c.read binding
  | .unary _ op operand _ => do
    let value ← c.expr operand
    match op with
    | .not => logic .xor value.operand (.bool true)
    | .neg => arith .sub (.int 0) value.operand
  | .binary _ op left right _ => do
    let l ← c.expr left
    let r ← c.expr right
    binary op l r left.type right.type

/-! ## Statements -/

/-- Stores a value to a parameter or data member. -/
def write (c : LowerScope) (value : Value) : Binding → Lower Unit
  | .param i => emit (.store value.type value.operand (.slot i))
  | .member id => do
    let address ← c.fieldAddress id
    emit (.store (c.memberType id) value.operand address)
  | .method _ => throw .unbound

/-- Evaluates arguments for parameters of the given types. -/
def arguments (c : LowerScope) : List ValueType → List BoundExpr → Lower (List Value)
  | type :: types, e :: es => do
    let value ← c.expr e
    let others ← c.arguments types es
    pure (⟨value.operand, type⟩ :: others)
  | _, _ => pure []

def call (c : LowerScope) (args : List BoundExpr) : CallBinding → Lower Unit
  | .callback target => do
    let value ← c.read target
    run .invokeCallback [⟨value.operand, .ptr⟩]
  | .method id receiver => do
    let object ← match receiver with
      | some binding => do
        let value ← c.read binding
        pure value.operand
      | none => pure .self
    let method ← bound (c.table.method? id)
    let args ← c.arguments (method.paramTypes.map ValueType.ofName) args
    let symbol ← c.method id
    emit (.call none (.method symbol) (⟨object, .ptr⟩ :: args))

/-- Ends an open block by going to a label. -/
def close (target : Label) : Lower Unit := do
  let s ← get
  if ¬ s.terminated then emit (.jump target)

/-- Starts a block. -/
def openBlock (l : Label) : Lower Unit := do
  emit (.label l)
  setTerminated false

mutual

def stmt (c : LowerScope) : BoundStmt → Lower Unit
  | .assign _ _ binding value => do
    let value ← c.expr value
    let binding ← bound binding
    c.write value binding
  | .call _ binding args => do
    let binding ← bound binding
    c.call args binding
  | .cond _ condition thenBody elseBody => do
    let value ← c.expr condition
    let thenLabel ← freshLabel .thenPart
    let elseLabel ← freshLabel .elsePart
    let endLabel ← freshLabel .endPart
    emit (.branch value.operand thenLabel (if elseBody.isEmpty then endLabel else elseLabel))
    openBlock thenLabel
    c.stmts thenBody
    close endLabel
    if ¬ elseBody.isEmpty then
      openBlock elseLabel
      c.stmts elseBody
      close endLabel
    openBlock endLabel
  | .ret _ => do
    emit .ret
    setTerminated true

/-- Statements; what follows a `return` is left out. -/
def stmts (c : LowerScope) : List BoundStmt → Lower Unit
  | [] => pure ()
  | s :: ss => do
    if ¬ (← get).terminated then
      c.stmt s
      c.stmts ss

end

/-! ## Render operations -/

/-- The runtime function that adds an attribute of a type. -/
def attributeRuntime : Ty → Runtime × ValueType
  | .int => (.addAttributeInt, .i32)
  | .bool => (.addAttributeBool, .i1)
  | .callback | .methodGroup => (.addAttributeCallback, .ptr)
  | .fragment => (.addAttributeFragment, .ptr)
  | .object _ => (.addAttributeObject, .ptr)
  | .string | .error => (.addAttribute, .ptr)

/-- The runtime function that adds a value of a type to the content. -/
def contentRuntime : Ty → Runtime × ValueType
  | .int => (.addContentInt, .i32)
  | .bool => (.addContentBool, .i1)
  | .fragment => (.addFragment, .ptr)
  | _ => (.addContent, .ptr)

def attr (c : LowerScope) (name : Bytes) (e : BoundExpr) : Lower Unit := do
  let value ← c.expr e
  let key ← string name
  let (f, type) := attributeRuntime e.type
  run f [⟨.builder, .ptr⟩, ⟨key, .ptr⟩, ⟨value.operand, type⟩]

def attributes (c : LowerScope) : List BoundArg → Lower Unit
  | [] => pure ()
  | a :: as => do
    c.attr a.name a.value
    c.attributes as

/-- Hands the next child block over as a fragment for the parameter `content`. -/
def fragment (c : LowerScope) (content : MemberId) : Lower Unit := do
  let index ← modifyGet fun s => (s.fragments, { s with fragments := s.fragments + 1 })
  let value ← compute .makeFragment .ptr
    [⟨.function (fragmentSymbol c.typeName index), .renderFn⟩, ⟨.self, .ptr⟩]
  let key ← string (((c.table.member? content).map (·.name)).getD [])
  run .addAttributeFragment [⟨.builder, .ptr⟩, ⟨key, .ptr⟩, ⟨value.operand, .ptr⟩]

def renderOp (c : LowerScope) : BoundOp → Lower Unit
  | .openElement _ tag => do
    let name ← string tag
    run .openElement [⟨.builder, .ptr⟩, ⟨name, .ptr⟩]
  | .attr _ name value => c.attr name value
  | .closeElement _ => run .closeElement [⟨.builder, .ptr⟩]
  | .text _ text => do
    let constant ← string text
    run .addText [⟨.builder, .ptr⟩, ⟨constant, .ptr⟩]
  | .value _ e => do
    let value ← c.expr e
    let (f, type) := contentRuntime e.type
    run f [⟨.builder, .ptr⟩, ⟨value.operand, type⟩]
  | .component _ type args childSpan _ content => do
    let type ← bound type
    let descriptor ← c.descriptor type
    run .openComponent [⟨.builder, .ptr⟩, descriptor]
    c.attributes args
    match childSpan, content with
    | some _, some content => c.fragment content
    | _, _ => pure ()
    run .closeComponent [⟨.builder, .ptr⟩]

def renderOps (c : LowerScope) : List BoundOp → Lower Unit
  | [] => pure ()
  | op :: ops => do
    c.renderOp op
    c.renderOps ops

end LowerScope

end Code

/-! ## Child blocks -/

namespace BoundOp

/-- The child blocks that stand directly among render operations and are handed to a component. -/
def childBlocks (ops : List BoundOp) : List (List BoundOp) :=
  ops.filterMap fun
    | .component _ _ _ (some _) child (some _) => some child
    | _ => none

mutual

/-- How deep child blocks nest in an operation. -/
def depth : BoundOp → Nat
  | .component _ _ _ _ child _ => 1 + depths child
  | _ => 0

def depths : List BoundOp → Nat
  | [] => 0
  | op :: ops => max (depth op) (depths ops)

end

/-- Child blocks level by level: first the given ones, then those inside them, and so on. -/
def levels (depth : Nat) (blocks : List (List BoundOp)) : List (List BoundOp) :=
  match depth with
  | 0 => []
  | depth + 1 => blocks ++ levels depth (blocks.flatMap childBlocks)

/-- All child blocks of a render block in the order in which they become fragments. -/
def fragments (ops : List BoundOp) : List (List BoundOp) := levels (depths ops) (childBlocks ops)

end BoundOp

namespace Code

open Lower

/-! ## Functions -/

/-- Lowers a body into the function `f`, with counters that start anew. -/
def function (f : Function) (body : Lower Unit) : Lower Function := do
  modify fun s => { s with body := [], temps := 0, labels := 0, terminated := false }
  body
  if ¬ (← get).terminated then emit .ret
  pure { f with body := (← get).body }

namespace LowerScope

/-- The value of a member that has no initialiser. -/
def defaultValue (type : Bytes) : Lower Operand :=
  if type = "int" then pure (.int 0)
  else if type = "bool" then pure (.bool false)
  else if type = "string" then string []
  else pure .null

/-- Stores the initial values of the members from position `index` on. -/
def initMembers (c : LowerScope) (index : Nat) :
    List MemberSymbol → List (Option BoundExpr) → Lower Unit
  | m :: ms, init :: inits => do
    let value ← match init with
      | some e => do
        let value ← c.expr e
        pure value.operand
      | none => defaultValue m.type
    let address ← c.fieldAddress { owner := c.current, index }
    emit (.store (.ofName m.type) value address)
    c.initMembers (index + 1) ms inits
  | _, _ => pure ()

/-- The function that sets up an object: first as an object of its base, then its descriptor, then
its members. -/
def initFunction (c : LowerScope) (type : TypeSymbol) (inits : List (Option BoundExpr)) :
    Lower Function :=
  function { symbol := initSymbol type.fullName, owner := type.fullName } do
    match (if type.base = [] then none else c.table.find? type.base) with
    | some base =>
      let symbol := initSymbol (c.table.nameOf base)
      if ¬ c.model.declares base then declare (.function symbol [.ptr])
      emit (.call none (.method symbol) [⟨.self, .ptr⟩])
    | none => pure ()
    let slot ← freshTemp
    emit (.field slot type.fullName 0)
    let descriptor ← c.descriptor c.current
    emit (.store .ptr descriptor.operand (.temp slot))
    c.initMembers 0 type.members inits

/-- Gives each parameter from `index` on a slot that can be assigned. -/
def paramSlots (index : Nat) : List ValueType → Lower Unit
  | [] => pure ()
  | type :: types => do
    emit (.alloca index type)
    emit (.store type (.param index) (.slot index))
    paramSlots (index + 1) types

def methodFunction (c : LowerScope) (type : TypeSymbol) (method : MethodSymbol)
    (body : List BoundStmt) : Lower Function :=
  let params := method.paramTypes.map ValueType.ofName
  function
    { symbol := methodSymbol type.fullName method.name, owner := type.fullName, params } do
      paramSlots 0 params
      { c with params }.stmts body

def methodFunctions (c : LowerScope) (type : TypeSymbol) :
    List MethodSymbol → List BoundMethod → Lower (List Function)
  | m :: ms, b :: bs => do
    let f ← c.methodFunction type m b.body
    let fs ← c.methodFunctions type ms bs
    pure (f :: fs)
  | _, _ => pure []

def fragmentFunctions (c : LowerScope) (index : Nat) : List (List BoundOp) → Lower (List Function)
  | [] => pure []
  | ops :: blocks => do
    let f ← function
      { symbol := fragmentSymbol c.typeName index, owner := c.typeName, hidden := true,
        builder := true } (c.renderOps ops)
    let fs ← c.fragmentFunctions (index + 1) blocks
    pure (f :: fs)

/-- The render function of a component and the functions of its child blocks. -/
def renderFunctions (c : LowerScope) (ops : List BoundOp) : Lower (List Function) := do
  modify fun s => { s with fragments := 0 }
  let f ← function
    { symbol := renderSymbol c.typeName, owner := c.typeName, builder := true } (c.renderOps ops)
  let fs ← c.fragmentFunctions 0 (BoundOp.fragments ops)
  pure (f :: fs)

end LowerScope

/-- All functions of a declared type. -/
def typeFunctions (m : Model) (t : BoundType) : Lower (List Function) := do
  let c : LowerScope := { model := m, current := t.id }
  let type ← bound (m.table.get? t.id)
  let init ← c.initFunction type t.inits
  let methods ← c.methodFunctions type type.methods t.methods
  let render ← match t.render with
    | some ops => if type.isComponent then c.renderFunctions ops else pure []
    | none => pure []
  pure (init :: methods ++ render)

def functions (m : Model) : List BoundType → Lower (List Function)
  | [] => pure []
  | t :: ts => do
    let fs ← typeFunctions m t
    let others ← functions m ts
    pure (fs ++ others)

/-! ## Modules -/

def layoutOf (m : Model) (t : BoundType) : Layout where
  type := m.table.nameOf t.id
  slots := (m.table.layout t.id).map fun id =>
    .ofName (((m.table.member? id).map (·.type)).getD [])

/-- The render function of a component: its own, or that of the nearest base declared here. -/
def renderOf (m : Model) (t : BoundType) : Option Bytes :=
  let renders (id : TypeId) : Bool := m.types.any fun t => t.id = id ∧ t.render.isSome
  if ((m.table.get? t.id).map (·.isComponent)).getD false then
    ((m.table.lineage t.id).find? renders).map fun id => renderSymbol (m.table.nameOf id)
  else none

def descriptorOf (m : Model) (t : BoundType) : Lower Descriptor := do
  let type ← bound (m.table.get? t.id)
  let route ← if type.route = [] then pure none else do
    let constant ← string type.route
    pure (some constant)
  let name ← string type.fullName
  pure { type := type.fullName, name, route, isComponent := type.isComponent,
         render := renderOf m t }

def descriptors (m : Model) : List BoundType → Lower (List Descriptor)
  | [] => pure []
  | t :: ts => do
    let d ← descriptorOf m t
    let ds ← descriptors m ts
    pure (d :: ds)

/-- The module of a model under the given assembly name. -/
def lower (m : Model) (name : Bytes) : Except LoweringError Module := do
  let start : LowerState :=
    { declarations := Runtime.all.foldl (fun ds f => Declaration.insert (.runtime f) ds) [] }
  let all : Lower (List Function × List Descriptor × Operand) := do
    let fs ← functions m m.types
    let ds ← descriptors m m.types
    let manifest ← string name
    pure (fs, ds, manifest)
  let ((functions, descriptors, manifest), s) ← StateT.run all start
  pure { name, layouts := m.types.map (layoutOf m), strings := s.strings, descriptors, manifest,
         functions, declarations := s.declarations }

end Code

end ViewCompiler
