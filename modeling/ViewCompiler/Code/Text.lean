import ViewCompiler.Code

/-!
The text of lowered code, in the assembly language of the code generator.
-/

namespace ViewCompiler.Code

namespace ValueType

def text : ValueType → Bytes
  | i1 => "i1"
  | i32 => "i32"
  | ptr => "i8*"
  | initFn => "void (i8*)*"
  | renderFn => "void (i8*, i8*)*"

end ValueType

/-- A global symbol. -/
def globalName (symbol : Bytes) : Bytes := "@\"" ++ symbol ++ "\""

/-- The name of the object layout of a type. -/
def structName (type : Bytes) : Bytes := "%\"" ++ type ++ "\""

def descriptorType : Bytes := "%tryc.descriptor"

def manifestType : Bytes := "%tryc.manifest"

def tempName (index : Nat) : Bytes := "%t" ++ Bytes.ofNat index

def slotName (param : Nat) : Bytes := "%p" ++ Bytes.ofNat param ++ ".addr"

/-- The type of a string constant of `size` bytes. -/
def arrayType (size : Nat) : Bytes := "[" ++ Bytes.ofNat size ++ " x i8]"

namespace Operand

def text : Operand → Bytes
  | int v => Bytes.ofNat v
  | bool b => if b then "true" else "false"
  | null => "null"
  | temp i => tempName i
  | param i => "%p" ++ Bytes.ofNat i
  | self => "%self"
  | builder => "%builder"
  | str i size =>
    "getelementptr inbounds (" ++ arrayType size ++ ", " ++ arrayType size ++ "* @.str."
      ++ Bytes.ofNat i ++ ", i64 0, i64 0)"
  | descriptor type =>
    "bitcast (" ++ descriptorType ++ "* " ++ globalName (descriptorSymbol type) ++ " to i8*)"
  | function symbol => globalName symbol

end Operand

namespace Value

def text (v : Value) : Bytes := v.type.text ++ " " ++ v.operand.text

end Value

namespace Address

def text : Address → Bytes
  | temp i => tempName i
  | slot i => slotName i

end Address

namespace Callee

def text : Callee → Bytes
  | runtime f => "@" ++ f.symbol
  | method symbol => globalName symbol

end Callee

namespace Label

def text (l : Label) : Bytes :=
  (match l.kind with
    | .thenPart => Bytes.ofString "if.then"
    | .elsePart => "if.else"
    | .endPart => "if.end") ++ Bytes.ofNat l.index

end Label

namespace ArithOp

def text : ArithOp → Bytes
  | add => "add"
  | sub => "sub"
  | mul => "mul"
  | sdiv => "sdiv"
  | srem => "srem"

end ArithOp

namespace LogicOp

def text : LogicOp → Bytes
  | and => "and"
  | or => "or"
  | xor => "xor"

end LogicOp

namespace Predicate

def text : Predicate → Bytes
  | eq => "eq"
  | ne => "ne"
  | slt => "slt"
  | sgt => "sgt"
  | sle => "sle"
  | sge => "sge"

end Predicate

namespace Instr

/-- An instruction that puts its result into a temporary. -/
def assigned (dest : Nat) (code : Bytes) : Bytes := "  " ++ tempName dest ++ " = " ++ code

def line : Instr → Bytes
  | alloca param type => "  " ++ slotName param ++ " = alloca " ++ type.text
  | field dest type slot =>
    assigned dest ("getelementptr inbounds " ++ structName type ++ ", " ++ structName type
      ++ "* %this, i32 0, i32 " ++ Bytes.ofNat slot)
  | load dest type source =>
    assigned dest ("load " ++ type.text ++ ", " ++ type.text ++ "* " ++ source.text)
  | store type value target =>
    "  store " ++ type.text ++ " " ++ value.text ++ ", " ++ type.text ++ "* " ++ target.text
  | arith dest op left right =>
    assigned dest (op.text ++ " i32 " ++ left.text ++ ", " ++ right.text)
  | logic dest op left right =>
    assigned dest (op.text ++ " i1 " ++ left.text ++ ", " ++ right.text)
  | compare dest pred type left right =>
    assigned dest ("icmp " ++ pred.text ++ " " ++ type.text ++ " " ++ left.text ++ ", "
      ++ right.text)
  | call dest callee args =>
    let arguments := "(" ++ Bytes.join ", " (args.map Value.text) ++ ")"
    match dest with
    | some (d, type) => assigned d ("call " ++ type.text ++ " " ++ callee.text ++ arguments)
    | none => "  call void " ++ callee.text ++ arguments
  | branch condition yes no =>
    "  br i1 " ++ condition.text ++ ", label %" ++ yes.text ++ ", label %" ++ no.text
  | jump target => "  br label %" ++ target.text
  | label l => l.text ++ ":"
  | ret => "  ret void"

end Instr

namespace Function

def signature (f : Function) : Bytes :=
  let own := f.params.zipIdx.map fun (type, i) => type.text ++ " %p" ++ Bytes.ofNat i
  let params : List Bytes := Bytes.ofString "i8* %self" ::
    (own ++ if f.builder then [Bytes.ofString "i8* %builder"] else [])
  "define " ++ (if f.hidden then Bytes.ofString "internal " else []) ++ "void "
    ++ globalName f.symbol ++ "(" ++ Bytes.join ", " params ++ ")"

def text (f : Function) : Bytes :=
  f.signature ++ " \x7b\nentry:\n  %this = bitcast i8* %self to " ++ structName f.owner ++ "*\n"
    ++ f.body.flatMap (fun i => i.line ++ [Ascii.lf]) ++ "\x7d\n\n"

end Function

namespace Layout

def text (l : Layout) : Bytes :=
  structName l.type ++ " = type \x7b "
    ++ Bytes.join ", " ((ValueType.ptr :: l.slots).map ValueType.text) ++ " \x7d\n"

end Layout

/-! ## Constants -/

/-- A byte of a string constant: printable ASCII except quote and backslash stands for itself, any
other byte is a backslash and two hexadecimal digits. -/
def escapeByte (b : UInt8) : Bytes :=
  if 0x20 ≤ b ∧ b < 0x7f ∧ b ≠ Ascii.quote ∧ b ≠ Ascii.backslash then [b]
  else [Ascii.backslash, Bytes.hexDigitUpper (b.toNat / 16), Bytes.hexDigitUpper (b.toNat % 16)]

/-- The bytes of a string constant with the zero byte that ends it. -/
def escape (s : Bytes) : Bytes := s.flatMap escapeByte ++ "\\00"

def constantText (index : Nat) (s : Bytes) : Bytes :=
  "@.str." ++ Bytes.ofNat index ++ " = private unnamed_addr constant " ++ arrayType (s.length + 1)
    ++ " c\"" ++ escape s ++ "\"\n"

namespace Descriptor

def text (d : Descriptor) : Bytes :=
  let struct := structName d.type
  let route : Bytes := match d.route with
    | some r => "i8* " ++ r.text
    | none => "i8* null"
  let render : Bytes := match d.render with
    | some symbol => globalName symbol
    | none => "null"
  globalName (descriptorSymbol d.type) ++ " = constant " ++ descriptorType ++ " \x7b i8* "
    ++ d.name.text ++ ", " ++ route ++ ", i32 " ++ (if d.isComponent then Bytes.ofString "0" else "1")
    ++ ", i64 ptrtoint (" ++ struct ++ "* getelementptr (" ++ struct ++ ", " ++ struct
    ++ "* null, i32 1) to i64), " ++ ValueType.initFn.text ++ " "
    ++ globalName (initSymbol d.type) ++ ", " ++ ValueType.renderFn.text ++ " " ++ render
    ++ " \x7d\n"

end Descriptor

namespace Declaration

def text : Declaration → Bytes
  | runtime f =>
    "declare " ++ ((f.result.map ValueType.text).getD "void") ++ " @" ++ f.symbol ++ "("
      ++ Bytes.join ", " (f.params.map ValueType.text) ++ ")"
  | function symbol params =>
    "declare void " ++ globalName symbol ++ "(" ++ Bytes.join ", " (params.map ValueType.text)
      ++ ")"
  | descriptor symbol => globalName symbol ++ " = external constant " ++ descriptorType

end Declaration

/-! ## Modules -/

namespace Module

/-- The type of the table of descriptors. -/
def tableType (m : Module) : Bytes :=
  "[" ++ Bytes.ofNat m.descriptors.length ++ " x " ++ descriptorType ++ "*]"

def tableText (m : Module) : Bytes :=
  let entries := m.descriptors.map fun d =>
    descriptorType ++ "* " ++ globalName (descriptorSymbol d.type)
  "@tryc_components = constant " ++ m.tableType
    ++ (if entries.isEmpty then Bytes.ofString " zeroinitializer"
        else " [" ++ Bytes.join ", " entries ++ "]") ++ "\n"

def manifestText (m : Module) : Bytes :=
  "@tryc_manifest = constant " ++ manifestType ++ " \x7b i8* " ++ m.manifest.text ++ ", i32 "
    ++ Bytes.ofNat m.descriptors.length ++ ", " ++ descriptorType
    ++ "** getelementptr inbounds (" ++ m.tableType ++ ", " ++ m.tableType
    ++ "* @tryc_components, i64 0, i64 0) \x7d\n"

def text (m : Module) : Bytes :=
  "; ModuleID = '" ++ m.name ++ "'\nsource_filename = \"" ++ m.name ++ "\"\n\n"
    ++ descriptorType ++ " = type \x7b i8*, i8*, i32, i64, " ++ ValueType.initFn.text ++ ", "
    ++ ValueType.renderFn.text ++ " \x7d\n"
    ++ manifestType ++ " = type \x7b i8*, i32, " ++ descriptorType ++ "** \x7d\n"
    ++ m.layouts.flatMap Layout.text ++ "\n"
    ++ m.strings.zipIdx.flatMap (fun (s, i) => constantText i s)
    ++ (if m.strings.isEmpty then [] else [Ascii.lf])
    ++ m.descriptors.flatMap Descriptor.text ++ m.tableText ++ m.manifestText ++ "\n"
    ++ m.functions.flatMap Function.text
    ++ m.declarations.flatMap fun d => d.text ++ [Ascii.lf]

end Module

end ViewCompiler.Code
