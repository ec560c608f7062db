import ViewCompiler.Proofs.Symbols
import ViewCompiler.Proofs.TextReader

/-!
Code as it is read from text. The readers of this module know the assembly language and nothing of how code is
written. Each gives back the operand, instruction or function that was written, in front of any text that does
not go on with it (`run_operand`, `run_instr`, `run_function`), as long as the names in it can stand between
quotes.
-/

namespace ViewCompiler.Code

/-- A name that stands between quotes as it is. -/
structure Quotable (name : Bytes) : Prop where
  nul : Ascii.nul ∉ name
  backslash : Ascii.backslash ∉ name
  quote : Ascii.quote ∉ name

/-- The struct type that an instruction refers to. -/
def Instr.struct? : Instr → Option Bytes
  | field _ type _ => some type
  | _ => none

/-- The names in an instruction can stand between quotes. -/
structure Instr.Quotable (i : Instr) : Prop where
  symbols : ∀ s ∈ i.symbols, Code.Quotable s
  struct : ∀ type ∈ i.struct?, Code.Quotable type

structure Function.Quotable (f : Function) : Prop where
  symbol : Code.Quotable f.symbol
  owner : Code.Quotable f.owner
  body : ∀ i ∈ f.body, i.Quotable

namespace Read

open Reader

/-! ## Names -/

/-- A byte of a name that stands without quotes. -/
def isPlainByte (b : UInt8) : Bool :=
  Ascii.isNameByte b || b == 36 || b == Ascii.minus || b == Ascii.dot

/-- A name between quotes. A backslash there begins an escape, and no name has one. -/
def quotedName : Reader Bytes := do
  literal "\""
  let name ← upTo Ascii.quote
  literal "\""
  guard (Ascii.nul ∉ name ∧ Ascii.backslash ∉ name)
  return name

def name : Reader Bytes := quotedName <|> word isPlainByte

/-- The name of something global. -/
def global : Reader Bytes := do
  literal "@"
  name

/-- The name of a struct type. -/
def structType : Reader Bytes := do
  literal "%"
  name

/-! ## Operands -/

def valueType : Reader ValueType := oneOf [
  ("i1", pure .i1), ("i32", pure .i32), ("i8*", pure .ptr), ("void (i8*)*", pure .initFn),
  ("void (i8*, i8*)*", pure .renderFn)]

/-- The type of an array of bytes, which is its size. -/
def byteArray : Reader Nat := do
  literal "["
  let size ← number
  literal " x i8]"
  return size

/-- The address of the first byte of a string constant. -/
def stringPointer : Reader Operand := do
  let size ← byteArray
  literal ", "
  let again ← byteArray
  guard (again = size)
  literal "* @.str."
  let index ← number
  literal ", i64 0, i64 0)"
  return .str index size

/-- The type whose descriptor has the symbol. -/
def describedType? (symbol : Bytes) : Option Bytes := (".$descriptor" : Bytes).isSuffixOf? symbol

def descriptorPointer : Reader Operand := do
  let struct ← structType
  guard (struct = "tryc.descriptor")
  literal "* "
  let symbol ← global
  let type ← given (describedType? symbol)
  literal " to i8*)"
  return .descriptor type

def operand : Reader Operand :=
  (do return .int (← number)) <|> oneOf [
    ("true", pure (.bool true)), ("false", pure (.bool false)), ("null", pure .null),
    ("%self", pure .self), ("%builder", pure .builder),
    ("%t", do return .temp (← number)), ("%p", do return .param (← number)),
    ("getelementptr inbounds (", stringPointer), ("bitcast (", descriptorPointer),
    ("@", do return .function (← quotedName))]

def value : Reader Value := do
  let type ← valueType
  literal " "
  let operand ← operand
  return ⟨operand, type⟩

def address : Reader Address := oneOf [
  ("%t", do return .temp (← number)),
  ("%p", do
    let param ← number
    literal ".addr"
    return .slot param)]

/-! ## Instructions -/

def runtimeNames : List (Bytes × Runtime) := [
  ("tryc_rt_open_element", .openElement), ("tryc_rt_close_element", .closeElement),
  ("tryc_rt_add_attribute", .addAttribute), ("tryc_rt_add_attribute_int", .addAttributeInt),
  ("tryc_rt_add_attribute_bool", .addAttributeBool),
  ("tryc_rt_add_attribute_callback", .addAttributeCallback),
  ("tryc_rt_add_attribute_fragment", .addAttributeFragment),
  ("tryc_rt_add_attribute_object", .addAttributeObject), ("tryc_rt_add_text", .addText),
  ("tryc_rt_add_content", .addContent), ("tryc_rt_add_content_int", .addContentInt),
  ("tryc_rt_add_content_bool", .addContentBool), ("tryc_rt_add_fragment", .addFragment),
  ("tryc_rt_open_component", .openComponent), ("tryc_rt_close_component", .closeComponent),
  ("tryc_rt_make_callback", .makeCallback), ("tryc_rt_make_fragment", .makeFragment),
  ("tryc_rt_invoke_callback", .invokeCallback), ("tryc_rt_concat", .concat),
  ("tryc_rt_int_to_string", .intToString), ("tryc_rt_bool_to_string", .boolToString),
  ("tryc_rt_string_equals", .stringEquals)]

/-- What is called: a plain name is an entry point of the runtime, a quoted one belongs to a type. -/
def callee : Reader Callee := do
  literal "@"
  (do return .method (← quotedName)) <|> (do
    let name ← word isPlainByte
    return .runtime (← given (runtimeNames.lookup name)))

def arguments : Reader (List Value) := do
  literal "("
  let args ← commaList value
  literal ")"
  return args

def label : Reader Label := oneOf [
  ("if.then", do return ⟨.thenPart, ← number⟩), ("if.else", do return ⟨.elsePart, ← number⟩),
  ("if.end", do return ⟨.endPart, ← number⟩)]

def predicate : Reader Predicate := oneOf [
  ("eq", pure .eq), ("ne", pure .ne), ("slt", pure .slt), ("sgt", pure .sgt), ("sle", pure .sle),
  ("sge", pure .sge)]

/-- The address of a slot of the object. -/
def slotAddress (dest : Nat) : Reader Instr := do
  let type ← structType
  literal ", "
  let again ← structType
  guard (again = type)
  literal "* %this, i32 0, i32 "
  let slot ← number
  return .field dest type slot

/-- A pointer to a value of the type. -/
def pointer (type : ValueType) : Reader Address := do
  let element ← valueType
  guard (element = type)
  literal "* "
  address

/-- Two operands of one type. -/
def operands (make : Operand → Operand → Instr) : Reader Instr := do
  let left ← operand
  literal ", "
  let right ← operand
  return make left right

/-- What the temporary is set to. -/
def assignment (dest : Nat) : Reader Instr := oneOf [
  ("getelementptr inbounds ", slotAddress dest),
  ("load ", do
    let type ← valueType
    literal ", "
    return .load dest type (← pointer type)),
  ("add", do literal " i32 "; operands (.arith dest .add)),
  ("sub", do literal " i32 "; operands (.arith dest .sub)),
  ("mul", do literal " i32 "; operands (.arith dest .mul)),
  ("sdiv", do literal " i32 "; operands (.arith dest .sdiv)),
  ("srem", do literal " i32 "; operands (.arith dest .srem)),
  ("and", do literal " i1 "; operands (.logic dest .and)),
  ("or", do literal " i1 "; operands (.logic dest .or)),
  ("xor", do literal " i1 "; operands (.logic dest .xor)),
  ("icmp ", do
    let pred ← predicate
    literal " "
    let type ← valueType
    literal " "
    operands (.compare dest pred type)),
  ("call ", do
    let type ← valueType
    literal " "
    let callee ← callee
    return .call (some (dest, type)) callee (← arguments))]

/-- A line of a function. -/
def instr : Reader Instr := do
  let i ← (do
    let l ← label
    literal ":"
    return .label l) <|> oneOf [
    ("  %p", do
      let param ← number
      literal ".addr = alloca "
      return .alloca param (← valueType)),
    ("  %t", do
      let dest ← number
      literal " = "
      assignment dest),
    ("  store ", do
      let type ← valueType
      literal " "
      let value ← operand
      literal ", "
      return .store type value (← pointer type)),
    ("  call void ", do
      let callee ← callee
      return .call none callee (← arguments)),
    ("  br i1 ", do
      let condition ← operand
      literal ", label %"
      let yes ← label
      literal ", label %"
      return .branch condition yes (← label)),
    ("  br label %", do return .jump (← label)),
    ("  ret void", pure .ret)]
  literal "\n"
  return i

/-! ## Functions -/

/-- What the line of a function names: its object, the parameters of a method and the builder. -/
def paramValues (params : List ValueType) (builder : Bool) : List Value :=
  ⟨.self, .ptr⟩ :: params.zipIdx.map (fun (type, i) => ⟨.param i, type⟩) ++
    if builder then [⟨.builder, .ptr⟩] else []

/-- The types of the parameters that have a number, and whether there is a builder. -/
def parameters : Reader (List ValueType × Bool) := do
  let args ← arguments
  let params := args.filterMap fun v => match v.operand with
    | .param _ => some v.type
    | _ => none
  let builder := decide (⟨.builder, .ptr⟩ ∈ args)
  guard (paramValues params builder = args)
  return (params, builder)

def function : Reader Function := do
  literal "define "
  let hidden ← (do literal "internal "; return true) <|> pure false
  literal "void "
  let symbol ← global
  let (params, builder) ← parameters
  literal " \x7b\nentry:\n  %this = bitcast i8* %self to "
  let owner ← structType
  literal "*\n"
  let body ← many instr
  literal "\x7d\n\n"
  return { symbol, owner, hidden, params, builder, body }

/-! ## What is read -/

section
variable {s rest : Bytes}

theorem quotable_of_plain (h : s.all isPlainByte = true) : Quotable s where
  nul hmem := by cases List.all_eq_true.1 h _ hmem
  backslash hmem := by cases List.all_eq_true.1 h _ hmem
  quote hmem := by cases List.all_eq_true.1 h _ hmem

theorem stops_isDigit (h : stops isPlainByte rest = true) : stops Ascii.isDigit rest = true := by
  cases rest with
  | nil => rfl
  | cons b rest =>
    have hb : isPlainByte b = false := by simpa [stops] using h
    have hdigit : Ascii.isDigit b = false := by
      simp only [isPlainByte, Ascii.isNameByte, Ascii.isAlnum, Bool.or_eq_false_iff] at hb
      exact hb.1.1.1.1.2
    simp [stops, hdigit]

theorem run_quotedName (h : Quotable s) (rest : Bytes) :
    quotedName.run (("\"" : Bytes) ++ (s ++ (("\"" : Bytes) ++ rest))) = some (s, rest) := by
  have hname : (upTo Ascii.quote).run (s ++ (("\"" : Bytes) ++ rest)) = some (s, ("\"" : Bytes) ++ rest) :=
    run_upTo h.quote rfl
  simp [quotedName, hname, h.nul, h.backslash]

theorem globalName_append (s rest : Bytes) :
    globalName s ++ rest = ("@" : Bytes) ++ (("\"" : Bytes) ++ (s ++ (("\"" : Bytes) ++ rest))) := by
  have hopen : ("@\"" : Bytes) = "@" ++ "\"" := by decide
  simp only [globalName, hopen, List.append_assoc]

theorem structName_append (s rest : Bytes) :
    structName s ++ rest = ("%" : Bytes) ++ (("\"" : Bytes) ++ (s ++ (("\"" : Bytes) ++ rest))) := by
  have hopen : ("%\"" : Bytes) = "%" ++ "\"" := by decide
  simp only [structName, hopen, List.append_assoc]

theorem run_global (h : Quotable s) (rest : Bytes) : global.run (globalName s ++ rest) = some (s, rest) := by
  simp [globalName_append, global, name, run_quotedName h]

theorem run_structType (h : Quotable s) (rest : Bytes) :
    structType.run (structName s ++ rest) = some (s, rest) := by
  simp [structName_append, structType, name, run_quotedName h]

theorem run_quotedName_of_plain (hs : s.all isPlainByte = true) (hne : s ≠ []) (rest : Bytes) :
    quotedName.run (s ++ rest) = none := by
  obtain ⟨b, s, rfl⟩ := List.exists_cons_of_ne_nil hne
  have hb : ¬ (Ascii.quote == b) = true := by
    rw [beq_iff_eq]
    rintro rfl
    cases List.all_eq_true.1 hs _ List.mem_cons_self
  have hliteral : (literal "\"").run (b :: (s ++ rest)) = none := by
    change (if Ascii.quote == b then _ else _ : Option _).map _ = none
    rw [if_neg hb]
    rfl
  rw [quotedName, StateT.run_bind, List.cons_append, hliteral]
  rfl

/-- A name without quotes. -/
theorem run_name_plain (hs : s.all isPlainByte = true) (hne : s ≠ [])
    (hrest : stops isPlainByte rest = true) : name.run (s ++ rest) = some (s, rest) := by
  simp [name, run_quotedName_of_plain hs hne, run_word hs hne hrest]

theorem run_structType_descriptor (h : stops isPlainByte rest = true) :
    structType.run (descriptorType ++ rest) = some (("tryc.descriptor" : Bytes), rest) := by
  have htype : descriptorType = "%" ++ ("tryc.descriptor" : Bytes) := by decide
  have hname : name.run (("tryc.descriptor" : Bytes) ++ rest) = some (("tryc.descriptor" : Bytes), rest) :=
    run_name_plain (by decide) (by decide) h
  simp [htype, structType, hname]

@[simp] theorem run_valueType (type : ValueType) (rest : Bytes) :
    valueType.run (type.text ++ rest) = some (type, rest) := by
  cases type <;> rfl

@[simp] theorem run_byteArray (size : Nat) (rest : Bytes) :
    byteArray.run (arrayType size ++ rest) = some (size, rest) := by
  simp +decide [byteArray, arrayType]

theorem describedType?_descriptorSymbol (type : Bytes) :
    describedType? (descriptorSymbol type) = some type :=
  List.isSuffixOf?_eq_some_iff_append_eq.2 rfl

/-- An operand whose symbols can stand between quotes. -/
theorem run_operand {o : Operand} (h : ∀ s ∈ o.symbols, Quotable s) (hrest : stops isPlainByte rest = true) :
    operand.run (o.text ++ rest) = some (o, rest) := by
  have hdigit := stops_isDigit hrest
  cases o with
  | int | temp | param => simp +decide [operand, Operand.text, tempName, hdigit]
  | bool b => cases b <;> simp +decide [operand, Operand.text]
  | null | self | builder | str => simp +decide [operand, Operand.text, stringPointer]
  | descriptor type =>
    have hsymbol := run_global (h _ List.mem_cons_self)
    simp +decide [operand, Operand.text, descriptorPointer, run_structType_descriptor, hsymbol,
      describedType?_descriptorSymbol, given]
  | function symbol =>
    have hsymbol : Quotable symbol := h _ List.mem_cons_self
    simp +decide [operand, Operand.text, globalName_append, run_quotedName hsymbol]

theorem run_value {v : Value} (h : ∀ s ∈ v.operand.symbols, Quotable s)
    (hrest : stops isPlainByte rest = true) : value.run (v.text ++ rest) = some (v, rest) := by
  simp [value, Value.text, run_operand h hrest]

theorem run_address (a : Address) (hrest : stops isPlainByte rest = true) :
    address.run (a.text ++ rest) = some (a, rest) := by
  cases a <;> simp +decide [address, Address.text, tempName, slotName, stops_isDigit hrest]

theorem run_pointer (type : ValueType) (a : Address) (hrest : stops isPlainByte rest = true) :
    (pointer type).run (type.text ++ (("* " : Bytes) ++ (a.text ++ rest))) = some (a, rest) := by
  simp [pointer, run_address a hrest]

theorem lookup_runtimeNames (f : Runtime) : runtimeNames.lookup f.symbol = some f := by
  cases f <;> decide

theorem isPlainByte_symbol (f : Runtime) : f.symbol.all isPlainByte = true ∧ f.symbol ≠ [] := by
  cases f <;> decide

theorem run_callee {c : Callee} (h : Quotable c.symbol) (hrest : stops isPlainByte rest = true) :
    callee.run (c.text ++ rest) = some (c, rest) := by
  cases c with
  | runtime f =>
    obtain ⟨hs, hne⟩ := isPlainByte_symbol f
    simp [callee, Callee.text, run_quotedName_of_plain hs hne, run_word hs hne hrest, lookup_runtimeNames,
      given]
  | method s =>
    have hs : Quotable s := h
    simp [callee, Callee.text, globalName_append, run_quotedName hs]

/-- A callee in front of its arguments. -/
theorem run_call {c : Callee} (h : Quotable c.symbol) (rest : Bytes) :
    callee.run (c.text ++ (("(" : Bytes) ++ rest)) = some (c, ("(" : Bytes) ++ rest) :=
  run_callee h (stops_append (by decide) _)

theorem run_arguments (args : List Value) (h : ∀ a ∈ args, ∀ s ∈ a.operand.symbols, Quotable s)
    (rest : Bytes) :
    arguments.run (("(" : Bytes) ++ (Bytes.join ", " (args.map Value.text) ++ ((")" : Bytes) ++ rest))) =
      some (args, rest) := by
  have hargs : (commaList value).run (Bytes.join ", " (args.map Value.text) ++ ((")" : Bytes) ++ rest)) =
      some (args, (")" : Bytes) ++ rest) :=
    run_commaList isPlainByte (fun a ha _ hrest => run_value (h a ha) hrest) rfl rfl rfl rfl
  simp [arguments, hargs]

theorem run_label (l : Label) (hrest : stops Ascii.isDigit rest = true) :
    label.run (l.text ++ rest) = some (l, rest) := by
  obtain ⟨kind, index⟩ := l
  cases kind <;> simp +decide [label, Label.text, hrest]

theorem run_label_of_diverge {t : Bytes}
    (h : (["if.then", "if.else", "if.end"] : List Bytes).all (diverge · t) = true) (rest : Bytes) :
    label.run (t ++ rest) = none := by
  simp only [List.all_cons, List.all_nil, Bool.and_eq_true] at h
  simp [label, h]

/-! ## Instructions and functions as they are read -/

theorem run_operands {make : Operand → Operand → Instr} {left right : Operand}
    (h : ∀ s ∈ left.symbols ++ right.symbols, Quotable s) (hrest : stops isPlainByte rest = true) :
    (operands make).run (left.text ++ ((", " : Bytes) ++ (right.text ++ rest))) =
      some (make left right, rest) := by
  obtain ⟨hl, hr⟩ := List.forall_mem_append.1 h
  simp +decide [operands, run_operand hl, run_operand hr hrest]

/-- A line that sets a temporary is read as what it sets it to. -/
theorem run_instr_assigned {dest : Nat} {code : Bytes} {i : Instr} (rest : Bytes)
    (h : (assignment dest).run (code ++ (("\n" : Bytes) ++ rest)) = some (i, ("\n" : Bytes) ++ rest)) :
    instr.run (Instr.assigned dest code ++ (("\n" : Bytes) ++ rest)) = some (i, rest) := by
  have htemp (rest : Bytes) : ("  " : Bytes) ++ (tempName dest ++ rest) =
      ("  %t" : Bytes) ++ (Bytes.ofNat dest ++ rest) := by
    have hopen : ("  %t" : Bytes) = "  " ++ "%t" := by decide
    simp only [tempName, hopen, List.append_assoc]
  simp +decide [instr, Instr.assigned, htemp, run_label_of_diverge, h]

/-- An instruction whose names can stand between quotes. -/
theorem run_instr {i : Instr} (h : i.Quotable) (rest : Bytes) :
    instr.run (i.line ++ (("\n" : Bytes) ++ rest)) = some (i, rest) := by
  obtain ⟨hsymbols, hstruct⟩ := h
  cases i with
  | alloca param type =>
    have hslot (rest : Bytes) : ("  " : Bytes) ++ (slotName param ++ ((" = alloca " : Bytes) ++ rest)) =
        ("  %p" : Bytes) ++ (Bytes.ofNat param ++ ((".addr = alloca " : Bytes) ++ rest)) := by
      have hopen : ("  %p" : Bytes) = "  " ++ "%p" := by decide
      have hclose : (".addr = alloca " : Bytes) = ".addr" ++ " = alloca " := by decide
      simp only [slotName, hopen, hclose, List.append_assoc]
    simp +decide [instr, Instr.line, hslot, run_label_of_diverge]
  | field dest type slot =>
    have htype := run_structType (hstruct _ rfl)
    exact run_instr_assigned rest (by simp +decide [assignment, slotAddress, htype])
  | load dest type source =>
    exact run_instr_assigned rest (by simp +decide [assignment, run_pointer])
  | store type v target =>
    simp +decide [instr, Instr.line, run_label_of_diverge, run_pointer, run_operand hsymbols]
  | arith dest op left right =>
    refine run_instr_assigned rest ?_
    cases op <;> simp +decide [assignment, ArithOp.text, run_operands hsymbols]
  | logic dest op left right =>
    refine run_instr_assigned rest ?_
    cases op <;> simp +decide [assignment, LogicOp.text, run_operands hsymbols]
  | compare dest pred type left right =>
    refine run_instr_assigned rest ?_
    cases pred <;> simp +decide [assignment, Predicate.text, predicate, run_operands hsymbols]
  | call dest c args =>
    have hc := run_call (hsymbols _ List.mem_cons_self)
    have hargs := run_arguments args fun a ha s hs =>
      hsymbols s (List.mem_cons_of_mem _ (List.mem_flatMap.2 ⟨a, ha, hs⟩))
    cases dest with
    | none => simp +decide [instr, Instr.line, run_label_of_diverge, hc, hargs]
    | some d => exact run_instr_assigned rest (by simp +decide [assignment, hc, hargs])
  | branch condition yes no =>
    simp +decide [instr, Instr.line, run_label_of_diverge, run_operand hsymbols, run_label]
  | jump target => simp +decide [instr, Instr.line, run_label_of_diverge, run_label]
  | label l => simp +decide [instr, Instr.line, run_label]
  | ret => simp +decide [instr, Instr.line, run_label_of_diverge]

theorem signature_eq (f : Function) : f.signature = "define " ++
    (if f.hidden then Bytes.ofString "internal " else []) ++ "void " ++ globalName f.symbol ++ "(" ++
      Bytes.join ", " ((paramValues f.params f.builder).map Value.text) ++ ")" := by
  have hself : Value.text ⟨.self, .ptr⟩ = "i8* %self" := by decide
  have hbuilder : Value.text ⟨.builder, .ptr⟩ = "i8* %builder" := by decide
  have hparam (type : ValueType) (i : Nat) :
      Value.text ⟨.param i, type⟩ = type.text ++ " %p" ++ Bytes.ofNat i := by
    have hopen : (" %p" : Bytes) = " " ++ "%p" := by decide
    simp only [Value.text, Operand.text, hopen, List.append_assoc]
  cases h : f.builder <;>
    simp [Function.signature, paramValues, h, hself, hbuilder, hparam, Function.comp_def]

theorem run_parameters (params : List ValueType) (builder : Bool) (rest : Bytes) :
    parameters.run (("(" : Bytes) ++ (Bytes.join ", " ((paramValues params builder).map Value.text) ++
      ((")" : Bytes) ++ rest))) = some ((params, builder), rest) := by
  have hnumbered : ∀ v ∈ params.zipIdx.map fun (type, i) => (⟨.param i, type⟩ : Value),
      v.operand.symbols = [] := by
    intro v hv
    obtain ⟨p, -, rfl⟩ := List.mem_map.1 hv
    rfl
  have hnone : ∀ v ∈ paramValues params builder, v.operand.symbols = [] := by
    intro v hv
    rcases List.mem_cons.1 hv with rfl | hv
    · rfl
    rcases List.mem_append.1 hv with hv | hv
    · exact hnumbered v hv
    · split at hv
      · rw [List.mem_singleton.1 hv]
        rfl
      · cases hv
  have hargs := run_arguments (paramValues params builder)
    (fun v hv s hs => by rw [hnone v hv] at hs; cases hs) rest
  have hparams : (paramValues params builder).filterMap (fun v =>
      match v.operand with
      | .param _ => some v.type
      | _ => none) = params := by
    have htypes : params.zipIdx.filterMap (fun p => some p.1) = params := by
      rw [List.filterMap_eq_map', List.zipIdx_map_fst]
    cases builder <;> simp [paramValues, List.filterMap_map, htypes]
  have hbuilder : decide (⟨.builder, .ptr⟩ ∈ paramValues params builder) = builder := by
    cases builder <;> simp [paramValues]
  simp only [parameters, StateT.run_bind, hargs, Option.bind_eq_bind, Option.bind_some, hparams, hbuilder,
    run_guard, StateT.run_pure, Option.pure_def]

theorem run_function {f : Function} (h : f.Quotable) (rest : Bytes) :
    function.run (f.text ++ rest) = some (f, rest) := by
  have hbody (rest : Bytes) :
      (many instr).run (f.body.flatMap (fun i => i.line ++ [Ascii.lf]) ++ (("\x7d\n\n" : Bytes) ++ rest)) =
        some (f.body, ("\x7d\n\n" : Bytes) ++ rest) := by
    have hlines : ∀ i ∈ f.body, ∀ rest, instr.run ((i.line ++ [Ascii.lf]) ++ rest) = some (id i, rest) := by
      intro i hi rest
      rw [List.append_assoc]
      exact run_instr (h.body i hi) rest
    exact (run_many_lines hlines rfl).trans (by rw [List.map_id])
  rw [Function.text, signature_eq]
  obtain ⟨symbol, owner, hidden, params, builder, body⟩ := f
  cases hidden <;>
    simp +decide [function, run_global h.symbol, run_structType h.owner, run_parameters, hbody]

end

end Read

end ViewCompiler.Code
