import ViewCompiler.Proofs.ConstantTexts

/-!
The listing of a module: what is read from its text. Behind a heading that names the module stand definitions
and declarations, one behind the other up to the end of the text, and each is read as it stands there. A name
that is to come back has to be quotable; then the text of a module is read as its parts (`Module.Legible`).

The heading copies the name of the module as it is. Whatever the name, the text goes on behind it in the same
way; the heading itself is read back if the name has no line feed and no quote (`Module.Legible.read?`).
-/

namespace ViewCompiler.Code

/-! ## Listings -/

/-- A descriptor as its line gives it. -/
structure DescriptorDefinition where
  symbol : Bytes
  type : Bytes
  name : Operand
  route : Operand
  isComponent : Bool
  init : Bytes
  render : Option Bytes
deriving DecidableEq, Repr

/-- The table of descriptors. -/
structure TableDefinition where
  symbol : Bytes
  entries : List Bytes
deriving DecidableEq, Repr

/-- What the runtime reads first. -/
structure ManifestDefinition where
  symbol : Bytes
  name : Operand
  count : Nat
  table : Bytes
deriving DecidableEq, Repr

/-- The definitions and declarations of a module in their order. `records` are the struct types of the
runtime. -/
structure Listing where
  records : List Bytes
  layouts : List Layout
  arrays : List ArrayDefinition
  descriptors : List DescriptorDefinition
  table : TableDefinition
  manifest : ManifestDefinition
  functions : List Function
  declarations : List Declaration
deriving DecidableEq, Repr

/-! ## Reading -/

namespace Read

open Reader

/-- The name of this struct type. -/
def struct (type : Bytes) : Reader Unit := do
  let found ← structType
  guard (found = type)

/-- This type, in front of a value. -/
def typed (type : ValueType) : Reader Unit := do
  let found ← valueType
  guard (found = type)
  literal " "

/-- The struct types of the runtime. -/
def records : Reader (List Bytes) := do
  let descriptor ← structType
  literal " = type \x7b i8*, i8*, i32, i64, "
  let first ← valueType
  literal ", "
  let second ← valueType
  guard (first = .initFn ∧ second = .renderFn)
  literal " \x7d\n"
  let manifest ← structType
  literal " = type \x7b i8*, i32, "
  struct descriptor
  literal "** \x7d\n"
  return [descriptor, manifest]

/-- An object layout. Its first slot is for the descriptor. -/
def layout : Reader Layout := do
  let type ← structType
  literal " = type \x7b "
  let slots ← commaList valueType
  guard (slots.head? = some .ptr)
  literal " \x7d\n"
  return ⟨type, slots.tail⟩

/-- The size of the objects of a type, which is where a second one would stand. -/
def objectSize : Reader Bytes := do
  literal "ptrtoint ("
  let type ← structType
  literal "* getelementptr ("
  struct type
  literal ", "
  struct type
  literal "* null, i32 1) to i64)"
  return type

def renderPointer : Reader (Option Bytes) :=
  (do return some (← global)) <|> (do
    literal "null"
    return none)

def descriptorDefinition : Reader DescriptorDefinition := do
  let symbol ← global
  literal " = constant "
  struct "tryc.descriptor"
  literal " \x7b i8* "
  let name ← operand
  literal ", "
  typed .ptr
  let route ← operand
  literal ", i32 "
  let isComponent ← oneOf [("0", pure true), ("1", pure false)]
  literal ", i64 "
  let type ← objectSize
  literal ", "
  typed .initFn
  let init ← global
  literal ", "
  typed .renderFn
  let render ← renderPointer
  literal " \x7d\n"
  return { symbol, type, name, route, isComponent, init, render }

/-- The type of a table of descriptors, which is its length. -/
def tableType : Reader Nat := do
  literal "["
  let count ← number
  literal " x "
  struct "tryc.descriptor"
  literal "*]"
  return count

def tableEntry : Reader Bytes := do
  struct "tryc.descriptor"
  literal "* "
  global

def tableEntries : Reader (List Bytes) := oneOf [
  (" zeroinitializer", pure []),
  (" [", do
    let entries ← commaList tableEntry
    literal "]"
    return entries)]

def tableDefinition : Reader TableDefinition := do
  let symbol ← global
  literal " = constant "
  let count ← tableType
  let entries ← tableEntries
  guard (entries.length = count)
  literal "\n"
  return ⟨symbol, entries⟩

def manifestDefinition : Reader ManifestDefinition := do
  let symbol ← global
  literal " = constant "
  struct "tryc.manifest"
  literal " \x7b i8* "
  let name ← operand
  literal ", i32 "
  let count ← number
  literal ", "
  struct "tryc.descriptor"
  literal "** getelementptr inbounds ("
  let length ← tableType
  literal ", "
  let again ← tableType
  guard (length = count ∧ again = count)
  literal "* "
  let table ← global
  literal ", i64 0, i64 0) \x7d\n"
  return ⟨symbol, name, count, table⟩

/-- The type of a result in front of the function that gives it. -/
def result : Reader (Option ValueType) :=
  (do
    literal "void "
    return none) <|> (do
    let type ← valueType
    literal " "
    return some type)

def declaredFunction : Reader Declaration := do
  let result ← result
  let callee ← callee
  literal "("
  let params ← commaList valueType
  literal ")"
  match callee with
  | .runtime f =>
    guard (params = f.params ∧ result = f.result)
    return .runtime f
  | .method symbol =>
    guard (result = none)
    return .function symbol params

def declaredDescriptor : Reader Declaration := do
  let symbol ← quotedName
  literal " = external constant "
  struct "tryc.descriptor"
  return .descriptor symbol

def declaration : Reader Declaration := do
  let d ← oneOf [("declare ", declaredFunction), ("@", declaredDescriptor)]
  literal "\n"
  return d

/-- What stands behind the heading. -/
def listing : Reader Listing := do
  let records ← records
  let layouts ← many layout
  literal "\n"
  let arrays ← many arrayDefinition
  if arrays ≠ [] then literal "\n"
  let descriptors ← many descriptorDefinition
  let table ← tableDefinition
  let manifest ← manifestDefinition
  literal "\n"
  let functions ← many function
  let declarations ← many declaration
  return { records, layouts, arrays, descriptors, table, manifest, functions, declarations }

/-- The name in the heading, which is a comment line and the name of the source. -/
def heading : Reader Bytes := do
  literal "; ModuleID = '"
  let _ ← upTo Ascii.lf
  literal "\nsource_filename = \""
  let name ← upTo Ascii.quote
  literal "\"\n\n"
  return name

end Read

/-- A text that is a listing up to its end. -/
def Listing.readCode? (code : Bytes) : Option Listing := do
  let (L, rest) ← Read.listing.run code
  guard (rest = [])
  return L

/-- A text that is a heading and a listing, with the name that the heading gives. -/
def Listing.read? (text : Bytes) : Option (Bytes × Listing) := do
  let (name, code) ← Read.heading.run text
  let L ← readCode? code
  return (name, L)

/-! ## Symbols -/

/-- The symbols that a descriptor refers to. -/
def DescriptorDefinition.symbols (d : DescriptorDefinition) : List Bytes :=
  d.name.symbols ++ d.route.symbols ++ d.init :: d.render.toList

namespace Listing

/-- The symbols that the text defines. -/
def defined (L : Listing) : List Bytes :=
  L.arrays.map (·.symbol) ++ L.descriptors.map (·.symbol) ++ [L.table.symbol, L.manifest.symbol] ++
    L.functions.map (·.symbol)

/-- The symbols that the text takes from elsewhere. -/
def declared (L : Listing) : List Bytes := L.declarations.map (·.symbol)

/-- The symbols that the text refers to. -/
def used (L : Listing) : List Bytes :=
  L.descriptors.flatMap DescriptorDefinition.symbols ++ L.table.entries ++ L.manifest.name.symbols ++
    [L.manifest.table] ++ L.functions.flatMap fun f => f.body.flatMap Instr.symbols

/-- The names of the struct types that the text defines. -/
def structs (L : Listing) : List Bytes := L.records ++ L.layouts.map (·.type)

end Listing

/-! ## The listing of a module -/

def Descriptor.definition (d : Descriptor) : DescriptorDefinition where
  symbol := descriptorSymbol d.type
  type := d.type
  name := d.name
  route := d.route.getD .null
  isComponent := d.isComponent
  init := initSymbol d.type
  render := d.render

/-- The names in a descriptor can stand between quotes. -/
structure Descriptor.Quotable (d : Descriptor) : Prop where
  type : Code.Quotable d.type
  symbol : Code.Quotable (descriptorSymbol d.type)
  symbols : ∀ s ∈ d.symbols, Code.Quotable s

/-- The names of a module can stand between quotes. -/
structure Module.Quotable (M : Module) : Prop where
  layouts : ∀ l ∈ M.layouts, Code.Quotable l.type
  descriptors : ∀ d ∈ M.descriptors, d.Quotable
  manifest : ∀ s ∈ M.manifest.symbols, Code.Quotable s
  functions : ∀ f ∈ M.functions, f.Quotable
  declarations : ∀ d ∈ M.declarations, Code.Quotable d.symbol

namespace Module

def listing (M : Module) : Listing where
  records := ["tryc.descriptor", "tryc.manifest"]
  layouts := M.layouts
  arrays := M.strings.zipIdx.map fun (s, i) => ⟨stringSymbol i, s.length + 1, s ++ [0]⟩
  descriptors := M.descriptors.map Descriptor.definition
  table := ⟨tableSymbol, M.descriptors.map fun d => descriptorSymbol d.type⟩
  manifest := ⟨manifestSymbol, M.manifest, M.descriptors.length, tableSymbol⟩
  functions := M.functions
  declarations := M.declarations

section
variable (M : Module)

theorem symbols_arrays :
    M.listing.arrays.map (·.symbol) = (List.range M.strings.length).map stringSymbol := by
  rw [listing, List.map_map, List.range_eq_range', ← List.zipIdx_map_snd 0, List.map_map]
  rfl

theorem defined_listing : M.listing.defined = M.defined := by
  rw [Listing.defined, symbols_arrays, defined]
  simp [listing, Descriptor.definition, Function.comp_def]

theorem declared_listing : M.listing.declared = M.declared := rfl

theorem used_listing : M.listing.used = M.used := by
  have hdescriptor (d : Descriptor) : d.definition.symbols = d.symbols := by
    cases hroute : d.route <;>
      simp [DescriptorDefinition.symbols, Descriptor.definition, Descriptor.symbols, hroute, Operand.symbols]
  simp [Listing.used, used, listing, List.flatMap_map, hdescriptor]

end

/-- The two lines in front of a module of this name, which copy the name as it is. -/
def heading (name : Bytes) : Bytes :=
  "; ModuleID = '" ++ name ++ "'\nsource_filename = \"" ++ name ++ "\"\n\n"

end Module

/-- The struct types of the runtime as they are written. -/
def recordsText : Bytes :=
  descriptorType ++ " = type \x7b i8*, i8*, i32, i64, " ++ ValueType.initFn.text ++ ", "
    ++ ValueType.renderFn.text ++ " \x7d\n"
    ++ manifestType ++ " = type \x7b i8*, i32, " ++ descriptorType ++ "** \x7d\n"

namespace Module

/-- What stands behind the heading. -/
def code (M : Module) : Bytes :=
  recordsText ++ M.layouts.flatMap Layout.text ++ "\n"
    ++ M.strings.zipIdx.flatMap (fun (s, i) => constantText i s)
    ++ (if M.strings.isEmpty then [] else [Ascii.lf])
    ++ M.descriptors.flatMap Descriptor.text ++ M.tableText ++ M.manifestText ++ "\n"
    ++ M.functions.flatMap Function.text
    ++ M.declarations.flatMap fun d => d.text ++ [Ascii.lf]

theorem text_eq (M : Module) : M.text = heading M.name ++ M.code := by
  unfold text heading code recordsText
  simp only [List.append_assoc]

/-- What stands behind the heading is read as the parts of the module. -/
def Legible (M : Module) : Prop :=
  ∃ code, M.text = heading M.name ++ code ∧ Listing.readCode? code = some M.listing

theorem legible_iff {M : Module} : M.Legible ↔ Listing.readCode? M.code = some M.listing := by
  constructor
  · rintro ⟨code, htext, hcode⟩
    rw [text_eq] at htext
    rwa [List.append_cancel_left htext]
  · exact fun h => ⟨M.code, M.text_eq, h⟩

/-- A name that stays on its line and between its quotes is read from the heading. -/
theorem Legible.read? {M : Module} (h : M.Legible) (hline : Ascii.lf ∉ M.name)
    (hquote : Ascii.quote ∉ M.name) : Listing.read? M.text = some (M.name, M.listing) := by
  obtain ⟨code, htext, hcode⟩ := h
  have hcomment : Ascii.lf ∉ M.name ++ Bytes.ofString "'" := by
    simp only [List.mem_append, not_or]
    exact ⟨hline, by decide⟩
  have hbreak : ("'\nsource_filename = \"" : Bytes) = "'" ++ "\nsource_filename = \"" := by decide
  have hfirst (rest : Bytes) : (Reader.upTo Ascii.lf).run (M.name ++ (("'" : Bytes) ++
      (("\nsource_filename = \"" : Bytes) ++ rest))) =
        some (M.name ++ "'", ("\nsource_filename = \"" : Bytes) ++ rest) := by
    rw [← List.append_assoc]
    exact Reader.run_upTo hcomment rfl
  have hsecond : (Reader.upTo Ascii.quote).run (M.name ++ (("\"\n\n" : Bytes) ++ code)) =
      some (M.name, ("\"\n\n" : Bytes) ++ code) := Reader.run_upTo hquote rfl
  have hheading : Read.heading.run (heading M.name ++ code) = some (M.name, code) := by
    simp [Read.heading, heading, hbreak, hfirst, hsecond]
  rw [htext, Listing.read?, hheading]
  simp [hcode]

end Module

/-! ## What is read -/

namespace Read

open Reader

section
variable {s rest : Bytes}

theorem run_struct (h : Quotable s) (rest : Bytes) :
    (struct s).run (structName s ++ rest) = some ((), rest) := by
  simp [struct, run_structType h]

theorem run_struct_descriptor (h : stops isPlainByte rest = true) :
    (struct "tryc.descriptor").run (descriptorType ++ rest) = some ((), rest) := by
  simp [struct, run_structType_descriptor h]

theorem run_structType_manifest (h : stops isPlainByte rest = true) :
    structType.run (manifestType ++ rest) = some (("tryc.manifest" : Bytes), rest) := by
  have htype : manifestType = "%" ++ ("tryc.manifest" : Bytes) := by decide
  have hname : name.run (("tryc.manifest" : Bytes) ++ rest) = some (("tryc.manifest" : Bytes), rest) :=
    run_name_plain (by decide) (by decide) h
  simp [htype, structType, hname]

theorem run_global_plain (hs : s.all isPlainByte = true) (hne : s ≠ [])
    (hrest : stops isPlainByte rest = true) : global.run (("@" : Bytes) ++ (s ++ rest)) = some (s, rest) := by
  simp [global, run_name_plain hs hne hrest]

theorem run_typed (type : ValueType) (rest : Bytes) :
    (typed type).run (type.text ++ ((" " : Bytes) ++ rest)) = some ((), rest) := by
  simp [typed]

theorem run_records (rest : Bytes) :
    records.run (recordsText ++ rest) =
      some ([("tryc.descriptor" : Bytes), ("tryc.manifest" : Bytes)], rest) := by
  simp +decide [records, recordsText, run_structType_descriptor, run_structType_manifest,
    run_struct_descriptor]

theorem run_layout {l : Layout} (h : Quotable l.type) (rest : Bytes) :
    layout.run (l.text ++ rest) = some (l, rest) := by
  have hslots (rest : Bytes) :
      (commaList valueType).run (Bytes.join ", " ((ValueType.ptr :: l.slots).map ValueType.text) ++
        ((" \x7d\n" : Bytes) ++ rest)) = some (.ptr :: l.slots, (" \x7d\n" : Bytes) ++ rest) :=
    run_commaList (fun _ => false) (fun type _ rest _ => run_valueType type rest) rfl rfl rfl rfl
  rw [List.map_cons] at hslots
  simp [layout, Layout.text, run_structType h, hslots]

/-! ## Descriptors, table and manifest as they are read -/

/-- The text of the size of the objects of a type. -/
def sizeText (type : Bytes) : Bytes :=
  "ptrtoint (" ++ structName type ++ "* getelementptr (" ++ structName type ++ ", " ++ structName type
    ++ "* null, i32 1) to i64)"

theorem run_objectSize (h : Quotable s) (rest : Bytes) :
    objectSize.run (sizeText s ++ rest) = some (s, rest) := by
  simp [objectSize, sizeText, run_struct h, run_structType h]

/-- The text of a pointer to a render function. -/
def renderText : Option Bytes → Bytes
  | some symbol => globalName symbol
  | none => "null"

theorem run_renderPointer (render : Option Bytes) (h : ∀ s ∈ render, Quotable s) (rest : Bytes) :
    renderPointer.run (renderText render ++ rest) = some (render, rest) := by
  cases render with
  | none => simp +decide [renderPointer, renderText, global]
  | some s => simp [renderPointer, renderText, run_global (h s rfl)]

theorem text_descriptor (d : Descriptor) : d.text =
    globalName (descriptorSymbol d.type) ++ " = constant " ++ descriptorType ++ " \x7b i8* " ++ d.name.text
      ++ ", " ++ ValueType.ptr.text ++ " " ++ (d.route.getD .null).text ++ ", i32 "
      ++ (if d.isComponent then Bytes.ofString "0" else "1") ++ ", i64 " ++ sizeText d.type ++ ", "
      ++ ValueType.initFn.text ++ " " ++ globalName (initSymbol d.type) ++ ", "
      ++ ValueType.renderFn.text ++ " " ++ renderText d.render ++ " \x7d\n" := by
  have hptr : ("i8* " : Bytes) = ValueType.ptr.text ++ " " := by decide
  have hnull : ("i8* null" : Bytes) = ValueType.ptr.text ++ (" " ++ Operand.null.text) := by decide
  have hsize : (", i64 ptrtoint (" : Bytes) = ", i64 " ++ "ptrtoint (" := by decide
  have hclose : ("* null, i32 1) to i64), " : Bytes) = "* null, i32 1) to i64)" ++ ", " := by decide
  unfold Descriptor.text sizeText
  cases d.route <;> cases d.render <;>
    simp only [hptr, hnull, hsize, hclose, Option.getD_some, Option.getD_none, renderText, List.append_assoc]

theorem run_descriptorDefinition {d : Descriptor} (h : d.Quotable) (rest : Bytes) :
    descriptorDefinition.run (d.text ++ rest) = some (d.definition, rest) := by
  have hsymbols := h.symbols
  simp only [Descriptor.symbols, List.forall_mem_append, List.forall_mem_cons] at hsymbols
  obtain ⟨⟨hname, hroute⟩, hinit, hrender⟩ := hsymbols
  have hroute : ∀ s ∈ (d.route.getD .null).symbols, Quotable s := by
    cases hd : d.route with
    | none => simp [Operand.symbols]
    | some r => simpa [hd] using hroute
  have hcomponent (rest : Bytes) : (oneOf [("0", pure true), ("1", pure false)] : Reader Bool).run
      ((if d.isComponent then Bytes.ofString "0" else "1") ++ rest) = some (d.isComponent, rest) := by
    cases d.isComponent <;> rfl
  have hrender := run_renderPointer d.render (by simpa using hrender)
  rw [text_descriptor]
  simp only [List.append_assoc]
  rw [descriptorDefinition, run_bind_of (run_global h.symbol _), run_bind_of (run_literal _ _),
    run_bind_of (run_struct_descriptor rfl), run_bind_of (run_literal _ _),
    run_bind_of (run_operand hname rfl), run_bind_of (run_literal _ _), run_bind_of (run_typed _ _),
    run_bind_of (run_operand hroute rfl), run_bind_of (run_literal _ _), run_bind_of (hcomponent _),
    run_bind_of (run_literal _ _), run_bind_of (run_objectSize h.type _), run_bind_of (run_literal _ _),
    run_bind_of (run_typed _ _), run_bind_of (run_global hinit _), run_bind_of (run_literal _ _),
    run_bind_of (run_typed _ _), run_bind_of (hrender _), run_bind_of (run_literal _ _)]
  rfl

theorem run_tableType (M : Module) (rest : Bytes) :
    tableType.run (M.tableType ++ rest) = some (M.descriptors.length, rest) := by
  simp +decide [tableType, Module.tableType, run_struct_descriptor]

theorem run_struct_tableType (s : Bytes) (M : Module) (rest : Bytes) :
    (struct s).run (M.tableType ++ rest) = none := by
  simp +decide [struct, structType, Module.tableType]

/-- The text of the entries of a table. -/
def entriesText : List Bytes → Bytes
  | [] => " zeroinitializer"
  | s :: ss => " [" ++ Bytes.join ", " ((s :: ss).map fun s => descriptorType ++ "* " ++ globalName s) ++ "]"

theorem run_tableEntries (symbols : List Bytes) (h : ∀ s ∈ symbols, Quotable s) (rest : Bytes) :
    tableEntries.run (entriesText symbols ++ rest) = some (symbols, rest) := by
  have hlist (rest : Bytes) : (commaList tableEntry).run (Bytes.join ", " (symbols.map fun s =>
      descriptorType ++ "* " ++ globalName s) ++ (("]" : Bytes) ++ rest)) =
        some (symbols, ("]" : Bytes) ++ rest) := by
    refine run_commaList (fun _ => false) (fun s hs rest _ => ?_) rfl rfl rfl rfl
    simp +decide [tableEntry, run_struct_descriptor, run_global (h s hs)]
  cases symbols with
  | nil => simp [tableEntries, entriesText]
  | cons s ss =>
    have hother : diverge " zeroinitializer" " [" = true := by decide
    rw [entriesText, List.append_assoc, List.append_assoc]
    simp only [tableEntries, run_oneOf_tail hother, run_oneOf_head, StateT.run_bind, hlist, run_literal,
      StateT.run_pure, Option.bind_eq_bind, Option.bind_some, Option.pure_def]

theorem tableText_eq (M : Module) : M.tableText = "@" ++ (tableSymbol ++ (" = constant " ++ (M.tableType ++
    (entriesText (M.descriptors.map fun d => descriptorSymbol d.type) ++ "\n")))) := by
  have hopen : ("@tryc_components = constant " : Bytes) = "@" ++ (tableSymbol ++ " = constant ") := by decide
  rw [Module.tableText, hopen]
  cases M.descriptors <;> simp [entriesText, Function.comp_def]

theorem run_tableSymbol (rest : Bytes) :
    global.run (("@" : Bytes) ++ (tableSymbol ++ ((" = constant " : Bytes) ++ rest))) =
      some (tableSymbol, (" = constant " : Bytes) ++ rest) :=
  run_global_plain (by decide) (by decide) (stops_append (by decide) _)

theorem run_tableDefinition {M : Module} (h : ∀ d ∈ M.descriptors, d.Quotable) (rest : Bytes) :
    tableDefinition.run (M.tableText ++ rest) = some (M.listing.table, rest) := by
  have hentries := run_tableEntries (M.descriptors.map fun d => descriptorSymbol d.type)
    (List.forall_mem_map.2 fun d hd => (h d hd).symbol)
  simp [tableText_eq, tableDefinition, Module.listing, run_tableSymbol, run_tableType, hentries]

theorem run_manifestDefinition {M : Module} (h : ∀ s ∈ M.manifest.symbols, Quotable s) (rest : Bytes) :
    manifestDefinition.run (M.manifestText ++ rest) = some (M.listing.manifest, rest) := by
  have hopen : ("@tryc_manifest = constant " : Bytes) = "@" ++ (manifestSymbol ++ " = constant ") := by decide
  have hclose : ("* @tryc_components, i64 0, i64 0) \x7d\n" : Bytes) =
      "* " ++ ("@" ++ (tableSymbol ++ ", i64 0, i64 0) \x7d\n")) := by decide
  have hsymbol (rest : Bytes) :
      global.run (("@" : Bytes) ++ (manifestSymbol ++ ((" = constant " : Bytes) ++ rest))) =
        some (manifestSymbol, (" = constant " : Bytes) ++ rest) :=
    run_global_plain (by decide) (by decide) (stops_append (by decide) _)
  have htable (rest : Bytes) :
      global.run (("@" : Bytes) ++ (tableSymbol ++ ((", i64 0, i64 0) \x7d\n" : Bytes) ++ rest))) =
        some (tableSymbol, (", i64 0, i64 0) \x7d\n" : Bytes) ++ rest) :=
    run_global_plain (by decide) (by decide) (stops_append (by decide) _)
  have hmanifest (rest : Bytes) :
      (struct "tryc.manifest").run (manifestType ++ ((" \x7b i8* " : Bytes) ++ rest)) =
        some ((), (" \x7b i8* " : Bytes) ++ rest) := by
    rw [struct, run_bind_of (run_structType_manifest rfl), run_guard rfl]
  rw [Module.manifestText, hopen, hclose]
  simp only [List.append_assoc]
  rw [manifestDefinition, run_bind_of (hsymbol _), run_bind_of (run_literal _ _), run_bind_of (hmanifest _),
    run_bind_of (run_literal _ _), run_bind_of (run_operand h rfl), run_bind_of (run_literal _ _),
    run_bind_of (run_number _ rfl), run_bind_of (run_literal _ _), run_bind_of (run_struct_descriptor rfl),
    run_bind_of (run_literal _ _), run_bind_of (run_tableType M _), run_bind_of (run_literal _ _),
    run_bind_of (run_tableType M _), run_bind_of (run_guard ⟨rfl, rfl⟩ _), run_bind_of (run_literal _ _),
    run_bind_of (htable _), run_bind_of (run_literal _ _)]
  rfl

/-! ## Declarations and modules as they are read -/

theorem run_result (f : Runtime) (rest : Bytes) :
    result.run ((f.result.map ValueType.text).getD "void" ++ ((" " : Bytes) ++ rest)) =
      some (f.result, rest) := by
  cases f <;> rfl

theorem run_params (types : List ValueType) (rest : Bytes) :
    (commaList valueType).run (Bytes.join ", " (types.map ValueType.text) ++ ((")" : Bytes) ++ rest)) =
      some (types, (")" : Bytes) ++ rest) :=
  run_commaList (fun _ => false) (fun type _ rest _ => run_valueType type rest) rfl rfl rfl rfl

theorem run_declaration {d : Declaration} (h : Quotable d.symbol) (rest : Bytes) :
    declaration.run (d.text ++ (("\n" : Bytes) ++ rest)) = some (d, rest) := by
  cases d with
  | runtime f =>
    have hopen : (" @" : Bytes) = " " ++ "@" := by decide
    have hcallee (rest : Bytes) := run_call (c := .runtime f) h rest
    rw [Callee.text] at hcallee
    simp only [List.append_assoc] at hcallee
    simp [declaration, declaredFunction, Declaration.text, hopen, run_result, run_params, hcallee]
  | function symbol params =>
    have hopen : ("declare void " : Bytes) = "declare " ++ "void " := by decide
    have hcallee (rest : Bytes) := run_call (c := .method symbol) h rest
    rw [Callee.text] at hcallee
    simp [declaration, declaredFunction, result, Declaration.text, hopen, run_params, hcallee]
  | descriptor symbol =>
    have hsymbol : Quotable symbol := h
    simp +decide [declaration, declaredDescriptor, Declaration.text, globalName_append,
      run_quotedName hsymbol, run_struct_descriptor]

theorem run_listing {M : Module} (h : M.Quotable) (hstrings : M.strings ≠ []) :
    listing.run M.code = some (M.listing, []) := by
  have hlayouts (rest : Bytes) :
      (many layout).run (M.layouts.flatMap Layout.text ++ (("\n" : Bytes) ++ rest)) =
        some (M.layouts.map id, ("\n" : Bytes) ++ rest) :=
    run_many_lines (fun l hl rest => run_layout (h.layouts l hl) rest) rfl
  have harrays (rest : Bytes) : (many arrayDefinition).run
      (M.strings.zipIdx.flatMap (fun (s, i) => constantText i s) ++ (("\n" : Bytes) ++ rest)) =
        some (M.listing.arrays, ("\n" : Bytes) ++ rest) :=
    run_many_lines (fun p _ rest => run_arrayDefinition p.2 p.1 rest) rfl
  have hdescriptors (rest : Bytes) : (many descriptorDefinition).run
      (M.descriptors.flatMap Descriptor.text ++ (M.tableText ++ rest)) =
        some (M.listing.descriptors, M.tableText ++ rest) := by
    refine run_many_lines (fun d hd rest => run_descriptorDefinition (h.descriptors d hd) rest) ?_
    simp only [tableText_eq, List.append_assoc]
    rw [descriptorDefinition, run_bind_of (run_tableSymbol _), run_bind_of (run_literal _ _), StateT.run_bind,
      run_struct_tableType]
    rfl
  have hfunctions : (many function).run
      (M.functions.flatMap Function.text ++ M.declarations.flatMap fun d => d.text ++ [Ascii.lf]) =
        some (M.functions.map id, M.declarations.flatMap fun d => d.text ++ [Ascii.lf]) := by
    refine run_many_lines (fun f hf rest => run_function (h.functions f hf) rest) ?_
    rcases M.declarations with _ | ⟨d, ds⟩
    · rfl
    · cases d <;> rfl
  have hdeclarations : (many declaration).run (M.declarations.flatMap fun d => d.text ++ [Ascii.lf]) =
      some (M.declarations.map id, []) := by
    have hlines : ∀ d ∈ M.declarations, ∀ rest,
        declaration.run ((d.text ++ [Ascii.lf]) ++ rest) = some (id d, rest) := by
      intro d hd rest
      rw [List.append_assoc]
      exact run_declaration (h.declarations d hd) rest
    rw [← List.append_nil (M.declarations.flatMap _)]
    exact run_many_lines hlines rfl
  have hblank : (if M.strings.isEmpty then [] else [Ascii.lf]) = Bytes.ofString "\n" := by
    rw [if_neg (by simpa using hstrings)]
    rfl
  have hne : M.listing.arrays ≠ [] := by simpa [Module.listing] using hstrings
  simp only [listing, Module.code, List.append_assoc, StateT.run_bind, run_records, hlayouts, run_literal,
    harrays, hblank, if_pos hne, hdescriptors, run_tableDefinition h.descriptors,
    run_manifestDefinition h.manifest, hfunctions, hdeclarations, StateT.run_pure, Option.bind_eq_bind,
    Option.bind_some, Option.pure_def, List.map_id, ne_eq]
  rfl

end

end Read

/-- A module with a string constant and with names that can be quoted is read as its parts. -/
theorem Module.Quotable.legible {M : Module} (h : M.Quotable) (hstrings : M.strings ≠ []) : M.Legible :=
  Module.legible_iff.2 (by simp [Listing.readCode?, Read.run_listing h hstrings])

end ViewCompiler.Code
