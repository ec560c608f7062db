import ViewCompiler.Proofs.LegibleModules

/-!
The struct types that the text of a module names: two of the runtime, and the object layout of each type.
The names of layouts are quoted and those of the runtime are not, which the assembler does not tell apart
(`Struct.name`).

`Module.chunks` is the text of a module behind its heading, in which the names of struct types are marked. A
module uses no struct type that it does not define. It defines none twice unless a type is declared whose full
name is that of a struct type of the runtime (`Model.structs_defined`).
-/

namespace ViewCompiler

namespace Code

/-! ## Names of struct types -/

/-- The type that an assembler reads: the quotes around a name are no part of it. -/
def typeName (spelled : Bytes) : Bytes :=
  if spelled.tail.head? = some Ascii.quote then spelled.tail.tail.dropLast else spelled.tail

/-- A struct type: that of descriptors, that of the manifest, or the object layout of a type. -/
inductive Struct where
  | descriptor | manifest
  | object (type : Bytes)
deriving DecidableEq, Repr, Inhabited

namespace Struct

/-- How a struct type is written. -/
def text : Struct → Bytes
  | descriptor => descriptorType
  | manifest => manifestType
  | object type => structName type

def name (s : Struct) : Bytes := typeName s.text

theorem name_object (type : Bytes) : (object type).name = type := by
  have hquoted : (object type).text.tail.head? = some Ascii.quote := rfl
  rw [name, typeName, if_pos hquoted]
  exact List.dropLast_concat

/-- The names that the runtime has taken. -/
def reserved : List Bytes := [descriptor.name, manifest.name]

example : reserved = ["tryc.descriptor", "tryc.manifest"] := by decide

end Struct

/-! ## Texts in which struct types are marked -/

/-- A part of the text of a module: the place where a struct type is defined, one where it is used, or
anything else. -/
inductive Chunk where
  | plain (text : Bytes)
  | use (s : Struct)
  | definition (s : Struct)
deriving DecidableEq, Repr, Inhabited

namespace Chunk

def text : Chunk → Bytes
  | plain t => t
  | use s | definition s => s.text

def used? : Chunk → Option Struct
  | use s => some s
  | _ => none

def defined? : Chunk → Option Struct
  | definition s => some s
  | _ => none

/-- The text of chunks. -/
def render (cs : List Chunk) : Bytes := cs.flatMap text

@[simp] theorem render_nil : render [] = [] := rfl

@[simp] theorem render_plain (t : Bytes) (cs : List Chunk) : render (plain t :: cs) = t ++ render cs := rfl

@[simp] theorem render_use (s : Struct) (cs : List Chunk) : render (use s :: cs) = s.text ++ render cs := rfl

@[simp] theorem render_definition (s : Struct) (cs : List Chunk) :
    render (definition s :: cs) = s.text ++ render cs := rfl

@[simp] theorem render_append (cs ds : List Chunk) : render (cs ++ ds) = render cs ++ render ds :=
  List.flatMap_append

theorem render_flatMap {α : Type} (f : α → List Chunk) (g : α → Bytes) (h : ∀ a, render (f a) = g a)
    (as : List α) : render (as.flatMap f) = as.flatMap g := by
  rw [render, List.flatMap_assoc]
  exact List.flatMap_congr fun a _ => h a

/-- Texts with commas between them. -/
def join (css : List (List Chunk)) : List Chunk := [plain ", "].intercalate css

theorem render_join {α : Type} (f : α → List Chunk) (g : α → Bytes) (h : ∀ a, render (f a) = g a)
    (as : List α) : render (join (as.map f)) = Bytes.join ", " (as.map g) := by
  rw [join, Bytes.join]
  induction as with
  | nil => rfl
  | cons a as ih =>
    cases as with
    | nil => simp [h a]
    | cons b as =>
      simp only [List.map_cons, List.intercalate_cons_cons, render_append, h a] at ih ⊢
      rw [ih]
      rfl

end Chunk

open Chunk

def Operand.chunks : Operand → List Chunk
  | descriptor type =>
    [plain "bitcast (", use .descriptor, plain ("* " ++ globalName (descriptorSymbol type) ++ " to i8*)")]
  | o => [plain o.text]

def Value.chunks (v : Value) : List Chunk := plain (v.type.text ++ " ") :: v.operand.chunks

namespace Instr

/-- The beginning of a call. -/
def callHead (dest : Option (Nat × ValueType)) (callee : Callee) : Bytes :=
  match dest with
  | some (d, type) => assigned d ("call " ++ type.text ++ " " ++ callee.text ++ "(")
  | none => "  call void " ++ callee.text ++ "("

def chunks : Instr → List Chunk
  | field dest type slot => [plain (assigned dest "getelementptr inbounds "), use (.object type),
      plain ", ", use (.object type), plain ("* %this, i32 0, i32 " ++ Bytes.ofNat slot)]
  | store type value target =>
    plain ("  store " ++ type.text ++ " ") :: value.chunks ++
      [plain (", " ++ type.text ++ "* " ++ target.text)]
  | arith dest op left right =>
    plain (assigned dest (op.text ++ " i32 ")) :: left.chunks ++ plain ", " :: right.chunks
  | logic dest op left right =>
    plain (assigned dest (op.text ++ " i1 ")) :: left.chunks ++ plain ", " :: right.chunks
  | compare dest pred type left right =>
    plain (assigned dest ("icmp " ++ pred.text ++ " " ++ type.text ++ " ")) :: left.chunks ++
      plain ", " :: right.chunks
  | call dest callee args =>
    plain (callHead dest callee) :: join (args.map Value.chunks) ++ [plain ")"]
  | branch condition yes no =>
    plain "  br i1 " :: condition.chunks ++
      [plain (", label %" ++ yes.text ++ ", label %" ++ no.text)]
  | i => [plain i.line]

end Instr

def Function.chunks (f : Function) : List Chunk :=
  [plain (f.signature ++ " \x7b\nentry:\n  %this = bitcast i8* %self to "), use (.object f.owner),
      plain "*\n"] ++ f.body.flatMap (fun i => i.chunks ++ [plain [Ascii.lf]]) ++ [plain "\x7d\n\n"]

def Layout.chunks (l : Layout) : List Chunk :=
  [definition (.object l.type), plain (" = type \x7b "
    ++ Bytes.join ", " ((ValueType.ptr :: l.slots).map ValueType.text) ++ " \x7d\n")]

def Descriptor.chunks (d : Descriptor) : List Chunk :=
  let route : List Chunk := match d.route with
    | some r => plain "i8* " :: r.chunks
    | none => [plain "i8* null"]
  let renderer : Bytes := match d.render with
    | some symbol => globalName symbol
    | none => "null"
  [plain (globalName (descriptorSymbol d.type) ++ " = constant "), use .descriptor, plain " \x7b i8* "] ++
    d.name.chunks ++ plain ", " :: route ++
    [plain (", i32 " ++ (if d.isComponent then Bytes.ofString "0" else "1") ++ ", i64 ptrtoint ("),
      use (.object d.type), plain "* getelementptr (", use (.object d.type), plain ", ",
      use (.object d.type), plain ("* null, i32 1) to i64), " ++ ValueType.initFn.text ++ " "
        ++ globalName (initSymbol d.type) ++ ", " ++ ValueType.renderFn.text ++ " " ++ renderer
        ++ " \x7d\n")]

def Declaration.chunks : Declaration → List Chunk
  | descriptor symbol => [plain (globalName symbol ++ " = external constant "), use .descriptor]
  | d => [plain d.text]

namespace Module

def tableTypeChunks (M : Module) : List Chunk :=
  [plain ("[" ++ Bytes.ofNat M.descriptors.length ++ " x "), use .descriptor, plain "*]"]

def tableChunks (M : Module) : List Chunk :=
  let entries := M.descriptors.map fun d =>
    [use .descriptor, plain ("* " ++ globalName (descriptorSymbol d.type))]
  plain "@tryc_components = constant " :: M.tableTypeChunks ++
    (if entries.isEmpty then [plain " zeroinitializer"] else plain " [" :: join entries ++ [plain "]"]) ++
    [plain "\n"]

def manifestChunks (M : Module) : List Chunk :=
  [plain "@tryc_manifest = constant ", use .manifest, plain " \x7b i8* "] ++ M.manifest.chunks ++
    [plain (", i32 " ++ Bytes.ofNat M.descriptors.length ++ ", "), use .descriptor,
      plain "** getelementptr inbounds ("] ++ M.tableTypeChunks ++ plain ", " :: M.tableTypeChunks ++
    [plain "* @tryc_components, i64 0, i64 0) \x7d\n"]

/-- The definitions of struct types. -/
def typeChunks (M : Module) : List Chunk :=
  [definition .descriptor, plain (" = type \x7b i8*, i8*, i32, i64, " ++ ValueType.initFn.text ++ ", "
      ++ ValueType.renderFn.text ++ " \x7d\n"),
    definition .manifest, plain " = type \x7b i8*, i32, ", use .descriptor, plain "** \x7d\n"] ++
    M.layouts.flatMap Layout.chunks

/-- What stands behind the definitions of struct types. -/
def codeChunks (M : Module) : List Chunk :=
  plain ("\n" ++ M.strings.zipIdx.flatMap (fun (s, i) => constantText i s)
      ++ if M.strings.isEmpty then [] else [Ascii.lf]) ::
    M.descriptors.flatMap Descriptor.chunks ++ M.tableChunks ++ M.manifestChunks ++ plain "\n" ::
    M.functions.flatMap Function.chunks ++
    M.declarations.flatMap fun d => d.chunks ++ [plain [Ascii.lf]]

/-- What stands behind the heading, with its struct types marked. -/
def chunks (M : Module) : List Chunk := M.typeChunks ++ M.codeChunks

/-- The struct types that the text of the module uses, as often as it does. -/
def structsUsed (M : Module) : List Struct := M.chunks.filterMap used?

/-- The struct types that the text of the module defines. -/
def structsDefined (M : Module) : List Struct := M.chunks.filterMap defined?

end Module

/-! ## The marked text is the text -/

theorem Operand.render_chunks (o : Operand) : render o.chunks = o.text := by
  cases o with
  | descriptor => simp [chunks, text, Struct.text]
  | _ => exact List.append_nil _

theorem Value.render_chunks (v : Value) : render v.chunks = v.text := by
  rw [chunks, render_plain, v.operand.render_chunks]
  rfl

theorem Instr.render_chunks (i : Instr) : render i.chunks = i.line := by
  cases i with
  | field => simp [chunks, line, assigned, Struct.text]
  | store | arith | logic | compare | branch => simp [chunks, line, assigned, Operand.render_chunks]
  | call dest callee args =>
    have hargs := render_join Value.chunks Value.text Value.render_chunks args
    cases dest <;> simp [chunks, line, callHead, assigned, hargs]
  | _ => exact List.append_nil _

theorem Function.render_chunks (f : Function) : render f.chunks = f.text := by
  have hbody := render_flatMap (fun i => i.chunks ++ [plain [Ascii.lf]]) (fun i => i.line ++ [Ascii.lf])
    (fun i => by simp [i.render_chunks]) f.body
  simp [chunks, text, Struct.text, hbody]

theorem Layout.render_chunks (l : Layout) : render l.chunks = l.text := by
  simp [chunks, text, Struct.text]

theorem Descriptor.render_chunks (d : Descriptor) : Chunk.render d.chunks = d.text := by
  unfold Descriptor.chunks Descriptor.text
  cases d.route <;> cases d.render <;>
    simp only [render_append, render_plain, render_use, render_nil, Operand.render_chunks, Struct.text,
      List.append_assoc, List.cons_append, List.nil_append, List.append_nil]

theorem Declaration.render_chunks (d : Declaration) : render d.chunks = d.text := by
  cases d with
  | descriptor => simp [chunks, text, Struct.text]
  | _ => exact List.append_nil _

namespace Module

theorem render_tableChunks (M : Module) : render M.tableChunks = M.tableText := by
  have hentries := render_join
    (fun d : Descriptor => [use .descriptor, plain ("* " ++ globalName (descriptorSymbol d.type))])
    (fun d => descriptorType ++ "* " ++ globalName (descriptorSymbol d.type))
    (fun d => by simp [Struct.text]) M.descriptors
  cases hempty : M.descriptors.isEmpty <;>
    simp [tableChunks, tableText, tableTypeChunks, tableType, Struct.text, hentries, hempty]

theorem render_manifestChunks (M : Module) : render M.manifestChunks = M.manifestText := by
  simp [manifestChunks, manifestText, tableTypeChunks, tableType, Struct.text, Operand.render_chunks]

theorem render_chunks (M : Module) : render M.chunks = M.code := by
  have hlayouts := render_flatMap Layout.chunks Layout.text Layout.render_chunks M.layouts
  have hdescriptors :=
    render_flatMap Descriptor.chunks Descriptor.text Descriptor.render_chunks M.descriptors
  have hfunctions := render_flatMap Function.chunks Function.text Function.render_chunks M.functions
  have hdeclarations := render_flatMap (fun d => d.chunks ++ [plain [Ascii.lf]])
    (fun d => d.text ++ [Ascii.lf]) (fun d => by simp [d.render_chunks]) M.declarations
  unfold Module.chunks Module.typeChunks Module.codeChunks Module.code recordsText
  simp only [render_append, render_plain, render_use, render_definition, render_tableChunks,
    render_manifestChunks, hlayouts, hdescriptors, hfunctions, hdeclarations, Struct.text,
    List.append_assoc, List.cons_append, List.nil_append]

end Module

/-! ## Where struct types are used -/

/-- A chunk that defines no struct type, and uses none but those with the property. -/
def Chunk.Uses (P : Struct → Prop) : Chunk → Prop
  | plain _ => True
  | use s => P s
  | definition _ => False

section
variable {P : Struct → Prop}

@[simp] theorem Chunk.uses_plain (t : Bytes) : (plain t).Uses P := trivial

@[simp] theorem Chunk.uses_use (s : Struct) : (use s).Uses P ↔ P s := Iff.rfl

theorem Chunk.defined_eq_nil {cs : List Chunk} (h : ∀ c ∈ cs, c.Uses P) : cs.filterMap defined? = [] := by
  refine List.filterMap_eq_nil_iff.2 fun c hc => ?_
  cases c with
  | definition => exact (h _ hc).elim
  | _ => rfl

theorem Chunk.of_mem_used {cs : List Chunk} (h : ∀ c ∈ cs, c.Uses P) {s : Struct}
    (hs : s ∈ cs.filterMap used?) : P s := by
  obtain ⟨c, hc, hused⟩ := List.mem_filterMap.1 hs
  cases c with
  | use s' =>
    cases hused
    exact h _ hc
  | _ => cases hused

theorem Chunk.uses_flatMap {α : Type} {f : α → List Chunk} {as : List α}
    (h : ∀ a ∈ as, ∀ c ∈ f a, c.Uses P) : ∀ c ∈ as.flatMap f, c.Uses P := by
  intro c hc
  obtain ⟨a, ha, hc⟩ := List.mem_flatMap.1 hc
  exact h a ha c hc

theorem Chunk.uses_join {css : List (List Chunk)} (h : ∀ cs ∈ css, ∀ c ∈ cs, c.Uses P) :
    ∀ c ∈ join css, c.Uses P := by
  rw [join]
  induction css with
  | nil => simp
  | cons cs css ih =>
    obtain ⟨hcs, hcss⟩ := List.forall_mem_cons.1 h
    cases css with
    | nil => simpa using hcs
    | cons ds css =>
      rw [List.intercalate_cons_cons]
      exact List.forall_mem_append.2 ⟨List.forall_mem_append.2 ⟨hcs, by simp⟩, ih hcss⟩

variable (hdescriptor : P .descriptor)
include hdescriptor

theorem Operand.uses (o : Operand) : ∀ c ∈ o.chunks, c.Uses P := by
  cases o <;> simp [chunks, hdescriptor]

theorem Value.uses (v : Value) : ∀ c ∈ v.chunks, c.Uses P :=
  List.forall_mem_cons.2 ⟨uses_plain _, Operand.uses hdescriptor v.operand⟩

/-- Only the address of a slot uses a layout. -/
theorem Instr.uses {i : Instr} (hfield : ∀ dest type slot, i = .field dest type slot → P (.object type)) :
    ∀ c ∈ i.chunks, c.Uses P := by
  have hoperand (o : Operand) := Operand.uses hdescriptor o
  have hargs (args : List Value) : ∀ c ∈ join (args.map Value.chunks), c.Uses P :=
    uses_join (by simpa using fun v _ => Value.uses hdescriptor v)
  cases i with
  | field dest type slot => simp [chunks, hfield dest type slot rfl]
  | store _ v _ => simpa [chunks, or_imp, forall_and] using hoperand v
  | branch c _ _ => simpa [chunks, or_imp, forall_and] using hoperand c
  | arith _ _ l r | logic _ _ l r =>
    simpa [chunks, or_imp, forall_and] using ⟨hoperand l, hoperand r⟩
  | compare _ _ _ l r => simpa [chunks, or_imp, forall_and] using ⟨hoperand l, hoperand r⟩
  | call dest callee args => simpa [chunks, or_imp, forall_and] using hargs args
  | _ => exact List.forall_mem_singleton.2 (uses_plain _)

theorem Function.uses {f : Function} (howner : P (.object f.owner))
    (hfield : ∀ dest type slot, .field dest type slot ∈ f.body → P (.object type)) :
    ∀ c ∈ f.chunks, c.Uses P := by
  have hbody : ∀ c ∈ f.body.flatMap (fun i => i.chunks ++ [plain [Ascii.lf]]), c.Uses P :=
    uses_flatMap fun i hi => List.forall_mem_append.2
      ⟨Instr.uses hdescriptor fun dest type slot heq => hfield dest type slot (heq ▸ hi),
        List.forall_mem_singleton.2 (uses_plain _)⟩
  rw [chunks]
  exact List.forall_mem_append.2
    ⟨List.forall_mem_append.2 ⟨by simp [howner], hbody⟩, by simp⟩

theorem Descriptor.uses {d : Descriptor} (hobject : P (.object d.type)) : ∀ c ∈ d.chunks, c.Uses P := by
  have hoperand (o : Operand) := Operand.uses hdescriptor o
  rw [chunks]
  cases d.route with
  | none => simpa [or_imp, forall_and, hdescriptor, hobject] using hoperand d.name
  | some r =>
    simpa [or_imp, forall_and, hdescriptor, hobject] using ⟨hoperand d.name, hoperand r⟩

theorem Declaration.uses (d : Declaration) : ∀ c ∈ d.chunks, c.Uses P := by
  cases d <;> simp [chunks, hdescriptor]

namespace Module

theorem uses_tableTypeChunks (M : Module) : ∀ c ∈ M.tableTypeChunks, c.Uses P := by
  simp [tableTypeChunks, hdescriptor]

theorem uses_tableChunks (M : Module) : ∀ c ∈ M.tableChunks, c.Uses P := by
  have htype := uses_tableTypeChunks hdescriptor M
  have hentries : ∀ c ∈ join (M.descriptors.map fun d =>
      [use .descriptor, plain ("* " ++ globalName (descriptorSymbol d.type))]), c.Uses P :=
    uses_join (by simp [hdescriptor])
  rw [tableChunks]
  cases hempty : M.descriptors.isEmpty with
  | true => simpa [hempty, or_imp, forall_and] using htype
  | false => simpa [hempty, or_imp, forall_and] using ⟨htype, hentries⟩

theorem uses_manifestChunks (M : Module) (hmanifest : P .manifest) : ∀ c ∈ M.manifestChunks, c.Uses P := by
  have htype := uses_tableTypeChunks hdescriptor M
  simpa [manifestChunks, or_imp, forall_and, hdescriptor, hmanifest] using
    ⟨Operand.uses hdescriptor M.manifest, htype⟩

theorem uses_codeChunks {M : Module} (hmanifest : P .manifest)
    (hdescriptors : ∀ d ∈ M.descriptors, P (.object d.type))
    (hfunctions : ∀ f ∈ M.functions, P (.object f.owner) ∧
      ∀ dest type slot, .field dest type slot ∈ f.body → P (.object type)) :
    ∀ c ∈ M.codeChunks, c.Uses P := by
  have hdescriptors := uses_flatMap fun d hd => Descriptor.uses hdescriptor (hdescriptors d hd)
  have hfunctions := uses_flatMap fun f hf =>
    Function.uses hdescriptor (hfunctions f hf).1 (hfunctions f hf).2
  have hdeclarations : ∀ c ∈ M.declarations.flatMap fun d => d.chunks ++ [plain [Ascii.lf]], c.Uses P :=
    uses_flatMap fun d _ =>
      List.forall_mem_append.2 ⟨Declaration.uses hdescriptor d, List.forall_mem_singleton.2 (uses_plain _)⟩
  simp only [codeChunks, List.forall_mem_append, List.forall_mem_cons]
  exact ⟨⟨⟨⟨⟨uses_plain _, hdescriptors⟩, uses_tableChunks hdescriptor M⟩,
    uses_manifestChunks hdescriptor M hmanifest⟩, uses_plain _, hfunctions⟩, hdeclarations⟩

end Module

end

namespace Module

theorem defined_typeChunks (M : Module) : M.typeChunks.filterMap defined? =
    .descriptor :: .manifest :: M.layouts.map fun l => .object l.type := by
  rw [typeChunks, List.filterMap_append, List.filterMap_flatMap, List.map_eq_flatMap]
  rfl

theorem used_typeChunks (M : Module) : M.typeChunks.filterMap used? = [.descriptor] := by
  have hlayouts : M.layouts.flatMap (fun l => l.chunks.filterMap used?) = [] :=
    List.flatMap_eq_nil_iff.2 fun _ _ => rfl
  rw [typeChunks, List.filterMap_append, List.filterMap_flatMap, hlayouts]
  rfl

/-- The module defines the struct types of the runtime, and the layout of each type. -/
theorem structsDefined_eq (M : Module) : M.structsDefined =
    .descriptor :: .manifest :: M.layouts.map fun l => .object l.type := by
  have hcode : ∀ c ∈ M.codeChunks, c.Uses fun _ => True :=
    uses_codeChunks trivial trivial (fun _ _ => trivial) fun _ _ => ⟨trivial, fun _ _ _ _ => trivial⟩
  rw [structsDefined, chunks, List.filterMap_append, defined_eq_nil hcode, List.append_nil]
  exact M.defined_typeChunks

theorem structs_listing (M : Module) : M.listing.structs = M.structsDefined.map Struct.name := by
  rw [structsDefined_eq, List.map_cons, List.map_cons, List.map_map]
  exact congrArg (Struct.reserved ++ ·) (List.map_congr_left fun l _ => (Struct.name_object l.type).symm)

end Module

namespace Links

variable {m : Model} {M : Module}

/-- The layout of each declared type is defined. -/
theorem object_mem_structsDefined (h : Links m M) {t : BoundType} (ht : t ∈ m.types) :
    .object (m.table.nameOf t.id) ∈ M.structsDefined := by
  have hlayout : layoutOf m t ∈ M.layouts := h.layouts ▸ List.mem_map_of_mem ht
  rw [Module.structsDefined_eq]
  exact List.mem_cons_of_mem _ (List.mem_cons_of_mem _ (List.mem_map.2 ⟨_, hlayout, rfl⟩))

/-- The module defines the struct types that it uses. -/
theorem structsUsed_subset (h : Links m M) (hnames : m.WellNamed) : M.structsUsed ⊆ M.structsDefined := by
  have hdefined := M.structsDefined_eq
  have hdescriptor : .descriptor ∈ M.structsDefined := by simp [hdefined]
  have hcode : ∀ c ∈ M.codeChunks, c.Uses (· ∈ M.structsDefined) := by
    refine Module.uses_codeChunks hdescriptor (by simp [hdefined]) (fun d hd => ?_) fun f hf => ?_
    · obtain ⟨t, ht, hdescribes⟩ := exists_mem_of_forall₂ h.descriptors d hd
      obtain ⟨type, htype, heq⟩ := hdescribes.type
      rw [heq, ← SymbolTable.nameOf_of_get? htype]
      exact h.object_mem_structsDefined ht
    · obtain ⟨t, ht, type, htype, hhead, -⟩ := h.checked f hf
      have howner : f.head.owner = type.fullName := owner_eq hhead
      have hobject : .object f.head.owner ∈ M.structsDefined := by
        rw [howner, ← SymbolTable.nameOf_of_get? htype]
        exact h.object_mem_structsDefined ht
      refine ⟨hobject, fun dest name slot hi => ?_⟩
      obtain ⟨τ, hτ⟩ := h.typed hnames f hf
      cases hτ _ hi with
      | field => exact hobject
  intro s hs
  rw [Module.structsUsed, Module.chunks, List.filterMap_append, List.mem_append] at hs
  rcases hs with hs | hs
  · rw [M.used_typeChunks, List.mem_singleton] at hs
    exact hs ▸ hdescriptor
  · exact of_mem_used hcode hs

theorem names_structsDefined (h : Links m M) : M.structsDefined.map Struct.name =
    Struct.reserved ++ m.types.map fun t => m.table.nameOf t.id := by
  have hlayouts : (M.layouts.map fun l => Struct.object l.type).map Struct.name =
      m.types.map fun t => m.table.nameOf t.id := by
    rw [h.layouts, List.map_map, List.map_map]
    exact List.map_congr_left fun t _ => Struct.name_object _
  rw [M.structsDefined_eq, List.map_cons, List.map_cons, hlayouts]
  rfl

/-- Two definitions have one name only if a declared type has a name that the runtime has taken. -/
theorem nodup_structs_iff (h : Links m M) (hnames : m.WellNamed) :
    (M.structsDefined.map Struct.name).Nodup ↔
      ∀ t ∈ m.types, m.table.nameOf t.id ∉ Struct.reserved := by
  have hreserved : Struct.reserved.Nodup := by decide
  rw [h.names_structsDefined, List.nodup_append']
  constructor
  · rintro ⟨-, -, hdisjoint⟩ t ht hname
    exact hdisjoint hname (List.mem_map_of_mem ht)
  · intro hfree
    refine ⟨hreserved, hnames.nodup_names, fun name hname hdeclared => ?_⟩
    obtain ⟨t, ht, rfl⟩ := List.mem_map.1 hdeclared
    exact hfree t ht hname

end Links

end Code

open Code

/-- Over closed references, the text of the module of files without errors defines every struct type
that it uses, and it defines none twice unless a type is declared whose full name the runtime has
taken. Where types have names that can be written, these definitions are what is read behind the heading,
whatever the name of the module, and from the beginning if its name has no line feed and no quote. -/
theorem Model.structs_defined {refs : List Reference} {trees : List SyntaxTree}
    (hrefs : Reference.Closed refs) (htrees : ∀ tree ∈ trees, ∀ d ∈ tree.types, d.Worded)
    (h : (Model.analyze refs trees).hasErrors = false) (name : Bytes) :
    ∃ M, lower (Model.analyze refs trees) name = .ok M ∧
      M.text = Module.heading name ++ Chunk.render M.chunks ∧
      M.structsUsed ⊆ M.structsDefined ∧
      ((M.structsDefined.map Struct.name).Nodup ↔ ∀ t ∈ (Model.analyze refs trees).types,
        (Model.analyze refs trees).table.nameOf t.id ∉ Struct.reserved) ∧
      ((∀ r ∈ refs, r.Nameable) → (∀ tree ∈ trees, tree.Nameable) → ∃ L,
        Listing.readCode? (Chunk.render M.chunks) = some L ∧ L.structs = M.structsDefined.map Struct.name ∧
        (Ascii.lf ∉ name → Ascii.quote ∉ name → Listing.read? M.text = some (name, L))) := by
  have htyped := Model.typed_analyze hrefs h
  have hnames := Model.wellNamed_analyze htrees h
  obtain ⟨M, hM⟩ := exists_lower htyped.resolved name
  have hlinks := links_of_lower htyped hnames hM
  obtain rfl := name_of_lower hM
  refine ⟨M, hM, M.render_chunks ▸ M.text_eq, hlinks.structsUsed_subset hnames,
    hlinks.nodup_structs_iff hnames, fun hnameable hwritten => ?_⟩
  have hlegible := hlinks.legible hnames (Analysis.nameable_table hnameable hwritten)
  exact ⟨M.listing, M.render_chunks ▸ Module.legible_iff.1 hlegible, M.structs_listing, hlegible.read?⟩

/-- A class whose full name is that of the type of descriptors. -/
def takenSource : Bytes := "namespace tryc; class descriptor { }"

theorem Model.structs_defined_counter :
    (∃ M L, lower counterModel "App" = .ok M ∧ M.structsUsed ⊆ M.structsDefined ∧
      Listing.read? M.text = some (Bytes.ofString "App", L) ∧
      L.structs = M.structsDefined.map Struct.name ∧ L.structs.Nodup) ∧
    ∃ M L, lower (.analyze [] [.parse takenSource "taken.il"]) "App" = .ok M ∧
      M.structsUsed ⊆ M.structsDefined ∧ Listing.read? M.text = some (Bytes.ofString "App", L) ∧
      L.structs = M.structsDefined.map Struct.name ∧ ¬ L.structs.Nodup := by
  have hparsed (source file : Bytes) : ∀ tree ∈ [SyntaxTree.parse source file],
      ∃ source file, tree = SyntaxTree.parse source file := List.forall_mem_singleton.2 ⟨source, file, rfl⟩
  have hworded (source file : Bytes) := SyntaxTree.worded_of_parsed (hparsed source file)
  have hnameable (source file : Bytes) := SyntaxTree.nameable_of_parsed (hparsed source file)
  constructor
  · obtain ⟨M, hM, -, hused, hnodup, hread⟩ := Model.structs_defined closed_panelLibrary
      (hworded counterSource "counter.il") counterModel_hasErrors "App"
    obtain ⟨L, -, hstructs, hread⟩ := hread nameable_panelLibrary (hnameable _ _)
    refine ⟨M, L, hM, hused, hread (by decide) (by decide), hstructs, hstructs ▸ hnodup.2 ?_⟩
    rw [counterSource, Bytes.ofString_ofList]
    decide +kernel
  · obtain ⟨M, hM, -, hused, hnodup, hread⟩ := @Model.structs_defined [] _ (by decide)
      (hworded takenSource "taken.il") (by decide +kernel) "App"
    obtain ⟨L, -, hstructs, hread⟩ := hread (by simp) (hnameable _ _)
    refine ⟨M, L, hM, hused, hread (by decide) (by decide), hstructs, hstructs ▸ mt hnodup.1 ?_⟩
    decide +kernel

end ViewCompiler
