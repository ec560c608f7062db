import ViewCompiler.Proofs.FunctionTyping
import ViewCompiler.Proofs.Symbols

/-!
Typing of a module as a whole. Every function has types for its temporaries under which each of its
instructions is typed against what the module defines and declares (`Module.WellTyped`). Unlike
`CodeScope.Path` this does not depend on where an instruction stands, and it mentions nothing but
the module.

`CodeScope.Checked.typed` gets it from a typed path, if the module has what the scope promises.
-/

namespace ViewCompiler.Code

/-- A line that gives the type of a function. -/
structure Prototype where
  symbol : Bytes
  params : List ValueType
  result : Option ValueType := none
deriving DecidableEq, Repr, Inhabited

/-- The line that begins a function. -/
def Function.prototype (f : Function) : Prototype where
  symbol := f.symbol
  params := .ptr :: f.params ++ if f.builder then [.ptr] else []

/-- The line that declares a function. -/
def Declaration.prototype? : Declaration → Option Prototype
  | runtime f => some ⟨f.symbol, f.params, f.result⟩
  | function symbol params => some ⟨symbol, params, none⟩
  | descriptor _ => none

/-- The type of a slot of an object; slot 0 is the descriptor. -/
def Layout.slotType? (l : Layout) : Nat → Option ValueType
  | 0 => some .ptr
  | k + 1 => l.slots[k]?

namespace Module

/-- The functions that a module defines or declares. -/
def prototypes (M : Module) : List Prototype :=
  M.functions.map (·.prototype) ++ M.declarations.filterMap (·.prototype?)

section
variable (M : Module) (f : Function) (τ : List TempType)

/-- An operand of the function has a type, if the temporaries have the types `τ`. -/
inductive HasType : Operand → ValueType → Prop
  | int : HasType (.int v) .i32
  | bool : HasType (.bool b) .i1
  | null : HasType .null .ptr
  | temp : τ[i]? = some (.value type) → HasType (.temp i) type
  | param : f.params[i]? = some type → HasType (.param i) type
  | self : HasType .self .ptr
  | builder : f.builder = true → HasType .builder .ptr
  | str : M.strings[i]? = some s → HasType (.str i (s.length + 1)) .ptr
  | descriptor : (∃ d ∈ M.descriptors, d.type = type) ∨
      .descriptor (descriptorSymbol type) ∈ M.declarations → HasType (.descriptor type) .ptr
  | initFn : ⟨symbol, [.ptr], none⟩ ∈ M.prototypes → HasType (.function symbol) .initFn
  | renderFn : ⟨symbol, [.ptr, .ptr], none⟩ ∈ M.prototypes → HasType (.function symbol) .renderFn

/-- An address of a value of a type. -/
inductive PointsTo : Address → ValueType → Prop
  | temp : τ[i]? = some (.address type) → PointsTo (.temp i) type
  | slot : f.params[i]? = some type → PointsTo (.slot i) type

/-- A call of a function that the module has, with operands of the types that it takes. -/
def Applies (callee : Callee) (args : List Value) (result : Option ValueType) : Prop :=
  ⟨callee.symbol, args.map (·.type), result⟩ ∈ M.prototypes ∧
    ∀ a ∈ args, M.HasType f τ a.operand a.type

/-- An instruction of the function: its operands have the types that are written for them, and its
result has the type of its temporary. -/
inductive TypedInstr : Instr → Prop
  | alloca : f.params[i]? = some type → TypedInstr (.alloca i type)
  | field : l ∈ M.layouts → l.type = f.owner → l.slotType? slot = some type →
    τ[dest]? = some (.address type) → TypedInstr (.field dest f.owner slot)
  | load : PointsTo f τ source type → τ[dest]? = some (.value type) →
    TypedInstr (.load dest type source)
  | store : M.HasType f τ value type → PointsTo f τ target type →
    TypedInstr (.store type value target)
  | arith : M.HasType f τ left .i32 → M.HasType f τ right .i32 → τ[dest]? = some (.value .i32) →
    TypedInstr (.arith dest op left right)
  | logic : M.HasType f τ left .i1 → M.HasType f τ right .i1 → τ[dest]? = some (.value .i1) →
    TypedInstr (.logic dest op left right)
  | compare : M.HasType f τ left type → M.HasType f τ right type → τ[dest]? = some (.value .i1) →
    TypedInstr (.compare dest pred type left right)
  | run : M.Applies f τ callee args none → TypedInstr (.call none callee args)
  | compute : M.Applies f τ callee args (some type) → τ[dest]? = some (.value type) →
    TypedInstr (.call (some (dest, type)) callee args)
  | branch : M.HasType f τ condition .i1 → TypedInstr (.branch condition yes no)
  | jump : TypedInstr (.jump target)
  | label : TypedInstr (.label l)
  | ret : TypedInstr .ret

end

/-- Symbols and layouts have one type each, and the instructions of every function are typed. -/
structure WellTyped (M : Module) : Prop where
  prototypes : (M.prototypes.map (·.symbol)).Nodup
  layouts : (M.layouts.map (·.type)).Nodup
  functions : ∀ f ∈ M.functions, ∃ τ, ∀ i ∈ f.body, M.TypedInstr f τ i

end Module

/-! ## From typed paths -/

namespace CodeScope

/-- What the module has for a symbol of the scope, with `n` child blocks. -/
def Finds (C : CodeScope) (M : Module) (n : Nat) (symbol : Bytes) : Prop :=
  C.Defines symbol ∨ (∃ d ∈ M.declarations, d.symbol = symbol) ∨
    C.builder = true ∧ ∃ i < n, symbol = fragmentSymbol C.owner i

/-- The module has what the scope promises. -/
structure Serves (C : CodeScope) (M : Module) (n : Nat) : Prop where
  layout : ∃ l ∈ M.layouts, l.type = C.owner ∧ l.slots = C.slots
  runtime : ∀ f, .runtime f ∈ M.declarations
  function : ∀ {symbol types}, C.Provides symbol types → C.Finds M n symbol →
    ⟨symbol, types, none⟩ ∈ M.prototypes
  descriptor : ∀ {type}, C.Finds M n (descriptorSymbol type) →
    (∃ d ∈ M.descriptors, d.type = type) ∨ .descriptor (descriptorSymbol type) ∈ M.declarations

/-- The tables at a point are within those of the module. -/
structure Within (C : CodeScope) (p : Point) (M : Module) (n : Nat) (τ : List TempType) : Prop where
  temps : p.temps <+: τ
  strings : p.strings <+: M.strings
  declarations : p.declarations ⊆ M.declarations
  fragments : C.builder = true → p.fragments ≤ n

variable {C : CodeScope} {M : Module} {f : Function} {n : Nat} {τ : List TempType} {p q : Point}

theorem Within.finds (h : C.Within p M n τ) {symbol : Bytes} (hs : p.Knows C symbol) :
    C.Finds M n symbol := by
  rcases hs with hs | ⟨d, hd, hs⟩ | ⟨hb, i, hi, hs⟩
  · exact .inl hs
  · exact .inr (.inl ⟨d, h.declarations hd, hs⟩)
  · exact .inr (.inr ⟨hb, i, Nat.lt_of_lt_of_le hi (h.fragments hb), hs⟩)

/-- The scope of the function `f`. -/
structure Fits (C : CodeScope) (f : Function) : Prop where
  owner : f.owner = C.owner
  params : f.params = C.params
  builder : f.builder = C.builder

theorem Serves.hasType (hM : C.Serves M n) (hf : C.Fits f) (hp : C.Within p M n τ) {o : Operand}
    {type : ValueType} (h : p.HasType C o type) : M.HasType f τ o type := by
  cases h with
  | int => exact .int
  | bool => exact .bool
  | null => exact .null
  | temp _ hi => exact .temp (Point.getElem?_of_isPrefixOf hp.temps hi)
  | param hi => exact .param (hf.params ▸ hi)
  | self => exact .self
  | builder hb => exact .builder (hf.builder ▸ hb)
  | str hi => exact .str (Point.getElem?_of_isPrefixOf hp.strings hi)
  | descriptor hs => exact .descriptor (hM.descriptor (hp.finds hs))
  | initFn ht hs => exact .initFn (hM.function ht (hp.finds hs))
  | renderFn ht hs => exact .renderFn (hM.function ht (hp.finds hs))

theorem Within.pointsTo (hf : C.Fits f) (hp : C.Within p M n τ) {a : Address} {type : ValueType}
    (h : p.PointsTo C a type) : Module.PointsTo f τ a type := by
  cases h with
  | temp _ hi => exact .temp (Point.getElem?_of_isPrefixOf hp.temps hi)
  | slot _ hi => exact .slot (hf.params ▸ hi)

theorem Serves.applies (hM : C.Serves M n) (hf : C.Fits f) (hp : C.Within p M n τ)
    {callee : Callee} {args : List Value} {result : Option ValueType}
    (h : p.Applies C callee args result) : M.Applies f τ callee args result := by
  obtain ⟨hcall, hargs⟩ := h
  refine ⟨?_, fun a ha => hM.hasType hf hp (hargs a ha)⟩
  generalize args.map (·.type) = types at hcall
  cases hcall with
  | @runtime g =>
    exact List.mem_append_right _ (List.mem_filterMap.2 ⟨.runtime g, hM.runtime g, rfl⟩)
  | method ht hs => exact hM.function ht (hp.finds hs)

/-- The point in front of an instruction is within the tables if the one behind it is. -/
theorem Step.within {i : Instr} (h : C.Step p i q) (hq : C.Within q M n τ) : C.Within p M n τ := by
  obtain ⟨hstrings, hdeclarations, hfragments⟩ := h.tables
  refine ⟨List.IsPrefix.trans ?_ hq.temps, hstrings ▸ hq.strings, hdeclarations ▸ hq.declarations,
    hfragments ▸ hq.fragments⟩
  cases h with
  | yield => exact List.prefix_append ..
  | _ => exact List.prefix_rfl

theorem Collects.within (h : C.Collects p q) (hq : C.Within q M n τ) : C.Within p M n τ := by
  obtain ⟨heq, hstrings, ⟨ds, -, hds⟩, hfragments⟩ := h
  refine ⟨?_, hstrings.trans hq.strings, ?_, fun hb => Nat.le_trans hfragments (hq.fragments hb)⟩
  · have htemps : q.temps = p.temps := by rw [heq]
    exact htemps ▸ hq.temps
  · refine List.Subset.trans ?_ hq.declarations
    rw [hds]
    exact Declaration.subset_insertAll ds _

theorem Path.within {code : List Instr} (h : C.Path p code q) (hq : C.Within q M n τ) :
    C.Within p M n τ := by
  induction h with
  | nil => exact hq
  | cons hstep _ ih => exact hstep.within (ih hq)
  | collect hmore _ ih => exact hmore.within (ih hq)

/-- The result of an instruction has the type of its temporary. -/
theorem Within.getElem?_assign {t : TempType} (h : C.Within (p.assign t) M n τ) :
    τ[p.temps.length]? = some t :=
  Point.getElem?_of_isPrefixOf h.temps (by simp [Point.assign])

theorem Serves.step (hM : C.Serves M n) (hf : C.Fits f) {i : Instr} (h : C.Step p i q)
    (hq : C.Within q M n τ) : M.TypedInstr f τ i := by
  have hp := h.within hq
  cases h with
  | slot _ _ hi => exact .alloca (hf.params ▸ hi)
  | run _ h =>
    cases h with
    | store hv ha => exact .store (hM.hasType hf hp hv) (hp.pointsTo hf ha)
    | call h => exact .run (hM.applies hf hp h)
  | yield _ h =>
    have ht := hq.getElem?_assign
    cases h with
    | @field slot type hslot =>
      obtain ⟨l, hl, htype, hslots⟩ := hM.layout
      rw [← hf.owner]
      refine .field hl (htype.trans hf.owner.symm) ?_ ht
      cases slot with
      | zero => exact hslot
      | succ k =>
        rw [Layout.slotType?, hslots]
        exact hslot
    | load ha => exact .load (hp.pointsTo hf ha) ht
    | arith hl hr => exact .arith (hM.hasType hf hp hl) (hM.hasType hf hp hr) ht
    | logic hl hr => exact .logic (hM.hasType hf hp hl) (hM.hasType hf hp hr) ht
    | compare hl hr => exact .compare (hM.hasType hf hp hl) (hM.hasType hf hp hr) ht
    | call h => exact .compute (hM.applies hf hp h) ht
  | stop _ h =>
    cases h with
    | branch hc => exact .branch (hM.hasType hf hp hc)
    | jump => exact .jump
    | ret => exact .ret
  | label => exact .label

/-- Typed code is typed in the module. -/
theorem Path.typed (hM : C.Serves M n) (hf : C.Fits f) {code : List Instr} (h : C.Path p code q)
    (hq : C.Within q M n τ) : ∀ i ∈ code, M.TypedInstr f τ i := by
  induction h with
  | nil => simp
  | cons hstep hrest ih =>
    exact List.forall_mem_cons.2 ⟨hM.step hf hstep (hrest.within hq), ih hq⟩
  | collect _ _ ih => exact ih hq

theorem Checked.typed {C : CodeScope} (hM : (C.of f).Serves M n) (howner : f.owner = C.owner)
    (h : C.Checked M.strings M.declarations n f) : ∃ τ, ∀ i ∈ f.body, M.TypedInstr f τ i := by
  obtain ⟨s, q, hchecks, hstrings, hdeclarations, hfragments⟩ := h
  exact ⟨q.temps, hchecks.path.typed hM ⟨howner, rfl, rfl⟩
    ⟨List.prefix_rfl, hstrings, hdeclarations, hfragments⟩⟩

end CodeScope

/-! ## Symbols that typed code uses -/

namespace Module

variable {M : Module} {f : Function} {τ : List TempType}

/-- The module introduces the symbol. -/
def Introduces (M : Module) (symbol : Bytes) : Prop := symbol ∈ M.defined ++ M.declared

theorem introduces_string {i : Nat} {s : Bytes} (h : M.strings[i]? = some s) :
    M.Introduces (stringSymbol i) := by
  have hi : i < M.strings.length := (List.getElem?_eq_some_iff.1 h).1
  simp only [Introduces, defined, List.mem_append]
  exact .inl (.inl (.inl (.inl (List.mem_map_of_mem (List.mem_range.2 hi)))))

theorem introduces_descriptor {d : Descriptor} (h : d ∈ M.descriptors) :
    M.Introduces (descriptorSymbol d.type) := by
  simp only [Introduces, defined, List.mem_append]
  exact .inl (.inl (.inl (.inr (List.mem_map_of_mem h))))

theorem introduces_function {f : Function} (h : f ∈ M.functions) : M.Introduces f.symbol := by
  simp only [Introduces, defined, List.mem_append]
  exact .inl (.inr (List.mem_map_of_mem h))

theorem introduces_declaration {d : Declaration} (h : d ∈ M.declarations) :
    M.Introduces d.symbol :=
  List.mem_append_right _ (List.mem_map_of_mem h)

theorem introduces_prototype {t : Prototype} (h : t ∈ M.prototypes) : M.Introduces t.symbol := by
  rcases List.mem_append.1 h with h | h
  · obtain ⟨f, hf, rfl⟩ := List.mem_map.1 h
    exact introduces_function hf
  · obtain ⟨d, hd, ht⟩ := List.mem_filterMap.1 h
    have hsymbol : d.symbol = t.symbol := by
      cases d with
      | runtime | function => cases ht; rfl
      | descriptor => cases ht
    exact hsymbol ▸ introduces_declaration hd

theorem HasType.introduces {o : Operand} {type : ValueType} (h : M.HasType f τ o type) :
    ∀ symbol ∈ o.symbols, M.Introduces symbol := by
  cases h with
  | str hi => simpa [Operand.symbols] using introduces_string hi
  | descriptor h =>
    rcases h with ⟨d, hd, rfl⟩ | h
    · simpa [Operand.symbols] using introduces_descriptor hd
    · simpa [Operand.symbols, Declaration.symbol] using introduces_declaration h
  | initFn h | renderFn h => simpa [Operand.symbols] using introduces_prototype h
  | _ => simp [Operand.symbols]

theorem Applies.introduces {callee : Callee} {args : List Value} {result : Option ValueType}
    (h : M.Applies f τ callee args result) :
    ∀ symbol ∈ callee.symbol :: args.flatMap (·.operand.symbols), M.Introduces symbol := by
  refine List.forall_mem_cons.2 ⟨introduces_prototype h.1, fun symbol hs => ?_⟩
  obtain ⟨a, ha, hs⟩ := List.mem_flatMap.1 hs
  exact (h.2 a ha).introduces symbol hs

/-- A typed instruction refers to nothing that the module does not introduce. -/
theorem TypedInstr.introduces {i : Instr} (h : M.TypedInstr f τ i) :
    ∀ symbol ∈ i.symbols, M.Introduces symbol := by
  cases h with
  | store hv => exact hv.introduces
  | arith hl hr | logic hl hr | compare hl hr =>
    exact List.forall_mem_append.2 ⟨hl.introduces, hr.introduces⟩
  | run h | compute h => exact h.introduces
  | branch hc => exact hc.introduces
  | _ => simp [Instr.symbols]

end Module

end ViewCompiler.Code
