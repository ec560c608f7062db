import ViewCompiler.Code.Text
import ViewCompiler.Proofs.ControlFlow
import ViewCompiler.Proofs.WrittenMarkup

/-!
Symbols of a module. What a module defines for a type is named after the type and the part of it
that is meant; a string constant is named in the same way. Parts have no dots, so a symbol tells
both (`symbolOf_inj`).

`Module.defined` and `Module.declared` are the symbols that a module introduces, `Module.used` those
that it refers to.
-/

namespace ViewCompiler

namespace Bytes

/-- Texts without dots behind the last dot. -/
theorem append_dot_inj {m n x y : Bytes} (hx : Ascii.dot ∉ x) (hy : Ascii.dot ∉ y)
    (h : m ++ Ascii.dot :: x = n ++ Ascii.dot :: y) : m = n ∧ x = y := by
  rcases List.append_eq_append_iff.1 h with ⟨as, rfl, has⟩ | ⟨as, rfl, has⟩
  · cases as with
    | nil => exact ⟨(List.append_nil m).symm, (List.cons.inj has).2⟩
    | cons a as =>
      rw [(List.cons.inj has).2] at hx
      simp at hx
  · cases as with
    | nil => exact ⟨List.append_nil n, (List.cons.inj has).2.symm⟩
    | cons a as =>
      rw [(List.cons.inj has).2] at hy
      simp at hy

theorem IsWord.isNameByte {w : Bytes} (h : IsWord w) : ∀ b ∈ w, Ascii.isNameByte b = true :=
  List.all_eq_true.1 (Bool.and_eq_true_iff.1 h.1).2

/-- A number is no word. -/
theorem not_isWord_ofNat (n : Nat) : ¬ IsWord (ofNat n) := by
  intro h
  obtain ⟨b, bs, hb, hstart⟩ := IsQualified.head (.word h)
  have hdigit : Ascii.isDigit b = true := isDigit_of_mem_ofNat (n := n) (by simp [hb])
  rw [Ascii.isDigit_of_isNameStart hstart] at hdigit
  cases hdigit

end Bytes

namespace Code

/-! ## Parts -/

/-- What a symbol means of the thing it is named after. -/
inductive Part where
  | init | render | descriptor
  | fragment (index : Nat)
  | method (name : Bytes)
  | constant (index : Nat)
deriving DecidableEq, Repr, Inhabited

namespace Part

def text : Part → Bytes
  | init => "$init"
  | render => "$render"
  | descriptor => "$descriptor"
  | fragment i => "$render$frag" ++ Bytes.ofNat i
  | method name => name
  | constant i => Bytes.ofNat i

/-- Methods are named by words. -/
def Plain : Part → Prop
  | method name => name.IsWord
  | _ => True

variable {p q : Part}

theorem dot_notMem_text (h : p.Plain) : Ascii.dot ∉ p.text := by
  intro hmem
  cases p with
  | init | render | descriptor => revert hmem; decide
  | fragment i =>
    rcases List.mem_append.1 hmem with hmem | hmem
    · revert hmem; decide
    · cases Bytes.isDigit_of_mem_ofNat hmem
  | method name => cases Bytes.IsWord.isNameByte h _ hmem
  | constant i => cases Bytes.isDigit_of_mem_ofNat hmem

theorem text_injective (hp : p.Plain) (hq : q.Plain) (h : p.text = q.text) : p = q := by
  have hmarked {w x : Bytes} (hw : w.IsWord) : w ≠ 36 :: x := by
    rintro rfl
    cases hw.isNameByte _ List.mem_cons_self
  have hnumber {i : Nat} {x : Bytes} : Bytes.ofNat i ≠ 36 :: x := by
    intro hi
    have hdigit : Ascii.isDigit 36 = true := Bytes.isDigit_of_mem_ofNat (n := i) (by simp [hi])
    cases hdigit
  cases p with
  | init | render | descriptor =>
    cases q with
    | method => exact absurd h.symm (hmarked hq)
    | constant => exact absurd h.symm hnumber
    | _ => first | rfl | cases h
  | fragment i =>
    cases q with
    | fragment j => exact congrArg fragment (Bytes.ofNat_injective (List.append_cancel_left h))
    | method => exact absurd h.symm (hmarked hq)
    | constant => exact absurd h.symm hnumber
    | _ => cases h
  | method =>
    cases q with
    | method => exact congrArg method h
    | constant j => exact absurd (Eq.mp (congrArg Bytes.IsWord h) hp) (Bytes.not_isWord_ofNat j)
    | _ => exact absurd h (hmarked hp)
  | constant i =>
    cases q with
    | method => exact absurd (Eq.mp (congrArg Bytes.IsWord h.symm) hq) (Bytes.not_isWord_ofNat i)
    | constant j => exact congrArg constant (Bytes.ofNat_injective h)
    | _ => exact absurd h hnumber

end Part

/-- The symbol of a part. -/
def symbolOf (type : Bytes) (part : Part) : Bytes := type ++ Ascii.dot :: part.text

theorem symbolOf_inj {type type' : Bytes} {p q : Part} (hp : p.Plain) (hq : q.Plain)
    (h : symbolOf type p = symbolOf type' q) : type = type' ∧ p = q := by
  obtain ⟨htype, htext⟩ := Bytes.append_dot_inj (Part.dot_notMem_text hp) (Part.dot_notMem_text hq) h
  exact ⟨htype, Part.text_injective hp hq htext⟩

theorem initSymbol_eq (type : Bytes) : initSymbol type = symbolOf type .init := rfl

theorem renderSymbol_eq (type : Bytes) : renderSymbol type = symbolOf type .render := rfl

theorem descriptorSymbol_eq (type : Bytes) : descriptorSymbol type = symbolOf type .descriptor := rfl

theorem fragmentSymbol_eq (type : Bytes) (i : Nat) :
    fragmentSymbol type i = symbolOf type (.fragment i) := by
  rw [fragmentSymbol, List.append_assoc]
  rfl

theorem methodSymbol_eq (type method : Bytes) :
    methodSymbol type method = symbolOf type (.method method) := by
  rw [methodSymbol, List.append_assoc]
  rfl

/-- Where keys are distinct, an element is the only one of its key. -/
theorem filter_key_eq {α β : Type} [DecidableEq α] [DecidableEq β] {key : α → β} {a : α} {l : List α}
    (hnodup : (l.map key).Nodup) (ha : a ∈ l) : l.filter (key · = key a) = [a] := by
  have hsame : l.filter (key · = key a) = l.filter (· = a) :=
    List.filter_congr fun b hb =>
      decide_eq_decide.2 ⟨List.inj_on_of_nodup_map hnodup hb ha, congrArg key⟩
  rw [hsame, List.filter_eq, List.count_eq_one_of_mem hnodup.of_map ha]
  rfl

/-! ## Symbols of a module -/

/-- The symbol of a string constant. -/
def stringSymbol (index : Nat) : Bytes := ".str." ++ Bytes.ofNat index

theorem stringSymbol_eq (index : Nat) : stringSymbol index = symbolOf ".str" (.constant index) := rfl

theorem stringSymbol_injective : Function.Injective stringSymbol :=
  fun _ _ h => Bytes.ofNat_injective (List.append_cancel_left h)

theorem nodup_stringSymbols (n : Nat) : ((List.range n).map stringSymbol).Nodup :=
  List.nodup_range.map stringSymbol_injective

/-- The symbol of the table of descriptors. -/
def tableSymbol : Bytes := "tryc_components"

/-- The symbol of what the runtime reads first. -/
def manifestSymbol : Bytes := "tryc_manifest"

def Operand.symbols : Operand → List Bytes
  | str i _ => [stringSymbol i]
  | descriptor type => [descriptorSymbol type]
  | function symbol => [symbol]
  | _ => []

def Callee.symbol : Callee → Bytes
  | runtime f => f.symbol
  | method symbol => symbol

/-- The symbols that an instruction refers to. -/
def Instr.symbols : Instr → List Bytes
  | store _ value _ => value.symbols
  | arith _ _ left right | logic _ _ left right | compare _ _ _ left right =>
    left.symbols ++ right.symbols
  | call _ callee args => callee.symbol :: args.flatMap (·.operand.symbols)
  | branch condition _ _ => condition.symbols
  | _ => []

/-- The symbols that a descriptor refers to. -/
def Descriptor.symbols (d : Descriptor) : List Bytes :=
  d.name.symbols ++ d.route.toList.flatMap Operand.symbols ++ initSymbol d.type :: d.render.toList

namespace Module

/-- The symbols that the module defines. -/
def defined (M : Module) : List Bytes :=
  (List.range M.strings.length).map stringSymbol ++
    M.descriptors.map (fun d => descriptorSymbol d.type) ++ [tableSymbol, manifestSymbol] ++
    M.functions.map (·.symbol)

/-- The symbols that the module takes from elsewhere. -/
def declared (M : Module) : List Bytes := M.declarations.map (·.symbol)

/-- The symbols that the module refers to: those of its descriptors, of the table of descriptors, of
the manifest and of its functions. -/
def used (M : Module) : List Bytes :=
  M.descriptors.flatMap Descriptor.symbols ++ M.descriptors.map (fun d => descriptorSymbol d.type) ++
    M.manifest.symbols ++ [tableSymbol] ++ M.functions.flatMap fun f => f.body.flatMap Instr.symbols

end Module

theorem dot_notMem_runtime (f : Runtime) : Ascii.dot ∉ f.symbol := by
  cases f <;> decide

/-- Symbols without dots belong to no part of a type. -/
theorem symbolOf_ne {symbol : Bytes} (h : Ascii.dot ∉ symbol) (type : Bytes) (part : Part) :
    symbolOf type part ≠ symbol := by
  rintro rfl
  exact h (by simp [symbolOf])

end Code

end ViewCompiler
