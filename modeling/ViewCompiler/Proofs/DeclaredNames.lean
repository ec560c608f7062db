import ViewCompiler.Proofs.Outlines
import ViewCompiler.Proofs.WrittenMarkup

/-!
Names that are declared can be written. The scanner makes identifiers of words only
(`TokenStream.worded_tokens`), and readers take names from identifiers, so the types of a unit have
full names of words with dots between them (`CompilationUnit.nameable_reference`).
-/

namespace ViewCompiler

/-! ## Identifiers -/

namespace Tokens

/-- Identifiers are words. -/
def Worded (ts : List Token) : Prop := ∀ t ∈ ts, ∀ n, t.kind = .identifier n → n.IsWord

theorem Worded.tail {ts : List Token} (h : Worded ts) : Worded ts.tail :=
  fun t ht => h t (List.mem_of_mem_tail ht)

theorem Worded.of_next {ts : List Token} (h : Worded ts) {n : Bytes} (hn : next ts = .identifier n) :
    n.IsWord := by
  cases ts with
  | nil => cases hn
  | cons t ts => exact h t (by simp) n hn

end Tokens

namespace Lexeme

theorem isWord_of_token {s : Bool} {b : UInt8} {bs n : Bytes}
    (h : (ofText s b bs).token = some (.identifier n)) : n.IsWord := by
  rw [ofText] at h
  split at h
  · rw [ofDirective] at h
    split at h <;> cases h
  split at h
  · cases h
  split at h
  · cases h
  split at h
  · rw [ofBlockComment] at h
    split at h <;> cases h
  split at h
  · next hb =>
    simp only [ofWord] at h
    split at h
    · cases h
    · next hk =>
      cases h
      exact ⟨by simp [Bytes.isIdentifier, hb, Ascii.isNameByte_of_isNameStart hb], hk⟩
  split at h
  · rw [ofDigits] at h
    split at h <;> cases h
  split at h
  · cases h
  · rw [ofMark] at h
    split at h
    · cases h
    · split at h <;> cases h

end Lexeme

namespace TokenStream

theorem worded_tokens (c : Cursor) (text : Bytes) : Tokens.Worded (scanFrom c text).tokens := by
  fun_induction scanFrom c text with
  | case1 c =>
    intro t ht n hn
    cases List.mem_singleton.1 ht
    cases hn
  | case2 c b bs l r ih =>
    refine List.forall_mem_append.2 ⟨?_, ih⟩
    intro t ht n hn
    obtain ⟨kind, hkind, rfl⟩ := Option.map_eq_some_iff.1 (Option.mem_toList.1 ht)
    exact Lexeme.isWord_of_token (hkind.trans (congrArg some hn))

end TokenStream

/-! ## Readers -/

/-- What is read has the property `P`, and the identifiers left are words. -/
structure Reading.Gives {α : Type} (P : α → Prop) (r : Reading α) : Prop where
  value : ∀ a, r.value = some a → P a
  rest : Tokens.Worded r.rest

namespace Reading.Gives

variable {α β : Type} {P : α → Prop} {Q : β → Prop}

theorem ok {a : α} {ts : List Token} (ha : P a) (hts : Tokens.Worded ts) :
    Gives P (.ok a ts) where
  value := by
    rintro _ ⟨⟩
    exact ha
  rest := hts

theorem expected {what : Bytes} {ts : List Token} (hts : Tokens.Worded ts) :
    Gives P (.expected what ts) := ⟨by simp [Reading.expected], hts⟩

theorem map {r : Reading α} {f : α → β} (h : Gives P r) (hf : ∀ a, P a → Q (f a)) :
    Gives Q (r.map f) where
  value := by
    intro b hb
    obtain ⟨a, ha, rfl⟩ := Option.map_eq_some_iff.1 hb
    exact hf a (h.value a ha)
  rest := h.rest

theorem andThen {r : Reading α} {f : α → List Token → Reading β} (h : Gives P r)
    (hf : ∀ a ts, P a → Tokens.Worded ts → Gives Q (f a ts)) : Gives Q (r.andThen f) := by
  rw [Reading.andThen]
  split
  · next a ha =>
    have hg := hf a r.rest (h.value a ha) h.rest
    exact ⟨hg.value, hg.rest⟩
  · exact ⟨by simp, h.rest⟩

end Reading.Gives

theorem Reading.value_recover {α : Type} (r : Reading α) : r.recover.value = r.value := by
  rw [recover]
  split <;> rfl

namespace Tokens

open Reading (Orderly Gives)
open Bytes (IsWord IsQualified)

variable {ts : List Token}

theorem gives_take (h : Worded ts) (kind : TokenKind) (what : Bytes) :
    Gives (fun _ => True) (take kind what ts) := by
  rw [take]
  split
  · exact .ok trivial h.tail
  · exact .expected h

theorem gives_identifier (h : Worded ts) (what : Bytes) : Gives IsWord (identifier what ts) := by
  rw [identifier]
  split
  · next n hn => exact .ok (h.of_next hn) h.tail
  · exact .expected h

theorem gives_literal (h : Worded ts) (what : Bytes) :
    Gives (fun _ => True) (literal what ts) := by
  rw [literal]
  split
  · exact .ok trivial h.tail
  · exact .expected h

/-- A name goes on with words. -/
theorem dotted_worded (h : Worded ts) : Worded (dotted ts).2 ∧
    ∀ n : Bytes, n.IsWord → IsQualified (n ++ (dotted ts).1) := by
  fun_induction dotted ts with
  | case1 s n s' ts name rest hd ih =>
    have hts : Worded ts := h.tail.tail
    have hn : n.IsWord := h.tail.of_next rfl
    rw [hd] at ih
    exact ⟨(ih hts).1, fun m hm => .dot hm ((ih hts).2 n hn)⟩
  | case2 ts => exact ⟨h, fun n hn => by simpa using .word hn⟩

theorem gives_qualifiedName (h : Worded ts) : Gives IsQualified (qualifiedName ts) :=
  (gives_identifier h _).andThen fun n _ hn hts =>
    .ok ((dotted_worded hts).2 n hn) (dotted_worded hts).1

theorem gives_type (h : Worded ts) : Gives (fun _ => True) (type ts) := by
  rw [type]
  split
  · split
    · exact .ok trivial h.tail
    · exact .expected h
  · exact (gives_qualifiedName h).map fun _ _ => trivial
  · exact .expected h

theorem gives_routePart (h : Worded ts) : Gives (fun _ => True) (routePart ts) := by
  rw [routePart]
  split
  · exact (gives_take h.tail _ _).andThen fun _ _ _ h => (gives_literal h _).andThen
      fun _ _ _ h => (gives_take h _ _).map fun _ _ => trivial
  · exact .ok trivial h

theorem gives_typeKind (h : Worded ts) : Gives (fun _ => True) (typeKind ts) := by
  rw [typeKind]
  split
  · exact .ok trivial h.tail
  · exact .ok trivial h.tail
  · exact .expected h

theorem gives_typeHead (h : Worded ts) : Gives (fun d => d.name.IsWord) (typeHead ts) := by
  refine (gives_routePart h).andThen fun route _ _ h => ?_
  refine (gives_typeKind h).andThen fun kind _ _ h => ?_
  refine (gives_identifier h _).andThen fun name ts hname h => ?_
  refine Gives.andThen (P := fun _ => True) ?_ fun base _ _ h =>
    (gives_take h _ _).map fun _ _ => hname
  split
  · exact (gives_type h.tail).map fun _ _ => trivial
  · exact .ok trivial h

theorem isWord_typeDecl (h : Worded ts) {d : TypeDecl} (hd : (typeDecl ts).value = some d) :
    d.name.IsWord := by
  rw [typeDecl_eq, Reading.andThen] at hd
  split at hd
  · next head hhead =>
    rw [Reading.value_recover] at hhead
    have hname := (gives_typeHead h).value head hhead
    rw [Reading.report, closing, Reading.andThen] at hd
    split at hd
    · cases hd
      exact hname
    · cases hd
  · cases hd

/-! ## Files -/

/-- The names that a declaration of a file declares can be written. -/
def UnitItem.Nameable : UnitItem → Prop
  | .ns name => name.IsQualified
  | .using _ => True
  | .type d => d.name.IsWord

theorem isQualified_nameStatement (h : Worded ts) {name : Bytes}
    (hn : (nameStatement ts).value = some name) : name.IsQualified := by
  rw [nameStatement, Reading.value_recover] at hn
  exact ((gives_qualifiedName h).andThen fun name _ hname h =>
    (gives_take h _ _).map (f := fun _ => name) fun _ _ => hname).value name hn

theorem nameable_unitItem {hasNs hasType : Bool} {t : Token} (h : Worded (t :: ts)) {i : UnitItem}
    (hi : (unitItem hasNs hasType t ts).value = some i) : i.Nameable := by
  have htype (hi : ((typeDecl (t :: ts)).map UnitItem.type).value = some i) : i.Nameable := by
    obtain ⟨d, hd, rfl⟩ := Option.map_eq_some_iff.1 hi
    exact isWord_typeDecl h hd
  rw [unitItem] at hi
  split at hi
  · rw [Reading.andThen] at hi
    split at hi
    · next name hname =>
      cases hi
      exact isQualified_nameStatement h.tail hname
    · cases hi
  · obtain ⟨name, -, rfl⟩ := Option.map_eq_some_iff.1 hi
    trivial
  · exact htype hi
  · exact htype hi
  · exact htype hi
  · cases hi

end Tokens

namespace SyntaxTree

/-- The codes of what is wrong with the text of a file. -/
def syntaxCodes : List Bytes := ["IL1001", "IL1002", "IL1003"]

theorem mem_syntaxCodes (e : LexicalError) : e.code ∈ syntaxCodes := by
  unfold LexicalError.code
  split <;> decide

/-- Nothing is wrong with the text of the file, though it may repeat a block. -/
def WellRead (tree : SyntaxTree) : Prop := ∀ d ∈ tree.diagnostics, d.code ∉ syntaxCodes

instance (tree : SyntaxTree) : Decidable tree.WellRead :=
  inferInstanceAs (Decidable (∀ d ∈ tree.diagnostics, d.code ∉ syntaxCodes))

theorem wellRead_parse {source file : Bytes} : (parse source file).WellRead ↔
    (TokenStream.scan source).errors = [] ∧
      Reading.Orderly (Tokens.unitItems false false (TokenStream.scan source).tokens).errors := by
  have hsyntax (e : SyntaxError) : e.code ∉ syntaxCodes ↔ e.code ≠ "IL1001" := by
    unfold SyntaxError.code
    split <;> decide
  simp only [WellRead, parse, ofItems, List.forall_mem_append, TokenStream.diagnostics,
    List.forall_mem_map, Reading.Orderly]
  refine and_congr ?_ ?_
  · constructor
    · intro h
      refine List.eq_nil_iff_forall_not_mem.2 fun e he => h e he (mem_syntaxCodes e.2)
    · rintro h
      simp [h]
  · exact forall₂_congr fun e _ => hsyntax e.2

/-- The names that the file declares can be written. -/
structure Nameable (tree : SyntaxTree) : Prop where
  ns : tree.ns = [] ∨ tree.ns.IsQualified
  types : ∀ d ∈ tree.types, d.name.IsWord

theorem nameable_ofItems {file : Bytes} {items : List Tokens.UnitItem} {ds : List Diagnostic}
    (h : ∀ i ∈ items, i.Nameable) : (ofItems file items ds).Nameable where
  ns := by
    simp only [ofItems]
    cases hl : (items.filterMap _).getLast? with
    | none => exact .inl rfl
    | some n =>
      obtain ⟨i, hi, hn⟩ := List.mem_filterMap.1 (List.mem_of_getLast? hl)
      cases i with
      | ns name =>
        cases hn
        exact .inr (h _ hi)
      | _ => cases hn
  types := by
    intro d hd
    obtain ⟨i, hi, hd⟩ := List.mem_filterMap.1 hd
    cases i with
    | type d' =>
      cases hd
      exact h _ hi
    | _ => cases hd

end SyntaxTree

/-! ## References -/

namespace TypeSymbol

theorem isQualified_qualify {ns name : Bytes} (hns : ns = [] ∨ ns.IsQualified)
    (hname : name.IsWord) : (qualify ns name).IsQualified := by
  rw [qualify]
  split
  · exact .word hname
  · next hne =>
    have h := (hns.resolve_left hne).append (.word hname)
    rw [List.append_assoc]
    exact h

end TypeSymbol

/-- The types of the reference have names that can be written. -/
def Reference.Nameable (r : Reference) : Prop := ∀ s ∈ r.types, s.fullName.IsQualified

theorem SymbolTable.nameable_ofReferences {refs : List Reference} (h : ∀ r ∈ refs, r.Nameable) :
    (SymbolTable.ofReferences refs).Nameable := by
  intro s hs
  obtain ⟨r, hr, hs⟩ := List.mem_flatMap.1 hs
  exact h r hr s hs

theorem Analysis.exists_tree {refs : List Reference} {trees : List SyntaxTree} {d : Declared}
    (h : d ∈ declared refs trees) : ∃ tree ∈ trees, d.scope = tree.scope ∧ d.decl ∈ tree.types := by
  obtain ⟨⟨⟨i, scope, decl⟩, k⟩, hk, rfl⟩ := List.mem_map.1 h
  obtain ⟨⟨tree, j⟩, htree, hdecl⟩ := List.mem_flatMap.1 (List.fst_mem_of_mem_zipIdx hk)
  obtain ⟨decl', hdecl', heq⟩ := List.mem_map.1 hdecl
  cases heq
  exact ⟨tree, List.fst_mem_of_mem_zipIdx htree, rfl, hdecl'⟩

namespace CompilationUnit

theorem nameable_reference {u : CompilationUnit} (h : ∀ tree ∈ u.trees, tree.Nameable) :
    u.reference.Nameable := by
  intro s hs
  obtain ⟨symbol, hsymbol, rfl⟩ := List.mem_map.1 hs
  rw [model, Analysis.declared_eq] at hsymbol
  obtain ⟨d, hd, hget⟩ := List.mem_filterMap.1 hsymbol
  obtain ⟨base, htable⟩ := Analysis.get?_declared hd
  rw [htable] at hget
  cases hget
  obtain ⟨tree, htree, hscope, hdecl⟩ := Analysis.exists_tree hd
  have hname := TypeSymbol.isQualified_qualify (h tree htree).ns ((h tree htree).types _ hdecl)
  rwa [show tree.ns = d.scope.ns by rw [hscope]; rfl] at hname

end CompilationUnit

end ViewCompiler
