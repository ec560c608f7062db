import ViewCompiler.Proofs.BodyTyping
import ViewCompiler.Proofs.Headers

/-!
An analysis without errors over closed references gives a typed model (`Model.typed_analyze`).
-/

namespace ViewCompiler

/-- The bodies of all declared types are typed. -/
def Model.Typed (m : Model) : Prop :=
  ∀ t ∈ m.types, ∃ symbol, m.table.get? t.id = some symbol ∧ t.Typed m.table symbol

namespace Analysis

variable {refs : List Reference} {trees : List SyntaxTree}

/-- The symbol of a declared type has the members and methods of its declaration. -/
theorem exists_matches {d : Declared} (hd : d ∈ declared refs trees) :
    ∃ symbol, (Model.analyze refs trees).table.get? d.id = some symbol ∧ d.Matches symbol := by
  obtain ⟨base, htable⟩ := get?_declared hd
  refine ⟨_, htable, ?_, ?_, ?_⟩
  · exact (SymbolTable.headerMembers_length ..).symm
  · exact (SymbolTable.headerMethods_length ..).symm
  · exact fun f hf => SymbolTable.headerMethods_paramNames _ _ _ _ f hf

end Analysis

open Analysis in
theorem Model.typed_analyze {refs : List Reference} {trees : List SyntaxTree}
    (hrefs : Reference.Closed refs) (h : (Model.analyze refs trees).hasErrors = false) :
    (Model.analyze refs trees).Typed := by
  have hclean := clean_of_not_hasErrors h
  have hclosed : (Model.analyze refs trees).table.Closed := by
    refine closed_table hrefs fun d hd => ?_
    simpa [get?_announced hd] using (hclean d hd).1
  intro t ht
  rw [analyze_types] at ht
  obtain ⟨d, hd, rfl⟩ := List.mem_map.1 ht
  obtain ⟨symbol, hsymbol, hmatches⟩ := exists_matches hd
  have htyped := SymbolTable.typed_body hclosed hsymbol hmatches (hclean d hd).2
  exact ⟨symbol, by rwa [SymbolTable.body_id], htyped⟩

end ViewCompiler
