import ViewCompiler.Proofs.BuiltEnvironment
import ViewCompiler.Proofs.Headers

/-!
Errors that overrides cannot hide. What an analysis reports is told by the files or is a semantic
error, and each code has one severity (`SemanticError.mem_errorCodes`). So if the codes of errors are
upheld, a unit that reports no error has none (`CompilationUnit.hasErrors_model`).
-/

namespace ViewCompiler

/-! ## Codes of errors -/

/-- The codes of what is wrong with the meaning of a program. -/
def SemanticError.errorCodes : List Bytes :=
  ["IL2001", "IL2002", "IL2003", "IL2004", "IL2005", "IL2006", "IL2007", "IL2008", "IL2009", "IL2010",
    "IL2011", "IL2012", "IL2013", "IL2015", "IL2016", "IL2017", "IL2019"]

theorem SemanticError.mem_errorCodes {e : SemanticError} (h : e.severity = .error) :
    e.code ∈ errorCodes := by
  cases e with
  | neverRead | unnecessaryUsing => cases h
  | _ =>
    simp only [code]
    decide

/-- The codes of all errors that a unit can report. -/
def Diagnostic.errorCodes : List Bytes := SyntaxTree.textCodes ++ SemanticError.errorCodes

/-- A report of a semantic error. -/
def Diagnostic.IsSemantic (d : Diagnostic) : Prop :=
  ∃ file span e, d = SemanticError.diagnostic file span e

theorem Diagnostic.IsSemantic.mem_errorCodes {d : Diagnostic} (h : d.IsSemantic)
    (he : d.isError = true) : d.code ∈ errorCodes := by
  obtain ⟨file, span, e, rfl⟩ := h
  exact List.mem_append_right _ (SemanticError.mem_errorCodes (beq_iff_eq.1 he))

namespace Analysis

variable {refs : List Reference} {trees : List SyntaxTree}

/-- All that an analysis reports beyond the reports of the files. -/
theorem isSemantic_of_mem {r : Diagnostic} (h : r ∈ (Model.analyze refs trees).diagnostics) :
    (∃ tree ∈ trees, r ∈ tree.diagnostics) ∨ r.IsSemantic := by
  have hchecked {α : Type} {ds : List Declared} {cs : List (Checked α)}
      (hr : r ∈ (ds.zip cs).flatMap fun p => p.2.findings.diagnostics p.1.scope.file) :
      r.IsSemantic := by
    obtain ⟨⟨d, c⟩, -, hr⟩ := List.mem_flatMap.1 hr
    obtain ⟨⟨span, e⟩, -, rfl⟩ := List.mem_map.1 hr
    exact ⟨_, span, e, rfl⟩
  simp only [Model.analyze, List.mem_append] at h
  rcases h with (((((h | h) | h) | h) | h) | h) | h
  · exact .inl (List.mem_flatMap.1 h)
  · obtain ⟨d, -, e, -, hr⟩ := SymbolTable.exists_of_mem_announceAll h
    exact .inr ⟨_, _, e, hr⟩
  · exact .inr (hchecked h)
  · obtain ⟨d, -, _, _, _, hr⟩ := SymbolTable.exists_of_mem_breakCycles h
    exact .inr ⟨_, _, _, hr⟩
  · exact .inr (hchecked h)
  · obtain ⟨d, -, h⟩ := List.mem_flatMap.1 h
    obtain ⟨_, _, _, hr⟩ := SymbolTable.exists_of_mem_unreadFields h
    exact .inr ⟨_, _, _, hr⟩
  · obtain ⟨p, -, h⟩ := List.mem_flatMap.1 h
    obtain ⟨_, -, hr⟩ := SyntaxTree.exists_of_mem_unusedUsings h
    exact .inr ⟨_, _, _, hr⟩

/-- The errors of parsed files have codes of errors. -/
theorem mem_errorCodes (htrees : ∀ tree ∈ trees, ∃ source file, tree = SyntaxTree.parse source file)
    {r : Diagnostic} (h : r ∈ (Model.analyze refs trees).diagnostics) (he : r.isError = true) :
    r.code ∈ Diagnostic.errorCodes := by
  rcases isSemantic_of_mem h with ⟨tree, htree, hr⟩ | hsemantic
  · obtain ⟨source, file, rfl⟩ := htrees tree htree
    exact List.mem_append_left _ (SyntaxTree.report_of_mem_parse hr).2
  · exact hsemantic.mem_errorCodes he

end Analysis

/-- If errors stay errors, a unit of parsed files that reports none has none. -/
theorem CompilationUnit.hasErrors_model {u : CompilationUnit}
    (htrees : ∀ tree ∈ u.trees, ∃ source file, tree = SyntaxTree.parse source file)
    (hkeep : u.options.overrides.Uphold Diagnostic.errorCodes) (h : u.hasErrors = false) :
    u.model.hasErrors = false := by
  by_contra herrors
  obtain ⟨d, hd, he⟩ := List.any_eq_true.1 (Bool.not_eq_false _ ▸ herrors)
  have hreported := hkeep.hasErrors hd he (Analysis.mem_errorCodes htrees hd he)
  rw [hasErrors, diagnostics, hreported] at h
  cases h

end ViewCompiler
