import ViewCompiler.Model.Finding

/-!
Findings without errors. A step of the analysis is *clean* when it reports nothing of error
severity; a sequence of steps is clean exactly when each of its steps is (`Checked.clean_bind`), so
the absence of errors in a whole analysis is handed down to every node that it visits.
-/

namespace ViewCompiler

/-- No error is among the reports. -/
def Findings.Clean (f : Findings) : Prop := ∀ r ∈ f.reports, r.2.severity ≠ .error

namespace Findings

@[simp] theorem clean_append {f g : Findings} : (f ++ g).Clean ↔ f.Clean ∧ g.Clean := by
  show (∀ r ∈ f.reports ++ g.reports, _) ↔ _
  simp only [List.mem_append, or_imp, forall_and, Clean]

theorem clean_iff_hasErrors {f : Findings} (file : Bytes) :
    f.Clean ↔ Diagnostic.hasErrors (f.diagnostics file) = false := by
  simp [Clean, diagnostics, Diagnostic.hasErrors, Diagnostic.isError, SemanticError.diagnostic,
    Diagnostic.located]

end Findings

namespace Checked

variable {α β : Type}

/-- The step reports no error. -/
def Clean (c : Checked α) : Prop := c.findings.Clean

@[simp] theorem value_pure (a : α) : (pure a : Checked α).value = a := rfl

@[simp] theorem value_bind (c : Checked α) (f : α → Checked β) :
    (c >>= f).value = (f c.value).value := rfl

@[simp] theorem clean_pure (a : α) : (pure a : Checked α).Clean := by
  intro r hr
  cases hr

@[simp] theorem clean_bind {c : Checked α} {f : α → Checked β} :
    (c >>= f).Clean ↔ c.Clean ∧ (f c.value).Clean :=
  Findings.clean_append

@[simp] theorem clean_report {span : Span} {e : SemanticError} :
    (report span e).Clean ↔ e.severity ≠ .error := by
  simp [Clean, report, Findings.Clean]

@[simp] theorem clean_needs (ns : Bytes) : (needs ns).Clean := by
  intro r hr
  cases hr

@[simp] theorem clean_reads (id : MemberId) : (reads id).Clean := by
  intro r hr
  cases hr

theorem clean_ite {p : Prop} [Decidable p] {c d : Checked α} :
    (if p then c else d).Clean ↔ (p → c.Clean) ∧ (¬ p → d.Clean) := by
  by_cases h : p <;> simp [h]

end Checked

end ViewCompiler
