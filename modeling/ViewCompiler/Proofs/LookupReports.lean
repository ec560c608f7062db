import ViewCompiler.Proofs.DeclarationPass

/-!
Reports of lookups. Whether a tag names a component is asked when the markup is written, so reading a
template never reports it (`Template.readable_parse`), and writing a declaration reports nothing at
all. So in the first pass over a project no component is looked up (`Item.not_isLookup_of_mem_generate`).
-/

namespace ViewCompiler

/-- A tag that names no component, or several. -/
def TemplateError.isLookup : TemplateError → Bool
  | .unknownComponent _ | .ambiguousComponent _ _ => true
  | _ => false

/-- An element without end tag, or an end tag without start tag. -/
def TemplateError.isNesting : TemplateError → Bool
  | .unclosedElement _ | .unmatchedEndTag _ => true
  | _ => false

/-- What can be wrong with a piece, whatever stands around it. -/
def TemplateError.isLocal (e : TemplateError) : Bool := !e.isLookup && !e.isNesting

theorem TemplateError.isLookup_of_isLocal {e : TemplateError} (h : e.isLocal = true) :
    e.isLookup = false := by
  rw [isLocal, Bool.and_eq_true, Bool.not_eq_true'] at h
  exact h.1

/-- A report of a lookup of a component. -/
def Diagnostic.isLookup (d : Diagnostic) : Bool := d.code == "TX2001" || d.code == "TX2002"

@[simp] theorem Item.isLookup_diagnostic (i : Item) (r : TemplateReport) :
    (i.diagnostic r).isLookup = r.2.isLookup := by
  obtain ⟨span, e⟩ := r
  cases e <;>
    simp only [Item.diagnostic, Diagnostic.isLookup, Diagnostic.located, TemplateError.code,
      TemplateError.isLookup] <;> decide

/-- Reports that can be made by reading. -/
def Readable (es : List TemplateReport) : Prop := ∀ r ∈ es, r.2.isLookup = false

/-- Reports about pieces. -/
def Local (es : List TemplateReport) : Prop := ∀ r ∈ es, r.2.isLocal = true

section
variable {es es' : List TemplateReport} {span : Span} {e : TemplateError}

theorem Readable.nil : Readable [] := by simp [Readable]

theorem Readable.singleton (h : e.isLookup = false) : Readable [(span, e)] := List.forall_mem_singleton.2 h

theorem Readable.append (h : Readable es) (h' : Readable es') : Readable (es ++ es') :=
  List.forall_mem_append.2 ⟨h, h'⟩

theorem Local.nil : Local [] := by simp [Local]

theorem Local.singleton (h : e.isLocal = true) : Local [(span, e)] := List.forall_mem_singleton.2 h

theorem Local.append (h : Local es) (h' : Local es') : Local (es ++ es') :=
  List.forall_mem_append.2 ⟨h, h'⟩

theorem Local.readable (h : Local es) : Readable es := fun r hr =>
  TemplateError.isLookup_of_isLocal (h r hr)

end

/-! ## Pieces -/

namespace Attribute

theorem isLocal_scanValue {s : Source} {e : Bytes → TemplateError} (h : (scanValue s).value = .error e)
    (name : Bytes) : (e name).isLocal = true := by
  rw [scanValue] at h
  split at h
  · cases h
    rfl
  split at h
  · dsimp only at h
    split at h <;> cases h
    rfl
  · dsimp only at h
    split at h <;> cases h
    rfl

theorem local_check (span : Span) (name : Bytes) (value : Option Bytes) (rest : Source) :
    Local (check span name value rest).errors := by
  rw [check]
  split
  · exact .singleton rfl
  split
  · exact .nil
  split
  · exact .nil
  · exact .singleton rfl

theorem local_scan (tag : Bytes) (s : Source) : Local (scan tag s).errors := by
  rw [scan]
  split
  · exact .nil
  split
  · dsimp only
    split
    · split
      · exact local_check _ _ _ _
      · next e he => exact .singleton (isLocal_scanValue he _)
    · exact local_check _ _ _ _
  · exact .singleton rfl

end Attribute

theorem TagBody.local_scan (span : Span) (tag : Bytes) (attributes : List Attribute) (s : Source) :
    Local (scan span tag attributes s).errors := by
  have abandoned (attributes : List Attribute) (s : Source) : (abandon attributes s).errors = [] := by
    rw [abandon]
    split <;> rfl
  fun_induction scan span tag attributes s with
  | case1 => exact .singleton rfl
  | case2 | case3 => exact .nil
  | case4 attributes s s' h₁ h₂ h₃ a ha r =>
    exact (Attribute.local_scan _ _).append (by rw [abandoned]; exact .nil)
  | case5 attributes s s' h₁ h₂ h₃ a next ha r ih => exact (Attribute.local_scan _ _).append ih

namespace Piece

/-- What is wrong with a code block is local. -/
def IsLocal : Piece → Prop
  | code _ _ (.error e) => e.isLocal = true
  | _ => True

/-- What is reported with the piece, and in it, is about the piece alone. -/
def Reads (r : Scanned Piece) : Prop := r.value.IsLocal ∧ Local r.errors

theorem reads_comment (close : Bytes) (span : Span) (s : Source) : Reads (comment close span s) := by
  rw [comment]
  split
  · exact ⟨trivial, .nil⟩
  · exact ⟨trivial, .singleton rfl⟩

theorem reads_expression (span : Span) (code : Bytes) (rest : Source) :
    Reads (expression span code rest) := by
  rw [expression]
  split
  · exact ⟨trivial, .nil⟩
  · exact ⟨trivial, .singleton rfl⟩

theorem reads_transition (inWord : Bool) (s : Source) : Reads (transition inWord s) := by
  rw [transition]
  dsimp only
  split
  · exact ⟨trivial, .nil⟩
  split
  · exact reads_comment _ _ _
  split
  · exact ⟨trivial, .nil⟩
  split
  · rw [parenthesized]
    split
    · exact reads_expression _ _ _
    · exact ⟨trivial, .singleton rfl⟩
  split
  · exact reads_expression _ _ _
  · exact ⟨trivial, .singleton rfl⟩

theorem reads_ofDirective (k : DirectiveKeyword) (s : Source) : Reads (ofDirective k s) := by
  rw [ofDirective]
  dsimp only
  split
  · refine ⟨?_, .nil⟩
    rw [codeBlock]
    dsimp only
    split
    · split
      · trivial
      · exact rfl
    · exact rfl
  · exact ⟨trivial, .nil⟩

theorem reads_scan (inWord : Bool) (s : Source) : Reads (scan inWord s) := by
  rw [scan]
  split
  · split
    · exact reads_ofDirective _ _
    · exact reads_transition _ _
  split
  · exact reads_comment _ _ _
  split
  · rw [ofEndTag]
    split
    · exact ⟨trivial, .nil⟩
    · exact ⟨trivial, .singleton rfl⟩
  split
  · exact ⟨trivial, TagBody.local_scan _ _ _ _⟩
  · exact ⟨trivial, .nil⟩

theorem reads_scanAll (inWord : Bool) (s : Source) :
    ∀ p ∈ scanAll inWord s, p.1.IsLocal ∧ Local p.2 := by
  fun_induction scanAll inWord s with
  | case1 => simp
  | case2 inWord s _ r ih => exact List.forall_mem_cons.2 ⟨reads_scan inWord s, ih⟩

end Piece

/-! ## Drafts -/

namespace Draft

variable {d : Draft}

theorem isLocal_directive {t : Template} {span : Span} {argument : Bytes} {k : DirectiveKeyword}
    {e : TemplateError} (h : directive t span argument k = .error e) : e.isLocal = true := by
  cases k with
  | code => cases h
  | page | inherits =>
    simp only [directive] at h
    split at h
    · cases h
      rfl
    · split at h <;> cases h
      rfl
  | inject =>
    simp only [directive] at h
    split at h <;> cases h
    rfl
  | imports =>
    dsimp only [directive] at h
    generalize (if argument.getLast? = some Ascii.semicolon then argument.dropLast else argument) = ns at h
    split at h <;> cases h
    rfl

theorem readable_reportPlace (h : Readable d.template.errors) (span : Span) (atLineStart : Bool)
    (k : DirectiveKeyword) : Readable (d.reportPlace span atLineStart k).template.errors := by
  rw [reportPlace]
  split
  · exact h
  · exact h.append (.singleton rfl)

theorem readable_opened (es : List OpenElement) : Readable (es.map (·.report)) := by
  intro r hr
  obtain ⟨e, -, rfl⟩ := List.mem_map.1 hr
  rfl

theorem readable_add (h : Readable d.template.errors) {p : Piece} (hp : p.IsLocal) :
    Readable (d.add p).template.errors := by
  have hend : Readable d.endText.template.errors := by rwa [errors_endText]
  cases p with
  | text span t =>
    rw [add, addText]
    split <;> exact h
  | gap => exact hend
  | expr span code =>
    rw [add, errors_addNode]
    exact hend
  | startTag span tag attributes opens =>
    rw [add]
    split
    · exact hend
    · rw [errors_addNode]
      exact hend
  | endTag span tag =>
    rw [add, endTag]
    split
    · exact hend.append (.singleton rfl)
    · rw [errors_close]
      exact hend.append (readable_opened _)
  | directive span atLineStart k argument =>
    rw [add]
    split
    · split
      · next t ht =>
        rw [← (nodes_directive ht).2] at hend
        exact hend
      · next e he => exact hend.append (.singleton (TemplateError.isLookup_of_isLocal (isLocal_directive he)))
    · exact readable_reportPlace hend _ _ _
  | code span atLineStart block =>
    have hplace := readable_reportPlace hend span atLineStart .code
    cases block with
    | error e => exact hplace.append (.singleton (TemplateError.isLookup_of_isLocal hp))
    | ok block =>
      dsimp only [add]
      split
      · exact hplace
      · exact hplace

theorem readable_foldl_step (h : Readable d.template.errors) {ps : List (Piece × List TemplateReport)}
    (hps : ∀ p ∈ ps, p.1.IsLocal ∧ Local p.2) :
    Readable (ps.foldl Draft.step d).template.errors := by
  induction ps generalizing d with
  | nil => exact h
  | cons p ps ih =>
    rw [List.forall_mem_cons] at hps
    have hreport : Readable (d.report p.2).template.errors := h.append hps.1.2.readable
    exact ih (readable_add hreport hps.1.1) hps.2

end Draft

/-- Reading a template reports no lookup. -/
theorem Template.readable_parse (text : Bytes) : Readable (Template.parse text).errors := by
  have hrun := Draft.readable_foldl_step (d := {}) .nil (Piece.reads_scanAll false { rest := text })
  rw [parse, Draft.finish, Draft.errors_close]
  refine Readable.append ?_ (Draft.readable_opened _)
  rwa [Draft.errors_endText]

/-! ## The first pass -/

theorem Template.reports_write_none (t : Template) (i : Item) (o : TemplateOptions) (name : Bytes) :
    (t.write i o none name).reports = [] := rfl

namespace Item

/-- Writing a declaration looks up no component. -/
theorem not_isLookup_of_mem_generate {i : Item} {o : TemplateOptions} {d : Diagnostic}
    (h : d ∈ (i.generate o none).value.diagnostics) : d.isLookup = false := by
  have hread {d : Diagnostic} (hd : d ∈ (Template.parse i.content).errors.map i.diagnostic) :
      d.isLookup = false := by
    obtain ⟨r, hr, rfl⟩ := List.mem_map.1 hd
    rw [isLookup_diagnostic]
    exact Template.readable_parse _ r hr
  rw [value_generate] at h
  split at h
  · rw [Template.reports_write_none, List.map_nil, List.append_nil] at h
    exact hread h
  · rcases List.mem_append.1 h with h | h
    · exact hread h
    · rw [List.mem_singleton.1 h]
      rfl

end Item

end ViewCompiler
