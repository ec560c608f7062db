import ViewCompiler.Proofs.ReportOverrides

/-!
Which steps of a compilation are announced. Reading, generating and linking files announce nothing
by themselves (`Logged.Quiet`), so a compilation announces that the project is prepared, if the first
pass over its files succeeds, and that the assembly is compiled (`Service.status_run`). What is
generated does not depend on who is told (`Environment.value_generate_congr`).
-/

namespace ViewCompiler

namespace Logged

variable {α β ε : Type}

/-- The computation announces nothing. -/
def Quiet (x : Logged α) : Prop := x.status = []

theorem Quiet.pure (a : α) : Quiet (Pure.pure a) := rfl

theorem Quiet.log (level : Log.Level) (tag message : Bytes) : Quiet (Logged.log level tag message) :=
  rfl

theorem Quiet.bind {x : Logged α} {f : α → Logged β} (hx : x.Quiet) (hf : ∀ a, (f a).Quiet) :
    (x >>= f).Quiet := by
  rw [Quiet, status_bind, hx, hf x.value]
  rfl

theorem Quiet.mapM {f : α → Logged β} {xs : List α} (hf : ∀ a, (f a).Quiet) : (xs.mapM f).Quiet := by
  induction xs with
  | nil => exact .pure []
  | cons x xs ih =>
    rw [List.mapM_cons]
    exact (hf x).bind fun _ => ih.bind fun _ => .pure _

/-- The same for computations that can fail. -/
theorem Quiet.run_bind {x : ExceptT ε Logged α} {f : α → ExceptT ε Logged β} (hx : x.run.Quiet)
    (hf : ∀ a, (f a).run.Quiet) : (x >>= f).run.Quiet := by
  change (x.run >>= ExceptT.bindCont f).Quiet
  apply hx.bind
  intro r
  cases r with
  | ok a => exact hf a
  | error e => exact .pure _

theorem Quiet.run_lift {x : Logged α} (hx : x.Quiet) :
    (liftM x : ExceptT ε Logged α).run.Quiet := hx.bind fun _ => .pure _

theorem Quiet.run_mapM {f : α → ExceptT ε Logged β} {xs : List α} (hf : ∀ a, (f a).run.Quiet) :
    (xs.mapM f).run.Quiet := by
  induction xs with
  | nil => exact .pure _
  | cons x xs ih =>
    rw [List.mapM_cons]
    exact .run_bind (hf x) fun _ => .run_bind ih fun _ => .pure _

end Logged

open Logged

/-! ## Units -/

theorem FrontEnd.quiet_parse (f : FrontEnd) (code path : Bytes) : (f.parse code path).Quiet := by
  cases f with
  | il => exact .bind (.log ..) fun _ => .pure _
  | foreign => exact .pure _

theorem Generator.quiet_image (g : Generator) (options : UnitOptions) (text : Bytes) :
    (g.image options text).Quiet := by
  apply Quiet.bind (.mapM fun warning => .log .warn "llvm" warning)
  intro _
  cases (g.emission options text).result with
  | error message => exact .bind (.log ..) fun _ => .pure _
  | ok image => exact .pure _

namespace CompilationUnit

theorem quiet_create (references : List Reference) (options : UnitOptions)
    (trees : List SyntaxTree) : (create references options trees).Quiet :=
  .bind (.log ..) fun _ => .pure _

theorem quiet_add (u : CompilationUnit) (units : List SyntaxUnit) : (u.add units).run.Quiet := by
  rw [add]
  split
  · exact .pure _
  · exact .run_lift (quiet_create ..)

theorem quiet_emit (g : Generator) (u : CompilationUnit) : (u.emit g).Quiet := by
  have hcode : u.code.Quiet := by
    rw [code]
    split
    · exact .pure _
    · exact .bind (.log ..) fun _ => .pure _
  rw [emit]
  split
  · exact .pure _
  · apply hcode.bind
    intro r
    cases r with
    | error e => exact .pure _
    | ok text =>
      dsimp only
      split
      · exact g.quiet_image u.options text
      · exact .pure _

end CompilationUnit

/-! ## Generated files -/

theorem Item.quiet_generate (i : Item) (o : TemplateOptions) (table : Option SymbolTable) :
    (i.generate o table).Quiet := by
  have hparse : i.parse.Quiet := .bind (.log ..) fun _ => .pure _
  rw [generate]
  apply hparse.bind
  intro t
  dsimp only
  split
  · exact .bind (.log ..) fun _ => .pure _
  · exact .pure _

namespace Environment

variable {env : Environment} {files : List SourceFile}

theorem quiet_unitOf (env : Environment) (files : List GeneratedFile) :
    (env.unitOf files).run.Quiet :=
  .run_bind (.run_mapM fun _ => .run_lift (FrontEnd.quiet_parse ..)) fun _ =>
    CompilationUnit.quiet_add ..

theorem quiet_declare (file : SourceFile) (index : Nat) : (env.declare file index).Quiet := by
  rw [declare]
  split
  · exact .pure _
  · exact (Item.quiet_generate ..).bind fun _ => .pure _

theorem quiet_complete (table : SymbolTable) (f : GeneratedFile) : (env.complete table f).Quiet := by
  rw [complete]
  split
  · exact .pure _
  · exact (Item.quiet_generate ..).bind fun _ => .pure _

theorem quiet_linkDeclarations (env : Environment) (files : List GeneratedFile) :
    (env.linkDeclarations files).run.Quiet := by
  rw [linkDeclarations]
  apply Quiet.run_bind (.run_lift (env.quiet_unitOf files))
  intro r
  cases r with
  | error path => exact .run_bind (.run_lift (.log ..)) fun _ => .pure _
  | ok u =>
    dsimp only
    split
    · exact .pure _
    · exact .pure _

theorem quiet_link (env : Environment) (g : Generator) (files : List GeneratedFile) :
    (env.link g files).Quiet := by
  rw [link]
  dsimp only
  split
  · exact .bind (.log ..) fun _ => .pure _
  · apply (env.quiet_unitOf files).bind
    intro r
    cases r with
    | error path => exact .bind (.log ..) fun _ => .pure _
    | ok u =>
      dsimp only
      split
      · exact .bind (.log ..) fun _ => .pure _
      · apply (u.quiet_emit g).bind
        intro r
        cases r with
        | error e => exact .pure _
        | ok image => exact .bind (.log ..) fun _ => .pure _

end Environment

/-! ## Steps that are announced -/

/-- What the sink is told of these steps. -/
def StatusSink.told (sink : StatusSink) (labels : List Bytes) : List Bytes :=
  if sink.take?.isSome then labels else []

theorem StatusSink.status_notify (sink : StatusSink) (label : Bytes) :
    (sink.notify label).status = sink.told [label] := by
  rw [notify, told]
  cases sink.take? with
  | none => rfl
  | some take =>
    dsimp only
    cases (take label).failure <;> rfl

theorem StatusSink.told_append (sink : StatusSink) (labels labels' : List Bytes) :
    sink.told (labels ++ labels') = sink.told labels ++ sink.told labels' := by
  rw [told, told, told]
  split <;> rfl

namespace Environment

variable {env : Environment} {files : List SourceFile}

/-- What is generated does not depend on who is told. -/
theorem value_generate_congr (env : Environment) (sink sink' : StatusSink) (files : List SourceFile) :
    (env.generate sink files).value = (env.generate sink' files).value := by
  by_cases hnil : files = []
  · rw [generate, generate, if_pos hnil, if_pos hnil]
  · by_cases hpaths : SourceFile.repeatedPaths [] [] files = []
    · rw [value_generate_of_paths hnil hpaths, value_generate_of_paths hnil hpaths]
    · rw [generate, generate, if_neg hnil, if_neg hnil, if_pos hpaths, if_pos hpaths]

theorem status_generate_of_paths (hnil : files ≠ [])
    (hpaths : SourceFile.repeatedPaths [] [] files = []) (sink : StatusSink) :
    (env.generate sink files).status =
      if Diagnostic.hasErrors ((env.declared files).flatMap (·.diagnostics)) then []
      else match (env.linkDeclarations (env.declared files)).run.value with
        | .error _ => []
        | .ok _ => sink.told [preparingProject] := by
  have hdeclared : (files.zipIdx.mapM fun (file, i) => env.declare file i).Quiet :=
    .mapM fun _ => quiet_declare _ _
  rw [generate, if_neg hnil, if_neg (not_not_intro hpaths), Logged.status_bind, hdeclared,
    List.nil_append, Logged.value_mapM]
  change (if Diagnostic.hasErrors ((env.declared files).flatMap (·.diagnostics)) = true then _
    else _ : Logged (List GeneratedFile)).status = _
  split
  · rfl
  · have hlinked : (env.linkDeclarations (files.zipIdx.map fun p => (env.declare p.1 p.2).value)).run
        = (env.linkDeclarations (env.declared files)).run := rfl
    rw [Logged.status_bind, hlinked, env.quiet_linkDeclarations, List.nil_append]
    cases (env.linkDeclarations (env.declared files)).run.value with
    | error ds => rfl
    | ok reference =>
      have hcompleted (table : SymbolTable) (fs : List GeneratedFile) :
          (fs.mapM (env.complete table)).status = [] := Quiet.mapM fun _ => quiet_complete _ _
      dsimp only
      rw [Logged.status_bind, StatusSink.status_notify, Logged.status_bind, hcompleted]
      exact List.append_nil _

/-- The project is prepared once the first pass over its files succeeded. -/
theorem status_generate_of_declares {reference : Reference} (hnil : files ≠ [])
    (h : env.Declares files reference) (sink : StatusSink) :
    (env.generate sink files).status = sink.told [preparingProject] := by
  rw [status_generate_of_paths hnil h.paths, h.clean, h.linked]
  rfl

/-- If it did not succeed, nothing is announced. -/
theorem status_generate_of_not_declares (h : files = [] ∨ ¬ ∃ reference, env.Declares files reference)
    (sink : StatusSink) : (env.generate sink files).status = [] := by
  by_cases hnil : files = []
  · rw [generate, if_pos hnil]
    rfl
  have hfails := h.resolve_left hnil
  by_cases hpaths : SourceFile.repeatedPaths [] [] files = []
  · rw [status_generate_of_paths hnil hpaths]
    split
    · rfl
    next hclean =>
    cases hlinked : (env.linkDeclarations (env.declared files)).run.value with
    | error ds => rfl
    | ok reference => exact absurd ⟨reference, hpaths, Bool.eq_false_iff.2 hclean, hlinked⟩ hfails
  · rw [generate, if_neg hnil, if_pos hpaths]
    rfl

end Environment

namespace Service

variable {env : Environment} {g : Generator} {sink : StatusSink} {files : List SourceFile}

theorem value_run (env : Environment) (g : Generator) (sink : StatusSink) (files : List SourceFile) :
    (run env g sink files).value = (env.link g (env.generate sink files).value).value := rfl

theorem status_run (env : Environment) (g : Generator) (sink : StatusSink) (files : List SourceFile) :
    (run env g sink files).status =
      (env.generate sink files).status ++ sink.told [compilingAssembly] := by
  rw [run, Logged.status_bind, Logged.status_bind, StatusSink.status_notify, env.quiet_link,
    List.append_nil]

end Service

end ViewCompiler
