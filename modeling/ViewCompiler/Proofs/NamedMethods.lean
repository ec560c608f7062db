import ViewCompiler.Proofs.FunctionTyping
import ViewCompiler.Proofs.SimilarReadings

/-!
Where the methods of a bound body come from. The binder looks a method up by the name that stands in
the source, on the current type or on the type of a receiver; both are types that can be found by
name. So a method that a body names is `SymbolTable.Named`: its name is a word, and the full name of
its type with its own name lead back to it (`SymbolTable.Owns.unique`).
-/

namespace ViewCompiler

/-! ## Names of source texts -/

/-- In parsed declarations, expressions and calls name words. -/
theorem SyntaxTree.worded_parse (source file : Bytes) :
    ∀ d ∈ (SyntaxTree.parse source file).types, d.Worded := by
  have hsimilar : Reading.Similar (List.Forall₂ Tokens.SameItem)
      (Tokens.unitItems false false (TokenStream.scan source).tokens)
      (Tokens.unitItems false false (TokenStream.scan source).tokens) :=
    Tokens.similar_unitItems (.refl (TokenStream.worded_tokens {} source))
  intro d hd
  obtain ⟨item, hitem, hd⟩ := List.mem_filterMap.1 hd
  cases hvalue : (Tokens.unitItems false false (TokenStream.scan source).tokens).value with
  | none => simp [hvalue] at hitem
  | some items =>
    rw [hvalue, Option.getD_some] at hitem
    have hrel := hsimilar.value
    rw [hvalue] at hrel
    cases hrel with
    | some hsame =>
      have hworded : ∀ item ∈ items, ∀ d, item = .type d → d.Worded := by
        refine TypingContext.forall_mem_right (fun _ _ h d heq => ?_) hsame.flip
        subst heq
        cases h with
        | type h => exact h.2
      cases item with
      | type d' =>
        cases hd
        exact hworded _ hitem _ rfl
      | _ => cases hd

theorem SyntaxTree.worded_of_parsed {trees : List SyntaxTree}
    (h : ∀ tree ∈ trees, ∃ source file, tree = SyntaxTree.parse source file) :
    ∀ tree ∈ trees, ∀ d ∈ tree.types, d.Worded := by
  intro tree htree
  obtain ⟨source, file, rfl⟩ := h tree htree
  exact worded_parse source file

/-! ## Types that can be found -/

theorem Ty.find?_of_ofName {t : SymbolTable} {name : Bytes} {id : TypeId}
    (h : Ty.ofName t name = .object id) : t.find? name = some id := by
  rw [Ty.ofName] at h
  grind

namespace SymbolTable

variable {t : SymbolTable}

theorem nameOf_of_get? {id : TypeId} {s : TypeSymbol} (h : t.get? id = some s) :
    t.nameOf id = s.fullName := by
  rw [nameOf, h, Option.map_some, Option.getD_some]

/-- The type is what its full name means. -/
def Found (t : SymbolTable) (id : TypeId) : Prop := t.find? (t.nameOf id) = some id

/-- The method is what a word means on a type that can be found. -/
def Named (t : SymbolTable) (id : MethodId) : Prop :=
  ∃ type name, t.Found type ∧ Bytes.IsWord name ∧ t.findMethod? type name = some id

theorem found_basesFrom (fuel : Nat) (seen : List TypeId) (id : TypeId) :
    ∀ b ∈ t.basesFrom fuel seen id, t.Found b := by
  induction fuel generalizing seen id with
  | zero => simp [basesFrom]
  | succ fuel ih =>
    rw [basesFrom]
    split
    · simp
    · split
      · simp
      · split
        · simp
        · next b hb =>
          split
          · simp
          · exact List.forall_mem_cons.2 ⟨find?_nameOf hb, ih _ b⟩

/-- The bases of a type are found by name. -/
theorem Found.lineage {id : TypeId} (h : t.Found id) : ∀ b ∈ t.lineage id, t.Found b :=
  List.forall_mem_cons.2 ⟨h, found_basesFrom _ _ _⟩

/-- The full name of a type that can be found is its own. -/
theorem Found.eq_of_fullName {id id' : TypeId} {s s' : TypeSymbol} (h : t.Found id)
    (h' : t.Found id') (hs : t.get? id = some s) (hs' : t.get? id' = some s')
    (heq : s.fullName = s'.fullName) : id = id' := by
  rw [Found, nameOf_of_get? hs] at h
  rw [Found, nameOf_of_get? hs'] at h'
  rw [heq, h'] at h
  exact (Option.some.inj h).symm

/-- The type of a method that is named, and its symbol there. -/
structure Owns (t : SymbolTable) (id : MethodId) (owner : TypeSymbol) (f : MethodSymbol) : Prop where
  found : t.Found id.owner
  type : t.get? id.owner = some owner
  method : t.method? id = some f
  first : owner.ownMethod? f.name = some id.index
  word : Bytes.IsWord f.name

theorem Named.owns {id : MethodId} (h : t.Named id) : ∃ owner f, t.Owns id owner f := by
  obtain ⟨type, name, htype, hname, hfind⟩ := h
  obtain ⟨owner, howner, hid⟩ := List.exists_of_findSome?_eq_some hfind
  obtain ⟨index, hindex, rfl⟩ := Option.map_eq_some_iff.1 hid
  obtain ⟨s, hs, hfirst⟩ := Option.bind_eq_some_iff.1 hindex
  obtain ⟨hlt, hsame, -⟩ := List.findIdx?_eq_some_iff_getElem.1 hfirst
  have hsame : s.methods[index].name = name := by simpa using hsame
  refine ⟨s, s.methods[index], htype.lineage owner howner, hs, ?_, hsame ▸ hfirst, hsame ▸ hname⟩
  rw [method?, hs]
  simp [hlt]

/-- Full name and method name tell which method it is. -/
theorem Owns.unique {id id' : MethodId} {owner owner' : TypeSymbol} {f f' : MethodSymbol}
    (h : t.Owns id owner f) (h' : t.Owns id' owner' f') (htype : owner.fullName = owner'.fullName)
    (hname : f.name = f'.name) : id = id' := by
  have howner := h.found.eq_of_fullName h'.found h.type h'.type htype
  have hsame : owner = owner' := Option.some.inj (by rw [← h.type, ← h'.type, howner])
  have hindex : id.index = id'.index :=
    Option.some.inj (by rw [← h.first, ← h'.first, hsame, hname])
  cases id
  cases id'
  simp_all

end SymbolTable

/-! ## Bodies -/

namespace BodyScope

variable {c : BodyScope}

theorem named_bind? (hc : c.table.Found c.current) {name : Bytes} (hname : name.IsWord)
    {id : MethodId} (h : c.bind? name = some (.method id)) : c.table.Named id := by
  rw [bind?] at h
  split at h
  · cases h
  · split at h
    · cases h
    · obtain ⟨id', hid, heq⟩ := Option.map_eq_some_iff.1 h
      cases heq
      exact ⟨c.current, name, hc, hname, hid⟩

theorem found_typeOf {b : Binding} {type : TypeId} (h : c.typeOf b = .object type) :
    c.table.Found type := by
  cases b with
  | param | member => exact SymbolTable.find?_nameOf (Ty.find?_of_ofName h)
  | method => cases h

theorem named_expr (hc : c.table.Found c.current) {inInit : Bool} {e : Expr} (he : e.Worded) :
    ∀ id ∈ (c.expr inInit e).value.methods, c.table.Named id := by
  induction e with
  | int | string | bool => simp [expr, BoundExpr.methods]
  | name span name =>
    rw [expr]
    split
    · split <;> simp [BoundExpr.methods]
    · split
      · simp [BoundExpr.methods]
      · next b hb =>
        cases b with
        | param | member => simp [BoundExpr.methods]
        | method id => simpa [BoundExpr.methods] using named_bind? hc he hb
  | unary span op operand ih =>
    have ih := ih he
    rw [expr, Checked.value_bind]
    split
    · exact ih
    · split <;> exact ih
  | binary span op left right ihl ihr =>
    have hboth := List.forall_mem_append.2 ⟨ihl he.1, ihr he.2⟩
    rw [expr, Checked.value_bind, Checked.value_bind]
    split
    · exact hboth
    · split <;> exact hboth

theorem named_exprs (hc : c.table.Found c.current) {es : List Expr} (hes : ∀ e ∈ es, e.Worded) :
    ∀ id ∈ (c.exprs es).value.flatMap BoundExpr.methods, c.table.Named id := by
  induction es with
  | nil => simp [exprs]
  | cons e es ih =>
    obtain ⟨he, hes⟩ := List.forall_mem_cons.1 hes
    simp only [exprs, Checked.value_bind, Checked.value_pure, List.flatMap_cons]
    exact List.forall_mem_append.2 ⟨named_expr hc he, ih hes⟩

theorem named_callOn {span : Span} {target : TypeId} {receiver on : Option Binding}
    (htarget : c.table.Found target) {method : Bytes} (hmethod : method.IsWord)
    {args : List BoundExpr} {id : MethodId}
    (h : (c.callOn span target receiver method args).value = some (.method id on)) :
    c.table.Named id := by
  rw [callOn] at h
  split at h
  · split at h
    · split at h <;> cases h
    · cases h
  · next id' hid =>
    dsimp only at h
    split at h
    · cases h
    · cases h
      exact ⟨target, method, htarget, hmethod, hid⟩

theorem found_receiver {span : Span} {name method : Bytes} {b : Binding} {type : TypeId}
    (h : (c.receiver span name method).value = some (b, type)) : c.table.Found type := by
  rw [receiver] at h
  split at h
  · cases h
  · cases h
  · rw [Checked.value_bind] at h
    split at h
    · next htype =>
      cases h
      exact found_typeOf htype
    · cases h
    · cases h

theorem named_call (hc : c.table.Found c.current) {span : Span} {on : Option Bytes}
    {method : Bytes} (hmethod : method.IsWord) {args : List BoundExpr} {id : MethodId}
    {receiver : Option Binding}
    (h : (c.call span on method args).value = some (.method id receiver)) : c.table.Named id := by
  cases on with
  | none => exact named_callOn hc hmethod h
  | some name =>
    rw [call, Checked.value_bind] at h
    split at h
    · cases h
    · next hvalue => exact named_callOn (found_receiver hvalue) hmethod h

mutual

theorem named_stmt (hc : c.table.Found c.current) : (s : Stmt) → s.Worded →
    ∀ id ∈ (c.stmt s).value.methods, c.table.Named id
  | .assign span target value, h => by
    simpa [stmt, BoundStmt.methods] using named_expr hc h
  | .call span on method args, h => by
    have hargs := named_exprs hc h.2
    simp only [stmt, Checked.value_bind, Checked.value_pure]
    rcases hcall : (c.call span on method (c.exprs args).value).value with _ | ⟨id, receiver⟩ | _
    · exact hargs
    · exact List.forall_mem_cons.2 ⟨named_call hc h.1 hcall, hargs⟩
    · exact hargs
  | .cond span condition thenBody elseBody, h => by
    have hbodies := List.forall_mem_append.2
      ⟨named_stmts hc thenBody h.2.1, named_stmts hc elseBody h.2.2⟩
    simp only [stmt, Checked.value_bind]
    split <;> exact List.forall_mem_append.2 ⟨named_expr hc h.1, hbodies⟩
  | .ret span, _ => by simp [stmt, BoundStmt.methods]

theorem named_stmts (hc : c.table.Found c.current) : (ss : List Stmt) → Stmt.AllWorded ss →
    ∀ id ∈ BoundStmt.allMethods (c.stmts ss).value, c.table.Named id
  | [], _ => by simp [stmts, BoundStmt.allMethods]
  | s :: ss, h => by
    simp only [stmts, Checked.value_bind, Checked.value_pure]
    exact List.forall_mem_append.2 ⟨named_stmt hc s h.1, named_stmts hc ss h.2⟩

end

theorem named_componentArgs (hc : c.table.Found c.current) {type : Option TypeId}
    {seen : List Bytes} {args : List ComponentArg} (h : ∀ a ∈ args, a.value.Worded) :
    ∀ id ∈ (c.componentArgs type seen args).value.flatMap (·.value.methods), c.table.Named id := by
  induction args generalizing seen with
  | nil => simp [componentArgs]
  | cons arg args ih =>
    obtain ⟨harg, hargs⟩ := List.forall_mem_cons.1 h
    simp only [componentArgs, Checked.value_bind]
    cases type <;> exact List.forall_mem_append.2 ⟨named_expr hc harg, ih hargs⟩

mutual

theorem named_renderOp (hc : c.table.Found c.current) : (op : RenderOp) → op.Worded →
    ∀ id ∈ (c.renderOp op).value.methods, c.table.Named id
  | .openElement .., _ | .closeElement .., _ | .text .., _ => by simp [renderOp, BoundOp.methods]
  | .attr span name value, h => by simpa [renderOp, BoundOp.methods] using named_expr hc h
  | .value span value, h => by
    simp only [renderOp, Checked.value_bind]
    split <;> exact named_expr hc h
  | .component span ref args childSpan child, h => by
    simp only [renderOp, Checked.value_bind]
    split <;>
      exact List.forall_mem_append.2 ⟨named_componentArgs hc h.1, named_renderOps hc child h.2⟩

theorem named_renderOps (hc : c.table.Found c.current) {opened : List (Span × Bytes)}
    {attributes : Bool} : (ops : List RenderOp) → RenderOp.AllWorded ops →
    ∀ id ∈ BoundOp.allMethods (c.renderOps opened attributes ops).value, c.table.Named id
  | [], _ => by simp [renderOps, BoundOp.allMethods]
  | op :: ops, h => by
    obtain ⟨opened', attributes', hvalue, -⟩ := renderOps_cons c opened attributes op ops
    rw [hvalue]
    exact List.forall_mem_append.2 ⟨named_renderOp hc op h.1, named_renderOps hc ops h.2⟩

end

theorem named_inits (hc : c.table.Found c.current) {ms : List DataMember} {ss : List MemberSymbol}
    (h : ∀ m ∈ ms, ∀ e ∈ m.init, e.Worded) :
    ∀ init ∈ (c.inits ms ss).value, ∀ e ∈ init, ∀ id ∈ e.methods, c.table.Named id := by
  induction ms generalizing ss with
  | nil => simp [inits]
  | cons m ms ih =>
    cases ss with
    | nil => simp [inits]
    | cons s ss =>
      obtain ⟨hm, hms⟩ := List.forall_mem_cons.1 h
      cases hinit : m.init with
      | none =>
        simp only [inits, hinit, Checked.value_bind, Checked.value_pure]
        exact List.forall_mem_cons.2 ⟨by simp, ih hms⟩
      | some e =>
        simp only [inits, hinit, Checked.value_bind, Checked.value_pure]
        refine List.forall_mem_cons.2 ⟨?_, ih hms⟩
        rintro _ ⟨⟩
        exact named_expr hc (hm e (by simp [hinit]))

theorem named_methods (hc : c.table.Found c.current) {ms : List MethodDecl}
    {ss : List MethodSymbol} (h : ∀ m ∈ ms, Stmt.AllWorded m.body) :
    ∀ b ∈ (c.methods ms ss).value, ∀ id ∈ BoundStmt.allMethods b.body, c.table.Named id := by
  induction ms generalizing ss with
  | nil => simp [methods]
  | cons m ms ih =>
    cases ss with
    | nil => simp [methods]
    | cons s ss =>
      obtain ⟨hm, hms⟩ := List.forall_mem_cons.1 h
      simp only [methods, Checked.value_bind, Checked.value_pure]
      refine List.forall_mem_cons.2 ⟨?_, ih hms⟩
      exact named_stmts (c := { c with params := s.paramNames.zip s.paramTypes }) hc m.body hm

end BodyScope

/-- The bodies of a declared type that can be found name methods that can be found. -/
theorem SymbolTable.names_body {t : SymbolTable} {d : Declared} (hd : t.Found d.id)
    (h : d.decl.Worded) : (t.body d).value.Names t.Named := by
  let c : BodyScope := { table := t, file := d.scope, current := d.id }
  have hc : c.table.Found c.current := hd
  have hbodies : ∀ m ∈ d.decl.methods, Stmt.AllWorded m.body := fun m hm => (h.methods m hm).2
  cases hr : d.decl.render with
  | none =>
    simp only [body, hr, Checked.value_bind, Checked.value_pure]
    exact ⟨BodyScope.named_inits hc h.inits, BodyScope.named_methods hc hbodies, by simp⟩
  | some block =>
    simp only [body, hr, Checked.value_bind, Checked.value_pure]
    refine ⟨BodyScope.named_inits hc h.inits, BodyScope.named_methods hc hbodies, ?_⟩
    rintro _ ⟨⟩
    exact BodyScope.named_renderOps hc block.ops (h.render block (by simp [hr]))

end ViewCompiler
