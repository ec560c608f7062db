import ViewCompiler.Proofs.ChildBlocks
import ViewCompiler.Proofs.LoweringMeaning
import ViewCompiler.Proofs.StatementTyping

/-!
Functions of a typed model have typed bodies. `CodeScope.Lowers` says it of a step that gives
functions: their heads are known beforehand, and each body is typed in the tables that the module
has in the end. Every declared type has its functions (`BoundType.heads`), checked in its scope
(`CodeScope.lowers_typeFunctions`).
-/

namespace ViewCompiler

/-- The methods that the bodies of a type name have the property `P`. -/
structure BoundType.Names (P : MethodId → Prop) (t : BoundType) : Prop where
  inits : ∀ init ∈ t.inits, ∀ e ∈ init, ∀ id ∈ e.methods, P id
  methods : ∀ b ∈ t.methods, ∀ id ∈ BoundStmt.allMethods b.body, P id
  render : ∀ ops ∈ t.render, ∀ id ∈ BoundOp.allMethods ops, P id

namespace Code

open Lower

/-! ## Heads -/

/-- A function without its body. -/
def Function.head (f : Function) : Function := { f with body := [] }

def initHead (type : TypeSymbol) : Function :=
  { symbol := initSymbol type.fullName, owner := type.fullName }

def methodHead (type : TypeSymbol) (m : MethodSymbol) : Function where
  symbol := methodSymbol type.fullName m.name
  owner := type.fullName
  params := m.paramTypes.map ValueType.ofName

def renderHead (type : Bytes) : Function :=
  { symbol := renderSymbol type, owner := type, builder := true }

def fragmentHead (type : Bytes) (index : Nat) : Function :=
  { symbol := fragmentSymbol type index, owner := type, hidden := true, builder := true }

/-- The heads of the functions of a render block. -/
def renderHeads (type : Bytes) (ops : List BoundOp) : List Function :=
  renderHead type :: (List.range (BoundOp.fragments ops).length).map (fragmentHead type)

end Code

open Code in
/-- The heads of the functions of a declared type. -/
def BoundType.heads (t : BoundType) (type : TypeSymbol) : List Function :=
  initHead type :: type.methods.map (methodHead type) ++
    if type.isComponent then (t.render.toList.flatMap (renderHeads type.fullName)) else []

/-- The number of child blocks of a declared type. -/
def BoundType.fragmentCount (t : BoundType) : Nat :=
  t.render.elim 0 fun ops => (BoundOp.fragments ops).length

namespace Code

open Lower

/-! ## Tables of a module -/

/-- Where a body starts, with the tables of the module as they are. -/
def LowerState.start (s : LowerState) : Point :=
  { strings := s.strings, declarations := s.declarations, fragments := s.fragments }

namespace Declaration

theorem insertAll_append (ds es all : List Declaration) :
    insertAll (ds ++ es) all = insertAll es (insertAll ds all) := List.foldl_append

end Declaration

/-- The tables of `q` come from those of `p`. -/
structure Linkage.Gains (L : Linkage) (p q : Point) : Prop where
  strings : p.strings <+: q.strings
  declarations : ∃ ds, (∀ d ∈ ds, L.Imports d) ∧
    q.declarations = Declaration.insertAll ds p.declarations

namespace Linkage

variable {L : Linkage} {p q r : Point}

theorem Gains.refl (p : Point) : L.Gains p p := ⟨List.prefix_rfl, [], by simp, rfl⟩

theorem Gains.trans (h : L.Gains p q) (h' : L.Gains q r) : L.Gains p r := by
  obtain ⟨hstrings, ds, hds, hq⟩ := h
  obtain ⟨hstrings', es, hes, hr⟩ := h'
  refine ⟨hstrings.trans hstrings', ds ++ es, List.forall_mem_append.2 ⟨hds, hes⟩, ?_⟩
  rw [hr, hq, Declaration.insertAll_append]

theorem Gains.subset (h : L.Gains p q) : p.declarations ⊆ q.declarations := by
  obtain ⟨-, ds, -, hq⟩ := h
  rw [hq]
  exact Declaration.subset_insertAll ds _

end Linkage

namespace CodeScope

variable {C : CodeScope} {p q : Point}

theorem Step.tables {i : Instr} (h : C.Step p i q) : q.strings = p.strings ∧
    q.declarations = p.declarations ∧ q.fragments = p.fragments := by
  cases h <;> exact ⟨rfl, rfl, rfl⟩

theorem Path.gains {code : List Instr} (h : C.Path p code q) :
    C.Gains p q ∧ p.fragments ≤ q.fragments := by
  induction h with
  | nil => exact ⟨.refl _, Nat.le_refl _⟩
  | cons hstep _ ih =>
    obtain ⟨hstrings, hdeclarations, hfragments⟩ := hstep.tables
    obtain ⟨⟨hstr, hmore⟩, hle⟩ := ih
    rw [hstrings] at hstr
    rw [hdeclarations] at hmore
    exact ⟨⟨hstr, hmore⟩, hfragments ▸ hle⟩
  | collect hmore _ ih =>
    exact ⟨.trans ⟨hmore.strings, hmore.declarations⟩ ih.1, Nat.le_trans hmore.fragments ih.2⟩

/-! ## Functions -/

/-- The scope of a function of the type. -/
def of (C : CodeScope) (f : Function) : CodeScope :=
  { C with params := f.params, builder := f.builder }

/-- The body of `f` is typed code from the tables of `p` to those of `q`, with labels of its own. -/
structure Checks (C : CodeScope) (p : Point) (f : Function) (q : Point) : Prop where
  path : (C.of f).Path p f.body q
  closed : q.closed = true
  labels : ∃ n, Labelled 0 f.body n

/-- The body of `f` is typed code in the tables of a module and of `n` child blocks. -/
def Checked (C : CodeScope) (strings : List Bytes) (declarations : List Declaration) (n : Nat)
    (f : Function) : Prop :=
  ∃ s q, C.Checks (LowerState.start s) f q ∧ q.strings <+: strings ∧
    q.declarations ⊆ declarations ∧ (f.builder = true → q.fragments ≤ n)

theorem Checked.mono {strings strings' : List Bytes} {ds ds' : List Declaration} {n n' : Nat}
    {f : Function} (h : C.Checked strings ds n f) (hstrings : strings <+: strings') (hds : ds ⊆ ds')
    (hn : n ≤ n') : C.Checked strings' ds' n' f := by
  obtain ⟨s, q, hchecks, hq, hq', hfragments⟩ := h
  exact ⟨s, q, hchecks, hq.trans hstrings, List.Subset.trans hq' hds,
    fun hf => Nat.le_trans (hfragments hf) hn⟩

/-- The function is a well-formed control-flow graph. -/
theorem Checked.wellFormed {strings : List Bytes} {ds : List Declaration} {n : Nat} {f : Function}
    (h : C.Checked strings ds n f) : f.WellFormed := by
  obtain ⟨s, q, ⟨hpath, hclosed, _, hlabels⟩, -⟩ := h
  exact hpath.wellFormed hclosed rfl rfl rfl rfl rfl rfl hlabels

/-- The step gives one function with this head and a typed body. -/
def LowersOne (C : CodeScope) (x : Lower Function) (head : Function) : Prop :=
  ∀ s f s', StateT.run x s = .ok (f, s') → f.head = head ∧ C.Gains s.start s'.start ∧
    s.fragments ≤ s'.fragments ∧ C.Checked s'.strings s'.declarations s'.fragments f

/-- The step gives functions with these heads and typed bodies. -/
def Lowers (C : CodeScope) (x : Lower (List Function)) (heads : List Function) : Prop :=
  ∀ s fs s', StateT.run x s = .ok (fs, s') → fs.map Function.head = heads ∧
    C.Gains s.start s'.start ∧ s.fragments ≤ s'.fragments ∧
    ∀ f ∈ fs, C.Checked s'.strings s'.declarations s'.fragments f

variable {f : Function} {body : Lower Unit}

/-- A function is its body, closed by a return if need be. -/
theorem run_function {s s' : LowerState} {fn : Function}
    (h : StateT.run (function f body) s = .ok (fn, s')) :
    ∃ s₁, StateT.run body s.fresh = .ok ((), s₁) ∧
      fn = { f with body := s₁.body ++ if s₁.terminated then [] else [.ret] } ∧
      s'.strings = s₁.strings ∧ s'.declarations = s₁.declarations ∧
      s'.fragments = s₁.fragments := by
  rw [function] at h
  obtain ⟨_, _, ⟨⟩, h⟩ := run_bind_eq_ok.1 h
  obtain ⟨_, s₁, hbody, h⟩ := run_bind_eq_ok.1 h
  refine ⟨s₁, hbody, ?_⟩
  obtain ⟨_, _, ⟨⟩, h⟩ := run_bind_eq_ok.1 h
  cases hterm : s₁.terminated with
  | true =>
    simp only [hterm, not_true_eq_false, if_false] at h
    cases h
    simp
  | false =>
    simp only [hterm, Bool.false_eq_true, not_false_eq_true, if_true] at h
    cases h
    exact ⟨rfl, rfl, rfl, rfl⟩

/-- The last block of a body is closed. -/
theorem path_close {s : LowerState} (h : p.At s) :
    C.Path p (if s.terminated then [] else [.ret]) { p with closed := true } := by
  rw [h.closed]
  cases hp : p.closed with
  | true =>
    have hsame : { p with closed := true } = p := by rw [← hp]
    rw [hsame]
    exact .nil
  | false => exact .single (.stop hp .ret)

theorem labelled_close (closed : Bool) (n : Nat) :
    Labelled n (if closed then [] else [.ret]) n := by
  refine ⟨Nat.le_refl n, ?_, ?_, ?_⟩ <;> cases closed <;> simp [labelsOf, Instr.targets]

/-- A function whose body is typed code. -/
theorem lowersOne_function (h : ∀ s : LowerState, (C.of f).Flows s.start body) :
    C.LowersOne (function f body) f.head := by
  intro s fn s' hrun
  obtain ⟨s₁, hbody, rfl, hstrings, hdeclarations, hfragments⟩ := run_function hrun
  obtain ⟨code, q, hcode, hlabels, hpath, -, hq⟩ := h s s.fresh s₁ ⟨rfl, rfl, rfl, rfl, rfl⟩ hbody
  have hfull : (C.of f).Path s.start
      (s₁.body ++ if s₁.terminated then [] else [Instr.ret]) { q with closed := true } := by
    rw [hcode]
    exact hpath.append (path_close hq)
  rw [hq.strings] at hstrings
  rw [hq.declarations] at hdeclarations
  rw [hq.fragments] at hfragments
  obtain ⟨⟨hstr, hmore⟩, hle⟩ := hfull.gains
  refine ⟨rfl, ⟨?_, ?_⟩, ?_, s, { q with closed := true }, ⟨hfull, rfl, s₁.labels, ?_⟩, ?_, ?_, ?_⟩
  · rwa [← hstrings] at hstr
  · rwa [← hdeclarations] at hmore
  · rwa [← hfragments] at hle
  · rw [hcode]
    exact Labelled.append hlabels (labelled_close ..)
  · exact hstrings ▸ List.prefix_rfl
  · exact hdeclarations ▸ List.Subset.refl _
  · exact fun _ => Nat.le_of_eq hfragments.symm

theorem lowers_nil : C.Lowers (pure []) [] := by
  rintro s _ _ ⟨⟩
  exact ⟨rfl, .refl _, Nat.le_refl _, by simp⟩

theorem LowersOne.cons {x : Lower Function} {y : Lower (List Function)} {head : Function}
    {heads : List Function} (hx : C.LowersOne x head) (hy : C.Lowers y heads) :
    C.Lowers (do let f ← x; let fs ← y; pure (f :: fs)) (head :: heads) := by
  intro s fs s'' hrun
  obtain ⟨f, s', hxrun, hrun⟩ := run_bind_eq_ok.1 hrun
  obtain ⟨gs, _, hyrun, hrun⟩ := run_bind_eq_ok.1 hrun
  cases hrun
  obtain ⟨hhead, hgains, hle, hf⟩ := hx s f s' hxrun
  obtain ⟨hheads, hgains', hle', hgs⟩ := hy s' gs s'' hyrun
  refine ⟨by rw [List.map_cons, hhead, hheads], hgains.trans hgains', Nat.le_trans hle hle', ?_⟩
  exact List.forall_mem_cons.2 ⟨hf.mono hgains'.strings hgains'.subset hle', hgs⟩

/-! ## Functions of a type -/

variable {c : LowerScope} {Γ : TypingContext} {P : MethodId → Prop} {type : TypeSymbol}

/-- The scope of a function covers its code if that of its type does. -/
theorem Covers.of (hC : C.Covers c P) (f : Function) :
    (C.of f).Covers { c with params := f.params } P where
  owner := hC.owner
  slots := hC.slots
  params := rfl
  method := hC.method
  init := hC.init
  descriptor := hC.descriptor
  fragment := hC.fragment

theorem ready_start (s : LowerState) (h : f.params = []) : s.start.Ready (C.of f) where
  start := Nat.le_refl _
  slots := by rw [CodeScope.of, h]; rfl
  opened := rfl

theorem produces_defaultValue (type : Bytes) :
    C.Produces p (LowerScope.defaultValue type) fun o q => q.HasType C o (.ofName type) := by
  have hint : ValueType.ofName "int" = .i32 := rfl
  have hbool : ValueType.ofName "bool" = .i1 := rfl
  rw [LowerScope.defaultValue]
  split
  · next h => exact .pure (h ▸ hint ▸ .int)
  · next hne =>
    split
    · next h => exact .pure (h ▸ hbool ▸ .bool)
    · next hne' =>
      have hptr : ValueType.ofName type = .ptr := by simp [ValueType.ofName, hne, hne']
      rw [hptr]
      split
      · exact .string _
      · exact .pure .null

/-- Each member gets a value of its type. -/
theorem produces_initMembers (hC : C.Covers c P) (hc : c.Agrees Γ) {index : Nat}
    {ms : List MemberSymbol} {inits : List (Option BoundExpr)}
    (hms : ∀ k m, ms[k]? = some m → c.table.member? ⟨c.current, index + k⟩ = some m)
    (h : List.Forall₂ (fun (init : Option BoundExpr) (m : MemberSymbol) =>
      ∀ e ∈ init, Γ.Accepts (.ofName Γ.table m.type) e) inits ms)
    (hm : ∀ init ∈ inits, ∀ e ∈ init, ∀ id ∈ e.methods, P id) (hp : p.Ready C) :
    C.Produces p (c.initMembers index ms inits) fun _ _ => True := by
  induction h generalizing index p with
  | nil => exact .pure trivial
  | @cons init m inits ms hinit _ ih =>
    obtain ⟨hminit, hminits⟩ := List.forall_mem_cons.1 hm
    have hmember : c.table.member? ⟨c.current, index⟩ = some m := hms 0 m rfl
    have hrest {q : Point} (hq : q.Ready C) {o : Operand} (ho : q.HasType C o (.ofName m.type)) :
        C.Produces q (do
          let address ← c.fieldAddress { owner := c.current, index }
          emit (.store (.ofName m.type) o address)
          c.initMembers (index + 1) ms inits) fun _ _ => True := by
      have hslot : (⟨c.current, index⟩ : MemberId) ∈ c.table.layout c.current :=
        SymbolTable.mem_layout.2 ⟨SymbolTable.mem_lineage_self, by simp [hmember]⟩
      refine (produces_fieldAddress hC hq hslot).bind fun a q₁ hq₁ ha => ?_
      rw [memberType_eq hmember] at ha
      refine (Produces.emit (hq.mono hq₁) (.store (ho.mono hq₁) ha)).bind ?_
      rintro _ q₂ - rfl
      refine ih (fun k m hk => ?_) hminits (hq.mono hq₁)
      rw [← hms (k + 1) m hk, Nat.add_assoc, Nat.add_comm 1]
    cases init with
    | none => exact (produces_defaultValue m.type).bind fun o q hpq ho => hrest (hp.mono hpq) ho
    | some e =>
      refine (produces_accepted hC hc hp (hinit e rfl) (hminit e rfl)).bind fun v q hpq hv => ?_
      rw [Ty.valueType_ofName] at hv
      exact hrest (hp.mono hpq) hv.2

theorem lowersOne_initFunction (hC : C.Covers c P) (hc : c.Agrees Γ) (hparams : c.params = [])
    (htype : c.table.get? c.current = some type) {inits : List (Option BoundExpr)}
    (h : List.Forall₂ (fun (init : Option BoundExpr) (m : MemberSymbol) =>
      ∀ e ∈ init, Γ.Accepts (.ofName Γ.table m.type) e) inits type.members)
    (hm : ∀ init ∈ inits, ∀ e ∈ init, ∀ id ∈ e.methods, P id) :
    C.LowersOne (c.initFunction type inits) (initHead type) := by
  refine lowersOne_function fun s => ?_
  have hsame : { c with params := (initHead type).params } = c := by
    rw [show (initHead type).params = c.params from hparams.symm]
  have hC' : (C.of (initHead type)).Covers c P := hsame ▸ hC.of (initHead type)
  have hstart : s.start.Ready (C.of (initHead type)) := ready_start s rfl
  have hname : c.table.nameOf c.current = type.fullName := by simp [SymbolTable.nameOf, htype]
  refine Produces.flows hstart ?_
  have hrest {q : Point} (hq : q.Ready (C.of (initHead type))) :
      (C.of (initHead type)).Produces q (do
        let slot ← freshTemp
        emit (.field slot type.fullName 0)
        let descriptor ← c.descriptor c.current
        emit (.store .ptr descriptor.operand (.temp slot))
        c.initMembers 0 type.members inits) fun _ _ => True := by
    have howner : (C.of (initHead type)).owner = type.fullName := hC.owner.trans hname
    refine Produces.assign (i := fun d => .field d type.fullName 0) hq
      (howner ▸ Yields.field rfl) ?_
    have hq₁ := hq.mono (q.extends_assign (.address .ptr))
    refine (produces_descriptor hC' htype).bind fun v q₂ hq₂ hv => ?_
    refine (Produces.emit (hq₁.mono hq₂)
      (.store hv.2 ((hq.pointsTo_assign .ptr).mono hq₂))).bind ?_
    rintro _ q₃ - rfl
    refine produces_initMembers hC' hc (fun k m hk => ?_) h hm (hq₁.mono hq₂)
    rw [SymbolTable.member?, htype, Nat.zero_add]
    exact hk
  split
  · next base hbase =>
    have hfind : c.table.find? type.base = some base := by
      split at hbase
      · cases hbase
      · exact hbase
    obtain ⟨symbol, hsymbol, -⟩ := SymbolTable.get?_of_find? hfind
    obtain ⟨hprovides, hhas⟩ := hC'.init hsymbol
    refine .declare_bind hhas fun q hq hknows => ?_
    have hcall : q.Applies (C.of (initHead type)) (.method (initSymbol (c.table.nameOf base)))
        [⟨.self, .ptr⟩] none := ⟨.method hprovides hknows, by simpa using .self⟩
    refine (Produces.emit (hstart.mono hq) (.call hcall)).bind ?_
    rintro _ q' - rfl
    exact hrest (hstart.mono hq)
  · exact hrest hstart

/-- Each parameter gets its slot. -/
theorem path_slotCode {types : List ValueType} (htypes : C.params.drop p.slots = types)
    (hle : p.slots ≤ C.params.length) (hopen : p.closed = false) (hentry : p.entry = true) :
    C.Path p (slotCode p.slots types) { p with slots := C.params.length } := by
  induction types generalizing p with
  | nil =>
    have hlen : C.params.length = p.slots := Nat.le_antisymm (List.drop_eq_nil_iff.1 htypes) hle
    rw [hlen]
    exact .nil
  | cons type types ih =>
    have hparam : C.params[p.slots]? = some type := by
      rw [← List.head?_drop, htypes]
      rfl
    have hlt := (List.getElem?_eq_some_iff.1 hparam).1
    have hdrop : C.params.drop (p.slots + 1) = types := by
      rw [← List.drop_drop, htypes]
      rfl
    have hstore : C.Runs { p with slots := p.slots + 1 }
        (.store type (.param p.slots) (.slot p.slots)) :=
      .store (.param hparam) (.slot (Nat.lt_succ_self _) hparam)
    have hrest : C.Path { p with slots := p.slots + 1 } (slotCode (p.slots + 1) types)
        { p with slots := C.params.length } := ih hdrop hlt hopen hentry
    exact .cons (.slot hopen hentry hparam) (.cons (.run hopen hstore) hrest)

theorem lowersOne_methodFunction (hC : C.Covers c P) (hc : c.Agrees Γ) {f : MethodSymbol}
    {body : List BoundStmt}
    (h : ∀ s ∈ body, TypingContext.TypedStmt { Γ with params := f.paramTypes } s)
    (hm : ∀ id ∈ BoundStmt.allMethods body, P id) :
    C.LowersOne (c.methodFunction type f body) (methodHead type f) := by
  refine lowersOne_function fun s => ?_
  have hC' := hC.of (methodHead type f)
  have hc' : LowerScope.Agrees { c with params := (methodHead type f).params }
      { Γ with params := f.paramTypes } := ⟨hc.table, hc.current, rfl⟩
  intro s₁ s₂ hs₁ hrun
  obtain ⟨_, _, hslots, hstmts⟩ := run_bind_eq_ok.1 hrun
  rw [run_paramSlots] at hslots
  cases hslots
  have hpath : (C.of (methodHead type f)).Path s.start
      (slotCode 0 (f.paramTypes.map ValueType.ofName))
      { s.start with slots := (methodHead type f).params.length } :=
    path_slotCode rfl (Nat.zero_le _) rfl rfl
  have hat : Point.At { s.start with slots := (methodHead type f).params.length }
      { s₁ with body := s₁.body ++ slotCode 0 (f.paramTypes.map ValueType.ofName) } :=
    ⟨hs₁.temps, hs₁.closed, hs₁.strings, hs₁.declarations, hs₁.fragments⟩
  obtain ⟨code, q, hbody, hlabels, hcode, hq, hs₂⟩ :=
    flows_stmts hC' hc' h hm ⟨Nat.le_refl _, rfl⟩ _ s₂ hat hstmts
  refine ⟨slotCode 0 (f.paramTypes.map ValueType.ofName) ++ code, q, ?_, ?_, hpath.append hcode, hq,
    hs₂⟩
  · rw [hbody, List.append_assoc]
  · exact (Labelled.of_straight (straight_slotCode _ _)).append hlabels

theorem lowers_methodFunctions (type : TypeSymbol) (hC : C.Covers c P) (hc : c.Agrees Γ) {fs : List MethodSymbol}
    {bs : List BoundMethod}
    (h : List.Forall₂ (fun (b : BoundMethod) (f : MethodSymbol) =>
      ∀ s ∈ b.body, TypingContext.TypedStmt { Γ with params := f.paramTypes } s) bs fs)
    (hm : ∀ b ∈ bs, ∀ id ∈ BoundStmt.allMethods b.body, P id) :
    C.Lowers (c.methodFunctions type fs bs) (fs.map (methodHead type)) := by
  induction h with
  | nil => exact lowers_nil
  | cons hbody _ ih =>
    obtain ⟨hmbody, hmrest⟩ := List.forall_mem_cons.1 hm
    exact (lowersOne_methodFunction hC hc hbody hmbody).cons (ih hmrest)

/-! ## Render functions -/

theorem lowersOne_renderOps (hC : C.Covers c P) (hc : c.Agrees Γ) (hparams : c.params = [])
    {f : Function} (hf : f.params = []) (hbuilder : f.builder = true) {ops : List BoundOp}
    (h : ∀ op ∈ ops, Γ.TypedOp op) (hm : ∀ id ∈ BoundOp.allMethods ops, P id) :
    C.LowersOne (function f (c.renderOps ops)) f.head := by
  refine lowersOne_function fun s => Produces.flows (ready_start s hf) ?_
  have hsame : { c with params := f.params } = c := by rw [hf, ← hparams]
  exact produces_renderOps (hsame ▸ hC.of f) hc hbuilder (ready_start s hf) h hm

theorem lowers_fragmentFunctions (hC : C.Covers c P) (hc : c.Agrees Γ) (hparams : c.params = [])
    (index : Nat) {blocks : List (List BoundOp)} (h : ∀ ops ∈ blocks, ∀ op ∈ ops, Γ.TypedOp op)
    (hm : ∀ ops ∈ blocks, ∀ id ∈ BoundOp.allMethods ops, P id) :
    C.Lowers (c.fragmentFunctions index blocks)
      ((List.range' index blocks.length).map (fragmentHead c.typeName)) := by
  induction blocks generalizing index with
  | nil => exact lowers_nil
  | cons ops blocks ih =>
    obtain ⟨hops, hblocks⟩ := List.forall_mem_cons.1 h
    obtain ⟨hmops, hmblocks⟩ := List.forall_mem_cons.1 hm
    exact (lowersOne_renderOps hC hc hparams rfl rfl hops hmops).cons (ih (index + 1) hblocks hmblocks)

end CodeScope

end Code

/-! ## Child blocks of typed operations -/

namespace BoundOp

/-- What holds of render operations and passes to their child blocks holds of all fragments. -/
theorem forall_mem_fragments {Q : List BoundOp → Prop}
    (hchild : ∀ ops, Q ops → ∀ block ∈ childBlocks ops, Q block) {ops : List BoundOp} (h : Q ops) :
    ∀ block ∈ fragments ops, Q block := by
  have hlevels (d : Nat) : ∀ blocks : List (List BoundOp), (∀ block ∈ blocks, Q block) →
      ∀ block ∈ levels d blocks, Q block := by
    induction d with
    | zero => simp [levels]
    | succ d ih =>
      intro blocks hblocks
      refine List.forall_mem_append.2 ⟨hblocks, ih _ fun inner hinner => ?_⟩
      obtain ⟨outer, houter, hinner⟩ := List.mem_flatMap.1 hinner
      exact hchild outer (hblocks outer houter) inner hinner
  exact hlevels _ _ (hchild ops h)

theorem mem_allMethods {ops : List BoundOp} {id : MethodId} :
    id ∈ allMethods ops ↔ ∃ op ∈ ops, id ∈ op.methods := by
  induction ops with
  | nil => simp [allMethods]
  | cons op ops ih => simp [allMethods, ih]

theorem exists_of_mem_childBlocks {ops block : List BoundOp} (h : block ∈ childBlocks ops) :
    ∃ s t as cs m, .component s t as cs block m ∈ ops := by
  obtain ⟨op, hop, hblock⟩ := List.mem_filterMap.1 h
  split at hblock
  · cases hblock
    exact ⟨_, _, _, _, _, hop⟩
  · cases hblock

theorem allMethods_subset_of_mem_childBlocks {ops block : List BoundOp}
    (h : block ∈ childBlocks ops) : allMethods block ⊆ allMethods ops := by
  obtain ⟨s, t, as, cs, m, hop⟩ := exists_of_mem_childBlocks h
  intro id hid
  exact mem_allMethods.2 ⟨_, hop, List.mem_append_right _ hid⟩

theorem typed_of_mem_childBlocks {Γ : TypingContext} {ops block : List BoundOp}
    (hops : ∀ op ∈ ops, Γ.TypedOp op) (h : block ∈ childBlocks ops) : ∀ op ∈ block, Γ.TypedOp op := by
  obtain ⟨s, t, as, cs, m, hop⟩ := exists_of_mem_childBlocks h
  cases hops _ hop with
  | component _ _ _ hchild => exact hchild

end BoundOp

namespace Code

open Lower

namespace CodeScope

variable {C : CodeScope} {c : LowerScope} {Γ : TypingContext} {P : MethodId → Prop}

/-- The render function and the functions of the child blocks. -/
theorem lowers_renderFunctions (hC : C.Covers c P) (hc : c.Agrees Γ) (hparams : c.params = [])
    {ops : List BoundOp} (h : ∀ op ∈ ops, Γ.TypedOp op) (hm : ∀ id ∈ BoundOp.allMethods ops, P id)
    {s s' : LowerState} {fs : List Function}
    (hrun : StateT.run (c.renderFunctions ops) s = .ok (fs, s')) :
    fs.map Function.head = renderHeads c.typeName ops ∧ C.Gains s.start s'.start ∧
      ∀ f ∈ fs, C.Checked s'.strings s'.declarations (BoundOp.fragments ops).length f := by
  have hblocks := BoundOp.forall_mem_fragments (Q := fun ops => ∀ op ∈ ops, Γ.TypedOp op)
    (fun _ hops _ hblock => BoundOp.typed_of_mem_childBlocks hops hblock) h
  have hmblocks := BoundOp.forall_mem_fragments (Q := fun ops => ∀ id ∈ BoundOp.allMethods ops, P id)
    (fun _ hops _ hblock id hid =>
      hops id (BoundOp.allMethods_subset_of_mem_childBlocks hblock hid)) hm
  have hall := (lowersOne_renderOps hC hc hparams (f := renderHead c.typeName) rfl rfl h hm).cons
    (lowers_fragmentFunctions hC hc hparams 0 hblocks hmblocks)
  have hcount := LowerScope.fragments_renderFunctions hrun
  obtain ⟨_, _, ⟨⟩, hrun⟩ := run_bind_eq_ok.1 hrun
  obtain ⟨hheads, hgains, -, hfs⟩ := hall _ _ _ hrun
  rw [hcount] at hfs
  refine ⟨?_, ⟨hgains.strings, hgains.declarations⟩, hfs⟩
  rw [hheads, renderHeads, List.range_eq_range']
  rfl

/-- A function without builder hands over no child block. -/
theorem Checked.of_builder_eq_false {strings : List Bytes} {ds : List Declaration} {n : Nat}
    {f : Function} (h : C.Checked strings ds n f) (hf : f.builder = false) (k : Nat) :
    C.Checked strings ds k f := by
  obtain ⟨s, q, hchecks, hstrings, hds, -⟩ := h
  exact ⟨s, q, hchecks, hstrings, hds, by simp [hf]⟩

/-- Only render functions take a builder. -/
theorem builder_eq_false {type : TypeSymbol} {fs : List Function}
    (h : fs.map Function.head = initHead type :: type.methods.map (methodHead type)) :
    ∀ f ∈ fs, f.builder = false := by
  intro f hf
  have hhead : f.head ∈ initHead type :: type.methods.map (methodHead type) :=
    h ▸ List.mem_map_of_mem hf
  have hnone : f.head.builder = false := by
    rcases List.mem_cons.1 hhead with hinit | hmethod
    · rw [hinit]
      rfl
    · obtain ⟨g, -, hg⟩ := List.mem_map.1 hmethod
      rw [← hg]
      rfl
  exact hnone

theorem lowers_typeFunctions {m : Model} {t : BoundType} {type : TypeSymbol}
    (hC : C.Covers { model := m, current := t.id } P) (htype : m.table.get? t.id = some type)
    (h : t.Typed m.table type) (hm : t.Names P) {s s' : LowerState} {fs : List Function}
    (hrun : StateT.run (typeFunctions m t) s = .ok (fs, s')) :
    fs.map Function.head = t.heads type ∧ C.Gains s.start s'.start ∧
      ∀ f ∈ fs, C.Checked s'.strings s'.declarations t.fragmentCount f := by
  have hc : LowerScope.Agrees { model := m, current := t.id }
      { table := m.table, current := t.id } := ⟨rfl, rfl, rfl⟩
  have hname : m.table.nameOf t.id = type.fullName := by simp [SymbolTable.nameOf, htype]
  rw [typeFunctions, htype] at hrun
  obtain ⟨_, _, ⟨⟩, hrun⟩ := run_bind_eq_ok.1 hrun
  obtain ⟨init, s₁, hinitrun, hrun⟩ := run_bind_eq_ok.1 hrun
  obtain ⟨gs, s₂, hgsrun, hrun⟩ := run_bind_eq_ok.1 hrun
  have hplain := (lowersOne_initFunction hC hc rfl htype h.inits hm.inits).cons
    (lowers_methodFunctions type hC hc h.methods hm.methods)
  have hplainrun : StateT.run (do
      let f ← LowerScope.initFunction { model := m, current := t.id } type t.inits
      let fs ← LowerScope.methodFunctions { model := m, current := t.id } type type.methods t.methods
      pure (f :: fs)) s = .ok (init :: gs, s₂) :=
    run_bind_eq_ok.2 ⟨init, s₁, hinitrun, run_bind_eq_ok.2 ⟨gs, s₂, hgsrun, rfl⟩⟩
  obtain ⟨hheads, hgains, -, hchecked⟩ := hplain s _ s₂ hplainrun
  have hbuilder := builder_eq_false hheads
  rw [BoundType.heads, BoundType.fragmentCount]
  have hnone (hsame : fs = init :: gs) (hs : s' = s₂) (n : Nat) :
      fs.map Function.head = initHead type :: type.methods.map (methodHead type) ++ [] ∧
        C.Gains s.start s'.start ∧ ∀ f ∈ fs, C.Checked s'.strings s'.declarations n f := by
    subst hsame hs
    exact ⟨by rw [List.append_nil, hheads], hgains,
      fun f hf => (hchecked f hf).of_builder_eq_false (hbuilder f hf) n⟩
  split at hrun
  · next ops hrender =>
    split at hrun
    · next hcomponent =>
      obtain ⟨hs, _, hrenderrun, hrun⟩ := run_bind_eq_ok.1 hrun
      cases hrun
      obtain ⟨hheads', hgains', hchecked'⟩ :=
        lowers_renderFunctions hC hc rfl (h.render ops hrender) (hm.render ops hrender) hrenderrun
      rw [LowerScope.typeName, LowerScope.table, hname] at hheads'
      refine ⟨?_, hgains.trans hgains', List.forall_mem_append.2 ⟨fun f hf => ?_, ?_⟩⟩
      · rw [if_pos hcomponent, List.map_append, hheads, hheads', hrender]
        simp
      · exact ((hchecked f hf).of_builder_eq_false (hbuilder f hf) _).mono hgains'.strings
          hgains'.subset (Nat.le_refl _)
      · simpa [hrender] using hchecked'
    · next hcomponent =>
      cases hrun
      rw [if_neg hcomponent]
      exact hnone (List.append_nil _) rfl _
  · next hrender =>
    cases hrun
    have hempty : (if type.isComponent then t.render.toList.flatMap (renderHeads type.fullName)
        else []) = [] := by simp [hrender]
    rw [hempty]
    exact hnone (List.append_nil _) rfl _

end CodeScope

/-! ## Functions of a model -/

namespace Linkage

/-- The scope of the functions of a declared type. -/
def scope (L : Linkage) (m : Model) (t : BoundType) : CodeScope where
  toLinkage := L
  owner := m.table.nameOf t.id
  slots := (layoutOf m t).slots

variable {L : Linkage} {m : Model} {P : MethodId → Prop}

theorem lowers_functions {ts : List BoundType}
    (hL : ∀ t ∈ ts, (L.scope m t).Covers { model := m, current := t.id } P)
    (h : ∀ t ∈ ts, ∃ type, m.table.get? t.id = some type ∧ t.Typed m.table type)
    (hm : ∀ t ∈ ts, t.Names P) {s s' : LowerState} {fs : List Function}
    (hrun : StateT.run (functions m ts) s = .ok (fs, s')) :
    fs.map Function.head = ts.flatMap (fun t => (m.table.get? t.id).toList.flatMap t.heads) ∧
      L.Gains s.start s'.start ∧
      ∀ f ∈ fs, ∃ t ∈ ts, ∃ type, m.table.get? t.id = some type ∧ f.head ∈ t.heads type ∧
        (L.scope m t).Checked s'.strings s'.declarations t.fragmentCount f := by
  induction ts generalizing s fs with
  | nil =>
    cases hrun
    exact ⟨rfl, .refl _, by simp⟩
  | cons t ts ih =>
    obtain ⟨hLt, hLts⟩ := List.forall_mem_cons.1 hL
    obtain ⟨⟨type, htype, ht⟩, hts⟩ := List.forall_mem_cons.1 h
    obtain ⟨hmt, hmts⟩ := List.forall_mem_cons.1 hm
    obtain ⟨gs, s₁, hgs, hrun⟩ := run_bind_eq_ok.1 hrun
    obtain ⟨others, _, hothers, hrun⟩ := run_bind_eq_ok.1 hrun
    cases hrun
    obtain ⟨hheads, hgains, hchecked⟩ := CodeScope.lowers_typeFunctions hLt htype ht hmt hgs
    obtain ⟨hheads', hgains', hchecked'⟩ := ih hLts hts hmts hothers
    have hgains : L.Gains s.start s₁.start := hgains
    refine ⟨?_, hgains.trans hgains', List.forall_mem_append.2 ⟨fun f hf => ?_, fun f hf => ?_⟩⟩
    · rw [List.map_append, hheads, hheads']
      simp [htype]
    · exact ⟨t, List.mem_cons_self, type, htype, hheads ▸ List.mem_map_of_mem hf,
        (hchecked f hf).mono hgains'.strings hgains'.subset (Nat.le_refl _)⟩
    · obtain ⟨u, hu, hf⟩ := hchecked' f hf
      exact ⟨u, List.mem_cons_of_mem _ hu, hf⟩

end Linkage

/-! ## Modules -/

/-- The state in which a module starts: the runtime is declared. -/
def LowerState.initial : LowerState where
  declarations := Declaration.insertAll (Runtime.all.map .runtime) []

/-- What a module is made of. -/
theorem run_lower {m : Model} {name : Bytes} {M : Module} (h : lower m name = .ok M) :
    ∃ s₁ s₂ s₃, StateT.run (functions m m.types) .initial = .ok (M.functions, s₁) ∧
      StateT.run (descriptors m m.types) s₁ = .ok (M.descriptors, s₂) ∧
      StateT.run (string name) s₂ = .ok (M.manifest, s₃) ∧
      M.layouts = m.types.map (layoutOf m) ∧ M.strings = s₃.strings ∧
      M.declarations = s₃.declarations := by
  unfold lower at h
  dsimp only at h
  rcases hrun : StateT.run (do
      let fs ← functions m m.types
      let ds ← descriptors m m.types
      let manifest ← string name
      pure (fs, ds, manifest))
    { declarations := Runtime.all.foldl (fun ds f => Declaration.insert (.runtime f) ds) [] }
    with e | ⟨⟨fs, ds, manifest⟩, s⟩
  · rw [hrun] at h
    cases h
  · rw [hrun] at h
    cases h
    obtain ⟨_, s₁, hfs, hrun⟩ := run_bind_eq_ok.1 hrun
    obtain ⟨_, s₂, hds, hrun⟩ := run_bind_eq_ok.1 hrun
    obtain ⟨_, s₃, hmanifest, hrun⟩ := run_bind_eq_ok.1 hrun
    cases hrun
    exact ⟨s₁, s₂, _, hfs, hds, hmanifest, rfl, rfl, rfl⟩

theorem name_of_lower {m : Model} {name : Bytes} {M : Module} (h : lower m name = .ok M) : M.name = name := by
  simp only [lower, bind, Except.bind] at h
  split at h
  · cases h
  · cases h
    rfl

/-- A module that may refer to anything. -/
def Linkage.any : Linkage where
  Provides _ _ := True
  Defines _ := True
  Imports _ := True

theorem Linkage.covers_any (m : Model) (t : BoundType) :
    (Linkage.any.scope m t).Covers { model := m, current := t.id } fun _ => True := by
  have hhas (id : TypeId) (d : Declaration) :
      (Linkage.any.scope m t).Has { model := m, current := t.id } id d := by
    rw [CodeScope.Has]
    split <;> trivial
  exact ⟨rfl, rfl, rfl, fun _ _ _ => ⟨trivial, hhas _ _⟩, fun _ => ⟨trivial, hhas _ _⟩,
    fun _ => hhas _ _, fun _ => trivial⟩

end Code

theorem BoundType.names_true (t : BoundType) : t.Names fun _ => True :=
  ⟨fun _ _ _ _ _ _ => trivial, fun _ _ _ _ => trivial, fun _ _ _ _ => trivial⟩

/-- Over closed references, the functions of a model without errors are well-formed control-flow graphs in
static single assignment form. -/
theorem Model.wellFormed_of_lower {refs : List Reference} {trees : List SyntaxTree}
    (hrefs : Reference.Closed refs) (h : (Model.analyze refs trees).hasErrors = false)
    {name : Bytes} {M : Code.Module} (hM : Code.lower (Model.analyze refs trees) name = .ok M) :
    ∀ f ∈ M.functions, f.WellFormed := by
  have htyped := Model.typed_analyze hrefs h
  obtain ⟨s₁, _, _, hfunctions, -⟩ := Code.run_lower hM
  intro f hf
  obtain ⟨-, -, hchecked⟩ := Code.Linkage.lowers_functions
    (fun t _ => Code.Linkage.covers_any _ t) htyped (fun t _ => t.names_true) hfunctions
  obtain ⟨t, -, type, -, -, hf⟩ := hchecked f hf
  exact hf.wellFormed

end ViewCompiler
