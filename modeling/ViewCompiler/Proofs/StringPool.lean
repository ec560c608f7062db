import ViewCompiler.Proofs.LegibleModules
import ViewCompiler.Proofs.StringReferences

/-!
The string constants of a module. Whatever texts were asked for while a module was made, its code refers to
arrays that the module defines once, at the size that the reference gives and with the bytes of the text and a
zero byte behind them (`Listing.Faithful`). The sizes are counted and the bytes escaped at different times, so
both are compared as they are read from the text of the module.

That no other definition takes the symbol of an array rests on the names of methods: what is defined for a
type is named after one of its parts, and in a parsed file no part is a number.
-/

namespace ViewCompiler

namespace Code

open Lower

/-! ## Symbols of functions -/

/-- The symbol of something that is no string constant. -/
def NamesPart (symbol : Bytes) : Prop :=
  ∃ type part, symbol = symbolOf type part ∧ part.Plain ∧ ∀ i, part ≠ .constant i

theorem NamesPart.ne_stringSymbol {symbol : Bytes} (h : NamesPart symbol) (i : Nat) :
    symbol ≠ stringSymbol i := by
  obtain ⟨type, part, rfl, hplain, hpart⟩ := h
  rw [stringSymbol_eq]
  exact fun heq => hpart i (symbolOf_inj (q := .constant i) hplain trivial heq).2

/-- The functions are named after types. -/
def NamedAfterTypes (fs : List Function) : Prop := ∀ f ∈ fs, NamesPart f.symbol

namespace Lower

variable {α β : Type} {x : Lower α} {f : α → Lower β} {P : α → Prop} {Q : β → Prop}

/-- Where the step succeeds, its result has the property. -/
def Ensures (x : Lower α) (P : α → Prop) : Prop := ∀ s a s', StateT.run x s = .ok (a, s') → P a

theorem ensures_pure {a : α} (h : P a) : Ensures (pure a) P := by
  rintro s _ _ ⟨⟩
  exact h

theorem Ensures.bind (hx : Ensures x P) (hf : ∀ a, P a → Ensures (f a) Q) : Ensures (x >>= f) Q := by
  intro s b s'' hrun
  obtain ⟨a, s', hxrun, hfrun⟩ := run_bind_eq_ok.1 hrun
  exact hf a (hx s a s' hxrun) s' b s'' hfrun

theorem ensures_true (x : Lower α) : Ensures x fun _ => True := fun _ _ _ _ => trivial

theorem ensures_bound (o : Option α) : Ensures (bound o) (o = some ·) := by
  cases o with
  | none => rintro s a s' ⟨⟩
  | some a => exact ensures_pure rfl

theorem ensures_function {f : Function} (body : Lower Unit) (h : NamesPart f.symbol) :
    Ensures (function f body) fun g => NamesPart g.symbol := by
  intro s g s' hrun
  obtain ⟨s₁, -, rfl, -⟩ := CodeScope.run_function hrun
  exact h

/-- Functions are given one by one. -/
theorem Ensures.cons {x : Lower Function} {y : Lower (List Function)} (hx : Ensures x fun f => NamesPart f.symbol)
    (hy : Ensures y NamedAfterTypes) :
    Ensures (do let f ← x; let fs ← y; pure (f :: fs)) NamedAfterTypes :=
  hx.bind fun _ hf => hy.bind fun _ hfs => ensures_pure (List.forall_mem_cons.2 ⟨hf, hfs⟩)

end Lower

namespace LowerScope

variable {c : LowerScope}

theorem ensures_methodFunctions (type : TypeSymbol) {ms : List MethodSymbol} (h : ∀ m ∈ ms, m.name.IsWord)
    (bs : List BoundMethod) : Ensures (c.methodFunctions type ms bs) NamedAfterTypes := by
  induction ms generalizing bs with
  | nil => exact ensures_pure (List.forall_mem_nil _)
  | cons m ms ih =>
    obtain ⟨hm, hms⟩ := List.forall_mem_cons.1 h
    cases bs with
    | nil => exact ensures_pure (List.forall_mem_nil _)
    | cons b bs =>
      exact (ensures_function _ ⟨_, .method m.name, methodSymbol_eq _ _, hm, nofun⟩).cons (ih hms bs)

theorem ensures_fragmentFunctions (index : Nat) (blocks : List (List BoundOp)) :
    Ensures (c.fragmentFunctions index blocks) NamedAfterTypes := by
  induction blocks generalizing index with
  | nil => exact ensures_pure (List.forall_mem_nil _)
  | cons ops blocks ih =>
    exact (ensures_function _ ⟨_, .fragment index, fragmentSymbol_eq _ _, trivial, nofun⟩).cons (ih _)

theorem ensures_renderFunctions (ops : List BoundOp) :
    Ensures (c.renderFunctions ops) NamedAfterTypes :=
  (ensures_true _).bind fun _ _ => (ensures_function _ ⟨_, .render, rfl, trivial, nofun⟩).cons
    (ensures_fragmentFunctions _ _)

end LowerScope

section
variable {m : Model}

theorem ensures_typeFunctions {t : BoundType}
    (h : ∀ type, m.table.get? t.id = some type → ∀ f ∈ type.methods, f.name.IsWord) :
    Ensures (typeFunctions m t) NamedAfterTypes := by
  refine (ensures_bound _).bind fun type htype => ?_
  refine (ensures_function _ ⟨_, .init, rfl, trivial, nofun⟩).bind fun init hinit => ?_
  refine (LowerScope.ensures_methodFunctions type (h type htype) _).bind fun methods hmethods => ?_
  have hown : NamedAfterTypes (init :: methods) := List.forall_mem_cons.2 ⟨hinit, hmethods⟩
  have hrender {x : Lower (List Function)} (hx : Ensures x NamedAfterTypes) :
      Ensures (x >>= fun render => pure (init :: methods ++ render)) NamedAfterTypes :=
    hx.bind fun _ hfs => ensures_pure (List.forall_mem_append.2 ⟨hown, hfs⟩)
  have hnone : Ensures (pure []) NamedAfterTypes := ensures_pure (List.forall_mem_nil _)
  split
  · split
    · exact hrender (LowerScope.ensures_renderFunctions _)
    · exact hrender hnone
  · exact hrender hnone

theorem ensures_functions {ts : List BoundType}
    (h : ∀ t ∈ ts, ∀ type, m.table.get? t.id = some type → ∀ f ∈ type.methods, f.name.IsWord) :
    Ensures (functions m ts) NamedAfterTypes := by
  induction ts with
  | nil => exact ensures_pure (List.forall_mem_nil _)
  | cons t ts ih =>
    obtain ⟨ht, hts⟩ := List.forall_mem_cons.1 h
    exact (ensures_typeFunctions ht).bind fun _ hfs => (ih hts).bind fun _ hothers =>
      ensures_pure (List.forall_mem_append.2 ⟨hfs, hothers⟩)

end

/-! ## Arrays of a module -/

/-- The operands in the functions, the descriptors and the manifest. -/
def Listing.operands (L : Listing) : List Operand :=
  L.functions.flatMap Function.operands ++ L.descriptors.flatMap (fun d => [d.name, d.route]) ++
    [L.manifest.name]

/-- A reference to an array of this size leads to the text: its symbol is defined once, as an array of the
same size whose initializer gives the bytes of the text and a zero byte. -/
structure Listing.Holds (L : Listing) (symbol : Bytes) (size : Nat) (text : Bytes) : Prop where
  once : L.defined.count symbol = 1
  array : L.arrays.filter (·.symbol = symbol) = [⟨symbol, size, text ++ [0]⟩]
  size : size = (text ++ [0]).length

/-- What is referred to is what was asked for. -/
structure Listing.Faithful (L : Listing) (requests : List Request) : Prop where
  same : ∀ r ∈ requests, ∀ r' ∈ requests, r.constant.text = r'.constant.text ↔ r.text = r'.text
  given : ∀ r ∈ requests, ∃ i size, Read.operand.run r.constant.text = some (.str i size, []) ∧
    L.Holds (stringSymbol i) size r.text
  referenced : ∀ i size, .str i size ∈ L.operands → ∃ r ∈ requests, r.constant = .str i size ∧
    L.Holds (stringSymbol i) size r.text

namespace Module

variable {M : Module}

/-- A string constant that is read from the text stands in the module. -/
theorem mem_operands {i size : Nat} (h : .str i size ∈ M.listing.operands) : .str i size ∈ M.operands := by
  simp only [Listing.operands, operands, List.mem_append, List.mem_flatMap] at h ⊢
  refine h.imp_left (Or.imp_right ?_)
  rintro ⟨_, hdefinition, ho⟩
  obtain ⟨d, hd, rfl⟩ := List.mem_map.1 hdefinition
  refine ⟨d, hd, ?_⟩
  cases hroute : d.route with
  | none => simpa [Descriptor.definition, Descriptor.operands, hroute] using ho
  | some r => simpa [Descriptor.definition, Descriptor.operands, hroute] using ho

section
variable {k : Nat} {s : Bytes} (hk : M.strings[k]? = some s)
include hk

/-- A string constant is the only array of its symbol. -/
theorem filter_arrays : M.listing.arrays.filter (·.symbol = stringSymbol k) =
    [⟨stringSymbol k, s.length + 1, s ++ [0]⟩] := by
  have hnodup : (M.listing.arrays.map (·.symbol)).Nodup := M.symbols_arrays ▸ nodup_stringSymbols _
  have hmem : ⟨stringSymbol k, s.length + 1, s ++ [0]⟩ ∈ M.listing.arrays :=
    List.mem_map.2 ⟨(s, k), List.mk_mem_zipIdx_iff_getElem?.2 hk, rfl⟩
  exact filter_key_eq hnodup hmem

/-- Nothing else takes the symbol of a string constant, if functions are named after types. -/
theorem count_defined (h : NamedAfterTypes M.functions) :
    M.defined.count (stringSymbol k) = 1 := by
  have hstrings : ((List.range M.strings.length).map stringSymbol).count (stringSymbol k) = 1 :=
    List.count_eq_one_of_mem (nodup_stringSymbols _)
      (List.mem_map_of_mem (List.mem_range.2 (List.getElem?_eq_some_iff.1 hk).1))
  have hdescriptors : (M.descriptors.map fun d => descriptorSymbol d.type).count (stringSymbol k) = 0 := by
    refine List.count_eq_zero.2 fun hmem => ?_
    obtain ⟨d, -, heq⟩ := List.mem_map.1 hmem
    exact NamesPart.ne_stringSymbol ⟨_, .descriptor, rfl, trivial, nofun⟩ k heq
  have hfixed : [tableSymbol, manifestSymbol].count (stringSymbol k) = 0 := by
    refine List.count_eq_zero.2 fun hmem => ?_
    have hdots : ∀ symbol ∈ [tableSymbol, manifestSymbol], Ascii.dot ∉ symbol := by decide
    exact symbolOf_ne (hdots _ hmem) ".str" (.constant k) rfl
  have hfunctions : (M.functions.map (·.symbol)).count (stringSymbol k) = 0 := by
    refine List.count_eq_zero.2 fun hmem => ?_
    obtain ⟨f, hf, heq⟩ := List.mem_map.1 hmem
    exact (h f hf).ne_stringSymbol k heq
  rw [defined, List.count_append, List.count_append, List.count_append, hstrings, hdescriptors, hfixed,
    hfunctions]

theorem holds (h : NamedAfterTypes M.functions) : M.listing.Holds (stringSymbol k) (s.length + 1) s where
  once := M.defined_listing ▸ count_defined hk h
  array := filter_arrays hk
  size := by simp

end

end Module

/-! ## Requests of a model -/

/-- Lowering the model under the assembly name asks for these constants one after the other. -/
def Requests (m : Model) (name : Bytes) (requests : List Request) : Prop :=
  ∃ a s, Makes (contents m name) .initial requests a s

section
variable {m : Model} {name : Bytes} {M : Module}

theorem run_contents (h : lower m name = .ok M) : ∃ s, M.strings = s.strings ∧
    StateT.run (contents m name) .initial = .ok ((M.functions, M.descriptors, M.manifest), s) := by
  obtain ⟨s₁, s₂, s₃, hfunctions, hdescriptors, hmanifest, -, hstrings, -⟩ := run_lower h
  refine ⟨s₃, hstrings, run_bind_eq_ok.2 ⟨_, s₁, hfunctions, ?_⟩⟩
  exact run_bind_eq_ok.2 ⟨_, s₂, hdescriptors, run_bind_eq_ok.2 ⟨_, s₃, hmanifest, rfl⟩⟩

theorem Requests.pools {requests : List Request} (h : lower m name = .ok M)
    (hrequests : Requests m name requests) : Pools requests M.strings := by
  obtain ⟨s, hstrings, hrun⟩ := run_contents h
  obtain ⟨a, s', hmakes⟩ := hrequests
  obtain ⟨-, rfl⟩ := Prod.mk.inj (Except.ok.inj (hrun.symm.trans hmakes.run))
  rw [hstrings]
  exact hmakes.pools .nil

/-- Each string constant in the code of a module was asked for. -/
theorem exists_requests (h : lower m name = .ok M) : ∃ requests, Requests m name requests ∧
    Supplies (requests.map (·.constant)) M.operands := by
  obtain ⟨s, -, hrun⟩ := run_contents h
  obtain ⟨requests, hmakes, hsupplies⟩ := draws_contents m name _ _ _ hrun
  exact ⟨requests, ⟨_, _, hmakes⟩, fun o ho => hsupplies o (List.mem_append_right _ ho)⟩

/-- Whatever was asked for, in whatever order, is what the module refers to. -/
theorem Requests.faithful {requests : List Request} (h : lower m name = .ok M)
    (hfunctions : NamedAfterTypes M.functions) (hrequests : Requests m name requests) :
    M.listing.Faithful requests := by
  have hpools := hrequests.pools h
  refine ⟨fun r hr r' hr' => hpools.text_eq_iff hr hr', fun r hr => ?_, fun i size ho => ?_⟩
  · obtain ⟨i, hi, hconstant⟩ := hpools.given r hr
    exact ⟨i, _, hconstant ▸ Read.run_str i _, Module.holds hi hfunctions⟩
  · obtain ⟨others, hothers, hsupplies⟩ := exists_requests h
    obtain ⟨r, hr, hconstant⟩ := List.mem_map.1 (hsupplies _ (Module.mem_operands ho) rfl)
    obtain ⟨j, hj, hconstant'⟩ := (hothers.pools h).given r hr
    obtain ⟨rfl, rfl⟩ := Operand.str.inj (hconstant.symm.trans hconstant')
    obtain ⟨r', hr', htext, hconstant''⟩ := hpools.exists_request hj
    refine ⟨r', hr', hconstant'', ?_⟩
    rw [htext]
    exact Module.holds hj hfunctions

end

end Code

open Code

/-- Functions of parsed files are named after types. -/
theorem Model.namedAfterTypes_functions {refs : List Reference} {trees : List SyntaxTree}
    (htrees : ∀ tree ∈ trees, ∀ d ∈ tree.types, d.Worded) {name : Bytes} {M : Module}
    (h : lower (Model.analyze refs trees) name = .ok M) : NamedAfterTypes M.functions := by
  obtain ⟨s, _, _, hrun, -⟩ := run_lower h
  refine ensures_functions (fun t ht type htype f hf => ?_) _ _ _ hrun
  rw [Analysis.analyze_types] at ht
  obtain ⟨d, hd, rfl⟩ := List.mem_map.1 ht
  rw [SymbolTable.body_id] at htype
  exact Analysis.isWord_of_mem_methods htrees hd htype hf

/-- Over any references, whatever string constants are asked for while a module of parsed files is made: two
requests are given the same constant exactly if they are for the same text, and every array that the module
refers to is defined once, at the size of the reference and with the bytes of the text and a zero byte. Where
the references are closed and have names that can be written, and the files have no errors, this is what is
read behind the heading of the text, and from its beginning if the name of the module has no line feed and no
quote. -/
theorem Model.strings_faithful {refs : List Reference} {trees : List SyntaxTree}
    (htrees : ∀ tree ∈ trees, ∃ source file, tree = SyntaxTree.parse source file) {name : Bytes} {M : Module}
    (h : lower (Model.analyze refs trees) name = .ok M) :
    (∃ requests, Requests (Model.analyze refs trees) name requests) ∧
      (∀ requests, Requests (Model.analyze refs trees) name requests → M.listing.Faithful requests) ∧
      (Reference.Closed refs → (∀ r ∈ refs, r.Nameable) → (Model.analyze refs trees).hasErrors = false →
        M.Legible ∧
        (Ascii.lf ∉ name → Ascii.quote ∉ name → Listing.read? M.text = some (name, M.listing))) := by
  have hfunctions := Model.namedAfterTypes_functions (SyntaxTree.worded_of_parsed htrees) h
  obtain ⟨requests, hrequests, -⟩ := exists_requests h
  obtain rfl := name_of_lower h
  refine ⟨⟨requests, hrequests⟩, fun _ hrequests => hrequests.faithful h hfunctions,
    fun hrefs hnameable herrors => ?_⟩
  have hlegible := Model.legible_of_parsed hrefs hnameable htrees herrors h
  exact ⟨hlegible, hlegible.read?⟩

/-- A quote, a backslash, a zero byte and two bytes that are not ASCII. -/
def oddText : Bytes := [34, 92, 0, 195, 169]

/-- A component with two fields that start as the same text, and one that starts as the empty one. -/
def notesSource : Bytes :=
  "namespace App; component Notes \x7b field string first = " ++ Literal.quote oddText
    ++ "; field string second = " ++ Literal.quote oddText
    ++ "; field string third; render \x7b text " ++ Literal.quote "App" ++ "; \x7d \x7d"

def notesModel : Model := Model.analyze [] [.parse notesSource "notes.il"]

theorem Model.strings_faithful_notes : ∃ M, lower notesModel "App" = .ok M ∧
    M.strings = [oddText, [], "App", "App.Notes"] ∧
      (∃ requests, Requests notesModel "App" requests) ∧
        (∀ requests, Requests notesModel "App" requests → M.listing.Faithful requests) ∧
        Listing.read? M.text = some (Bytes.ofString "App", M.listing) := by
  -- Both are one computation: the files are analysed once for them.
  obtain ⟨herrors, hstrings⟩ : notesModel.hasErrors = false ∧
      (lower notesModel "App").toOption.map (·.strings) = some [oddText, [], "App", "App.Notes"] := by
    decide +kernel
  have htrees : ∀ tree ∈ [SyntaxTree.parse notesSource "notes.il"],
      ∃ source file, tree = SyntaxTree.parse source file := List.forall_mem_singleton.2 ⟨_, _, rfl⟩
  rcases hM : lower notesModel "App" with e | M
  · rw [hM] at hstrings
    cases hstrings
  · rw [hM] at hstrings
    obtain ⟨hrequests, hfaithful, hread⟩ := Model.strings_faithful htrees hM
    obtain ⟨-, hread⟩ := hread (by decide) (by simp) herrors
    exact ⟨M, rfl, Option.some.inj hstrings, hrequests, hfaithful, hread (by decide) (by decide)⟩

end ViewCompiler
