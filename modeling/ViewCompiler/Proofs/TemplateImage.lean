import ViewCompiler.Proofs.ComponentIdentity
import ViewCompiler.Proofs.PrintedComponent
import ViewCompiler.Proofs.TemplatePlaces

/-!
The component that a template stands for. `Template.image` gives its declaration directly, without
the text between. The file that is written for a template is read as that declaration, up to places
and without a report (`Template.reads_write`), if what is copied into it bare can stand there.
-/

namespace ViewCompiler

/-! ## Names -/

namespace Bytes

theorem splitOn_cons_self (sep : UInt8) (s : Bytes) : splitOn sep (sep :: s) = [] :: splitOn sep s :=
  if_pos rfl

theorem splitOn_cons_of_ne {sep b : UInt8} {s w : Bytes} {ws : List Bytes} (hb : b ≠ sep)
    (h : splitOn sep s = w :: ws) : splitOn sep (b :: s) = (b :: w) :: ws := by
  rw [splitOn] at h ⊢
  rw [List.foldr_cons, h]
  exact if_neg hb

theorem splitOn_of_not_mem {sep : UInt8} {s : Bytes} (h : sep ∉ s) : splitOn sep s = [s] := by
  induction s with
  | nil => rfl
  | cons b s ih =>
    rw [List.mem_cons, not_or] at h
    exact splitOn_cons_of_ne (fun heq => h.1 heq.symm) (ih h.2)

theorem splitOn_append {sep : UInt8} {w : Bytes} (h : sep ∉ w) (s : Bytes) :
    splitOn sep (w ++ sep :: s) = w :: splitOn sep s := by
  induction w with
  | nil => exact splitOn_cons_self sep s
  | cons b w ih =>
    rw [List.mem_cons, not_or] at h
    exact splitOn_cons_of_ne (fun heq => h.1 heq.symm) (ih h.2)

theorem IsWord.dot_notMem {w : Bytes} (h : w.IsWord) : Ascii.dot ∉ w := by
  intro hmem
  have hbyte := List.all_eq_true.1 (Bool.and_eq_true_iff.1 h.1).2 _ hmem
  cases hbyte

/-- A name is qualified if its parts between the dots are words. -/
theorem isQualified_iff {s : Bytes} : s.IsQualified ↔ ∀ w ∈ s.splitOn Ascii.dot, w.IsWord := by
  constructor
  · intro h
    induction h with
    | word hw => simpa [splitOn_of_not_mem hw.dot_notMem] using hw
    | dot hw _ ih =>
      rw [splitOn_append hw.dot_notMem]
      exact List.forall_mem_cons.2 ⟨hw, ih⟩
  · intro h
    induction hn : s.length using Nat.strongRecOn generalizing s with
    | ind n ih =>
    by_cases hdot : Ascii.dot ∈ s
    · obtain ⟨w, m, rfl, hw⟩ := List.eq_append_cons_of_mem hdot
      rw [splitOn_append hw, List.forall_mem_cons] at h
      exact .dot h.1 (ih _ (by simp at hn; omega) h.2 rfl)
    · rw [splitOn_of_not_mem hdot] at h
      exact .word (h s (by simp))

instance (s : Bytes) : Decidable s.IsQualified := decidable_of_iff _ isQualified_iff.symm

end Bytes

instance (t : SymbolTable) : Decidable t.Nameable :=
  inferInstanceAs (Decidable (∀ s ∈ t.types, s.fullName.IsQualified))

namespace ComponentName

theorem isWord_of_isValid {name : Bytes} (h : isValid name = true) : name.IsWord := by
  simp only [isValid, Bool.and_eq_true, decide_eq_true_eq] at h
  obtain ⟨-, hkinds⟩ := h
  have hmem : TokenKind.identifier name ∈ (TokenStream.scan name).tokens.map (·.kind) := by
    rw [hkinds]
    exact List.mem_cons_self
  obtain ⟨t, ht, hkind⟩ := List.mem_map.1 hmem
  exact TokenStream.worded_tokens {} name t ht name hkind

/-- A directory is a word of the namespace, whatever its name. -/
theorem isWord_segment (directory : Bytes) : (segment directory).IsWord := by
  rw [segment]
  split
  · next hvalid => exact isWord_of_isValid hvalid
  · refine ⟨?_, ?_⟩
    · rw [Bytes.isIdentifier, List.all_cons, Bool.and_eq_true, Bool.and_eq_true, List.all_map,
        List.all_eq_true]
      refine ⟨rfl, rfl, fun b _ => ?_⟩
      dsimp only [Function.comp]
      split
      · assumption
      · rfl
    · have hhead : ∀ k ∈ Keyword.all, k.text.head? ≠ some Ascii.underscore := by decide
      rw [Keyword.ofText?, List.find?_eq_none]
      intro k hk htext
      exact hhead k hk (by rw [of_decide_eq_true htext]; rfl)

theorem isQualified_namespaceOf {root : Bytes} (h : root = [] ∨ root.IsQualified) (path : Bytes) :
    namespaceOf root path = [] ∨ (namespaceOf root path).IsQualified := by
  rw [namespaceOf]
  generalize (segments path).dropLast.filter (fun d => d ≠ [] ∧ d ≠ "." ∧ d ≠ "..") = directories
  induction directories generalizing root with
  | nil => exact h
  | cons d directories ih =>
    rw [List.foldl_cons]
    refine ih (.inr ?_)
    split
    · exact .word (isWord_segment d)
    · next hne =>
      rw [List.append_assoc]
      exact (h.resolve_left hne).append (.word (isWord_segment d))

end ComponentName

/-! ## Declarations -/

namespace Template

/-- The declaration that a template stands for, without places. -/
def image (t : Template) (c : WriteScope) (name : Bytes) : TypeDecl where
  kind := .component
  name
  base := t.base.map TypeRef.unplaced
  route := t.route.map (·.2)
  members := t.injections.map Injection.image ++
    (t.code.flatMap fun b => (b.members name).filterMap (·.data?)).map DataMember.unplaced
  methods := (t.code.flatMap fun b => (b.members name).filterMap (·.method?)).map MethodDecl.unplaced
  render := some { ops := c.imageAll t.nodes, span := {} }
  span := {}

end Template

namespace WriteScope

/-- The names of a template, and of what its markup means, that are copied bare into its file can stand
there. -/
structure Copies (c : WriteScope) (t : Template) : Prop where
  usings : ∀ u ∈ t.usings, u.ns.IsQualified
  base : ∀ b ∈ t.base, b.name.IsQualified
  injections : ∀ i ∈ t.injections, i.type.IsQualified ∧ i.name.IsWord
  components : ∀ type ∈ c.allComponents t.nodes, (c.table.nameOf type).IsQualified
  parameters : ∀ p ∈ c.allParameters t.nodes, p.IsWord

instance (c : WriteScope) (t : Template) : Decidable (c.Copies t) :=
  decidable_of_iff ((∀ u ∈ t.usings, u.ns.IsQualified) ∧ (∀ b ∈ t.base, b.name.IsQualified) ∧
      (∀ i ∈ t.injections, i.type.IsQualified ∧ i.name.IsWord) ∧
      (∀ type ∈ c.allComponents t.nodes, (c.table.nameOf type).IsQualified) ∧
      ∀ p ∈ c.allParameters t.nodes, p.IsWord)
    ⟨fun h => ⟨h.1, h.2.1, h.2.2.1, h.2.2.2.1, h.2.2.2.2⟩,
      fun h => ⟨h.usings, h.base, h.injections, h.components, h.parameters⟩⟩

open TokenStream
open Tokens (Announces Based Heads Imports Routed Spaced)

variable {c : WriteScope} {t : Template} {name : Bytes}

/-- The line of the namespace. -/
def namespaceLine (ns : Bytes) : Bytes := if ns = [] then [] else "namespace " ++ ns ++ ";\n"

theorem prints_namespaceLine {ns : Bytes} (h : ns = [] ∨ ns.IsQualified) :
    Prints true (namespaceLine ns) (Spaced ns) := by
  rcases h with rfl | h
  · exact .nil .none
  · rw [namespaceLine, if_neg h.ne_nil, List.append_assoc]
    refine (prints_opening .namespaceKw rfl (prints_name h rfl prints_semicolon)).mono ?_
    rintro _ ⟨s, _, rfl, w, _, rfl, hw, s', _, rfl, rfl⟩
    exact .some hw

theorem prints_usings {us : List Bytes} (h : ∀ u ∈ us, u.IsQualified) :
    Prints true (us.flatMap usingLine) (Imports us) := by
  have hlines : Prints true (us.flatMap usingLine) (Imports (us.map id)) := by
    refine prints_map .nil .append fun u hu => ?_
    rw [usingLine, List.append_assoc]
    refine (prints_opening .usingKw rfl (prints_name (h u hu) rfl prints_semicolon)).mono ?_
    rintro _ ⟨s, _, rfl, w, _, rfl, hw, s', _, rfl, rfl⟩
    exact Tokens.imports_using hw
  rwa [List.map_id] at hlines

/-- The line of the route. -/
def routeLine (c : WriteScope) (route : Option (Span × Bytes)) : Bytes :=
  match route with
  | some (span, route) => c.mapLine span ++ "[route " ++ Literal.quote route ++ "]\n"
  | none => []

theorem prints_routeLine {route : Option (Span × Bytes)}
    (h : ∀ r ∈ route, c.item.userLine r.1.line ≠ 0) :
    Prints true (c.routeLine route) (Routed (route.map (·.2))) := by
  cases route with
  | none => exact .nil .none
  | some r =>
    have hend : Prints false "]\n" (Leads (.punct .rbracket) (· = [])) :=
      prints_mark_lf (b := Ascii.rbracket) rfl rfl rfl (.nil rfl)
    have hroute := prints_opening (s := false) .routeKw (t := "route ") rfl (prints_quote r.2 hend)
    have hline := prints_mark (s := true) (b := Ascii.lbracket) rfl rfl rfl hroute
    rw [routeLine]
    simp only [List.append_assoc]
    refine (prints_mapLine (h r rfl) hline).mono ?_
    rintro _ ⟨s, _, rfl, s', _, rfl, s'', _, rfl, s₃, _, rfl, rfl⟩
    exact .some

/-- The lines that open the declaration. -/
def declarationLines (c : WriteScope) (name : Bytes) (base : Option TypeRef) : Bytes :=
  match base with
  | some base => c.mapLine base.span ++ "component " ++ name ++ " : " ++ base.name ++ " \x7b\n"
  | none => "#line 1\ncomponent " ++ name ++ " \x7b\n"

/-- The tokens that open the declaration. -/
def Declares (name : Bytes) (base : Option Bytes) (ts : List Token) : Prop :=
  ∃ s s' s'' us, ts = ⟨.keyword .componentKw, s⟩ :: ⟨.identifier name, s'⟩ ::
    (us ++ [⟨.punct .lbrace, s''⟩]) ∧ Based base us

theorem prints_declarationLines {base : Option TypeRef} (hn : name.IsWord)
    (hb : ∀ b ∈ base, b.name.IsQualified) (hs : ∀ b ∈ base, c.item.userLine b.span.line ≠ 0) :
    Prints true (c.declarationLines name base) (Declares name (base.map (·.name))) := by
  have hbrace : Prints false " \x7b\n" (Leads (.punct .lbrace) (· = [])) :=
    prints_space (prints_lbrace (.nil rfl))
  cases base with
  | none =>
    have hline := prints_opening (s := true) .componentKw (t := "component ") rfl
      (prints_word hn rfl hbrace)
    refine Prints.mono (prints_lineMark "1" (m := .startAt 1) (by decide) rfl hline) ?_
    rintro _ ⟨s, _, rfl, s', _, rfl, s'', _, rfl, rfl⟩
    exact ⟨s, s', s'', [], rfl, .none⟩
  | some b =>
    have hbase : Prints false (" : " ++ (b.name ++ " \x7b\n"))
        (Leads (.punct .colon) (Joined (Tokens.Named b.name) (Leads (.punct .lbrace) (· = [])))) :=
      prints_space (prints_mark (b := Ascii.colon) rfl rfl rfl
        (prints_space (prints_name (hb b rfl) rfl hbrace)))
    have hline := prints_opening (s := true) .componentKw (t := "component ") rfl
      (prints_word hn rfl hbase)
    rw [declarationLines]
    simp only [List.append_assoc]
    refine (prints_mapLine (hs b rfl) hline).mono ?_
    rintro _ ⟨s, _, rfl, s', _, rfl, s'', _, rfl, w, _, rfl, hw, s₃, _, rfl, rfl⟩
    exact ⟨s, s', s₃, ⟨.punct .colon, s''⟩ :: w, by simp, .some hw⟩

theorem header_eq : c.header t name =
    namespaceLine c.ns ++ (c.usings.flatMap usingLine ++
      (c.routeLine t.route ++ c.declarationLines name t.base)) := by
  cases hroute : t.route <;> cases hbase : t.base <;>
    simp [header, hroute, hbase, namespaceLine, routeLine, declarationLines]

/-! ## Members -/

theorem prints_injectLine {i : Injection} (ht : i.type.IsQualified) (hn : i.name.IsWord)
    (hs : c.item.userLine i.span.line ≠ 0) (type : Bytes) :
    Prints true (c.injectLine i) (Announces type [.data i.image]) := by
  have hname : Prints false (" " ++ (i.name ++ ";\n"))
      (Leads (.identifier i.name) (Leads (.punct .semicolon) (· = []))) :=
    prints_space (prints_word hn rfl prints_semicolon)
  rw [injectLine]
  simp only [List.append_assoc]
  refine (prints_mapLine hs (prints_opening .injectKw rfl (prints_name ht rfl hname))).mono ?_
  rintro _ ⟨s, _, rfl, w, _, rfl, hw, s', _, rfl, s'', _, rfl, rfl⟩
  exact Tokens.announces_inject hw

theorem prints_codeLines {b : CodeBlock} {type : Bytes} (hb : b.IsMembers type)
    (hs : c.item.userLine b.span.line ≠ 0) :
    Prints true (c.codeLines b) (Announces type ((b.members type).map Tokens.Member.unplaced)) := by
  rw [codeLines, List.append_assoc]
  exact prints_mapLine hs ((prints_lines hb.scanned).mono fun _ => Tokens.announces_block hb)

theorem prints_members (hn : ∀ i ∈ t.injections, i.type.IsQualified ∧ i.name.IsWord)
    (hs : t.Placed fun s => c.item.userLine s.line ≠ 0) (hb : ∀ b ∈ t.code, b.IsMembers name) :
    Prints true (c.members t) (Announces name (t.injections.map (fun i => Tokens.Member.data i.image) ++
      t.code.flatMap fun b => (b.members name).map Tokens.Member.unplaced)) := by
  have hinject := prints_map (R := Announces name) .nil Announces.append fun i hi =>
    prints_injectLine (hn i hi).1 (hn i hi).2 (hs.injections i hi) name
  have hcode := prints_flatMap (R := Announces name) .nil Announces.append fun b hmem =>
    prints_codeLines (hb b hmem) (hs.code b hmem)
  have hend : Prints true "#line default\n" (· = []) := prints_lineDefault (v := []) (.nil rfl)
  refine ((hinject.append hcode Announces.append).append hend ?_)
  rintro ts _ hts rfl
  rwa [List.append_nil]

/-! ## Files -/

/-- The tokens of a file with the namespace and usings of `c` and the one type `d`. -/
def FileTokens (c : WriteScope) (d : TypeDecl) (ts : List Token) : Prop :=
  ∃ us vs ws, ts = us ++ (vs ++ ws) ∧ Spaced c.ns us ∧ Imports c.usings vs ∧ Tokens.Types d ws

theorem declOf_image (c : WriteScope) (hb : ∀ b ∈ t.code, b.IsMembers name) :
    Tokens.declOf { kind := .component, name, base := (t.base.map (·.name)).map (⟨·, {}⟩)
                    route := t.route.map (·.2), span := {} }
      ((t.injections.map (fun i => Tokens.Member.data i.image) ++
        t.code.flatMap fun b => (b.members name).map Tokens.Member.unplaced) ++
          [Tokens.Member.render { ops := c.imageAll t.nodes, span := {} }]) = t.image c name := by
  have hinject : (t.injections.map fun i => Tokens.Member.data i.image).findSome? (·.render?) = none := by
    simp [Tokens.Member.render?]
  have hcode : (t.code.flatMap fun b => (b.members name).map Tokens.Member.unplaced).findSome?
      (·.render?) = none := by
    simp only [List.findSome?_eq_none_iff, List.mem_flatMap, List.mem_map]
    rintro _ ⟨b, hmem, m, hm, rfl⟩
    rw [Tokens.render?_unplaced, (hb b hmem).plain m hm]
    rfl
  have hbase : (t.base.map (·.name)).map (fun n => (⟨n, {}⟩ : TypeRef)) = t.base.map TypeRef.unplaced := by
    rw [Option.map_map]
    rfl
  have hdata : (t.injections.map fun i => Tokens.Member.data i.image).filterMap (·.data?) =
      t.injections.map Injection.image := by
    rw [List.filterMap_map]
    exact congrFun List.filterMap_eq_map' t.injections
  have hmethod : (t.injections.map fun i => Tokens.Member.data i.image).filterMap (·.method?) = [] := by
    simp [Tokens.Member.method?]
  simp only [Tokens.declOf, Template.image, hbase, List.filterMap_append, List.findSome?_append, hinject,
    hcode, hdata, hmethod, List.filterMap_flatMap, List.filterMap_map, Function.comp_def,
    Tokens.data?_unplaced, Tokens.method?_unplaced, List.map_flatMap, List.map_filterMap]
  simp [Tokens.Member.data?, Tokens.Member.method?, Tokens.Member.render?]

theorem prints_file (hn : name.IsWord) (hns : c.ns = [] ∨ c.ns.IsQualified)
    (hus : ∀ u ∈ c.usings, u.IsQualified) (hc : c.Copies t)
    (hs : t.Placed fun s => c.item.userLine s.line ≠ 0) (hnodes : ∀ n ∈ t.nodes, c.Printable n)
    (hb : ∀ b ∈ t.code, b.IsMembers name) :
    Prints true (c.header t name ++ (c.members t ++ ((c.render t).code ++ "\x7d\n")))
      (c.FileTokens (t.image c name)) := by
  have hbody := (prints_members hc.injections hs hb).joined
    ((prints_render hnodes).joined prints_rbrace)
  have hdecl := (prints_declarationLines hn hc.base hs.base).joined hbody
  have hfile := (prints_namespaceLine hns).joined ((prints_usings hus).joined
    ((prints_routeLine hs.route).joined hdecl))
  rw [header_eq]
  simp only [List.append_assoc] at hfile ⊢
  refine hfile.mono ?_
  rintro _ ⟨us, _, rfl, hus, vs, _, rfl, hvs, rs, _, rfl, hrs, _, _, rfl, ⟨s, s', s'', bs, rfl, hbs⟩,
    ms, _, rfl, hms, ops, _, rfl, hops, s₃, _, rfl, rfl⟩
  have hhead := Tokens.heads_component name (s := s) (p := s') (q := s'') hrs hbs
  have htype := Tokens.types_component (s := s₃) hhead hms hops
  rw [declOf_image c hb] at htype
  exact ⟨us, vs, _, by simp, hus, hvs, htype⟩

end WriteScope

/-! ## Items -/

namespace TemplateOptions

/-- The names in the options are words with dots between them; there may be no root namespace. -/
structure Named (o : TemplateOptions) : Prop where
  root : o.rootNamespace = [] ∨ o.rootNamespace.IsQualified
  imports : ∀ u ∈ o.imports, u.IsQualified

instance (o : TemplateOptions) : Decidable o.Named :=
  decidable_of_iff ((o.rootNamespace = [] ∨ o.rootNamespace.IsQualified) ∧
      ∀ u ∈ o.imports, u.IsQualified)
    ⟨fun h => ⟨h.1, h.2⟩, fun h => ⟨h.root, h.imports⟩⟩

end TemplateOptions

namespace Template

theorem mem_of_mem_allUsings {t : Template} {imports : List Bytes} {u : Bytes}
    (h : u ∈ t.allUsings imports) : u ∈ imports ∨ ∃ v ∈ t.usings, v.ns = u := by
  have hfold {us vs : List Bytes}
      (hu : u ∈ us.foldl (fun us u => if u ∈ us then us else us ++ [u]) vs) : u ∈ vs ∨ u ∈ us := by
    induction us generalizing vs with
    | nil => exact .inl hu
    | cons w us ih =>
      rw [List.foldl_cons] at hu
      rcases ih hu with hmem | hmem
      · split at hmem
        · exact .inl hmem
        · rcases List.mem_append.1 hmem with hmem | hmem
          · exact .inl hmem
          · exact .inr (List.mem_cons.2 (.inl (List.mem_singleton.1 hmem)))
      · exact .inr (List.mem_cons_of_mem _ hmem)
  rcases hfold h with hmem | hmem
  · cases hmem
  · simpa using hmem

end Template

/-- The file is read without a report, and it has one type: `d`, up to places. -/
structure SyntaxTree.Declares (tree : SyntaxTree) (ns : Bytes) (usings : List Bytes) (d : TypeDecl) :
    Prop where
  diagnostics : tree.diagnostics = []
  ns : tree.ns = ns
  usings : tree.usings.map (·.ns) = usings
  types : tree.types.map TypeDecl.unplaced = [d]

namespace Item

/-- The template of an item. -/
abbrev template (i : Item) : Template := Template.parse i.content

/-- Where the component of an item is written. -/
abbrev scope (i : Item) (o : TemplateOptions) (table : SymbolTable) : WriteScope :=
  i.template.writeScope i o table

/-- The component of an item. -/
abbrev image (i : Item) (o : TemplateOptions) (table : SymbolTable) : TypeDecl :=
  i.template.image (i.scope o table) (ComponentName.ofPath i.path)

variable {i : Item} {o : TemplateOptions} {table : SymbolTable}

theorem reports_write {t : Template} {name : Bytes} :
    (t.write i o (some table) name).reports = ((t.writeScope i o table).nodes t.nodes).reports := by
  change (Written.text _ ++ (t.writeScope i o table).render t ++ Written.text _).reports = _
  simp [WriteScope.render, WriteScope.reports_append, WriteScope.reports_text]

/-- Nothing that was reported of the markup of an item that was written without errors is an error. -/
theorem not_faulty_nodes_of_generate
    (h : Diagnostic.hasErrors (i.generate o (some table)).value.diagnostics = false) :
    ¬ Faulty ((i.scope o table).nodes i.template.nodes).reports := by
  rintro ⟨r, hr, he⟩
  have hmem : i.diagnostic r ∈ (i.generate o (some table)).value.diagnostics := by
    rw [value_generate, if_pos (isValid_of_generate h), reports_write]
    exact List.mem_append_right _ (List.mem_map.2 ⟨r, hr, rfl⟩)
  have hne := List.any_eq_false.1 h _ hmem
  simp [Diagnostic.isError, diagnostic, Diagnostic.located, he] at hne

theorem not_faulty_node_of_generate
    (h : Diagnostic.hasErrors (i.generate o (some table)).value.diagnostics = false) {n : Node}
    (hn : n ∈ i.template.nodes) : ¬ Faulty ((i.scope o table).node n).reports := by
  intro hf
  refine not_faulty_nodes_of_generate h (hf.mono ?_)
  exact WriteScope.mem_allParts (F := fun ns => ((i.scope o table).nodes ns).reports)
    (fun m ns => by rw [WriteScope.nodes, WriteScope.reports_append]) hn

theorem printable_of_generate
    (h : Diagnostic.hasErrors (i.generate o (some table)).value.diagnostics = false) (hl : i.Numbered)
    (hcodes : ∀ code ∈ (i.scope o table).allCodes i.template.nodes, TokenStream.Inline {} code)
    (hc : (i.scope o table).Copies i.template) :
    ∀ n ∈ i.template.nodes, (i.scope o table).Printable n := by
  intro n hn
  have part {α : Type} {f : Node → List α} {F : List Node → List α}
      (hF : ∀ n ns, F (n :: ns) = f n ++ F ns) : f n ⊆ F i.template.nodes :=
    WriteScope.mem_allParts hF hn
  refine ⟨Template.sound_parse (not_faulty_of_generate h) n hn, hl.placed_parse.nodes n hn,
    not_faulty_node_of_generate h hn, ?_, ?_, ?_⟩
  · exact fun code hcode => hcodes code (part (fun n ns => by rw [WriteScope.allCodes]) hcode)
  · exact fun type htype => hc.components type (part (fun n ns => by rw [WriteScope.allComponents]) htype)
  · exact fun p hp => hc.parameters p (part (fun n ns => by rw [WriteScope.allParameters]) hp)

theorem code_generate (h : ComponentName.isValid (ComponentName.ofPath i.path) = true) :
    (i.generate o (some table)).value.code =
      (i.scope o table).header i.template (ComponentName.ofPath i.path) ++
        ((i.scope o table).members i.template ++
          (((i.scope o table).render i.template).code ++ "\x7d\n")) := by
  rw [value_generate, if_pos h]
  change (Written.text ((i.scope o table).header i.template _ ++ (i.scope o table).members i.template)
    ++ (i.scope o table).render i.template ++ Written.text "\x7d\n").code = _
  simp only [WriteScope.code_append, WriteScope.code_text, List.append_assoc]

/-- The file of an item is read as the component that its template stands for. -/
theorem declares_generate (file : Bytes)
    (h : Diagnostic.hasErrors (i.generate o (some table)).value.diagnostics = false) (hl : i.Numbered)
    (hsize : (i.generate o (some table)).value.code.length < 4294967296) (ho : o.Named)
    (hcodes : ∀ code ∈ (i.scope o table).allCodes i.template.nodes, TokenStream.Inline {} code)
    (hc : (i.scope o table).Copies i.template)
    (hb : ∀ b ∈ i.template.code, b.IsMembers (ComponentName.ofPath i.path)) :
    (SyntaxTree.parse (i.generate o (some table)).value.code file).Declares
      (ComponentName.namespaceOf o.rootNamespace i.path) (i.template.allUsings o.imports)
      (i.image o table) := by
  have hvalid := isValid_of_generate h
  have hns := ComponentName.isQualified_namespaceOf ho.root i.path
  have hus : ∀ u ∈ i.template.allUsings o.imports, u.IsQualified := by
    intro u hu
    rcases Template.mem_of_mem_allUsings hu with hu | ⟨v, hv, rfl⟩
    · exact ho.imports u hu
    · exact hc.usings v hv
  have hprints := WriteScope.prints_file (ComponentName.isWord_of_isValid hvalid)
    (c := i.scope o table) hns hus hc hl.placed_parse (printable_of_generate h hl hcodes hc) hb
  rw [code_generate hvalid] at hsize
  obtain ⟨_, e, ⟨us, vs, ws, rfl, hus, hvs, hws⟩, he, hscan⟩ := hprints.scan hsize
  obtain ⟨items, hitems, hread⟩ := Tokens.exists_unitItems hus hvs hws he
  obtain ⟨hreadNs, hreadUsings, hreadTypes⟩ := hread file []
  rw [code_generate hvalid, SyntaxTree.parse, hscan]
  simp only [List.append_assoc, hitems]
  exact ⟨rfl, hreadNs, hreadUsings, hreadTypes⟩

/-- Writing a template as a file and reading the file gives the component that the template stands
for, if its expressions have no comments and no hash signs, the names that are copied are words, and
the code blocks are members. The lines of the template and the bytes of the file have to be numbered in
32 bits: from offset 2³² on no line start is seen, so that the directives there would not be read. -/
theorem parse_generate_eq_image (file : Bytes)
    (h : Diagnostic.hasErrors (i.generate o (some table)).value.diagnostics = false) (hl : i.Numbered)
    (hsize : (i.generate o (some table)).value.code.length < 4294967296)
    (hcodes : ∀ code ∈ (i.scope o table).allCodes i.template.nodes, TokenStream.Plain code)
    (ho : o.Named) (hc : (i.scope o table).Copies i.template)
    (hb : ∀ b ∈ i.template.code, b.IsMembers (ComponentName.ofPath i.path)) :
    (SyntaxTree.parse (i.generate o (some table)).value.code file).Declares
      (ComponentName.namespaceOf o.rootNamespace i.path) (i.template.allUsings o.imports)
      (i.image o table) :=
  declares_generate file h hl hsize ho (fun code hcode => (hcodes code hcode).inline) hc hb

/-! ### A component with all directives -/

/-- A template with every directive, and with markup that means an element and a component. -/
def boardItem : Item := .ofFile
  { path := "Boards/Board.view"
    content := "@page \"/boards\"\n@using Kit\n@inject Clock Time\n@inherits Kit.Panel
<p class=\"note\" title=\"@Title\">Now: @(Count + 1)</p>
<Panel Title=\"Next\">@Count</Panel>
@code { field int Count = 3; method Reset() { Count = 0; } }\n"
    kind := .template } "" "/app/"

def boardOptions : TemplateOptions := { rootNamespace := "App", imports := ["Kit"] }

def boardTable : SymbolTable := .ofReferences [
  { name := "Kit", dependencies := []
    types := [
      { ns := "Kit", name := "Panel", kind := .component, library := "Kit"
        members := [⟨.param, "Title", "string"⟩, ⟨.param, "ChildContent", "fragment"⟩] }] }]

theorem parse_generate_eq_image_board :
    Diagnostic.hasErrors (boardItem.generate boardOptions (some boardTable)).value.diagnostics = false
      ∧ boardItem.Numbered
      ∧ (boardItem.generate boardOptions (some boardTable)).value.code.length < 4294967296
      ∧ (boardItem.scope boardOptions boardTable).allCodes boardItem.template.nodes =
        ["Title", "(Count + 1)", "Count"]
      ∧ (∀ code ∈ (boardItem.scope boardOptions boardTable).allCodes boardItem.template.nodes,
        TokenStream.Plain code)
      ∧ boardOptions.Named
      ∧ (boardItem.scope boardOptions boardTable).Copies boardItem.template
      ∧ (∀ b ∈ boardItem.template.code, b.IsMembers "Board")
      ∧ (SyntaxTree.parse (boardItem.generate boardOptions (some boardTable)).value.code
          "Board").Declares "App.Boards" ["Kit"] (boardItem.image boardOptions boardTable) := by
  -- All of this is read off the template, which is parsed once for it.
  obtain ⟨hclean, hsize, hallCodes, hcodes, hl, hc, hb, husings⟩ : Diagnostic.hasErrors
        (boardItem.generate boardOptions (some boardTable)).value.diagnostics = false
      ∧ (boardItem.generate boardOptions (some boardTable)).value.code.length < 4294967296
      ∧ (boardItem.scope boardOptions boardTable).allCodes boardItem.template.nodes =
        ["Title", "(Count + 1)", "Count"]
      ∧ (∀ code ∈ (boardItem.scope boardOptions boardTable).allCodes boardItem.template.nodes,
        TokenStream.Plain code)
      ∧ boardItem.Numbered ∧ (boardItem.scope boardOptions boardTable).Copies boardItem.template
      ∧ (∀ b ∈ boardItem.template.code, b.IsMembers "Board")
      ∧ boardItem.template.allUsings boardOptions.imports = ["Kit"] := by
    rw [boardItem]
    repeat rw [Bytes.ofString_ofList]
    decide +kernel
  have ho : boardOptions.Named := by decide +kernel
  refine ⟨hclean, hl, hsize, hallCodes, hcodes, ho, hc, hb, ?_⟩
  have hread := parse_generate_eq_image "Board" hclean hl hsize hcodes ho hc hb
  have hns : ComponentName.namespaceOf boardOptions.rootNamespace boardItem.path = "App.Boards" := by
    decide +kernel
  rwa [hns, husings] at hread

end Item

/-! ## Markup without directives -/

namespace WriteScope

variable {c : WriteScope}

theorem exists_of_mem_allParts {α : Type} {f : Node → List α} {F : List Node → List α}
    (hnil : F [] = []) (hF : ∀ n ns, F (n :: ns) = f n ++ F ns) {ns : List Node} {x : α}
    (hx : x ∈ F ns) : ∃ n ∈ ns, x ∈ f n := by
  induction ns with
  | nil =>
    rw [hnil] at hx
    cases hx
  | cons m ns ih =>
    rw [hF] at hx
    rcases List.mem_append.1 hx with hx | hx
    · exact ⟨m, by simp, hx⟩
    · obtain ⟨n, hn, hx⟩ := ih hx
      exact ⟨n, by simp [hn], hx⟩

/-- Markup inside of an element that is written without errors. -/
theorem not_faulty_child {span : Span} {tag : Bytes} {attributes : List Attribute}
    {children : List Node} {n : Node} (hn : n ∈ children)
    (h : ¬ Faulty (c.node (.element span tag attributes children)).reports) :
    ¬ Faulty (c.node n).reports := by
  intro hf
  refine h ((hf.mono ?_).mono reports_nodes_subset)
  exact mem_allParts (F := fun ns => (c.nodes ns).reports)
    (fun m ns => by rw [nodes, reports_append]) hn

/-- An attribute of a component that is written without errors has a name that is an identifier, and
its value is written without errors. -/
theorem isIdentifier_of_not_faulty {type : TypeId} {a : Attribute}
    (h : ¬ Faulty (c.componentAttribute type a).reports) :
    a.plainName.isIdentifier = true ∧ ¬ Faulty (c.argument type a).reports := by
  rw [componentAttribute] at h
  split at h
  · next hname =>
    refine ⟨hname, ?_⟩
    simpa only [reports_append, reports_text, List.nil_append, List.append_nil] using h
  · exact absurd ⟨_, List.mem_singleton.2 rfl, rfl⟩ h

/-- The names of the parameters that are written are identifiers. -/
theorem isIdentifier_of_mem_parameters {n : Node} (hs : n.Sound) (h : ¬ Faulty (c.node n).reports) :
    ∀ p ∈ c.parameters n, p.isIdentifier = true := by
  induction hs with
  | text | expr => simp [parameters]
  | @element span tag attributes children _ _ ih =>
    intro p hp
    rw [parameters] at hp
    rcases List.mem_append.1 hp with hp | hp
    · cases hm : c.meaning? span tag with
      | none =>
        rw [hm] at hp
        cases hp
      | some type =>
        rw [hm, Option.elim_some] at hp
        obtain ⟨a, ha, rfl⟩ := List.mem_map.1 hp
        exact (isIdentifier_of_not_faulty fun hf =>
          h (hf.mono (reports_componentAttribute_subset hm ha))).1
    · obtain ⟨m, hm, hp⟩ := exists_of_mem_allParts (by rw [allParameters])
        (fun m ns => by rw [allParameters]) hp
      exact ih m hm (not_faulty_child hm h) p hp

/-- The expressions that are written can be parsed. -/
theorem isSome_of_mem_codes {n : Node} (hs : n.Sound) (h : ¬ Faulty (c.node n).reports) :
    ∀ code ∈ c.codes n, (Expr.parse? code).isSome = true := by
  induction hs with
  | text => simp [codes]
  | expr hparse => simpa [codes] using hparse
  | @element span tag attributes children hattributes _ ih =>
    intro code hcode
    rw [codes] at hcode
    rcases List.mem_append.1 hcode with hcode | hcode
    · obtain ⟨a, ha, hcode⟩ := List.mem_filterMap.1 hcode
      cases hm : c.meaning? span tag with
      | none =>
        rw [hm] at hcode
        exact isSome_of_given (hattributes a ha) hcode
      | some type =>
        rw [hm] at hcode
        have hargument := isIdentifier_of_not_faulty fun hf =>
          h (hf.mono (reports_componentAttribute_subset hm ha))
        exact (code_argument (hattributes a ha) hargument.2).2 code hcode
    · obtain ⟨m, hm, hcode⟩ := exists_of_mem_allParts (by rw [allCodes])
        (fun m ns => by rw [allCodes]) hcode
      exact ih m hm (not_faulty_child hm h) code hcode

end WriteScope

namespace Template

/-- The template has no directives. -/
structure IsMarkup (t : Template) : Prop where
  route : t.route = none
  usings : t.usings = []
  injections : t.injections = []
  base : t.base = none
  code : t.code = []

end Template

namespace Item

variable {i : Item} {o : TemplateOptions} {table : SymbolTable}

theorem copies_of_isMarkup
    (h : Diagnostic.hasErrors (i.generate o (some table)).value.diagnostics = false)
    (ht : table.Nameable) (hm : i.template.IsMarkup)
    (hparams : ∀ p ∈ (i.scope o table).allParameters i.template.nodes, Keyword.ofText? p = none) :
    (i.scope o table).Copies i.template where
  usings := by simp [hm.usings]
  base := by simp [hm.base]
  injections := by simp [hm.injections]
  components type htype := by
    obtain ⟨-, s, hs, -⟩ := WriteScope.means_allComponents _ type htype
    exact ht.nameOf hs
  parameters p hp := by
    refine ⟨?_, hparams p hp⟩
    obtain ⟨n, hn, hp⟩ := WriteScope.exists_of_mem_allParts (by rw [WriteScope.allParameters])
      (fun m ns => by rw [WriteScope.allParameters]) hp
    exact WriteScope.isIdentifier_of_mem_parameters
      (Template.sound_parse (not_faulty_of_generate h) n hn) (not_faulty_node_of_generate h hn) p hp

/-- Markup that is accepted is read without a report, and each of its expressions as what it is
alone, if no expression has a directive or ends with a comment and no parameter has the name of a
keyword. Lines and bytes have to be numbered in 32 bits. -/
theorem parse_generate_markup (file : Bytes)
    (h : Diagnostic.hasErrors (i.generate o (some table)).value.diagnostics = false) (hl : i.Numbered)
    (hsize : (i.generate o (some table)).value.code.length < 4294967296) (ho : o.Named)
    (ht : table.Nameable) (hm : i.template.IsMarkup)
    (hcodes : ∀ code ∈ (i.scope o table).allCodes i.template.nodes, TokenStream.Inline {} code)
    (hparams : ∀ p ∈ (i.scope o table).allParameters i.template.nodes, Keyword.ofText? p = none) :
    (∀ code ∈ (i.scope o table).allCodes i.template.nodes, (Expr.parse? code).isSome = true)
      ∧ (SyntaxTree.parse (i.generate o (some table)).value.code file).Declares
        (ComponentName.namespaceOf o.rootNamespace i.path) (i.template.allUsings o.imports)
        { kind := .component, name := ComponentName.ofPath i.path, span := {}
          render := some ⟨(i.scope o table).imageAll i.template.nodes, {}⟩ } := by
  refine ⟨fun code hcode => ?_, ?_⟩
  · obtain ⟨n, hn, hcode⟩ := WriteScope.exists_of_mem_allParts (by rw [WriteScope.allCodes])
      (fun m ns => by rw [WriteScope.allCodes]) hcode
    exact WriteScope.isSome_of_mem_codes (Template.sound_parse (not_faulty_of_generate h) n hn)
      (not_faulty_node_of_generate h hn) code hcode
  · have hread := declares_generate file h hl hsize ho hcodes (copies_of_isMarkup h ht hm hparams)
      (by simp [hm.code])
    simpa [image, Template.image, hm.route, hm.base, hm.injections, hm.code] using hread

/-- Markup with a comment inside of an expression and a hash sign inside of a string. -/
def noteItem : Item := .ofFile
  { path := "Note.view"
    content := "<p class=\"@(1 /* one */ + 2)\">Hi</p><Panel Title='@\"#1\"'/>"
    kind := .template } "" "/app/"

theorem parse_generate_markup_note :
    Diagnostic.hasErrors (noteItem.generate boardOptions (some boardTable)).value.diagnostics = false
      ∧ noteItem.Numbered
      ∧ (noteItem.generate boardOptions (some boardTable)).value.code.length < 4294967296
      ∧ boardOptions.Named ∧ boardTable.Nameable ∧ noteItem.template.IsMarkup
      ∧ (noteItem.scope boardOptions boardTable).allCodes noteItem.template.nodes =
        ["(1 /* one */ + 2)", "\"#1\""]
      ∧ (∀ code ∈ (noteItem.scope boardOptions boardTable).allCodes noteItem.template.nodes,
        TokenStream.Inline {} code)
      ∧ (noteItem.scope boardOptions boardTable).allParameters noteItem.template.nodes = ["Title"]
      ∧ (∀ p ∈ (noteItem.scope boardOptions boardTable).allParameters noteItem.template.nodes,
        Keyword.ofText? p = none)
      ∧ (SyntaxTree.parse (noteItem.generate boardOptions (some boardTable)).value.code
          "Note").Declares "App" ["Kit"]
        { kind := .component, name := "Note", span := {}
          render := some ⟨(noteItem.scope boardOptions boardTable).imageAll noteItem.template.nodes, {}⟩ } := by
  have ho : boardOptions.Named := by decide +kernel
  have ht : boardTable.Nameable := by decide +kernel
  -- All of this is read off the template, which is parsed once for it.
  obtain ⟨hclean, hl, hsize, hallCodes, hcodes, hallParameters, hparams, husings, hdirectives⟩ :
      Diagnostic.hasErrors (noteItem.generate boardOptions (some boardTable)).value.diagnostics = false
      ∧ noteItem.Numbered
      ∧ (noteItem.generate boardOptions (some boardTable)).value.code.length < 4294967296
      ∧ (noteItem.scope boardOptions boardTable).allCodes noteItem.template.nodes =
        ["(1 /* one */ + 2)", "\"#1\""]
      ∧ (∀ code ∈ (noteItem.scope boardOptions boardTable).allCodes noteItem.template.nodes,
        TokenStream.Inline {} code)
      ∧ (noteItem.scope boardOptions boardTable).allParameters noteItem.template.nodes = ["Title"]
      ∧ (∀ p ∈ (noteItem.scope boardOptions boardTable).allParameters noteItem.template.nodes,
        Keyword.ofText? p = none)
      ∧ noteItem.template.allUsings boardOptions.imports = ["Kit"]
      ∧ noteItem.template.route = none ∧ noteItem.template.usings = []
      ∧ noteItem.template.injections = [] ∧ noteItem.template.base = none
      ∧ noteItem.template.code = [] := by
    rw [noteItem]
    repeat rw [Bytes.ofString_ofList]
    decide +kernel
  obtain ⟨hroute, husing, hinjections, hbase, hcode⟩ := hdirectives
  have hm : noteItem.template.IsMarkup := ⟨hroute, husing, hinjections, hbase, hcode⟩
  have hread := (parse_generate_markup "Note" hclean hl hsize ho ht hm hcodes hparams).2
  have hns : ComponentName.namespaceOf boardOptions.rootNamespace noteItem.path = "App" := by
    decide +kernel
  have hname : ComponentName.ofPath noteItem.path = "Note" := by decide +kernel
  rw [hns, husings, hname] at hread
  exact ⟨hclean, hl, hsize, ho, ht, hm, hallCodes, hcodes, hallParameters, hparams, hread⟩

end Item

end ViewCompiler
