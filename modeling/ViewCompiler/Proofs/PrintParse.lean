import ViewCompiler.Proofs.GrammarCompleteness
import ViewCompiler.Proofs.TreePrinter

/-!
Printing and parsing. A printed word is scanned as its own tokens (`TokenStream.scan_print`), and
these derive the tree they were printed from, so a printable tree is read back, up to places
(`SyntaxTree.parse_print`).
-/

namespace ViewCompiler

open Grammar (Word)

/-! ## Words that can be written -/

namespace Grammar.Word

@[simp] theorem spellable_nil : Word.Spellable [] := by simp [Word.Spellable]

@[simp] theorem spellable_cons {k : TokenKind} {w : Word} :
    Word.Spellable (k :: w) ↔ k.Spellable ∧ w.Spellable := List.forall_mem_cons

@[simp] theorem spellable_append {v w : Word} :
    Word.Spellable (v ++ w) ↔ v.Spellable ∧ w.Spellable := List.forall_mem_append

@[simp] theorem spellable_parenthesized {w : Word} : w.parenthesized.Spellable ↔ w.Spellable := by
  simp [parenthesized, TokenKind.Spellable]

@[simp] theorem spellable_braced {w : Word} : w.braced.Spellable ↔ w.Spellable := by
  simp [braced, TokenKind.Spellable]

theorem spellable_commas {ws : List Word} (h : ∀ w ∈ ws, w.Spellable) : (commas ws).Spellable := by
  induction ws with
  | nil => simp [commas]
  | cons w ws ih =>
    rw [List.forall_mem_cons] at h
    cases ws with
    | nil => simpa [commas] using h.1
    | cons v vs =>
      have hrest := ih h.2
      simp only [commas, List.intercalate, List.intersperse] at hrest ⊢
      simp_all [TokenKind.Spellable]

theorem spellable_flatMap {α : Type} {f : α → Word} {as : List α} (h : ∀ a ∈ as, (f a).Spellable) :
    Word.Spellable (as.flatMap f) := by
  intro k hk
  obtain ⟨a, ha, hk⟩ := List.mem_flatMap.1 hk
  exact h a ha k hk

end Grammar.Word

theorem Bytes.IsQualified.spellable {n : Bytes} (h : n.IsQualified) : n.nameWord.Spellable := by
  induction h with
  | word hw => simpa [Bytes.nameWord_word hw, TokenKind.Spellable] using hw
  | dot hw _ ih => simpa [Bytes.nameWord_dot hw, TokenKind.Spellable] using ⟨hw, ih⟩

theorem TypeRef.Printable.spellable {t : TypeRef} (h : t.Printable) : t.name.nameWord.Spellable := by
  rcases h with h | h
  · obtain ⟨k, -, -, hw⟩ := Bytes.exists_keyword_of_isBuiltinType h
    simp [hw, TokenKind.Spellable]
  · exact h.spellable

namespace Expr

theorem spellable_guarded {q : Option Precedence} {e : Expr} {w : Word} :
    (e.guarded q w).Spellable ↔ w.Spellable := by
  rw [guarded]
  split <;> simp

theorem Printable.spellable {e : Expr} (h : e.Printable) : e.word.Spellable := by
  induction e with
  | int => simpa [word, TokenKind.Spellable, Printable] using h
  | string => simp [word, TokenKind.Spellable]
  | bool _ v => cases v <;> simp [word, TokenKind.Spellable]
  | name => simpa [word, TokenKind.Spellable, Printable] using h
  | unary _ op _ ih => cases op <;> simpa [word, TokenKind.Spellable, spellable_guarded] using ih h
  | binary _ _ _ _ ihl ihr =>
    simpa [word, TokenKind.Spellable, spellable_guarded] using ⟨ihl h.1, ihr h.2⟩

end Expr

namespace Stmt

mutual

theorem Printable.spellable {c : Stmt} (h : c.Printable) : c.word.Spellable := by
  cases c with
  | assign _ n e => simpa [word, TokenKind.Spellable] using ⟨h.1, Expr.Printable.spellable h.2⟩
  | call _ receiver m es =>
    obtain ⟨hreceiver, hm, hes⟩ := h
    have hargs : (Word.commas (es.map Expr.word)).Spellable :=
      Word.spellable_commas (List.forall_mem_map.2 fun e he => (hes e he).spellable)
    cases receiver with
    | none => simp [word, TokenKind.Spellable, hm, hargs]
    | some n => simp [word, TokenKind.Spellable, hm, hargs, hreceiver n rfl]
  | cond _ e ss ss' =>
    simp [word, TokenKind.Spellable, Expr.Printable.spellable h.1, AllPrintable.spellable h.2.1,
      AllPrintable.spellable_elseWord h.2.2]
  | ret => simp [word, TokenKind.Spellable]

theorem AllPrintable.spellable {ss : List Stmt} (h : AllPrintable ss) : (allWord ss).Spellable := by
  cases ss with
  | nil => simp [allWord]
  | cons c ss => simp [allWord, Printable.spellable h.1, AllPrintable.spellable h.2]

theorem AllPrintable.spellable_elseWord {ss : List Stmt} (h : AllPrintable ss) :
    (elseWord ss).Spellable := by
  cases ss with
  | nil => simp [elseWord]
  | cons c ss =>
    rw [elseWord]
    split <;> simp [TokenKind.Spellable, Printable.spellable h.1, AllPrintable.spellable h.2]

end

end Stmt

theorem ComponentArg.Printable.spellable {a : ComponentArg} (h : a.Printable) : a.word.Spellable := by
  simpa [ComponentArg.word, TokenKind.Spellable] using ⟨h.1, Expr.Printable.spellable h.2⟩

namespace RenderOp

mutual

theorem Printable.spellable {op : RenderOp} (h : op.Printable) : op.word.Spellable := by
  cases op with
  | openElement | closeElement | text => simp [word, TokenKind.Spellable]
  | attr | value => simpa [word, TokenKind.Spellable] using Expr.Printable.spellable h
  | component _ type args childSpan child =>
    obtain ⟨htype, hargs, -, hall⟩ := h
    have hargs : Word.Spellable (args.flatMap ComponentArg.word) :=
      Word.spellable_flatMap fun a ha => (hargs a ha).spellable
    have hchild := AllPrintable.spellable hall
    cases childSpan <;> simp [word, TokenKind.Spellable, htype.spellable, hargs, hchild]

theorem AllPrintable.spellable {ops : List RenderOp} (h : AllPrintable ops) :
    (allWord ops).Spellable := by
  cases ops with
  | nil => simp [allWord]
  | cons op ops => simp [allWord, Printable.spellable h.1, AllPrintable.spellable h.2]

end

end RenderOp

theorem Parameter.Printable.spellable {p : Parameter} (h : p.Printable) : p.word.Spellable := by
  simpa [Parameter.word, TokenKind.Spellable] using ⟨h.1.spellable, h.2⟩

theorem Tokens.Member.Printable.spellable {m : Tokens.Member} (h : m.Printable) :
    m.word.Spellable := by
  cases m with
  | data m =>
    obtain ⟨kind, type, name, init, s⟩ := m
    have htype := h.type.spellable
    have hname : name.IsWord := h.name
    cases init with
    | none => simp [word, TokenKind.Spellable, htype, hname]
    | some e =>
      have he := Expr.Printable.spellable (h.init e rfl)
      simp [word, TokenKind.Spellable, htype, hname, he]
  | method m =>
    have hparams : (Word.commas (m.params.map Parameter.word)).Spellable :=
      Word.spellable_commas (List.forall_mem_map.2 fun p hp => (h.params p hp).spellable)
    have hbody := Stmt.AllPrintable.spellable h.body
    simp [word, TokenKind.Spellable, h.name, hparams, hbody]
  | render b => simpa [word, TokenKind.Spellable] using RenderOp.AllPrintable.spellable h

theorem TypeDecl.Printable.spellable {d : TypeDecl} (h : d.Printable) : d.word.Spellable := by
  have hroute : (routeWord d.route).Spellable := by
    cases d.route <;> simp [routeWord, TokenKind.Spellable]
  have hbase : (baseWord d.base).Spellable := by
    have hprintable := h.base
    revert hprintable
    cases d.base with
    | none => simp [baseWord]
    | some t => exact fun ht => by simp [baseWord, TokenKind.Spellable, (ht t rfl).spellable]
  have hmembers : Word.Spellable (d.items.flatMap Tokens.Member.word) :=
    Word.spellable_flatMap fun m hm => (h.items m hm).spellable
  simp [word, TokenKind.Spellable, hroute, hbase, hmembers, h.name]

theorem SyntaxTree.Printable.spellable {t : SyntaxTree} (h : t.Printable) : t.word.Spellable := by
  refine Word.spellable_flatMap fun i hi => ?_
  simp only [SyntaxTree.items, List.mem_append, List.mem_map] at hi
  rcases hi with hi | ⟨u, hu, rfl⟩ | ⟨d, hd, rfl⟩
  · split at hi
    · cases hi
    · next hns =>
      obtain rfl := List.mem_singleton.1 hi
      simp [Tokens.UnitItem.word, TokenKind.Spellable, (h.ns.resolve_left hns).spellable]
  · simp [Tokens.UnitItem.word, TokenKind.Spellable, (h.usings u hu).spellable]
  · exact (h.types d hd).spellable

/-! ## Scanning what is printed -/

namespace TokenKind

theorem gap_eq (k : TokenKind) : k.gap = Ascii.lf ∨ k.gap = Ascii.space := by
  cases k with
  | punct p => cases p <;> simp [gap]
  | _ => exact .inr rfl

theorem isBlank_gap (k : TokenKind) : Lexeme.isBlank k.gap = true := by
  rcases k.gap_eq with h | h <;> rw [h] <;> rfl

theorem isNameByte_gap (k : TokenKind) : Ascii.isNameByte k.gap = false := by
  rcases k.gap_eq with h | h <;> rw [h] <;> rfl

end TokenKind

namespace TokenStream

/-- A mark is read as it is in front of a gap. -/
theorem isLexeme_punct (p : Punct) {x : UInt8} (hx : x = Ascii.lf ∨ x = Ascii.space) :
    IsLexeme p.text (some (.punct p)) [x] := by
  rcases hx with rfl | rfl <;> cases p <;> exact ⟨_, _, rfl, fun s ys => by cases s <;> rfl⟩

theorem isLexeme_ofNat {n : Nat} (hn : n ≤ Lexeme.maxInt) {x : UInt8}
    (hx : Ascii.isDigit x = false) (v : Bytes) :
    IsLexeme (Bytes.ofNat n) (some (.int (Bytes.ofNat n) n)) (x :: v) := by
  have hdigits : ∀ b ∈ Bytes.ofNat n, Ascii.isDigit b = true := fun b hb =>
    Bytes.isDigit_of_mem_ofNat hb
  have hvalue := Bytes.decimalValue_ofNat n
  cases hw : Bytes.ofNat n with
  | nil => exact absurd hw (Bytes.ofNat_ne_nil n)
  | cons b w =>
    rw [hw] at hdigits hvalue
    obtain ⟨hb, hrest⟩ := List.forall_mem_cons.1 hdigits
    refine ⟨b, w, rfl, fun s ys => ?_⟩
    have htake : w.takeWhile Ascii.isDigit = w := List.takeWhile_eq_self_iff.2 hrest
    have hdrop : w.dropWhile Ascii.isDigit = [] := List.dropWhile_eq_nil_iff.2 hrest
    rw [ofText_of_isDigit hb, Lexeme.ofDigits]
    simp only [List.cons_append, takeWhile_append_of_not hx, dropWhile_append_of_not hx, htake,
      hdrop, hvalue, if_neg (Nat.not_lt.2 hn)]
    rfl

theorem isLexeme_spelling {k : TokenKind} (h : k.Spellable) : IsLexeme k.spelling (some k) [k.gap] := by
  cases k with
  | identifier n =>
    have hlexeme := isLexeme_word h.1 (TokenKind.isNameByte_gap (.identifier n)) []
    rwa [wordKind, h.2] at hlexeme
  | int d v =>
    obtain ⟨rfl, hv⟩ := h
    exact isLexeme_ofNat hv rfl []
  | string t => exact isLexeme_quote t _
  | keyword w =>
    have hw : w.text.isIdentifier = true := by cases w <;> rfl
    have hlexeme := isLexeme_word hw (TokenKind.isNameByte_gap (.keyword w)) []
    have hkind : wordKind w.text = .keyword w := by cases w <;> rfl
    rwa [hkind] at hlexeme
  | punct p => exact isLexeme_punct p (TokenKind.gap_eq _)
  | eof => cases h

theorem exists_scans_print {w : Word} (h : w.Spellable) (c : Cursor) :
    ∃ ts c', Scans c w.print ts c' [] ∧ ts.map (·.kind) = w := by
  induction w generalizing c with
  | nil => exact ⟨[], c, .done, rfl⟩
  | cons k w ih =>
    rw [Word.spellable_cons] at h
    obtain ⟨c₁, htoken⟩ := scans_lexeme (isLexeme_spelling h.1) c (Word.print w)
    obtain ⟨c₂, hgap⟩ := scans_lexeme (isLexeme_blank k.isBlank_gap []) c₁ (Word.print w)
    obtain ⟨ts, c', hrest, hkinds⟩ := ih h.2 c₂
    have hs := (htoken.trans hgap).trans hrest
    refine ⟨⟨k, c.span⟩ :: ts, c', ?_, by simp [hkinds]⟩
    simpa [Word.print] using hs

/-- A word is scanned as it was printed. -/
theorem scan_print {w : Word} (h : w.Spellable) :
    (scan w.print).errors = [] ∧ (scan w.print).tokens.map (·.kind) = w ++ [TokenKind.eof] := by
  obtain ⟨ts, c', hs, hkinds⟩ := exists_scans_print h {}
  rw [scan, hs.scanFrom_eq, scanFrom]
  simp [hkinds]

end TokenStream

/-! ## Parsing what is printed -/

namespace Tokens

/-- Tokens that are derivable as an expression are read as it, up to places, up to their end. -/
theorem exists_expr_of_expression {ts : List Token} {e : Expr} {w : Word} (hts : Worded ts)
    (hkinds : ts.map (·.kind) = w ++ [TokenKind.eof]) (h : Grammar.Expression e w) :
    ∃ (e' : Expr) (rest : List Token), expr ts = .ok e' rest ∧ next rest = .eof
      ∧ e'.unplaced = e.unplaced := by
  have hread : expr (bare w ++ [Token.endOfText]) = .ok e.unplaced [.endOfText] :=
    expr_bare h (.of_isBorder rfl)
  obtain ⟨hvalue, herrors, hrest⟩ := hread ▸ similar_expr (like_bare hts hkinds)
  generalize expr ts = r at hvalue herrors hrest ⊢
  obtain ⟨value, errors, rest⟩ := r
  obtain rfl : errors = [] := List.map_eq_nil_iff.1 herrors
  cases hvalue with
  | @some e' _ hsame => exact ⟨e', rest, rfl, hrest.next_eq, by simpa using hsame.1⟩

end Tokens

namespace Expr

/-- A printed expression is read back. -/
theorem map_unplaced_parse?_print {e : Expr} (h : e.Printable) :
    (parse? e.print).map unplaced = some e.unplaced := by
  obtain ⟨hscan, hkinds⟩ := TokenStream.scan_print h.spellable
  obtain ⟨e', rest, hread, hend, hsame⟩ := Tokens.exists_expr_of_expression
    (TokenStream.worded_tokens {} _) hkinds e.expression_word
  have htokens : ofTokens (TokenStream.scan e.print).tokens = .ok e' rest := by
    change Tokens.expr (TokenStream.scan e.print).tokens = .ok e' rest at hread
    rw [ofTokens, hread, Reading.andThen_ok, if_pos hend]
  have hscan : (TokenStream.scan e.print).errors = [] := hscan
  simp [parse?, hscan, htokens, Reading.ok, hsame]

end Expr

namespace SyntaxTree

def unplaced (t : SyntaxTree) : SyntaxTree :=
  { t with
    usings := t.usings.map fun u => { u with span := {} }
    types := t.types.map TypeDecl.unplaced }

theorem unplaced_ofItems (file : Bytes) (items : List Tokens.UnitItem) (ds : List Diagnostic) :
    (ofItems file items ds).unplaced = ofItems file (items.map Tokens.UnitItem.unplaced) ds := by
  simp only [ofItems, unplaced, List.filterMap_map, List.map_filterMap]
  congr
  all_goals
    funext i
    rcases i with _ | _ | _ <;> rfl

/-- A printed tree is read back without diagnostics. -/
theorem unplaced_parse_print {t : SyntaxTree} (h : t.Printable) (file : Bytes) :
    (parse t.print file).unplaced = { t.unplaced with file, diagnostics := [] } := by
  obtain ⟨hscan, hkinds⟩ := TokenStream.scan_print h.spellable
  obtain ⟨items, hparse, hsame⟩ := exists_parse_eq file hscan hkinds (file_word h)
  change parse t.print file = _ at hparse
  rw [hparse, unplaced_ofItems, hsame, ← unplaced_ofItems, ofItems_items]
  rfl

/-- Printing and parsing: a printed tree is read back without diagnostics, and a printed expression
is read back alone, both up to places. -/
theorem print_parse :
    (∀ t : SyntaxTree, t.Printable → ∀ file,
      (parse t.print file).unplaced = { t.unplaced with file, diagnostics := [] }) ∧
    ∀ e : Expr, e.Printable → (Expr.parse? e.print).map Expr.unplaced = some e.unplaced :=
  ⟨fun _ h file => unplaced_parse_print h file, fun _ h => Expr.map_unplaced_parse?_print h⟩

/-- A file with a component that has a member of each kind. -/
def cart : SyntaxTree where
  file := "Cart.il"
  ns := "Shop.Orders"
  usings := [{ ns := "Kit", span := {} }]
  types := [{
    kind := .component
    name := "Cart"
    base := some { name := "Kit.Panel", span := {} }
    route := some "/cart"
    members := [
      { kind := .param, type := { name := "string", span := {} }, name := "title", span := {} },
      { kind := .field, type := { name := "int", span := {} }, name := "count",
        init := some (.int {} 1), span := {} }]
    methods := [{
      name := "add"
      params := [{ type := { name := "int", span := {} }, name := "by", span := {} }]
      body := [
        .cond {} (.binary {} .gt (.name {} "by") (.int {} 0)) [.assign {} "count" (.name {} "by")]
          [.cond {} (.bool {} true) [.ret {}] []],
        .call {} (some "log") "write" [.string {} "\"added\"\n", .name {} "by"]]
      span := {} }]
    render := some {
      ops := [.component {} { name := "Kit.Card", span := {} }
        [{ name := "Title", value := .name {} "title", span := {} }] (some {})
        [.value {} (.binary {} .mul (.name {} "count")
          (.binary {} .sub (.int {} 10) (.unary {} .neg (.int {} 2))))]]
      span := {} }
    span := {} }]

theorem print_parse_cart : cart.Printable ∧
    (parse cart.print "Copy.il").unplaced = { cart.unplaced with file := "Copy.il", diagnostics := [] } ∧
      (Expr.unary {} .not (.binary {} .or (.name {} "a") (.name {} "b"))).Printable ∧
        (Expr.parse? (Expr.print (.unary {} .not (.binary {} .or (.name {} "a") (.name {} "b"))))).map
          Expr.unplaced = some (.unary {} .not (.binary {} .or (.name {} "a") (.name {} "b"))) :=
  ⟨by decide, print_parse.1 cart (by decide) "Copy.il", by decide, print_parse.2 _ (by decide)⟩

end SyntaxTree

end ViewCompiler
