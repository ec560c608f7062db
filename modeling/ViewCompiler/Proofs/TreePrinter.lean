import ViewCompiler.Proofs.Grammar
import ViewCompiler.Proofs.TemplateImage

/-!
The canonical text of syntax trees. A tree is printed as a word of tokens, each with a gap behind it;
parentheses stand only around operands that would be read otherwise. Trees that can be printed
(`SyntaxTree.Printable`) have names that are words and integers that fit, and their words derive them
(`SyntaxTree.file_word`).
-/

namespace ViewCompiler

open Grammar (Word)

/-! ## Tokens -/

namespace TokenKind

/-- A token as it is written. -/
def spelling : TokenKind → Bytes
  | string t => Literal.quote t
  | k => k.text

/-- What is written behind a token: statements and blocks end their lines. -/
def gap : TokenKind → UInt8
  | punct .semicolon | punct .lbrace | punct .rbrace => Ascii.lf
  | _ => Ascii.space

/-- Whether the spelling of a token is scanned as it. -/
def Spellable : TokenKind → Prop
  | identifier n => n.IsWord
  | int d v => d = Bytes.ofNat v ∧ v ≤ Lexeme.maxInt
  | eof => False
  | _ => True

end TokenKind

namespace Grammar

/-- The text of a word. -/
def Word.print (w : Word) : Bytes := w.flatMap fun k => k.spelling ++ [k.gap]

/-- All tokens of the word can be written. -/
def Word.Spellable (w : Word) : Prop := ∀ k ∈ w, k.Spellable

end Grammar

/-! ## Printing -/

/-- The tokens of a dotted name, or the keyword of a built-in type. -/
def Bytes.nameWord (n : Bytes) : Word :=
  ((n.splitOn Ascii.dot).map TokenStream.wordKind).intersperse (.punct .dot)

namespace Grammar.Word

def parenthesized (w : Word) : Word := .punct .lparen :: (w ++ [.punct .rparen])

def braced (w : Word) : Word := .punct .lbrace :: (w ++ [.punct .rbrace])

/-- Words with commas between them. -/
def commas (ws : List Word) : Word := [TokenKind.punct .comma].intercalate ws

end Grammar.Word

namespace Precedence

/-- How many precedences are tighter, if any precedence is given. -/
def heightOf : Option Precedence → Nat
  | some p => p.height
  | none => 0

end Precedence

namespace Expr

/-- The precedence of the operator that joins the expression, if one does. -/
def precedence? : Expr → Option Precedence
  | binary _ op _ _ => some op.precedence
  | _ => none

/-- The word `w` of the expression, in parentheses if only a tighter expression can stand there. -/
def guarded (q : Option Precedence) (e : Expr) (w : Word) : Word :=
  if Precedence.heightOf q < Precedence.heightOf e.precedence? then w.parenthesized else w

def word : Expr → Word
  | int _ v => [.int (Bytes.ofNat v) v]
  | string _ t => [.string t]
  | bool _ true => [.keyword .trueKw]
  | bool _ false => [.keyword .falseKw]
  | name _ n => [.identifier n]
  | unary _ .not e => .punct .bang :: guarded none e e.word
  | unary _ .neg e => .punct .minus :: guarded none e e.word
  | binary _ op l r => guarded (some op.precedence) l l.word ++
      .punct op.mark :: guarded op.precedence.tighter? r r.word

end Expr

namespace Stmt

def isConditional : Stmt → Bool
  | cond .. => true
  | _ => false

mutual

def word : Stmt → Word
  | assign _ n e => .identifier n :: .punct .assign :: (e.word ++ [.punct .semicolon])
  | call _ none m es => .identifier m ::
      ((Word.commas (es.map Expr.word)).parenthesized ++ [.punct .semicolon])
  | call _ (some n) m es => .identifier n :: .punct .dot :: .identifier m ::
      ((Word.commas (es.map Expr.word)).parenthesized ++ [.punct .semicolon])
  | cond _ e ss ss' => .keyword .ifKw ::
      (e.word.parenthesized ++ ((allWord ss).braced ++ elseWord ss'))
  | ret _ => [.keyword .returnKw, .punct .semicolon]

def allWord : List Stmt → Word
  | [] => []
  | c :: ss => c.word ++ allWord ss

/-- The `else` of a conditional: another conditional stands there without braces. -/
def elseWord : List Stmt → Word
  | [] => []
  | c :: ss => .keyword .elseKw ::
      if c.isConditional ∧ ss = [] then c.word else (c.word ++ allWord ss).braced

end

end Stmt

namespace ComponentArg

def word (a : ComponentArg) : Word :=
  .keyword .attrKw :: .identifier a.name :: .punct .assign :: (a.value.word ++ [.punct .semicolon])

end ComponentArg

namespace RenderOp

mutual

def word : RenderOp → Word
  | openElement _ t => [.keyword .openKw, .string t, .punct .semicolon]
  | attr _ n e => .keyword .attrKw :: .string n :: .punct .assign :: (e.word ++ [.punct .semicolon])
  | closeElement _ => [.keyword .closeKw, .punct .semicolon]
  | text _ t => [.keyword .textKw, .string t, .punct .semicolon]
  | value _ e => .keyword .exprKw :: (e.word ++ [.punct .semicolon])
  | component _ type args childSpan child => .keyword .componentKw :: (type.name.nameWord ++
      Word.braced (args.flatMap ComponentArg.word ++
        if childSpan.isSome then .keyword .childKw :: (allWord child).braced else []))

def allWord : List RenderOp → Word
  | [] => []
  | op :: ops => op.word ++ allWord ops

end

end RenderOp

namespace Parameter

def word (p : Parameter) : Word := p.type.name.nameWord ++ [.identifier p.name]

end Parameter

namespace Tokens.Member

def word : Member → Word
  | data m => .keyword m.kind.keyword :: (m.type.name.nameWord ++ .identifier m.name ::
      ((match m.init with
        | none => []
        | some e => .punct .assign :: e.word) ++ [.punct .semicolon]))
  | method m => .keyword .methodKw :: .identifier m.name ::
      ((Word.commas (m.params.map Parameter.word)).parenthesized ++ (Stmt.allWord m.body).braced)
  | render b => .keyword .renderKw :: (RenderOp.allWord b.ops).braced

end Tokens.Member

namespace TypeDecl

/-- The members of a type: data, methods and the render block. -/
def items (d : TypeDecl) : List Tokens.Member :=
  d.members.map .data ++ (d.methods.map .method ++ d.render.toList.map .render)

def routeWord : Option Bytes → Word
  | none => []
  | some r => [.punct .lbracket, .keyword .routeKw, .string r, .punct .rbracket]

def baseWord : Option TypeRef → Word
  | none => []
  | some t => .punct .colon :: t.name.nameWord

def word (d : TypeDecl) : Word :=
  routeWord d.route ++ .keyword d.kind.keyword :: .identifier d.name ::
    (baseWord d.base ++ Word.braced (d.items.flatMap Tokens.Member.word))

end TypeDecl

namespace Tokens.UnitItem

def word : UnitItem → Word
  | .ns n => .keyword .namespaceKw :: (n.nameWord ++ [.punct .semicolon])
  | .using u => .keyword .usingKw :: (u.ns.nameWord ++ [.punct .semicolon])
  | .type d => d.word

end Tokens.UnitItem

namespace SyntaxTree

/-- What stands at the top of the file: the namespace, using directives and types. -/
def items (t : SyntaxTree) : List Tokens.UnitItem :=
  (if t.ns = [] then [] else [.ns t.ns]) ++ (t.usings.map .using ++ t.types.map .type)

def word (t : SyntaxTree) : Word := t.items.flatMap Tokens.UnitItem.word

def print (t : SyntaxTree) : Bytes := t.word.print

end SyntaxTree

namespace Expr

def print (e : Expr) : Bytes := e.word.print

end Expr

/-! ## Trees that can be printed -/

/-- A type as it can be written: a built-in keyword or a dotted name. -/
def TypeRef.Printable (t : TypeRef) : Prop := isBuiltinType t.name = true ∨ t.name.IsQualified

/-- Names are words, and integers fit. -/
def Expr.Printable : Expr → Prop
  | int _ v => v ≤ Lexeme.maxInt
  | name _ n => n.IsWord
  | unary _ _ e => e.Printable
  | binary _ _ l r => l.Printable ∧ r.Printable
  | _ => True

namespace Stmt

mutual

def Printable : Stmt → Prop
  | assign _ n e => n.IsWord ∧ e.Printable
  | call _ receiver m es => (∀ n ∈ receiver, n.IsWord) ∧ m.IsWord ∧ ∀ e ∈ es, e.Printable
  | cond _ e ss ss' => e.Printable ∧ AllPrintable ss ∧ AllPrintable ss'
  | ret _ => True

def AllPrintable : List Stmt → Prop
  | [] => True
  | c :: ss => c.Printable ∧ AllPrintable ss

end

end Stmt

def ComponentArg.Printable (a : ComponentArg) : Prop := a.name.IsWord ∧ a.value.Printable

namespace RenderOp

mutual

/-- Only in a child block there is child content. -/
def Printable : RenderOp → Prop
  | attr _ _ e | value _ e => e.Printable
  | component _ type args childSpan child => type.Printable ∧ (∀ a ∈ args, a.Printable) ∧
      (childSpan = none → child = []) ∧ AllPrintable child
  | _ => True

def AllPrintable : List RenderOp → Prop
  | [] => True
  | op :: ops => op.Printable ∧ AllPrintable ops

end

end RenderOp

/-- Only fields have initial values. -/
structure DataMember.Printable (m : DataMember) : Prop where
  type : m.type.Printable
  name : m.name.IsWord
  init : ∀ e ∈ m.init, e.Printable
  field : m.init.isSome → m.kind = .field

def Parameter.Printable (p : Parameter) : Prop := p.type.Printable ∧ p.name.IsWord

structure MethodDecl.Printable (m : MethodDecl) : Prop where
  name : m.name.IsWord
  params : ∀ p ∈ m.params, p.Printable
  body : Stmt.AllPrintable m.body

structure TypeDecl.Printable (d : TypeDecl) : Prop where
  name : d.name.IsWord
  base : ∀ t ∈ d.base, t.Printable
  members : ∀ m ∈ d.members, m.Printable
  methods : ∀ m ∈ d.methods, m.Printable
  render : ∀ b ∈ d.render, RenderOp.AllPrintable b.ops

/-- A tree of names, integers and arbitrary string literals that can be written. -/
structure SyntaxTree.Printable (t : SyntaxTree) : Prop where
  ns : t.ns = [] ∨ t.ns.IsQualified
  usings : ∀ u ∈ t.usings, u.ns.IsQualified
  types : ∀ d ∈ t.types, d.Printable

/-! Whether a tree can be printed is decidable. -/

instance (t : TypeRef) : Decidable t.Printable := inferInstanceAs (Decidable (_ ∨ _))

def Expr.decidablePrintable : (e : Expr) → Decidable e.Printable
  | int _ v => inferInstanceAs (Decidable (v ≤ Lexeme.maxInt))
  | string _ _ | bool _ _ => .isTrue trivial
  | name _ n => inferInstanceAs (Decidable n.IsWord)
  | unary _ _ e => e.decidablePrintable
  | binary _ _ l r => @instDecidableAnd _ _ l.decidablePrintable r.decidablePrintable

instance : DecidablePred Expr.Printable := Expr.decidablePrintable

namespace Stmt

mutual

def decidablePrintable : (c : Stmt) → Decidable c.Printable
  | assign _ n e => inferInstanceAs (Decidable (n.IsWord ∧ e.Printable))
  | call _ receiver m es => inferInstanceAs
      (Decidable ((∀ n ∈ receiver, n.IsWord) ∧ m.IsWord ∧ ∀ e ∈ es, e.Printable))
  | cond _ e ss ss' => @instDecidableAnd _ _ (inferInstanceAs (Decidable e.Printable))
      (@instDecidableAnd _ _ (decidableAllPrintable ss) (decidableAllPrintable ss'))
  | ret _ => .isTrue trivial

def decidableAllPrintable : (ss : List Stmt) → Decidable (AllPrintable ss)
  | [] => .isTrue trivial
  | c :: ss => @instDecidableAnd _ _ c.decidablePrintable (decidableAllPrintable ss)

end

instance : DecidablePred AllPrintable := decidableAllPrintable

end Stmt

instance (a : ComponentArg) : Decidable a.Printable := inferInstanceAs (Decidable (_ ∧ _))

namespace RenderOp

mutual

def decidablePrintable : (op : RenderOp) → Decidable op.Printable
  | openElement _ _ | closeElement _ | text _ _ => .isTrue trivial
  | attr _ _ e | value _ e => inferInstanceAs (Decidable e.Printable)
  | component _ type args childSpan child =>
    @instDecidableAnd _ _ (inferInstanceAs (Decidable type.Printable))
      (@instDecidableAnd _ _ (inferInstanceAs (Decidable (∀ a ∈ args, a.Printable)))
        (@instDecidableAnd _ _
          (decidable_of_iff (childSpan.isSome = true ∨ child.isEmpty = true)
            (by cases childSpan <;> simp))
          (decidableAllPrintable child)))

def decidableAllPrintable : (ops : List RenderOp) → Decidable (AllPrintable ops)
  | [] => .isTrue trivial
  | op :: ops => @instDecidableAnd _ _ op.decidablePrintable (decidableAllPrintable ops)

end

instance : DecidablePred AllPrintable := decidableAllPrintable

end RenderOp

instance (m : DataMember) : Decidable m.Printable :=
  decidable_of_iff (m.type.Printable ∧ m.name.IsWord ∧ (∀ e ∈ m.init, e.Printable) ∧
      (m.init.isSome → m.kind = .field))
    ⟨fun h => ⟨h.1, h.2.1, h.2.2.1, h.2.2.2⟩, fun h => ⟨h.type, h.name, h.init, h.field⟩⟩

instance (p : Parameter) : Decidable p.Printable := inferInstanceAs (Decidable (_ ∧ _))

instance (m : MethodDecl) : Decidable m.Printable :=
  decidable_of_iff (m.name.IsWord ∧ (∀ p ∈ m.params, p.Printable) ∧ Stmt.AllPrintable m.body)
    ⟨fun h => ⟨h.1, h.2.1, h.2.2⟩, fun h => ⟨h.name, h.params, h.body⟩⟩

instance (d : TypeDecl) : Decidable d.Printable :=
  decidable_of_iff (d.name.IsWord ∧ (∀ t ∈ d.base, t.Printable) ∧ (∀ m ∈ d.members, m.Printable) ∧
      (∀ m ∈ d.methods, m.Printable) ∧ ∀ b ∈ d.render, RenderOp.AllPrintable b.ops)
    ⟨fun h => ⟨h.1, h.2.1, h.2.2.1, h.2.2.2.1, h.2.2.2.2⟩,
      fun h => ⟨h.name, h.base, h.members, h.methods, h.render⟩⟩

instance (t : SyntaxTree) : Decidable t.Printable :=
  decidable_of_iff ((t.ns = [] ∨ t.ns.IsQualified) ∧ (∀ u ∈ t.usings, u.ns.IsQualified) ∧
      ∀ d ∈ t.types, d.Printable)
    ⟨fun h => ⟨h.1, h.2.1, h.2.2⟩, fun h => ⟨h.ns, h.usings, h.types⟩⟩

/-! ## Words that derive expressions -/

namespace Precedence

theorem heightOf_tighter? (p : Precedence) : heightOf p.tighter? + 1 = p.height := by
  cases p <;> rfl

theorem heightOf_injective {q q' : Option Precedence} (h : heightOf q = heightOf q') : q = q' := by
  have hpos (p : Precedence) := p.height_pos
  cases q with
  | none =>
    cases q' with
    | none => rfl
    | some p => exact absurd h (Nat.ne_of_lt p.height_pos)
  | some p =>
    cases q' with
    | none => exact absurd h (Nat.ne_of_gt p.height_pos)
    | some p' =>
      revert h
      cases p <;> cases p' <;> simp [heightOf, height]

end Precedence

namespace Grammar

open Precedence (heightOf)

/-- What is derivable as a tighter expression is derivable as a looser one. -/
theorem Term.loosen {q q' : Option Precedence} {e : Expr} {w : Word} (h : Term q e w)
    (hle : heightOf q ≤ heightOf q') : Term q' e w := by
  induction hn : heightOf q' generalizing q' with
  | zero =>
    have heq : q = q' := Precedence.heightOf_injective (by omega)
    exact heq ▸ h
  | succ n ih =>
    by_cases heq : heightOf q = heightOf q'
    · exact Precedence.heightOf_injective heq ▸ h
    · cases q' with
      | none => cases hn
      | some p =>
        have htighter := p.heightOf_tighter?
        have hheight : heightOf (some p) = p.height := rfl
        exact .tighter (ih (by omega) (by omega))

end Grammar

namespace Expr

open Grammar (Term)
open Precedence (heightOf)

theorem term_guarded {q : Option Precedence} {e : Expr} {w : Word} (h : Term e.precedence? e w) :
    Term q e (e.guarded q w) := by
  have hloosest : heightOf e.precedence? ≤ heightOf (some .disjunction) := by
    cases he : e.precedence? with
    | none => decide
    | some p => exact p.height_le
  rw [guarded]
  split
  · exact (Term.paren (h.loosen hloosest)).loosen (Nat.zero_le _)
  · exact h.loosen (by omega)

theorem term_word (e : Expr) : Term e.precedence? e e.word := by
  induction e with
  | int | string | name => constructor
  | bool _ v => cases v <;> constructor
  | unary _ op _ ih =>
    cases op with
    | not => exact .not (term_guarded ih)
    | neg => exact .neg (term_guarded ih)
  | binary _ _ _ _ ihl ihr => exact .binary (term_guarded ihl) (term_guarded ihr)

/-- A whole expression needs no parentheses. -/
theorem guarded_disjunction (e : Expr) (w : Word) : e.guarded (some .disjunction) w = w := by
  refine if_neg (Nat.not_lt.2 ?_)
  cases he : e.precedence? with
  | none => decide
  | some p => exact p.height_le

theorem expression_word (e : Expr) : Grammar.Expression e e.word :=
  guarded_disjunction e e.word ▸ term_guarded e.term_word

theorem length_guarded (q : Option Precedence) (e : Expr) (w : Word) :
    (e.guarded q w).length = w.length + if heightOf q < heightOf e.precedence? then 2 else 0 := by
  rw [guarded]
  split <;> simp [Grammar.Word.parenthesized]

theorem length_guarded_word_le {q : Option Precedence} {e : Expr} {w : Word} (h : Term q e w) :
    (e.guarded q e.word).length ≤ w.length := by
  induction h with
  | int | string | true | false | name => simp [length_guarded, word, precedence?]
  | not _ ih | neg _ ih => simpa [length_guarded, word, precedence?] using ih
  | paren _ ih =>
    rw [length_guarded] at ih ⊢
    simp only [List.length_cons, List.length_append, List.length_nil]
    split <;> omega
  | @tighter e w p _ ih =>
    have hheight : heightOf p.tighter? < heightOf (some p) := by
      have htighter := p.heightOf_tighter?
      exact Nat.lt_of_succ_le (le_of_eq htighter)
    rw [length_guarded] at ih ⊢
    split at ih <;> split <;> omega
  | @binary l u r v s op _ _ ihl ihr =>
    have hsame : heightOf (binary s op l r).precedence? = heightOf (some op.precedence) := rfl
    rw [length_guarded, if_neg (hsame ▸ Nat.lt_irrefl _), word]
    simp only [List.length_cons, List.length_append]
    omega

/-- No word of an expression is shorter than the printed one: all parentheses in it are needed. -/
theorem length_word_le {e : Expr} {w : Word} (h : Grammar.Expression e w) :
    e.word.length ≤ w.length :=
  guarded_disjunction e e.word ▸ length_guarded_word_le h

example : (Expr.binary {} .sub (.binary {} .sub (.name {} "a") (.name {} "b"))
    (.binary {} .sub (.name {} "c") (.name {} "d"))).print = "a - b - ( c - d ) " := by decide

end Expr

/-! ## Words that derive statements -/

namespace Grammar

theorem commas_derived {α : Type} {P : α → Word → Prop} {f : α → Word} (as : List α)
    (h : ∀ a ∈ as, P a (f a)) : Commas P as (Word.commas (as.map f)) := by
  induction as with
  | nil => exact .nil
  | cons a as ih =>
    rw [List.forall_mem_cons] at h
    cases as with
    | nil => simpa [Word.commas] using Commas.one h.1
    | cons b bs => simpa [Word.commas, List.intercalate, List.intersperse] using Commas.cons h.1 (ih h.2)

end Grammar

namespace Stmt

open Grammar (Statement Statements Conditional Block)

theorem block_braced {ss : List Stmt} {w : Word} (h : Statements ss w) : Block ss w.braced := .intro h

theorem commas_expressions (es : List Expr) :
    Grammar.Commas Grammar.Expression es (Word.commas (es.map Expr.word)) :=
  Grammar.commas_derived es fun e _ => e.expression_word

/-- A conditional is written with `if`. -/
theorem exists_conditional {c : Stmt} {u : Word} (hc : c.isConditional = true) (h : Statement c u) :
    ∃ w, u = .keyword .ifKw :: w ∧ Conditional c w := by
  cases h with
  | conditional hw => exact ⟨_, rfl, hw⟩
  | _ => cases hc

mutual

theorem statement_word (c : Stmt) : Statement c c.word := by
  cases c with
  | assign s n e => exact .assign e.expression_word
  | call s receiver m es =>
    cases receiver with
    | none => simpa [word, Word.parenthesized] using Statement.call (commas_expressions es)
    | some n => simpa [word, Word.parenthesized] using Statement.callOn (commas_expressions es)
  | cond s e ss ss' =>
    have hthen := block_braced (statements_allWord ss)
    refine .conditional ?_
    cases ss' with
    | nil => simpa [elseWord, Word.parenthesized] using Conditional.plain e.expression_word hthen
    | cons c ss' =>
      have helse := statement_word c
      have hrest := statements_allWord ss'
      rw [elseWord]
      split
      · next hc =>
        obtain ⟨hc, rfl⟩ := hc
        obtain ⟨w, hw, helse⟩ := exists_conditional hc helse
        rw [hw]
        simpa [Word.parenthesized] using Conditional.elseIf e.expression_word hthen helse
      · have hblock := block_braced (.cons helse hrest)
        simpa [Word.parenthesized] using Conditional.elseBlock e.expression_word hthen hblock
  | ret s => exact .ret

theorem statements_allWord (ss : List Stmt) : Statements ss (allWord ss) := by
  cases ss with
  | nil => exact .nil
  | cons c ss => exact .cons (statement_word c) (statements_allWord ss)

end

end Stmt

/-! ## Words that derive types and render operations -/

namespace Bytes

open Grammar (Name TypeName)

theorem splitOn_ne_nil (sep : UInt8) (s : Bytes) : s.splitOn sep ≠ [] := by
  by_cases h : sep ∈ s
  · obtain ⟨w, m, rfl, hw⟩ := List.eq_append_cons_of_mem h
    simp [splitOn_append hw]
  · simp [splitOn_of_not_mem h]

theorem nameWord_word {w : Bytes} (h : w.IsWord) : w.nameWord = [.identifier w] := by
  rw [nameWord, splitOn_of_not_mem h.dot_notMem, List.map_singleton, List.intersperse_singleton,
    TokenStream.wordKind, h.2]

theorem nameWord_dot {w : Bytes} (h : w.IsWord) (m : Bytes) :
    nameWord (w ++ Ascii.dot :: m) = .identifier w :: .punct .dot :: m.nameWord := by
  have hkind : TokenStream.wordKind w = .identifier w := by
    rw [TokenStream.wordKind, h.2]
  rw [nameWord, nameWord, splitOn_append h.dot_notMem, List.map_cons, hkind]
  cases hm : m.splitOn Ascii.dot with
  | nil => exact absurd hm (splitOn_ne_nil _ _)
  | cons => rfl

theorem IsQualified.name_nameWord {n : Bytes} (h : n.IsQualified) : Name n n.nameWord := by
  induction h with
  | word hw =>
    rw [nameWord_word hw]
    exact .one
  | dot hw _ ih =>
    rw [nameWord_dot hw]
    exact .dotted ih

/-- A built-in type is written as its keyword. -/
theorem exists_keyword_of_isBuiltinType {n : Bytes} (h : isBuiltinType n = true) :
    ∃ k : Keyword, k.isBuiltinType = true ∧ n = k.text ∧ n.nameWord = [.keyword k] := by
  simp only [isBuiltinType, Bool.or_eq_true, decide_eq_true_eq, or_assoc] at h
  rcases h with rfl | rfl | rfl | rfl | rfl
  · exact ⟨.intKw, rfl, rfl, rfl⟩
  · exact ⟨.stringKw, rfl, rfl, rfl⟩
  · exact ⟨.boolKw, rfl, rfl, rfl⟩
  · exact ⟨.fragmentKw, rfl, rfl, rfl⟩
  · exact ⟨.callbackKw, rfl, rfl, rfl⟩

theorem typeName_nameWord {t : TypeRef} (h : t.Printable) : TypeName t.name t.name.nameWord := by
  rcases h with h | h
  · obtain ⟨k, hk, hn, hw⟩ := exists_keyword_of_isBuiltinType h
    rw [hw, hn]
    exact .builtin hk
  · exact .name h.name_nameWord

end Bytes

namespace RenderOp

open Grammar (Operation Operations Content Render)

/-- Arguments in front of the content of a component. -/
theorem content_args {args : List ComponentArg} {childSpan : Option Span} {child : List RenderOp}
    {w : Word} (h : Content [] childSpan child w) :
    Content args childSpan child (args.flatMap ComponentArg.word ++ w) := by
  induction args with
  | nil => exact h
  | cons a args ih =>
    have harg := Content.arg (n := a.name) (s := a.span) a.value.expression_word ih
    simpa [ComponentArg.word] using harg

mutual

theorem operation_word (op : RenderOp) (h : op.Printable) : Operation op op.word := by
  cases op with
  | openElement => exact .openElement
  | attr => exact .attr (Expr.expression_word _)
  | closeElement => exact .closeElement
  | text => exact .text
  | value => exact .value (Expr.expression_word _)
  | component s type args childSpan child =>
    obtain ⟨htype, -, hchild, hall⟩ := h
    refine .component (Bytes.typeName_nameWord htype) (content_args ?_)
    cases childSpan with
    | none =>
      obtain rfl := hchild rfl
      exact .nil
    | some s' =>
      have hrender : Render child (allWord child).braced := .intro (operations_allWord child hall)
      simpa using Content.child (s := s') hrender .nil

theorem operations_allWord (ops : List RenderOp) (h : AllPrintable ops) :
    Operations ops (allWord ops) := by
  cases ops with
  | nil => exact .nil
  | cons op ops => exact .cons (operation_word op h.1) (operations_allWord ops h.2)

end

end RenderOp

/-! ## Words that derive files -/

namespace Grammar

theorem many_flatMap {α : Type} {P : α → Word → Prop} {f : α → Word} {as : List α}
    (h : ∀ a ∈ as, P a (f a)) : Many P as (as.flatMap f) := by
  induction as with
  | nil => exact .nil
  | cons a as ih =>
    rw [List.forall_mem_cons] at h
    exact .cons h.1 (ih h.2)

end Grammar

namespace Tokens.Member

/-- A member of a printable type. -/
def Printable : Member → Prop
  | data m => m.Printable
  | method m => m.Printable
  | render b => RenderOp.AllPrintable b.ops

theorem member_word {m : Member} (h : m.Printable) : Grammar.Member m m.word := by
  cases m with
  | data m =>
    obtain ⟨kind, type, name, init, s⟩ := m
    refine .data (Bytes.typeName_nameWord h.type) ?_ h.field
    cases init with
    | none => exact .none
    | some e => exact .some e.expression_word
  | method m =>
    have hparams : Grammar.Commas Grammar.Param m.params (Word.commas (m.params.map Parameter.word)) :=
      Grammar.commas_derived _ fun p hp => .intro (Bytes.typeName_nameWord (h.params p hp).1)
    have hbody := Stmt.block_braced (Stmt.statements_allWord m.body)
    simpa [word, Word.parenthesized] using Grammar.Member.method hparams hbody
  | render b => exact .render (.intro (RenderOp.operations_allWord b.ops h))

end Tokens.Member

namespace TypeDecl

theorem Printable.items {d : TypeDecl} (h : d.Printable) : ∀ m ∈ d.items, m.Printable := by
  intro m hm
  simp only [TypeDecl.items, List.mem_append, List.mem_map, Option.mem_toList] at hm
  rcases hm with ⟨m, hm, rfl⟩ | ⟨m, hm, rfl⟩ | ⟨b, hb, rfl⟩
  · exact h.members m hm
  · exact h.methods m hm
  · exact h.render b hb

theorem declOf_items (d : TypeDecl) : Tokens.declOf d d.items = d := by
  obtain ⟨kind, name, base, route, members, methods, render, span⟩ := d
  have hnone {α : Type} (as : List α) : as.findSome? (fun _ => (none : Option RenderBlock)) = none :=
    List.findSome?_eq_none_iff.2 fun _ _ => rfl
  cases render <;>
    simp [Tokens.declOf, items, List.filterMap_map, Function.comp_def, Tokens.Member.data?,
      Tokens.Member.method?, Tokens.Member.render?, List.findSome?_map, hnone]

/-- A type has one render block at most. -/
theorem length_filter_items_le (d : TypeDecl) : (d.items.filter (·.isRender)).length ≤ 1 := by
  have hdata : (d.members.map Tokens.Member.data).filter (·.isRender) = [] := by
    simp [List.filter_map, Function.comp_def, Tokens.Member.isRender, Tokens.Member.render?]
  have hmethods : (d.methods.map Tokens.Member.method).filter (·.isRender) = [] := by
    simp [List.filter_map, Function.comp_def, Tokens.Member.isRender, Tokens.Member.render?]
  rw [items, List.filter_append, List.filter_append, hdata, hmethods]
  cases d.render <;> simp [Tokens.Member.isRender, Tokens.Member.render?]

theorem declaration_word {d : TypeDecl} (h : d.Printable) : Grammar.Declaration d d.word := by
  have hroute : Grammar.Route d.route (routeWord d.route) := by
    cases d.route <;> constructor
  have hbase : Grammar.Base d.base (baseWord d.base) := by
    have hprintable := h.base
    revert hprintable
    cases d.base with
    | none => exact fun _ => .none
    | some t => exact fun ht => .some (Bytes.typeName_nameWord (ht t rfl))
  have hmembers : Grammar.Many Grammar.Member d.items (d.items.flatMap Tokens.Member.word) :=
    Grammar.many_flatMap fun m hm => Tokens.Member.member_word (h.items m hm)
  have hdecl : Grammar.Declaration (Tokens.declOf
      ⟨d.kind, d.name, d.base, d.route, [], [], none, d.span⟩ d.items) d.word :=
    .intro hroute hbase hmembers d.length_filter_items_le
  have hsame := d.declOf_items
  simp only [Tokens.declOf] at hdecl hsame
  rwa [hsame] at hdecl

end TypeDecl

namespace SyntaxTree

theorem Printable.items {t : SyntaxTree} (h : t.Printable) : ∀ i ∈ t.items, Grammar.Item i i.word := by
  intro i hi
  simp only [SyntaxTree.items, List.mem_append, List.mem_map] at hi
  rcases hi with hi | ⟨u, hu, rfl⟩ | ⟨d, hd, rfl⟩
  · split at hi
    · cases hi
    · next hns =>
      obtain rfl := List.mem_singleton.1 hi
      exact .ns (h.ns.resolve_left hns).name_nameWord
  · exact .using (h.usings u hu).name_nameWord
  · exact .type (TypeDecl.declaration_word (h.types d hd))

theorem file_word {t : SyntaxTree} (h : t.Printable) : Grammar.File t.items t.word where
  listed := Grammar.many_flatMap h.items
  single := by
    rw [items, List.filter_append]
    split <;> simp [List.filter_map, Function.comp_def, Tokens.UnitItem.isNamespace]
  early := by
    have hrest : ∀ j ∈ t.usings.map Tokens.UnitItem.using ++ t.types.map Tokens.UnitItem.type,
        j.isNamespace = false := by
      intro j hj
      simp only [List.mem_append, List.mem_map] at hj
      rcases hj with ⟨u, -, rfl⟩ | ⟨d, -, rfl⟩ <;> rfl
    have hpairs : (t.usings.map Tokens.UnitItem.using ++ t.types.map Tokens.UnitItem.type).Pairwise
        fun i j => i.isType = true → j.isNamespace = false :=
      List.pairwise_of_forall_mem_list fun _ _ j hj _ => hrest j hj
    rw [items]
    split
    · exact hpairs
    · exact List.pairwise_cons.2 ⟨fun j hj _ => hrest j hj, hpairs⟩

theorem ofItems_items (t : SyntaxTree) (file : Bytes) (ds : List Diagnostic) :
    ofItems file t.items ds = { t with file, diagnostics := ds } := by
  rw [items, ofItems]
  split <;> simp [List.filterMap_append, List.filterMap_map, *]

end SyntaxTree

end ViewCompiler
