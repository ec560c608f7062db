import Mathlib.Data.List.DropRight
import ViewCompiler.Proofs.ExpressionExtent
import ViewCompiler.Proofs.StartTags

/-!
The canonical text of markup, and the pieces that are read from it. At signs of text are doubled, a
value stands in the quotes that it does not contain, and elements that have no content have no end tag.
Nodes that can be printed (`Node.AllPrintable`) have valid names and expressions, and no text next to
other text or, if it ends like a name, in front of an expression.
-/

namespace ViewCompiler

/-! ## Printing -/

namespace Attribute

/-- The quotes that a value is written in. -/
def quoteFor (value : Bytes) : UInt8 :=
  if Ascii.quote ∈ value then Ascii.apostrophe else Ascii.quote

def printValue (value : Bytes) : Bytes :=
  Ascii.equal :: quoteFor value :: (value ++ [quoteFor value])

def print (a : Attribute) : Bytes := Ascii.space :: (a.name ++ a.value.elim [] printValue)

def unplaced (a : Attribute) : Attribute := { a with span := {} }

end Attribute

namespace Node

/-- A byte of text. At signs are doubled. -/
def printByte (b : UInt8) : Bytes := if b = Ascii.atSign then [b, b] else [b]

def printStart (tag : Bytes) (attributes : List Attribute) : Bytes :=
  Ascii.less :: (tag ++ (attributes.flatMap Attribute.print ++ [Ascii.greater]))

def printEnd (tag : Bytes) : Bytes := Ascii.less :: Ascii.slash :: (tag ++ [Ascii.greater])

mutual

def print : Node → Bytes
  | text _ t => t.flatMap printByte
  | expr _ code => Ascii.atSign :: code
  | element _ tag attributes children =>
    printStart tag attributes ++ if isVoidElement tag then [] else printAll children ++ printEnd tag

def printAll : List Node → Bytes
  | [] => []
  | n :: ns => n.print ++ printAll ns

end

mutual

def unplaced : Node → Node
  | text _ t => text {} t
  | expr _ code => expr {} code
  | element _ tag attributes children =>
    element {} tag (attributes.map Attribute.unplaced) (allUnplaced children)

def allUnplaced : List Node → List Node
  | [] => []
  | n :: ns => n.unplaced :: allUnplaced ns

end

end Node

/-! ## Markup that can be printed -/

namespace Attribute

instance (a : Attribute) : Decidable a.Sound :=
  decidable_of_iff (∀ code ∈ a.expression?, (Expr.parse? code).isSome = true) Iff.rfl

/-- An attribute with a valid name, whose value can be quoted. -/
structure Printable (a : Attribute) : Prop where
  start : a.name.head?.any Ascii.isAttributeStart = true
  name : a.name.all Ascii.isAttributeByte = true
  quotes : ∀ v ∈ a.value, Ascii.quote ∈ v → Ascii.apostrophe ∉ v
  event : a.isEvent = true → a.value.isSome = true
  sound : a.Sound

end Attribute

namespace Node

/-- What an expression has in its parentheses: an expression without hash signs and comments, and
without line breaks in its strings. -/
structure PrintableCode (code : Bytes) : Prop where
  parsed : (Expr.parse? code).isSome = true
  enclosed : (Expr.parse? ("(" ++ code ++ ")")).isSome = true
  plain : TokenStream.Plain code
  unbroken : TokenStream.Unbroken {} code

/-- Whether one node may stand behind another: text is not next to text, and an expression not behind
a letter, a digit or an underscore. -/
def Fits : Node → Node → Prop
  | text _ _, text _ _ => False
  | text _ t, expr _ _ => t.getLast?.any Ascii.isNameByte = false
  | _, _ => True

mutual

def Printable : Node → Prop
  | text _ t => t ≠ [] ∧ Ascii.less ∉ t
  | expr _ code => ∃ inner, code = "(" ++ inner ++ ")" ∧ PrintableCode inner
  | element _ tag attributes children =>
    tag.head?.any Ascii.isLetter = true ∧ tag.all Ascii.isTagByte = true ∧
      (∀ a ∈ attributes, a.Printable) ∧ (isVoidElement tag = true → children = []) ∧
      AllPrintable children

def AllPrintable : List Node → Prop
  | [] => True
  | n :: ns => n.Printable ∧ (∀ m ∈ ns.head?, n.Fits m) ∧ AllPrintable ns

end

end Node

/-! Whether markup can be printed is decidable. -/

namespace Attribute

instance (a : Attribute) : Decidable a.Printable :=
  decidable_of_iff (a.name.head?.any Ascii.isAttributeStart = true ∧
      a.name.all Ascii.isAttributeByte = true ∧
      (∀ v ∈ a.value, Ascii.quote ∈ v → Ascii.apostrophe ∉ v) ∧
      (a.isEvent = true → a.value.isSome = true) ∧ a.Sound)
    ⟨fun h => ⟨h.1, h.2.1, h.2.2.1, h.2.2.2.1, h.2.2.2.2⟩,
      fun h => ⟨h.start, h.name, h.quotes, h.event, h.sound⟩⟩

end Attribute

namespace Node

instance (code : Bytes) : Decidable (PrintableCode code) :=
  decidable_of_iff ((Expr.parse? code).isSome = true ∧ (Expr.parse? ("(" ++ code ++ ")")).isSome = true ∧
      TokenStream.Plain code ∧ TokenStream.Unbroken {} code)
    ⟨fun h => ⟨h.1, h.2.1, h.2.2.1, h.2.2.2⟩, fun h => ⟨h.parsed, h.enclosed, h.plain, h.unbroken⟩⟩

instance : DecidableRel Fits
  | text _ _, text _ _ => .isFalse not_false
  | text _ t, expr _ _ => inferInstanceAs (Decidable (t.getLast?.any Ascii.isNameByte = false))
  | text _ _, element .. | expr _ _, _ | element .., _ => .isTrue trivial

mutual

def decidablePrintable : (n : Node) → Decidable n.Printable
  | text _ t => inferInstanceAs (Decidable (t ≠ [] ∧ Ascii.less ∉ t))
  | expr _ code =>
    decidable_of_iff (code = "(" ++ code.tail.dropLast ++ ")" ∧ PrintableCode code.tail.dropLast) <| by
      constructor
      · exact fun h => ⟨_, h⟩
      · rintro ⟨inner, rfl, h⟩
        have hinner : List.dropLast (List.tail (("(" : Bytes) ++ inner ++ (")" : Bytes))) = inner :=
          List.dropLast_concat
        rw [hinner]
        exact ⟨rfl, h⟩
  | element _ tag attributes children =>
    @instDecidableAnd _ _ inferInstance <| @instDecidableAnd _ _ inferInstance <|
      @instDecidableAnd _ _ inferInstance <| @instDecidableAnd _ _
        (decidable_of_iff (isVoidElement tag = true → children.isEmpty = true) (by simp))
        (decidableAllPrintable children)

def decidableAllPrintable : (ns : List Node) → Decidable (AllPrintable ns)
  | [] => .isTrue trivial
  | n :: ns => @instDecidableAnd _ _ n.decidablePrintable <|
    @instDecidableAnd _ _ inferInstance (decidableAllPrintable ns)

end

instance : DecidablePred AllPrintable := decidableAllPrintable

end Node

/-! ## Attributes that are read back -/

namespace Ascii

theorem isSpace_of_isAttributeStart {b : UInt8} (h : isAttributeStart b = true) : isSpace b = false := by
  have htab : tab = 9 := rfl
  have hcr : cr = 13 := rfl
  grind [isAttributeStart, isLetter, isUpper, isLower, isSpace]

end Ascii

theorem exists_cons_of_head {p : UInt8 → Bool} {v : Bytes} (h : v.head?.any p = true) :
    ∃ b bs, v = b :: bs ∧ p b = true := by
  cases v with
  | nil => simp at h
  | cons b bs => exact ⟨b, bs, rfl, by simpa using h⟩

/-- The bytes in front of one that ends them. -/
theorem takeWhile_append_stop {p : UInt8 → Bool} {v : Bytes} {x : UInt8} (hv : v.all p = true)
    (hx : p x = false) (ys : Bytes) : (v ++ x :: ys).takeWhile p = v :=
  (takeWhile_append_of_not hx v ys).trans (List.takeWhile_eq_self_iff.2 (List.all_eq_true.1 hv))

namespace Attribute

variable {a : Attribute}

theorem Printable.exists_cons (h : a.Printable) :
    ∃ b bs, a.name = b :: bs ∧ Ascii.isAttributeStart b = true := exists_cons_of_head h.start

/-- Behind its blank, a printed attribute starts with its name. -/
theorem Printable.dropWhile_print (h : a.Printable) (zs : Bytes) :
    (a.print ++ zs).dropWhile Ascii.isSpace = a.name ++ (a.value.elim [] printValue ++ zs) := by
  obtain ⟨b, bs, hname, hb⟩ := h.exists_cons
  have hspace := Ascii.isSpace_of_isAttributeStart hb
  rw [print, hname]
  simp [hspace, show Ascii.isSpace Ascii.space = true from rfl]

/-- What follows an attribute ends its name, and gives it no value. -/
theorem exists_follower {attributes : List Attribute} (h : ∀ a ∈ attributes, a.Printable) (ys : Bytes) :
    ∃ x zs, attributes.flatMap print ++ Ascii.greater :: ys = x :: zs ∧ Ascii.isAttributeByte x = false ∧
      ((x :: zs).dropWhile Ascii.isSpace).head? ≠ some Ascii.equal := by
  cases attributes with
  | nil =>
    have hequal : Ascii.greater ≠ Ascii.equal := by decide
    exact ⟨Ascii.greater, ys, rfl, rfl, fun h => hequal (Option.some.inj h)⟩
  | cons a as =>
    obtain ⟨b, bs, hname, hb⟩ := (h a (by simp)).exists_cons
    refine ⟨Ascii.space,
      a.name ++ a.value.elim [] printValue ++ (as.flatMap print ++ Ascii.greater :: ys),
      by simp [print], rfl, ?_⟩
    have hprint := (h a (by simp)).dropWhile_print (as.flatMap print ++ Ascii.greater :: ys)
    rw [print, List.cons_append] at hprint
    rw [hprint, hname]
    simp only [List.cons_append, List.head?_cons, ne_eq, Option.some.injEq]
    rintro rfl
    cases hb

theorem Printable.check_eq (h : a.Printable) (span : Span) (rest : Source) :
    check span a.name a.value rest = { value := some { a with span }, rest } := by
  have hevent : ¬ (a.isEvent = true ∧ a.value.isNone = true) := by
    rintro ⟨he, hnone⟩
    have hsome := h.event he
    rw [Option.isNone_iff_eq_none] at hnone
    simp [hnone] at hsome
  have hexpr : ({ a with span } : Attribute).expression? = a.expression? := rfl
  rw [check]
  refine (if_neg hevent).trans ?_
  rw [hexpr]
  split
  · rfl
  · next code hcode => rw [if_pos (h.sound code hcode)]

/-- A quoted value ends at its closing quote. -/
theorem scanValue_print {value : Bytes} (h : Ascii.quote ∈ value → Ascii.apostrophe ∉ value)
    {s : Source} {ys : Bytes} (hs : s.rest = quoteFor value :: (value ++ quoteFor value :: ys)) :
    scanValue s = { value := .ok value, rest := s.drop (value.length + 2) } := by
  have hq : quoteFor value = Ascii.quote ∨ quoteFor value = Ascii.apostrophe := by
    rw [quoteFor]
    split <;> simp
  have hmem : quoteFor value ∉ value := by
    rw [quoteFor]
    split
    · next hquote => exact h hquote
    · assumption
  have htake : (value ++ quoteFor value :: ys).takeWhile (· ≠ quoteFor value) = value :=
    takeWhile_append_stop (by simpa using fun b hb => ne_of_mem_of_not_mem hb hmem) (by simp) ys
  rw [scanValue, hs]
  simp only [if_pos hq, htake]
  rw [if_neg (by simp)]

/-- An attribute is read behind its name. -/
theorem scan_name {name : Bytes} (hstart : ∃ b bs, name = b :: bs ∧ Ascii.isAttributeStart b = true)
    (hname : name.all Ascii.isAttributeByte = true) (tag : Bytes) {s : Source} {x : UInt8} {ys : Bytes}
    (hs : s.rest = name ++ x :: ys) (hx : Ascii.isAttributeByte x = false) : scan tag s =
      let s' := (s.drop name.length).dropWhile Ascii.isSpace
      if s'.rest.head? = some Ascii.equal then
        let v := scanValue ((s'.drop 1).dropWhile Ascii.isSpace)
        match v.value with
        | .ok value => check s.span name (some value) v.rest
        | .error e => { value := none, errors := [(s.span, e name)], rest := v.rest }
      else check s.span name none s' := by
  obtain ⟨b, bs, rfl, hb⟩ := hstart
  have htake : s.rest.takeWhile Ascii.isAttributeByte = b :: bs := by
    rw [hs]
    exact takeWhile_append_stop hname hx ys
  have hcons : s.rest = b :: (bs ++ x :: ys) := hs
  rw [scan, hcons]
  dsimp only
  rewrite [if_pos hb, ← hcons, htake]
  rfl

/-- A printed attribute is read back behind its blank. The blank behind an attribute without a value
is read with it. -/
theorem Printable.scan_print (h : a.Printable) (tag : Bytes) {s : Source} {x : UInt8} {ys : Bytes}
    (hs : s.rest = a.name ++ (a.value.elim [] printValue ++ x :: ys))
    (hx : Ascii.isAttributeByte x = false)
    (hne : ((x :: ys).dropWhile Ascii.isSpace).head? ≠ some Ascii.equal) :
    ∃ read r, scan tag s = { value := some read, rest := r } ∧ read.unplaced = a.unplaced ∧
      r.rest.dropWhile Ascii.isSpace = (x :: ys).dropWhile Ascii.isSpace := by
  have hs' : ((s.drop a.name.length).dropWhile Ascii.isSpace).rest =
      (a.value.elim [] printValue ++ x :: ys).dropWhile Ascii.isSpace := by
    rw [Source.rest_dropWhile, Source.rest_drop, hs, List.drop_left]
  cases hvalue : a.value with
  | none =>
    rw [hvalue] at hs hs'
    have hrest : ((s.drop a.name.length).dropWhile Ascii.isSpace).rest =
        (x :: ys).dropWhile Ascii.isSpace := hs'
    refine ⟨{ a with span := s.span }, _, ?_, rfl, by rw [hrest, List.dropWhile_idempotent]⟩
    rw [scan_name h.exists_cons h.name tag hs hx]
    dsimp only
    rw [hrest, if_neg hne, ← hvalue, h.check_eq]
  | some value =>
    have hequal : a.value.elim [] printValue ++ x :: ys =
        Ascii.equal :: quoteFor value :: (value ++ quoteFor value :: x :: ys) := by
      simp [hvalue, printValue]
    rw [hequal] at hs hs'
    have hrest : ((s.drop a.name.length).dropWhile Ascii.isSpace).rest =
        Ascii.equal :: quoteFor value :: (value ++ quoteFor value :: x :: ys) := hs'
    have hv : ((((s.drop a.name.length).dropWhile Ascii.isSpace).drop 1).dropWhile Ascii.isSpace).rest =
        quoteFor value :: (value ++ quoteFor value :: x :: ys) := by
      have hquote : Ascii.isSpace (quoteFor value) = false := by
        rw [quoteFor]
        split <;> rfl
      rw [Source.rest_dropWhile, Source.rest_drop, hrest]
      simp [hquote]
    refine ⟨{ a with span := s.span },
      ((((s.drop a.name.length).dropWhile Ascii.isSpace).drop 1).dropWhile Ascii.isSpace).drop
        (value.length + 2), ?_, rfl, ?_⟩
    · rw [scan_name h.exists_cons h.name tag hs rfl]
      dsimp only
      rw [hrest, List.head?_cons, if_pos rfl, scanValue_print (h.quotes value hvalue) hv]
      dsimp only
      rw [← hvalue, h.check_eq]
    · rw [Source.rest_drop, hv, List.drop_succ_cons, List.drop_length_add_append]
      rfl

end Attribute

namespace TagBody

/-- An attribute in front of what follows it in its tag. -/
theorem scan_cons {span : Span} {tag : Bytes} {done : List Attribute} {s : Source} {b : UInt8}
    {bs : Bytes} {a : Attribute} {r : Source} (hs : (s.dropWhile Ascii.isSpace).rest = b :: bs)
    (hslash : b ≠ Ascii.slash) (hgreater : b ≠ Ascii.greater)
    (ha : Attribute.scan tag (s.dropWhile Ascii.isSpace) = { value := some a, rest := r }) :
    scan span tag done s = scan span tag (done ++ [a]) r := by
  rw [scan]
  dsimp only
  rw [if_neg (by rw [hs]; exact List.cons_ne_nil b bs),
    if_neg (by rw [hs]; exact fun h => hslash (Bytes.startsWith_pair.1 h).1),
    if_neg (by rw [hs]; simpa using hgreater)]
  split
  · next hnone =>
    rw [ha] at hnone
    cases hnone
  · next n hn =>
    rw [ha] at hn
    cases hn
    rw [ha]
    rfl

/-- The attributes of a printed start tag are read back, and the tag opens its element. -/
theorem scan_print (span : Span) (tag : Bytes) {attributes : List Attribute}
    (h : ∀ a ∈ attributes, a.Printable) (ys : Bytes) (done : List Attribute) {s : Source}
    (hs : s.rest.dropWhile Ascii.isSpace =
      (attributes.flatMap Attribute.print ++ Ascii.greater :: ys).dropWhile Ascii.isSpace) :
    ∃ read r,
      scan span tag done s = { value := { attributes := done ++ read, opens := true }, rest := r } ∧
      read.map Attribute.unplaced = attributes.map Attribute.unplaced ∧ r.rest = ys := by
  induction attributes generalizing done s with
  | nil =>
    have hend : (s.dropWhile Ascii.isSpace).rest = Ascii.greater :: ys := by
      rw [Source.rest_dropWhile, hs]
      rfl
    refine ⟨[], (s.dropWhile Ascii.isSpace).drop 1, ?_, rfl, by rw [Source.rest_drop, hend]; rfl⟩
    rw [scan]
    simp only [hend]
    rw [if_neg (by simp),
      if_neg (show ¬ Bytes.startsWith (Ascii.greater :: ys) "/>" = true from Bool.false_ne_true),
      List.head?_cons, if_pos rfl, List.append_nil]
  | cons a as ih =>
    obtain ⟨ha, has⟩ := List.forall_mem_cons.1 h
    obtain ⟨x, zs, hfollow, hx, hne⟩ := Attribute.exists_follower has ys
    obtain ⟨b, bs, hname, hb⟩ := ha.exists_cons
    have hrest : (s.dropWhile Ascii.isSpace).rest =
        a.name ++ (a.value.elim [] Attribute.printValue ++ x :: zs) := by
      rw [Source.rest_dropWhile, hs, List.flatMap_cons, List.append_assoc, ha.dropWhile_print, hfollow]
    obtain ⟨first, r, hscan, hfirst, hr⟩ := ha.scan_print tag hrest hx hne
    obtain ⟨read, r', hread, hsame, hr'⟩ := ih has (done ++ [first]) (hr.trans (by rw [hfollow]))
    refine ⟨first :: read, r', ?_, by rw [List.map_cons, List.map_cons, hfirst, hsame], hr'⟩
    rw [scan_cons (by rw [hrest, hname]; rfl) (by rintro rfl; cases hb) (by rintro rfl; cases hb) hscan,
      hread, List.append_assoc]
    rfl

end TagBody

/-! ## Pieces that are read back -/

namespace Piece

variable {s : Source} {ys : Bytes}

theorem scan_byte {b : UInt8} (hat : b ≠ Ascii.atSign) (hless : b ≠ Ascii.less) (inWord : Bool)
    (hs : s.rest = b :: ys) : scan inWord s = { value := text s.span [b], rest := s.drop 1 } := by
  have hcomment : ¬ Bytes.startsWith (b :: ys) "<!--" = true := by
    intro h
    exact hless (List.cons_prefix_cons.1 (List.isPrefixOf_iff_prefix.1 h)).1.symm
  rw [scan, hs]
  simp only [List.head?_cons, Option.some.injEq, if_neg hat, if_neg hcomment, hless, false_and, if_false]
  rfl

theorem scan_doubled (inWord : Bool) (hs : s.rest = Ascii.atSign :: Ascii.atSign :: ys) :
    scan inWord s = { value := text s.span "@", rest := s.drop 2 } := by
  rw [scan, hs]
  have hkeyword : keyword? (Ascii.atSign :: ys) = none := rfl
  simp only [List.head?_cons, List.tail_cons, if_true, hkeyword, transition, hs]

/-- An expression in parentheses is read as a whole. -/
theorem scan_expr {code : Bytes} (h : Node.PrintableCode code)
    (hs : s.rest = Ascii.atSign :: ("(" ++ code ++ ")" ++ ys)) :
    ∃ r, scan false s = { value := expr s.span ("(" ++ code ++ ")"), rest := r } ∧ r.rest = ys := by
  have hopen : s.rest = Ascii.atSign :: Ascii.lparen :: (code ++ Ascii.rparen :: ys) := by
    rw [hs, List.append_assoc, List.append_assoc]
    rfl
  have hcode : (s.drop 2).rest = code ++ Ascii.rparen :: ys := by
    rw [Source.rest_drop, hopen]
    rfl
  have hmatch : Stretch.matching? Stretch.leadingString Ascii.lparen Ascii.rparen 1
      (code ++ Ascii.rparen :: ys) = some code.length :=
    TokenStream.encloses_of_parse? h.parsed h.plain h.unbroken ys
  refine ⟨(s.drop 2).drop (code.length + 1), ?_, ?_⟩
  · have hkeyword : keyword? (Ascii.lparen :: (code ++ Ascii.rparen :: ys)) = none := rfl
    have hstar : some Ascii.lparen ≠ some Ascii.star := by decide
    have hat : some Ascii.lparen ≠ some Ascii.atSign := by decide
    rw [scan, hopen]
    simp only [List.head?_cons, List.tail_cons, if_true, hkeyword, transition, hopen, if_neg hat,
      if_neg hstar, Bool.false_eq_true, if_false, parenthesized, hcode, hmatch, List.take_left]
    rw [expression, if_pos h.enclosed]
  · rw [Source.rest_drop, hcode, List.drop_length_add_append]
    rfl

/-- The name of a tag is the bytes of it that follow. -/
theorem takeWhile_tag {tag : Bytes} (h : tag.all Ascii.isTagByte = true)
    {attributes : List Attribute} (ys : Bytes) :
    (tag ++ (attributes.flatMap Attribute.print ++ Ascii.greater :: ys)).takeWhile Ascii.isTagByte =
      tag := by
  cases attributes with
  | nil => exact takeWhile_append_stop h rfl ys
  | cons a as => exact takeWhile_append_stop (x := Ascii.space) h rfl _

/-- A slash and a letter behind `<` make an end tag. -/
theorem scan_less_slash {b : UInt8} (hb : Ascii.isLetter b = true) (inWord : Bool)
    (hs : s.rest = Ascii.less :: Ascii.slash :: b :: ys) : scan inWord s = ofEndTag s := by
  have hcomment : ¬ Bytes.startsWith (Ascii.less :: Ascii.slash :: b :: ys) "<!--" = true :=
    Bool.false_ne_true
  rw [scan, hs]
  simp only [List.head?_cons, List.tail_cons]
  rw [if_neg (by decide), if_neg hcomment, if_pos ⟨trivial, trivial, hb⟩]

theorem scan_startTag {tag : Bytes} (hstart : tag.head?.any Ascii.isLetter = true)
    (htag : tag.all Ascii.isTagByte = true) {attributes : List Attribute}
    (h : ∀ a ∈ attributes, a.Printable) (inWord : Bool)
    (hs : s.rest = Node.printStart tag attributes ++ ys) :
    ∃ read r, scan inWord s = { value := startTag s.span tag read (!isVoidElement tag), rest := r } ∧
      read.map Attribute.unplaced = attributes.map Attribute.unplaced ∧ r.rest = ys := by
  have hrest : s.rest =
      Ascii.less :: (tag ++ (attributes.flatMap Attribute.print ++ Ascii.greater :: ys)) := by
    rw [hs, Node.printStart]
    simp
  obtain ⟨read, r, hread, hsame, hr⟩ := TagBody.scan_print s.span tag h ys []
    (s := s.drop (tag.length + 1)) (by rw [Source.rest_drop, hrest, List.drop_succ_cons, List.drop_left])
  refine ⟨read, r, ?_, hsame, hr⟩
  obtain ⟨b, bs, hcons, hb⟩ := exists_cons_of_head hstart
  rw [scan_less hb inWord (by rw [hrest, hcons]; rfl), ofStartTag, hrest, List.tail_cons,
    takeWhile_tag htag]
  rw [hread, Bool.true_and]
  rfl

theorem scan_endTag {tag : Bytes} (hstart : tag.head?.any Ascii.isLetter = true)
    (htag : tag.all Ascii.isTagByte = true) (inWord : Bool) (hs : s.rest = Node.printEnd tag ++ ys) :
    ∃ r, scan inWord s = { value := endTag s.span tag, rest := r } ∧ r.rest = ys := by
  have hrest : s.rest = Ascii.less :: Ascii.slash :: (tag ++ Ascii.greater :: ys) := by
    rw [hs, Node.printEnd]
    simp
  have hafter : ((s.drop (tag.length + 2)).dropWhile Ascii.isSpace).rest = Ascii.greater :: ys := by
    rw [Source.rest_dropWhile, Source.rest_drop, hrest, List.drop_succ_cons, List.drop_succ_cons,
      List.drop_left]
    rfl
  have htake : (s.rest.drop 2).takeWhile Ascii.isTagByte = tag := by
    rw [hrest]
    exact takeWhile_append_stop htag rfl ys
  obtain ⟨b, bs, hcons, hb⟩ := exists_cons_of_head hstart
  refine ⟨((s.drop (tag.length + 2)).dropWhile Ascii.isSpace).drop 1, ?_,
    by rw [Source.rest_drop, hafter]; rfl⟩
  rw [scan_less_slash hb inWord (by rw [hrest, hcons]; rfl), ofEndTag, htake]
  rw [hafter, List.head?_cons, if_pos rfl]

end Piece

end ViewCompiler
