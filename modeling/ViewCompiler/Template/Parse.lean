import ViewCompiler.Log
import ViewCompiler.Template.Item
import ViewCompiler.Template.Scan

/-!
Building a template from its pieces. Elements that are open wait on a stack, innermost first; an
end tag closes the innermost open element of its name, and what was opened inside of that one is
reported as not closed.
-/

namespace ViewCompiler

/-! ## Names in directives -/

namespace Bytes

def isIdentifier (s : Bytes) : Bool := s.head?.any Ascii.isNameStart && s.all Ascii.isNameByte

/-- Identifiers with dots between them. -/
def isQualifiedName (s : Bytes) : Bool := (s.splitOn Ascii.dot).all isIdentifier

end Bytes

/-! ## Open elements -/

/-- An element whose end tag has not come yet, with the children it has so far. -/
structure OpenElement where
  span : Span
  tag : Bytes
  attributes : List Attribute
  children : List Node := []
deriving Inhabited

namespace OpenElement

def node (e : OpenElement) : Node := .element e.span e.tag e.attributes e.children

def push (e : OpenElement) (n : Node) : OpenElement := { e with children := e.children ++ [n] }

/-- The report that the element is not closed. -/
def report (e : OpenElement) : TemplateReport := (e.span, .unclosedElement e.tag)

end OpenElement

/-- A template that is being built: text that may go on, and the open elements, innermost first. -/
structure Draft where
  template : Template := {}
  opened : List OpenElement := []
  text : Option (Span × Bytes) := none
deriving Inhabited

namespace Draft

def report (d : Draft) (es : List TemplateReport) : Draft :=
  { d with template := { d.template with errors := d.template.errors ++ es } }

/-- Puts a node into the innermost open element, or at the top. -/
def addNode (d : Draft) (n : Node) : Draft :=
  match d.opened with
  | [] => { d with template := { d.template with nodes := d.template.nodes ++ [n] } }
  | e :: es => { d with opened := e.push n :: es }

/-- Adds to the text that goes on; it stands where its first byte stood. -/
def addText (d : Draft) (span : Span) (t : Bytes) : Draft :=
  match d.text with
  | none => { d with text := some (span, t) }
  | some (start, before) => { d with text := some (start, before ++ t) }

/-- Ends the text that goes on. -/
def endText (d : Draft) : Draft :=
  match d.text with
  | none => d
  | some (span, t) => { d with text := none }.addNode (.text span t)

/-- Closes the `n` innermost elements. -/
def close (d : Draft) : Nat → Draft
  | 0 => d
  | n + 1 =>
    match d.opened with
    | [] => d
    | e :: es => close ({ d with opened := es }.addNode e.node) n

/-- Closes the innermost element of that name. -/
def endTag (d : Draft) (span : Span) (tag : Bytes) : Draft :=
  match d.opened.findIdx? (·.tag = tag) with
  | none => d.report [(span, .unmatchedEndTag tag)]
  | some n => (d.report ((d.opened.take n).map (·.report))).close (n + 1)

/-- Takes a directive with its argument into the template. -/
def directive (t : Template) (span : Span) (argument : Bytes) :
    DirectiveKeyword → Except TemplateError Template
  | .page =>
    if argument.length < 2 ∨ argument.head? ≠ some Ascii.quote
        ∨ argument.getLast? ≠ some Ascii.quote then .error .pageRoute
    else if t.route.isSome then .error .repeatedPage
    else .ok { t with route := some (span, argument.tail.dropLast) }
  | .imports =>
    let ns : Bytes :=
      if argument.getLast? = some Ascii.semicolon then argument.dropLast else argument
    if ns.isQualifiedName then .ok { t with usings := t.usings ++ [{ ns, span }] }
    else .error .usingNamespace
  | .inject =>
    let type : Bytes := argument.takeWhile (!Piece.isLineBlank ·)
    let name := Bytes.trim Ascii.isSpace (argument.drop type.length)
    if type.isQualifiedName ∧ name.isIdentifier then
      .ok { t with injections := t.injections ++ [{ type, name, span }] }
    else .error .injectMember
  | .inherits =>
    if ¬ argument.isQualifiedName then .error .inheritsType
    else if t.base.isSome then .error .repeatedInherits
    else .ok { t with base := some { name := argument, span } }
  | .code => .ok t

/-- Whether a directive may stand here. -/
def isPlaced (d : Draft) (atLineStart : Bool) : Bool := atLineStart && d.opened.isEmpty

/-- Reports a directive that may not stand where it stands. -/
def reportPlace (d : Draft) (span : Span) (atLineStart : Bool) (k : DirectiveKeyword) : Draft :=
  if d.isPlaced atLineStart then d else d.report [(span, .misplacedDirective k)]

/-- Takes a piece into the template. -/
def add (d : Draft) : Piece → Draft
  | .text span t => d.addText span t
  | .gap => d.endText
  | .expr span code => d.endText.addNode (.expr span code)
  | .startTag span tag attributes opens =>
    let d := d.endText
    let e : OpenElement := { span, tag, attributes }
    if opens then { d with opened := e :: d.opened } else d.addNode e.node
  | .endTag span tag => d.endText.endTag span tag
  | .directive span atLineStart k argument =>
    let d := d.endText
    if d.isPlaced atLineStart then
      match directive d.template span argument k with
      | .ok template => { d with template }
      | .error e => d.report [(span, e)]
    else d.reportPlace span atLineStart k
  | .code span atLineStart block =>
    let d := d.endText
    let placed := d.isPlaced atLineStart
    let d := d.reportPlace span atLineStart .code
    match block with
    | .error e => d.report [(span, e)]
    | .ok block =>
      if placed then { d with template := { d.template with code := d.template.code ++ [block] } }
      else d

/-- Takes a piece and what was wrong with it into the template. -/
def step (d : Draft) (p : Piece × List TemplateReport) : Draft := (d.report p.2).add p.1

/-- The template when the text has ended. Elements that are still open are reported, outermost
first. -/
def finish (d : Draft) : Template :=
  let d := d.endText
  ((d.report (d.opened.reverse.map (·.report))).close d.opened.length).template

end Draft

namespace Template

/-- The template of a text. -/
def parse (text : Bytes) : Template :=
  ((Piece.scanAll false { rest := text }).foldl Draft.step {}).finish

end Template

namespace Item

/-- A report about a place of the item. -/
def diagnostic (i : Item) (r : TemplateReport) : Diagnostic :=
  .located i.name (i.userSpan r.1) r.2.severity r.2.code r.2.message

/-- The template of an item. -/
def parse (i : Item) : Logged Template := do
  let t := Template.parse i.content
  Logged.log .trace "markup" ("Parsed " ++ i.name ++ ": " ++ Bytes.ofNat t.nodes.length
    ++ " top-level node(s), " ++ Bytes.ofNat t.code.length ++ " code block(s), "
    ++ Bytes.ofNat t.errors.length ++ " diagnostic(s)")
  pure t

end Item

end ViewCompiler
