import Dialplan.Markup.Entity
import Dialplan.Markup.Tokens
import Dialplan.Tree
/-!
# Reading a rule set

The tokens of a text are taken one by one. What has been read stands in a `State`: what must follow
next (`Phase`), the elements that are open around it, innermost first, and the count of the nodes so
far. A start tag becomes a node when its closing mark comes; only then, with all its attributes
known, is its kind settled and its place checked, and it gets the next number, so numbers go in the
order of the start tags.

* `step`: what one token does;
* `State.finish`: what the end of the text does;
* `read`: the tree of a text, or the first fault.
-/

namespace Dialplan.Markup

open Dialplan.Text

/-! ## 1. Start tags -/

/-- A start tag before its closing mark: where it starts and what it has said so far. -/
structure StartTag where
  pos : Nat
  name : String
  attributes : Attributes
  enabled : Bool
deriving DecidableEq, Repr

/-- A start tag with one more attribute. The enabled flag is no attribute of the node and may be
    said again; any other key must be new. -/
def StartTag.attribute (tag : StartTag) (key : String) (keyPos : Nat) (raw : String)
    (valuePos : Nat) : Except Fault StartTag :=
  match decode raw valuePos with
  | .error e => .error e
  | .ok value =>
    if key = "enabled" then
      if value = "true" then .ok { tag with enabled := true }
      else if value = "false" then .ok { tag with enabled := false }
      else .error (.invalid valuePos (.enabledValue value))
    else if tag.attributes.contains key then .error (.invalid keyPos (.duplicateAttribute key))
    else .ok { tag with attributes := tag.attributes.set key value }

/-! ## 2. Elements and phases -/

/-- An element whose body is being read, with the children read so far. -/
structure Element where
  name : String
  kind : Kind
  label : Label
  children : List Node
deriving Repr

/-- The node that an element becomes at its end. -/
def Element.node (e : Element) : Node :=
  match e.kind with
  | .branch k => .branch k e.label e.children
  | .leaf k => .leaf k e.label

/-- What must follow. -/
inductive Phase where
  /-- The outermost start tag. -/
  | start
  /-- The name after the `<` at a position. -/
  | elementName (pos : Nat)
  /-- A key, or the mark that closes the start tag. -/
  | inTag (tag : StartTag)
  /-- The `=` after a key. -/
  | equals (tag : StartTag) (key : String) (keyPos : Nat)
  /-- The value of a key. -/
  | value (tag : StartTag) (key : String) (keyPos : Nat)
  /-- A child or the end tag of an element. -/
  | body (e : Element)
  /-- The name in the end tag of an element. -/
  | endName (e : Element)
  /-- The `>` of the end tag of an element. -/
  | endMark (e : Element)
  /-- Nothing. -/
  | finished (root : Branch)
deriving Repr

/-- What has been read: the phase, the elements open around it, innermost first, and the count of
    nodes so far. -/
structure State where
  phase : Phase
  outer : List Element
  issued : Nat
deriving Repr

/-- Before the first token. -/
def State.start : State := ⟨.start, [], 0⟩

/-! ## 3. Steps -/

/-- The kind of node that a finished start tag stands for, if it may stand there: the outermost
    element is an extension, and inside an element its kind decides what may follow. -/
def kindAt (outer : List Element) (tag : StartTag) : Except Fault Kind :=
  match outer with
  | [] =>
    if tag.name = "extension" then .ok .extension
    else .error (.invalid tag.pos (.wrongRoot tag.name))
  | parent :: _ =>
    let kind? :=
      if tag.name = "condition" && tag.attributes.contains "regex" then some Kind.regexCondition
      else Kind.ofText? tag.name
    match kind? with
    | none => .error (.invalid tag.pos (.unknownElement tag.name))
    | some kind =>
      if parent.kind.accepts kind then .ok kind
      else .error (.invalid tag.pos (.misplaced kind parent.kind))

/-- The element that a start tag opens, as the next node. -/
def State.opened (s : State) (tag : StartTag) (kind : Kind) : Element :=
  ⟨tag.name, kind, ⟨⟨s.issued + 1⟩, tag.attributes, tag.enabled⟩, []⟩

/-- An element ends: it becomes the next child of the element around it, or the root. -/
def closeElement (outer : List Element) (e : Element) (issued : Nat) : State :=
  match outer with
  | [] => ⟨.finished ⟨.extension, e.label, e.children⟩, [], issued⟩
  | parent :: rest => ⟨.body { parent with children := parent.children ++ [e.node] }, rest, issued⟩

/-- A token that is not the one that must follow. -/
def unexpected (t : Located Token) (expected : Expectation) : Except Fault State :=
  .error (.unexpectedToken t.start expected t.value.text)

/-- What one token does. -/
def step (s : State) (t : Located Token) : Except Fault State :=
  match s.phase with
  | .start =>
    match t.value with
    | .openTag => .ok { s with phase := .elementName t.start }
    | _ => unexpected t .openMark
  | .elementName pos =>
    match t.value with
    | .name n => .ok { s with phase := .inTag ⟨pos, n, .empty, true⟩ }
    | _ => unexpected t .elementName
  | .inTag tag =>
    match t.value with
    | .name key => .ok { s with phase := .equals tag key t.start }
    | mark =>
      match kindAt s.outer tag with
      | .error e => .error e
      | .ok kind =>
        match mark with
        | .close => .ok { s with phase := .body (s.opened tag kind), issued := s.issued + 1 }
        | .selfClose => .ok (closeElement s.outer (s.opened tag kind) (s.issued + 1))
        | _ => unexpected t .tagEnd
  | .equals tag key keyPos =>
    match t.value with
    | .equals => .ok { s with phase := .value tag key keyPos }
    | _ => unexpected t .equals
  | .value tag key keyPos =>
    match t.value with
    | .value raw =>
      match tag.attribute key keyPos raw (t.start + 1) with
      | .error e => .error e
      | .ok tag => .ok { s with phase := .inTag tag }
    | _ => unexpected t .value
  | .body e =>
    match t.value with
    | .openEnd => .ok { s with phase := .endName e }
    | other =>
      if e.kind.isBranch then
        match other with
        | .openTag => .ok { s with phase := .elementName t.start, outer := e :: s.outer }
        | _ => .error (.invalid t.start (.textContent other))
      else .error (.invalid t.start (.leafBody e.name))
  | .endName e =>
    match t.value with
    | .name n =>
      if n = e.name then .ok { s with phase := .endMark e }
      else .error (.invalid t.start (.mismatchedEnd e.name n))
    | _ => unexpected t .closingName
  | .endMark e =>
    match t.value with
    | .close => .ok (closeElement s.outer e s.issued)
    | _ => unexpected t .closeMark
  | .finished _ => unexpected t .endOfInput

/-- What the end of a text of `len` bytes does. -/
def State.finish (s : State) (len : Nat) : Except Fault Tree :=
  match s.phase with
  | .start => .error (.unexpectedEnd len .extension)
  | .elementName _ => .error (.unexpectedEnd len .elementName)
  | .inTag tag =>
    match kindAt s.outer tag with
    | .error e => .error e
    | .ok _ => .error (.unexpectedEnd len .tagEnd)
  | .equals _ _ _ => .error (.unexpectedEnd len .equals)
  | .value _ _ _ => .error (.unexpectedEnd len .value)
  | .body e => .error (.unexpectedEnd len (.closing e.name))
  | .endName _ => .error (.unexpectedEnd len .closingName)
  | .endMark _ => .error (.unexpectedEnd len .closeMark)
  | .finished root => .ok ⟨root, s.issued⟩

/-! ## 4. Whole texts -/

/-- The tree of a sequence of tokens from a text of `len` bytes. -/
def ofTokens (len : Nat) (ts : List (Located Token)) : Except Fault Tree :=
  match ts.foldlM step .start with
  | .error e => .error e
  | .ok s => s.finish len

/-- The tree of a text. The text is cut into tokens first, so a stretch that is no token is found
    before any fault in the tags. -/
def read (text : String) : Except Fault Tree :=
  match scan text with
  | .error e => .error e
  | .ok ts => ofTokens (width text.toList) ts

end Dialplan.Markup
