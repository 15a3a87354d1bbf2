import Dialplan.Applications
import Dialplan.Tree
/-!
# What the visual editor shows

The projection of a tree is a flat list of rows, one for every node below the root, a node before
its children. A row says where its node is, which inputs it has and which kinds can be added to it.
The projection depends on the tree and the list of applications alone.

* `rowsOf`: the rows of a list of nodes and of everything below them;
* `Projection.of`: the projection of a tree;
* `Projection.text`: the projection as an indented outline.
-/

namespace Dialplan

/-! ## 1. Inputs -/

/-- How a value is put in. -/
inductive Input where
  | text
  /-- Free text, completed from the variables. -/
  | fieldName
  /-- Free text, completed from the applications, with how the name stands to them. -/
  | application (standing : Standing)
  | choice (options : List String)
deriving DecidableEq, Repr

/-- One input of a row. -/
structure Field where
  key : String
  label : String
  value : String
  input : Input
deriving DecidableEq, Repr

/-- When the switch stops looking at further conditions. -/
def breakOptions : List String := ["", "on-true", "on-false", "always", "never"]

/-- How the regexes of a condition are combined. -/
def modeOptions : List String := ["all", "any", "xor"]

/-- Whether an action runs while conditions are looked at. -/
def inlineOptions : List String := ["", "true", "false"]

/-- The inputs of a node. -/
def fieldsOf (applications : Applications) (kind : Kind) (a : Attributes) : List Field :=
  match kind with
  | .branch .extension => []
  | .branch .condition | .leaf .regex =>
    [⟨"field", "Field", a.getD "field", .fieldName⟩,
      ⟨"expression", "Expression", a.getD "expression", .text⟩,
      ⟨"break", "Break", a.getD "break", .choice breakOptions⟩]
  | .branch .regexCondition =>
    let mode := a.getD "regex"
    [⟨"regex", "Regex", if mode.isEmpty then "all" else mode, .choice modeOptions⟩,
      ⟨"break", "Break", a.getD "break", .choice breakOptions⟩]
  | .leaf .action | .leaf .antiAction =>
    let application := a.getD "application"
    [⟨"application", "Application", application, .application (applications.standing application)⟩,
      ⟨"data", "Data", a.getD "data", .text⟩,
      ⟨"inline", "Inline", a.getD "inline", .choice inlineOptions⟩]

/-- The kinds that can be added below the root. -/
def rootButtons : List Kind := [.action, .condition, .regexCondition]

/-- The kinds that can be added to a node. -/
def buttonsOf : Kind → List Kind
  | .branch .condition => [.action, .antiAction, .condition, .regexCondition]
  | .branch .regexCondition => [.regex, .action, .antiAction, .condition, .regexCondition]
  | _ => []

/-! ## 2. Rows -/

/-- One node as it is shown. -/
structure Row where
  id : NodeId
  path : Path
  depth : Nat
  parent : NodeId
  index : Nat
  kind : Kind
  enabled : Bool
  fields : List Field
  buttons : List Kind
  /-- Whether the row has an area that takes a drop as its last child. -/
  childArea : Bool
deriving DecidableEq, Repr

/-- The row of the node that is the child of `parent` at `index` and stands at `path`. -/
def rowOf (applications : Applications) (parent : NodeId) (index : Nat) (path : Path) (kind : Kind)
    (l : Label) : Row :=
  ⟨l.id, path, path.depth, parent, index, kind, l.enabled, fieldsOf applications kind l.attributes,
    buttonsOf kind, kind.isBranch⟩

mutual

/-- The rows of a node and of everything below it. -/
def rowsAt (applications : Applications) (parent : NodeId) (index : Nat) (path : Path) :
    Node → List Row
  | .leaf k l => [rowOf applications parent index path (.leaf k) l]
  | .branch k l cs =>
    rowOf applications parent index path (.branch k) l :: rowsOf applications l.id path 0 cs

/-- The rows of the children of a node from the one at `index` on, and of everything below them. -/
def rowsOf (applications : Applications) (parent : NodeId) (path : Path) (index : Nat) :
    List Node → List Row
  | [] => []
  | n :: rest =>
    rowsAt applications parent index (path.child index) n ++
      rowsOf applications parent path (index + 1) rest

end

/-! ## 3. The whole projection -/

/-- All that is shown of a tree. The generation counts the projections of one session. -/
structure Projection where
  generation : Nat
  rootId : NodeId
  rootName : String
  rootButtons : List Kind
  rows : List Row
deriving DecidableEq, Repr

namespace Projection

/-- The projection of a tree. -/
def of (t : Tree) (applications : Applications) (generation : Nat) : Projection :=
  ⟨generation, t.root.id, t.root.label.attributes.getD "name", Dialplan.rootButtons,
    rowsOf applications t.root.id .root 0 t.root.children⟩

/-- The first row with a number. -/
def row? (p : Projection) (id : NodeId) : Option Row := p.rows.find? fun r => r.id == id

/-- An input in the outline: its value where there is one, and a remark where no such application is
    known. -/
def fieldText (f : Field) : String :=
  (if f.value.isEmpty then "" else " " ++ f.key ++ "=" ++ f.value) ++
    (if f.input = .application .unknown then " (unknown)" else "")

/-- A row as a line of the outline. -/
def rowText (r : Row) : String :=
  String.join (List.replicate r.depth "  ") ++ "[" ++ r.kind.badge ++ "]" ++
    String.join (r.fields.map fieldText) ++ (if r.enabled then "" else " (disabled)") ++ "\n"

/-- The outline: a line for the root, then a line for every row. -/
def text (p : Projection) : String :=
  "extension \"" ++ p.rootName ++ "\"\n" ++ String.join (p.rows.map rowText)

end Projection

end Dialplan
