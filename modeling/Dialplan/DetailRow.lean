import Dialplan.Tree
/-!
# Rule sets from detail rows

A rule set is also kept as flat rows, each with the group it belongs to and its place in the group.
The tree of such rows is built in one pass over the rows sorted by group and place, rows of one
place in the order in which they come.

* a condition row opens a condition, which takes the rows after it up to the next condition row or
  the end of the group;
* a regex row counts only inside an open condition of regexes;
* an action row goes into the open condition, or below the root where none is open;
* a row with any other tag is passed over.
-/

namespace Dialplan

/-- One stored row. -/
structure DetailRow where
  group : Int
  order : Int
  tag : String
  type : String
  data : String
  breakMode : String
  inlineMode : String
  enabled : Bool
deriving DecidableEq, Repr

namespace DetailRow

/-! ## 1. The node of a row -/

/-- The pair of a key and a value, where the value is not empty. -/
def given (key value : String) : List (String × String) :=
  if value.isEmpty then [] else [(key, value)]

/-- What a row becomes, if its tag stands for a node. -/
inductive Role where
  | condition (kind : BranchKind)
  | regex
  | action (kind : LeafKind)
deriving DecidableEq, Repr

/-- The role of a row: its tag, and for a condition its type. -/
def role? (r : DetailRow) : Option Role :=
  if r.tag = "condition" then
    some (.condition (if r.type = "regex" then .regexCondition else .condition))
  else if r.tag = "regex" then some .regex
  else if r.tag = "action" then some (.action .action)
  else if r.tag = "anti-action" then some (.action .antiAction)
  else none

/-- The attributes that a row gives its node. -/
def attributes (r : DetailRow) : Role → Attributes
  | .condition .regexCondition =>
    ⟨[("regex", if r.data.isEmpty then "all" else r.data)] ++ given "break" r.breakMode⟩
  | .condition _ | .regex =>
    ⟨[("field", r.type), ("expression", r.data)] ++ given "break" r.breakMode⟩
  | .action _ => ⟨[("application", r.type)] ++ given "data" r.data ++ given "inline" r.inlineMode⟩

/-- The label of a row's node. -/
def label (r : DetailRow) (role : Role) (id : NodeId) : Label := ⟨id, r.attributes role, r.enabled⟩

/-! ## 2. One pass over the rows -/

/-- Whether a row comes no later than another. -/
def before (a b : DetailRow) : Bool :=
  a.group < b.group || (a.group = b.group && a.order ≤ b.order)

/-- What the rows so far have built: the finished children of the root, the condition that is open,
    the group, and the count of nodes. -/
structure Pass where
  children : List Node
  current : Option Branch
  group : Option Int
  issued : Nat

/-- The next number. -/
def Pass.fresh (p : Pass) : NodeId := ⟨p.issued + 1⟩

/-- The children of the root with the open condition among them. -/
def Pass.finished (p : Pass) : List Node := p.children ++ (p.current.map Branch.node).toList

/-- The pass with the open condition closed. -/
def Pass.flush (p : Pass) : Pass := { p with children := p.finished, current := none }

/-- The pass at a row: a new group closes the open condition. -/
def Pass.enter (p : Pass) (group : Int) : Pass :=
  if p.group = some group then p else { p.flush with group := some group }

/-- A leaf goes into the open condition, or below the root. -/
def Pass.addLeaf (p : Pass) (n : Node) : Pass :=
  match p.current with
  | some b =>
    { p with current := some { b with children := b.children ++ [n] }, issued := p.issued + 1 }
  | none => { p with children := p.children ++ [n], issued := p.issued + 1 }

/-- Whether a condition of regexes is open. -/
def Pass.takesRegex (p : Pass) : Bool :=
  match p.current with
  | some b => b.kind = .regexCondition
  | none => false

/-- One row. -/
def Pass.step (p : Pass) (r : DetailRow) : Pass :=
  let p := p.enter r.group
  match r.role? with
  | none => p
  | some (.condition k) =>
    { p.flush with
      current := some ⟨k, r.label (.condition k) p.fresh, []⟩, issued := p.issued + 1 }
  | some .regex =>
    if p.takesRegex then p.addLeaf (.leaf .regex (r.label .regex p.fresh)) else p
  | some (.action k) => p.addLeaf (.leaf k (r.label (.action k) p.fresh))

end DetailRow

/-- The rows in the order in which they count. -/
def DetailRow.sorted (rows : List DetailRow) : List DetailRow := rows.mergeSort DetailRow.before

/-- The tree of an extension with these attributes and rows. -/
def Tree.ofRows (attributes : Attributes) (rows : List DetailRow) : Tree :=
  let p := (DetailRow.sorted rows).foldl DetailRow.Pass.step ⟨[], none, none, 1⟩
  ⟨⟨.extension, ⟨⟨1⟩, attributes, true⟩, p.finished⟩, p.issued⟩

end Dialplan
