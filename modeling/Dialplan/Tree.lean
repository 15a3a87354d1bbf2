import Dialplan.Node
/-!
# The tree of a rule set

A tree is its root, which owns children, and the count of the numbers given out so far: the next new
node gets the number after the count. Numbers are never given out twice.

The look-ups take a number and answer with the first node in pre-order that has it, the root first.
Only `parentOf?` asks the branches instead: it takes the first branch, in pre-order, that has a
child of this number.
-/

namespace Dialplan

/-! ## 1. The data -/

/-- One rule set: its root and the count of numbers given out. -/
structure Tree where
  root : Branch
  issued : Nat
deriving Repr

/-- The branch as a node. -/
def Branch.node (b : Branch) : Node := .branch b.kind b.label b.children

/-- The number of the branch. -/
def Branch.id (b : Branch) : NodeId := b.label.id

/-- Whether a child of kind `k` may stand in this branch. -/
def Branch.accepts (b : Branch) (k : Kind) : Bool := b.kind.accepts k

/-- The index of the first child with this number. -/
def Branch.childIndex? (b : Branch) (id : NodeId) : Option Nat :=
  b.children.findIdx? fun n => n.id == id

namespace Tree

/-- The bare extension: number 1, the attributes of a new extension, no children. -/
def bare : Tree := ⟨⟨.extension, .new ⟨1⟩ .extension, []⟩, 1⟩

instance : Inhabited Tree := ⟨bare⟩

/-! ## 2. New nodes -/

/-- The number after the last one given out. -/
def fresh (t : Tree) : NodeId := ⟨t.issued + 1⟩

/-- The tree after giving out `fresh`. -/
def issue (t : Tree) : Tree := { t with issued := t.issued + 1 }

/-- A new node of a kind, standing nowhere yet, and the tree that has given out its numbers. A
    condition made of regexes comes with one regex. There is no new extension. -/
def create? (t : Tree) : Kind → Option (Node × Tree)
  | .branch .extension => none
  | .branch .regexCondition =>
    some (.branch .regexCondition (.new t.fresh .regexCondition)
      [.leaf .regex (.new t.issue.fresh .regex)], t.issue.issue)
  | .branch .condition => some (.branch .condition (.new t.fresh .condition) [], t.issue)
  | .leaf k => some (.leaf k (.new t.fresh (.leaf k)), t.issue)

/-! ## 3. Look-ups -/

/-- All nodes in pre-order, the root first. -/
def nodes (t : Tree) : List Node := t.root.node.subtree

/-- All nodes but the root, in pre-order, each with its path. -/
def descendants (t : Tree) : List (Path × Node) := Node.walks .root 0 t.root.children

/-- The first node with a number. -/
def find? (t : Tree) (id : NodeId) : Option Node := t.nodes.find? fun n => n.id == id

/-- The first node with a number, the root left out. -/
def node? (t : Tree) (id : NodeId) : Option Node := Node.findIn? t.root.children id

/-- The first node with a number, if it is a branch. -/
def branch? (t : Tree) (id : NodeId) : Option Branch := (t.find? id).bind Node.branch?

/-- All branches in pre-order, the root first. -/
def branches (t : Tree) : List Branch := t.nodes.filterMap Node.branch?

/-- The first branch that has a child with this number, and the child's index. -/
def parentOf? (t : Tree) (id : NodeId) : Option (Branch × Nat) :=
  t.branches.findSome? fun b => (b.childIndex? id).map fun i => (b, i)

/-- The path of the first node with a number. -/
def pathOf? (t : Tree) (id : NodeId) : Option Path :=
  if t.root.id = id then some .root
  else (t.descendants.find? fun e => e.2.id == id).map (·.1)

/-- The node that child indices lead to from `n`. -/
def nodeFrom? (n : Node) : List Nat → Option Node
  | [] => some n
  | i :: rest => (n.children[i]?).bind fun m => nodeFrom? m rest

/-- The node at a path. -/
def nodeAt? (t : Tree) (p : Path) : Option Node := nodeFrom? t.root.node p.indices

/-- The number of nodes, the root included. -/
def size (t : Tree) : Nat := t.nodes.length

/-- Whether the root stands alone. -/
def isEmpty (t : Tree) : Bool := t.root.children.isEmpty

/-- Equality that leaves the numbers out. -/
def alike (t u : Tree) : Bool := t.root.node.alike u.root.node

/-! ## 4. Changes -/

/-- The tree with the first node of number `id` given another label and other children. -/
def reshape? (t : Tree) (id : NodeId) (label : Label → Label) (children : List Node → List Node) :
    Option Tree :=
  if t.root.id = id then
    some { t with root := ⟨t.root.kind, label t.root.label, children t.root.children⟩ }
  else
    (Node.changeIn? id (fun n => (n.relabel label).regrow children) t.root.children).map fun cs =>
      { t with root := { t.root with children := cs } }

/-- The tree with other children at the first node of number `id`; without such a node, as it is. -/
def regrow (t : Tree) (id : NodeId) (children : List Node → List Node) : Tree :=
  (t.reshape? id (fun l => l) children).getD t

/-- The tree with another label at the first node of number `id`; without such a node, as it is. -/
def relabel (t : Tree) (id : NodeId) (label : Label → Label) : Tree :=
  (t.reshape? id label fun cs => cs).getD t

/-- The tree with the first node of number `id` and everything below it set to one enabled flag;
    without such a node, as it is. -/
def enable (t : Tree) (id : NodeId) (flag : Bool) : Tree :=
  (t.reshape? id (fun l => { l with enabled := flag }) (Node.enableAllIn flag)).getD t

/-- The tree with the root's attributes replaced. -/
def withRootAttributes (t : Tree) (a : Attributes) : Tree :=
  { t with root := { t.root with label := { t.root.label with attributes := a } } }

end Tree

end Dialplan
