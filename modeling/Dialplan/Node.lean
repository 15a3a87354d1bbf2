import Dialplan.Kind
import Dialplan.Path
/-!
# Nodes

A node is a leaf or a branch that owns an ordered list of children. What every node has apart from
its kind and its children is its label: its number within the tree, its attributes and its enabled
flag. Numbers may repeat in a node that comes from outside; every search takes the first node in
pre-order.

* `subtree`: the node and all below it, in pre-order;
* `walk`: the same with every node's path;
* `alike`: equality that leaves the numbers out;
* `change?`: a change at the first node with a number, everything else as it was.
-/

namespace Dialplan

/-! ## 1. The data -/

/-- The number of a node within one tree. -/
structure NodeId where
  number : Nat
deriving DecidableEq, Repr

/-- The written form of a number. -/
def NodeId.text (id : NodeId) : String := "#" ++ toString id.number

/-- What every node has beside its kind and its children. -/
structure Label where
  id : NodeId
  attributes : Attributes
  enabled : Bool
deriving DecidableEq, Repr

/-- The label of a new node: the kind's own attributes, enabled. -/
def Label.new (id : NodeId) (kind : Kind) : Label := ⟨id, kind.defaults, true⟩

/-- Whether two labels agree but for the number. -/
def Label.alike (a b : Label) : Bool := a.attributes == b.attributes && a.enabled == b.enabled

/-- A node of a rule set. -/
inductive Node where
  | leaf (kind : LeafKind) (label : Label)
  | branch (kind : BranchKind) (label : Label) (children : List Node)
deriving Repr

/-- A node that is known to own children. -/
structure Branch where
  kind : BranchKind
  label : Label
  children : List Node
deriving Repr

namespace Node

/-- The kind, among those of leaves and of branches. -/
def kind : Node → Kind
  | .leaf k _ => .leaf k
  | .branch k _ _ => .branch k

/-- What the node has beside its kind and its children. -/
def label : Node → Label
  | .leaf _ l => l
  | .branch _ l _ => l

/-- The children; a leaf has none. -/
def children : Node → List Node
  | .leaf _ _ => []
  | .branch _ _ cs => cs

def id (n : Node) : NodeId := n.label.id

def attributes (n : Node) : Attributes := n.label.attributes

def enabled (n : Node) : Bool := n.label.enabled

/-- The node as a branch, if it is one. -/
def branch? : Node → Option Branch
  | .leaf _ _ => none
  | .branch k l cs => some ⟨k, l, cs⟩

/-- A node with another label. -/
def relabel (f : Label → Label) : Node → Node
  | .leaf k l => .leaf k (f l)
  | .branch k l cs => .branch k (f l) cs

/-- A node with other children; a leaf stays. -/
def regrow (f : List Node → List Node) : Node → Node
  | .leaf k l => .leaf k l
  | .branch k l cs => .branch k l (f cs)

/-! ## 2. The nodes below a node -/

mutual

/-- A node and everything below it, in pre-order. -/
def subtree : Node → List Node
  | .leaf k l => [.leaf k l]
  | .branch k l cs => .branch k l cs :: subtrees cs

/-- The nodes of a list and everything below them, in pre-order. -/
def subtrees : List Node → List Node
  | [] => []
  | n :: rest => n.subtree ++ subtrees rest

end

mutual

/-- A node that stands at `path` and everything below it, in pre-order, each with its path. -/
def walk (path : Path) : Node → List (Path × Node)
  | .leaf k l => [(path, .leaf k l)]
  | .branch k l cs => (path, .branch k l cs) :: walks path 0 cs

/-- The children of the node at `path` from the one at `index` on, and everything below them. -/
def walks (path : Path) (index : Nat) : List Node → List (Path × Node)
  | [] => []
  | n :: rest => n.walk (path.child index) ++ walks path (index + 1) rest

end

/-- The number of nodes from this one down. -/
def size (n : Node) : Nat := n.subtree.length

/-- Whether `id` is the number of this node or of one below it. -/
def contains (n : Node) (id : NodeId) : Bool := n.subtree.any fun m => m.id == id

/-- The first node with this number among the nodes of a list and those below them. -/
def findIn? (ns : List Node) (id : NodeId) : Option Node :=
  (subtrees ns).find? fun m => m.id == id

/-! ## 3. Equality without numbers -/

mutual

/-- Whether two nodes have the same kinds, attributes, flags and order of children at every level;
    numbers are left out. -/
def alike : Node → Node → Bool
  | .leaf k a, .leaf k' b => k == k' && a.alike b
  | .branch k a cs, .branch k' b ds => k == k' && a.alike b && alikeAll cs ds
  | _, _ => false

/-- Whether two lists of nodes agree one by one but for the numbers. -/
def alikeAll : List Node → List Node → Bool
  | [], [] => true
  | n :: ns, m :: ms => n.alike m && alikeAll ns ms
  | _, _ => false

end

/-! ## 4. Changes -/

mutual

/-- The node with `f` applied to the first node of number `id`, if there is one. -/
def change? (id : NodeId) (f : Node → Node) : Node → Option Node
  | .leaf k l => if l.id = id then some (f (.leaf k l)) else none
  | .branch k l cs =>
    if l.id = id then some (f (.branch k l cs)) else (changeIn? id f cs).map (.branch k l)

/-- A list of nodes with `f` applied to the first node of number `id` in it or below it. -/
def changeIn? (id : NodeId) (f : Node → Node) : List Node → Option (List Node)
  | [] => none
  | n :: rest =>
    match n.change? id f with
    | some n' => some (n' :: rest)
    | none => (changeIn? id f rest).map (n :: ·)

end

mutual

/-- The node with this enabled flag, and every node below it too. -/
def enableAll (flag : Bool) : Node → Node
  | .leaf k l => .leaf k { l with enabled := flag }
  | .branch k l cs => .branch k { l with enabled := flag } (enableAllIn flag cs)

/-- The nodes of a list and all below them with this enabled flag. -/
def enableAllIn (flag : Bool) : List Node → List Node
  | [] => []
  | n :: rest => n.enableAll flag :: enableAllIn flag rest

end

end Node

end Dialplan
