import Dialplan.Json.Shape
import Dialplan.Tree
/-!
# Nodes and trees in JSON

A node is a record of its number, kind, attributes, enabled flag and, for a branch, its children. A
value that has the five columns of a branch and a branch's kind is a branch; any other is a leaf if
it has the four columns of a leaf, whatever else it has.
-/

namespace Dialplan.Exchange

open Dialplan.Json

/-! ## 1. Kinds, numbers, paths, attributes -/

/-- A kind is its own text. -/
def ofKind (k : Kind) : Json := .str k.text

/-- The kind with a word. -/
def kind? (j : Json) : Option Kind := (word? j).bind Kind.ofText?

/-- The kind with a word, if branches have it. -/
def branchKind? (j : Json) : Option BranchKind :=
  match kind? j with
  | some (.branch k) => some k
  | _ => none

/-- The kind with a word, if leaves have it. -/
def leafKind? (j : Json) : Option LeafKind :=
  match kind? j with
  | some (.leaf k) => some k
  | _ => none

/-- The number of a node is a bare number. -/
def ofId (id : NodeId) : Json := .nat id.number

/-- The number of a node, which has at most 64 bits. -/
def id? (j : Json) : Option NodeId := (nat64? j).map NodeId.mk

/-- A path is the list of its indices. -/
def ofPath (p : Path) : Json := list .nat p.indices

/-- The path in a list of numbers of at most 64 bits each. -/
def path? (j : Json) : Option Path := (list? nat64? j).map Path.mk

/-- Attributes are a list of pairs, since their order counts. -/
def ofAttributes (a : Attributes) : Json := list (fun p => .arr [.str p.1, .str p.2]) a.pairs

/-- The attributes in a list of pairs, as they stand there. -/
def attributes? (j : Json) : Option Attributes := (list? pair? j).map Attributes.mk

/-! ## 2. Nodes -/

/-- The columns that every node has. -/
def ofLabel (kind : Kind) (l : Label) : List (String × Json) :=
  [("id", ofId l.id), ("kind", ofKind kind), ("attributes", ofAttributes l.attributes),
    ("enabled", .bool l.enabled)]

mutual

/-- A node is an object; a branch has its children as the last member, also where there are none. -/
def ofNode : Node → Json
  | .leaf k l => .obj (ofLabel (.leaf k) l)
  | .branch k l cs => .obj (ofLabel (.branch k) l ++ [("children", .arr (ofNodes cs))])

/-- The nodes of a list, one by one. -/
def ofNodes : List Node → List Json
  | [] => []
  | n :: rest => ofNode n :: ofNodes rest

end

/-- A branch is written as the node that it is. -/
def ofBranch (b : Branch) : Json := ofNode b.node

/-- A tree is an object with its root; the count of numbers given out is not written. -/
def ofTree (t : Tree) : Json := .obj [("root", ofBranch t.root)]

/-- The columns of a leaf. -/
def leafColumns : List (List String) := [["id"], ["kind"], ["attributes"], ["enabled"]]

/-- The label in the columns of a node. -/
def label? (id attributes enabled : Cell) : Option Label := do
  return ⟨← id.required id?, ← attributes.required attributes?, ← enabled.required bool?⟩

/-- A leaf. -/
def leaf? (j : Json) : Option Node := do
  match ← columns? leafColumns j with
  | [id, kind, attributes, enabled] =>
    return .leaf (← kind.required leafKind?) (← label? id attributes enabled)
  | _ => none

/-- What a branch has apart from its children. -/
def branchHead? (j : Json) : Option (BranchKind × Label) := do
  match ← columns? (leafColumns ++ [["children"]]) j with
  | [id, kind, attributes, enabled, _] =>
    return (← kind.required branchKind?, ← label? id attributes enabled)
  | _ => none

/-- A branch with these children, if the value has the head of one. -/
def branchWith? (j : Json) (children : Option (List Node)) : Option Branch :=
  match branchHead? j, children with
  | some (k, l), some cs => some ⟨k, l, cs⟩
  | _, _ => none

/-- A branch with these children, or else a leaf. -/
def branchOrLeaf? (j : Json) (children : Option (List Node)) : Option Node :=
  match branchWith? j children with
  | some b => some b.node
  | none => leaf? j

mutual

/-- A node in a value whose numbers are in range. -/
def nodeIn? : Json → Option Node
  | .obj members => branchOrLeaf? (.obj members) (childrenAmong? members)
  | .arr items => branchOrLeaf? (.arr items) (childrenAt? 4 items)
  | _ => none

/-- The nodes of a list of values. -/
def nodes? : List Json → Option (List Node)
  | [] => some []
  | j :: rest =>
    match nodeIn? j, nodes? rest with
    | some n, some ns => some (n :: ns)
    | _, _ => none

/-- The nodes under the name of the children. -/
def childrenAmong? : List (String × Json) → Option (List Node)
  | [] => none
  | (name, .arr items) :: rest => if name = "children" then nodes? items else childrenAmong? rest
  | (name, _) :: rest => if name = "children" then none else childrenAmong? rest

/-- The nodes in the item at a position. -/
def childrenAt? : Nat → List Json → Option (List Node)
  | 0, .arr items :: _ => nodes? items
  | n + 1, _ :: rest => childrenAt? n rest
  | _, _ => none

end

/-- A node. -/
def node? (j : Json) : Option Node := if j.inRange then nodeIn? j else none

/-- A branch. Only the numbers of its own columns and of its children have to be in range. -/
def branch? : Json → Option Branch
  | .obj members =>
    if (membersNamed "children" members).all inRange then
      branchWith? (.obj members) (childrenAmong? members)
    else none
  | .arr items => if inRangeAll items then branchWith? (.arr items) (childrenAt? 4 items) else none
  | _ => none

end Dialplan.Exchange
