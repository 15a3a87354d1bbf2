import Dialplan.Edit
/-!
# Dragging a node

A drag picks a node up, follows the pointer and ends in at most one move. Over a node the pointer's
height decides: in the top quarter of its box the drop goes before it, in the bottom quarter after
it, and in between into it, if it is a branch, or else after it. Over the child area of a branch the
drop goes to the end of its children.

* `Zone.classify`: the part of a box that a height lies in;
* `Drag.resolve?`: where a drop would go, or nothing where it has to be given up;
* `Drag.start`, `Drag.hover`, `Drag.drop`: the three gestures.

A place is offered only if the branch that it lies in is not inside the dragged node and takes a
node of its kind.
-/

namespace Dialplan

/-! ## 1. The pointer -/

/-- Where a drop goes with respect to its target. -/
inductive Zone where
  | before
  | after
  | inside
deriving DecidableEq, Repr

/-- The word for a zone. -/
def Zone.text : Zone → String
  | .before => "before"
  | .after => "after"
  | .inside => "inside"

/-- The zone with this text. -/
def Zone.ofText? : String → Option Zone
  | "before" => some .before
  | "after" => some .after
  | "inside" => some .inside
  | _ => none

/-- The part of a box of some height that an offset from its top lies in. -/
def Zone.classify (height offset : Float) (isBranch : Bool) : Zone :=
  if offset < height * 0.25 then .before
  else if offset > height * 0.75 || !isBranch then .after
  else .inside

/-- What the pointer is over. -/
inductive Hovered where
  | node (id : NodeId) (height offset : Float)
  | childArea (branch : NodeId)
  | outside

/-- The marker that is shown while the pointer is over a target. -/
structure Indicator where
  target : NodeId
  zone : Zone
deriving DecidableEq, Repr

/-! ## 2. The state -/

/-- The node that is dragged, and where it was picked up. -/
structure Grip where
  node : NodeId
  kind : Kind
  parent : NodeId
  index : Nat
deriving DecidableEq, Repr

/-- At most one node is dragged at a time. -/
inductive Drag where
  | idle
  | dragging (grip : Grip) (indicator : Option Indicator)
deriving DecidableEq, Repr

/-- Why a node cannot be picked up or dropped. -/
inductive DragFault where
  | inProgress
  | notDragging
  | root
  | nodeNotFound (id : NodeId)
deriving DecidableEq, Repr

/-- The message of a fault. -/
def DragFault.message : DragFault → String
  | .inProgress => "A drag is already in progress"
  | .notDragging => "No drag in progress"
  | .root => "The root extension cannot be dragged"
  | .nodeNotFound id => "Node not found: " ++ id.text

namespace Drag

/-- Whether a node is dragged. -/
def isDragging : Drag → Bool
  | .idle => false
  | .dragging _ _ => true

/-- The node that is dragged. -/
def grip? : Drag → Option Grip
  | .idle => none
  | .dragging g _ => some g

/-- The marker that is shown. -/
def indicator? : Drag → Option Indicator
  | .idle => none
  | .dragging _ i => i

/-! ## 3. Where a drop would go -/

/-- The indicator and the destination that a target stands for, without regard to what is dragged
    but for the place it leaves. -/
def aim? (t : Tree) (g : Grip) : Hovered → Option (Indicator × Destination)
  | .outside => none
  | .childArea b => (t.branch? b).map fun _ => (⟨b, .inside⟩, .lastChild b)
  | .node id height offset =>
    match t.parentOf? id with
    | none => none
    | some (parent, index) =>
      match parent.children[index]? with
      | none => none
      | some n =>
        let zone := Zone.classify height offset n.kind.isBranch
        let shifted := if parent.id = g.parent && g.index < index then index - 1 else index
        let destination := match zone with
          | .before => Destination.index parent.id shifted
          | .after => Destination.index parent.id (shifted + 1)
          | .inside => Destination.lastChild id
        some (⟨id, zone⟩, destination)

/-- Where a drop would go. -/
def resolve? (t : Tree) (g : Grip) (target : Hovered) : Option (Indicator × Destination) :=
  match aim? t g target with
  | none => none
  | some (indicator, destination) =>
    if indicator.target = g.node then none
    else match t.node? g.node, t.branch? destination.parent with
      | some moved, some b =>
        if moved.contains b.id || !b.accepts g.kind then none else some (indicator, destination)
      | _, _ => none

/-! ## 4. Gestures -/

/-- Picks a node up. -/
def start (d : Drag) (t : Tree) (node : NodeId) : Except DragFault (Grip × Drag) :=
  if d.isDragging then .error .inProgress
  else if node = t.root.id then .error .root
  else match t.parentOf? node with
    | none => .error (.nodeNotFound node)
    | some (parent, index) =>
      match parent.children[index]? with
      | none => .error (.nodeNotFound node)
      | some n =>
        let g : Grip := ⟨node, n.kind, parent.id, index⟩
        .ok (g, .dragging g none)

/-- Follows the pointer. -/
def hover (d : Drag) (t : Tree) (target : Hovered) : Drag :=
  match d with
  | .idle => .idle
  | .dragging g _ => .dragging g ((resolve? t g target).map (·.1))

/-- The move that a drop makes, if it makes one. Whatever it makes, the drag is over. -/
def drop (d : Drag) (t : Tree) (target : Hovered) : Option Edit :=
  match d with
  | .idle => none
  | .dragging g _ =>
    (resolve? t g target).map fun (_, destination) => .moveNode g.node g.parent g.index destination

end Drag

end Dialplan
