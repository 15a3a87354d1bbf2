import Dialplan.Tree
/-!
# Edits of a tree

An edit is one of the five ways in which the visual side changes a rule set. It is checked in full
against the tree before anything is changed; an edit that is refused leaves the tree as it was, and
an edit that passes the check is always carried out.

* `Edit.check`: whether an edit may be done, or why not;
* `Edit.effect`: the tree after an edit that passed;
* `Edit.apply`: the two together, with the number of the node that was created.

A move first takes the node out and then puts it in, so its index counts places in the list that the
node has already left.
-/

namespace Dialplan

/-! ## 1. Edits and refusals -/

/-- Where a moved node goes. -/
inductive Destination where
  /-- Before the child that is at `index` once the node has been taken out. -/
  | index (parent : NodeId) (index : Nat)
  /-- After all children. -/
  | lastChild (parent : NodeId)
deriving DecidableEq, Repr

/-- The branch that the node goes to. -/
def Destination.parent : Destination → NodeId
  | .index p _ | .lastChild p => p

/-- The index to insert at; nothing stands for the end. -/
def Destination.position : Destination → Option Nat
  | .index _ i => some i
  | .lastChild _ => none

/-- A change to a rule set. -/
inductive Edit where
  /-- A new node of a kind, at a position among the children of `parent` or at their end. -/
  | addChild (parent : NodeId) (kind : Kind) (position : Option Nat)
  /-- The child at an index goes, with everything below it. -/
  | removeChild (parent : NodeId) (index : Nat)
  /-- A node, which is the child of `fromParent` at `fromIndex`, goes elsewhere. -/
  | moveNode (node fromParent : NodeId) (fromIndex : Nat) (destination : Destination)
  /-- The enabled flag of a node and of everything below it. -/
  | setEnabled (node : NodeId) (flag : Bool)
  /-- One attribute of a node. -/
  | setAttribute (node : NodeId) (key value : String)
deriving DecidableEq, Repr

/-- Why an edit is not done. -/
inductive Refusal where
  | nodeNotFound (id : NodeId)
  | parentNotFound (id : NodeId)
  | notABranch (id : NodeId)
  | invalidChild (parent child : Kind)
  | indexOutOfBounds (index size : Nat)
  | cycle
  | staleSource (node parent : NodeId) (index : Nat)
  | cannotCreate (kind : Kind)
  | unsupportedAttribute (kind : Kind) (key : String)
deriving DecidableEq, Repr

/-- The message of a refusal. -/
def Refusal.message : Refusal → String
  | .nodeNotFound id => "Node not found: " ++ id.text
  | .parentNotFound id => "Parent not found: " ++ id.text
  | .notABranch id => "Node " ++ id.text ++ " cannot have children"
  | .invalidChild parent child =>
    "<" ++ child.text ++ "> is not allowed inside <" ++ parent.text ++ ">"
  | .indexOutOfBounds index size =>
    "Index " ++ toString index ++ " out of bounds for " ++ toString size ++ " children"
  | .cycle => "Would create cycle"
  | .staleSource node parent index =>
    "Node " ++ node.text ++ " is no longer at index " ++ toString index ++ " of " ++ parent.text
  | .cannotCreate kind => "Cannot create another " ++ kind.text
  | .unsupportedAttribute kind key =>
    "Attribute '" ++ key ++ "' cannot be set on " ++ kind.text

namespace Edit

/-- The node whose subtree an edit is about. -/
def target : Edit → NodeId
  | .addChild p _ _ | .removeChild p _ => p
  | .moveNode n _ _ _ | .setEnabled n _ | .setAttribute n _ _ => n

/-! ## 2. The check -/

/-- The branch with a number. -/
def needBranch (t : Tree) (id : NodeId) : Except Refusal Branch :=
  match t.find? id with
  | none => .error (.parentNotFound id)
  | some n =>
    match n.branch? with
    | none => .error (.notABranch id)
    | some b => .ok b

/-- The node with a number. -/
def needNode (t : Tree) (id : NodeId) : Except Refusal Node :=
  match t.find? id with
  | none => .error (.nodeNotFound id)
  | some n => .ok n

/-- A branch takes a child of a kind. -/
def checkKind (b : Branch) (kind : Kind) : Except Refusal Unit :=
  if b.accepts kind then .ok () else .error (.invalidChild (.branch b.kind) kind)

/-- A position is at most the number of children. -/
def checkPosition (position : Option Nat) (size : Nat) : Except Refusal Unit :=
  match position with
  | none => .ok ()
  | some i => if i > size then .error (.indexOutOfBounds i size) else .ok ()

/-- The child at an index, if it is the node with this number. -/
def needChild (b : Branch) (parent : NodeId) (index : Nat) (node : NodeId) : Except Refusal Node :=
  match b.children[index]? with
  | some n => if n.id = node then .ok n else .error (.staleSource node parent index)
  | none => .error (.staleSource node parent index)

/-- Whether an edit may be done. -/
def check (t : Tree) : Edit → Except Refusal Unit
  | .addChild parent kind position =>
    if kind = .extension then .error (.cannotCreate kind)
    else do
      let b ← needBranch t parent
      checkKind b kind
      checkPosition position b.children.length
  | .removeChild parent index => do
    let b ← needBranch t parent
    if index ≥ b.children.length then throw (.indexOutOfBounds index b.children.length)
  | .moveNode node fromParent fromIndex destination => do
    let source ← needBranch t fromParent
    let moved ← needChild source fromParent fromIndex node
    if moved.contains destination.parent then throw .cycle
    let b ← needBranch t destination.parent
    checkKind b moved.kind
    let size := if b.id = fromParent then b.children.length - 1 else b.children.length
    checkPosition destination.position size
  | .setEnabled node _ => do
    let _ ← needNode t node
  | .setAttribute node key _ => do
    let n ← needNode t node
    if key = "enabled" || (key = "regex" && n.kind ≠ .regexCondition) ||
        !Attributes.isValidKey key then
      throw (.unsupportedAttribute n.kind key)

/-! ## 3. The effect -/

/-- A list with a node put in at a position, or at the end. -/
def insertAt (position : Option Nat) (n : Node) (ns : List Node) : List Node :=
  match position with
  | none => ns ++ [n]
  | some i => ns.insertIdx i n

/-- The value that is written: the mode of a condition made of regexes is never empty. -/
def writtenValue (kind : Kind) (key value : String) : String :=
  if kind = .regexCondition && key = "regex" && value.isEmpty then "all" else value

/-- The tree after an edit, and the number of the node it created. -/
def effect (t : Tree) : Edit → Tree × Option NodeId
  | .addChild parent kind position =>
    match t.create? kind with
    | none => (t, none)
    | some (n, t') => (t'.regrow parent (insertAt position n), some n.id)
  | .removeChild parent index => (t.regrow parent fun ns => ns.eraseIdx index, none)
  | .moveNode _ fromParent fromIndex destination =>
    match (t.branch? fromParent).bind fun b => b.children[fromIndex]? with
    | none => (t, none)
    | some moved =>
      ((t.regrow fromParent fun ns => ns.eraseIdx fromIndex).regrow destination.parent
        (insertAt destination.position moved), none)
  | .setEnabled node flag => (t.enable node flag, none)
  | .setAttribute node key value =>
    match t.find? node with
    | none => (t, none)
    | some n =>
      (t.relabel node fun l =>
        { l with attributes := l.attributes.set key (writtenValue n.kind key value) }, none)

/-- **An edit is done as a whole or not at all.** The tree after it, and the number of the node it
    created. -/
def apply (t : Tree) (e : Edit) : Except Refusal (Tree × Option NodeId) :=
  match e.check t with
  | .error r => .error r
  | .ok () => .ok (e.effect t)

end Edit

end Dialplan
