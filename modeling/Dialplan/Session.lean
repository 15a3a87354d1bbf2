import Dialplan.Check
import Dialplan.Drag
import Dialplan.Draft
import Dialplan.Projection
import Dialplan.Reconcile
import Dialplan.Settings
import Dialplan.Store
/-!
# Editing one rule set

A session is one user at one rule set. Edits of the tree go one way: the edit is checked and done,
the text is made anew, tree and text agree, the rows are shown anew. Edits of the text go another:
they leave the tree behind until the text is read again, and then the tree is replaced as a whole.

Every operation gives its result together with the session after it. An operation that fails gives
the session back as it was; only a drop that fails has still ended the drag.

* `Session.new`, `Session.open`: how a session starts;
* `Session.apply` and what is built on it: edits of the tree;
* `Session.editMarkup`, `Session.begin`, `Session.complete`: edits of the text;
* `Session.save`: the text goes to a store.
-/

namespace Dialplan

open Dialplan.Text

/-! ## 1. Faults -/

/-- What keeps a rule set from being saved, and at which node. -/
structure Blocker where
  message : String
  path : Path
deriving DecidableEq, Repr

/-- The first condition of regexes that keeps a tree from being saved. -/
def Blocker.of? (t : Tree) : Option Blocker :=
  t.blocker?.map fun f =>
    ⟨f.message, match f.place with
      | .node p => p
      | .offset _ => .root⟩

/-- Why an operation of a session fails. -/
inductive SessionFault where
  | refused (r : Refusal)
  | blocked (b : Blocker)
  | store (e : StoreFault)
  | drag (e : DragFault)
  | nodeNotFound (id : NodeId)
deriving DecidableEq, Repr

/-- The message of a fault. -/
def SessionFault.message : SessionFault → String
  | .refused r => "Mutation error: " ++ r.message
  | .blocked b => "Validation failed: " ++ b.message
  | .store e => "Store error: " ++ e.message
  | .drag e => e.message
  | .nodeNotFound id => "Node not found: " ++ id.text

/-! ## 2. Saving past a disagreement -/

/-- Why a save asks first. -/
inductive Doubt where
  | stale
  | error
deriving DecidableEq, Repr

/-- The word for a doubt. -/
def Doubt.text : Doubt → String
  | .stale => "stale"
  | .error => "error"

/-- The question that is asked. -/
def Doubt.prompt : Doubt → String
  | .stale =>
    "The XML has changed since the visual editor was last updated. Save the XML as it is?"
  | .error => "The XML contains errors. Save it anyway?"

/-- What a save has to ask, if tree and text do not agree and it has not been answered. -/
def Agreement.doubt? (a : Agreement) (confirmed : Bool) : Option Doubt :=
  match a, confirmed with
  | .synced, _ | _, true => none
  | .stale, false => some .stale
  | .error _, false => some .error

/-- What a save that may go ahead has done. -/
inductive SaveOutcome where
  | saved
  | confirm (doubt : Doubt)
deriving DecidableEq, Repr

/-! ## 3. Sessions -/

/-- One user at one rule set. -/
structure Session where
  id : String
  draft : Draft
  tracker : Tracker
  drag : Drag
  quiet : Quiet
  applications : Applications
  preferences : Preferences
  metadata : Metadata
  shown : Projection
  /-- How often the rows have been shown; the first time counts. -/
  renders : Nat

/-- The bare extension with the name and the continue flag of the metadata. -/
def Tree.ofMetadata (m : Metadata) : Tree :=
  Tree.bare.withRootAttributes
    ((Tree.bare.root.label.attributes.set "name" m.name).set "continue" (boolText m.continues))

namespace Session

/-- A session at its start. -/
def assemble (id : String) (draft : Draft) (agreement : Agreement) (m : Metadata)
    (p : Preferences) : Session :=
  { id := id, draft := draft, tracker := .starting agreement, drag := .idle,
    quiet := .new p.quietMillis, applications := .none, preferences := p, metadata := m,
    shown := .of draft.tree .none 1, renders := 1 }

/-- A new rule set: the bare extension, named as the metadata say. -/
def new (id : String) (m : Metadata) (p : Preferences) : Session :=
  assemble id (.ofTree p.indent (.ofMetadata m)) .synced m p

/-- A rule set with a text. A blank text stands for a new rule set; a text that cannot be read is
    kept beside the tree of a new one. -/
def «open» (id markup : String) (m : Metadata) (p : Preferences) : Session :=
  if blank markup then new id m p
  else match Draft.ofMarkup markup with
    | .ok draft => assemble id draft .synced m p
    | .error e => assemble id (.unread markup (.ofMetadata m)) (.error e.message) m p

/-- The tree that the visual side edits. -/
def tree (s : Session) : Tree := s.draft.tree

/-- The text that a save would store. -/
def markup (s : Session) : String := s.draft.markup

/-- Whether tree and text agree. -/
def agreement (s : Session) : Agreement := s.tracker.agreement

/-- The rows shown anew. -/
def rerender (s : Session) : Session :=
  { s with renders := s.renders + 1, shown := .of s.tree s.applications (s.renders + 1) }

/-! ## 4. Lists -/

/-- Another list of applications. -/
def setApplications (s : Session) (a : Applications) : Session :=
  { s with applications := a }.rerender

/-- The applications that contain a text, as many as the preferences allow. -/
def suggestApplications (s : Session) (filter : String) : List String :=
  s.applications.suggest filter s.preferences.autocompleteLimit

/-- The variables that contain a text or whose words do, as many as the preferences allow. -/
def suggestFields (s : Session) (filter : String) : List FieldEntry :=
  Fields.suggest Fields.builtin filter s.preferences.autocompleteLimit

/-! ## 5. Edits of the tree -/

/-- One edit of the tree. -/
def apply (s : Session) (e : Edit) : Except SessionFault Receipt × Session :=
  match s.draft.apply s.preferences.indent e with
  | .error r => (.error (.refused r), s)
  | .ok (receipt, draft) =>
    (.ok receipt, { s with draft := draft, tracker := s.tracker.treeEdited }.rerender)

/-- An edit of which only the doing counts. -/
def perform (s : Session) (e : Edit) : Except SessionFault Unit × Session :=
  let (result, s') := s.apply e
  (result.map fun _ => (), s')

/-- A new child; its number. -/
def addChild (s : Session) (parent : NodeId) (kind : Kind) (position : Option Nat) :
    Except SessionFault NodeId × Session :=
  match s.apply (.addChild parent kind position) with
  | (.error e, s') => (.error e, s')
  | (.ok ⟨_, some id⟩, s') => (.ok id, s')
  | (.ok ⟨_, none⟩, s') => (.error (.nodeNotFound parent), s')

/-- A new last child of the root; its number. -/
def addNode (s : Session) (kind : Kind) : Except SessionFault NodeId × Session :=
  s.addChild s.tree.root.id kind none

/-- The child at an index goes, with everything below it. -/
def removeChild (s : Session) (parent : NodeId) (index : Nat) :
    Except SessionFault Unit × Session :=
  s.perform (.removeChild parent index)

/-- Where a node is. -/
def locate (s : Session) (node : NodeId) : Except SessionFault (NodeId × Nat) :=
  match s.tree.parentOf? node with
  | some (b, i) => .ok (b.id, i)
  | none => .error (.nodeNotFound node)

/-- A node goes, wherever it is. -/
def removeNode (s : Session) (node : NodeId) : Except SessionFault Unit × Session :=
  match s.locate node with
  | .error e => (.error e, s)
  | .ok (parent, index) => s.removeChild parent index

/-- A node goes from wherever it is to a destination. -/
def moveNode (s : Session) (node : NodeId) (destination : Destination) :
    Except SessionFault Unit × Session :=
  match s.locate node with
  | .error e => (.error e, s)
  | .ok (parent, index) => s.perform (.moveNode node parent index destination)

/-- Another enabled flag for a node and for everything below it. -/
def setEnabled (s : Session) (node : NodeId) (flag : Bool) : Except SessionFault Unit × Session :=
  s.perform (.setEnabled node flag)

/-- Another value for one attribute of a node. -/
def setAttribute (s : Session) (node : NodeId) (key value : String) :
    Except SessionFault Unit × Session :=
  s.perform (.setAttribute node key value)

/-! ## 6. Metadata -/

/-- Another name, of the root and in the metadata. -/
def setName (s : Session) (name : String) : Except SessionFault Unit × Session :=
  match s.setAttribute s.tree.root.id "name" name with
  | (.error e, s') => (.error e, s')
  | (.ok (), s') => (.ok (), { s' with metadata := { s'.metadata with name := name } })

/-- Another continue flag, of the root and in the metadata. -/
def setContinue (s : Session) (flag : Bool) : Except SessionFault Unit × Session :=
  match s.setAttribute s.tree.root.id "continue" (boolText flag) with
  | (.error e, s') => (.error e, s')
  | (.ok (), s') => (.ok (), { s' with metadata := { s'.metadata with continues := flag } })

/-- Other metadata; name and continue flag stay, since they are the root's. -/
def updateMetadata (s : Session) (f : Metadata → Metadata) : Session :=
  { s with
    metadata := { f s.metadata with name := s.metadata.name, continues := s.metadata.continues }
    draft := s.draft.touch }

/-! ## 7. Dragging -/

/-- A node is picked up. -/
def startDrag (s : Session) (node : NodeId) : Except SessionFault Grip × Session :=
  match s.drag.start s.tree node with
  | .error e => (.error (.drag e), s)
  | .ok (g, d) => (.ok g, { s with drag := d })

/-- The pointer is over a target; the marker that is shown there. -/
def hover (s : Session) (target : Hovered) : Option Indicator × Session :=
  let d := s.drag.hover s.tree target
  (d.indicator?, { s with drag := d })

/-- The end of a drag; nothing is given where the drop was given up. -/
def dropOn (s : Session) (target : Hovered) : Except SessionFault (Option Receipt) × Session :=
  if s.drag.isDragging then
    let idle := { s with drag := .idle }
    match s.drag.drop s.tree target with
    | none => (.ok none, idle)
    | some e =>
      let (result, s') := idle.apply e
      (result.map some, s')
  else (.error (.drag .notDragging), s)

/-- The drag is given up, and nothing else changes. -/
def cancelDrag (s : Session) : Session := { s with drag := .idle }

/-! ## 8. Edits of the text -/

/-- Another text at a time; the tree stays. -/
def editMarkup (s : Session) (text : String) (now : Nat) : Session :=
  { s with
    draft := s.draft.setMarkup text
    tracker := s.tracker.textEdited
    quiet := s.quiet.record now }

/-- Whether the text has rested long enough to be read. -/
def reconcileDue (s : Session) (now : Nat) : Bool × Session :=
  let (due, q) := s.quiet.takeReady now
  (due, { s with quiet := q })

/-- A ticket for the text as it is. -/
def begin (s : Session) : Ticket × Session :=
  let (k, tracker) := s.tracker.begin s.markup
  (k, { s with tracker := tracker })

/-- What the text of a ticket reads as; a blank text reads as a new rule set. -/
def readTicket (s : Session) (k : Ticket) : Except Markup.Fault Tree :=
  if blank k.text then .ok (.ofMetadata s.metadata) else Markup.read k.text

/-- The metadata with the name and the continue flag that a root has. -/
def followRoot (m : Metadata) (root : Attributes) : Metadata :=
  let m := match root.get? "name" with
    | some name => { m with name := name }
    | none => m
  match root.get? "continue" with
  | some flag => { m with continues := flag = "true" }
  | none => m

/-- What was read counts, if nothing newer than the ticket has come. -/
def complete (s : Session) (k : Ticket) (result : Except Markup.Fault Tree) : Outcome × Session :=
  if s.tracker.isCurrent k then
    match result with
    | .ok t =>
      (.applied,
        { s with
          drag := .idle
          metadata := followRoot s.metadata t.root.label.attributes
          draft := s.draft.replaceTree t
          tracker := s.tracker.succeeded }.rerender)
    | .error e => (.failed e.message, { s with tracker := s.tracker.failed e.message })
  else (.superseded, s)

/-- The text is read at once. -/
def reconcile (s : Session) : Outcome × Session :=
  let (k, s') := s.begin
  s'.complete k (s'.readTicket k)

/-! ## 9. Saving -/

/-- What keeps the rule set from being saved. -/
def blocker? (s : Session) : Option Blocker := Blocker.of? s.tree

/-- The text goes to a store. What blocks a save comes first, then the question about a
    disagreement, then what the store says. -/
def save {σ : Type} [Store σ] (s : Session) (store : σ) (confirmed : Bool) :
    Except SessionFault SaveOutcome × Session × σ :=
  match s.blocker? with
  | some b => (.error (.blocked b), s, store)
  | none =>
    match s.agreement.doubt? confirmed with
    | some d => (.ok (.confirm d), s, store)
    | none =>
      match Store.save store s.id ⟨s.markup, s.metadata⟩ with
      | (.error e, store) => (.error (.store e), s, store)
      | (.ok (), store) => (.ok .saved, { s with draft := s.draft.markSaved }, store)

end Session

end Dialplan
