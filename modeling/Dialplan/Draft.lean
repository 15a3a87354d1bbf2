import Dialplan.Edit
import Dialplan.Markup.Printing
import Dialplan.Markup.Reading
/-!
# Drafts

A draft is one rule set while it is edited: its tree, its text, a version that grows with every
change of the tree, and whether there is something to save. The text is kept as it was typed; only
an edit of the tree makes it anew.
-/

namespace Dialplan

/-- A rule set while it is edited. -/
structure Draft where
  version : Nat
  tree : Tree
  markup : String
  dirty : Bool
deriving Repr

/-- What an edit gave: the version after it, and the number of the node it created. -/
structure Receipt where
  version : Nat
  created : Option NodeId
deriving DecidableEq, Repr

namespace Draft

/-- A draft whose text is made from its tree. -/
def ofTree (indent : String) (t : Tree) : Draft := ⟨0, t, Markup.print indent t, false⟩

/-- A draft of a text that is a rule set. -/
def ofMarkup (text : String) : Except Markup.Fault Draft :=
  match Markup.read text with
  | .error e => .error e
  | .ok t => .ok ⟨0, t, text, false⟩

/-- A draft of a text that is none, beside a tree that stands in. -/
def unread (text : String) (t : Tree) : Draft := ⟨0, t, text, false⟩

/-- An edit of the tree. -/
def apply (d : Draft) (indent : String) (e : Edit) : Except Refusal (Receipt × Draft) :=
  match e.apply d.tree with
  | .error r => .error r
  | .ok (t, created) =>
    .ok (⟨d.version + 1, created⟩, ⟨d.version + 1, t, Markup.print indent t, true⟩)

/-- An edit of the text. -/
def setMarkup (d : Draft) (text : String) : Draft := { d with markup := text, dirty := true }

/-- Another tree for the same text. -/
def replaceTree (d : Draft) (t : Tree) : Draft := { d with tree := t, version := d.version + 1 }

/-- Something outside tree and text changed. -/
def touch (d : Draft) : Draft := { d with dirty := true }

/-- Everything was saved. -/
def markSaved (d : Draft) : Draft := { d with dirty := false }

end Draft

end Dialplan
