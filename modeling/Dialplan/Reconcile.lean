/-!
# Tree and text

The tree of a rule set and its text are edited side by side. After an edit of the tree the text is
made anew and the two agree; after an edit of the text the tree stays behind until the text is read
again. Reading may take a while, so it is split in two: a ticket takes the text along, and what
comes of it counts only if nothing newer has come in between.

* `Agreement`: whether tree and text agree;
* `Tracker`: the agreement, and the count by which old tickets are told from current ones;
* `Quiet`: when a burst of text edits is over.
-/

namespace Dialplan

/-- Whether tree and text agree. -/
inductive Agreement where
  | synced
  /-- The text was edited and has not been read since. -/
  | stale
  /-- The text could not be read; the message says why. -/
  | error (message : String)
deriving DecidableEq, Repr

/-- An agreement in words, with the message of an error. -/
def Agreement.text : Agreement → String
  | .synced => "synced"
  | .stale => "stale"
  | .error m => "error: " ++ m

/-- Whether tree and text are known to agree. -/
def Agreement.isSynced : Agreement → Bool
  | .synced => true
  | _ => false

/-! ## 1. Tickets -/

/-- A request to read the text, with the text as it was then. -/
structure Ticket where
  generation : Nat
  text : String
deriving DecidableEq, Repr

/-- What came of a ticket. -/
inductive Outcome where
  /-- The tree was replaced. -/
  | applied
  /-- The text could not be read; the tree stayed. -/
  | failed (message : String)
  /-- Something newer had come; nothing changed. -/
  | superseded
deriving DecidableEq, Repr

/-- The agreement and the count of what voids a ticket: every edit on either side and every later
    ticket. -/
structure Tracker where
  agreement : Agreement
  generation : Nat
deriving DecidableEq, Repr

namespace Tracker

/-- The start in a given agreement. -/
def starting (a : Agreement) : Tracker := ⟨a, 0⟩

/-- The text was edited. -/
def textEdited (t : Tracker) : Tracker := ⟨.stale, t.generation + 1⟩

/-- The tree was edited, and the text made anew. -/
def treeEdited (t : Tracker) : Tracker := ⟨.synced, t.generation + 1⟩

/-- A ticket for a text. -/
def begin (t : Tracker) (text : String) : Ticket × Tracker :=
  (⟨t.generation + 1, text⟩, { t with generation := t.generation + 1 })

/-- Whether nothing newer than the ticket has come. -/
def isCurrent (t : Tracker) (k : Ticket) : Bool := k.generation = t.generation

/-- The text was read. -/
def succeeded (t : Tracker) : Tracker := { t with agreement := .synced }

/-- The text could not be read. -/
def failed (t : Tracker) (message : String) : Tracker := { t with agreement := .error message }

end Tracker

/-! ## 2. Quiet -/

/-- The time of the last text edit that has not been answered yet, and how long the text has to rest
    after it. Times are milliseconds from a fixed start; a time before the last edit counts as the
    time of the edit. -/
structure Quiet where
  window : Nat
  lastEdit : Option Nat
deriving DecidableEq, Repr

namespace Quiet

/-- No edit yet. -/
def new (window : Nat) : Quiet := ⟨window, none⟩

/-- A text edit. -/
def record (q : Quiet) (now : Nat) : Quiet := { q with lastEdit := some now }

/-- Whether an edit waits for its answer. -/
def isPending (q : Quiet) : Bool := q.lastEdit.isSome

/-- How long the text still has to rest. -/
def remaining? (q : Quiet) (now : Nat) : Option Nat :=
  q.lastEdit.map fun last => q.window - (now - last)

/-- Whether the text has rested long enough; a burst is answered once. -/
def takeReady (q : Quiet) (now : Nat) : Bool × Quiet :=
  match q.lastEdit with
  | some last => if now - last ≥ q.window then (true, { q with lastEdit := none }) else (false, q)
  | none => (false, q)

end Quiet

end Dialplan
