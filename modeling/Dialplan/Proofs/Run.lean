import Dialplan.Proofs.Edit
import Dialplan.Session
/-!
# Runs of a session

A session in use: operations in any order, with the tickets that have been given out and with what
each of them has been read as, whenever that was. A reading may be completed at any later time, more
than once, or never.

* `Action`, `Event`: what a user asks of a session, and what that does to tree and text;
* `Desk.step`, `Desk.run`: one action and many, each with its events; `run_induction`: what every
  action keeps, a run keeps;
* `Session.Attempt`: all that an operation on the tree can do; `Session.Same`, `Session.Edited`: what
  that means for tree and text;
* `Desk.Turn`: all that one action can do, one constructor for each sort of change (`turn_step`).
-/

namespace Dialplan

/-! ## 1. Actions and events -/

/-- One operation of a session. Tickets and readings are named by the order in which they came. -/
inductive Action where
  | apply (e : Edit)
  | addChild (parent : NodeId) (kind : Kind) (position : Option Nat)
  | addNode (kind : Kind)
  | removeChild (parent : NodeId) (index : Nat)
  | removeNode (node : NodeId)
  | moveNode (node : NodeId) (destination : Destination)
  | setEnabled (node : NodeId) (flag : Bool)
  | setAttribute (node : NodeId) (key value : String)
  | setName (name : String)
  | setContinue (flag : Bool)
  | updateMetadata (f : Metadata → Metadata)
  | setApplications (a : Applications)
  | startDrag (node : NodeId)
  | hover (target : Hovered)
  | dropOn (target : Hovered)
  | cancelDrag
  | editMarkup (text : String) (now : Nat)
  | reconcileDue (now : Nat)
  | begin
  /-- A ticket is read, with the metadata as they are then. -/
  | readTicket (ticket : Nat)
  /-- A reading comes back to the session. -/
  | complete (reading : Nat)
  | reconcile
  | save (confirmed : Bool)

/-- Whether an action asks for one edit of the tree; a drop comes to one only in the end. -/
def Action.edits : Action → Bool
  | .apply _ | .addChild .. | .addNode _ | .removeChild .. | .removeNode _ | .moveNode .. => true
  | .setEnabled .. | .setAttribute .. | .setName _ | .setContinue _ => true
  | _ => false

/-- What an action has done to tree and text. -/
inductive Event where
  | typed (text : String)
  /-- An edit of the tree was done; the tree after it. -/
  | edited (tree : Tree)
  | issued (ticket : Ticket)
  | completed (ticket : Ticket) (outcome : Outcome)

/-! ## 2. Steps and runs -/

/-- A session with a store, the tickets it has given out, and what they were read as. -/
structure Desk (σ : Type) where
  session : Session
  store : σ
  tickets : List Ticket
  readings : List (Ticket × Except Markup.Fault Tree)

/-- Whether a drop has changed the tree. -/
def Session.dropped : Except SessionFault (Option Receipt) → Bool
  | .ok (some _) => true
  | _ => false

namespace Desk

variable {σ : Type}

/-- A session to which nothing has been done yet. -/
def opening (s : Session) (store : σ) : Desk σ := ⟨s, store, [], []⟩

/-- The desk with the session after an operation on the tree. -/
def tried (d : Desk σ) (done : Bool) (s : Session) : Desk σ × List Event :=
  ({ d with session := s }, if done then [.edited s.tree] else [])

variable [Store σ]

/-- What one action does. -/
def step (d : Desk σ) : Action → Desk σ × List Event
  | .apply e => d.tried (d.session.apply e).1.isOk (d.session.apply e).2
  | .addChild p k i => d.tried (d.session.addChild p k i).1.isOk (d.session.addChild p k i).2
  | .addNode k => d.tried (d.session.addNode k).1.isOk (d.session.addNode k).2
  | .removeChild p i => d.tried (d.session.removeChild p i).1.isOk (d.session.removeChild p i).2
  | .removeNode n => d.tried (d.session.removeNode n).1.isOk (d.session.removeNode n).2
  | .moveNode n destination =>
    d.tried (d.session.moveNode n destination).1.isOk (d.session.moveNode n destination).2
  | .setEnabled n b => d.tried (d.session.setEnabled n b).1.isOk (d.session.setEnabled n b).2
  | .setAttribute n k v =>
    d.tried (d.session.setAttribute n k v).1.isOk (d.session.setAttribute n k v).2
  | .setName name => d.tried (d.session.setName name).1.isOk (d.session.setName name).2
  | .setContinue b => d.tried (d.session.setContinue b).1.isOk (d.session.setContinue b).2
  | .updateMetadata f => ({ d with session := d.session.updateMetadata f }, [])
  | .setApplications a => ({ d with session := d.session.setApplications a }, [])
  | .startDrag n => ({ d with session := (d.session.startDrag n).2 }, [])
  | .hover h => ({ d with session := (d.session.hover h).2 }, [])
  | .dropOn h => d.tried (Session.dropped (d.session.dropOn h).1) (d.session.dropOn h).2
  | .cancelDrag => ({ d with session := d.session.cancelDrag }, [])
  | .editMarkup text now => ({ d with session := d.session.editMarkup text now }, [.typed text])
  | .reconcileDue now => ({ d with session := (d.session.reconcileDue now).2 }, [])
  | .begin =>
    ({ d with session := d.session.begin.2, tickets := d.tickets ++ [d.session.begin.1] },
      [.issued d.session.begin.1])
  | .readTicket i =>
    match d.tickets[i]? with
    | none => (d, [])
    | some k => ({ d with readings := d.readings ++ [(k, d.session.readTicket k)] }, [])
  | .complete i =>
    match d.readings[i]? with
    | none => (d, [])
    | some (k, r) =>
      ({ d with session := (d.session.complete k r).2 },
        [.completed k (d.session.complete k r).1])
  | .reconcile =>
    ({ d with session := d.session.reconcile.2 },
      [.issued d.session.begin.1, .completed d.session.begin.1 d.session.reconcile.1])
  | .save confirmed =>
    ({ d with
      session := (d.session.save d.store confirmed).2.1
      store := (d.session.save d.store confirmed).2.2 }, [])

/-- What actions one after another do, with all their events. -/
def run (d : Desk σ) : List Action → Desk σ × List Event
  | [] => (d, [])
  | a :: rest => (((d.step a).1.run rest).1, (d.step a).2 ++ ((d.step a).1.run rest).2)

theorem run_append (as bs : List Action) (d : Desk σ) :
    d.run (as ++ bs) = (((d.run as).1.run bs).1, (d.run as).2 ++ ((d.run as).1.run bs).2) := by
  induction as generalizing d with
  | nil => rfl
  | cons a as ih =>
    show (((d.step a).1.run (as ++ bs)).1, (d.step a).2 ++ ((d.step a).1.run (as ++ bs)).2) = _
    rw [ih (d.step a).1, ← List.append_assoc]
    rfl

/-- **What every action of a run keeps, the run keeps.** -/
theorem run_induction {P : Desk σ → Prop} {as : List Action}
    (hstep : ∀ a ∈ as, ∀ d, P d → P (d.step a).1) {d : Desk σ} (h : P d) : P (d.run as).1 := by
  induction as generalizing d with
  | nil => exact h
  | cons a as ih =>
    have hfirst : P (d.step a).1 := hstep a List.mem_cons_self d h
    exact ih (fun b hb => hstep b (List.mem_cons_of_mem a hb)) hfirst

end Desk

/-! ## 3. What an operation on the tree can do -/

namespace Session

/-- Two sessions with the same tree, text and agreement, and with the same name and continue flag
    beside them. -/
structure Same (s s' : Session) : Prop where
  tree : s'.tree = s.tree
  markup : s'.markup = s.markup
  tracker : s'.tracker = s.tracker
  preferences : s'.preferences = s.preferences
  name : s'.metadata.name = s.metadata.name
  continues : s'.metadata.continues = s.metadata.continues

theorem Same.refl (s : Session) : s.Same s := ⟨rfl, rfl, rfl, rfl, rfl, rfl⟩

/-- **An edit of the tree was done**: the text is made from the new tree and agrees with it. -/
structure Edited (s s' : Session) : Prop where
  edit : ∃ e c, Edit.apply s.tree e = .ok (s'.tree, c)
  markup : s'.markup = Markup.print s.preferences.indent s'.tree
  tracker : s'.tracker = s.tracker.treeEdited
  preferences : s'.preferences = s.preferences

/-- An operation on the tree that is refused, or done. -/
inductive Tried (s : Session) : Bool → Session → Prop
  | refused {s' : Session} (h : s.Same s') : Tried s false s'
  | edited {s' : Session} (h : s.Edited s') : Tried s true s'

/-- **All that an operation on the tree can do**: nothing at all, or one edit, which metadata may
    follow. -/
inductive Attempt (s : Session) : Bool → Session → Prop
  | failed : Attempt s false s
  | done {e : Edit} {receipt : Receipt} {draft : Draft}
      (h : s.draft.apply s.preferences.indent e = .ok (receipt, draft)) (m : Metadata) :
      Attempt s true
        ({ s with draft := draft, tracker := s.tracker.treeEdited, metadata := m }.rerender)

theorem Attempt.tried {s s' : Session} {done : Bool} (h : s.Attempt done s') : s.Tried done s' := by
  cases h with
  | failed => exact .refused (.refl s)
  | @done e receipt draft h m =>
    unfold Draft.apply at h
    cases he : e.apply s.draft.tree with
    | error r =>
      rw [he] at h
      cases h
    | ok p =>
      rw [he] at h
      cases h
      exact .edited ⟨⟨e, p.2, he⟩, rfl, rfl, rfl⟩

/-- What fails changes nothing. -/
theorem Attempt.eq_of_failed {s s' : Session} (h : s.Attempt false s') : s' = s := by
  cases h
  rfl

/-- What is done can be saved. -/
theorem Attempt.dirty {s s' : Session} (h : s.Attempt true s') : s'.draft.dirty = true := by
  cases h with
  | @done e receipt draft h m =>
    unfold Draft.apply at h
    split at h
    · cases h
    · cases h
      rfl

/-- Metadata may follow an edit that was done. -/
theorem Attempt.withMetadata {s s' : Session} (h : s.Attempt true s') (m : Metadata) :
    s.Attempt true { s' with metadata := m } := by
  cases h with
  | done h => exact .done h m

variable (s : Session)

theorem attempt_apply (e : Edit) : s.Attempt (s.apply e).1.isOk (s.apply e).2 := by
  unfold apply
  cases h : s.draft.apply s.preferences.indent e with
  | error r => exact .failed
  | ok p => exact .done h s.metadata

theorem attempt_perform (e : Edit) : s.Attempt (s.perform e).1.isOk (s.perform e).2 := by
  have h := s.attempt_apply e
  unfold perform
  cases hr : s.apply e with
  | mk r s' =>
    rw [hr] at h
    cases r with
    | error f => exact h
    | ok receipt => exact h

/-- A new child has a number. -/
theorem created_of_addChild {parent : NodeId} {kind : Kind} {position : Option Nat}
    {receipt : Receipt} {s' : Session}
    (h : s.apply (.addChild parent kind position) = (.ok receipt, s')) :
    ∃ id, receipt.created = some id := by
  unfold apply Draft.apply at h
  cases he : (Edit.addChild parent kind position).apply s.draft.tree with
  | error r =>
    rw [he] at h
    cases h
  | ok p =>
    obtain ⟨t, c⟩ := p
    have hd := Edit.apply_done he
    rw [he] at h
    cases h
    cases hd with
    | addChild => exact ⟨_, rfl⟩

theorem attempt_addChild (parent : NodeId) (kind : Kind) (position : Option Nat) :
    s.Attempt (s.addChild parent kind position).1.isOk (s.addChild parent kind position).2 := by
  have h := s.attempt_apply (.addChild parent kind position)
  unfold addChild
  cases hr : s.apply (.addChild parent kind position) with
  | mk r s' =>
    rw [hr] at h
    cases r with
    | error f => exact h
    | ok receipt =>
      obtain ⟨id, hid⟩ := s.created_of_addChild hr
      obtain ⟨v, c⟩ := receipt
      obtain rfl : c = some id := hid
      exact h

theorem attempt_removeNode (node : NodeId) :
    s.Attempt (s.removeNode node).1.isOk (s.removeNode node).2 := by
  unfold removeNode
  split
  · exact .failed
  · exact s.attempt_perform _

theorem attempt_moveNode (node : NodeId) (destination : Destination) :
    s.Attempt (s.moveNode node destination).1.isOk (s.moveNode node destination).2 := by
  unfold moveNode
  split
  · exact .failed
  · exact s.attempt_perform _

theorem attempt_setName (name : String) :
    s.Attempt (s.setName name).1.isOk (s.setName name).2 := by
  have h := s.attempt_perform (.setAttribute s.tree.root.id "name" name)
  unfold setName setAttribute
  cases hr : s.perform (.setAttribute s.tree.root.id "name" name) with
  | mk r s' =>
    rw [hr] at h
    cases r with
    | error f => exact h
    | ok u => exact h.withMetadata _

theorem attempt_setContinue (flag : Bool) :
    s.Attempt (s.setContinue flag).1.isOk (s.setContinue flag).2 := by
  have h := s.attempt_perform (.setAttribute s.tree.root.id "continue" (boolText flag))
  unfold setContinue setAttribute
  cases hr : s.perform (.setAttribute s.tree.root.id "continue" (boolText flag)) with
  | mk r s' =>
    rw [hr] at h
    cases r with
    | error f => exact h
    | ok u => exact h.withMetadata _

/-- Where nothing is dragged there is no drag to end. -/
theorem cancelDrag_of_idle {s : Session} (h : s.drag.isDragging = false) : s.cancelDrag = s := by
  obtain ⟨id, draft, tracker, drag, quiet, applications, preferences, metadata, shown, renders⟩ := s
  cases drag with
  | idle => rfl
  | dragging g i => cases h

/-- A drop ends the drag first. -/
theorem attempt_dropOn (target : Hovered) :
    s.cancelDrag.Attempt (dropped (s.dropOn target).1) (s.dropOn target).2 := by
  unfold dropOn
  split
  · cases hd : s.drag.drop s.tree target with
    | none => exact .failed
    | some e =>
      have h := s.cancelDrag.attempt_apply e
      unfold cancelDrag at h ⊢
      cases hr : apply { s with drag := .idle } e with
      | mk r s' =>
        rw [hr] at h
        simp only [hr]
        cases r with
        | error f => exact h
        | ok receipt => exact h
  · rename_i hd
    rw [cancelDrag_of_idle (Bool.not_eq_true _ ▸ hd)]
    exact .failed

/-- That a drag has ended is not seen by tree and text. -/
theorem Tried.of_cancelDrag {s s' : Session} {done : Bool} (h : s.cancelDrag.Tried done s') :
    s.Tried done s' := by
  cases h with
  | refused h => exact .refused ⟨h.tree, h.markup, h.tracker, h.preferences, h.name, h.continues⟩
  | edited h => exact .edited ⟨h.edit, h.markup, h.tracker, h.preferences⟩

/-- Picking a node up is seen by the drag alone. -/
theorem startDrag_eq (node : NodeId) :
    ∃ drag, (s.startDrag node).2 = { s with drag := drag } := by
  unfold startDrag
  split
  · exact ⟨s.drag, rfl⟩
  · exact ⟨_, rfl⟩

theorem same_startDrag (node : NodeId) : s.Same (s.startDrag node).2 := by
  obtain ⟨drag, h⟩ := s.startDrag_eq node
  rw [h]
  exact ⟨rfl, rfl, rfl, rfl, rfl, rfl⟩

/-- A save that is done is marked in the session, and any other leaves it. -/
theorem session_save {σ : Type} [Store σ] (store : σ) (confirmed : Bool) :
    (s.save store confirmed).2.1 = if (s.save store confirmed).1.toOption = some .saved then
      { s with draft := s.draft.markSaved } else s := by
  unfold save
  cases s.blocker? with
  | some b => rfl
  | none =>
    cases s.agreement.doubt? confirmed with
    | some d => rfl
    | none =>
      cases Store.save store s.id ⟨s.markup, s.metadata⟩ with
      | mk result store' =>
        cases result with
        | error e => rfl
        | ok u => rfl

/-- A save leaves everything but the mark of what is unsaved. -/
theorem same_save {σ : Type} [Store σ] (store : σ) (confirmed : Bool) :
    s.Same (s.save store confirmed).2.1 := by
  rw [s.session_save store confirmed]
  split
  · exact ⟨rfl, rfl, rfl, rfl, rfl, rfl⟩
  · exact .refl s

/-! ## 4. What a completion leaves -/

theorem markup_complete (k : Ticket) (r : Except Markup.Fault Tree) :
    (s.complete k r).2.markup = s.markup := by
  unfold complete
  split
  · cases r <;> rfl
  · rfl

theorem generation_complete (k : Ticket) (r : Except Markup.Fault Tree) :
    (s.complete k r).2.tracker.generation = s.tracker.generation := by
  unfold complete
  split
  · cases r <;> rfl
  · rfl

end Session

/-! ## 5. All that an action can do -/

namespace Desk

variable {σ : Type}

/-- **All that one action can do**, with its events. -/
inductive Turn (d : Desk σ) : Desk σ × List Event → Prop
  | still {s : Session} {store : σ} (h : d.session.Same s) :
      Turn d (⟨s, store, d.tickets, d.readings⟩, [])
  | edited {s : Session} (h : d.session.Edited s) :
      Turn d ({ d with session := s }, [.edited s.tree])
  | typed (text : String) (now : Nat) :
      Turn d ({ d with session := d.session.editMarkup text now }, [.typed text])
  | issued :
      Turn d ({ d with session := d.session.begin.2, tickets := d.tickets ++ [d.session.begin.1] },
        [.issued d.session.begin.1])
  | read {k : Ticket} (hk : k ∈ d.tickets) :
      Turn d ({ d with readings := d.readings ++ [(k, d.session.readTicket k)] }, [])
  | completed {k : Ticket} {r : Except Markup.Fault Tree} (h : (k, r) ∈ d.readings) :
      Turn d ({ d with session := (d.session.complete k r).2 },
        [.completed k (d.session.complete k r).1])
  | reconciled :
      Turn d ({ d with session := d.session.reconcile.2 },
        [.issued d.session.begin.1, .completed d.session.begin.1 d.session.reconcile.1])

theorem turn_tried {d : Desk σ} {done : Bool} {s : Session} (h : d.session.Tried done s) :
    d.Turn (d.tried done s) := by
  cases h with
  | refused h => exact .still h
  | edited h => exact .edited h

theorem turn_attempt {d : Desk σ} {done : Bool} {s : Session} (h : d.session.Attempt done s) :
    d.Turn (d.tried done s) :=
  turn_tried h.tried

/-- An edit of the tree is an attempt, whichever operation asks for it. -/
theorem attempt_step [Store σ] (d : Desk σ) {a : Action} (ha : a.edits = true) :
    ∃ done s, d.step a = d.tried done s ∧ d.session.Attempt done s := by
  cases a with
  | apply e => exact ⟨_, _, rfl, d.session.attempt_apply e⟩
  | addChild p k i => exact ⟨_, _, rfl, d.session.attempt_addChild p k i⟩
  | addNode k => exact ⟨_, _, rfl, d.session.attempt_addChild _ k none⟩
  | removeChild p i => exact ⟨_, _, rfl, d.session.attempt_perform _⟩
  | removeNode n => exact ⟨_, _, rfl, d.session.attempt_removeNode n⟩
  | moveNode n destination => exact ⟨_, _, rfl, d.session.attempt_moveNode n destination⟩
  | setEnabled n b => exact ⟨_, _, rfl, d.session.attempt_perform _⟩
  | setAttribute n k v => exact ⟨_, _, rfl, d.session.attempt_perform _⟩
  | setName name => exact ⟨_, _, rfl, d.session.attempt_setName name⟩
  | setContinue b => exact ⟨_, _, rfl, d.session.attempt_setContinue b⟩
  | _ => cases ha

theorem turn_step [Store σ] (d : Desk σ) (a : Action) : d.Turn (d.step a) := by
  have same : ∀ s, d.session.Same s → d.Turn ({ d with session := s }, []) := fun _ h => .still h
  cases he : a.edits with
  | true =>
    obtain ⟨done, s, hstep, h⟩ := d.attempt_step he
    rw [hstep]
    exact turn_attempt h
  | false =>
    cases a with
    | updateMetadata f => exact same _ ⟨rfl, rfl, rfl, rfl, rfl, rfl⟩
    | setApplications a => exact same _ ⟨rfl, rfl, rfl, rfl, rfl, rfl⟩
    | startDrag n => exact same _ (d.session.same_startDrag n)
    | hover h => exact same _ ⟨rfl, rfl, rfl, rfl, rfl, rfl⟩
    | dropOn h => exact turn_tried (d.session.attempt_dropOn h).tried.of_cancelDrag
    | cancelDrag => exact same _ ⟨rfl, rfl, rfl, rfl, rfl, rfl⟩
    | editMarkup text now => exact .typed text now
    | reconcileDue now => exact same _ ⟨rfl, rfl, rfl, rfl, rfl, rfl⟩
    | begin => exact .issued
    | readTicket i =>
      simp only [step]
      split
      · exact same _ (.refl _)
      · rename_i k hk
        exact .read (List.mem_of_getElem? hk)
    | complete i =>
      simp only [step]
      split
      · exact same _ (.refl _)
      · rename_i k r hr
        exact .completed (List.mem_of_getElem? hr)
    | reconcile => exact .reconciled
    | save confirmed => exact .still (d.session.same_save d.store confirmed)
    | _ => cases he

end Desk

end Dialplan
