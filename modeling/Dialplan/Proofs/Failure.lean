import Dialplan.Proofs.Run
import Dialplan.Proofs.Writes
/-!
# What fails changes nothing

An operation of a session touches several things that belong together, one after another: the tree
and its count of numbers, the text, the version, the agreement, the rows that are shown, a store.
Where it fails it fails before the first of them, and only a drop has then ended the drag.

* `Store.Atomic`: a store that a failing save leaves as it was;
* `Desk.fails`: whether an action fails, asks first, comes too late or is given up;
* `Desk.failures_change_nothing`: what then is as it was.
-/

namespace Dialplan

/-! ## 1. Stores -/

/-- Where a save fails the store is as it was. -/
def Store.Atomic (σ : Type) [Store σ] : Prop :=
  ∀ (store store' : σ) (id : String) (r : Stored) (e : StoreFault),
    Store.save store id r = (.error e, store') → store' = store

/-- A save in memory does not fail. -/
theorem Shelf.atomic : Store.Atomic Shelf := by
  intro store store' id r e h
  cases h

/-- The guard objects before the store behind it hears of the save. -/
theorem Guarded.atomic {σ : Type} [Store σ] (hs : Store.Atomic σ) : Store.Atomic (Guarded σ) := by
  intro store store' id r e h
  change Guarded.save store id r = _ at h
  unfold Guarded.save at h
  split at h
  · cases h
    rfl
  · cases hr : Store.save store.inner id r with
    | mk result inner =>
      rw [hr] at h
      cases h
      rw [hs _ _ _ _ _ hr]

namespace Session

/-! ## 2. One operation -/

variable (s : Session)

theorem startDrag_failed {node : NodeId} (h : (s.startDrag node).1.isOk = false) :
    (s.startDrag node).2 = s := by
  unfold startDrag at h ⊢
  split at h
  · rfl
  · cases h

/-- A save that is blocked, asks first or is refused leaves session and store. -/
theorem save_failed {σ : Type} [Store σ] (hs : Store.Atomic σ) {store : σ} {confirmed : Bool}
    (h : (s.save store confirmed).1 ≠ .ok .saved) : (s.save store confirmed).2 = (s, store) := by
  unfold save at h ⊢
  cases hb : s.blocker? with
  | some b => rfl
  | none =>
    cases hd : s.agreement.doubt? confirmed with
    | some d => rfl
    | none =>
      rw [hb, hd] at h
      cases hr : Store.save store s.id ⟨s.markup, s.metadata⟩ with
      | mk result store' =>
        rw [hr] at h
        cases result with
        | error e => rw [hs _ _ _ _ _ hr]
        | ok u => exact absurd rfl h

theorem complete_superseded {k : Ticket} {r : Except Markup.Fault Tree}
    (h : (s.complete k r).1 = .superseded) : (s.complete k r).2 = s := by
  unfold complete at h ⊢
  split at h
  · cases r <;> cases h
  · rename_i hc
    rw [if_neg hc]

/-- What cannot be read is said of tree and text, and nothing else changes. -/
theorem complete_failed {k : Ticket} {r : Except Markup.Fault Tree} {m : String}
    (h : (s.complete k r).1 = .failed m) :
    (s.complete k r).2 = { s with tracker := { s.tracker with agreement := .error m } } := by
  unfold complete at h ⊢
  split at h
  · rename_i hc
    rw [if_pos hc]
    cases r with
    | ok t => cases h
    | error e =>
      cases h
      rfl
  · cases h

/-- A ticket that is completed at once is not too late. -/
theorem reconcile_current : s.reconcile.1 ≠ .superseded := by
  have hc : s.begin.2.tracker.isCurrent s.begin.1 = true := decide_eq_true rfl
  unfold reconcile complete
  simp only [hc, if_true]
  cases s.begin.2.readTicket s.begin.1 with
  | ok t => exact fun h => nomatch h
  | error e => exact fun h => nomatch h

end Session

/-! ## 3. One action -/

namespace Desk

variable {σ : Type} [Store σ]

/-- Whether an action fails, asks first, comes too late or is given up. -/
def fails (d : Desk σ) : Action → Bool
  | .apply e => !(d.session.apply e).1.isOk
  | .addChild p k i => !(d.session.addChild p k i).1.isOk
  | .addNode k => !(d.session.addNode k).1.isOk
  | .removeChild p i => !(d.session.removeChild p i).1.isOk
  | .removeNode n => !(d.session.removeNode n).1.isOk
  | .moveNode n destination => !(d.session.moveNode n destination).1.isOk
  | .setEnabled n b => !(d.session.setEnabled n b).1.isOk
  | .setAttribute n k v => !(d.session.setAttribute n k v).1.isOk
  | .setName name => !(d.session.setName name).1.isOk
  | .setContinue b => !(d.session.setContinue b).1.isOk
  | .startDrag n => !(d.session.startDrag n).1.isOk
  | .dropOn h => !Session.dropped (d.session.dropOn h).1
  | .complete i =>
    match d.readings[i]? with
    | none => false
    | some (k, r) => (d.session.complete k r).1 = .superseded
  | .reconcile => d.session.reconcile.1 = .superseded
  | .save confirmed => (d.session.save d.store confirmed).1.toOption ≠ some .saved
  | .updateMetadata _ | .setApplications _ | .hover _ | .cancelDrag | .editMarkup .. |
    .reconcileDue _ | .begin | .readTicket _ => false

/-- What is left where an action fails: everything, but a drop has ended the drag. -/
def afterFailure (d : Desk σ) : Action → Desk σ
  | .dropOn _ => { d with session := { d.session with drag := .idle } }
  | _ => d

omit [Store σ] in
theorem tried_failed {d : Desk σ} {done : Bool} {s : Session} (h : d.session.Attempt done s)
    (hf : (!done) = true) : (d.tried done s).1 = d := by
  cases done with
  | true => cases hf
  | false =>
    unfold tried
    rw [h.eq_of_failed]

/-- **An action that fails leaves everything as it was.** -/
theorem step_of_fails (hs : Store.Atomic σ) {d : Desk σ} {a : Action} (h : d.fails a = true) :
    (d.step a).1 = d.afterFailure a := by
  cases a with
  | apply e => exact tried_failed (d.session.attempt_apply e) h
  | addChild p k i => exact tried_failed (d.session.attempt_addChild p k i) h
  | addNode k => exact tried_failed (d.session.attempt_addChild _ k none) h
  | removeChild p i => exact tried_failed (d.session.attempt_perform _) h
  | removeNode n => exact tried_failed (d.session.attempt_removeNode n) h
  | moveNode n destination => exact tried_failed (d.session.attempt_moveNode n destination) h
  | setEnabled n b => exact tried_failed (d.session.attempt_perform _) h
  | setAttribute n k v => exact tried_failed (d.session.attempt_perform _) h
  | setName name => exact tried_failed (d.session.attempt_setName name) h
  | setContinue b => exact tried_failed (d.session.attempt_setContinue b) h
  | startDrag n =>
    have hn : (d.session.startDrag n).1.isOk = false := by
      rw [← Bool.not_eq_true']
      exact h
    show { d with session := (d.session.startDrag n).2 } = d
    rw [d.session.startDrag_failed hn]
  | dropOn target =>
    exact tried_failed (d := d.afterFailure (.dropOn target)) (d.session.attempt_dropOn target) h
  | complete i =>
    simp only [fails, step, afterFailure] at h ⊢
    cases hr : d.readings[i]? with
    | none => rfl
    | some reading =>
      obtain ⟨k, r⟩ := reading
      rw [hr] at h
      have hc := d.session.complete_superseded (of_decide_eq_true h)
      show { d with session := (d.session.complete k r).2 } = d
      rw [hc]
  | reconcile => exact absurd (of_decide_eq_true h) d.session.reconcile_current
  | save confirmed =>
    have hn : (d.session.save d.store confirmed).1 ≠ .ok .saved := by
      intro e
      have hne : (d.session.save d.store confirmed).1.toOption ≠ some .saved := of_decide_eq_true h
      exact hne (congrArg Except.toOption e)
    show { d with
      session := (d.session.save d.store confirmed).2.1
      store := (d.session.save d.store confirmed).2.2 } = d
    rw [d.session.save_failed hs hn]
  | _ => cases h

/-- **What fails changes nothing.** An action on a session that fails, that asks first, that comes
    too late or that is given up leaves the session as it was in all its parts, and the store too, in
    memory and behind the guard; a drop has ended the drag. What was read with a fault changes what is
    said of tree and text, and nothing else. An edit whose writes are done one by one on the tree
    itself stops, where it stops, before the first of them. -/
theorem failures_change_nothing :
    (∀ (d : Desk Shelf) (a : Action), d.fails a = true → (d.step a).1 = d.afterFailure a) ∧
    (∀ (d : Desk (Guarded Shelf)) (a : Action), d.fails a = true →
      (d.step a).1 = d.afterFailure a) ∧
    (∀ (s : Session) (k : Ticket) (r : Except Markup.Fault Tree) (m : String),
      (s.complete k r).1 = .failed m →
        (s.complete k r).2 = { s with tracker := { s.tracker with agreement := .error m } }) ∧
    ∀ (t t' : Tree) (e : Edit) (stop : Stop), e.carryOut t = (.error stop, t') →
      t' = t ∧ ∃ r, e.apply t = .error r ∧ stop = .refused r := by
  refine ⟨fun d a h => step_of_fails Shelf.atomic h,
    fun d a h => step_of_fails (Guarded.atomic Shelf.atomic) h,
    fun s k r m h => s.complete_failed h, ?_⟩
  intro t t' e stop h
  rw [e.carryOut_eq t] at h
  cases ha : e.apply t with
  | error r =>
    rw [ha] at h
    cases h
    exact ⟨rfl, r, rfl, rfl⟩
  | ok p =>
    rw [ha] at h
    cases h

/-- A node that is not there, a text that the guard does not take, a text that ends too early, and
    a place beyond the last child. -/
theorem failures_change_nothing_standard :
    let s : Session := .new "main" .standard .standard
    let d : Desk Shelf := opening s .empty
    let g : Desk (Guarded Shelf) := opening (s.editMarkup " " 0) ⟨.empty⟩
    let r : Except Markup.Fault Tree := .error (.unexpectedEnd 0 .openMark)
    (d.fails (.removeNode ⟨7⟩) = true ∧ (d.step (.removeNode ⟨7⟩)).1 = d) ∧
    (g.fails (.save true) = true ∧ (g.step (.save true)).1 = g) ∧
    ((s.begin.2.complete s.begin.1 r).1 = .failed "Unexpected end of input at 0: expected '<'" ∧
      (s.begin.2.complete s.begin.1 r).2.draft = s.draft) ∧
    ((Edit.removeChild ⟨1⟩ 0).carryOut .bare = (.error (.refused (.indexOutOfBounds 0 0)), .bare) ∧
      ∃ r, (Edit.removeChild ⟨1⟩ 0).apply .bare = .error r) := by
  intro s d g r
  obtain ⟨h1, h2, h3, h4⟩ := failures_change_nothing
  have hd : d.fails (.removeNode ⟨7⟩) = true := by decide
  have hg : g.fails (.save true) = true := by decide
  have hr : (s.begin.2.complete s.begin.1 r).1 =
      .failed "Unexpected end of input at 0: expected '<'" := by decide
  have he : (Edit.removeChild ⟨1⟩ 0).carryOut .bare =
      (.error (.refused (.indexOutOfBounds 0 0)), .bare) := rfl
  obtain ⟨-, r', hr', -⟩ := h4 _ _ _ _ he
  refine ⟨⟨hd, h1 d _ hd⟩, ⟨hg, h2 g _ hg⟩, ⟨hr, ?_⟩, he, r', hr'⟩
  rw [h3 _ _ _ _ hr]
  rfl

end Desk

end Dialplan
