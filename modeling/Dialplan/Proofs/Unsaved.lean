import Dialplan.Proofs.Failure
import Mathlib
/-!
# What is not saved yet

A session says whether it has something to save. Here a run is followed by a record of what was
saved last, and of what has come from the text since then: when a tree is read, the session takes
the name and the continue flag of its root over into the metadata, and does not count that as
something to save.

* `Record`: the last save, and the roots that were taken over after it;
* `Desk.record`: what one action adds to the record; `Desk.recorded`: what a run does;
* `Desk.run_clean`: a session with nothing to save has the text of the last save, and its metadata
  but for what came from those roots.
-/

namespace Dialplan

/-- What a save would store. -/
def Session.content (s : Session) : Stored := ⟨s.markup, s.metadata⟩

/-- Metadata that agree with every root stay as they are. -/
theorem Session.foldl_followRoot {m : Metadata} : ∀ {roots : List Attributes},
    (∀ root ∈ roots, followRoot m root = m) → roots.foldl followRoot m = m
  | [], _ => rfl
  | root :: rest, h => by
      rw [List.foldl_cons, h root List.mem_cons_self]
      exact foldl_followRoot fun x hx => h x (List.mem_cons_of_mem root hx)

/-! ## 1. The record -/

/-- What was saved last, and the roots of the trees that were read since. -/
structure Record where
  saved : Stored
  adopted : List Attributes

namespace Record

/-- The record of a session of which everything is saved. -/
def atSave (s : Session) : Record := ⟨s.content, []⟩

/-- A reading was completed with this outcome. -/
def completed (r : Record) : Outcome → Except Markup.Fault Tree → Record
  | .applied, .ok t => { r with adopted := r.adopted ++ [t.root.label.attributes] }
  | _, _ => r

/-- The last save, with the name and the continue flag of each root that came after it. -/
def expected (r : Record) : Stored :=
  { r.saved with metadata := r.adopted.foldl Session.followRoot r.saved.metadata }

/-- Roots that say what the metadata say already add nothing to the last save. -/
theorem expected_eq_saved {r : Record}
    (h : ∀ root ∈ r.adopted, Session.followRoot r.saved.metadata root = r.saved.metadata) :
    r.expected = r.saved := by
  unfold expected
  rw [Session.foldl_followRoot h]

end Record

namespace Session

/-! ## 2. Sessions without anything to save -/

/-- **A session that has nothing to save is as its record says.** -/
def Kept (s : Session) (r : Record) : Prop := s.draft.dirty = false → s.content = r.expected

theorem kept_of_dirty {s : Session} (h : s.draft.dirty = true) (r : Record) : s.Kept r := by
  intro hc
  rw [h] at hc
  cases hc

theorem kept_atSave (s : Session) : s.Kept (.atSave s) := fun _ => rfl

variable {s s' : Session} {r : Record}

/-- What neither changes the text or the metadata nor saves them keeps to the record. -/
theorem Kept.same (h : s.Kept r) (hc : s'.content = s.content)
    (hd : s'.draft.dirty = s.draft.dirty) : s'.Kept r := by
  intro hs
  rw [hd] at hs
  rw [hc]
  exact h hs

theorem Kept.attempt (h : s.Kept r) {done : Bool} (ha : s.Attempt done s') : s'.Kept r := by
  cases done with
  | false =>
    rw [ha.eq_of_failed]
    exact h
  | true => exact kept_of_dirty ha.dirty r

/-- **A completion keeps to the record**, since what it changes beside the tree is recorded. -/
theorem Kept.complete (h : s.Kept r) (k : Ticket) (x : Except Markup.Fault Tree) :
    (s.complete k x).2.Kept (r.completed (s.complete k x).1 x) := by
  unfold Session.complete
  split
  · cases x with
    | ok t =>
      intro hs
      have hc : s.content = r.expected := h hs
      have hm : s.markup = r.expected.markup := congrArg Stored.markup hc
      have hmeta : s.metadata = r.expected.metadata := congrArg Stored.metadata hc
      show Stored.mk s.markup (followRoot s.metadata t.root.label.attributes) = _
      unfold Record.completed Record.expected
      rw [List.foldl_append, hm, hmeta]
      rfl
    | error e => exact h
  · exact h

end Session

/-! ## 3. Runs -/

namespace Desk

variable {σ : Type} [Store σ]

/-- The record after one action. -/
def record (d : Desk σ) (r : Record) : Action → Record
  | .save confirmed =>
    if (d.session.save d.store confirmed).1.toOption = some .saved then .atSave d.session else r
  | .complete i =>
    match d.readings[i]? with
    | none => r
    | some (k, x) => r.completed (d.session.complete k x).1 x
  | .reconcile =>
    r.completed d.session.reconcile.1 (d.session.begin.2.readTicket d.session.begin.1)
  | _ => r

/-- The record after actions one after another. -/
def recorded (d : Desk σ) (r : Record) : List Action → Record
  | [] => r
  | a :: rest => (d.step a).1.recorded (d.record r a) rest

/-- An edit of the tree adds nothing to the record. -/
theorem record_of_edits (d : Desk σ) (r : Record) {a : Action} (ha : a.edits = true) :
    d.record r a = r := by
  cases a with
  | complete i => cases ha
  | reconcile => cases ha
  | save confirmed => cases ha
  | _ => rfl

/-- **Every action keeps to the record.** -/
theorem kept_step {d : Desk σ} {r : Record} (h : d.session.Kept r) (a : Action) :
    (d.step a).1.session.Kept (d.record r a) := by
  cases he : a.edits with
  | true =>
    obtain ⟨done, s, hstep, ha⟩ := d.attempt_step he
    rw [hstep, d.record_of_edits r he]
    exact h.attempt ha
  | false =>
    cases a with
    | setApplications _ | hover _ | cancelDrag | reconcileDue _ | begin => exact h.same rfl rfl
    | updateMetadata f => exact Session.kept_of_dirty rfl r
    | startDrag n =>
      obtain ⟨drag, hs⟩ := d.session.startDrag_eq n
      show (d.session.startDrag n).2.Kept r
      rw [hs]
      exact h.same rfl rfl
    | dropOn t =>
      have hidle : d.session.cancelDrag.Kept r := h.same rfl rfl
      exact hidle.attempt (d.session.attempt_dropOn t)
    | editMarkup text now => exact Session.kept_of_dirty rfl r
    | readTicket i =>
      simp only [step]
      split <;> exact h
    | complete i =>
      simp only [step, record]
      cases d.readings[i]? with
      | none => exact h
      | some reading => exact h.complete reading.1 reading.2
    | reconcile =>
      have hb : d.session.begin.2.Kept r := h.same rfl rfl
      exact hb.complete _ _
    | save confirmed =>
      have hs := d.session.session_save d.store confirmed
      simp only [step, record]
      rw [hs]
      split
      · intro _
        rfl
      · exact h
    | _ => cases he

theorem kept_run {r : Record} (as : List Action) {d : Desk σ} (h : d.session.Kept r) :
    (d.run as).1.session.Kept (d.recorded r as) := by
  induction as generalizing d r with
  | nil => exact h
  | cons a as ih => exact ih (kept_step h a)

/-- **A session with nothing to save has the text of the last save**, or where there was none of its
    start, and its metadata, but for the name and the continue flag of the roots that were read
    since. Where all of these say what was saved, everything is as it was saved. -/
theorem run_clean (d : Desk σ) (as : List Action) :
    let now := (d.run as).1.session
    let r := d.recorded (.atSave d.session) as
    now.draft.dirty = false →
      now.markup = r.saved.markup ∧
      now.metadata = r.adopted.foldl Session.followRoot r.saved.metadata ∧
      ((∀ root ∈ r.adopted, Session.followRoot r.saved.metadata root = r.saved.metadata) →
        now.content = r.saved) := by
  intro now r hclean
  have hk : now.Kept r := kept_run as d.session.kept_atSave
  have hc : now.content = r.expected := hk hclean
  refine ⟨congrArg Stored.markup hc, congrArg Stored.metadata hc, fun hsame => ?_⟩
  rw [hc, Record.expected_eq_saved hsame]

/-- A rule set whose root has a name that its metadata do not have. -/
def typedText : String := "<extension name=\"typed\"/>"

/-- The tree of `typedText`. -/
def typedTree : Tree := ⟨⟨.extension, ⟨⟨1⟩, ⟨[("name", "typed")]⟩, true⟩, []⟩, 1⟩

theorem blank_typedText : Text.blank typedText = false := by
  unfold typedText
  cbv

theorem read_typedText : Markup.read typedText = .ok typedTree := by
  unfold typedText typedTree
  cbv

/-- The rule set of `typedText` at its start, beside the metadata of a new one. -/
def typedDesk : Desk Shelf := opening (.open "main" typedText .standard .standard) .empty

theorem session_typedDesk : typedDesk.session =
    .assemble "main" ⟨0, typedTree, typedText, false⟩ .synced .standard .standard := by
  show Session.open "main" typedText .standard .standard = _
  unfold Session.open Draft.ofMarkup
  rw [blank_typedText, read_typedText]
  rfl

theorem readTicket_typedDesk :
    typedDesk.session.begin.2.readTicket typedDesk.session.begin.1 = .ok typedTree := by
  rw [session_typedDesk]
  show (if Text.blank typedText then _ else Markup.read typedText) = _
  rw [blank_typedText, read_typedText]
  rfl

theorem reconcile_typedDesk : typedDesk.session.reconcile =
    typedDesk.session.begin.2.complete typedDesk.session.begin.1 (.ok typedTree) := by
  unfold Session.reconcile
  rw [← readTicket_typedDesk]

theorem dirty_typedDesk : (typedDesk.run [.reconcile]).1.session.draft.dirty = false := by
  show typedDesk.session.reconcile.2.draft.dirty = false
  rw [reconcile_typedDesk, session_typedDesk]
  rfl

theorem recorded_typedDesk : typedDesk.recorded (.atSave typedDesk.session) [.reconcile] =
    ⟨⟨typedText, .standard⟩, [⟨[("name", "typed")]⟩]⟩ := by
  show Record.completed _ typedDesk.session.reconcile.1 _ = _
  rw [readTicket_typedDesk, reconcile_typedDesk, session_typedDesk]
  rfl

/-- The text is read once more: its name is taken over, and nothing is said to be unsaved. -/
theorem run_clean_typed :
    let now := (typedDesk.run [.reconcile]).1.session
    now.draft.dirty = false ∧ now.markup = typedText ∧
      now.metadata = { Metadata.standard with name := "typed" } := by
  obtain ⟨hm, hmeta, -⟩ := run_clean typedDesk [.reconcile] dirty_typedDesk
  rw [recorded_typedDesk] at hm hmeta
  exact ⟨dirty_typedDesk, hm, hmeta⟩

/-- **A session may say that nothing is unsaved and yet not be as it was saved.** -/
theorem clean_unlike_saved : (typedDesk.run [.reconcile]).1.session.draft.dirty = false ∧
    (typedDesk.run [.reconcile]).1.session.content ≠
      (typedDesk.recorded (.atSave typedDesk.session) [.reconcile]).saved := by
  refine ⟨dirty_typedDesk, ?_⟩
  rw [recorded_typedDesk]
  show typedDesk.session.reconcile.2.content ≠ _
  rw [reconcile_typedDesk, session_typedDesk]
  decide

end Desk

end Dialplan
