import Dialplan.Proofs.Run
/-!
# The newest text counts

What a run leaves behind, told from its events alone, and which tickets still count in it.

* `Event.text?`, `Event.agreement?`, `Event.voids`: what an event does to the text, to the
  agreement and to the tickets that are out;
* `Session.Follows`: text, agreement and generation come of the events of a run and of nothing else;
* `run_last_write_wins`: after every run the text is the last one that was typed or made, and a
  completion counts exactly when nothing newer has come since its ticket.
-/

namespace Dialplan

/-! ## 1. What an event does -/

namespace Event

/-- The text that an event leaves, where it is about the text. -/
def text? (indent : String) : Event → Option String
  | .typed text => some text
  | .edited t => some (Markup.print indent t)
  | .issued _ | .completed .. => none

/-- What an event leaves to be said of tree and text. -/
def agreement? : Event → Option Agreement
  | .typed _ => some .stale
  | .edited _ => some .synced
  | .completed _ .applied => some .synced
  | .completed _ (.failed m) => some (.error m)
  | .completed _ .superseded | .issued _ => none

/-- Whether the tickets issued before an event count no more after it. -/
def voids : Event → Bool
  | .typed _ | .edited _ | .issued _ => true
  | .completed .. => false

/-- The last value that events leave; without any, the one from before. -/
def last {α : Type} (f : Event → Option α) (start : α) (es : List Event) : α :=
  (es.filterMap f).getLast?.getD start

theorem last_append {α : Type} (f : Event → Option α) (start : α) (es fs : List Event) :
    last f start (es ++ fs) = last f (last f start es) fs := by
  unfold last
  rw [List.filterMap_append, List.getLast?_append]
  cases (fs.filterMap f).getLast? <;> rfl

/-- Only what voids tickets changes the text. -/
theorem text?_of_not_voids {e : Event} (h : e.voids = false) (indent : String) :
    e.text? indent = none := by
  cases e with
  | completed k o => rfl
  | _ => cases h

/-- Events that leave no value leave the one from before. -/
theorem last_of_none {α : Type} {f : Event → Option α} {es : List Event}
    (h : ∀ e ∈ es, f e = none) (start : α) : last f start es = start := by
  unfold last
  rw [List.filterMap_eq_nil_iff.mpr h]
  rfl

theorem last_text_of_not_voids {es : List Event} (h : es.any voids = false)
    (indent start : String) : last (text? indent) start es = start :=
  last_of_none (fun e he => text?_of_not_voids (Bool.not_eq_true _ ▸ List.any_eq_false.mp h e he)
    indent) start

theorem countP_voids_eq_zero (es : List Event) : es.countP voids = 0 ↔ es.any voids = false := by
  rw [List.countP_eq_zero, List.any_eq_false]

end Event

/-! ## 2. Completions -/

/-- What comes of a reading that counts. -/
def Outcome.of : Except Markup.Fault Tree → Outcome
  | .ok _ => .applied
  | .error e => .failed e.message

namespace Session

theorem outcome_complete (s : Session) (k : Ticket) (r : Except Markup.Fault Tree) :
    (s.complete k r).1 = if s.tracker.isCurrent k then Outcome.of r else .superseded := by
  unfold complete
  split
  · cases r <;> rfl
  · rfl

/-! ## 3. Runs -/

/-- **The second session comes of the first by these events**: they alone say what its text is, what
    is said of tree and text, and how many times tickets were voided. -/
structure Follows (s : Session) (es : List Event) (s' : Session) : Prop where
  preferences : s'.preferences = s.preferences
  markup : s'.markup = Event.last (Event.text? s.preferences.indent) s.markup es
  agreement : s'.agreement = Event.last Event.agreement? s.agreement es
  generation : s'.tracker.generation = s.tracker.generation + es.countP Event.voids

theorem Follows.append {s s' s'' : Session} {es fs : List Event} (h : s.Follows es s')
    (h' : s'.Follows fs s'') : s.Follows (es ++ fs) s'' where
  preferences := h'.preferences.trans h.preferences
  markup := by
    rw [h'.markup, h.preferences, h.markup, Event.last_append]
  agreement := by
    rw [h'.agreement, h.agreement, Event.last_append]
  generation := by
    rw [h'.generation, h.generation, List.countP_append, Nat.add_assoc]

theorem Same.follows {s s' : Session} (h : s.Same s') : s.Follows [] s' :=
  ⟨h.preferences, h.markup, congrArg Tracker.agreement h.tracker,
    congrArg Tracker.generation h.tracker⟩

theorem Edited.follows {s s' : Session} (h : s.Edited s') : s.Follows [.edited s'.tree] s' :=
  ⟨h.preferences, h.markup, congrArg Tracker.agreement h.tracker,
    congrArg Tracker.generation h.tracker⟩

theorem follows_begin (s : Session) : s.Follows [.issued s.begin.1] s.begin.2 :=
  ⟨rfl, rfl, rfl, rfl⟩

theorem follows_complete (s : Session) (k : Ticket) (r : Except Markup.Fault Tree) :
    s.Follows [.completed k (s.complete k r).1] (s.complete k r).2 := by
  unfold complete
  split
  · cases r with
    | ok t => exact ⟨rfl, rfl, rfl, rfl⟩
    | error e => exact ⟨rfl, rfl, rfl, rfl⟩
  · exact ⟨rfl, rfl, rfl, rfl⟩

end Session

namespace Desk

variable {σ : Type}

theorem Turn.follows {d : Desk σ} {r : Desk σ × List Event} (h : d.Turn r) :
    d.session.Follows r.2 r.1.session := by
  cases h with
  | still h => exact h.follows
  | edited h => exact h.follows
  | typed text now => exact ⟨rfl, rfl, rfl, rfl⟩
  | issued => exact d.session.follows_begin
  | read hk => exact (Session.Same.refl d.session).follows
  | completed hr => exact d.session.follows_complete _ _
  | reconciled => exact d.session.follows_begin.append (d.session.begin.2.follows_complete _ _)

theorem follows_run [Store σ] (as : List Action) (d : Desk σ) :
    d.session.Follows (d.run as).2 (d.run as).1.session := by
  induction as generalizing d with
  | nil => exact (Session.Same.refl d.session).follows
  | cons a as ih => exact (turn_step d a).follows.append (ih (d.step a).1)

/-- A ticket still counts exactly when none of the events since then voids it. -/
theorem isCurrent_of_follows {s s' : Session} {es : List Event} (h : s.begin.2.Follows es s') :
    s'.tracker.isCurrent s.begin.1 = !es.any Event.voids := by
  have hg : s'.tracker.generation = s.begin.1.generation + es.countP Event.voids := h.generation
  unfold Tracker.isCurrent
  rw [hg]
  cases ha : es.any Event.voids with
  | false =>
    have hz := (Event.countP_voids_eq_zero es).mpr ha
    simp only [hz, Nat.add_zero, decide_true, Bool.not_false]
  | true =>
    have hz : es.countP Event.voids ≠ 0 := fun hz => by
      rw [(Event.countP_voids_eq_zero es).mp hz] at ha
      cases ha
    simp only [Bool.not_true, decide_eq_false_iff_not]
    omega

/-- **No text is lost, and the newest counts.** After every run the text is the last one that was
    typed or made from a tree that was edited, and what is said of tree and text is what the last
    event says that says something. A ticket issued at any point of a run and completed at any later
    one, with whatever it was read as, counts exactly when since then nothing was typed, no edit was
    done and no ticket was issued; where it counts, its text is the text of the session. No
    completion changes the text. -/
theorem run_last_write_wins [Store σ] (d : Desk σ) :
    (∀ as, (d.run as).1.session.markup =
        Event.last (Event.text? d.session.preferences.indent) d.session.markup (d.run as).2 ∧
      (d.run as).1.session.agreement =
        Event.last Event.agreement? d.session.agreement (d.run as).2) ∧
    ∀ (before after : List Action) (r : Except Markup.Fault Tree),
      let k := (d.run before).1.session.begin.1
      let since := (((d.run before).1.step .begin).1.run after).2
      let now := (d.run (before ++ .begin :: after)).1.session
      (now.complete k r).1 = (if since.any Event.voids then .superseded else .of r) ∧
      ((now.complete k r).1 ≠ .superseded → k.text = now.markup) ∧
      (now.complete k r).2.markup = now.markup := by
  refine ⟨fun as => ⟨(follows_run as d).markup, (follows_run as d).agreement⟩,
    fun before after r => ?_⟩
  -- the ticket and the events since then, as a run of its own that starts where it was issued
  intro k since now
  have hnow : now = (((d.run before).1.step .begin).1.run after).1.session := by
    show (d.run (before ++ .begin :: after)).1.session = _
    rw [run_append]
    rfl
  have hf : (d.run before).1.session.begin.2.Follows since now :=
    hnow ▸ follows_run after ((d.run before).1.step .begin).1
  have hc : now.tracker.isCurrent k = !since.any Event.voids := isCurrent_of_follows hf
  have ho := now.outcome_complete k r
  rw [hc] at ho
  refine ⟨?_, fun hs => ?_, now.markup_complete k r⟩
  · rw [ho]
    cases since.any Event.voids <;> rfl
  · cases hv : since.any Event.voids with
    | true =>
      rw [ho, hv] at hs
      exact absurd rfl hs
    | false =>
      rw [hf.markup, Event.last_text_of_not_voids hv]
      rfl

end Desk

end Dialplan
