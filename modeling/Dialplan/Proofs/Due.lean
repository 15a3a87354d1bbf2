import Dialplan.Proofs.Lasting
import Dialplan.Proofs.LastWrite
import Dialplan.Proofs.Quiet
/-!
# When a reading is announced

A session announces that its text should be read once the text has rested for the quiet window. The
window is told of texts that are typed and of nothing else, so what is announced is the last typing
that has not been announced yet, whatever has come of the text since then.

* `Action.types`, `Action.call?`: which actions type a text, and what an action tells or asks the
  window (`quiet_step`: all else leaves it alone);
* `Waits`: the typing that waits to be announced, told from the actions of a run alone;
* `Event.settles`: after which events tree and text are said to agree;
* `Desk.run_due`: when a reading is announced, and what is said of tree and text then;
* `Desk.due_while_synced`: a reading may be announced where tree and text agree.
-/

namespace Dialplan

/-! ## 1. What the window is told -/

/-- Whether an action types a text. -/
def Action.types : Action → Bool
  | .editMarkup .. => true
  | _ => false

/-- What an action tells the quiet window, or asks it. -/
def Action.call? : Action → Option Quiet.Call
  | .editMarkup _ now => some (.record now)
  | .reconcileDue now => some (.ask now)
  | _ => none

namespace Session

variable (s : Session)

theorem quiet_complete (k : Ticket) (r : Except Markup.Fault Tree) :
    (s.complete k r).2.quiet = s.quiet := by
  unfold complete
  split
  · cases r <;> rfl
  · rfl

theorem quiet_save {σ : Type} [Store σ] (store : σ) (confirmed : Bool) :
    (s.save store confirmed).2.1.quiet = s.quiet := by
  rw [s.session_save store confirmed]
  split <;> rfl

variable {s} in
/-- An edit of the tree leaves the window alone. -/
theorem Attempt.quiet {s' : Session} {done : Bool} (h : s.Attempt done s') :
    s'.quiet = s.quiet := by
  cases h <;> rfl

variable {s} in
/-- At the start of a session nothing is typed yet. -/
theorem Opened.quiet (h : s.Opened) : s.quiet = .new s.preferences.quietMillis := by
  cases h with
  | new id m p => rfl
  | «open» id markup m p =>
    unfold Session.«open» Draft.ofMarkup
    split
    · rfl
    · cases Markup.read markup <;> rfl

end Session

namespace Desk

variable {σ : Type} [Store σ]

/-- **The window is told of texts that are typed and asked when a reading is due**, and no other
    action of a session reaches it. -/
theorem quiet_step (d : Desk σ) (a : Action) :
    (d.step a).1.session.quiet =
      match a.call? with
      | some c => (d.session.quiet.step c).1
      | none => d.session.quiet := by
  cases he : a.edits with
  | true =>
    obtain ⟨done, s, hstep, h⟩ := d.attempt_step he
    have hc : a.call? = none := by
      cases a <;> first | rfl | cases he
    rw [hstep, hc]
    exact h.quiet
  | false =>
    cases a with
    | dropOn h => exact (d.session.attempt_dropOn h).quiet
    | startDrag n =>
      obtain ⟨drag, h⟩ := d.session.startDrag_eq n
      show (d.session.startDrag n).2.quiet = d.session.quiet
      rw [h]
    | readTicket i =>
      simp only [step]
      split <;> rfl
    | complete i =>
      simp only [step]
      split
      · rfl
      · exact d.session.quiet_complete _ _
    | reconcile => exact d.session.begin.2.quiet_complete _ _
    | save confirmed => exact d.session.quiet_save d.store confirmed
    | updateMetadata _ | setApplications _ | hover _ | cancelDrag | editMarkup _ _
    | reconcileDue _ | begin => rfl
    | _ => cases he

end Desk

/-! ## 2. The typing that waits -/

/-- **A text was typed at this time, and no other since then, and nobody has asked since then when
    the window was over.** -/
def Waits (window : Nat) (as : List Action) (t : Nat) : Prop :=
  ∃ text, Behind as (.editMarkup text t) fun a =>
    a.types = false ∧ ∀ asked, a = .reconcileDue asked → asked - t < window

theorem waits_snoc {window : Nat} {as : List Action} {a : Action} {t : Nat} :
    Waits window (as ++ [a]) t ↔ (∃ text, a = .editMarkup text t) ∨
      ((a.types = false ∧ ∀ asked, a = .reconcileDue asked → asked - t < window) ∧
        Waits window as t) := by
  unfold Waits
  simp only [behind_snoc, exists_or, exists_and_left]

theorem not_waits_nil {window t : Nat} : ¬ Waits window [] t := fun ⟨_, h⟩ => not_behind_nil h

namespace Desk

variable {σ : Type} [Store σ]

/-- **Every action keeps in mind the typing that waits.** -/
theorem remembers_step {d : Desk σ} {window : Nat} {as : List Action}
    (h : d.session.quiet.Remembers window (Waits window as)) (a : Action) :
    (d.step a).1.session.quiet.Remembers window (Waits window (as ++ [a])) := by
  rw [d.quiet_step a]
  cases a with
  | editMarkup text now =>
    refine (h.record now).congr fun t => ?_
    rw [waits_snoc]
    simp [Action.types]
  | reconcileDue now =>
    refine (h.takeReady now).congr fun t => ?_
    rw [waits_snoc]
    simp [Action.types, and_comm]
  | _ =>
    refine h.congr fun t => ?_
    rw [waits_snoc]
    simp [Action.types]

/-- Actions one after another, by induction on their list from its end. -/
theorem remembers_run {d : Desk σ} {window : Nat} (h : d.session.quiet = .new window)
    (as : List Action) :
    (d.run as).1.session.quiet.Remembers window (Waits window as) := by
  induction as using List.reverseRecOn with
  | nil =>
    show d.session.quiet.Remembers _ _
    rw [h]
    exact (Quiet.remembers_new window).congr fun t => ⟨False.elim, not_waits_nil⟩
  | append_singleton as a ih =>
    rw [run_append]
    exact remembers_step ih a

end Desk

/-! ## 3. What has come of the text -/

/-- Whether tree and text are said to agree after an event: an edit of the tree was done, or a
    reading counted. -/
def Event.settles (e : Event) : Bool := e.agreement? = some .synced

/-- The last value that events leave is the one from before or left by one of them. -/
theorem Event.last_cases {α : Type} (f : Event → Option α) (start : α) (es : List Event) :
    last f start es = start ∨ ∃ e ∈ es, f e = some (last f start es) := by
  unfold last
  cases hl : (es.filterMap f).getLast? with
  | none => exact .inl rfl
  | some v => exact .inr (List.mem_filterMap.mp (List.mem_of_getLast? hl))

/-- What neither types a text nor settles anything leaves the text. -/
theorem Event.text?_of_not_settles {e : Event} (ht : ∀ text, e ≠ .typed text)
    (hs : e.settles = false) (indent : String) : e.text? indent = none := by
  cases e with
  | typed text => exact absurd rfl (ht text)
  | edited t => cases hs
  | issued _ | completed _ _ => rfl

namespace Desk

variable {σ : Type} [Store σ]

/-- What is typed is typed by an action that types. -/
theorem types_of_typed_mem {d : Desk σ} {a : Action} {text : String}
    (h : .typed text ∈ (d.step a).2) : a.types = true := by
  cases he : a.edits with
  | true =>
    obtain ⟨done, s, hstep, -⟩ := d.attempt_step he
    rw [hstep, tried] at h
    cases done <;> simp at h
  | false =>
    cases a with
    | editMarkup _ _ => rfl
    | dropOn _ =>
      simp only [step, tried] at h
      split at h <;> simp at h
    | readTicket i | complete i =>
      simp only [step] at h
      split at h <;> simp at h
    | begin | reconcile => simp [step] at h
    | updateMetadata _ | setApplications _ | startDrag _ | hover _ | cancelDrag | reconcileDue _
    | save _ => exact absurd h List.not_mem_nil
    | _ => cases he

theorem typed_not_mem_run {as : List Action} (h : ∀ a ∈ as, a.types = false) (text : String) :
    ∀ d : Desk σ, .typed text ∉ (d.run as).2 := by
  induction as with
  | nil => exact fun _ => List.not_mem_nil
  | cons a as ih =>
    intro d hmem
    rcases List.mem_append.mp hmem with hmem | hmem
    · have ht := types_of_typed_mem hmem
      rw [h a List.mem_cons_self] at ht
      cases ht
    · exact ih (fun b hb => h b (List.mem_cons_of_mem a hb)) _ hmem

/-- **As long as nothing settles it, the text that was typed last stands there unread.** -/
theorem unread_of_not_settles {d : Desk σ} {text : String} {now : Nat} {after : List Action}
    (ht : ∀ a ∈ after, a.types = false)
    (hs : ∀ e ∈ ((d.step (.editMarkup text now)).1.run after).2, e.settles = false) :
    ((d.step (.editMarkup text now)).1.run after).1.session.markup = text ∧
      ((d.step (.editMarkup text now)).1.run after).1.session.agreement ≠ .synced := by
  have hf := follows_run after (d.step (.editMarkup text now)).1
  constructor
  · rw [hf.markup]
    refine Event.last_of_none (fun e he => ?_) _
    refine Event.text?_of_not_settles (fun x hx => ?_) (hs e he) _
    exact typed_not_mem_run ht x _ (hx ▸ he)
  · intro ha
    rw [hf.agreement] at ha
    rcases Event.last_cases Event.agreement? (d.step (.editMarkup text now)).1.session.agreement
      ((d.step (.editMarkup text now)).1.run after).2 with hl | ⟨e, he, hl⟩
    · -- what was said right behind the typing is that the text is not read yet
      rw [ha] at hl
      cases hl
    · rw [ha] at hl
      have hsettles : e.settles = true := decide_eq_true hl
      rw [hs e he] at hsettles
      cases hsettles

/-! ## 4. When a reading is announced -/

/-- **A reading is announced for the last text that was typed, once it has rested.** At any point of
    any run of a session, whatever the times, a reading is due exactly when the last text was typed
    at least the quiet window before, and nobody has asked since then when the window was over. What
    is said of tree and text then comes of the events since the typing alone: if no edit of the tree
    was done and no reading has counted, the text is the one that was typed and is not said to agree
    with the tree; else the last of those events says whether they agree, and the reading is
    announced all the same. -/
theorem run_due {s : Session} (hs : s.Opened) (store : σ) (as : List Action) (now : Nat) :
    let last := ((opening s store).run as).1.session
    let window := s.preferences.quietMillis
    ((last.reconcileDue now).1 = true ↔
      ∃ before text t after, as = before ++ .editMarkup text t :: after ∧ window ≤ now - t ∧
        (∀ a ∈ after, a.types = false) ∧
        ∀ asked, .reconcileDue asked ∈ after → asked - t < window) ∧
    ∀ before text t after, as = before ++ .editMarkup text t :: after →
      (∀ a ∈ after, a.types = false) →
        let since := (((opening s store).run (before ++ [.editMarkup text t])).1.run after).2
        last.agreement = Event.last Event.agreement? .stale since ∧
        ((∀ e ∈ since, e.settles = false) → last.markup = text ∧ last.agreement ≠ .synced) := by
  intro last window
  constructor
  · have hr := (remembers_run (d := opening s store) hs.quiet as).ready_iff now
    refine hr.trans ⟨?_, ?_⟩
    · rintro ⟨t, ⟨text, before, after, has, hafter⟩, hw⟩
      exact ⟨before, text, t, after, has, hw, fun a ha => (hafter a ha).1,
        fun asked ha => (hafter _ ha).2 asked rfl⟩
    · rintro ⟨before, text, t, after, has, hw, ht, hasked⟩
      exact ⟨t, ⟨text, before, after, has, fun a ha => ⟨ht a ha, fun asked he =>
        hasked asked (he ▸ ha)⟩⟩, hw⟩
  · rintro before text t after rfl ht since
    -- the run goes on from the typing as a run of its own
    have hlast : last =
        ((((opening s store).run before).1.step (.editMarkup text t)).1.run after).1.session := by
      show ((opening s store).run (before ++ .editMarkup text t :: after)).1.session = _
      rw [run_append]
      rfl
    have hsince : since =
        ((((opening s store).run before).1.step (.editMarkup text t)).1.run after).2 := by
      show (((opening s store).run (before ++ [.editMarkup text t])).1.run after).2 = _
      rw [run_append]
      rfl
    rw [hlast, hsince]
    exact ⟨(follows_run after _).agreement, unread_of_not_settles ht⟩

/-- A text is typed, and an action added before anybody asks. -/
theorem run_due_edited :
    (Session.new "main" .standard .standard).Opened ∧
    (((opening (Session.new "main" .standard .standard) Shelf.empty).run
      [.editMarkup "<extension/>" 0, .addNode .action]).1.session.reconcileDue 300).1 = true :=
  ⟨.new _ _ _, (run_due (.new _ _ _) Shelf.empty [.editMarkup "<extension/>" 0, .addNode .action]
    300).1.mpr ⟨[], "<extension/>", 0, [.addNode .action], rfl, Nat.le_refl 300,
      fun a ha => by rw [List.mem_singleton.mp ha]; rfl,
      fun asked ha => by cases List.mem_singleton.mp ha⟩⟩

/-- **A reading may be announced where tree and text agree**: behind an edit of the tree, and behind
    a reading that was not waited for. -/
theorem due_while_synced :
    let start := opening (Session.new "main" .standard .standard) Shelf.empty
    let edited := (start.run [.editMarkup "<extension/>" 0, .addNode .action]).1.session
    let read := (start.run [.editMarkup "" 0, .reconcile]).1.session
    ((edited.reconcileDue 300).1 = true ∧ edited.agreement = .synced) ∧
      ((read.reconcileDue 300).1 = true ∧ read.agreement = .synced) := by
  decide +kernel

end Desk

end Dialplan
