import Dialplan.Reconcile
import Mathlib.Data.List.Induction
/-!
# When a burst of edits is over

The quiet window is told of edits and asked, at times that may go backwards too, whether the text
has rested long enough. What it answers is settled by the log of all that came before: an edit that
no yes has answered yet, and the time of the last edit.

* `Behind`: an entry of a log with nothing but entries of one sort behind it;
* `Quiet.Call`, `Quiet.Entry`: one call, and what the log says of it;
* `Quiet.step`, `Quiet.run`: one call and many, each with its entry in the log;
* `Unanswered`, `Latest`: what a log says of edits, told without the window;
* `Quiet.Remembers`: which edit the window has in mind, and what it answers then;
* `Quiet.Recalls`: of a log it is the last edit, as long as that is unanswered; a call keeps it so
  (`Recalls.step`);
* `Quiet.run_ready`: when a question is answered with yes, and what is left of the window before.
-/

namespace Dialplan

/-! ## 1. Logs -/

/-- An entry stands in a log, and all behind it are of one sort. -/
def Behind {α : Type} (log : List α) (e : α) (p : α → Prop) : Prop :=
  ∃ front back, log = front ++ e :: back ∧ ∀ x ∈ back, p x

theorem behind_snoc {α : Type} {log : List α} {x e : α} {p : α → Prop} :
    Behind (log ++ [x]) e p ↔ x = e ∨ (p x ∧ Behind log e p) := by
  constructor
  · rintro ⟨front, back, hlog, hback⟩
    rcases List.eq_nil_or_concat back with rfl | ⟨back, y, rfl⟩
    · obtain ⟨-, hx⟩ := List.append_inj' hlog rfl
      exact .inl (List.cons.inj hx).1
    · rw [List.concat_eq_append, ← List.cons_append, ← List.append_assoc] at hlog
      obtain ⟨hfront, hx⟩ := List.append_inj' hlog rfl
      obtain rfl : x = y := (List.cons.inj hx).1
      exact .inr ⟨hback x (by simp), front, back, hfront, fun z hz => hback z (by simp [hz])⟩
  · rintro (rfl | ⟨hx, front, back, rfl, hback⟩)
    · exact ⟨log, [], rfl, fun _ h => absurd h List.not_mem_nil⟩
    · refine ⟨front, back ++ [x], by simp, fun z hz => ?_⟩
      rcases List.mem_append.mp hz with hz | hz
      · exact hback z hz
      · rw [List.mem_singleton.mp hz]
        exact hx

theorem not_behind_nil {α : Type} {e : α} {p : α → Prop} : ¬ Behind [] e p := by
  rintro ⟨front, back, h, -⟩
  simp at h

namespace Quiet

/-! ## 2. Calls and their log -/

/-- One call: an edit, or the question whether the text has rested long enough. -/
inductive Call where
  | record (now : Nat)
  | ask (now : Nat)

/-- What the log says of one call. -/
inductive Entry where
  | edit (time : Nat)
  | answer (time : Nat) (ready : Bool)
deriving DecidableEq

/-- What one call does, with its entry. -/
def step (q : Quiet) : Call → Quiet × Entry
  | .record now => (q.record now, .edit now)
  | .ask now => ((q.takeReady now).2, .answer now (q.takeReady now).1)

/-- What calls one after another do, with their log. -/
def run (q : Quiet) : List Call → Quiet × List Entry
  | [] => (q, [])
  | c :: rest => (((q.step c).1.run rest).1, (q.step c).2 :: ((q.step c).1.run rest).2)

/-- An entry of the log was made where the calls before it had led. -/
theorem run_eq_append_cons {calls : List Call} {before after : List Entry} {e : Entry} {q : Quiet}
    (h : (q.run calls).2 = before ++ e :: after) :
    ∃ first call, (q.run first).2 = before ∧ ((q.run first).1.step call).2 = e := by
  induction calls generalizing q before with
  | nil => exact absurd h (by simp [run])
  | cons c rest ih =>
    cases before with
    | nil => exact ⟨[], c, rfl, (List.cons.inj h).1⟩
    | cons e' before =>
      obtain ⟨he, hrest⟩ := List.cons.inj h
      obtain ⟨first, call, hfirst, hcall⟩ := ih hrest
      exact ⟨c :: first, call, congrArg₂ List.cons he hfirst, hcall⟩

/-! ## 3. What a log says of edits -/

/-- **An edit has come, and no question since then was answered with yes.** -/
def Unanswered (log : List Entry) : Prop :=
  ∃ t, Behind log (.edit t) fun x => ∀ now, x ≠ .answer now true

/-- **The last edit in the log came at this time.** -/
def Latest (log : List Entry) (t : Nat) : Prop :=
  Behind log (.edit t) fun x => ∀ t', x ≠ .edit t'

variable {log : List Entry}

theorem unanswered_snoc_edit (now : Nat) : Unanswered (log ++ [.edit now]) :=
  ⟨now, behind_snoc.mpr (.inl rfl)⟩

theorem unanswered_snoc_answer {now : Nat} {ready : Bool} :
    Unanswered (log ++ [.answer now ready]) ↔ ready = false ∧ Unanswered log := by
  unfold Unanswered
  simp only [behind_snoc]
  cases ready <;> simp

theorem latest_snoc_edit {now t : Nat} : Latest (log ++ [.edit now]) t ↔ now = t := by
  unfold Latest
  rw [behind_snoc]
  simp

theorem latest_snoc_answer {now t : Nat} {ready : Bool} :
    Latest (log ++ [.answer now ready]) t ↔ Latest log t := by
  unfold Latest
  rw [behind_snoc]
  simp

theorem not_unanswered_nil : ¬ Unanswered [] := fun ⟨_, h⟩ => not_behind_nil h

/-- Where an edit is unanswered there is a last one. -/
theorem exists_latest (h : Unanswered log) : ∃ t, Latest log t := by
  induction log using List.reverseRecOn with
  | nil => exact absurd h not_unanswered_nil
  | append_singleton log x ih =>
    cases x with
    | edit now => exact ⟨now, latest_snoc_edit.mpr rfl⟩
    | answer now ready =>
      obtain ⟨t, ht⟩ := ih (unanswered_snoc_answer.mp h).2
      exact ⟨t, latest_snoc_answer.mpr ht⟩

/-- What is unanswered behind a yes has come behind it. -/
theorem exists_edit_of_unanswered {between : List Entry} {t : Nat}
    (h : Unanswered (log ++ .answer t true :: between)) : ∃ t', .edit t' ∈ between := by
  induction between using List.reverseRecOn with
  | nil => cases (unanswered_snoc_answer.mp h).1
  | append_singleton between x ih =>
    cases x with
    | edit now => exact ⟨now, by simp⟩
    | answer now ready =>
      rw [← List.cons_append, ← List.append_assoc] at h
      obtain ⟨t', ht'⟩ := ih (unanswered_snoc_answer.mp h).2
      exact ⟨t', List.mem_append_left _ ht'⟩

/-! ## 4. What the window remembers -/

/-- **The window remembers an edit**, the one whose time has what at most one time has. -/
structure Remembers (q : Quiet) (window : Nat) (p : Nat → Prop) : Prop where
  window_eq : q.window = window
  edit (t : Nat) : q.lastEdit = some t ↔ p t

variable {q : Quiet} {window : Nat} {p p' : Nat → Prop}

theorem Remembers.congr (h : q.Remembers window p) (hp : ∀ t, p t ↔ p' t) :
    q.Remembers window p' :=
  ⟨h.window_eq, fun t => (h.edit t).trans (hp t)⟩

theorem remembers_new (window : Nat) : (new window).Remembers window fun _ => False :=
  ⟨rfl, fun t => by simp [new]⟩

/-- An edit is remembered in place of the one before it. -/
theorem Remembers.record (h : q.Remembers window p) (now : Nat) :
    (q.record now).Remembers window fun t => now = t :=
  ⟨h.window_eq, fun t => by simp [Quiet.record]⟩

/-- **When the answer is yes.** -/
theorem Remembers.ready_iff (h : q.Remembers window p) (now : Nat) :
    (q.takeReady now).1 = true ↔ ∃ t, p t ∧ window ≤ now - t := by
  unfold takeReady
  simp only [← h.edit, ← h.window_eq]
  cases q.lastEdit with
  | none => simp
  | some t => by_cases hw : q.window ≤ now - t <;> simp [hw]

theorem Remembers.not_ready_iff (h : q.Remembers window p) {t : Nat} (ht : p t) (now : Nat) :
    (q.takeReady now).1 = false ↔ now - t < window := by
  have hlast := (h.edit t).mpr ht
  rw [← Bool.not_eq_true, h.ready_iff, ← Nat.not_le]
  refine not_congr ⟨?_, fun hw => ⟨t, ht, hw⟩⟩
  rintro ⟨t', ht', hw⟩
  have hsame := hlast.symm.trans ((h.edit t').mpr ht')
  rw [Option.some.inj hsame]
  exact hw

/-- A question leaves the edit that it does not answer with yes. -/
theorem Remembers.takeReady (h : q.Remembers window p) (now : Nat) :
    (q.takeReady now).2.Remembers window fun t => p t ∧ now - t < window := by
  unfold Quiet.takeReady
  cases hl : q.lastEdit with
  | none =>
    refine ⟨h.window_eq, fun t => ?_⟩
    have hnone : ¬ p t := by simp [← h.edit, hl]
    simp [hl, hnone]
  | some last =>
    have hp : ∀ t, p t ↔ last = t := by simp [← h.edit, hl]
    simp only [hp]
    split
    · rename_i hw
      rw [h.window_eq] at hw
      exact ⟨h.window_eq, fun t => ⟨nofun, fun ⟨ht, hlt⟩ => by omega⟩⟩
    · rename_i hw
      rw [h.window_eq] at hw
      refine ⟨h.window_eq, fun t => ?_⟩
      rw [hl, Option.some.injEq]
      exact ⟨fun ht => ⟨ht, by omega⟩, And.left⟩

theorem Remembers.isPending_iff (h : q.Remembers window p) : q.isPending = true ↔ ∃ t, p t := by
  unfold isPending
  simp only [Option.isSome_iff_exists, h.edit]

/-- What is left of the window is nothing exactly when the answer is yes. -/
theorem remaining?_eq_zero_iff (q : Quiet) (now : Nat) :
    q.remaining? now = some 0 ↔ (q.takeReady now).1 = true := by
  unfold remaining? takeReady
  cases q.lastEdit with
  | none => simp
  | some t => by_cases hw : q.window ≤ now - t <;> simp [hw, Nat.sub_eq_zero_iff_le]

theorem remaining?_eq_none_iff (q : Quiet) (now : Nat) :
    q.remaining? now = none ↔ q.isPending = false := by
  unfold remaining? isPending
  cases q.lastEdit <;> simp

/-- **The window remembers of a log the last edit, as long as it is unanswered.** -/
def Recalls (q : Quiet) (window : Nat) (log : List Entry) : Prop :=
  q.Remembers window fun t => Unanswered log ∧ Latest log t

theorem recalls_new (window : Nat) : (new window).Recalls window [] :=
  (remembers_new window).congr fun _ => ⟨False.elim, fun h => not_unanswered_nil h.1⟩

/-- **Every call keeps it so.** -/
theorem Recalls.step (h : q.Recalls window log) (c : Call) :
    (q.step c).1.Recalls window (log ++ [(q.step c).2]) := by
  cases c with
  | record now =>
    refine (Remembers.record h now).congr fun t => ?_
    show _ ↔ Unanswered (log ++ [.edit now]) ∧ Latest (log ++ [.edit now]) t
    rw [latest_snoc_edit]
    exact ⟨fun ht => ⟨unanswered_snoc_edit now, ht⟩, And.right⟩
  | ask now =>
    refine (Remembers.takeReady h now).congr fun t => ?_
    show _ ↔ Unanswered (log ++ [.answer now _]) ∧ Latest (log ++ [.answer now _]) t
    rw [unanswered_snoc_answer, latest_snoc_answer]
    constructor
    · rintro ⟨ht, hw⟩
      exact ⟨⟨(Remembers.not_ready_iff h ht now).mpr hw, ht.1⟩, ht.2⟩
    · rintro ⟨⟨hr, hu⟩, hl⟩
      exact ⟨⟨hu, hl⟩, (Remembers.not_ready_iff h ⟨hu, hl⟩ now).mp hr⟩

/-- Calls one after another, by induction on them; the log goes on behind what it had. -/
theorem Recalls.run (h : q.Recalls window log) (calls : List Call) :
    (q.run calls).1.Recalls window (log ++ (q.run calls).2) := by
  induction calls generalizing q log with
  | nil => simpa [Quiet.run] using h
  | cons c rest ih =>
    have hnext := ih (h.step c)
    rwa [List.append_assoc, List.singleton_append] at hnext

theorem recalls_run (window : Nat) (calls : List Call) :
    ((new window).run calls).1.Recalls window ((new window).run calls).2 :=
  (recalls_new window).run calls

theorem Recalls.ready_iff (h : q.Recalls window log) (now : Nat) :
    (q.takeReady now).1 = true ↔ Unanswered log ∧ ∃ t, Latest log t ∧ window ≤ now - t := by
  rw [Remembers.ready_iff h now]
  simp only [and_assoc, exists_and_left]

theorem Recalls.isPending_iff (h : q.Recalls window log) :
    q.isPending = true ↔ Unanswered log := by
  rw [Remembers.isPending_iff h, exists_and_left]
  exact and_iff_left_of_imp exists_latest

/-! ## 5. Bursts -/

/-- **A burst is answered once, when its window is over.** After any calls, whatever their times: a
    question was answered with yes exactly when before it some edit was unanswered and the time was
    at least the window behind the last edit, where a time before the edit counts as the time of
    the edit. Between two answers of yes there is an edit. At any time what is left of the window is
    nothing exactly when a question would be answered with yes, it is missing exactly when no edit
    is unanswered, and else it is the window less the time since the last edit. -/
theorem run_ready (window : Nat) (calls : List Call) :
    let q := ((new window).run calls).1
    let log := ((new window).run calls).2
    (∀ before now ready after, log = before ++ .answer now ready :: after →
      (ready = true ↔ Unanswered before ∧ ∃ t, Latest before t ∧ window ≤ now - t)) ∧
    (∀ before t between t' after,
      log = before ++ .answer t true :: (between ++ .answer t' true :: after) →
        ∃ edited, .edit edited ∈ between) ∧
    (∀ now,
      ((q.takeReady now).1 = true ↔ Unanswered log ∧ ∃ t, Latest log t ∧ window ≤ now - t) ∧
      (q.remaining? now = some 0 ↔ (q.takeReady now).1 = true) ∧
      (q.remaining? now = none ↔ q.isPending = false) ∧
      (q.isPending = true ↔ Unanswered log) ∧
      ∀ t, Unanswered log → Latest log t → q.remaining? now = some (window - (now - t))) := by
  intro q log
  have hq : q.Recalls window log := recalls_run window calls
  have answered : ∀ before now ready after, log = before ++ .answer now ready :: after →
      (ready = true ↔ Unanswered before ∧ ∃ t, Latest before t ∧ window ≤ now - t) := by
    intro before now ready after hlog
    obtain ⟨first, call, rfl, hcall⟩ := run_eq_append_cons hlog
    cases call with
    | record _ => cases hcall
    | ask _ =>
      cases hcall
      exact (recalls_run window first).ready_iff now
  refine ⟨answered, fun before t between t' after hlog => ?_, fun now => ⟨hq.ready_iff now,
    q.remaining?_eq_zero_iff now, q.remaining?_eq_none_iff now, hq.isPending_iff,
    fun t hu ht => ?_⟩⟩
  · -- the second yes needs an edit that is unanswered, so one behind the first yes
    have hsecond := answered (before ++ .answer t true :: between) t' true after (by simp [hlog])
    exact exists_edit_of_unanswered (hsecond.mp rfl).1
  · unfold remaining?
    rw [(Remembers.edit hq t).mpr ⟨hu, ht⟩, Remembers.window_eq hq]
    rfl

/-- Two edits within one window are answered once, when it is over. -/
example : ((new 300).run [.record 0, .record 200, .ask 400, .ask 500, .ask 900]).2 =
    [.edit 0, .edit 200, .answer 400 false, .answer 500 true, .answer 900 false] := by decide

end Quiet

end Dialplan
