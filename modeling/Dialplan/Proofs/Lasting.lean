import Dialplan.Proofs.Run
/-!
# What lasts through a run

A fact about a session lasts when it is kept by each thing that can be done to a session. What comes
back from a reading comes back at any later time, so a completion may build on two things only: the
reading is what its ticket was read as, and a ticket that still counts carries the text as it is.

* `Ticket.ReadAs`: what a ticket is read as;
* `Session.Holds`: a ticket that still counts carries the text as it is;
* `Session.Lasting`: a fact that is kept, one field for each sort of change;
* `Lasting.run`: what lasts holds after every run; `lasting_tree` is the case of facts about trees.
-/

namespace Dialplan

open Markup (read)
open Text (blank)

/-! ## 1. Tickets -/

/-- What a ticket is read as, at some time. -/
inductive Ticket.ReadAs (k : Ticket) : Except Markup.Fault Tree → Prop
  | blank (h : blank k.text = true) (m : Metadata) : ReadAs k (.ok (.ofMetadata m))
  | text (h : blank k.text = false) : ReadAs k (read k.text)

namespace Session

theorem readAs_readTicket (s : Session) (k : Ticket) : k.ReadAs (s.readTicket k) := by
  unfold readTicket
  split
  · rename_i h
    exact .blank h s.metadata
  · rename_i h
    rw [Bool.not_eq_true] at h
    exact .text h

/-- **A ticket that still counts carries the text as it is.** -/
structure Holds (s : Session) (k : Ticket) : Prop where
  issued : k.generation ≤ s.tracker.generation
  current : s.tracker.isCurrent k = true → k.text = s.markup

theorem Holds.same {s s' : Session} {k : Ticket} (hk : s.Holds k)
    (hg : s'.tracker.generation = s.tracker.generation) (hm : s'.markup = s.markup) :
    s'.Holds k := by
  refine ⟨hg ▸ hk.issued, fun hc => ?_⟩
  unfold Tracker.isCurrent at hc
  rw [hg] at hc
  rw [hm]
  exact hk.current hc

/-- Nothing that was issued before counts any more. -/
theorem Holds.newer {s s' : Session} {k : Ticket} (hk : s.Holds k)
    (hg : s'.tracker.generation = s.tracker.generation + 1) : s'.Holds k := by
  have hi := hk.issued
  refine ⟨by omega, fun hc => ?_⟩
  have he : k.generation = s'.tracker.generation := of_decide_eq_true hc
  omega

theorem holds_begin (s : Session) : s.begin.2.Holds s.begin.1 :=
  ⟨Nat.le_refl _, fun _ => rfl⟩

theorem Holds.complete {s : Session} {k' : Ticket} (hk : s.Holds k') (k : Ticket)
    (r : Except Markup.Fault Tree) : (s.complete k r).2.Holds k' :=
  hk.same (s.generation_complete k r) (s.markup_complete k r)

/-! ## 2. Facts that are kept -/

/-- **A fact about a session that is kept by everything that can be done to it.** -/
structure Lasting (P : Session → Prop) : Prop where
  same {s s' : Session} : P s → s.Same s' → P s'
  edited {s s' : Session} : P s → s.Edited s' → P s'
  typed {s : Session} (text : String) (now : Nat) : P s → P (s.editMarkup text now)
  issued {s : Session} : P s → P s.begin.2
  completed {s : Session} {k : Ticket} {r : Except Markup.Fault Tree} :
    P s → s.Holds k → k.ReadAs r → P (s.complete k r).2

/-- A fact about trees lasts if edits keep it, and if it is true of every tree that was read and of
    the tree of every new rule set. -/
theorem lasting_tree {T : Tree → Prop}
    (edit : ∀ {t t' : Tree} {e : Edit} {c : Option NodeId}, T t → Edit.Done t e t' c → T t')
    (read : ∀ {text : String} {t : Tree}, Markup.read text = .ok t → T t)
    (new : ∀ m : Metadata, T (.ofMetadata m)) : Lasting fun s => T s.tree where
  same h hs := hs.tree ▸ h
  edited h hs := by
    obtain ⟨e, c, he⟩ := hs.edit
    exact edit h (Edit.apply_done he)
  typed _ _ h := h
  issued h := h
  completed {s k r} h _ hr := by
    unfold complete
    split
    · cases hr with
      | blank _ m => exact new m
      | text _ =>
        cases hread : Markup.read k.text with
        | ok t => exact read hread
        | error e => exact h
    · exact h

/-- A session at its start, with whatever indentation. -/
inductive Opened : Session → Prop
  | new (id : String) (m : Metadata) (p : Preferences) : Opened (.new id m p)
  | «open» (id markup : String) (m : Metadata) (p : Preferences) : Opened (.open id markup m p)

/-- What is true of every tree that was read and of the tree of every new rule set is true at the
    start of a session. -/
theorem Opened.tree {T : Tree → Prop}
    (read : ∀ {text : String} {t : Tree}, Markup.read text = .ok t → T t)
    (new : ∀ m : Metadata, T (.ofMetadata m)) {s : Session} (h : s.Opened) : T s.tree := by
  cases h with
  | new id m p => exact new m
  | «open» id markup m p =>
    unfold Session.«open» Draft.ofMarkup
    split
    · exact new m
    · cases hr : Markup.read markup with
      | ok t => exact read hr
      | error e => exact new m

end Session

/-! ## 3. Runs -/

namespace Desk

variable {σ : Type} {P : Session → Prop}

/-- **What is kept at every point of a run**: the fact about the session, tickets that carry the text
    as long as they count, and readings that are what their tickets were read as. -/
structure Keeps (P : Session → Prop) (d : Desk σ) : Prop where
  session : P d.session
  tickets : ∀ k ∈ d.tickets, d.session.Holds k
  readings : ∀ p ∈ d.readings, d.session.Holds p.1 ∧ p.1.ReadAs p.2

/-- At the start there are no tickets yet. -/
theorem keeps_opening {s : Session} (h : P s) (store : σ) : (opening s store).Keeps P :=
  ⟨h, fun _ hk => absurd hk List.not_mem_nil, fun _ hp => absurd hp List.not_mem_nil⟩

/-- A session that holds whatever was held takes over tickets and readings. -/
theorem Keeps.withSession {d : Desk σ} (hd : d.Keeps P) (store : σ) {s : Session} (hs : P s)
    (hk : ∀ k, d.session.Holds k → s.Holds k) :
    (Desk.mk s store d.tickets d.readings).Keeps P where
  session := hs
  tickets k h := hk k (hd.tickets k h)
  readings p h := ⟨hk p.1 (hd.readings p h).1, (hd.readings p h).2⟩

/-- **Every action keeps what lasts.** -/
theorem Turn.keeps (hP : Session.Lasting P) {d : Desk σ} {r : Desk σ × List Event} (h : d.Turn r)
    (hd : d.Keeps P) : r.1.Keeps P := by
  cases h with
  | still h =>
    exact hd.withSession _ (hP.same hd.session h)
      fun k hk => hk.same (congrArg Tracker.generation h.tracker) h.markup
  | edited h =>
    exact hd.withSession _ (hP.edited hd.session h)
      fun k hk => hk.newer (congrArg Tracker.generation h.tracker)
  | typed text now =>
    exact hd.withSession _ (hP.typed text now hd.session) fun k hk => hk.newer rfl
  | issued =>
    have hn := hd.withSession d.store (hP.issued hd.session) fun k hk => hk.newer rfl
    refine ⟨hn.session, fun k hk => ?_, hn.readings⟩
    rcases List.mem_append.mp hk with hk | hk
    · exact hn.tickets k hk
    · rw [List.mem_singleton.mp hk]
      exact d.session.holds_begin
  | read hk =>
    refine ⟨hd.session, hd.tickets, fun p hp => ?_⟩
    rcases List.mem_append.mp hp with hp | hp
    · exact hd.readings p hp
    · rw [List.mem_singleton.mp hp]
      exact ⟨hd.tickets _ hk, d.session.readAs_readTicket _⟩
  | completed hr =>
    obtain ⟨hh, ha⟩ := hd.readings _ hr
    exact hd.withSession _ (hP.completed hd.session hh ha) fun k hk => hk.complete _ _
  | reconciled =>
    have hs := hP.completed (hP.issued hd.session) d.session.holds_begin
      (d.session.begin.2.readAs_readTicket _)
    refine hd.withSession _ hs fun k hk => ?_
    have hb : d.session.begin.2.Holds k := hk.newer rfl
    exact hb.complete _ _

theorem Keeps.run [Store σ] (hP : Session.Lasting P) (as : List Action) {d : Desk σ}
    (hd : d.Keeps P) : (d.run as).1.Keeps P :=
  run_induction (fun a _ d hd => (turn_step d a).keeps hP hd) hd

end Desk

/-- **What lasts and is true at the start is true after every run.** -/
theorem Session.Lasting.run {P : Session → Prop} (hP : Lasting P) {s : Session} (h : P s)
    {σ : Type} [Store σ] (store : σ) (as : List Action) :
    P ((Desk.opening s store).run as).1.session :=
  ((Desk.keeps_opening h store).run hP as).session

end Dialplan
