import Dialplan.Proofs.Saving
/-!
# When a save is done

A save passes three gates, one after another: the tree has to be complete, tree and text have to
agree or the user has to confirm, and the store has to take the rule set. The first gate that is
shut gives the answer, whatever the others would say.

* `Store.Keeps`: a store that keeps what it takes, and what it objects to;
* `Session.save_cases`: the four ways a save can go, in their order;
* `Session.Settled`: when a save is done and what it does then; `Desk.run_save_iff`: so it is after
  any run, in memory and behind the guard.
-/

namespace Dialplan

open Text (blank)

/-! ## 1. Stores that keep what they take -/

/-- **A store that keeps what it takes.** A rule set to which there is no objection stands under its
    id after the save, and every other id loads as before. An objection is the answer to the save,
    and leaves the store alone. -/
structure Store.Keeps (σ : Type) [Store σ] (objection? : Stored → Option StoreFault) : Prop where
  refused {r : Stored} {e : StoreFault} (h : objection? r = some e) (store : σ) (id : String) :
    Store.save store id r = (.error e, store)
  taken {r : Stored} (h : objection? r = none) (store : σ) (id : String) :
    ∃ store', Store.save store id r = (.ok (), store') ∧ Store.load store' id = .ok r ∧
      ∀ other, other ≠ id → Store.load store' other = Store.load store other

namespace Shelf

theorem lookup_filter_of_ne {id other : String} (h : other ≠ id) :
    ∀ ruleSets : List (String × Stored),
      (ruleSets.filter fun e => e.1 ≠ id).lookup other = ruleSets.lookup other
  | [] => rfl
  | (i, r) :: rest => by
      have ih := lookup_filter_of_ne h rest
      by_cases hi : i = id
      · subst hi
        have hne : (other == i) = false := beq_eq_false_iff_ne.mpr h
        simp only [List.filter_cons, ne_eq, not_true_eq_false, decide_false, Bool.false_eq_true,
          if_false, List.lookup_cons, hne, ih]
      · simp only [List.filter_cons, ne_eq, hi, not_false_eq_true, decide_true, if_true,
          List.lookup_cons, ih]

/-- After a save its rule set stands under its id, and any other id stands for what it stood for. -/
theorem lookup_save (s : Shelf) (id other : String) (r : Stored) :
    (s.save id r).2.ruleSets.lookup other =
      if other = id then some r else s.ruleSets.lookup other := by
  unfold save
  by_cases h : other = id
  · subst h
    rw [if_pos rfl, List.lookup_cons_self]
  · have hne : (other == id) = false := beq_eq_false_iff_ne.mpr h
    rw [if_neg h, List.lookup_cons, hne, lookup_filter_of_ne h]

/-- A shelf takes everything. -/
theorem keeps : Store.Keeps Shelf fun _ => none where
  refused h := nomatch h
  taken {r} _ store id := by
    refine ⟨_, rfl, Shelf.recalls store _ id r rfl, fun other h => ?_⟩
    show Shelf.load (store.save id r).2 other = Shelf.load store other
    unfold load
    rw [lookup_save, if_neg h]

end Shelf

namespace Guarded

variable {σ : Type} [Store σ] {inner? : Stored → Option StoreFault}

/-- The guard objects first, then the store behind it. -/
theorem keeps (h : Store.Keeps σ inner?) :
    Store.Keeps (Guarded σ) fun r => (objection? r).or (inner? r) where
  refused {r e} ho guard id := by
    show Guarded.save guard id r = _
    unfold Guarded.save
    cases hg : objection? r with
    | some e' =>
      rw [hg] at ho
      cases ho
      rfl
    | none =>
      rw [hg] at ho
      simp only [h.refused ho guard.inner id]
  taken {r} ho guard id := by
    obtain ⟨hg, hi⟩ := Option.or_eq_none_iff.mp ho
    obtain ⟨inner, hs, hload, hrest⟩ := h.taken hi guard.inner id
    refine ⟨⟨inner⟩, ?_, hload, hrest⟩
    show Guarded.save guard id r = _
    unfold Guarded.save
    simp only [hg, hs]

/-- The guard takes text that is not blank and names nothing dangerous, under a name. -/
theorem objection?_eq_none_iff (r : Stored) :
    objection? r = none ↔
      blank r.markup = false ∧ Hazard.scan r.markup = [] ∧ blank r.metadata.name = false := by
  unfold objection?
  cases blank r.markup with
  | true => simp
  | false =>
    cases Hazard.scan r.markup with
    | cons f rest => simp
    | nil => cases blank r.metadata.name <;> simp

end Guarded

/-- Nothing has to be asked where tree and text agree, or where the answer was given. -/
theorem Agreement.doubt?_eq_none_iff (a : Agreement) (confirmed : Bool) :
    a.doubt? confirmed = none ↔ a = .synced ∨ confirmed = true := by
  cases a <;> cases confirmed <;> simp [doubt?]

/-! ## 2. One save -/

namespace Session

variable {σ : Type} [Store σ] {objection? : Stored → Option StoreFault}

/-- **The four ways a save can go**, each where the ones before do not apply. -/
theorem save_cases (hk : Store.Keeps σ objection?) (s : Session) (store : σ) (confirmed : Bool) :
    (∃ b, s.blocker? = some b ∧ s.save store confirmed = (.error (.blocked b), s, store)) ∨
    (s.blocker? = none ∧ ∃ d, s.agreement.doubt? confirmed = some d ∧
      s.save store confirmed = (.ok (.confirm d), s, store)) ∨
    (s.blocker? = none ∧ s.agreement.doubt? confirmed = none ∧
      ∃ e, objection? ⟨s.markup, s.metadata⟩ = some e ∧
        s.save store confirmed = (.error (.store e), s, store)) ∨
    (s.blocker? = none ∧ s.agreement.doubt? confirmed = none ∧
      objection? ⟨s.markup, s.metadata⟩ = none ∧
      ∃ store', s.save store confirmed =
          (.ok .saved, { s with draft := s.draft.markSaved }, store') ∧
        Store.load store' s.id = .ok ⟨s.markup, s.metadata⟩ ∧
        ∀ id, id ≠ s.id → Store.load store' id = Store.load store id) := by
  unfold save
  cases hb : s.blocker? with
  | some b => exact .inl ⟨b, rfl, rfl⟩
  | none =>
    cases hd : s.agreement.doubt? confirmed with
    | some d => exact .inr (.inl ⟨rfl, d, rfl, rfl⟩)
    | none =>
      cases ho : objection? ⟨s.markup, s.metadata⟩ with
      | some e =>
        refine .inr (.inr (.inl ⟨rfl, rfl, e, rfl, ?_⟩))
        rw [hk.refused ho store s.id]
      | none =>
        obtain ⟨store', hs, hload, hrest⟩ := hk.taken ho store s.id
        refine .inr (.inr (.inr ⟨rfl, rfl, rfl, store', ?_, hload, hrest⟩))
        rw [hs]

/-- **When a save is done, and what it does**, into a store that takes the rule set exactly where
    `takes` holds. -/
structure Settled (s : Session) (store : σ) (confirmed : Bool) (takes : Prop) : Prop where
  saved_iff : (s.save store confirmed).1 = .ok .saved ↔
    s.tree.Complete ∧ (s.agreement = .synced ∨ confirmed = true) ∧ takes
  /-- An incomplete tree is the answer before anything else. -/
  blocked_iff : (∃ b, (s.save store confirmed).1 = .error (.blocked b)) ↔ ¬ s.tree.Complete
  /-- Then comes the question. -/
  asked_iff : (∃ d, (s.save store confirmed).1 = .ok (.confirm d)) ↔
    s.tree.Complete ∧ ¬ (s.agreement = .synced ∨ confirmed = true)
  /-- The store is heard last. -/
  refused_iff : (∃ e, (s.save store confirmed).1 = .error (.store e)) ↔
    s.tree.Complete ∧ (s.agreement = .synced ∨ confirmed = true) ∧ ¬ takes
  /-- A save that is done marks the session as saved and changes one entry of the store. -/
  done : (s.save store confirmed).1 = .ok .saved →
    (s.save store confirmed).2.1 = { s with draft := { s.draft with dirty := false } } ∧
    Store.load (s.save store confirmed).2.2 s.id = .ok ⟨s.markup, s.metadata⟩ ∧
    ∀ id, id ≠ s.id → Store.load (s.save store confirmed).2.2 id = Store.load store id

theorem settled_of_keeps (hk : Store.Keeps σ objection?) {s : Session}
    (hroot : s.tree.root.kind = .extension) {takes : Prop}
    (ht : objection? ⟨s.markup, s.metadata⟩ = none ↔ takes) (store : σ) (confirmed : Bool) :
    s.Settled store confirmed takes := by
  have hc : s.tree.Complete ↔ s.blocker? = none := by
    rw [Tree.complete_iff_blocker? hroot]
    exact Option.map_eq_none_iff.symm
  have hd := s.agreement.doubt?_eq_none_iff confirmed
  rcases s.save_cases hk store confirmed with ⟨b, hb, hs⟩ | ⟨hb, d, hd', hs⟩ |
    ⟨hb, hd', e, he, hs⟩ | ⟨hb, hd', he, store', hs, hload, hrest⟩
  · constructor <;> simp [hs, hc, hb]
  · constructor <;> simp [hs, hc, hb, ← hd, hd']
  · constructor <;> simp [hs, hc, hb, ← hd, hd', ← ht, he]
  · refine ⟨?_, ?_, ?_, ?_, fun _ => ?_⟩
    · simp [hs, hc, hb, ← hd, hd', ← ht, he]
    · simp [hs, hc, hb]
    · simp [hs, ← hd, hd']
    · simp [hs, ← ht, he]
    · rw [hs]
      exact ⟨rfl, hload, hrest⟩

end Session

/-! ## 3. Runs -/

namespace Desk

variable {σ : Type} [Store σ]

/-- **When a save is done.** After any run of a session a save into memory is done exactly where no
    enabled condition of regexes lacks an enabled regex, and tree and text agree or the user has
    confirmed; behind the guard the text must besides not be blank nor name a dangerous application,
    and the name must not be blank. The store then gives back text and metadata of the session under
    its id, and under any other id what it gave before; of the session only the mark of what is
    unsaved has changed. Where more than one thing stands in the way, an incomplete tree is the
    answer before the question, and the question before what the store says. -/
theorem run_save_iff {s : Session} (hs : s.Opened) (store : σ) (as : List Action)
    (confirmed : Bool) :
    let now := ((opening s store).run as).1.session
    (∀ shelf : Shelf, now.Settled shelf confirmed True) ∧
      ∀ guard : Guarded Shelf, now.Settled guard confirmed
        (blank now.markup = false ∧ Hazard.scan now.markup = [] ∧
          blank now.metadata.name = false) := by
  intro now
  have hlawful : now.tree.Lawful Kind.Fits := Session.lasting_lawful.run hs.lawful store as
  have hguard : (Guarded.objection? ⟨now.markup, now.metadata⟩).or none = none ↔
      blank now.markup = false ∧ Hazard.scan now.markup = [] ∧
        blank now.metadata.name = false := by
    rw [Option.or_none]
    exact Guarded.objection?_eq_none_iff _
  refine ⟨fun shelf => ?_, fun guard => ?_⟩
  · exact Session.settled_of_keeps Shelf.keeps hlawful.1 ⟨fun _ => trivial, fun _ => rfl⟩ shelf
      confirmed
  · exact Session.settled_of_keeps (Guarded.keeps Shelf.keeps) hlawful.1 hguard guard confirmed

/-- A rule set with a condition of regexes goes behind the guard, and nothing else changes there. -/
theorem run_save_iff_night :
    Session.Opened (.new "main" { Metadata.standard with name := "night" } .standard) ∧
    (nightDesk.session.save (Guarded.mk Shelf.empty) false).1 = .ok .saved ∧
    nightDesk.session.tree.Complete ∧
    (nightDesk.session.save (Guarded.mk Shelf.empty) false).2.1.draft.dirty = false ∧
    Store.load (nightDesk.session.save (Guarded.mk Shelf.empty) false).2.2 "main" =
      .ok ⟨nightDesk.session.markup, nightDesk.session.metadata⟩ ∧
    Store.load (nightDesk.session.save (Guarded.mk Shelf.empty) false).2.2 "day" =
      .error (.notFound "day") := by
  obtain ⟨-, hguard⟩ :=
    run_save_iff (.new "main" { Metadata.standard with name := "night" } .standard) Shelf.empty
      [.addNode .regexCondition] false
  have h : nightDesk.session.Settled (Guarded.mk Shelf.empty) false _ := hguard ⟨.empty⟩
  obtain ⟨hcomplete, -, -⟩ := h.saved_iff.mp save_nightDesk
  obtain ⟨hsession, hload, hrest⟩ := h.done save_nightDesk
  refine ⟨.new _ _ _, save_nightDesk, hcomplete, ?_, hload, (hrest "day" (by decide)).trans rfl⟩
  rw [hsession]

end Desk

end Dialplan
