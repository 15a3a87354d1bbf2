import Dialplan.Proofs.Building
import Dialplan.Proofs.Lasting
/-!
# Tree and text of a session

What the agreement of a session says about its tree and its text is true after every run.

* `Session.Coherent`: where they are said to agree, the text reads as the tree, or it is blank and
  the tree is a new one; where the text is said to be faulty, it has the fault that is named;
* `Session.Told`: the same for every indentation, so that a text that was made from the tree is only
  known to be that text; it lasts (`lasting_told`);
* `Session.Sound`: what is told, with a lawful tree and an indentation that reading passes over;
* `run_coherent`: coherence after every run of a session.
-/

namespace Dialplan

open Markup (Layout read print)
open Text (blank)

/-! ## 1. The tree of a new rule set -/

theorem Tree.lawful_ofMetadata (m : Metadata) : (Tree.ofMetadata m).Lawful Kind.Fits := by
  have h := ((Kind.shows_defaults .extension).1.set m.name
    (show Kind.Admits _ "name" from ⟨by decide, by decide, by decide⟩)).set (boolText m.continues)
    (show Kind.Admits _ "continue" from ⟨by decide, by decide, by decide⟩)
  exact ⟨rfl, Node.lawful_branch.mpr ⟨h, fun _ hc => absurd hc List.not_mem_nil,
    fun _ hc => absurd hc List.not_mem_nil⟩⟩

theorem Tree.ofMetadata_congr {m m' : Metadata} (hn : m'.name = m.name)
    (hc : m'.continues = m.continues) : Tree.ofMetadata m' = Tree.ofMetadata m := by
  unfold Tree.ofMetadata
  rw [hn, hc]

/-- Metadata that follow the root of a new rule set name the same new rule set. -/
theorem ofMetadata_followRoot (m m' : Metadata) :
    Tree.ofMetadata (Session.followRoot m (Tree.ofMetadata m').root.label.attributes) =
      Tree.ofMetadata m' := by
  have hn : (Tree.ofMetadata m').root.label.attributes.get? "name" = some m'.name := rfl
  have hc : (Tree.ofMetadata m').root.label.attributes.get? "continue" =
      some (boolText m'.continues) := rfl
  unfold Session.followRoot
  rw [hn, hc]
  refine Tree.ofMetadata_congr rfl ?_
  show decide (boolText m'.continues = "true") = m'.continues
  cases m'.continues <;> rfl

/-! ## 2. Coherence -/

/-- The text reads as this tree, once both have `regex="all"` where a condition of regexes has no
    `regex`. -/
def ReadsAs (text : String) (t : Tree) : Prop :=
  ∃ u, read text = .ok u ∧ u.mended.alike t.mended = true

theorem readsAs_of_read {text : String} {t : Tree} (h : read text = .ok t) : ReadsAs text t :=
  ⟨t, h, (Tree.alike_iff _ _).mpr rfl⟩

theorem readsAs_print {indent : String} (hi : Layout indent.toList) {t : Tree}
    (ht : t.Lawful Kind.Fits) : ReadsAs (print indent t) t := by
  refine ⟨_, Markup.read_print hi ht, ?_⟩
  rw [Tree.alike_iff, Tree.wiped_mended, Tree.wiped_renumbered, ← Tree.wiped_mended]
  exact t.mended_mended ht

namespace Session

/-- **What the agreement says about tree and text is true.** -/
structure Coherent (s : Session) : Prop where
  synced : s.agreement = .synced →
    (blank s.markup = true ∧ s.tree.alike (.ofMetadata s.metadata) = true) ∨
      ReadsAs s.markup s.tree
  error : ∀ m, s.agreement = .error m →
    blank s.markup = false ∧ ∃ e, read s.markup = .error e ∧ e.message = m

/-- **What the agreement says, whatever the indentation is made of.** -/
structure Told (s : Session) : Prop where
  synced : s.agreement = .synced →
    (blank s.markup = true ∧ s.tree.alike (.ofMetadata s.metadata) = true) ∨
      ReadsAs s.markup s.tree ∨ s.markup = print s.preferences.indent s.tree
  error : ∀ m, s.agreement = .error m →
    blank s.markup = false ∧ ∃ e, read s.markup = .error e ∧ e.message = m

/-- Where tree and text agree, nothing is said about faults. -/
theorem Told.of_synced {s : Session} (ha : s.agreement = .synced)
    (h : (blank s.markup = true ∧ s.tree.alike (.ofMetadata s.metadata) = true) ∨
      ReadsAs s.markup s.tree ∨ s.markup = print s.preferences.indent s.tree) : s.Told where
  synced _ := h
  error m hm := by
    rw [ha] at hm
    cases hm

/-- Where the text is not read yet, nothing is said. -/
theorem Told.of_stale {s : Session} (ha : s.agreement = .stale) : s.Told where
  synced h := by
    rw [ha] at h
    cases h
  error m h := by
    rw [ha] at h
    cases h

/-- A named fault is the one that reading finds. -/
theorem Told.of_error {s : Session} {e : Markup.Fault} (ha : s.agreement = .error e.message)
    (hb : blank s.markup = false) (hr : read s.markup = .error e) : s.Told where
  synced h := by
    rw [ha] at h
    cases h
  error m h := by
    rw [ha] at h
    cases h
    exact ⟨hb, e, hr, rfl⟩

/-- A session that is told right, with a lawful tree and an indentation that reading passes over. -/
structure Sound (s : Session) : Prop where
  layout : Layout s.preferences.indent.toList
  lawful : s.tree.Lawful Kind.Fits
  told : s.Told

/-- **A text that was made from a lawful tree reads as the tree**, so a sound session is coherent. -/
theorem Sound.coherent {s : Session} (hs : s.Sound) : s.Coherent where
  synced ha := by
    rcases hs.told.synced ha with h | h | h
    · exact .inl h
    · exact .inr h
    · rw [h]
      exact .inr (readsAs_print hs.layout hs.lawful)
  error := hs.told.error

/-! ## 3. Sessions at their start -/

theorem told_new (id : String) (m : Metadata) (p : Preferences) : (new id m p).Told :=
  .of_synced rfl (.inr (.inr rfl))

theorem told_open (id markup : String) (m : Metadata) (p : Preferences) :
    («open» id markup m p).Told := by
  unfold «open» Draft.ofMarkup
  split
  · exact told_new id m p
  · rename_i hb
    rw [Bool.not_eq_true] at hb
    cases hr : read markup with
    | ok t => exact .of_synced rfl (.inr (.inl (readsAs_of_read hr)))
    | error e => exact .of_error rfl hb hr

theorem Opened.told {s : Session} (h : s.Opened) : s.Told := by
  cases h with
  | new id m p => exact told_new id m p
  | «open» id markup m p => exact told_open id markup m p

theorem Opened.lawful {s : Session} (h : s.Opened) : s.tree.Lawful Kind.Fits :=
  h.tree Markup.lawful_of_read Tree.lawful_ofMetadata

theorem preferences_open (id markup : String) (m : Metadata) (p : Preferences) :
    («open» id markup m p).preferences = p := by
  unfold «open» Draft.ofMarkup
  split
  · rfl
  · cases read markup <;> rfl

/-- A session at its start, with an indentation that reading passes over. -/
inductive Started : Session → Prop
  | new (id : String) (m : Metadata) {p : Preferences} (hp : Layout p.indent.toList) :
      Started (.new id m p)
  | «open» (id markup : String) (m : Metadata) {p : Preferences} (hp : Layout p.indent.toList) :
      Started (.open id markup m p)

theorem Started.opened {s : Session} (h : s.Started) : s.Opened := by
  cases h with
  | @new id m p hp => exact .new id m p
  | @«open» id markup m p hp => exact .open id markup m p

theorem Started.sound {s : Session} (h : s.Started) : s.Sound where
  layout := by
    cases h with
    | new id m hp => exact hp
    | «open» id markup m hp =>
      rw [preferences_open]
      exact hp
  lawful := h.opened.lawful
  told := h.opened.told

/-! ## 4. What lasts -/

theorem Same.agreement {s s' : Session} (h : s.Same s') : s'.agreement = s.agreement :=
  congrArg Tracker.agreement h.tracker

theorem Told.same {s s' : Session} (hs : s.Told) (h : s.Same s') : s'.Told := by
  have hm : Tree.ofMetadata s'.metadata = Tree.ofMetadata s.metadata :=
    Tree.ofMetadata_congr h.name h.continues
  refine ⟨fun ha => ?_, fun m ha => ?_⟩
  · rw [h.agreement] at ha
    rw [h.markup, h.tree, h.preferences, hm]
    exact hs.synced ha
  · rw [h.agreement] at ha
    rw [h.markup]
    exact hs.error m ha

theorem Edited.told {s s' : Session} (h : s.Edited s') : s'.Told := by
  refine .of_synced (congrArg Tracker.agreement h.tracker) (.inr (.inr ?_))
  rw [h.markup, h.preferences]

/-- **A completion says what is true**, since a ticket that counts carries the text. -/
theorem Told.complete {s : Session} (hs : s.Told) {k : Ticket} (hk : s.Holds k)
    {r : Except Markup.Fault Tree} (hr : k.ReadAs r) : (s.complete k r).2.Told := by
  unfold Session.complete
  split
  · rename_i hc
    have ht : k.text = s.markup := hk.current hc
    cases hr with
    | blank hb m =>
      -- the metadata at the reading may be older, but completing makes the session follow them
      refine .of_synced rfl (.inl ⟨ht ▸ hb, ?_⟩)
      rw [Tree.alike_iff]
      exact congrArg Tree.wiped (ofMetadata_followRoot s.metadata m).symm
    | text hb =>
      rw [ht] at hb ⊢
      cases hread : read s.markup with
      | ok t => exact .of_synced rfl (.inr (.inl (readsAs_of_read hread)))
      | error e => exact .of_error rfl hb hread
  · exact hs

/-- **What the agreement says lasts.** -/
theorem lasting_told : Lasting Told where
  same h hs := h.same hs
  edited _ hs := hs.told
  typed _ _ _ := .of_stale rfl
  issued h := ⟨h.synced, h.error⟩
  completed h hk hr := h.complete hk hr

theorem lasting_lawful : Lasting fun s => s.tree.Lawful Kind.Fits :=
  lasting_tree (fun h he => he.lawful Edit.stable_fits h) Markup.lawful_of_read
    Tree.lawful_ofMetadata

/-- The preferences stay as they were. -/
theorem lasting_preferences (p : Preferences) : Lasting fun s => s.preferences = p where
  same h hs := hs.preferences.trans h
  edited h hs := hs.preferences.trans h
  typed _ _ h := h
  issued h := h
  completed {s k r} h _ _ := by
    unfold complete
    split
    · cases r <;> exact h
    · exact h

theorem lasting_sound : Lasting Sound where
  same h hs := ⟨hs.preferences ▸ h.layout, lasting_lawful.same h.lawful hs, h.told.same hs⟩
  edited h hs := ⟨hs.preferences ▸ h.layout, lasting_lawful.edited h.lawful hs, hs.told⟩
  typed _ _ h := ⟨h.layout, h.lawful, .of_stale rfl⟩
  issued h := ⟨h.layout, h.lawful, lasting_told.issued h.told⟩
  completed h hk hr := by
    have hp := (lasting_preferences _).completed rfl hk hr
    exact ⟨hp ▸ h.layout, lasting_lawful.completed h.lawful hk hr, h.told.complete hk hr⟩

end Session

/-! ## 5. Runs -/

namespace Desk

variable {σ : Type}

/-- What holds at every point of a run. -/
abbrev Sound (d : Desk σ) : Prop := d.Keeps Session.Sound

theorem sound_run [Store σ] (as : List Action) {d : Desk σ} (hd : d.Sound) :
    (d.run as).1.Sound :=
  hd.run Session.lasting_sound as

/-- **Whatever is done to a session, its agreement stays true** of its tree and its text. -/
theorem run_coherent [Store σ] {s : Session} (hs : s.Started) (store : σ) (as : List Action) :
    ((opening s store).run as).1.session.Coherent := by
  have hd : (opening s store).Sound :=
    ⟨hs.sound, fun _ h => absurd h List.not_mem_nil, fun _ h => absurd h List.not_mem_nil⟩
  exact (sound_run as hd).session.coherent

/-- Two tickets, read in one order and completed in the other, on a text with a fault. -/
theorem run_coherent_faulty :
    Session.Started (.open "main" "<extension" .standard .standard) ∧
    ((opening (.open "main" "<extension" .standard .standard) Shelf.empty).run
      [.begin, .readTicket 0, .editMarkup " " 5, .begin, .readTicket 1, .complete 1,
        .setName "day", .complete 0, .reconcile]).1.session.Coherent :=
  ⟨.open _ _ _ (by decide), run_coherent (.open _ _ _ (by decide)) _ _⟩

end Desk

end Dialplan
