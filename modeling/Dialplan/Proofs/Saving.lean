import Dialplan.Proofs.Coherence
import Dialplan.Proofs.Lookup
import Mathlib
/-!
# What a save stores

What blocks a save is looked for in the tree, and what is stored is the text. Here the two are
compared: a tree may be saved when it is complete, and the question is whether the text that goes to
the store reads as a complete tree too.

* `Tree.Complete`: every enabled condition of regexes has an enabled regex; this is what a save
  waits for (`complete_iff_blocker?`), and likeness keeps it (`Complete.of_alike_mended`);
* `Store.Recalls`: a store that gives back what it has taken;
* `Session.save_saved`: all that a save which is done has gone through;
* `Desk.run_save_synced`: where tree and text agree, what is stored reads as a complete tree;
* `Desk.run_save`: what is known of the stored text in every state.
-/

namespace Dialplan

open Markup (Layout read print)
open Text (blank)

/-! ## 1. Complete trees -/

/-- An enabled condition of regexes has an enabled regex among its children. -/
def Node.Complete (n : Node) : Prop :=
  n.kind = .regexCondition → n.enabled = true →
    ∃ c ∈ n.children, c.kind = .regex ∧ c.enabled = true

/-- A tree that may be saved: every node of it is complete. -/
def Tree.Complete (t : Tree) : Prop := ∀ n ∈ t.nodes, n.Complete

theorem Rule.lacksRegex_eq_false_iff (n : Node) : lacksRegex n = false ↔ n.Complete := by
  unfold lacksRegex Node.Complete
  rw [Bool.and_eq_false_imp, Bool.not_eq_false', List.any_eq_true]
  simp only [Bool.and_eq_true, decide_eq_true_eq, and_imp]

theorem Rule.check_regexNeeded_eq_none_iff (p : Path) (n : Node) :
    regexNeeded.check p n = none ↔ n.Complete := by
  rw [← lacksRegex_eq_false_iff]
  unfold check
  cases lacksRegex n with
  | true => exact ⟨fun h => (nomatch h), fun h => (nomatch h)⟩
  | false => exact ⟨fun _ => rfl, fun _ => rfl⟩

namespace Node

/-- A change at every node leaves complete nodes complete, and no others. -/
theorem Uniform.complete_iff {f : Node → Node} (hf : Uniform f) (n : Node) :
    (f n).Complete ↔ n.Complete := by
  have hc : (∃ c ∈ (f n).children, c.kind = .regex ∧ c.enabled = true) ↔
      ∃ c ∈ n.children, c.kind = .regex ∧ c.enabled = true := by
    rw [hf.children]
    constructor
    · rintro ⟨c, hc, hk, he⟩
      obtain ⟨x, hx, rfl⟩ := List.mem_map.mp hc
      exact ⟨x, hx, (hf.kind x).symm.trans hk, (hf.enabled x).symm.trans he⟩
    · rintro ⟨x, hx, hk, he⟩
      exact ⟨f x, List.mem_map_of_mem hx, (hf.kind x).trans hk, (hf.enabled x).trans he⟩
  unfold Complete
  rw [hf.kind, hf.enabled, hc]

/-- The same for a node and all below it. -/
theorem Uniform.forall_complete_iff {f : Node → Node} (hf : Uniform f) (n : Node) :
    (∀ m ∈ (f n).subtree, m.Complete) ↔ ∀ m ∈ n.subtree, m.Complete := by
  rw [hf.subtree_eq, List.forall_mem_map]
  constructor
  · intro h m hm
    exact (hf.complete_iff m).mp (h m hm)
  · intro h m hm
    exact (hf.complete_iff m).mpr (h m hm)

end Node

namespace Tree

variable {t u : Tree}

/-- Neither numbers nor the `regex` of a condition count. -/
theorem complete_iff_wiped_mended (t : Tree) :
    t.Complete ↔ ∀ m ∈ t.mended.wiped.subtree, m.Complete := by
  have hm := Node.uniform_mended.forall_complete_iff t.root.node
  have hw := Node.uniform_wiped.forall_complete_iff t.root.node.mended
  exact (hw.trans hm).symm

/-- **Of two trees that are alike when mended, one may be saved if the other may.** -/
theorem Complete.of_alike_mended (h : t.Complete) (ha : u.mended.alike t.mended = true) :
    u.Complete := by
  rw [complete_iff_wiped_mended] at h ⊢
  rw [(alike_iff _ _).mp ha]
  exact h

/-- **Nothing blocks a save exactly of a complete tree.** The root is not looked at; it is an
    extension. -/
theorem complete_iff_blocker? (h : t.root.kind = .extension) :
    t.Complete ↔ t.blocker? = none := by
  have hroot : t.root.node.Complete := by
    intro hk
    have he : Kind.branch t.root.kind = .regexCondition := hk
    rw [h] at he
    cases he
  have hnodes : t.Complete ↔ ∀ n ∈ Node.subtrees t.root.children, n.Complete := by
    show (∀ n ∈ t.root.node :: Node.subtrees t.root.children, n.Complete) ↔ _
    rw [List.forall_mem_cons]
    exact and_iff_right hroot
  have hwalk := Node.map_walks .root 0 t.root.children
  rw [hnodes, ← hwalk, List.forall_mem_map]
  unfold blocker?
  rw [List.findSome?_eq_none_iff]
  constructor
  · intro hd e he
    exact (Rule.check_regexNeeded_eq_none_iff e.1 e.2).mpr (hd e he)
  · intro hd e he
    exact (Rule.check_regexNeeded_eq_none_iff e.1 e.2).mp (hd e he)

end Tree

/-! ## 2. Stores that give back -/

/-- What a store has taken it gives back. -/
def Store.Recalls (σ : Type) [Store σ] : Prop :=
  ∀ (store store' : σ) (id : String) (r : Stored),
    Store.save store id r = (.ok (), store') → Store.load store' id = .ok r

theorem Shelf.recalls : Store.Recalls Shelf := by
  intro store store' id r h
  obtain rfl : (⟨(id, r) :: store.ruleSets.filter (fun e => e.1 ≠ id), store.saves + 1⟩ : Shelf) =
      store' := congrArg Prod.snd h
  show Shelf.load _ id = _
  unfold Shelf.load
  rw [List.lookup_cons_self]

namespace Guarded

variable {σ : Type} [Store σ]

/-- What the guard takes has text, and the store behind it has taken it. -/
theorem save_ok {g g' : Guarded σ} {id : String} {r : Stored}
    (h : Store.save g id r = (.ok (), g')) :
    blank r.markup = false ∧ Store.save g.inner id r = (.ok (), g'.inner) := by
  change Guarded.save g id r = _ at h
  unfold Guarded.save at h
  split at h
  · cases h
  · rename_i ho
    refine ⟨?_, ?_⟩
    · unfold objection? at ho
      split at ho
      · cases ho
      · rename_i hb
        exact Bool.not_eq_true _ ▸ hb
    · cases hr : Store.save g.inner id r with
      | mk result inner =>
        rw [hr] at h
        cases h
        rfl

theorem recalls (hs : Store.Recalls σ) : Store.Recalls (Guarded σ) := by
  intro store store' id r h
  exact hs _ _ _ _ (save_ok h).2

end Guarded

/-! ## 3. One save -/

namespace Session

variable {σ : Type} [Store σ] {s : Session} {store : σ} {confirmed : Bool}

/-- **All that a save which is done has gone through**: nothing blocked it, nothing had to be asked,
    and the store has taken text and metadata. -/
theorem save_saved (h : (s.save store confirmed).1 = .ok .saved) :
    s.blocker? = none ∧ s.agreement.doubt? confirmed = none ∧
      Store.save store s.id ⟨s.markup, s.metadata⟩ = (.ok (), (s.save store confirmed).2.2) := by
  unfold save at h ⊢
  cases hb : s.blocker? with
  | some b =>
    rw [hb] at h
    cases h
  | none =>
    cases hd : s.agreement.doubt? confirmed with
    | some d =>
      rw [hb, hd] at h
      cases h
    | none =>
      rw [hb, hd] at h
      cases hr : Store.save store s.id ⟨s.markup, s.metadata⟩ with
      | mk result store' =>
        rw [hr] at h
        cases result with
        | error e => cases h
        | ok u => exact ⟨rfl, rfl, rfl⟩

/-- What nothing blocks, what needs no question and what the store takes is saved. -/
theorem saved_of_taken {store' : σ} (hb : s.blocker? = none)
    (hd : s.agreement.doubt? confirmed = none)
    (ht : Store.save store s.id ⟨s.markup, s.metadata⟩ = (.ok (), store')) :
    (s.save store confirmed).1 = .ok .saved := by
  unfold save
  rw [hb, hd, ht]

/-- What was saved is given back. -/
theorem load_save (hs : Store.Recalls σ) (h : (s.save store confirmed).1 = .ok .saved) :
    Store.load (s.save store confirmed).2.2 s.id = .ok ⟨s.markup, s.metadata⟩ :=
  hs _ _ _ _ (save_saved h).2.2

/-- A tree that is saved is complete. -/
theorem complete_of_saved (hl : s.tree.Lawful Kind.Fits)
    (h : (s.save store confirmed).1 = .ok .saved) : s.tree.Complete := by
  have hb : Blocker.of? s.tree = none := (save_saved h).1
  exact (Tree.complete_iff_blocker? hl.1).mpr (Option.map_eq_none_iff.mp hb)

/-- A save is done, and what the store then has reads as a tree that is not complete. -/
def SavesIncomplete (s : Session) (confirmed : Bool) : Prop :=
  (s.save Shelf.empty confirmed).1 = .ok .saved ∧
    ∃ r t, Store.load (s.save Shelf.empty confirmed).2.2 s.id = .ok r ∧
      read r.markup = .ok t ∧ ¬ t.Complete

end Session

/-! ## 4. Runs -/

namespace Desk

variable {σ : Type} [Store σ]

/-- **What a save of agreeing tree and text stores may be saved.** After any run of a session, if
    tree and text are said to agree and a store behind the guard takes the text, then what is kept
    there reads as a complete tree, in which nothing blocks a save. -/
theorem run_save_synced {s : Session} (hs : s.Started) (store : σ) (as : List Action)
    (guard : Guarded Shelf) (confirmed : Bool) :
    let now := ((opening s store).run as).1.session
    now.agreement = .synced → (now.save guard confirmed).1 = .ok .saved →
      ∃ r t, Store.load (now.save guard confirmed).2.2 now.id = .ok r ∧
        read r.markup = .ok t ∧ t.blocker? = none ∧ t.Complete := by
  intro now hsync hsaved
  have hsound : now.Sound := Session.lasting_sound.run hs.sound store as
  have hcomplete : now.tree.Complete := Session.complete_of_saved hsound.lawful hsaved
  have hload := Session.load_save (Guarded.recalls Shelf.recalls) hsaved
  rcases hsound.coherent.synced hsync with ⟨hblank, -⟩ | ⟨u, hread, halike⟩
  · -- a blank text agrees with the tree of a new rule set, but the guard does not take it
    have hb := (Guarded.save_ok (Session.save_saved hsaved).2.2).1
    rw [show blank now.markup = true from hblank] at hb
    cases hb
  · have hu : u.Complete := hcomplete.of_alike_mended halike
    have hroot : u.root.kind = .extension := (Markup.lawful_of_read hread).1
    exact ⟨_, u, hload, hread, (Tree.complete_iff_blocker? hroot).mp hu, hu⟩

/-- A new rule set with a name, to which a condition of regexes was added. -/
def nightDesk : Desk Shelf :=
  ((opening (.new "main" { Metadata.standard with name := "night" } .standard) .empty).run
    [.addNode .regexCondition]).1

/-- The text of `nightDesk`. -/
def nightText : String :=
  "<extension name=\"night\" continue=\"false\">\n\t<condition regex=\"all\">\n" ++
    "\t\t<regex/>\n\t</condition>\n</extension>"

theorem save_nightDesk :
    (nightDesk.session.save (Guarded.mk Shelf.empty) false).1 = .ok .saved := by
  have hmarkup : nightDesk.session.markup = nightText := by
    unfold nightText
    decide +kernel
  have hblank : blank nightText = false := by
    unfold nightText
    cbv
  have hscan : Hazard.scan nightText = [] := by
    unfold nightText
    cbv
  have hno : Guarded.objection? ⟨nightText, nightDesk.session.metadata⟩ = none := by
    unfold Guarded.objection?
    rw [hblank, hscan]
    decide
  have htaken : Store.save (Guarded.mk Shelf.empty) nightDesk.session.id
      ⟨nightDesk.session.markup, nightDesk.session.metadata⟩ =
        (.ok (), ⟨⟨[("main", ⟨nightText, nightDesk.session.metadata⟩)], 1⟩⟩) := by
    rw [hmarkup]
    show Guarded.save _ _ _ = _
    unfold Guarded.save
    rw [hno]
    rfl
  exact Session.saved_of_taken rfl rfl htaken

/-- The condition that was added came with a regex, and so it does in the store. -/
theorem run_save_synced_night :
    Session.Started (.new "main" { Metadata.standard with name := "night" } .standard) ∧
    nightDesk.session.agreement = .synced ∧
    (nightDesk.session.save (Guarded.mk Shelf.empty) false).1 = .ok .saved ∧
    ∃ r t, Store.load (nightDesk.session.save (Guarded.mk Shelf.empty) false).2.2 "main" = .ok r ∧
      read r.markup = .ok t ∧ t.blocker? = none ∧ t.Complete := by
  have hs : Session.Started (.new "main" { Metadata.standard with name := "night" } .standard) :=
    .new _ _ (by decide)
  exact ⟨hs, rfl, save_nightDesk,
    run_save_synced hs Shelf.empty [.addNode .regexCondition] _ _ rfl save_nightDesk⟩

/-- **What a save stores, in every state.** The tree of the session is complete and the store gives
    back text and metadata. What the text reads as, if it can be read, is complete too, unless the
    text was edited and not read since, which had to be confirmed, or it was made from the tree with
    an indentation that is not white space. -/
theorem run_save {s : Session} (hs : s.Opened) (store : σ) (as : List Action) (shelf : Shelf)
    (confirmed : Bool) :
    let now := ((opening s store).run as).1.session
    (now.save shelf confirmed).1 = .ok .saved →
      Store.load (now.save shelf confirmed).2.2 now.id = .ok ⟨now.markup, now.metadata⟩ ∧
      now.tree.Complete ∧
      ∀ t, read now.markup = .ok t →
        t.Complete ∨ (now.agreement = .stale ∧ confirmed = true) ∨
          (now.agreement = .synced ∧ now.markup = print now.preferences.indent now.tree ∧
            ¬ Layout now.preferences.indent.toList) := by
  intro now hsaved
  have htold : now.Told := Session.lasting_told.run hs.told store as
  have hlawful : now.tree.Lawful Kind.Fits := Session.lasting_lawful.run hs.lawful store as
  have hcomplete : now.tree.Complete := Session.complete_of_saved hlawful hsaved
  refine ⟨Session.load_save Shelf.recalls hsaved, hcomplete, fun t hread => ?_⟩
  -- where the text reads as the tree, it reads as a complete tree
  have hreads : ReadsAs now.markup now.tree → t.Complete := by
    rintro ⟨u, hu, halike⟩
    obtain rfl : u = t := Except.ok.inj (hu.symm.trans hread)
    exact hcomplete.of_alike_mended halike
  cases ha : now.agreement with
  | stale =>
    have hdoubt := (Session.save_saved hsaved).2.1
    rw [show now.agreement = .stale from ha] at hdoubt
    refine .inr (.inl ⟨rfl, ?_⟩)
    cases confirmed with
    | true => rfl
    | false => cases hdoubt
  | error m =>
    obtain ⟨-, e, he, -⟩ := htold.error m ha
    rw [show read now.markup = .error e from he] at hread
    cases hread
  | synced =>
    rcases htold.synced ha with ⟨hblank, -⟩ | hr | hprint
    · exact absurd hread (Markup.not_read_of_blank hblank t)
    · exact .inl (hreads hr)
    · by_cases hi : Layout now.preferences.indent.toList
      · refine .inl (hreads ?_)
        rw [show now.markup = _ from hprint]
        exact readsAs_print hi hlawful
      · exact .inr (.inr ⟨rfl, hprint, hi⟩)

/-- The same rule set goes to the store without a question, and whatever it reads as is complete. -/
theorem run_save_night :
    Session.Opened (.new "main" { Metadata.standard with name := "night" } .standard) ∧
    (nightDesk.session.save Shelf.empty false).1 = .ok .saved ∧
    Store.load (nightDesk.session.save Shelf.empty false).2.2 "main" =
      .ok ⟨nightDesk.session.markup, nightDesk.session.metadata⟩ ∧
    nightDesk.session.tree.Complete ∧
    ∀ t, read nightDesk.session.markup = .ok t → t.Complete := by
  obtain ⟨hload, hcomplete, hread⟩ :=
    run_save (.new "main" { Metadata.standard with name := "night" } .standard) Shelf.empty
      [.addNode .regexCondition] Shelf.empty false rfl
  refine ⟨.new _ _ _, rfl, hload, hcomplete, fun t ht => ?_⟩
  rcases hread t ht with h | ⟨hstale, -⟩ | ⟨-, -, hindent⟩
  · exact h
  · cases hstale
  · exact absurd (by decide) hindent

/-! ## 5. Texts that a save lets through -/

/-- A text with an enabled condition of regexes that has no regex. -/
def lackingText : String := "<extension><condition regex=\"all\"/></extension>"

/-- The tree of `lackingText`. -/
def lackingTree : Tree :=
  ⟨⟨.extension, ⟨⟨1⟩, .empty, true⟩,
    [.branch .regexCondition ⟨⟨2⟩, ⟨[("regex", "all")]⟩, true⟩ []]⟩, 2⟩

theorem read_lackingText : read lackingText = .ok lackingTree := by
  unfold lackingText lackingTree
  cbv

/-- A session in which `lackingText` was typed and not read. -/
def lackingDesk : Desk Shelf :=
  ((opening (.new "main" .standard .standard) .empty).run [.editMarkup lackingText 0]).1

/-- A session whose indentation is an enabled condition of regexes without a regex, and which has
    one action. -/
def indentedDesk : Desk Shelf :=
  ((opening (.new "main" .standard { Preferences.standard with
    indent := "<condition regex=\"all\"/>" }) .empty).run [.addNode .action]).1

/-- The text of `indentedDesk`. -/
def indentedText : String :=
  "<extension name=\"\" continue=\"false\">\n<condition regex=\"all\"/><action/>\n</extension>"

/-- The tree that `indentedText` reads as. -/
def indentedTree : Tree :=
  ⟨⟨.extension, ⟨⟨1⟩, ⟨[("name", ""), ("continue", "false")]⟩, true⟩,
    [.branch .regexCondition ⟨⟨2⟩, ⟨[("regex", "all")]⟩, true⟩ [],
      .leaf .action ⟨⟨3⟩, .empty, true⟩]⟩, 3⟩

theorem read_indentedText : read indentedText = .ok indentedTree := by
  unfold indentedText indentedTree
  cbv

/-- **What was typed and not read goes to the store once that is confirmed**, whatever it reads as;
    and a text that was made with tags as indentation goes there at once. -/
theorem saves_incomplete :
    (lackingDesk.session.agreement = .stale ∧ lackingDesk.session.SavesIncomplete true) ∧
      (indentedDesk.session.agreement = .synced ∧ indentedDesk.session.SavesIncomplete false) := by
  have hlacking : ¬ lackingTree.Complete := by
    intro h
    obtain ⟨c, hc, -⟩ := h _ (List.mem_cons_of_mem _ List.mem_cons_self) rfl rfl
    exact absurd hc List.not_mem_nil
  have hindented : ¬ indentedTree.Complete := by
    intro h
    obtain ⟨c, hc, -⟩ := h _ (List.mem_cons_of_mem _ List.mem_cons_self) rfl rfl
    exact absurd hc List.not_mem_nil
  have hmarkup : indentedDesk.session.markup = indentedText := by
    unfold indentedText
    decide +kernel
  have hread : read indentedDesk.session.markup = .ok indentedTree := by
    rw [hmarkup, read_indentedText]
  exact ⟨⟨rfl, rfl, _, _, Session.load_save Shelf.recalls rfl, read_lackingText, hlacking⟩,
    ⟨rfl, rfl, _, _, Session.load_save Shelf.recalls rfl, hread, hindented⟩⟩

end Desk

end Dialplan
