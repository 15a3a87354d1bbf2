import Dialplan.Proofs.Lookup
import Mathlib
/-!
# Numbers that have gone

A number that was given out and names no node any more. While a tree is edited such a number never
comes back, and whatever asks for it is refused. A tree that is read from the text starts its numbers
again, so there the numbers from one up name nodes whatever they named before.

* `Tree.Grows`: a later tree has numbers of the earlier one and newer ones only;
* `Edit.mentions`, `Edit.check_of_absent`: why an edit is refused that names a number the tree does
  not have; `Session.Rejects`: the same for the operations of a session;
* `Event.replaces`, `grows_run`: a run in which no reading counts lets the tree grow;
* `run_retired`: **what has gone stays gone until the text is read again**, and then the numbers are
  those from one up, in pre-order.
-/

namespace Dialplan

/-! ## 1. Trees that grow -/

namespace Tree

/-- **A later tree of the same numbering**: it has numbers of the earlier one, and newer ones. -/
structure Grows (t t' : Tree) : Prop where
  issued : t.issued ≤ t'.issued
  ids : ∀ id ∈ t'.ids, id ∈ t.ids ∨ t.issued < id.number

namespace Grows

variable {t t' t'' : Tree}

theorem refl (t : Tree) : t.Grows t := ⟨Nat.le_refl _, fun _ h => .inl h⟩

theorem trans (h : t.Grows t') (h' : t'.Grows t'') : t.Grows t'' where
  issued := Nat.le_trans h.issued h'.issued
  ids id hid := by
    rcases h'.ids id hid with hid | hnew
    · exact h.ids id hid
    · exact .inr (Nat.lt_of_le_of_lt h.issued hnew)

/-- An accepted edit lets the tree grow. -/
theorem done {e : Edit} {c : Option NodeId} (h : Edit.Done t e t' c) : t.Grows t' := by
  obtain ⟨hle, gone, hp⟩ := h.ids
  refine ⟨hle, fun id hid => ?_⟩
  have hm : id ∈ minted t.issued t'.issued ++ t.ids :=
    hp.mem_iff.mp (List.mem_append_right gone hid)
  rcases List.mem_append.mp hm with hm | hm
  · exact .inr (mem_minted.mp hm).1
  · exact .inl hm

/-- **A number that was given out and has gone does not come back.** -/
theorem not_mem (h : t.Grows t') {id : NodeId} (hi : id.number ≤ t.issued) (hg : id ∉ t.ids) :
    id ∉ t'.ids := by
  intro hid
  rcases h.ids id hid with hid | hnew
  · exact hg hid
  · omega

end Grows

/-- A tree whose numbers are in order has as many nodes as it has given out numbers. -/
theorem InOrder.mem_ids {t : Tree} (h : t.InOrder) {id : NodeId} :
    id ∈ t.ids ↔ 0 < id.number ∧ id.number ≤ t.size := by
  have hlen : t.size = t.issued := by
    have hl := congrArg List.length h
    unfold ids Node.ids minted at hl
    rw [List.length_map, List.length_map, List.length_range'] at hl
    exact hl
  rw [h, mem_minted, hlen]

end Tree

/-! ## 2. Edits that name a number the tree does not have -/

namespace Edit

/-- The nodes and parents that an edit names. -/
def mentions : Edit → List NodeId
  | .addChild parent _ _ | .removeChild parent _ => [parent]
  | .moveNode node fromParent _ destination => [node, fromParent, destination.parent]
  | .setEnabled node _ | .setAttribute node _ _ => [node]

end Edit

/-- A refusal that says that something named is not there, or no longer where it was. -/
def Refusal.missing : Refusal → Bool
  | .nodeNotFound _ | .parentNotFound _ | .staleSource .. => true
  | _ => false

/-- Why an edit may be refused that names a number the tree does not have: something is missing, or
    a fault is found before that is looked for. -/
inductive Edit.Barred : Edit → Refusal → Prop
  | missing {e : Edit} {r : Refusal} (h : r.missing = true) : Barred e r
  | extension (parent : NodeId) (position : Option Nat) :
      Barred (.addChild parent .extension position) (.cannotCreate .extension)
  | leaf (node fromParent : NodeId) (index : Nat) (destination : Destination) :
      Barred (.moveNode node fromParent index destination) (.notABranch fromParent)

namespace Edit

variable {t : Tree} {id : NodeId}

theorem needBranch_of_absent (h : t.find? id = none) :
    needBranch t id = .error (.parentNotFound id) := by
  unfold needBranch
  rw [h]

theorem needNode_of_absent (h : t.find? id = none) :
    needNode t id = .error (.nodeNotFound id) := by
  unfold needNode
  rw [h]

/-- A child is there, or it is said to be elsewhere. -/
theorem needChild_cases (b : Branch) (parent : NodeId) (index : Nat) (node : NodeId) :
    (∃ n, needChild b parent index node = .ok n) ∨
      needChild b parent index node = .error (.staleSource node parent index) := by
  unfold needChild
  split
  · split
    · exact .inl ⟨_, rfl⟩
    · exact .inr rfl
  · exact .inr rfl

/-- A branch is there, or it is not found, or it is a leaf. -/
theorem needBranch_cases (t : Tree) (id : NodeId) :
    (∃ b, needBranch t id = .ok b) ∨ needBranch t id = .error (.parentNotFound id) ∨
      needBranch t id = .error (.notABranch id) := by
  unfold needBranch
  split
  · exact .inr (.inl rfl)
  · split
    · exact .inr (.inr rfl)
    · exact .inl ⟨_, rfl⟩

/-- A child that is found is a node of the tree. -/
theorem mem_ids_of_needChild {b : Branch} {parent : NodeId} {index : Nat} {node : NodeId} {n : Node}
    (hb : t.find? parent = some b.node) (h : needChild b parent index node = .ok n) :
    n ∈ t.nodes ∧ n.id = node := by
  obtain ⟨hn, hid⟩ := needChild_ok h
  have hmem : b ∈ t.branches := Tree.mem_branches_of_find? hb
  exact ⟨Tree.child_mem_nodes hmem hn, hid⟩

/-- **An edit that names a number the tree does not have is refused.** -/
theorem check_of_absent {e : Edit} (hm : id ∈ e.mentions) (ha : id ∉ t.ids) :
    ∃ r, e.check t = .error r ∧ e.Barred r := by
  have hf := Tree.find?_of_not_mem ha
  cases e with
  | addChild parent kind position =>
    obtain rfl := List.mem_singleton.mp hm
    by_cases hk : kind = .extension
    · subst hk
      exact ⟨_, rfl, .extension _ _⟩
    · refine ⟨.parentNotFound id, ?_, .missing rfl⟩
      simp only [check, if_neg hk, needBranch_of_absent hf]
      rfl
  | removeChild parent index =>
    obtain rfl := List.mem_singleton.mp hm
    refine ⟨.parentNotFound id, ?_, .missing rfl⟩
    simp only [check, needBranch_of_absent hf]
    rfl
  | moveNode node fromParent index destination =>
    rcases needBranch_cases t fromParent with ⟨b, hb⟩ | hb | hb
    · rcases needChild_cases b fromParent index node with ⟨moved, hc⟩ | hc
      · -- the node is where it was, so the number is the destination's
        have hbt := needBranch_ok hb
        obtain ⟨hn, hid⟩ := mem_ids_of_needChild hbt hc
        have hnode : id ≠ node := by
          rintro rfl
          exact ha (hid ▸ List.mem_map_of_mem (f := Node.id) hn)
        have hfrom : id ≠ fromParent := by
          rintro rfl
          rw [hf] at hbt
          cases hbt
        obtain rfl : id = destination.parent := by
          simpa [mentions, hnode, hfrom] using hm
        refine ⟨.parentNotFound destination.parent, ?_, .missing rfl⟩
        have hout : moved.contains destination.parent = false := by
          by_contra hin
          rw [Bool.not_eq_false] at hin
          obtain ⟨x, hx, he⟩ := List.any_eq_true.mp hin
          refine ha (beq_iff_eq.mp he ▸ List.mem_map_of_mem (f := Node.id) ?_)
          exact Node.mem_subtree_trans hn hx
        simp only [check, hb, hc, hout, needBranch_of_absent hf, bind, Except.bind]
        rfl
      · refine ⟨_, ?_, .missing (r := .staleSource node fromParent index) rfl⟩
        simp only [check, hb, hc, bind, Except.bind]
    · refine ⟨_, ?_, .missing (r := .parentNotFound fromParent) rfl⟩
      simp only [check, hb, bind, Except.bind]
    · refine ⟨_, ?_, .leaf node fromParent index destination⟩
      simp only [check, hb, bind, Except.bind]
  | setEnabled node flag =>
    obtain rfl := List.mem_singleton.mp hm
    refine ⟨.nodeNotFound id, ?_, .missing rfl⟩
    simp only [check, needNode_of_absent hf]
    rfl
  | setAttribute node key value =>
    obtain rfl := List.mem_singleton.mp hm
    refine ⟨.nodeNotFound id, ?_, .missing rfl⟩
    simp only [check, needNode_of_absent hf]
    rfl

end Edit

namespace Session

/-- **Whatever names this number is refused**, and nothing changes. -/
structure Rejects (s : Session) (id : NodeId) : Prop where
  edit : ∀ e : Edit, id ∈ e.mentions →
    ∃ r, s.apply e = (.error (.refused r), s) ∧ e.Barred r
  removal : s.removeNode id = (.error (.nodeNotFound id), s)
  move : ∀ destination, s.moveNode id destination = (.error (.nodeNotFound id), s)

/-- A session refuses what names a number that its tree does not have. -/
theorem rejects_of_absent {s : Session} {id : NodeId} (h : id ∉ s.tree.ids) : s.Rejects id where
  edit e he := by
    obtain ⟨r, hr, hb⟩ := Edit.check_of_absent he h
    refine ⟨r, ?_, hb⟩
    have ha : e.apply s.draft.tree = .error r := by
      unfold Edit.apply
      rw [show e.check s.draft.tree = .error r from hr]
    unfold apply Draft.apply
    rw [ha]
  removal := by
    unfold removeNode locate
    rw [Tree.parentOf?_of_not_mem h]
  move destination := by
    unfold moveNode locate
    rw [Tree.parentOf?_of_not_mem h]

end Session

/-- An edit that passes the check is done. -/
theorem Session.isOk_perform {s : Session} {e : Edit} (h : e.check s.tree = .ok ()) :
    (s.perform e).1.isOk = true := by
  have ha : e.apply s.draft.tree = .ok (e.effect s.draft.tree) := by
    unfold Edit.apply
    rw [show e.check s.draft.tree = .ok () from h]
  unfold perform apply Draft.apply
  rw [ha]
  rfl

/-! ## 3. Runs in which no reading counts -/

/-- Whether an event puts another tree in the place of the tree. -/
def Event.replaces : Event → Bool
  | .completed _ .applied => true
  | _ => false

namespace Session

variable {s s' : Session}

theorem Edited.grows (h : s.Edited s') : s.tree.Grows s'.tree := by
  obtain ⟨e, c, he⟩ := h.edit
  exact .done (Edit.apply_done he)

/-- A completion that does not count leaves the tree. -/
theorem tree_complete (s : Session) (k : Ticket) (r : Except Markup.Fault Tree)
    (h : (Event.completed k (s.complete k r).1).replaces = false) :
    (s.complete k r).2.tree = s.tree := by
  unfold complete at h ⊢
  split at h
  · rename_i hc
    rw [if_pos hc]
    cases r with
    | ok t => cases h
    | error e => rfl
  · rename_i hc
    rw [if_neg hc]

/-- A text that can be read is put in place of the tree. -/
theorem tree_reconcile_of_read {t : Tree} (h : Markup.read s.markup = .ok t) :
    s.reconcile.2.tree = t := by
  have hblank : Text.blank s.markup = false := by
    rw [← Bool.not_eq_true]
    exact fun hb => Markup.not_read_of_blank hb t h
  have hread : s.begin.2.readTicket s.begin.1 = .ok t := by
    show (if Text.blank s.markup then _ else Markup.read s.markup) = _
    rw [hblank, h]
    rfl
  have hcurrent : s.begin.2.tracker.isCurrent s.begin.1 = true := decide_eq_true rfl
  show (s.begin.2.complete s.begin.1 (s.begin.2.readTicket s.begin.1)).2.tree = t
  unfold complete
  rw [hread, if_pos hcurrent]
  rfl

/-- **A completion that counts puts a tree whose numbers are in order.** -/
theorem inOrder_complete {k : Ticket} {r : Except Markup.Fault Tree} (hr : k.ReadAs r)
    (h : (s.complete k r).1 = .applied) : (s.complete k r).2.tree.InOrder := by
  unfold complete at h ⊢
  split at h
  · rename_i hc
    rw [if_pos hc]
    cases hr with
    | blank hb m => exact (rfl : (Tree.ofMetadata m).InOrder)
    | text hb =>
      cases ht : Markup.read k.text with
      | ok t => exact Markup.inOrder_of_read ht
      | error e =>
        rw [ht] at h
        cases h
  · cases h

end Session

namespace Desk

variable {σ : Type}

/-- An action in which no reading counts lets the tree grow. -/
theorem Turn.grows {d : Desk σ} {r : Desk σ × List Event} (h : d.Turn r)
    (hr : r.2.any Event.replaces = false) : d.session.tree.Grows r.1.session.tree := by
  cases h with
  | still h => exact h.tree ▸ .refl _
  | edited h => exact h.grows
  | typed text now => exact .refl _
  | issued => exact .refl _
  | read hk => exact .refl _
  | @completed k x hk =>
    have hc := List.any_eq_false.mp hr _ List.mem_cons_self
    rw [Bool.not_eq_true] at hc
    exact d.session.tree_complete k x hc ▸ .refl _
  | reconciled =>
    have hc := List.any_eq_false.mp hr _ (List.mem_cons_of_mem _ List.mem_cons_self)
    rw [Bool.not_eq_true] at hc
    exact d.session.begin.2.tree_complete _ _ hc ▸ .refl _

/-- An action in which a reading counts leaves a tree whose numbers are in order. -/
theorem Turn.inOrder {P : Session → Prop} {d : Desk σ} {r : Desk σ × List Event} (h : d.Turn r)
    (hd : d.Keeps P) (hr : r.2.any Event.replaces = true) : r.1.session.tree.InOrder := by
  have applied : ∀ {s : Session} {k : Ticket} {x : Except Markup.Fault Tree}, k.ReadAs x →
      (Event.completed k (s.complete k x).1).replaces = true →
        (s.complete k x).2.tree.InOrder := by
    intro s k x hx he
    refine Session.inOrder_complete hx ?_
    cases ho : (s.complete k x).1 with
    | applied => rfl
    | failed m =>
      rw [ho] at he
      cases he
    | superseded =>
      rw [ho] at he
      cases he
  obtain ⟨e, he, hrep⟩ := List.any_eq_true.mp hr
  cases h with
  | completed hk =>
    obtain rfl := List.mem_singleton.mp he
    exact applied (hd.readings _ hk).2 hrep
  | reconciled =>
    rcases List.mem_cons.mp he with rfl | he
    · cases hrep
    · obtain rfl := List.mem_singleton.mp he
      exact applied (d.session.begin.2.readAs_readTicket _) hrep
  | still | read => exact absurd he List.not_mem_nil
  | edited | typed | issued =>
    obtain rfl := List.mem_singleton.mp he
    cases hrep

variable [Store σ]

/-- **A run in which no reading counts lets the tree grow.** -/
theorem grows_run (as : List Action) (d : Desk σ)
    (h : (d.run as).2.any Event.replaces = false) :
    d.session.tree.Grows (d.run as).1.session.tree := by
  induction as generalizing d with
  | nil => exact .refl _
  | cons a as ih =>
    have hsplit : ((d.step a).2 ++ ((d.step a).1.run as).2).any Event.replaces = false := h
    rw [List.any_append, Bool.or_eq_false_iff] at hsplit
    exact ((turn_step d a).grows hsplit.1).trans (ih _ hsplit.2)

/-- **What has gone stays gone until the text is read again.** At any point of a run let a number
    name a node, and let it name none at a later one. As long as no reading counts from the first
    point on, the number names no node ever after, and whatever names it is refused and changes
    nothing. An action in which a reading counts puts another tree there, and whatever was given out
    before, the numbers that name its nodes are those from one up to their count. -/
theorem run_retired {s : Session} (hs : s.Opened) (store : σ) (before : List Action) :
    let d := ((opening s store).run before).1
    (∀ (middle after : List Action) (id : NodeId),
      let d₁ := (d.run middle).1
      let d₂ := (d₁.run after).1
      id ∈ d.session.tree.ids → id ∉ d₁.session.tree.ids →
      ((d.run middle).2 ++ (d₁.run after).2).any Event.replaces = false →
        id ∉ d₂.session.tree.ids ∧ d₂.session.Rejects id) ∧
    ∀ a : Action, (d.step a).2.any Event.replaces = true →
      ∀ id : NodeId, id ∈ (d.step a).1.session.tree.ids ↔
        0 < id.number ∧ id.number ≤ (d.step a).1.session.tree.size := by
  intro d
  have hk : d.Keeps fun s => s.tree.Numbered :=
    (keeps_opening hs.numbered store).run Session.lasting_numbered before
  refine ⟨?_, fun a ha id => ((turn_step d a).inOrder hk ha).mem_ids⟩
  intro middle after id d₁ d₂ hid hgone hevents
  rw [List.any_append, Bool.or_eq_false_iff] at hevents
  have h₁ : d.session.tree.Grows d₁.session.tree := grows_run middle d hevents.1
  have h₂ : d₁.session.tree.Grows d₂.session.tree := grows_run after d₁ hevents.2
  have hissued : id.number ≤ d₁.session.tree.issued :=
    Nat.le_trans (hk.session.issued id hid) h₁.issued
  have habsent := h₂.not_mem hissued hgone
  exact ⟨habsent, Session.rejects_of_absent habsent⟩

/-- A new rule set at its start. -/
def newDesk : Desk Shelf := opening (.new "main" .standard .standard) .empty

/-- The second node is removed, and nothing can be done with its number. -/
theorem run_retired_removed :
    let d := (newDesk.run [.addNode .action]).1
    let d₁ := (d.run [.removeNode ⟨2⟩]).1
    let d₂ := (d₁.run [.addNode .action]).1
    (⟨2⟩ ∈ d.session.tree.ids ∧ ⟨2⟩ ∉ d₁.session.tree.ids) ∧
      ⟨2⟩ ∉ d₂.session.tree.ids ∧ d₂.session.Rejects ⟨2⟩ := by
  intro d d₁ d₂
  have hids : d.session.tree.ids = [⟨1⟩, ⟨2⟩] := rfl
  have hids₁ : d₁.session.tree.ids = [⟨1⟩] := rfl
  have h : ⟨2⟩ ∈ d.session.tree.ids ∧ ⟨2⟩ ∉ d₁.session.tree.ids := by
    rw [hids, hids₁]
    decide
  have hev : ((d.run [.removeNode ⟨2⟩]).2 ++ (d₁.run [.addNode .action]).2).any Event.replaces =
      false := rfl
  have hs : Session.Opened (.new "main" .standard .standard) := .new _ _ _
  exact ⟨h, (run_retired hs Shelf.empty [.addNode .action]).1 [.removeNode ⟨2⟩] [.addNode .action]
    ⟨2⟩ h.1 h.2 hev⟩

/-- A rule set with one condition. -/
def conditionText : String := "<extension><condition/></extension>"

/-- The tree of `conditionText`. -/
def conditionTree : Tree :=
  ⟨⟨.extension, ⟨⟨1⟩, .empty, true⟩, [.branch .condition ⟨⟨2⟩, .empty, true⟩ []]⟩, 2⟩

theorem read_conditionText : Markup.read conditionText = .ok conditionTree := by
  unfold conditionText conditionTree
  cbv

/-- **A number that has gone may come back**: the action with number 2 is removed, the text is
    typed and read, and then number 2 is a condition, which an edit is done to. -/
theorem number_names_again :
    let d₁ := (newDesk.run [.addNode .action]).1
    let d₂ := (d₁.run [.removeNode ⟨2⟩]).1
    let d₃ := (d₂.run [.editMarkup conditionText 0, .reconcile]).1
    (d₁.session.tree.find? ⟨2⟩).map Node.kind = some .action ∧
      d₂.session.tree.find? ⟨2⟩ = none ∧
      (d₃.session.tree.find? ⟨2⟩).map Node.kind = some .condition ∧
      (d₃.session.setAttribute ⟨2⟩ "field" "x").1.isOk = true := by
  intro d₁ d₂ d₃
  have htree : d₃.session.tree = conditionTree :=
    Session.tree_reconcile_of_read (s := d₂.session.editMarkup conditionText 0) read_conditionText
  refine ⟨rfl, rfl, ?_, ?_⟩
  · rw [htree]
    rfl
  · have hc : Edit.check d₃.session.tree (.setAttribute ⟨2⟩ "field" "x") = .ok () := by
      rw [htree]
      rfl
    exact Session.isOk_perform hc

end Desk

end Dialplan
