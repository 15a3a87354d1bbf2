import Dialplan.Proofs.Lookup
import Mathlib.Data.List.InsertIdx
/-!
# Where a dragged node ends up

A drag is picked up at one time and dropped at another, on a tree that may have been edited in
between. What is dragged stays the node that was picked up, or the drag is over; and a drop either
leaves everything but the drag, or puts the node where the pointer says.

* `Desk.node_of_picked`: what is dragged, whatever is done meanwhile;
* `Hovered.place?`: the place that the pointer is at; `Tree.Sits`: that a node is at a place;
* `Edit.childIds_taken`: the children of a branch after a node was taken out of the tree;
* `Edit.Done.sits`: a move to the destination of a drop puts the node at the place;
* `Desk.run_dropOn`: how a drag ends, after any run.

The index of a destination counts the children without the dragged node, so it is compared with the
numbers of the children that are left, which do not depend on what else the move changes below them.
-/

namespace Dialplan

/-! ## 1. What is dragged -/

namespace Session

variable {s s' : Session}

/-- An operation on the tree does not touch the drag. -/
theorem Attempt.drag {done : Bool} (h : s.Attempt done s') : s'.drag = s.drag := by
  cases h <;> rfl

/-- After a drop nothing is dragged. -/
theorem drag_dropOn (s : Session) (target : Hovered) : (s.dropOn target).2.drag = .idle :=
  (s.attempt_dropOn target).drag

/-- What is picked up is dragged. -/
theorem grip?_startDrag {node : NodeId} (h : (s.startDrag node).1.isOk = true) :
    ∃ g, (s.startDrag node).2.drag.grip? = some g ∧ g.node = node := by
  unfold startDrag at h ⊢
  cases hd : s.drag.start s.tree node with
  | error e =>
    rw [hd] at h
    cases h
  | ok p =>
    unfold Drag.start at hd
    split at hd
    · cases hd
    split at hd
    · cases hd
    split at hd
    · cases hd
    split at hd
    · cases hd
    · cases hd
      exact ⟨_, rfl, rfl⟩

/-- What is read may end a drag. -/
theorem grip?_complete (s : Session) (k : Ticket) (r : Except Markup.Fault Tree) :
    (s.complete k r).2.drag.grip? = s.drag.grip? ∨ (s.complete k r).2.drag.grip? = none := by
  unfold complete
  split
  · cases r with
    | ok t => exact .inr rfl
    | error e => exact .inl rfl
  · exact .inl rfl

end Session

theorem Drag.grip?_hover (d : Drag) (t : Tree) (target : Hovered) :
    (d.hover t target).grip? = d.grip? := by
  cases d <;> rfl

namespace Desk

variable {σ : Type} [Store σ]

/-- **Nothing but picking up changes what is dragged**, but for an end of the drag. -/
theorem grip?_step (d : Desk σ) {a : Action} (ha : ∀ n, a ≠ .startDrag n) :
    (d.step a).1.session.drag.grip? = d.session.drag.grip? ∨
      (d.step a).1.session.drag.grip? = none := by
  cases he : a.edits with
  | true =>
    obtain ⟨done, s, hstep, h⟩ := d.attempt_step he
    rw [hstep]
    exact .inl (congrArg Drag.grip? h.drag)
  | false =>
    cases a with
    | updateMetadata _ | setApplications _ | editMarkup _ _ | reconcileDue _ | begin =>
      exact .inl rfl
    | startDrag n => exact absurd rfl (ha n)
    | hover target => exact .inl (Drag.grip?_hover _ _ target)
    | dropOn target => exact .inr (congrArg Drag.grip? (d.session.drag_dropOn target))
    | cancelDrag => exact .inr rfl
    | readTicket i =>
      simp only [step]
      split <;> exact .inl rfl
    | complete i =>
      simp only [step]
      split
      · exact .inl rfl
      · exact d.session.grip?_complete _ _
    | reconcile => exact d.session.begin.2.grip?_complete _ _
    | save confirmed =>
      have hs := d.session.session_save d.store confirmed
      refine .inl ?_
      show (d.session.save d.store confirmed).2.1.drag.grip? = _
      rw [hs]
      split <;> rfl
    | _ => cases he

theorem grip?_run (d : Desk σ) {as : List Action} (ha : ∀ n, .startDrag n ∉ as) :
    (d.run as).1.session.drag.grip? = d.session.drag.grip? ∨
      (d.run as).1.session.drag.grip? = none := by
  refine run_induction (P := fun d' => d'.session.drag.grip? = d.session.drag.grip? ∨
    d'.session.drag.grip? = none) ?_ (.inl rfl)
  intro a hm d' hd
  have hstep := d'.grip?_step (fun n e => ha n (e ▸ hm))
  rcases hd with hd | hd
  · rw [hd] at hstep
    exact hstep
  · rw [hd] at hstep
    exact .inr (hstep.elim id id)

/-- **What is dragged is what was picked up**, whatever has been done since. -/
theorem node_of_picked {d : Desk σ} {node : NodeId}
    (hpicked : (d.session.startDrag node).1.isOk = true) {as : List Action}
    (ha : ∀ n, .startDrag n ∉ as) {g : Grip}
    (hg : (d.run (.startDrag node :: as)).1.session.drag.grip? = some g) : g.node = node := by
  obtain ⟨g₀, hg₀, hnode⟩ := Session.grip?_startDrag hpicked
  have hrun : ((d.step (.startDrag node)).1.run as).1.session.drag.grip? = some g := hg
  rcases (d.step (.startDrag node)).1.grip?_run ha with h | h
  · have hsame : some g = some g₀ := hrun.symm.trans (h.trans hg₀)
    rw [Option.some.inj hsame, hnode]
  · rw [hrun] at h
    cases h

end Desk

/-! ## 2. Places -/

/-- The place that the pointer is at: over a node the part of its box counts, over a child area the
    branch that it belongs to. -/
def Hovered.place? (t : Tree) : Hovered → Option Indicator
  | .node id height offset =>
    (t.find? id).map fun x => ⟨id, Zone.classify height offset x.kind.isBranch⟩
  | .childArea b => some ⟨b, .inside⟩
  | .outside => none

/-- **The node stands at the place**: right before the target, right after it, or in it as the last
    child. -/
def Tree.Sits (t : Tree) (n : Node) (place : Indicator) : Prop :=
  match place.zone with
  | .before => ∃ b ∈ t.branches, ∃ i x, b.children[i]? = some n ∧
      b.children[i + 1]? = some x ∧ x.id = place.target
  | .after => ∃ b ∈ t.branches, ∃ i x, b.children[i]? = some x ∧
      b.children[i + 1]? = some n ∧ x.id = place.target
  | .inside => ∃ b ∈ t.branches, b.id = place.target ∧ b.children.getLast? = some n

/-- What stands at a place is a node of the tree. -/
theorem Tree.Sits.mem_nodes {t : Tree} {n : Node} {place : Indicator} (h : t.Sits n place) :
    n ∈ t.nodes := by
  unfold Sits at h
  split at h
  · obtain ⟨b, hb, i, x, hn, -⟩ := h
    exact child_mem_nodes hb hn
  · obtain ⟨b, hb, i, x, -, hn, -⟩ := h
    exact child_mem_nodes hb hn
  · obtain ⟨b, hb, -, hn⟩ := h
    rw [List.getLast?_eq_getElem?] at hn
    exact child_mem_nodes hb hn

namespace Drag

variable {t : Tree} {g : Grip} {target : Hovered} {place : Indicator} {destination : Destination}

/-- **All the destinations that a drop can have.** The index beside a target is that of the target,
    less one where the dragged node stands before it in the same branch. -/
theorem aim?_cases (h : aim? t g target = some (place, destination)) :
    (place.zone = .inside ∧ destination = .lastChild place.target) ∨
      ∃ b i, t.parentOf? place.target = some (b, i) ∧
        let shifted := if b.id = g.parent && g.index < i then i - 1 else i
        (place.zone = .before ∧ destination = .index b.id shifted) ∨
          (place.zone = .after ∧ destination = .index b.id (shifted + 1)) := by
  unfold aim? at h
  split at h
  · cases h
  · obtain ⟨b, -, he⟩ := Option.map_eq_some_iff.mp h
    cases he
    exact .inl ⟨rfl, rfl⟩
  · rename_i id height offset
    split at h
    · cases h
    rename_i b i hb
    split at h
    · cases h
    rename_i n hn
    cases hz : Zone.classify height offset n.kind.isBranch with
    | before =>
      simp only [hz] at h
      cases h
      exact .inr ⟨b, i, hb, .inl ⟨rfl, rfl⟩⟩
    | after =>
      simp only [hz] at h
      cases h
      exact .inr ⟨b, i, hb, .inr ⟨rfl, rfl⟩⟩
    | inside =>
      simp only [hz] at h
      cases h
      exact .inl ⟨rfl, rfl⟩

/-- A drop goes to the place that the pointer is at. -/
theorem place?_of_aim? (ht : t.Numbered) (h : aim? t g target = some (place, destination)) :
    target.place? t = some place := by
  unfold aim? at h
  split at h
  · cases h
  · obtain ⟨b, -, he⟩ := Option.map_eq_some_iff.mp h
    cases he
    rfl
  · rename_i id height offset
    split at h
    · cases h
    rename_i b i hb
    split at h
    · cases h
    rename_i n hn
    obtain ⟨hmem, m, hm, hid⟩ := Tree.parentOf?_eq_some hb
    obtain rfl : m = n := Option.some.inj (hm.symm.trans hn)
    have hfind : t.find? id = some m :=
      hid ▸ Tree.find?_of_mem ht.distinct (Tree.child_mem_nodes hmem hm)
    cases h
    show (t.find? id).map _ = _
    rw [hfind]
    rfl

/-- What is dragged is not dropped on itself. -/
theorem resolve?_eq_some (h : resolve? t g target = some (place, destination)) :
    aim? t g target = some (place, destination) ∧ place.target ≠ g.node := by
  unfold resolve? at h
  split at h
  · cases h
  rename_i i d ha
  split at h
  · cases h
  rename_i hne
  split at h
  · split at h
    · cases h
    · cases h
      exact ⟨ha, hne⟩
  · cases h

end Drag

/-! ## 3. A node is taken out -/

namespace Node.Replaced

variable {m m' n n' : Node}

/-- **A branch outside the replaced node keeps its number and those of its children.** -/
theorem branch_cases (h : Replaced m m' n n') (hid : m'.id = m.id) {b : Branch}
    (hb : b.node ∈ n.subtree) :
    b.node ∈ m.subtree ∨ ∃ b' : Branch, b'.node ∈ n'.subtree ∧ b'.id = b.id ∧
      b'.childIds = b.childIds := by
  induction h with
  | here => exact .inl hb
  | @inside k l before after x x' hr ih =>
    rcases List.mem_cons.mp hb with he | hb
    · obtain rfl : b = ⟨k, l, before ++ x :: after⟩ := Branch.node_inj he
      refine .inr ⟨⟨k, l, before ++ x' :: after⟩, self_mem_subtree _, rfl, ?_⟩
      unfold Branch.childIds
      rw [List.map_append, List.map_append, List.map_cons, List.map_cons, hr.id_eq hid]
    · obtain ⟨c, hc, hbc⟩ := mem_subtrees.mp hb
      -- a child beside the replaced one is a child of the new branch too
      have beside : ∀ y ∈ before ++ x' :: after, ∀ d : Branch, d.node ∈ y.subtree →
          d.node ∈ (Node.branch k l (before ++ x' :: after)).subtree := fun y hy d hd =>
        List.mem_cons_of_mem _ (mem_subtrees.mpr ⟨y, hy, hd⟩)
      rcases List.mem_append.mp hc with hc | hc
      · exact .inr ⟨b, beside c (List.mem_append_left _ hc) b hbc, rfl, rfl⟩
      · rcases List.mem_cons.mp hc with rfl | hc
        · rcases ih hbc with hm | ⟨b', hb', hrest⟩
          · exact .inl hm
          · refine .inr ⟨b', beside x' ?_ b' hb', hrest⟩
            exact List.mem_append_right before List.mem_cons_self
        · refine .inr ⟨b, beside c ?_ b hbc, rfl, rfl⟩
          exact List.mem_append_right before (List.mem_cons_of_mem x' hc)

end Node.Replaced

namespace Edit

/-- A branch below a node is still below it after a child was taken out that does not hold it. -/
theorem mem_grown_eraseIdx {source b : Branch} {moved : Node} {index : Nat}
    (hm : source.children[index]? = some moved) (hout : moved.contains b.id = false)
    (hne : b ≠ source) (hb : b.node ∈ source.node.subtree) :
    b.node ∈ (source.grown fun ns => ns.eraseIdx index).node.subtree := by
  rcases List.mem_cons.mp hb with he | hb
  · exact absurd (Branch.node_inj he) hne
  obtain ⟨c, hc, hbc⟩ := Node.mem_subtrees.mp hb
  obtain ⟨j, hj⟩ := List.mem_iff_getElem?.mp hc
  have hji : j ≠ index := by
    rintro rfl
    obtain rfl : c = moved := Option.some.inj (hj.symm.trans hm)
    have hin : c.contains b.id = true := List.any_eq_true.mpr ⟨b.node, hbc, beq_self_eq_true _⟩
    rw [hout] at hin
    cases hin
  refine List.mem_cons_of_mem _ (Node.mem_subtrees.mpr ⟨c, ?_, hbc⟩)
  exact List.mem_eraseIdx_iff_getElem?.mpr ⟨j, hji, hj⟩

/-- **After a node was taken out of a tree, a branch has the children it had**, but for the node if
    it was one of them. -/
theorem childIds_taken {t t₁ : Tree} (hd : t.ids.Nodup) {origin id : NodeId}
    {source b b₁ : Branch} {moved : Node} {index : Nat} (hs : t.find? origin = some source.node)
    (hm : source.children[index]? = some moved) (hout : moved.contains id = false)
    (hb : t.find? id = some b.node)
    (hr : t.Put source.node (source.grown fun ns => ns.eraseIdx index).node t₁)
    (hb₁ : t₁.find? id = some b₁.node) :
    b₁.childIds = if b.id = origin then b.childIds.eraseIdx index else b.childIds := by
  have hid : b.id = id := id_of_find? hb
  have hd₁ : t₁.ids.Nodup :=
    (List.nodup_append.mp ((ids_taken hm hr).nodup_iff.mpr hd)).2.1
  -- in a tree with distinct numbers the branch is found by its number
  have hfound : ∀ c : Branch, c.node ∈ t₁.nodes → c.id = id → b₁ = c := by
    intro c hc hcid
    have hf : t₁.find? c.id = some c.node := Node.find?_of_nodup (f := Node.id) hd₁ hc
    rw [hcid, hb₁] at hf
    exact Branch.node_inj (Option.some.inj hf)
  by_cases hsame : b.id = origin
  · obtain rfl : origin = id := hsame.symm.trans hid
    obtain rfl : source = b := Branch.node_inj (Option.some.inj (hs.symm.trans hb))
    rw [if_pos hsame, hfound _ hr.mem_subtree hid]
    exact (List.eraseIdx_map Node.id source.children index).symm
  · rw [if_neg hsame]
    rcases hr.branch_cases rfl (List.mem_of_find?_eq_some hb) with hin | ⟨c, hc, hcid, hch⟩
    · have hne : b ≠ source := by
        rintro rfl
        exact hsame (id_of_find? hs)
      have hin₁ := mem_grown_eraseIdx hm (hid ▸ hout) hne hin
      rw [hfound b (Node.mem_subtree_trans hr.mem_subtree hin₁) hid]
    · rw [hfound c hc (hcid.trans hid)]
      exact hch

/-! ## 4. A node is put in -/

/-- The child with a number stands at the shifted index once the node before it is out. -/
theorem getElem?_shifted {ids : List NodeId} {from' i : Nat} {id : NodeId}
    (hi : ids[i]? = some id) (hne : from' ≠ i) :
    (ids.eraseIdx from')[if from' < i then i - 1 else i]? = some id := by
  by_cases hlt : from' < i
  · rw [if_pos hlt, List.getElem?_eraseIdx_of_ge (by omega)]
    have h1 : i - 1 + 1 = i := by omega
    rw [h1]
    exact hi
  · rw [if_neg hlt, List.getElem?_eraseIdx_of_lt (by omega)]
    exact hi

/-- A node that is put in at the index of a child stands right before it. -/
theorem insertIdx_before {ns : List Node} {i : Nat} {x : Node} (hx : ns[i]? = some x) (n : Node) :
    (ns.insertIdx i n)[i]? = some n ∧ (ns.insertIdx i n)[i + 1]? = some x := by
  have hlt : i < ns.length := (List.getElem?_eq_some_iff.mp hx).1
  refine ⟨?_, ?_⟩
  · rw [List.getElem?_insertIdx_self, if_pos (Nat.le_of_lt hlt)]
  · rw [List.getElem?_insertIdx_of_gt (Nat.lt_succ_self i)]
    exact hx

/-- A node that is put in at the index after a child stands right after it. -/
theorem insertIdx_after {ns : List Node} {i : Nat} {x : Node} (hx : ns[i]? = some x) (n : Node) :
    (ns.insertIdx (i + 1) n)[i]? = some x ∧ (ns.insertIdx (i + 1) n)[i + 1]? = some n := by
  have hlt : i < ns.length := (List.getElem?_eq_some_iff.mp hx).1
  refine ⟨?_, ?_⟩
  · rw [List.getElem?_insertIdx_of_lt (Nat.lt_succ_self i)]
    exact hx
  · rw [List.getElem?_insertIdx_self, if_pos (Nat.succ_le_of_lt hlt)]

/-- The target of a drop stands at the index of the destination, once the dragged node is out. -/
theorem getElem?_taken {t t₁ : Tree} (ht : t.Numbered) {g : Grip} {id : NodeId}
    {source b b₁ : Branch} {moved : Node} {i : Nat} (hs : t.find? g.parent = some source.node)
    (hm : source.children[g.index]? = some moved) (hid : moved.id = g.node)
    (hout : moved.contains b.id = false)
    (hr : t.Put source.node (source.grown fun ns => ns.eraseIdx g.index).node t₁)
    (hb₁ : t₁.find? b.id = some b₁.node) (hb : t.parentOf? id = some (b, i)) (hne : id ≠ g.node) :
    ∃ x, b₁.children[if b.id = g.parent && g.index < i then i - 1 else i]? = some x ∧ x.id = id := by
  obtain ⟨hmem, x, hx, rfl⟩ := Tree.parentOf?_eq_some hb
  have hfind : t.find? b.id = some b.node := Tree.find?_branch ht.distinct hmem
  have hids := childIds_taken ht.distinct hs hm hout hfind hr hb₁
  have hold : b.childIds[i]? = some x.id := by
    unfold Branch.childIds
    rw [List.getElem?_map, hx]
    rfl
  have hnew : b₁.childIds[if b.id = g.parent && g.index < i then i - 1 else i]? = some x.id := by
    rw [hids]
    by_cases hsame : b.id = g.parent
    · have hi : g.index ≠ i := by
        intro e
        obtain rfl : source = b := by
          rw [hsame] at hfind
          exact Branch.node_inj (Option.some.inj (hs.symm.trans hfind))
        rw [e, hx] at hm
        obtain rfl : x = moved := Option.some.inj hm
        exact hne hid
      simp only [hsame, decide_true, Bool.true_and, decide_eq_true_eq, if_true]
      exact getElem?_shifted hold hi
    · simp only [hsame, decide_false, Bool.false_and, Bool.false_eq_true, if_false]
      exact hold
  unfold Branch.childIds at hnew
  rw [List.getElem?_map] at hnew
  exact Option.map_eq_some_iff.mp hnew

/-- **A move to the destination of a drop puts the node at the place of the pointer**, with all that
    stands below it. -/
theorem Done.sits {t t' : Tree} (ht : t.Numbered) {g : Grip} {target : Hovered} {place : Indicator}
    {destination : Destination} (haim : Drag.aim? t g target = some (place, destination))
    (hself : place.target ≠ g.node) {c : Option NodeId}
    (h : Done t (.moveNode g.node g.parent g.index destination) t' c) :
    ∃ moved, t.find? g.node = some moved ∧ t'.find? g.node = some moved ∧
      t'.Sits moved place := by
  have ht' : t'.Numbered := ht.done h
  cases h with
  | @moveNode _ _ _ _ source b b₁ moved t₁ _ hs hm hid hout hb ha hp hr hb₁ hk hr₁ hi =>
    have hsource : source ∈ t.branches := Tree.mem_branches_of_find? hs
    have hfind : t.find? moved.id = some moved :=
      Tree.find?_of_mem ht.distinct (Tree.child_mem_nodes hsource hm)
    have hnew : b₁.grown (insertAt destination.position moved) ∈ t'.branches :=
      Tree.mem_branches.mpr hr₁.mem_subtree
    have hsits : t'.Sits moved place := by
      unfold Tree.Sits
      rcases Drag.aim?_cases haim with ⟨hz, rfl⟩ | ⟨p, i, hparent, ⟨hz, rfl⟩ | ⟨hz, rfl⟩⟩
      · rw [hz]
        exact ⟨_, hnew, id_of_find? hb₁, List.getLast?_concat⟩
      · obtain ⟨x, hx, hxid⟩ := getElem?_taken ht hs hm hid hout hr hb₁ hparent hself
        obtain ⟨h1, h2⟩ := insertIdx_before hx moved
        rw [hz]
        exact ⟨_, hnew, _, x, h1, h2, hxid⟩
      · obtain ⟨x, hx, hxid⟩ := getElem?_taken ht hs hm hid hout hr hb₁ hparent hself
        obtain ⟨h1, h2⟩ := insertIdx_after hx moved
        rw [hz]
        exact ⟨_, hnew, _, x, h1, h2, hxid⟩
    rw [← hid]
    exact ⟨moved, hfind, Tree.find?_of_mem ht'.distinct hsits.mem_nodes, hsits⟩

end Edit

namespace Session

/-! ## 5. One drop -/

/-- An edit that was done gives the tree of the session after it. -/
theorem tree_of_apply {s s' : Session} {e : Edit} {receipt : Receipt}
    (h : s.apply e = (.ok receipt, s')) : ∃ c, Edit.apply s.tree e = .ok (s'.tree, c) := by
  unfold apply Draft.apply at h
  cases he : e.apply s.draft.tree with
  | error r =>
    rw [he] at h
    cases h
  | ok p =>
    rw [he] at h
    cases h
    exact ⟨p.2, he⟩

/-- **All that a drop does.** It leaves everything but the drag, or it makes the move that the
    target stands for. -/
theorem dropOn_cases (s : Session) (target : Hovered) :
    (dropped (s.dropOn target).1 = false ∧ (s.dropOn target).2 = s.cancelDrag) ∨
      ∃ receipt g place destination c, (s.dropOn target).1 = .ok (some receipt) ∧
        s.drag.grip? = some g ∧ Drag.resolve? s.tree g target = some (place, destination) ∧
        Edit.apply s.tree (.moveNode g.node g.parent g.index destination) =
          .ok ((s.dropOn target).2.tree, c) := by
  have hattempt := s.attempt_dropOn target
  cases hdropped : dropped (s.dropOn target).1 with
  | false =>
    rw [hdropped] at hattempt
    exact .inl ⟨rfl, hattempt.eq_of_failed⟩
  | true =>
    unfold dropOn at hdropped ⊢
    cases hdrag : s.drag with
    | idle =>
      rw [hdrag] at hdropped
      cases hdropped
    | dragging g i =>
      cases hres : Drag.resolve? s.tree g target with
      | none =>
        simp only [hdrag, Drag.isDragging, Drag.drop, hres, Option.map_none, if_true] at hdropped
        cases hdropped
      | some p =>
        simp only [hdrag, Drag.isDragging, Drag.drop, hres, Option.map_some, if_true] at hdropped ⊢
        cases happly : s.cancelDrag.apply (.moveNode g.node g.parent g.index p.2) with
        | mk result s' =>
          unfold cancelDrag at happly
          rw [happly] at hdropped ⊢
          cases result with
          | error e => cases hdropped
          | ok receipt =>
            obtain ⟨c, hc⟩ := tree_of_apply happly
            exact .inr ⟨receipt, g, p.1, p.2, c, rfl, rfl, hres, hc⟩

end Session

/-! ## 6. Runs -/

namespace Desk

variable {σ : Type} [Store σ]

/-- **How a drag ends.** A node is picked up after any run of a session, and anything is done before
    it is dropped. Then the drag is over. Either nothing else has changed, or the node that was
    picked up, with all that stands below it, is at the place of the pointer: right before the
    target, right after it, or in it as the last child. -/
theorem run_dropOn {s : Session} (hs : s.Opened) (store : σ) (before during : List Action)
    (node : NodeId) (target : Hovered)
    (hpicked : (((opening s store).run before).1.session.startDrag node).1.isOk = true)
    (hduring : ∀ n, .startDrag n ∉ during) :
    let now := ((opening s store).run (before ++ .startDrag node :: during)).1.session
    let after := (now.dropOn target).2
    after.drag = .idle ∧
      ((Session.dropped (now.dropOn target).1 = false ∧ after = now.cancelDrag) ∨
        ∃ receipt moved place, (now.dropOn target).1 = .ok (some receipt) ∧
          now.tree.find? node = some moved ∧ after.tree.find? node = some moved ∧
          target.place? now.tree = some place ∧ after.tree.Sits moved place) := by
  intro now after
  have hnumbered : now.tree.Numbered := Session.lasting_numbered.run hs.numbered store _
  have hrun : now =
      (((opening s store).run before).1.run (.startDrag node :: during)).1.session := by
    show ((opening s store).run (before ++ .startDrag node :: during)).1.session = _
    rw [run_append]
  refine ⟨now.drag_dropOn target, ?_⟩
  rcases now.dropOn_cases target with hkept | ⟨receipt, g, place, destination, c, hr, hg, hres, he⟩
  · exact .inl hkept
  · obtain ⟨haim, hself⟩ := Drag.resolve?_eq_some hres
    obtain ⟨moved, hold, hnew, hsits⟩ := (Edit.apply_done he).sits hnumbered haim hself
    rw [hrun] at hg
    rw [node_of_picked hpicked hduring hg] at hold hnew
    exact .inr ⟨receipt, moved, place, hr, hold, hnew, Drag.place?_of_aim? hnumbered haim, hsits⟩

/-- A new rule set with a condition and an action. -/
def twoNodes : List Action := [.addNode .condition, .addNode .action]

/-- The pointer comes to the condition, which is given a field. -/
def meanwhile : List Action := [.hover (.childArea ⟨2⟩), .setAttribute ⟨2⟩ "field" "source"]

/-- The session in which the action was picked up in between. -/
def draggedSession : Session :=
  ((opening (.new "main" .standard .standard) Shelf.empty).run
    (twoNodes ++ .startDrag ⟨3⟩ :: meanwhile)).1.session

/-- The action goes into the condition. -/
theorem run_dropOn_childArea :
    (((opening (.new "main" .standard .standard) Shelf.empty).run twoNodes).1.session.startDrag
      ⟨3⟩).1.isOk = true ∧ (∀ n, .startDrag n ∉ meanwhile) ∧
    (draggedSession.dropOn (.childArea ⟨2⟩)).2.drag = .idle ∧
    ∃ moved, draggedSession.tree.find? ⟨3⟩ = some moved ∧
      (draggedSession.dropOn (.childArea ⟨2⟩)).2.tree.find? ⟨3⟩ = some moved ∧
      (draggedSession.dropOn (.childArea ⟨2⟩)).2.tree.Sits moved ⟨⟨2⟩, .inside⟩ := by
  have hpicked : (((opening (.new "main" .standard .standard) Shelf.empty).run
      twoNodes).1.session.startDrag ⟨3⟩).1.isOk = true := by decide +kernel
  have hduring : ∀ n, .startDrag n ∉ meanwhile := by
    intro n hn
    rcases List.mem_cons.mp hn with h | hn
    · cases h
    · cases List.mem_singleton.mp hn
  have hdropped : Session.dropped (draggedSession.dropOn (.childArea ⟨2⟩)).1 = true := by
    decide +kernel
  obtain ⟨hidle, ⟨hkept, -⟩ | ⟨receipt, moved, place, -, hold, hnew, hplace, hsits⟩⟩ :=
    run_dropOn (.new "main" .standard .standard) Shelf.empty twoNodes meanwhile ⟨3⟩
      (.childArea ⟨2⟩) hpicked hduring
  · have hkept : Session.dropped (draggedSession.dropOn (.childArea ⟨2⟩)).1 = false := hkept
    rw [hdropped] at hkept
    cases hkept
  · obtain rfl : (⟨⟨2⟩, .inside⟩ : Indicator) = place := Option.some.inj hplace
    exact ⟨hpicked, hduring, hidle, moved, hold, hnew, hsits⟩

end Desk

end Dialplan
