import Dialplan.Proofs.Drag
import Dialplan.Proofs.Places
/-!
# What a drop offers

A drop looks for its place with checks of its own, and the move that it offers is checked again when
it is made. The two agree: the index of the offered place, counted without the dragged node, is in
bounds for the check, which counts the children that are left; and the drop refuses no place that a
move could go to, but for the dragged node itself.

* `Tree.Selects`: the branch that a target stands for;
* `Hovered.On`: the targets that stand for one, each for one alone;
* `Grip.of`: what is held of a child that was picked up;
* `Drag.isSome_resolve?_iff`: which places are offered;
* `Edit.check_resolved`: a move to the place of a drop passes the check;
* `Drag.drop_agrees`: **what is offered after any hovers**.
-/

namespace Dialplan

/-! ## 1. The branch that a target stands for -/

/-- **A target is over a number and stands for a branch.** The child area of a branch stands for the
    branch. A child stands for the branch that it is a child of, or for itself, where the pointer is
    in the middle of its box and it is a branch. -/
inductive Tree.Selects (t : Tree) : Hovered → NodeId → Branch → Prop where
  | childArea {b : Branch} (hb : b ∈ t.branches) : Selects t (.childArea b.id) b.id b
  | beside {b : Branch} {i : Nat} {x : Node} {height offset : Float} (hb : b ∈ t.branches)
      (hx : b.children[i]? = some x)
      (hz : Zone.classify height offset x.kind.isBranch ≠ .inside) :
      Selects t (.node x.id height offset) x.id b
  | inside {b : Branch} {height offset : Float} (hb : b ∈ t.branches) (hroot : b.id ≠ t.root.id)
      (hz : Zone.classify height offset b.node.kind.isBranch = .inside) :
      Selects t (.node b.id height offset) b.id b

/-- A target that a tree has: the child area of a branch, or a node other than the root. -/
def Hovered.On (t : Tree) : Hovered → Prop
  | .childArea id => ∃ b ∈ t.branches, b.id = id
  | .node id _ _ => id ∈ t.ids ∧ id ≠ t.root.id
  | .outside => False

theorem Tree.Selects.mem {t : Tree} {target : Hovered} {id : NodeId} {b : Branch}
    (h : t.Selects target id b) : b ∈ t.branches := by
  cases h <;> assumption

/-- Only a branch has a middle. -/
theorem Zone.isBranch_of_inside {height offset : Float} {isBranch : Bool}
    (h : Zone.classify height offset isBranch = .inside) : isBranch = true := by
  cases isBranch with
  | true => rfl
  | false =>
    unfold classify at h
    rw [Bool.not_false, Bool.or_true, if_pos rfl] at h
    split at h <;> cases h

/-- What is held of the child of a branch that was picked up. -/
def Grip.of (source : Branch) (i : Nat) (n : Node) : Grip := ⟨n.id, n.kind, source.id, i⟩

@[simp] theorem Grip.node_of (source : Branch) (i : Nat) (n : Node) :
    (Grip.of source i n).node = n.id := rfl

@[simp] theorem Grip.kind_of (source : Branch) (i : Nat) (n : Node) :
    (Grip.of source i n).kind = n.kind := rfl

namespace Drag

variable {t : Tree} {g : Grip} {target : Hovered} {place : Indicator} {destination : Destination}
  {source b : Branch} {n : Node} {i : Nat} {id : NodeId}

/-- The destination of a drop lies in the branch that the target stands for. -/
theorem selects_of_aim? (hd : t.ids.Nodup) (h : aim? t g target = some (place, destination)) :
    ∃ b ∈ t.branches, t.Selects target place.target b ∧ b.id = destination.parent := by
  unfold aim? at h
  split at h
  · cases h
  · rename_i c
    obtain ⟨b, hb, he⟩ := Option.map_eq_some_iff.mp h
    obtain ⟨m, hm, hmb⟩ := Option.bind_eq_some_iff.mp hb
    obtain rfl := Node.eq_of_branch? hmb
    obtain rfl : b.id = c := Edit.id_of_find? hm
    have hmem : b ∈ t.branches := Tree.mem_branches_of_find? hm
    cases he
    exact ⟨b, hmem, .childArea hmem, rfl⟩
  · rename_i c height offset
    split at h
    · cases h
    rename_i p i hp
    split at h
    · cases h
    rename_i x hx
    obtain ⟨hmem, y, hy, rfl⟩ := Tree.parentOf?_eq_some hp
    obtain rfl : y = x := Option.some.inj (hy.symm.trans hx)
    cases hz : Zone.classify height offset y.kind.isBranch with
    | before =>
      simp only [hz] at h
      cases h
      exact ⟨p, hmem, .beside hmem hx (by rw [hz]; decide), rfl⟩
    | after =>
      simp only [hz] at h
      cases h
      exact ⟨p, hmem, .beside hmem hx (by rw [hz]; decide), rfl⟩
    | inside =>
      simp only [hz] at h
      cases h
      cases y with
      | leaf k l => cases Zone.isBranch_of_inside hz
      | branch k l cs =>
        have hbranch : (⟨k, l, cs⟩ : Branch) ∈ t.branches :=
          Tree.mem_branches.mpr (Tree.child_mem_nodes hmem hx)
        exact ⟨_, hbranch, .inside hbranch (Tree.child_ne_root hd hmem hx) hz, rfl⟩

/-- A target that stands for a branch is aimed at. -/
theorem aim?_of_selects (hd : t.ids.Nodup) (h : t.Selects target id b) (g : Grip) :
    ∃ place destination, aim? t g target = some (place, destination) ∧ place.target = id ∧
      destination.parent = b.id := by
  cases h with
  | childArea hb =>
    refine ⟨⟨b.id, .inside⟩, .lastChild b.id, ?_, rfl, rfl⟩
    have hbranch : t.branch? b.id = some b := Edit.branch?_of_find? (Tree.find?_branch hd hb)
    simp only [aim?, hbranch, Option.map_some]
  | @beside _ i x height offset hb hx hz =>
    have hp := Tree.parentOf?_of_child hd hb hx
    unfold aim?
    simp only [hp, hx]
    cases hzone : Zone.classify height offset x.kind.isBranch with
    | before => exact ⟨_, _, rfl, rfl, rfl⟩
    | after => exact ⟨_, _, rfl, rfl, rfl⟩
    | inside => exact absurd hzone hz
  | @inside _ height offset hb hroot hz =>
    obtain ⟨p, hmem, i, hx⟩ := Tree.exists_child hd (Tree.mem_branches.mp hb) hroot
    have hp : t.parentOf? b.id = some (p, i) := Tree.parentOf?_of_child hd hmem hx
    unfold aim?
    simp only [hp, hx, hz]
    exact ⟨_, _, rfl, rfl, rfl⟩

end Drag

namespace Tree

variable {t : Tree} {target : Hovered}

/-- **What a tree has stands for a branch**, and nothing else does. -/
theorem exists_selects_iff (hd : t.ids.Nodup) :
    (∃ id b, t.Selects target id b) ↔ target.On t := by
  constructor
  · rintro ⟨id, b, h⟩
    cases h with
    | childArea hb => exact ⟨b, hb, rfl⟩
    | beside hb hx hz =>
      exact ⟨List.mem_map_of_mem (child_mem_nodes hb hx), child_ne_root hd hb hx⟩
    | inside hb hroot hz =>
      exact ⟨List.mem_map_of_mem (f := Node.id) (mem_branches.mp hb), hroot⟩
  · intro h
    cases target with
    | outside => exact h.elim
    | childArea id =>
      obtain ⟨b, hb, rfl⟩ := h
      exact ⟨_, _, .childArea hb⟩
    | node id height offset =>
      obtain ⟨hid, hroot⟩ := h
      obtain ⟨x, hx, rfl⟩ := List.mem_map.mp hid
      by_cases hz : Zone.classify height offset x.kind.isBranch = .inside
      · cases x with
        | leaf k l => cases Zone.isBranch_of_inside hz
        | branch k l cs =>
          have hb : (⟨k, l, cs⟩ : Branch) ∈ t.branches := mem_branches.mpr hx
          exact ⟨_, _, .inside hb hroot hz⟩
      · obtain ⟨b, hb, i, hi⟩ := exists_child hd hx hroot
        exact ⟨_, _, .beside hb hi hz⟩

/-- No target stands for two branches. -/
theorem Selects.unique (hd : t.ids.Nodup) {id id' : NodeId} {b b' : Branch}
    (h : t.Selects target id b) (h' : t.Selects target id' b') : id = id' ∧ b = b' := by
  obtain ⟨place, destination, haim, rfl, hb⟩ := Drag.aim?_of_selects hd h (.of b 0 b.node)
  obtain ⟨place', destination', haim', rfl, hb'⟩ := Drag.aim?_of_selects hd h' (.of b 0 b.node)
  cases haim.symm.trans haim'
  exact ⟨rfl, branch_eq_of_id hd h.mem h'.mem (hb.symm.trans hb')⟩

end Tree

namespace Drag

variable {t : Tree} {target : Hovered} {place : Indicator} {destination : Destination}
  {source b : Branch} {n : Node} {i : Nat}

/-! ## 2. The checks of a drop and those of a move -/

/-- **When a place that is aimed at is offered.** -/
theorem isSome_resolve?_iff (hd : t.ids.Nodup) (hs : source ∈ t.branches)
    (hn : source.children[i]? = some n)
    (haim : aim? t (.of source i n) target = some (place, destination)) (hb : b ∈ t.branches)
    (hid : b.id = destination.parent) :
    (resolve? t (.of source i n) target).isSome = true ↔
      place.target ≠ n.id ∧ b.node ∉ n.subtree ∧ b.accepts n.kind = true := by
  have hmem : n ∈ t.nodes := Tree.child_mem_nodes hs hn
  have hnode : t.node? n.id = some n := by
    rw [Tree.node?_of_mem hd hmem, if_neg (Tree.child_ne_root hd hs hn)]
  have hbranch : t.branch? destination.parent = some b :=
    hid ▸ Edit.branch?_of_find? (Tree.find?_branch hd hb)
  have hin : n.contains b.id = true ↔ b.node ∈ n.subtree :=
    Tree.contains_iff_mem_subtree hd hmem (Tree.mem_branches.mp hb)
  unfold resolve?
  simp only [haim, Grip.node_of, Grip.kind_of, hnode, hbranch]
  rw [← hin]
  by_cases hself : place.target = n.id
  · rw [if_pos hself]
    exact ⟨fun h => (nomatch h), fun h => absurd hself h.1⟩
  rw [if_neg hself]
  by_cases hc : n.contains b.id = true <;> by_cases ha : b.accepts n.kind = true <;>
    simp [hself, hc, ha]

end Drag

namespace Edit

variable {t : Tree} {target : Hovered} {place : Indicator} {destination : Destination}
  {source : Branch} {n : Node} {i : Nat}

/-- The index of a place that is aimed at is in bounds, in a list without the dragged node. -/
theorem position_of_aim? (hd : t.ids.Nodup) (hs : source ∈ t.branches)
    (hn : source.children[i]? = some n)
    (haim : Drag.aim? t (.of source i n) target = some (place, destination))
    (hself : place.target ≠ n.id) {b : Branch} (hb : b ∈ t.branches)
    (hid : b.id = destination.parent) {j : Nat} (hj : destination.position = some j) :
    j ≤ if b.id = source.id then b.children.length - 1 else b.children.length := by
  rcases Drag.aim?_cases haim with ⟨-, rfl⟩ | ⟨p, k, hp, hcases⟩
  · cases hj
  obtain ⟨hpm, x, hx, hxid⟩ := Tree.parentOf?_eq_some hp
  have hk : k < p.children.length := (List.getElem?_eq_some_iff.mp hx).1
  -- before the target or after it, the branch is the one that the target is a child of
  obtain ⟨hparent, hbound⟩ : destination.parent = p.id ∧
      j ≤ (if p.id = source.id && i < k then k - 1 else k) + 1 := by
    rcases hcases with ⟨-, rfl⟩ | ⟨-, rfl⟩ <;> cases hj
    · exact ⟨rfl, Nat.le_succ _⟩
    · exact ⟨rfl, Nat.le_refl _⟩
  obtain rfl : b = p := Tree.branch_eq_of_id hd hb hpm (hid.trans hparent)
  by_cases hsame : b.id = source.id
  · obtain rfl : b = source := Tree.branch_eq_of_id hd hb hs hsame
    have hi : i < b.children.length := (List.getElem?_eq_some_iff.mp hn).1
    have hne : i ≠ k := by
      rintro rfl
      obtain rfl : x = n := Option.some.inj (hx.symm.trans hn)
      exact hself hxid.symm
    rw [if_pos rfl]
    simp only [decide_true, Bool.true_and, decide_eq_true_eq] at hbound
    split at hbound <;> omega
  · simp only [hsame, decide_false, Bool.false_and, Bool.false_eq_true, if_false] at hbound
    rw [if_neg hsame]
    omega

/-- **A move to the place of a drop passes the check.** -/
theorem check_resolved (hd : t.ids.Nodup) (hs : source ∈ t.branches)
    (hn : source.children[i]? = some n)
    (h : Drag.resolve? t (.of source i n) target = some (place, destination)) :
    check t (.moveNode n.id source.id i destination) = .ok () := by
  obtain ⟨haim, hself⟩ := Drag.resolve?_eq_some h
  obtain ⟨b, hb, -, hid⟩ := Drag.selects_of_aim? hd haim
  obtain ⟨-, hout, ha⟩ := (Drag.isSome_resolve?_iff hd hs hn haim hb hid).mp (h ▸ rfl)
  have hcontains : n.contains destination.parent = false := by
    rw [← hid, ← Bool.not_eq_true]
    exact fun hin => hout ((Tree.contains_iff_mem_subtree hd (Tree.child_mem_nodes hs hn)
      (Tree.mem_branches.mp hb)).mp hin)
  exact check_moveNode (Tree.find?_branch hd hs) hn rfl hcontains
    (hid ▸ Tree.find?_branch hd hb) ha fun j hj => position_of_aim? hd hs hn haim hself hb hid hj

end Edit

namespace Drag

variable {t : Tree} {n : Node}

/-! ## 3. A drag -/

/-- Any node but the root can be picked up. -/
theorem start_idle (hd : t.ids.Nodup) {source : Branch} {i : Nat} (hs : source ∈ t.branches)
    (hn : source.children[i]? = some n) : Drag.idle.start t n.id =
      .ok (.of source i n, .dragging (.of source i n) none) := by
  have hp := Tree.parentOf?_of_child hd hs hn
  unfold start
  rw [if_neg (by decide), if_neg (Tree.child_ne_root hd hs hn)]
  simp only [hp, hn]
  rfl

/-- A drag holds on to what was picked up, whatever it comes over. -/
theorem grip?_hovers (d : Drag) (hovers : List (Tree × Hovered)) :
    (hovers.foldl (fun d h => d.hover h.1 h.2) d).grip? = d.grip? := by
  induction hovers generalizing d with
  | nil => rfl
  | cons h rest ih =>
    rw [List.foldl_cons, ih, grip?_hover]

/-- A drop goes by what is held alone. -/
theorem drop_of_grip? {d : Drag} {g : Grip} (h : d.grip? = some g) (t : Tree) (target : Hovered) :
    d.drop t target =
      (resolve? t g target).map fun p => .moveNode g.node g.parent g.index p.2 := by
  cases d with
  | idle => cases h
  | dragging g' indicator =>
    cases h
    rfl

/-- **What is offered is what can be done.** In a tree with distinct numbers, let a node that is not
    the root be picked up and carried over anything. A move that a drop then offers passes the
    check. A drop offers one where the tree has the target, the target is not the dragged node, and
    the branch that it stands for is not in the dragged node and takes it; else it offers none. -/
theorem drop_agrees (hd : t.ids.Nodup) (hn : n ∈ t.nodes) (hroot : n.id ≠ t.root.id) :
    ∃ g d, Drag.idle.start t n.id = .ok (g, d) ∧
      ∀ (hovers : List (Tree × Hovered)) (target : Hovered),
        let now := hovers.foldl (fun d h => d.hover h.1 h.2) d
        (∀ e, now.drop t target = some e → e.check t = .ok ()) ∧
        ((now.drop t target).isSome = true ↔ target.On t ∧ ∀ id b, t.Selects target id b →
          id ≠ n.id ∧ b.node ∉ n.subtree ∧ b.accepts n.kind = true) := by
  obtain ⟨source, hs, i, hx⟩ := Tree.exists_child hd hn hroot
  refine ⟨_, _, start_idle hd hs hx, fun hovers target => ?_⟩
  intro now
  have hdrop : now.drop t target = _ :=
    drop_of_grip? (grip?_hovers (.dragging (.of source i n) none) hovers) t target
  rw [hdrop, Option.isSome_map]
  refine ⟨fun e he => ?_, fun h => ?_, ?_⟩
  · obtain ⟨⟨place, destination⟩, hres, rfl⟩ := Option.map_eq_some_iff.mp he
    exact Edit.check_resolved hd hs hx hres
  · obtain ⟨⟨place, destination⟩, hres⟩ := Option.isSome_iff_exists.mp h
    have haim := (resolve?_eq_some hres).1
    obtain ⟨b, hb, hselects, hparent⟩ := selects_of_aim? hd haim
    refine ⟨(Tree.exists_selects_iff hd).mp ⟨_, b, hselects⟩, fun id b' hselects' => ?_⟩
    obtain ⟨rfl, rfl⟩ := hselects.unique hd hselects'
    exact (isSome_resolve?_iff hd hs hx haim hb hparent).mp h
  · rintro ⟨hon, h⟩
    obtain ⟨id, b, hselects⟩ := (Tree.exists_selects_iff hd).mpr hon
    obtain ⟨place, destination, haim, rfl, hparent⟩ :=
      aim?_of_selects hd hselects (.of source i n)
    exact (isSome_resolve?_iff hd hs hx haim hselects.mem hparent.symm).mpr (h _ b hselects)

/-- The action after the condition is carried over the condition and away from the tree, and goes
    into the condition of regexes. -/
theorem drop_agrees_nestedTree : Tree.nestedTree.ids.Nodup ∧ ∃ n ∈ Tree.nestedTree.nodes,
    n.id = ⟨6⟩ ∧ n.id ≠ Tree.nestedTree.root.id ∧ ∃ g d e,
      Drag.idle.start Tree.nestedTree ⟨6⟩ = .ok (g, d) ∧
      ((d.hover Tree.nestedTree (.childArea ⟨2⟩)).hover Tree.bare .outside).drop Tree.nestedTree
        (.childArea ⟨4⟩) = some e ∧ e.check Tree.nestedTree = .ok () := by
  have hd : Tree.nestedTree.ids.Nodup := by decide
  obtain ⟨n, hat⟩ : ∃ n, Tree.nestedTree.nodeAt? ⟨[1]⟩ = some n := ⟨_, rfl⟩
  obtain ⟨x, hx⟩ : ∃ x, Tree.nestedTree.nodeAt? ⟨[0, 1]⟩ = some x := ⟨_, rfl⟩
  have hn : n ∈ Tree.nestedTree.nodes := Tree.mem_nodes_iff.mpr ⟨_, hat⟩
  have hmem : x ∈ Tree.nestedTree.nodes := Tree.mem_nodes_iff.mpr ⟨_, hx⟩
  cases hat
  cases hx
  obtain ⟨g, d, hstart, hdrop⟩ := drop_agrees hd hn (by decide)
  obtain ⟨hcheck, hoffered⟩ := hdrop
    [(Tree.nestedTree, .childArea ⟨2⟩), (Tree.bare, .outside)] (.childArea ⟨4⟩)
  have hregexes : Tree.nestedTree.Selects (.childArea ⟨4⟩) ⟨4⟩
      (Branch.mk .regexCondition (.new ⟨4⟩ .regexCondition) [.leaf .regex (.new ⟨5⟩ .regex)]) :=
    .childArea (b := ⟨_, _, _⟩) (Tree.mem_branches.mpr hmem)
  obtain ⟨e, he⟩ : ∃ e, Drag.drop _ _ _ = some e := by
    refine Option.isSome_iff_exists.mp (hoffered.mpr ⟨⟨_, hregexes.mem, rfl⟩, ?_⟩)
    intro id b h
    obtain ⟨rfl, rfl⟩ := hregexes.unique hd h
    refine ⟨by decide, fun hin => ?_, by decide⟩
    cases List.mem_singleton.mp hin
  exact ⟨hd, _, hn, rfl, by decide, g, d, e, hstart, he, hcheck e he⟩

end Drag

end Dialplan
