import Dialplan.Proofs.Likeness
import Dialplan.Proofs.Numbers
import Dialplan.Proofs.Search
import Mathlib
/-!
# Numbers of a tree that was read

While a text is read its nodes are numbered in the order in which they begin. In the finished tree
this is the order of a walk, and so the numbers say nothing that the tree without them does not say.

* `Node.eq_of_wiped_of_ids`: a node is settled by its numbers in pre-order and all but its numbers;
* `Tree.InOrder.eq_of_alike`: trees numbered in order that are alike are equal;
* `numbers_of_read`: **a tree that was read is numbered by the walk through it**, and texts that are
  read as trees alike are read as one tree.
-/

namespace Dialplan

/-! ## 1. Nodes settled by their numbers -/

namespace Node

theorem label_eq_of_wipe {a b : Label} (h : wipe a = wipe b) (hid : a.id = b.id) : a = b := by
  obtain ⟨i, as, e⟩ := a
  obtain ⟨j, bs, f⟩ := b
  obtain ⟨-, rfl, rfl⟩ := Label.mk.inj h
  obtain rfl : i = j := hid
  rfl

theorem length_ids (n : Node) : n.ids.length = n.size := List.length_map ..

/-- Wiping leaves as many nodes. -/
theorem size_wiped (n : Node) : n.wiped.size = n.size := by
  unfold size
  rw [uniform_wiped.subtree_eq, List.length_map]

/-- What is the same but for the numbers has as many of them. -/
theorem length_ids_of_wiped {n m : Node} (h : n.wiped = m.wiped) : n.ids.length = m.ids.length := by
  rw [length_ids, length_ids, ← size_wiped n, h, size_wiped]

mutual

/-- **A node is settled by its numbers in pre-order and by all but its numbers.** -/
theorem eq_of_wiped_of_ids : ∀ {n m : Node}, n.wiped = m.wiped → n.ids = m.ids → n = m
  | .leaf k a, .leaf k' b, h, hi => by
      obtain ⟨rfl, hl⟩ := Node.leaf.inj h
      have hid : a.id = b.id := List.head_eq_of_cons_eq hi
      rw [label_eq_of_wipe hl hid]
  | .branch k a cs, .branch k' b ds, h, hi => by
      obtain ⟨rfl, hl, hcs⟩ := Node.branch.inj h
      obtain ⟨hid, hids⟩ := List.cons.inj hi
      rw [label_eq_of_wipe hl hid, eq_of_wipedIn_of_idsIn hcs hids]
  | .leaf .., .branch .., h, _ => nomatch h
  | .branch .., .leaf .., h, _ => nomatch h

theorem eq_of_wipedIn_of_idsIn : ∀ {ns ms : List Node}, wipedIn ns = wipedIn ms →
    idsIn ns = idsIn ms → ns = ms
  | [], [], _, _ => rfl
  | n :: ns, m :: ms, h, hi => by
      obtain ⟨hn, hns⟩ := List.cons.inj h
      rw [idsIn_cons, idsIn_cons] at hi
      -- alike nodes have as many numbers, so the numbers of the first nodes end at one place
      obtain ⟨hin, hins⟩ := List.append_inj hi (length_ids_of_wiped hn)
      rw [eq_of_wiped_of_ids hn hin, eq_of_wipedIn_of_idsIn hns hins]
  | [], _ :: _, h, _ => nomatch h
  | _ :: _, [], h, _ => nomatch h

end

end Node

/-! ## 2. Trees numbered in order -/

namespace Tree

variable {t u : Tree}

theorem node_injective {b c : Branch} (h : b.node = c.node) : b = c := by
  obtain ⟨k, l, cs⟩ := b
  obtain ⟨rfl, rfl, rfl⟩ := Node.branch.inj h
  rfl

/-- As many numbers were given out as there are nodes. -/
theorem InOrder.issued_eq (h : t.InOrder) : t.issued = t.size := by
  have hlength : t.ids.length = t.size := Node.length_ids _
  unfold InOrder minted at h
  rw [← hlength, h, List.length_map, List.length_range', Nat.sub_zero]

/-- **Trees numbered in order that are alike are equal.** -/
theorem InOrder.eq_of_alike (ht : t.InOrder) (hu : u.InOrder) (h : t.alike u = true) : t = u := by
  have hw : t.wiped = u.wiped := (alike_iff t u).mp h
  have hissued : t.issued = u.issued := by
    have hlength : t.ids.length = u.ids.length := Node.length_ids_of_wiped hw
    rw [ht, hu] at hlength
    unfold minted at hlength
    rw [List.length_map, List.length_map, List.length_range', List.length_range'] at hlength
    exact hlength
  have hids : t.ids = u.ids := by
    rw [ht, hu, hissued]
  have hroot : t.root = u.root := node_injective (Node.eq_of_wiped_of_ids hw hids)
  obtain ⟨root, issued⟩ := t
  obtain rfl : root = u.root := hroot
  obtain rfl : issued = u.issued := hissued
  rfl

/-- The root comes first, and then the places below it in the order of the walk. -/
theorem ids_eq_cons (t : Tree) : t.ids = t.root.id :: t.walked.map fun e => e.2.id := by
  have hbelow : (t.walked.map (·.2)).map Node.id = Node.idsIn t.root.children := by
    rw [walked_eq]
    unfold descendants Node.idsIn
    rw [Node.map_walks]
  rw [List.map_map] at hbelow
  show t.root.id :: Node.idsIn t.root.children = _
  rw [← hbelow]
  rfl

/-- In a tree numbered in order the walk meets the numbers after the root's. -/
theorem InOrder.walked (h : t.InOrder) : t.root.id.number = 1 ∧
    t.walked.map (fun e => e.2.id.number) = List.range' 2 (t.size - 1) := by
  have hnumbers : (t.root.id :: t.walked.map fun e => e.2.id).map NodeId.number =
      List.range' 1 t.size := by
    rw [← ids_eq_cons, h, h.issued_eq]
    unfold minted
    rw [List.map_map]
    exact List.map_id _
  have hsize : t.size = t.size - 1 + 1 := by
    have hbelow : t.size = (Node.subtrees t.root.children).length + 1 := Node.size_eq t.root.node
    omega
  rw [hsize, List.range'_succ, List.map_cons, List.map_map] at hnumbers
  exact List.cons.inj hnumbers

end Tree

/-! ## 3. Trees that were read -/

namespace Markup

/-- **A tree that was read is numbered by the walk through it**: the root is number 1, the walk meets
    2, 3 and so on up to the count of all nodes, and no number was given out beside these. So texts
    that are read as trees alike are read as one tree, numbers and all. -/
theorem numbers_of_read {text : String} {t : Tree} (h : read text = .ok t) :
    t.root.id.number = 1 ∧
    t.walked.map (fun e => e.2.id.number) = List.range' 2 (t.root.node.count - 1) ∧
    t.issued = t.root.node.count ∧
    ∀ (other : String) (u : Tree), read other = .ok u → t.alike u = true → u = t := by
  have ho := inOrder_of_read h
  rw [Node.count_eq]
  refine ⟨ho.walked.1, ho.walked.2, ho.issued_eq, fun other u hu ha => ?_⟩
  exact (ho.eq_of_alike (inOrder_of_read hu) ha).symm

/-- A condition with a child, and an action behind it. -/
def branchingText : String := "<extension><condition><action/></condition><action/></extension>"

/-- The same in other words: blanks, a comment, and an end tag where a start tag closed itself. -/
def branchingTextAgain : String :=
  "<extension ><condition>\n<action></action></condition><!----><action/></extension>"

/-- What both are read as. -/
def branchingTree : Tree :=
  ⟨⟨.extension, ⟨⟨1⟩, .empty, true⟩,
    [.branch .condition ⟨⟨2⟩, .empty, true⟩ [.leaf .action ⟨⟨3⟩, .empty, true⟩],
    .leaf .action ⟨⟨4⟩, .empty, true⟩]⟩, 4⟩

/-- Four nodes, numbered down the text; of the other text it is enough that its tree is alike. -/
theorem numbers_of_read_branching : read branchingText = .ok branchingTree ∧
    branchingTree.walked.map (fun e => e.2.id.number) = [2, 3, 4] ∧ branchingTree.issued = 4 ∧
    read branchingTextAgain = .ok branchingTree := by
  have hread : read branchingText = .ok branchingTree := by
    unfold branchingText branchingTree
    cbv
  have halike : (read branchingTextAgain).map branchingTree.alike = .ok true := by
    unfold branchingTextAgain branchingTree
    cbv
  obtain ⟨-, hwalk, hissued, hother⟩ := numbers_of_read hread
  refine ⟨hread, hwalk, hissued, ?_⟩
  cases hu : read branchingTextAgain with
  | error f =>
    rw [hu] at halike
    cases halike
  | ok u =>
    rw [hu] at halike
    rw [hother _ u hu (Except.ok.inj halike)]

end Markup

end Dialplan
