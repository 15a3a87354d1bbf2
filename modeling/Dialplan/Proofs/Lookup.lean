import Dialplan.Proofs.Lasting
import Dialplan.Proofs.Numbers
import Mathlib.Data.List.Nodup
import Mathlib.Data.List.Pairwise
/-!
# Looking nodes up

In a tree with distinct numbers every look-up gives the one node that there is.

* `find?_of_mem`: the node with its number;
* `parentOf?_of_child`: the branch that has it as a child, and where;
* `pathOf?_of_mem`: the path on which a walk of the tree comes to it;
* `lasting_numbered`: the tree of a session has distinct numbers after every run.

Every node but the root is a child of one branch, counted once (`childIds_perm`); this is what makes
the parent unique.
-/

namespace Dialplan

/-- The numbers of the children. -/
def Branch.childIds (b : Branch) : List NodeId := b.children.map Node.id

namespace Node

/-! ## 1. Lists with distinct keys -/

/-- Among values with distinct keys the first with a key is the only one. -/
theorem find?_of_nodup {α β : Type} [BEq β] [LawfulBEq β] {f : α → β} {l : List α} {a : α}
    (hd : (l.map f).Nodup) (ha : a ∈ l) : l.find? (fun x => f x == f a) = some a := by
  cases hf : l.find? (fun x => f x == f a) with
  | none =>
    rw [List.find?_eq_none] at hf
    exact absurd (beq_self_eq_true (f a)) (hf a ha)
  | some x =>
    have hkey := List.find?_some (p := fun x => f x == f a) hf
    have hx : f x = f a := beq_iff_eq.mp hkey
    rw [List.inj_on_of_nodup_map hd (List.mem_of_find?_eq_some hf) ha hx]

/-! ## 2. Nodes and their children -/

mutual

theorem mem_subtree_trans {m x : Node} : ∀ {n : Node}, m ∈ n.subtree → x ∈ m.subtree →
    x ∈ n.subtree
  | .leaf _ _, hm, hx => by
      rw [List.mem_singleton.mp hm] at hx
      exact hx
  | .branch _ _ cs, hm, hx => by
      rcases List.mem_cons.mp hm with rfl | hm
      · exact hx
      · exact List.mem_cons_of_mem _ (mem_subtrees_trans hm hx)

theorem mem_subtrees_trans {m x : Node} : ∀ {ns : List Node}, m ∈ subtrees ns → x ∈ m.subtree →
    x ∈ subtrees ns
  | [], hm, _ => absurd hm List.not_mem_nil
  | _ :: _, hm, hx => by
      rcases List.mem_append.mp hm with hm | hm
      · exact List.mem_append_left _ (mem_subtree_trans hm hx)
      · exact List.mem_append_right _ (mem_subtrees_trans hm hx)

end

/-- What stands in a list of children stands below the node. -/
theorem child_mem_subtree {n c : Node} (h : c ∈ n.children) : c ∈ n.subtree := by
  cases n with
  | leaf k l => exact absurd h List.not_mem_nil
  | branch k l cs =>
    exact List.mem_cons_of_mem _ (mem_subtrees.mpr ⟨c, h, c.self_mem_subtree⟩)

/-- The branches among the nodes of a list and those below them, in pre-order. -/
def branchesIn (ns : List Node) : List Branch := (subtrees ns).filterMap branch?

theorem branchesIn_cons (n : Node) (rest : List Node) :
    branchesIn (n :: rest) = n.subtree.filterMap branch? ++ branchesIn rest :=
  List.filterMap_append

mutual

/-- **Every node but the first is a child of one branch, counted once.** -/
theorem childIds_perm : ∀ n : Node,
    ((n.subtree.filterMap branch?).flatMap Branch.childIds ++ [n.id]).Perm n.ids
  | .leaf _ _ => .refl _
  | .branch k l cs => by
      have hcs := List.perm_iff_count.mp (childIds_perm_in cs)
      rw [List.perm_iff_count]
      intro i
      have hi := hcs i
      show ((cs.map id ++ (branchesIn cs).flatMap Branch.childIds) ++ [l.id]).count i =
        (l.id :: idsIn cs).count i
      simp only [List.count_append, List.count_cons, List.count_nil] at hi ⊢
      omega

theorem childIds_perm_in : ∀ ns : List Node,
    ((branchesIn ns).flatMap Branch.childIds ++ ns.map id).Perm (idsIn ns)
  | [] => .refl _
  | n :: rest => by
      have hn := List.perm_iff_count.mp (childIds_perm n)
      have hrest := List.perm_iff_count.mp (childIds_perm_in rest)
      rw [List.perm_iff_count]
      intro i
      have h1 := hn i
      have h2 := hrest i
      rw [branchesIn_cons, List.flatMap_append, List.map_cons, idsIn_cons]
      simp only [List.count_append, List.count_cons, List.count_nil] at h1 h2 ⊢
      omega

end

/-! ## 3. Walks -/

mutual

/-- A walk comes to the nodes in pre-order. -/
theorem map_walk (path : Path) : ∀ n : Node, (n.walk path).map (·.2) = n.subtree
  | .leaf _ _ => rfl
  | .branch k l cs => by
      unfold walk subtree
      rw [List.map_cons, map_walks path 0 cs]

theorem map_walks (path : Path) : ∀ (index : Nat) (ns : List Node),
    (walks path index ns).map (·.2) = subtrees ns
  | _, [] => rfl
  | index, n :: rest => by
      unfold walks subtrees
      rw [List.map_append, map_walk (path.child index) n, map_walks path (index + 1) rest]

end

end Node

namespace Branch

theorem mem_childIds {b : Branch} {i : Nat} {n : Node} (h : b.children[i]? = some n) :
    n.id ∈ b.childIds :=
  List.mem_map_of_mem (List.mem_of_getElem? h)

/-- A child that is found is there. -/
theorem childIndex?_eq_some {b : Branch} {id : NodeId} {i : Nat} (h : b.childIndex? id = some i) :
    ∃ n, b.children[i]? = some n ∧ n.id = id := by
  obtain ⟨hi, hid, -⟩ := List.findIdx?_eq_some_iff_getElem.mp h
  exact ⟨_, List.getElem?_eq_getElem hi, beq_iff_eq.mp hid⟩

/-- Among children with distinct numbers each is found where it is. -/
theorem childIndex?_of_nodup {b : Branch} (hd : b.childIds.Nodup) {i : Nat} {n : Node}
    (h : b.children[i]? = some n) : b.childIndex? n.id = some i := by
  obtain ⟨hi, hn⟩ := List.getElem?_eq_some_iff.mp h
  refine List.findIdx?_eq_some_iff_getElem.mpr ⟨hi, beq_iff_eq.mpr (congrArg Node.id hn), ?_⟩
  intro j hj he
  have hlt : j < b.children.length := Nat.lt_trans hj hi
  have hj' : b.childIds[j]? = some n.id := by
    unfold childIds
    rw [List.getElem?_map, List.getElem?_eq_getElem hlt]
    exact congrArg some (beq_iff_eq.mp he)
  have hi' : b.childIds[i]? = some n.id := by
    unfold childIds
    rw [List.getElem?_map, h]
    rfl
  have hlen : j < b.childIds.length := by
    unfold childIds
    rw [List.length_map]
    exact hlt
  have hji : j = i := (List.getElem?_inj hlen hd).mp (hj'.trans hi'.symm)
  omega

end Branch

namespace Tree

/-! ## 4. Look-ups -/

variable {t : Tree} {b : Branch} {n : Node}

theorem mem_branches : b ∈ t.branches ↔ b.node ∈ t.nodes := by
  unfold branches
  rw [List.mem_filterMap]
  constructor
  · rintro ⟨m, hm, hb⟩
    rw [← Node.eq_of_branch? hb]
    exact hm
  · intro h
    exact ⟨b.node, h, rfl⟩

/-- A branch that is found is one of the tree's. -/
theorem mem_branches_of_find? {id : NodeId} (h : t.find? id = some b.node) : b ∈ t.branches :=
  mem_branches.mpr (List.mem_of_find?_eq_some h)

/-- The children of the branches are nodes of the tree. -/
theorem child_mem_nodes (hb : b ∈ t.branches) {i : Nat} (hn : b.children[i]? = some n) :
    n ∈ t.nodes :=
  Node.mem_subtree_trans (mem_branches.mp hb) (Node.child_mem_subtree (List.mem_of_getElem? hn))

/-- A parent that is found has the child where it is said to be. -/
theorem parentOf?_eq_some {id : NodeId} {i : Nat} (h : t.parentOf? id = some (b, i)) :
    b ∈ t.branches ∧ ∃ n, b.children[i]? = some n ∧ n.id = id := by
  obtain ⟨b', hb', hi⟩ := List.exists_of_findSome?_eq_some h
  obtain ⟨i', hi', he⟩ := Option.map_eq_some_iff.mp hi
  cases he
  exact ⟨hb', Branch.childIndex?_eq_some hi'⟩

/-- A number that a tree does not have is not found in it. -/
theorem find?_of_not_mem {t : Tree} {id : NodeId} (h : id ∉ t.ids) : t.find? id = none := by
  refine List.find?_eq_none.mpr fun n hn he => h ?_
  rw [← beq_iff_eq.mp he]
  exact List.mem_map_of_mem (f := Node.id) hn

/-- A number that a tree does not have is no child's. -/
theorem parentOf?_of_not_mem {t : Tree} {id : NodeId} (h : id ∉ t.ids) : t.parentOf? id = none := by
  cases hp : t.parentOf? id with
  | none => rfl
  | some found =>
    obtain ⟨hb, n, hn, hid⟩ := parentOf?_eq_some hp
    have hm := List.mem_map_of_mem (f := Node.id) (child_mem_nodes hb hn)
    rw [hid] at hm
    exact absurd hm h

section Distinct

variable (hd : t.ids.Nodup)

include hd

theorem find?_of_mem (hn : n ∈ t.nodes) : t.find? n.id = some n :=
  Node.find?_of_nodup hd hn

/-- A branch is found by its number. -/
theorem find?_branch (hb : b ∈ t.branches) : t.find? b.id = some b.node :=
  find?_of_mem hd (mem_branches.mp hb)

theorem nodup_childIds : (t.branches.flatMap Branch.childIds).Nodup := by
  have hp := (Node.childIds_perm t.root.node).nodup_iff.mpr hd
  exact (List.nodup_append.mp hp).1

/-- A number is the number of a child of one branch only. -/
theorem branch_unique {b' : Branch} (hb : b ∈ t.branches) (hb' : b' ∈ t.branches) {id : NodeId}
    (h : id ∈ b.childIds) (h' : id ∈ b'.childIds) : b = b' := by
  have hpair := (List.nodup_flatMap.mp (nodup_childIds hd)).2
  have hsymm : Std.Symm (Function.onFun List.Disjoint Branch.childIds) :=
    ⟨fun _ _ h => List.disjoint_symm h⟩
  by_contra hne
  exact hpair.forall hb hb' hne h h'

/-- **The parent of a node is the branch that has it as a child.** -/
theorem parentOf?_of_child (hb : b ∈ t.branches) {i : Nat} (hn : b.children[i]? = some n) :
    t.parentOf? n.id = some (b, i) := by
  have hchildren := (List.nodup_flatMap.mp (nodup_childIds hd)).1
  have hi := Branch.childIndex?_of_nodup (hchildren b hb) hn
  unfold parentOf?
  cases hf : t.branches.findSome? fun b => (b.childIndex? n.id).map fun i => (b, i) with
  | none =>
    have hno := List.findSome?_eq_none_iff.mp hf b hb
    rw [hi] at hno
    cases hno
  | some found =>
    obtain ⟨b', hb', he⟩ := List.exists_of_findSome?_eq_some hf
    obtain ⟨i', hi', rfl⟩ := Option.map_eq_some_iff.mp he
    obtain ⟨n', hn', hid⟩ := Branch.childIndex?_eq_some hi'
    have hmem : n.id ∈ b'.childIds := hid ▸ Branch.mem_childIds hn'
    obtain rfl : b = b' := branch_unique hd hb hb' (Branch.mem_childIds hn) hmem
    rw [hi] at hi'
    cases hi'
    rfl

/-- **The path of a node is the one on which a walk comes to it.** -/
theorem pathOf?_of_mem {p : Path} (hn : (p, n) ∈ t.descendants) : t.pathOf? n.id = some p := by
  obtain ⟨hroot, hbelow⟩ : t.root.id ∉ Node.idsIn t.root.children ∧
      (Node.idsIn t.root.children).Nodup := List.nodup_cons.mp hd
  have hmap : t.descendants.map (fun e => e.2.id) = Node.idsIn t.root.children := by
    unfold Node.idsIn
    rw [← Node.map_walks .root 0 t.root.children, List.map_map]
    rfl
  have hid : n.id ∈ Node.idsIn t.root.children := by
    rw [← hmap]
    exact List.mem_map_of_mem (f := fun e : Path × Node => e.2.id) hn
  have hne : t.root.id ≠ n.id := by
    intro e
    exact hroot (e ▸ hid)
  have hfind := Node.find?_of_nodup (f := fun e : Path × Node => e.2.id) (hmap ▸ hbelow) hn
  unfold pathOf?
  rw [if_neg hne, hfind]
  rfl

end Distinct

/-! ## 5. Sessions -/

theorem numbered_ofMetadata (m : Metadata) : (Tree.ofMetadata m).Numbered :=
  InOrder.numbered rfl

end Tree

namespace Session

theorem lasting_numbered : Lasting fun s => s.tree.Numbered :=
  lasting_tree (fun ht h => ht.done h) (fun h => (Markup.inOrder_of_read h).numbered)
    Tree.numbered_ofMetadata

theorem Opened.numbered {s : Session} (h : s.Opened) : s.tree.Numbered :=
  h.tree (fun h => (Markup.inOrder_of_read h).numbered) Tree.numbered_ofMetadata

end Session

end Dialplan
