import Dialplan.Proofs.Search
/-!
# Places

A tree can be asked for a node by its number, for the place of a number, for the node at a place and
for the branch that owns a number. In a tree with distinct numbers all of these tell of one tree.

* `Node.mem_walk`: a walk pairs every path with the node that the path leads to;
* `Node.pairwise_walk`: it comes to the places in the order of their paths, which is pre-order;
* `Tree.contains_iff_startsWith`: one node stands below another where the path of the one begins
  with the path of the other;
* `Tree.lookUps`: **all look-ups agree**.
-/

namespace Dialplan

open Dialplan.Tree (nodeFrom?)

/-! ## 1. Ways down -/

namespace Node

theorem nodeFrom?_cons_eq_some {n m : Node} {i : Nat} {is : List Nat} :
    nodeFrom? n (i :: is) = some m ↔ ∃ c, n.children[i]? = some c ∧ nodeFrom? c is = some m :=
  Option.bind_eq_some_iff

/-- A way down goes on from where its beginning leads. -/
theorem nodeFrom?_append (is js : List Nat) : ∀ n : Node,
    nodeFrom? n (is ++ js) = (nodeFrom? n is).bind fun m => nodeFrom? m js := by
  induction is with
  | nil => exact fun n => rfl
  | cons i is ih =>
    intro n
    show (n.children[i]?).bind _ = ((n.children[i]?).bind _).bind _
    cases n.children[i]? with
    | none => rfl
    | some c => exact ih c

/-! ## 2. Walks -/

section Walks

variable {m : Node} {q : Path}

theorem walk_eq (path : Path) (n : Node) : n.walk path = (path, n) :: walks path 0 n.children := by
  cases n <;> rfl

mutual

/-- **A walk pairs each path with the node that it leads to.** -/
theorem mem_walk : ∀ {n : Node} {path : Path}, (q, m) ∈ n.walk path ↔
    ∃ is, q = ⟨path.indices ++ is⟩ ∧ nodeFrom? n is = some m
  | .leaf k l, path => by
      constructor
      · intro h
        obtain ⟨rfl, rfl⟩ := Prod.mk.inj (List.mem_singleton.mp h)
        exact ⟨[], by rw [List.append_nil], rfl⟩
      · rintro ⟨is, rfl, h⟩
        cases is with
        | nil =>
          cases h
          rw [List.append_nil]
          exact List.mem_singleton_self _
        | cons i is => cases h
  | .branch k l cs, path => by
      have hin := @mem_walks cs path 0
      rw [walk_eq, List.mem_cons, Node.children, hin]
      constructor
      · rintro (h | ⟨j, c, is, hc, rfl, h⟩)
        · obtain ⟨rfl, rfl⟩ := Prod.mk.inj h
          exact ⟨[], by rw [List.append_nil], rfl⟩
        · rw [Nat.zero_add]
          exact ⟨j :: is, rfl, nodeFrom?_cons_eq_some.mpr ⟨c, hc, h⟩⟩
      · rintro ⟨is, rfl, h⟩
        cases is with
        | nil =>
          cases h
          rw [List.append_nil]
          exact .inl rfl
        | cons j is =>
          obtain ⟨c, hc, h⟩ := nodeFrom?_cons_eq_some.mp h
          exact .inr ⟨j, c, is, hc, by rw [Nat.zero_add], h⟩

theorem mem_walks : ∀ {ns : List Node} {path : Path} {index : Nat},
    (q, m) ∈ walks path index ns ↔ ∃ j c is, ns[j]? = some c ∧
      q = ⟨path.indices ++ (index + j) :: is⟩ ∧ nodeFrom? c is = some m
  | [], _, _ => by
      constructor
      · exact fun h => absurd h List.not_mem_nil
      · rintro ⟨j, c, is, hc, -⟩
        cases hc
  | n :: rest, path, index => by
      have hn := @mem_walk n (path.child index)
      have hrest := @mem_walks rest path (index + 1)
      unfold walks
      rw [List.mem_append, hn, hrest]
      constructor
      · rintro (⟨is, rfl, h⟩ | ⟨j, c, is, hc, rfl, h⟩)
        · refine ⟨0, n, is, rfl, ?_, h⟩
          show Path.mk ((path.indices ++ [index]) ++ is) = _
          rw [List.append_assoc]
          rfl
        · refine ⟨j + 1, c, is, hc, ?_, h⟩
          rw [Nat.add_assoc, Nat.add_comm 1 j]
      · rintro ⟨j, c, is, hc, rfl, h⟩
        cases j with
        | zero =>
          cases hc
          refine .inl ⟨is, ?_, h⟩
          show _ = Path.mk ((path.indices ++ [index]) ++ is)
          rw [List.append_assoc]
          rfl
        | succ j =>
          refine .inr ⟨j, c, is, hc, ?_, h⟩
          rw [Nat.add_assoc, Nat.add_comm 1 j]

end

/-- One node stands below another where a way down leads from the other to it. -/
theorem mem_subtree_iff_nodeFrom? {n : Node} : m ∈ n.subtree ↔ ∃ is, nodeFrom? n is = some m := by
  rw [← map_walk .root n, List.mem_map]
  constructor
  · rintro ⟨⟨q, x⟩, hx, rfl⟩
    obtain ⟨is, -, h⟩ := mem_walk.mp hx
    exact ⟨is, h⟩
  · rintro ⟨is, h⟩
    exact ⟨(⟨is⟩, m), mem_walk.mpr ⟨is, rfl, h⟩, rfl⟩

mutual

/-- **A walk comes to the places in the order of their paths**: to a node before all that stands
    below it, and to that before the next of its siblings. -/
theorem pairwise_walk : ∀ (n : Node) (path : Path),
    (n.walk path).Pairwise fun d e => d.1.indices < e.1.indices
  | .leaf _ _, _ => List.pairwise_singleton _ _
  | .branch k l cs, path => by
      rw [walk_eq, List.pairwise_cons]
      refine ⟨fun e he => ?_, pairwise_walks cs path 0⟩
      obtain ⟨j, c, is, -, hq, -⟩ := mem_walks.mp (show (e.1, e.2) ∈ _ from he)
      rw [hq]
      have hlt : ([] : List Nat) < (0 + j) :: is := List.Lex.nil
      have h : path.indices ++ [] < path.indices ++ (0 + j) :: is := List.append_left_lt hlt
      rw [List.append_nil] at h
      exact h

theorem pairwise_walks : ∀ (ns : List Node) (path : Path) (index : Nat),
    (walks path index ns).Pairwise fun d e => d.1.indices < e.1.indices
  | [], _, _ => List.Pairwise.nil
  | n :: rest, path, index => by
      unfold walks
      refine List.pairwise_append.mpr ⟨pairwise_walk n _, pairwise_walks rest path _, ?_⟩
      intro d hd e he
      obtain ⟨is, hp, -⟩ := mem_walk.mp (show (d.1, d.2) ∈ _ from hd)
      obtain ⟨j, c, js, -, hq, -⟩ := mem_walks.mp (show (e.1, e.2) ∈ _ from he)
      rw [hp, hq]
      show (path.indices ++ [index]) ++ is < _
      rw [List.append_assoc]
      refine List.append_left_lt (List.Lex.rel ?_)
      omega

end

end Walks

end Node

namespace Tree

variable {t : Tree} {p q : Path} {n m : Node} {id : NodeId}

/-! ## 3. The places of a tree -/

/-- The places of a tree, the root's first. -/
def places (t : Tree) : List (Path × Node) := (.root, t.root.node) :: t.descendants

theorem places_eq_walk (t : Tree) : t.places = t.root.node.walk .root := rfl

theorem mem_places : (p, n) ∈ t.places ↔ t.nodeAt? p = some n := by
  rw [places_eq_walk, Node.mem_walk]
  constructor
  · rintro ⟨is, rfl, h⟩
    exact h
  · intro h
    exact ⟨p.indices, rfl, h⟩

/-- Every node has a place. -/
theorem mem_nodes_iff : n ∈ t.nodes ↔ ∃ p, t.nodeAt? p = some n := by
  unfold nodes
  rw [Node.mem_subtree_iff_nodeFrom?]
  exact ⟨fun ⟨is, h⟩ => ⟨⟨is⟩, h⟩, fun ⟨p, h⟩ => ⟨p.indices, h⟩⟩

/-- The place of a child is that of its parent and its index. -/
theorem nodeAt?_child {i : Nat} :
    t.nodeAt? (p.child i) = some n ↔ ∃ m, t.nodeAt? p = some m ∧ m.children[i]? = some n := by
  unfold nodeAt?
  show nodeFrom? t.root.node (p.indices ++ [i]) = some n ↔ _
  rw [Node.nodeFrom?_append, Option.bind_eq_some_iff]
  refine exists_congr fun m => and_congr_right fun _ => ?_
  rw [Node.nodeFrom?_cons_eq_some]
  constructor
  · rintro ⟨c, hc, h⟩
    cases h
    exact hc
  · intro h
    exact ⟨n, h, rfl⟩

/-- The path of a number is that of the first place that has it. -/
theorem pathOf?_eq (t : Tree) (id : NodeId) :
    t.pathOf? id = (Node.placeIn? t.places id).map (·.1) := by
  rw [places_eq_walk, Node.placeIn?_walk]
  unfold pathOf?
  by_cases h : t.root.id = id
  · rw [if_pos h, if_pos (show t.root.node.id = id from h)]
    rfl
  · rw [if_neg h, if_neg (show t.root.node.id ≠ id from h)]
    rfl

/-! ## 4. Distinct numbers -/

section Distinct

variable (hd : t.ids.Nodup)

include hd

theorem eq_of_id (hn : n ∈ t.nodes) (hm : m ∈ t.nodes) (h : n.id = m.id) : n = m :=
  List.inj_on_of_nodup_map hd hn hm h

theorem branch_eq_of_id {b b' : Branch} (hb : b ∈ t.branches) (hb' : b' ∈ t.branches)
    (h : b.id = b'.id) : b = b' :=
  Branch.node_inj (eq_of_id hd (mem_branches.mp hb) (mem_branches.mp hb') h)

/-- **The path of a number is where the node with the number stands.** -/
theorem pathOf?_eq_some_iff (hn : n ∈ t.nodes) :
    t.pathOf? n.id = some p ↔ t.nodeAt? p = some n := by
  rw [pathOf?_eq]
  constructor
  · intro h
    obtain ⟨⟨p', m⟩, hm, rfl⟩ := Option.map_eq_some_iff.mp h
    have hat : t.nodeAt? p' = some m := mem_places.mp (List.mem_of_find?_eq_some hm)
    have hid := List.find?_some (p := fun e : Path × Node => e.2.id == n.id) hm
    rw [hat, eq_of_id hd (mem_nodes_iff.mpr ⟨p', hat⟩) hn (beq_iff_eq.mp hid)]
  · intro h
    have hmap : t.places.map (fun e => e.2.id) = t.ids := by
      unfold ids Node.ids
      rw [places_eq_walk, ← Node.map_walk .root t.root.node, List.map_map]
      rfl
    have hfind := Node.find?_of_nodup (f := fun e : Path × Node => e.2.id)
      (hmap.symm ▸ hd) (mem_places.mpr h)
    unfold Node.placeIn?
    rw [hfind]
    rfl

/-- **The parent of a node stands at the path of the node without its last index**, which is the
    index of the node. -/
theorem exists_parent (hn : n ∈ t.nodes) (hroot : n.id ≠ t.root.id) :
    ∃ p i b, t.pathOf? n.id = some (Path.child p i) ∧ t.nodeAt? p = some (Branch.node b) ∧
      t.parentOf? n.id = some (b, i) := by
  obtain ⟨q, hq⟩ := mem_nodes_iff.mp hn
  obtain ⟨is, hlast⟩ : ∃ p i, q = Path.child p i := by
    obtain ⟨is⟩ := q
    rcases List.eq_nil_or_concat is with rfl | ⟨js, j, rfl⟩
    · cases hq
      exact absurd rfl hroot
    · exact ⟨⟨js⟩, j, by rw [List.concat_eq_append]; rfl⟩
  obtain ⟨i, rfl⟩ := hlast
  obtain ⟨m, hm, hc⟩ := nodeAt?_child.mp hq
  obtain ⟨b, rfl⟩ : ∃ b : Branch, m = b.node := by
    cases m with
    | leaf k l => cases hc
    | branch k l cs => exact ⟨⟨k, l, cs⟩, rfl⟩
  have hb : b ∈ t.branches := mem_branches.mpr (mem_nodes_iff.mpr ⟨is, hm⟩)
  exact ⟨is, i, b, (pathOf?_eq_some_iff hd hn).mpr hq, hm, parentOf?_of_child hd hb hc⟩

/-- Every node but the root is a child of a branch. -/
theorem exists_child (hn : n ∈ t.nodes) (hroot : n.id ≠ t.root.id) :
    ∃ b ∈ t.branches, ∃ i : Nat, b.children[i]? = some n := by
  obtain ⟨-, i, b, -, -, hp⟩ := exists_parent hd hn hroot
  obtain ⟨hb, m, hm, hid⟩ := parentOf?_eq_some hp
  obtain rfl : m = n := eq_of_id hd (child_mem_nodes hb hm) hn hid
  exact ⟨b, hb, i, hm⟩

/-- The root is no child. -/
theorem child_ne_root {b : Branch} (hb : b ∈ t.branches) {i : Nat} (hc : b.children[i]? = some n) :
    n.id ≠ t.root.id := by
  intro hid
  obtain ⟨q, hq⟩ := mem_nodes_iff.mp (mem_branches.mp hb)
  have hpath := (pathOf?_eq_some_iff hd (child_mem_nodes hb hc)).mpr
    (nodeAt?_child.mpr ⟨_, hq, hc⟩)
  have hroot : t.pathOf? t.root.id = some .root := if_pos rfl
  rw [hid, hroot] at hpath
  have hnil := congrArg Path.indices (Option.some.inj hpath)
  exact absurd hnil.symm (List.append_ne_nil_of_right_ne_nil _ (List.cons_ne_nil _ _))

/-- A node holds the number of another where that one stands below it. -/
theorem contains_iff_mem_subtree (hn : n ∈ t.nodes) (hm : m ∈ t.nodes) :
    n.contains m.id = true ↔ m ∈ n.subtree := by
  constructor
  · intro h
    obtain ⟨x, hx, hid⟩ := List.any_eq_true.mp h
    rw [← eq_of_id hd (Node.mem_subtree_trans hn hx) hm (beq_iff_eq.mp hid)]
    exact hx
  · intro h
    exact List.any_eq_true.mpr ⟨m, h, beq_self_eq_true _⟩

/-- **One node stands below another where its path begins with the path of the other.** -/
theorem contains_iff_startsWith (hn : n ∈ t.nodes) (hm : m ∈ t.nodes)
    (hp : t.pathOf? n.id = some p) (hq : t.pathOf? m.id = some q) :
    n.contains m.id = true ↔ q.startsWith p = true := by
  have hat := (pathOf?_eq_some_iff hd hn).mp hp
  have hat' := (pathOf?_eq_some_iff hd hm).mp hq
  have hdown : ∀ is, t.nodeAt? ⟨p.indices ++ is⟩ = nodeFrom? n is := by
    intro is
    have happ := Node.nodeFrom?_append p.indices is t.root.node
    unfold nodeAt? at hat ⊢
    rw [happ, hat]
    rfl
  unfold Path.startsWith
  rw [contains_iff_mem_subtree hd hn hm, Node.mem_subtree_iff_nodeFrom?,
    List.isPrefixOf_iff_prefix]
  constructor
  · rintro ⟨is, his⟩
    have hpath := (pathOf?_eq_some_iff hd hm).mpr ((hdown is).trans his)
    rw [hq] at hpath
    exact ⟨is, congrArg Path.indices (Option.some.inj hpath.symm)⟩
  · rintro ⟨is, his⟩
    refine ⟨is, ?_⟩
    rw [← hdown is, his]
    exact hat'

/-- **Two nodes stand one below the other, or nothing stands below both.** -/
theorem nested_of_mem_ids (hn : n ∈ t.nodes) (hm : m ∈ t.nodes) (h : id ∈ n.ids)
    (h' : id ∈ m.ids) : m ∈ n.subtree ∨ n ∈ m.subtree := by
  obtain ⟨x, hx, rfl⟩ := List.mem_map.mp h
  obtain ⟨y, hy, hid⟩ := List.mem_map.mp h'
  have hxt := Node.mem_subtree_trans hn hx
  obtain rfl : y = x := eq_of_id hd (Node.mem_subtree_trans hm hy) hxt hid
  have place : ∀ {z : Node}, z ∈ t.nodes → ∃ p, t.pathOf? z.id = some p := fun hz => by
    obtain ⟨p, hp⟩ := mem_nodes_iff.mp hz
    exact ⟨p, (pathOf?_eq_some_iff hd hz).mpr hp⟩
  obtain ⟨p, hp⟩ := place hn
  obtain ⟨q, hq⟩ := place hm
  obtain ⟨r, hr⟩ := place hxt
  -- both paths are beginnings of one, so one of them is a beginning of the other
  have hpr := (contains_iff_startsWith hd hn hxt hp hr).mp
    ((contains_iff_mem_subtree hd hn hxt).mpr hx)
  have hqr := (contains_iff_startsWith hd hm hxt hq hr).mp
    ((contains_iff_mem_subtree hd hm hxt).mpr hy)
  rw [← contains_iff_mem_subtree hd hn hm, ← contains_iff_mem_subtree hd hm hn,
    contains_iff_startsWith hd hn hm hp hq, contains_iff_startsWith hd hm hn hq hp]
  unfold Path.startsWith at hpr hqr ⊢
  rw [List.isPrefixOf_iff_prefix] at hpr hqr ⊢
  rw [List.isPrefixOf_iff_prefix]
  exact List.prefix_or_prefix_of_prefix hpr hqr

/-- What stands below the root is every node but the root. -/
theorem mem_below_iff : n ∈ Node.subtrees t.root.children ↔ n ∈ t.nodes ∧ n.id ≠ t.root.id := by
  have hroot : t.root.id ∉ Node.idsIn t.root.children := (List.nodup_cons.mp hd).1
  constructor
  · intro h
    refine ⟨List.mem_cons_of_mem _ h, fun e => hroot ?_⟩
    rw [← e]
    exact List.mem_map_of_mem h
  · rintro ⟨h, hne⟩
    rcases List.mem_cons.mp h with rfl | h
    · exact absurd rfl hne
    · exact h

theorem node?_of_mem (hn : n ∈ t.nodes) :
    t.node? n.id = if n.id = t.root.id then none else some n := by
  unfold node? Node.findIn?
  split
  · rename_i h
    refine List.find?_eq_none.mpr fun m hm he => ?_
    exact ((mem_below_iff hd).mp hm).2 ((beq_iff_eq.mp he).trans h)
  · rename_i h
    exact Node.find?_of_nodup (List.nodup_cons.mp hd).2 ((mem_below_iff hd).mpr ⟨hn, h⟩)

/-- **The walk below the root comes to every other node, on its path.** -/
theorem mem_descendants_iff : (p, n) ∈ t.descendants ↔
    n ∈ t.nodes ∧ n.id ≠ t.root.id ∧ t.pathOf? n.id = some p := by
  constructor
  · intro h
    have hbelow : n ∈ Node.subtrees t.root.children := by
      rw [← Node.map_walks .root 0 t.root.children]
      exact List.mem_map_of_mem (f := (·.2)) h
    obtain ⟨hn, hne⟩ := (mem_below_iff hd).mp hbelow
    exact ⟨hn, hne, pathOf?_of_mem hd h⟩
  · rintro ⟨hn, hne, hp⟩
    have hat : (p, n) ∈ t.places := mem_places.mpr ((pathOf?_eq_some_iff hd hn).mp hp)
    rcases List.mem_cons.mp hat with h | h
    · cases h
      exact absurd rfl hne
    · exact h

end Distinct

/-! ## 5. All look-ups -/

/-- A number that a tree does not have has no path. -/
theorem pathOf?_of_not_mem (h : id ∉ t.ids) : t.pathOf? id = none := by
  have hfind : Node.placeIn? t.places id = none := by
    refine List.find?_eq_none.mpr fun e he hid => h ?_
    have hn : e.2 ∈ t.nodes := mem_nodes_iff.mpr ⟨e.1, mem_places.mp he⟩
    rw [← beq_iff_eq.mp hid]
    exact List.mem_map_of_mem hn
  rw [pathOf?_eq, hfind]
  rfl

theorem not_contains_of_not_mem (h : id ∉ t.ids) (hn : n ∈ t.nodes) : n.contains id = false := by
  rw [← Bool.not_eq_true]
  intro hc
  obtain ⟨m, hm, hid⟩ := List.any_eq_true.mp hc
  rw [← beq_iff_eq.mp hid] at h
  exact h (List.mem_map_of_mem (Node.mem_subtree_trans hn hm))

/-- **All look-ups tell of one tree.** -/
structure LookUps (t : Tree) : Prop where
  /-- Every node has a path, which leads to it. -/
  path : ∀ n ∈ t.nodes, ∃ p, t.pathOf? n.id = some p ∧ t.nodeAt? p = some n
  /-- What a path leads to is a node with that path. -/
  nodeAt : ∀ p n, t.nodeAt? p = some n → n ∈ t.nodes ∧ t.pathOf? n.id = some p
  found : ∀ n ∈ t.nodes, t.find? n.id = some n
  branch : ∀ n ∈ t.nodes, t.branch? n.id = n.branch?
  node : ∀ n ∈ t.nodes, t.node? n.id = if n.id = t.root.id then none else some n
  /-- The parent is the branch at the path without its last index, which is the child's index. -/
  parent : ∀ n ∈ t.nodes, n.id ≠ t.root.id → ∃ p q i b, t.pathOf? n.id = some p ∧
    p.parent? = some q ∧ p.index? = some i ∧ t.nodeAt? q = some (Branch.node b) ∧
    t.parentOf? n.id = some (b, i)
  root : t.parentOf? t.root.id = none
  /-- The walk comes to every node but the root, on its path, -/
  walk : ∀ p n, (p, n) ∈ t.descendants ↔
    n ∈ t.nodes ∧ n.id ≠ t.root.id ∧ t.pathOf? n.id = some p
  /-- once, and in pre-order: a node before all below it, and that before its later siblings. -/
  ordered : t.descendants.Pairwise fun d e => d.1.indices < e.1.indices
  size : t.size = t.descendants.length + 1
  contains : ∀ a ∈ t.nodes, ∀ b ∈ t.nodes, ∀ p q, t.pathOf? a.id = some p →
    t.pathOf? b.id = some q → (a.contains b.id = true ↔ q.startsWith p = true)
  /-- A number that the tree does not have is found nowhere. -/
  absent : ∀ id, id ∉ t.ids → t.find? id = none ∧ t.node? id = none ∧ t.branch? id = none ∧
    t.parentOf? id = none ∧ t.pathOf? id = none ∧ ∀ n ∈ t.nodes, n.contains id = false
  /-- So it is when the nodes are searched step by step. -/
  searched : ∀ id, t.seek? id = t.find? id ∧ Node.among? id t.root.children = t.node? id ∧
    t.route? id = t.pathOf? id ∧ t.root.node.holder? id = t.parentOf? id ∧
    ∀ n : Node, n.holds id = n.contains id
  stepped : t.walked = t.descendants ∧ t.root.node.count = t.size

/-- **In a tree with distinct numbers all look-ups agree.** -/
theorem lookUps (hd : t.ids.Nodup) : t.LookUps where
  path n hn := by
    obtain ⟨p, hp⟩ := mem_nodes_iff.mp hn
    exact ⟨p, (pathOf?_eq_some_iff hd hn).mpr hp, hp⟩
  nodeAt p n hp := by
    have hn : n ∈ t.nodes := mem_nodes_iff.mpr ⟨p, hp⟩
    exact ⟨hn, (pathOf?_eq_some_iff hd hn).mpr hp⟩
  found n hn := find?_of_mem hd hn
  branch n hn := by
    unfold branch?
    rw [find?_of_mem hd hn]
    rfl
  node n hn := node?_of_mem hd hn
  parent n hn hroot := by
    obtain ⟨q, i, b, hp, hq, hb⟩ := exists_parent hd hn hroot
    exact ⟨q.child i, q, i, b, hp, Path.parent?_child q i, Path.index?_child q i, hq, hb⟩
  root := by
    cases hp : t.parentOf? t.root.id with
    | none => rfl
    | some found =>
      obtain ⟨hb, n, hc, hid⟩ := parentOf?_eq_some hp
      exact absurd hid (child_ne_root hd hb hc)
  walk p n := mem_descendants_iff hd
  ordered := Node.pairwise_walks _ _ _
  size := (Node.length_walk .root t.root.node).symm
  contains a ha b hb p q hp hq := contains_iff_startsWith hd ha hb hp hq
  absent id h := by
    have hfind := find?_of_not_mem h
    refine ⟨hfind, ?_, ?_, parentOf?_of_not_mem h, pathOf?_of_not_mem h,
      fun n hn => not_contains_of_not_mem h hn⟩
    · refine List.find?_eq_none.mpr fun m hm => ?_
      exact List.find?_eq_none.mp hfind m (List.mem_cons_of_mem _ hm)
    · unfold branch?
      rw [hfind]
      rfl
  searched id := ⟨t.seek?_eq id, Node.among?_eq id _, t.route?_eq id, t.holder?_eq id,
    fun n => n.holds_eq id⟩
  stepped := ⟨t.walked_eq, Node.count_eq _⟩

/-- A condition with an action and, in it, a condition of regexes; after it another action. -/
def nestedTree : Tree :=
  ⟨⟨.extension, .new ⟨1⟩ .extension,
    [.branch .condition (.new ⟨2⟩ .condition)
      [.leaf .action (.new ⟨3⟩ .action),
        .branch .regexCondition (.new ⟨4⟩ .regexCondition) [.leaf .regex (.new ⟨5⟩ .regex)]],
      .leaf .antiAction (.new ⟨6⟩ .antiAction)]⟩, 6⟩

/-- The regex at the third level: its path, and the condition that owns it. -/
theorem lookUps_nestedTree : nestedTree.ids.Nodup ∧ nestedTree.LookUps ∧
    nestedTree.pathOf? ⟨5⟩ = some ⟨[0, 1, 0]⟩ ∧
    (nestedTree.parentOf? ⟨5⟩).map (fun e => (e.1.id, e.2)) = some (⟨4⟩, 0) ∧
    nestedTree.descendants.map (fun e => e.2.id) = [⟨2⟩, ⟨3⟩, ⟨4⟩, ⟨5⟩, ⟨6⟩] := by
  have hd : nestedTree.ids.Nodup := by decide
  exact ⟨hd, lookUps hd, rfl, rfl, rfl⟩

end Tree

end Dialplan
