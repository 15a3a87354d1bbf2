import Dialplan.Proofs.Lookup
import Mathlib.Data.List.InsertIdx
/-!
# What a move does

A move takes a node out of one list of children and puts it into another, which may be the same
list, or one above it, below it or beside it. With the node cut out, the tree before and the tree
after are one tree.

* `Node.without`, `Tree.without`: what is left when a number is cut out with all that stands below
  it; a change that shows only in what is cut out leaves the same (`Tree.without_regrow`);
* `Tree.regrow_eraseIdx`, `Edit.apply_removeChild`: in a tree with distinct numbers this is the tree
  after a child was taken out;
* `Edit.apply_moveNode`: the moved node is as it was, so is the rest, and where the node stands now.
-/

namespace Dialplan

/-! ## 1. Cutting out -/

namespace Node

mutual

/-- A node without the nodes of number `id` below it and all that stands below those. -/
def without (id : NodeId) : Node → Node
  | .leaf k l => .leaf k l
  | .branch k l cs => .branch k l (withoutIn id cs)

/-- The nodes of a list that do not have the number `id`, each without what has it below. -/
def withoutIn (id : NodeId) : List Node → List Node
  | [] => []
  | n :: rest => if n.id = id then withoutIn id rest else n.without id :: withoutIn id rest

end

variable {id : NodeId}

theorem withoutIn_cons_of_eq {n : Node} (h : n.id = id) (rest : List Node) :
    withoutIn id (n :: rest) = withoutIn id rest := if_pos h

theorem withoutIn_cons_of_ne {n : Node} (h : n.id ≠ id) (rest : List Node) :
    withoutIn id (n :: rest) = n.without id :: withoutIn id rest := if_neg h

theorem withoutIn_append (id : NodeId) : ∀ ns ms : List Node,
    withoutIn id (ns ++ ms) = withoutIn id ns ++ withoutIn id ms
  | [], _ => rfl
  | n :: rest, ms => by
      have ih := withoutIn_append id rest ms
      by_cases h : n.id = id
      · rw [List.cons_append, withoutIn_cons_of_eq h, withoutIn_cons_of_eq h, ih]
      · rw [List.cons_append, withoutIn_cons_of_ne h, withoutIn_cons_of_ne h, ih,
          List.cons_append]

/-- Whether a node stands in a list does not show once it is cut out. -/
theorem withoutIn_eraseIdx {ns : List Node} {index : Nat} {n : Node} (h : ns[index]? = some n) :
    withoutIn n.id (ns.eraseIdx index) = withoutIn n.id ns := by
  have hsplit : ns = ns.take index ++ n :: ns.drop (index + 1) := by
    rw [← (List.getElem?_eq_some_iff.mp h).2, List.getElem_cons_drop, List.take_append_drop]
  conv => rhs; rw [hsplit]
  rw [List.eraseIdx_eq_take_drop_succ, withoutIn_append, withoutIn_append,
    withoutIn_cons_of_eq rfl]

mutual

theorem without_eq_self : ∀ {n : Node}, id ∉ n.ids → n.without id = n
  | .leaf _ _, _ => rfl
  | .branch k l cs, h => by
      unfold without
      rw [withoutIn_eq_self fun hm => h (List.mem_cons_of_mem _ hm)]

/-- Where nothing has the number, nothing is cut out. -/
theorem withoutIn_eq_self : ∀ {ns : List Node}, id ∉ idsIn ns → withoutIn id ns = ns
  | [], _ => rfl
  | n :: rest, h => by
      rw [idsIn_cons, List.mem_append, not_or] at h
      have hne : n.id ≠ id := by
        rintro rfl
        exact h.1 (List.mem_map_of_mem n.self_mem_subtree)
      rw [withoutIn_cons_of_ne hne, without_eq_self h.1, withoutIn_eq_self h.2]

end

/-- What is left of the whole is the same if the same is left of the replaced node. -/
theorem Replaced.without_eq {m m' n n' : Node} (h : Replaced m m' n n') (hid : m'.id = m.id)
    (hm : m'.without id = m.without id) : n'.without id = n.without id := by
  induction h with
  | here => exact hm
  | @inside k l before after x x' hr ih =>
    have hx : x'.id = x.id := hr.id_eq hid
    unfold without
    rw [withoutIn_append, withoutIn_append]
    by_cases hc : x.id = id
    · rw [withoutIn_cons_of_eq hc, withoutIn_cons_of_eq (hx.trans hc)]
    · rw [withoutIn_cons_of_ne hc, withoutIn_cons_of_ne (hx ▸ hc), ih]

end Node

namespace Tree

variable {t t' : Tree} {id parent : NodeId} {b : Branch}

/-- The tree without the nodes of number `id` below the root and all that stands below those. -/
def without (t : Tree) (id : NodeId) : Tree :=
  { t with root := { t.root with children := Node.withoutIn id t.root.children } }

/-- A list of children is changed, and the change does not show once the number is cut out. -/
theorem without_regrow (hb : t.find? parent = some b.node) {children : List Node → List Node}
    (hc : Node.withoutIn id (children b.children) = Node.withoutIn id b.children) :
    (t.regrow parent children).without id = t.without id := by
  obtain ⟨hput, hi⟩ := regrow_put hb children
  have hnode : (t.regrow parent children).root.node.without id = t.root.node.without id :=
    Node.Replaced.without_eq hput rfl (congrArg (Node.branch b.kind b.label) hc)
  injection hnode with hk hl hcs
  unfold Tree.without
  simp only [hk, hl, hcs, hi]

/-- **Taking a child out of a tree with distinct numbers cuts its number out.** -/
theorem regrow_eraseIdx (hd : t.ids.Nodup) (hb : t.find? parent = some b.node) {index : Nat}
    {n : Node} (hn : b.children[index]? = some n) :
    (t.regrow parent fun ns => ns.eraseIdx index) = t.without n.id := by
  have hleft : (t.regrow parent fun ns => ns.eraseIdx index).without n.id = t.without n.id :=
    without_regrow hb (Node.withoutIn_eraseIdx hn)
  have hids := Edit.ids_taken hn (regrow_put hb fun ns => ns.eraseIdx index).1
  have hout : n.id ∉ (t.regrow parent fun ns => ns.eraseIdx index).ids := fun hm =>
    (List.nodup_append.mp (hids.nodup_iff.mpr hd)).2.2 _
      (List.mem_map_of_mem n.self_mem_subtree) _ hm rfl
  rw [← hleft]
  unfold Tree.without
  rw [Node.withoutIn_eq_self fun hm => hout (List.mem_cons_of_mem _ hm)]

end Tree

namespace Edit

/-! ## 2. Putting in -/

section

variable {position : Option Nat} {ns : List Node}

/-- A node that is put into a list stands at the position, or at the end. -/
theorem getElem?_insertAt (n : Node) (hp : ∀ i, position = some i → i ≤ ns.length) :
    (insertAt position n ns)[position.getD ns.length]? = some n := by
  cases position with
  | none => exact List.getElem?_concat_length
  | some i => exact (List.getElem?_insertIdx_self).trans (if_pos (hp i rfl))

theorem eraseIdx_insertAt (position : Option Nat) (n : Node) (ns : List Node) :
    (insertAt position n ns).eraseIdx (position.getD ns.length) = ns := by
  cases position with
  | none =>
    show (ns ++ [n]).eraseIdx ns.length = ns
    rw [List.eraseIdx_append_of_length_le (Nat.le_refl _), Nat.sub_self]
    exact List.append_nil ns
  | some i => exact List.eraseIdx_insertIdx_self n

theorem length_insertAt (n : Node) (hp : ∀ i, position = some i → i ≤ ns.length) :
    (insertAt position n ns).length = ns.length + 1 := by
  cases position with
  | none => exact List.length_append
  | some i => exact List.length_insertIdx_of_le_length (hp i rfl) n

end

/-! ## 3. Moves -/

variable {t t' : Tree} {node fromParent : NodeId} {fromIndex : Nat} {destination : Destination}

/-- An edit that gives out no number keeps the numbers distinct. -/
theorem Done.distinct {e : Edit} {c : Option NodeId} (h : Done t e t' c)
    (hi : t'.issued = t.issued) (hd : t.ids.Nodup) : t'.ids.Nodup := by
  obtain ⟨-, gone, hp⟩ := h.ids
  rw [hi, minted_self] at hp
  exact (List.nodup_append.mp (hp.nodup_iff.mpr hd)).2.1

/-- A child that is there can be removed, and that cuts its number out. -/
theorem apply_removeChild (hd : t.ids.Nodup) {parent : NodeId} {b : Branch} {index : Nat}
    {n : Node} (hb : t.find? parent = some b.node) (hn : b.children[index]? = some n) :
    apply t (.removeChild parent index) = .ok (t.without n.id, none) := by
  have hneed : needBranch t parent = .ok b := by
    unfold needBranch
    rw [hb]
    rfl
  have hlt : ¬ index ≥ b.children.length :=
    Nat.not_le.mpr (List.getElem?_eq_some_iff.mp hn).1
  have hc : check t (.removeChild parent index) = .ok () := by
    simp only [check, hneed]
    exact if_neg hlt
  unfold apply
  rw [hc, ← Tree.regrow_eraseIdx hd hb hn]
  rfl

/-- **What a move does.** In a tree with distinct numbers a move that passes the check is done.
    The moved node is what it was, with all that stands below it; with it cut out, as removing it
    does where it stood and where it stands, the tree after the move is the tree before it. Its
    parent is that of the destination, where it stands at the index that was asked for, or else
    last. -/
theorem apply_moveNode (hd : t.ids.Nodup)
    (hc : check t (.moveNode node fromParent fromIndex destination) = .ok ()) :
    ∃ t' moved b i, apply t (.moveNode node fromParent fromIndex destination) = .ok (t', none) ∧
      (t.find? node = some moved ∧ t'.find? node = some moved) ∧
      (t'.without node = t.without node ∧
        apply t (.removeChild fromParent fromIndex) = .ok (t.without node, none) ∧
        apply t' (.removeChild destination.parent i) = .ok (t'.without node, none)) ∧
      t'.parentOf? node = some (b, i) ∧ b.children[i]? = some moved ∧
      b.id = destination.parent ∧ i = destination.position.getD (b.children.length - 1) := by
  have happly : apply t (.moveNode node fromParent fromIndex destination) =
      .ok (effect t (.moveNode node fromParent fromIndex destination)) := by
    unfold apply
    rw [hc]
  obtain ⟨source, moved, b, t₁, hs, hm, rfl, ht₁, hb, hp, he⟩ := effect_moveNode hc
  rw [he] at happly
  obtain ⟨-, hissued⟩ := Tree.regrow_put hs fun ns => ns.eraseIdx fromIndex
  obtain ⟨hput, hissued'⟩ := Tree.regrow_put hb (insertAt destination.position moved)
  rw [← ht₁] at hissued
  have hleft : t₁.without moved.id = t.without moved.id :=
    ht₁ ▸ Tree.without_regrow hs (Node.withoutIn_eraseIdx hm)
  have hat := getElem?_insertAt moved hp
  have hin : Node.withoutIn moved.id (insertAt destination.position moved b.children) =
      Node.withoutIn moved.id b.children := by
    rw [← Node.withoutIn_eraseIdx hat, eraseIdx_insertAt]
  have hleft' := (Tree.without_regrow hb hin).trans hleft
  have hb' := find?_regrow hb (insertAt destination.position moved)
  generalize t₁.regrow destination.parent (insertAt destination.position moved) = t' at *
  -- look-ups find the one node with the number, before and after
  have hd' : t'.ids.Nodup := (apply_done happly).distinct (hissued'.trans hissued) hd
  have hsource : source ∈ t.branches := Tree.mem_branches.mpr (List.mem_of_find?_eq_some hs)
  have hnew := Tree.mem_branches.mpr hput.mem_subtree
  refine ⟨t', moved, b.grown (insertAt destination.position moved), _, happly,
    ⟨Tree.find?_of_mem hd (Tree.child_mem_nodes hsource hm),
      Tree.find?_of_mem hd' (Tree.child_mem_nodes hnew hat)⟩,
    ⟨hleft', apply_removeChild hd hs hm, apply_removeChild hd' hb' hat⟩,
    Tree.parentOf?_of_child hd' hnew hat, hat, id_of_find? hb, ?_⟩
  show _ = destination.position.getD ((insertAt destination.position moved b.children).length - 1)
  rw [length_insertAt moved hp, Nat.add_sub_cancel]

/-- A condition with two actions, and an empty one after it. -/
def pairTree : Tree :=
  ⟨⟨.extension, .new ⟨1⟩ .extension,
    [.branch .condition (.new ⟨2⟩ .condition)
      [.leaf .action (.new ⟨3⟩ .action), .leaf .action (.new ⟨4⟩ .action)],
      .branch .condition (.new ⟨5⟩ .condition) []]⟩, 5⟩

/-- Within one condition an action goes from the first index to the second, counted without it. -/
theorem apply_moveNode_pairTree :
    pairTree.ids.Nodup ∧ check pairTree (.moveNode ⟨3⟩ ⟨2⟩ 0 (.index ⟨2⟩ 1)) = .ok () ∧
    ∃ t' b, apply pairTree (.moveNode ⟨3⟩ ⟨2⟩ 0 (.index ⟨2⟩ 1)) = .ok (t', none) ∧
      t'.without ⟨3⟩ = pairTree.without ⟨3⟩ ∧
      apply t' (.removeChild ⟨2⟩ 1) = .ok (t'.without ⟨3⟩, none) ∧
      t'.parentOf? ⟨3⟩ = some (b, 1) ∧ b.id = ⟨2⟩ := by
  have hd : pairTree.ids.Nodup := by decide
  have hc : check pairTree (.moveNode ⟨3⟩ ⟨2⟩ 0 (.index ⟨2⟩ 1)) = .ok () := rfl
  obtain ⟨t', -, b, i, happly, -, ⟨hrest, -, hremoved⟩, hparent, -, hid, rfl⟩ :=
    apply_moveNode hd hc
  exact ⟨hd, hc, t', b, happly, hrest, hremoved, hparent, hid⟩

end Edit

end Dialplan
