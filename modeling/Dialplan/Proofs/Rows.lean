import Dialplan.Projection
import Dialplan.Proofs.Places
/-!
# The rows are the walk

A projection goes down the tree by itself and hands the rows so far from node to node; a walk has
the places still to come on a stack. Here the two are compared place by place, in every tree, also
where numbers repeat.

* `drawnAt`, `drawnOf`: the rows drawn one after another behind those that are there already;
* `Tree.rowAt?`: the row of a place, from the place and the node one step above it;
* `Projection.map_some_rows`: the rows are those of the places that the walk comes to, in its order;
* `Projection.rows_walked`: **what the rows say of their places is what the walk says**.
-/

namespace Dialplan

variable (applications : Applications)

/-! ## 1. Rows behind rows -/

mutual

/-- The rows so far, then those of a node and of everything below it. -/
def drawnAt (parent : NodeId) (index : Nat) (path : Path) (rows : List Row) : Node → List Row
  | .leaf k l => rows ++ [rowOf applications parent index path (.leaf k) l]
  | .branch k l cs =>
    drawnOf l.id path 0 (rows ++ [rowOf applications parent index path (.branch k) l]) cs

/-- The rows so far, then those of the children of a node from the one at `index` on, each with
    everything below it. -/
def drawnOf (parent : NodeId) (path : Path) (index : Nat) (rows : List Row) : List Node → List Row
  | [] => rows
  | n :: rest => drawnOf parent path (index + 1) (drawnAt parent index (path.child index) rows n) rest

end

mutual

theorem drawnAt_eq (parent : NodeId) (index : Nat) (path : Path) : ∀ (rows : List Row) (n : Node),
    drawnAt applications parent index path rows n =
      rows ++ rowsAt applications parent index path n
  | _, .leaf _ _ => rfl
  | rows, .branch k l cs => by
      unfold drawnAt rowsAt
      rw [drawnOf_eq l.id path 0 _ cs, List.append_assoc]
      rfl

/-- **Rows that are drawn do not touch the rows before them.** -/
theorem drawnOf_eq (parent : NodeId) (path : Path) : ∀ (index : Nat) (rows : List Row)
    (ns : List Node), drawnOf applications parent path index rows ns =
      rows ++ rowsOf applications parent path index ns
  | _, rows, [] => (List.append_nil rows).symm
  | index, rows, n :: rest => by
      unfold drawnOf rowsOf
      rw [drawnAt_eq parent index (path.child index) rows n, drawnOf_eq parent path (index + 1) _ rest,
        List.append_assoc]

end

/-! ## 2. The row of a place -/

/-- The row of a place below the root: the node at the path without its last index is the parent,
    and the last index is the index. -/
def Tree.rowAt? (t : Tree) (place : Path × Node) : Option Row := do
  let above ← place.1.parent?
  let index ← place.1.index?
  let parent ← t.nodeAt? above
  some (rowOf applications parent.id index place.1 place.2.kind place.2.label)

variable {applications} {t : Tree}

theorem Tree.rowAt?_eq_some {place : Path × Node} {r : Row} :
    t.rowAt? applications place = some r ↔ ∃ above index parent, place.1.parent? = some above ∧
      place.1.index? = some index ∧ t.nodeAt? above = some parent ∧
        rowOf applications parent.id index place.1 place.2.kind place.2.label = r := by
  unfold rowAt?
  simp only [Option.bind_eq_bind, Option.bind_eq_some_iff, Option.some.injEq, exists_and_left]

variable (applications) in
/-- The row of a child of the node at a path. -/
theorem Tree.rowAt?_child {m : Node} {path : Path} (hm : t.nodeAt? path = some m) (index : Nat)
    (n : Node) : t.rowAt? applications (path.child index, n) =
      some (rowOf applications m.id index (path.child index) n.kind n.label) := by
  unfold rowAt?
  rw [Path.parent?_child, Path.index?_child]
  show (t.nodeAt? path).bind _ = _
  rw [hm]
  rfl

mutual

/-- The rows of a child and of everything below it are those of the places of a walk from there. -/
theorem map_some_rowsAt : ∀ {n m : Node} {path : Path} {index : Nat}, t.nodeAt? path = some m →
    m.children[index]? = some n →
      (rowsAt applications m.id index (path.child index) n).map some =
        (n.walk (path.child index)).map (t.rowAt? applications)
  | .leaf k l, m, path, index, hm, _ => by
      have hrow := Tree.rowAt?_child applications hm index (.leaf k l)
      unfold rowsAt Node.walk
      rw [List.map_singleton, List.map_singleton, hrow]
      rfl
  | .branch k l cs, m, path, index, hm, hn => by
      have hrow := Tree.rowAt?_child applications hm index (.branch k l cs)
      have hat : t.nodeAt? (path.child index) = some (.branch k l cs) :=
        Tree.nodeAt?_child.mpr ⟨m, hm, hn⟩
      have hbelow : (rowsOf applications l.id (path.child index) 0 cs).map some =
          (Node.walks (path.child index) 0 cs).map (t.rowAt? applications) :=
        map_some_rowsOf hat fun _ _ h => h
      unfold rowsAt Node.walk
      rw [List.map_cons, List.map_cons, hrow, hbelow]
      rfl

/-- So it is for the children of a node from the one at `index` on. -/
theorem map_some_rowsOf : ∀ {ns : List Node} {m : Node} {path : Path} {index : Nat},
    t.nodeAt? path = some m → (∀ i n, ns[i]? = some n → m.children[i + index]? = some n) →
      (rowsOf applications m.id path index ns).map some =
        (Node.walks path index ns).map (t.rowAt? applications)
  | [], _, _, _, _, _ => rfl
  | n :: rest, m, path, index, hm, hns => by
      have hn : m.children[index]? = some n := Nat.zero_add index ▸ hns 0 n rfl
      have hrest : ∀ i c, rest[i]? = some c → m.children[i + (index + 1)]? = some c := by
        intro i c hi
        rw [Nat.add_left_comm, Nat.add_comm index]
        exact hns (i + 1) c hi
      unfold rowsOf Node.walks
      rw [List.map_append, List.map_append, map_some_rowsAt hm hn, map_some_rowsOf hm hrest]

end

/-! ## 3. Projections -/

namespace Projection

variable (applications) (t) (generation : Nat)

/-- **Every place that the walk comes to has its row**, and there are no other rows. -/
theorem map_some_rows : (Projection.of t applications generation).rows.map some =
    t.walked.map (t.rowAt? applications) := by
  have hroot : t.nodeAt? .root = some t.root.node := rfl
  rw [Tree.walked_eq]
  exact map_some_rowsOf hroot fun _ _ h => h

/-- Every row is that of a place. -/
theorem exists_place {r : Row} (hr : r ∈ (Projection.of t applications generation).rows) :
    ∃ e ∈ t.walked, t.rowAt? applications e = some r := by
  have hm := List.mem_map_of_mem (f := some) hr
  rw [map_some_rows] at hm
  exact List.mem_map.mp hm

/-- What every row says as its place does, the rows say one after another as the walk does. -/
theorem map_rows {α : Type} {f : Row → α} {g : Path × Node → α}
    (h : ∀ e r, t.rowAt? applications e = some r → f r = g e) :
    (Projection.of t applications generation).rows.map f = t.walked.map g := by
  refine List.map_injective_iff.mpr (fun _ _ => Option.some.inj) ?_
  have hmap := congrArg (List.map (Option.map f)) (map_some_rows applications t generation)
  rw [List.map_map, List.map_map] at hmap
  rw [List.map_map, List.map_map]
  refine hmap.trans (List.map_congr_left fun e he => ?_)
  have hm := List.mem_map_of_mem (f := t.rowAt? applications) he
  rw [← map_some_rows applications t generation] at hm
  obtain ⟨r, -, hr⟩ := List.mem_map.mp hm
  show (t.rowAt? applications e).map f = some (g e)
  rw [← hr, ← h e r hr.symm]
  rfl

/-- **The rows are the walk, place by place.** A row says of its place what the walk says of it, its
    parent stands one step above, and there is one row for every node but the root. -/
theorem rows_walked :
    (Projection.of t applications generation).rows =
        drawnOf applications t.root.id .root 0 [] t.root.children ∧
      (Projection.of t applications generation).rows.map
          (fun r => (r.path, r.id, r.kind, r.enabled, r.depth)) =
        t.walked.map (fun e => (e.1, e.2.id, e.2.kind, e.2.enabled, e.1.indices.length)) ∧
      (∀ r ∈ (Projection.of t applications generation).rows, ∃ above parent,
        r.path.parent? = some above ∧ t.nodeAt? above = some parent ∧ r.parent = parent.id ∧
          r.path.index? = some r.index) ∧
      (Projection.of t applications generation).rows.length = t.size - 1 ∧
      t.size = t.root.node.count := by
  refine ⟨?_, ?_, ?_, ?_, (Node.count_eq t.root.node).symm⟩
  · rw [drawnOf_eq, List.nil_append]
    rfl
  · refine map_rows applications t generation fun e r hr => ?_
    obtain ⟨above, index, parent, -, -, -, rfl⟩ := Tree.rowAt?_eq_some.mp hr
    rfl
  · intro r hr
    obtain ⟨e, -, he⟩ := exists_place applications t generation hr
    obtain ⟨above, index, parent, habove, hindex, hparent, rfl⟩ := Tree.rowAt?_eq_some.mp he
    exact ⟨above, parent, habove, hparent, rfl, hindex⟩
  · have hlen := congrArg List.length (map_some_rows applications t generation)
    rw [List.length_map, List.length_map, Tree.walked_eq] at hlen
    have hsize : (t.root.node.walk .root).length = t.size := Node.length_walk .root t.root.node
    rw [hlen, ← hsize, Node.walk_eq]
    rfl

end Projection

end Dialplan
