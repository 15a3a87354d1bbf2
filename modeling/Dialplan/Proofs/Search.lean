import Dialplan.Proofs.Lookup
/-!
# Searches step by step

The look-ups of a tree are told by lists of its nodes in pre-order. Here are the searches that go
from node to node and keep no such list, and of each that it gives what the look-up gives, in every
tree, also where numbers repeat.

* `Node.below?`: a child, then what stands below it, then the next child; for `find?` and `node?`,
  and `Node.holds` for `contains`;
* `Node.routeBelow`: the same with one path that is lengthened on the way down and shortened on the
  way back; for `pathOf?`;
* `Node.holder?`: the children of a branch before the branches among them; for `parentOf?`;
* `Walk.next`: one step of a walk that has the places still to come on a stack; for `descendants`;
* `Node.count`: every child counted with what stands below it; for `size`.
-/

namespace Dialplan

/-- A path without its last index. -/
def Path.pop (p : Path) : Path := ⟨p.indices.dropLast⟩

@[simp] theorem Path.pop_child (p : Path) (i : Nat) : (p.child i).pop = p := by
  simp [child, pop]

namespace Node

variable {id : NodeId} {n : Node}

theorem find?_subtree_of_ne (h : n.id ≠ id) :
    n.subtree.find? (fun m => m.id == id) = findIn? n.children id := by
  cases n with
  | leaf k l => exact List.find?_cons_of_neg fun e => h (beq_iff_eq.mp e)
  | branch k l cs => exact List.find?_cons_of_neg fun e => h (beq_iff_eq.mp e)

/-! ## 1. Depth first -/

mutual

/-- The first node of number `id` below this one. -/
def below? (id : NodeId) : Node → Option Node
  | .leaf _ _ => none
  | .branch _ _ cs => among? id cs

/-- The first node of number `id` in a list or below it: each node is compared before what stands
    below it is searched. -/
def among? (id : NodeId) : List Node → Option Node
  | [] => none
  | n :: rest =>
    if n.id = id then some n
    else match n.below? id with
      | some m => some m
      | none => among? id rest

end

/-- Whether `id` is the number of this node or is found below it. -/
def holds (n : Node) (id : NodeId) : Bool := n.id == id || (n.below? id).isSome

mutual

theorem below?_eq (id : NodeId) : ∀ n : Node, n.below? id = findIn? n.children id
  | .leaf _ _ => rfl
  | .branch _ _ cs => among?_eq id cs

/-- **A search in depth finds the first node in pre-order.** -/
theorem among?_eq (id : NodeId) : ∀ ns : List Node, among? id ns = findIn? ns id
  | [] => rfl
  | n :: rest => by
      have hbelow := below?_eq id n
      have hrest := among?_eq id rest
      unfold among?
      show _ = (n.subtree ++ subtrees rest).find? _
      rw [List.find?_append]
      by_cases h : n.id = id
      · rw [if_pos h, find?_self h]
        rfl
      · rw [if_neg h, find?_subtree_of_ne h, hbelow, hrest]
        cases findIn? n.children id <;> rfl

end

theorem holds_eq (n : Node) (id : NodeId) : n.holds id = n.contains id := by
  unfold holds contains
  rw [below?_eq, ← List.isSome_find?]
  by_cases h : n.id = id
  · rw [find?_self h, beq_iff_eq.mpr h]
    rfl
  · rw [find?_subtree_of_ne h, beq_eq_false_iff_ne.mpr h, Bool.false_or]

/-! ## 2. With a path -/

mutual

/-- The search below a node that stands at `path`: whether the number was found, and the path, which
    then leads to it and otherwise is what it was. -/
def routeBelow (id : NodeId) (path : Path) : Node → Bool × Path
  | .leaf _ _ => (false, path)
  | .branch _ _ cs => routeAmong id path 0 cs

/-- The same among the children from `index` on of the node at `path`. -/
def routeAmong (id : NodeId) (path : Path) (index : Nat) : List Node → Bool × Path
  | [] => (false, path)
  | n :: rest =>
    if n.id = id then (true, path.child index)
    else match n.routeBelow id (path.child index) with
      | (true, found) => (true, found)
      | (false, back) => routeAmong id back.pop (index + 1) rest

end

/-- The first place on a walk that has the number. -/
def placeIn? (places : List (Path × Node)) (id : NodeId) : Option (Path × Node) :=
  places.find? fun e => e.2.id == id

theorem placeIn?_walk (path : Path) (n : Node) (id : NodeId) : placeIn? (n.walk path) id =
    if n.id = id then some (path, n) else placeIn? (walks path 0 n.children) id := by
  have hne : ∀ m : Node, m.id ≠ id → ∀ rest, placeIn? ((path, m) :: rest) id = placeIn? rest id :=
    fun m h rest => List.find?_cons_of_neg fun e => h (beq_iff_eq.mp e)
  cases n with
  | leaf k l =>
    split
    · exact List.find?_cons_of_pos (beq_iff_eq.mpr ‹_›)
    · exact hne _ ‹_› []
  | branch k l cs =>
    split
    · exact List.find?_cons_of_pos (beq_iff_eq.mpr ‹_›)
    · exact hne _ ‹_› (walks path 0 cs)

/-- What a search with a path ends with: the path of the place that was found, or the path it was
    begun with. -/
def routed (path : Path) (found : Option (Path × Node)) : Bool × Path :=
  match found with
  | some e => (true, e.1)
  | none => (false, path)

mutual

theorem routeBelow_eq (id : NodeId) (path : Path) : ∀ n : Node,
    n.routeBelow id path = routed path (placeIn? (walks path 0 n.children) id)
  | .leaf _ _ => rfl
  | .branch _ _ cs => routeAmong_eq id path 0 cs

/-- **A search with a path ends at the first place on the walk**, and without one where it began. -/
theorem routeAmong_eq (id : NodeId) (path : Path) : ∀ (index : Nat) (ns : List Node),
    routeAmong id path index ns = routed path (placeIn? (walks path index ns) id)
  | _, [] => rfl
  | index, n :: rest => by
      have hbelow := routeBelow_eq id (path.child index) n
      have hrest := routeAmong_eq id path (index + 1) rest
      unfold routeAmong
      show _ = routed path (List.find? _ (n.walk (path.child index) ++ walks path (index + 1) rest))
      rw [List.find?_append]
      have hwalk := placeIn?_walk (path.child index) n id
      unfold placeIn? at hwalk
      by_cases h : n.id = id
      · rw [if_pos h, hwalk, if_pos h]
        rfl
      · rw [if_neg h, hwalk, if_neg h, hbelow]
        -- what was not found below leaves the path as it was, and the last index comes off
        cases hf : placeIn? (walks (path.child index) 0 n.children) id with
        | some e =>
          unfold placeIn? at hf
          rw [hf]
          rfl
        | none =>
          unfold placeIn? at hf
          rw [hf]
          show routeAmong id (path.child index).pop (index + 1) rest = _
          rw [Path.pop_child, hrest]
          rfl

end

/-! ## 3. The children first -/

mutual

/-- The branch that has the number among its children, and where: first this one, then those below
    its children, one after another. -/
def holder? (id : NodeId) : Node → Option (Branch × Nat)
  | .leaf _ _ => none
  | .branch k l cs =>
    match (Branch.mk k l cs).childIndex? id with
    | some i => some (⟨k, l, cs⟩, i)
    | none => holderAmong? id cs

/-- The first answer of the nodes of a list. -/
def holderAmong? (id : NodeId) : List Node → Option (Branch × Nat)
  | [] => none
  | n :: rest =>
    match n.holder? id with
    | some found => some found
    | none => holderAmong? id rest

end

/-- The first branch of a list that has the number among its children. -/
def parentAmong? (bs : List Branch) (id : NodeId) : Option (Branch × Nat) :=
  bs.findSome? fun b => (b.childIndex? id).map fun i => (b, i)

mutual

theorem holder?_eq (id : NodeId) : ∀ n : Node,
    n.holder? id = parentAmong? (n.subtree.filterMap branch?) id
  | .leaf _ _ => rfl
  | .branch k l cs => by
      have hrest := holderAmong?_eq id cs
      unfold holder?
      show _ = List.findSome? _ (Branch.mk k l cs :: branchesIn cs)
      rw [List.findSome?_cons, hrest]
      cases (Branch.mk k l cs).childIndex? id <;> rfl

/-- **Children first is pre-order** for the branches: each is asked before those below it. -/
theorem holderAmong?_eq (id : NodeId) : ∀ ns : List Node,
    holderAmong? id ns = parentAmong? (branchesIn ns) id
  | [] => rfl
  | n :: rest => by
      have hn := holder?_eq id n
      have hrest := holderAmong?_eq id rest
      unfold holderAmong? parentAmong?
      rw [branchesIn_cons, List.findSome?_append, hn, hrest]
      unfold parentAmong?
      cases List.findSome? _ (n.subtree.filterMap branch?) <;> rfl

end

/-! ## 4. Counting -/

mutual

/-- One for this node, and what stands below it. -/
def count : Node → Nat
  | .leaf _ _ => 1
  | .branch _ _ cs => 1 + countIn cs

/-- One for every node of a list and every node below them. -/
def countIn : List Node → Nat
  | [] => 0
  | n :: rest => n.count + countIn rest

end

mutual

theorem count_eq : ∀ n : Node, n.count = n.size
  | .leaf _ _ => rfl
  | .branch k l cs => by
      unfold count
      rw [countIn_eq cs]
      exact Nat.add_comm 1 _

theorem countIn_eq : ∀ ns : List Node, countIn ns = (subtrees ns).length
  | [] => rfl
  | n :: rest => by
      unfold countIn subtrees
      rw [count_eq n, countIn_eq rest, List.length_append]
      rfl

end

/-! ## 5. With a stack -/

/-- The children of the node at a path, each with its own path. -/
def placesBelow (path : Path) (n : Node) : List (Path × Node) :=
  n.children.mapIdx fun i c => (path.child i, c)

theorem walks_eq_flatMap (path : Path) (index : Nat) (ns : List Node) : walks path index ns =
    (ns.mapIdx fun i c => (path.child (index + i), c)).flatMap fun e => e.2.walk e.1 := by
  induction ns generalizing index with
  | nil => rfl
  | cons n rest ih =>
    unfold walks
    rw [List.mapIdx_cons, List.flatMap_cons, ih (index + 1)]
    simp only [Nat.add_zero, Nat.add_right_comm index 1, Nat.add_assoc]

/-- A walk from a node comes to it and then goes on from each of its children. -/
theorem walk_eq_cons (path : Path) (n : Node) :
    n.walk path = (path, n) :: (n.placesBelow path).flatMap fun e => e.2.walk e.1 := by
  have h := walks_eq_flatMap path 0 n.children
  simp only [Nat.zero_add] at h
  unfold placesBelow
  rw [← h]
  cases n <;> rfl

theorem length_walk (path : Path) (n : Node) : (n.walk path).length = n.size := by
  unfold size
  rw [← map_walk path n, List.length_map]

end Node

namespace Walk

/-- One step of a walk: the place on top of the stack is the next, and its children take its place,
    the first of them on top. -/
def next : List (Path × Node) → Option ((Path × Node) × List (Path × Node))
  | [] => none
  | e :: stack => some (e, e.2.placesBelow e.1 ++ stack)

/-- How many places are still to come. -/
def ahead (stack : List (Path × Node)) : Nat := (stack.flatMap fun e => e.2.walk e.1).length

theorem flatMap_of_next {stack rest : List (Path × Node)} {e : Path × Node}
    (h : next stack = some (e, rest)) : (stack.flatMap fun e => e.2.walk e.1) =
      e :: rest.flatMap fun e => e.2.walk e.1 := by
  cases stack with
  | nil => cases h
  | cons e stack =>
    cases h
    rw [List.flatMap_cons, List.flatMap_append, Node.walk_eq_cons]
    rfl

/-- The places that a walk comes to, step by step until the stack is empty. -/
def all (stack : List (Path × Node)) : List (Path × Node) :=
  match _h : next stack with
  | none => []
  | some (e, rest) => e :: all rest
termination_by ahead stack
decreasing_by
  unfold ahead
  rw [flatMap_of_next _h]
  exact Nat.lt_succ_self _

/-- **A walk with a stack comes to the places of the stack one after another**, to each with all
    that stands below it. -/
theorem all_eq (stack : List (Path × Node)) :
    all stack = stack.flatMap fun e => e.2.walk e.1 := by
  induction stack using all.induct with
  | case1 stack h =>
    unfold all
    cases stack with
    | nil => rfl
    | cons e rest => cases h
  | case2 stack e rest h ih =>
    rw [flatMap_of_next h, ← ih]
    conv => lhs; unfold all
    split
    · rename_i h'
      rw [h] at h'
      cases h'
    · rename_i h'
      rw [h] at h'
      cases h'
      rfl

end Walk

namespace Tree

/-! ## 6. Whole trees -/

variable (t : Tree) (id : NodeId)

/-- The root is compared, then everything below it is searched. -/
def seek? : Option Node :=
  if t.root.id = id then some t.root.node else Node.among? id t.root.children

/-- The path on which a search comes to a number. -/
def route? : Option Path :=
  if t.root.id = id then some .root
  else match Node.routeAmong id .root 0 t.root.children with
    | (true, path) => some path
    | (false, _) => none

/-- The places below the root, by a walk with a stack that has the root's children on it. -/
def walked : List (Path × Node) := Walk.all (t.root.node.placesBelow .root)

theorem seek?_eq : t.seek? id = t.find? id := by
  unfold seek? find? nodes
  by_cases h : t.root.id = id
  · rw [if_pos h, Node.find?_self (n := t.root.node) h]
  · rw [if_neg h, Node.find?_subtree_of_ne (n := t.root.node) h, Node.among?_eq]
    rfl

theorem route?_eq : t.route? id = t.pathOf? id := by
  unfold route? pathOf? descendants
  rw [Node.routeAmong_eq]
  show _ = if _ then _ else (Node.placeIn? (Node.walks .root 0 t.root.children) id).map _
  by_cases h : t.root.id = id
  · rw [if_pos h, if_pos h]
  · rw [if_neg h, if_neg h]
    cases Node.placeIn? (Node.walks .root 0 t.root.children) id <;> rfl

theorem holder?_eq : t.root.node.holder? id = t.parentOf? id := Node.holder?_eq id _

theorem walked_eq : t.walked = t.descendants := by
  have h := Node.walks_eq_flatMap .root 0 t.root.children
  simp only [Nat.zero_add] at h
  unfold walked descendants
  rw [Walk.all_eq, h]
  rfl

end Tree

end Dialplan
