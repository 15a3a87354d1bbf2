import Dialplan.Proofs.Node
/-!
# Equality but for the numbers

Two nodes are alike when they differ in their numbers alone, so when they are one node once every
number is wiped out.

* `Node.alike_iff`: likeness is equality of the wiped nodes, hence an equivalence;
* `Node.numbered`: numbers given anew in pre-order, which leaves a node alike;
* `Node.mended`: `regex="all"` put at the end wherever a condition of regexes has no `regex`;
  a node is alike what is mended exactly when there is nothing to mend (`alike_mended_iff`);
* `Node.Uniform`: a change that is made at every node alike, as wiping and mending are.
-/

namespace Dialplan

/-! ## 1. Wiped numbers -/

namespace Node

/-- A label without its number. -/
def wipe (l : Label) : Label := { l with id := ⟨0⟩ }

mutual

/-- The node with every number wiped out. -/
def wiped : Node → Node
  | .leaf k l => .leaf k (wipe l)
  | .branch k l cs => .branch k (wipe l) (wipedIn cs)

/-- The nodes of a list with every number wiped out. -/
def wipedIn : List Node → List Node
  | [] => []
  | n :: rest => n.wiped :: wipedIn rest

end

theorem label_alike_iff (a b : Label) : a.alike b = true ↔ wipe a = wipe b := by
  unfold Label.alike wipe
  rw [Bool.and_eq_true, beq_iff_eq, beq_iff_eq, Label.mk.injEq]
  exact ⟨fun ⟨h1, h2⟩ => ⟨rfl, h1, h2⟩, fun ⟨_, h1, h2⟩ => ⟨h1, h2⟩⟩

mutual

/-- **Likeness is equality of the wiped nodes.** -/
theorem alike_iff : ∀ n m : Node, n.alike m = true ↔ n.wiped = m.wiped
  | .leaf k a, .leaf k' b => by
      unfold alike wiped
      rw [Bool.and_eq_true, beq_iff_eq, label_alike_iff, Node.leaf.injEq]
  | .branch k a cs, .branch k' b ds => by
      unfold alike wiped
      rw [Bool.and_eq_true, Bool.and_eq_true, beq_iff_eq, label_alike_iff, alikeAll_iff cs ds,
        Node.branch.injEq, and_assoc]
  | .leaf .., .branch .. => by
      unfold alike wiped
      exact ⟨fun h => (nomatch h), fun h => (nomatch h)⟩
  | .branch .., .leaf .. => by
      unfold alike wiped
      exact ⟨fun h => (nomatch h), fun h => (nomatch h)⟩

theorem alikeAll_iff : ∀ ns ms : List Node, alikeAll ns ms = true ↔ wipedIn ns = wipedIn ms
  | [], [] => ⟨fun _ => rfl, fun _ => rfl⟩
  | n :: ns, m :: ms => by
      unfold alikeAll wipedIn
      rw [Bool.and_eq_true, alike_iff n m, alikeAll_iff ns ms, List.cons.injEq]
  | [], _ :: _ => ⟨fun h => (nomatch h), fun h => (nomatch h)⟩
  | _ :: _, [] => ⟨fun h => (nomatch h), fun h => (nomatch h)⟩

end

/-! ## 2. New numbers -/

mutual

/-- The node with the numbers after `count` given out in pre-order. -/
def numbered (count : Nat) : Node → Node
  | .leaf k l => .leaf k { l with id := ⟨count + 1⟩ }
  | .branch k l cs => .branch k { l with id := ⟨count + 1⟩ } (numberedIn (count + 1) cs)

/-- The nodes of a list with the numbers after `count` given out in pre-order. -/
def numberedIn (count : Nat) : List Node → List Node
  | [] => []
  | n :: rest => n.numbered count :: numberedIn (count + n.size) rest

end

mutual

theorem wiped_numbered (count : Nat) : ∀ n : Node, (n.numbered count).wiped = n.wiped
  | .leaf _ _ => rfl
  | .branch k l cs => by
      unfold numbered wiped
      rw [wipedIn_numberedIn (count + 1) cs]
      rfl

theorem wipedIn_numberedIn (count : Nat) : ∀ ns : List Node,
    wipedIn (numberedIn count ns) = wipedIn ns
  | [] => rfl
  | n :: rest => by
      unfold numberedIn wipedIn
      rw [wiped_numbered count n, wipedIn_numberedIn (count + n.size) rest]

end

theorem size_branch (k : BranchKind) (l : Label) (cs : List Node) :
    (Node.branch k l cs).size = (subtrees cs).length + 1 := rfl

theorem length_subtrees_cons (n : Node) (rest : List Node) :
    (subtrees (n :: rest)).length = n.size + (subtrees rest).length :=
  List.length_append

mutual

theorem size_numbered (count : Nat) : ∀ n : Node, (n.numbered count).size = n.size
  | .leaf _ _ => rfl
  | .branch k l cs => by
      unfold numbered
      rw [size_branch, size_branch, length_subtrees_numberedIn (count + 1) cs]

theorem length_subtrees_numberedIn (count : Nat) : ∀ ns : List Node,
    (subtrees (numberedIn count ns)).length = (subtrees ns).length
  | [] => rfl
  | n :: rest => by
      unfold numberedIn
      rw [length_subtrees_cons, length_subtrees_cons, size_numbered count n,
        length_subtrees_numberedIn (count + n.size) rest]

end

/-! ## 3. Mended nodes -/

/-- The attributes with `regex="all"` at the end, where a condition of regexes has no `regex`. -/
def mendAttributes (k : Kind) (a : Attributes) : Attributes :=
  if k = .regexCondition && !a.contains "regex" then ⟨a.pairs ++ [("regex", "all")]⟩ else a

/-- A label with its attributes mended. -/
def mend (k : Kind) (l : Label) : Label := { l with attributes := mendAttributes k l.attributes }

mutual

/-- The node with `regex="all"` wherever a condition of regexes has no `regex`. -/
def mended : Node → Node
  | .leaf k l => .leaf k l
  | .branch k l cs => .branch k (mend (.branch k) l) (mendedIn cs)

/-- The nodes of a list, mended. -/
def mendedIn : List Node → List Node
  | [] => []
  | n :: rest => n.mended :: mendedIn rest

end

theorem mendedIn_eq_map : ∀ ns : List Node, mendedIn ns = ns.map mended
  | [] => rfl
  | n :: rest => by
      unfold mendedIn
      rw [mendedIn_eq_map rest, List.map_cons]

theorem kind_mended (n : Node) : n.mended.kind = n.kind := by
  cases n <;> rfl

mutual

theorem size_mended : ∀ n : Node, n.mended.size = n.size
  | .leaf _ _ => rfl
  | .branch k l cs => by
      unfold mended
      rw [size_branch, size_branch, length_subtrees_mendedIn cs]

theorem length_subtrees_mendedIn : ∀ ns : List Node,
    (subtrees (mendedIn ns)).length = (subtrees ns).length
  | [] => rfl
  | n :: rest => by
      unfold mendedIn
      rw [length_subtrees_cons, length_subtrees_cons, size_mended n, length_subtrees_mendedIn rest]

end

theorem mendAttributes_of_shown {k : Kind} {a : Attributes}
    (h : k = .regexCondition → "regex" ∈ a.keys) : mendAttributes k a = a := by
  unfold mendAttributes
  by_cases hk : k = .regexCondition
  · rw [(Attributes.contains_iff a "regex").mpr (h hk)]
    simp
  · simp [hk]

theorem mendAttributes_eq_iff (k : Kind) (a : Attributes) :
    mendAttributes k a = a ↔ (k = .regexCondition → "regex" ∈ a.keys) := by
  refine ⟨fun h hk => ?_, mendAttributes_of_shown⟩
  unfold mendAttributes at h
  split at h
  · have hl := congrArg (fun b : Attributes => b.pairs.length) h
    simp only [List.length_append, List.length_singleton] at hl
    omega
  · rename_i hn
    simp only [hk, decide_true, Bool.true_and, Bool.not_eq_true', Bool.not_eq_false] at hn
    exact (Attributes.contains_iff a "regex").mp hn

theorem shows_mend {k : Kind} {a : Attributes} (h : k.Fits a) : k.Shows (mendAttributes k a) := by
  by_cases hs : k = .regexCondition → "regex" ∈ a.keys
  · rw [mendAttributes_of_shown hs]
    exact ⟨h, hs⟩
  · rw [Classical.not_imp] at hs
    obtain ⟨rfl, hn⟩ := hs
    have he : mendAttributes .regexCondition a = a.set "regex" "all" := by
      unfold mendAttributes
      rw [(Attributes.contains_eq_false_iff a "regex").mpr hn]
      show Attributes.mk _ = Attributes.mk _
      exact congrArg _ (Attributes.pairs_set_of_not_mem "all" hn).symm
    rw [he]
    exact ⟨h.set "all" ⟨by decide, by decide, fun _ => rfl⟩,
      fun _ => (Attributes.mem_keys_set a "regex" "all" "regex").mpr (.inr rfl)⟩

mutual

/-- **What is mended shows every kind.** -/
theorem lawful_mended : ∀ {n : Node}, n.Lawful Kind.Fits → n.mended.Lawful Kind.Shows
  | .leaf _ _, h => by
      have hl := lawful_leaf.mp h
      exact lawful_leaf.mpr ⟨hl, fun e => nomatch e⟩
  | .branch k l cs, h => by
      obtain ⟨h1, h2, h3⟩ := lawful_branch.mp h
      refine lawful_branch.mpr ⟨shows_mend h1, fun c hc => ?_, lawful_mendedIn h3⟩
      rw [mendedIn_eq_map] at hc
      obtain ⟨x, hx, rfl⟩ := List.mem_map.mp hc
      rw [kind_mended]
      exact h2 x hx

theorem lawful_mendedIn : ∀ {ns : List Node}, (∀ n ∈ ns, n.Lawful Kind.Fits) →
    ∀ n ∈ mendedIn ns, n.Lawful Kind.Shows
  | [], _, _, hn => absurd hn List.not_mem_nil
  | x :: rest, h, n, hn => by
      rcases List.mem_cons.mp hn with rfl | hn
      · exact lawful_mended (h x List.mem_cons_self)
      · exact lawful_mendedIn (fun c hc => h c (List.mem_cons_of_mem x hc)) n hn

end

/-- A node whose kinds are all shown: every condition of regexes in it has its `regex`. -/
def Shown (n : Node) : Prop :=
  ∀ m ∈ n.subtree, m.kind = .regexCondition → m.attributes.contains "regex" = true

theorem shown_leaf (k : LeafKind) (l : Label) : (Node.leaf k l).Shown := fun m hm e => by
  rw [List.mem_singleton.mp hm] at e
  cases e

theorem shown_branch {k : BranchKind} {l : Label} {cs : List Node} : (Node.branch k l cs).Shown ↔
    (k = .regexCondition → "regex" ∈ l.attributes.keys) ∧ ∀ c ∈ cs, c.Shown := by
  constructor
  · intro h
    refine ⟨fun e => (Attributes.contains_iff _ _).mp (h _ (self_mem_subtree _) (e ▸ rfl)),
      fun c hc m hm => h m (List.mem_cons_of_mem _ (mem_subtrees.mpr ⟨c, hc, hm⟩))⟩
  · rintro ⟨h1, h2⟩ m hm
    rcases List.mem_cons.mp hm with rfl | hm
    · exact fun e => (Attributes.contains_iff _ _).mpr (h1 (Kind.branch.inj e))
    · obtain ⟨c, hc, hm⟩ := mem_subtrees.mp hm
      exact h2 c hc m hm

theorem Lawful.shown {n : Node} (h : n.Lawful Kind.Shows) : n.Shown := fun m hm e =>
  (Attributes.contains_iff _ _).mpr ((h m hm).1.2 e)

mutual

/-- **A node is alike what is mended exactly when there is nothing to mend.** -/
theorem wiped_mended_iff : ∀ n : Node, n.wiped = n.mended.wiped ↔ n.Shown
  | .leaf k l => ⟨fun _ => shown_leaf k l, fun _ => rfl⟩
  | .branch k l cs => by
      have hk : (Kind.branch k = .regexCondition) ↔ k = .regexCondition :=
        ⟨Kind.branch.inj, fun e => e ▸ rfl⟩
      have ha := mendAttributes_eq_iff (.branch k) l.attributes
      rw [hk] at ha
      unfold mended wiped
      rw [Node.branch.injEq, wipedIn_mendedIn_iff cs, shown_branch, ← ha]
      unfold wipe mend
      rw [Label.mk.injEq]
      exact ⟨fun ⟨_, ⟨_, h, _⟩, hc⟩ => ⟨h.symm, hc⟩, fun ⟨h, hc⟩ => ⟨rfl, ⟨rfl, h.symm, rfl⟩, hc⟩⟩

theorem wipedIn_mendedIn_iff : ∀ ns : List Node,
    wipedIn ns = wipedIn (mendedIn ns) ↔ ∀ n ∈ ns, n.Shown
  | [] => ⟨fun _ _ h => absurd h List.not_mem_nil, fun _ => rfl⟩
  | n :: rest => by
      unfold mendedIn wipedIn
      rw [List.cons.injEq, wiped_mended_iff n, wipedIn_mendedIn_iff rest, List.forall_mem_cons]

end

mutual

/-- Mending looks at no number. -/
theorem wiped_mended : ∀ n : Node, n.mended.wiped = n.wiped.mended
  | .leaf _ _ => rfl
  | .branch k l cs => by
      unfold mended wiped
      rw [wipedIn_mendedIn cs]
      rfl

theorem wipedIn_mendedIn : ∀ ns : List Node, wipedIn (mendedIn ns) = mendedIn (wipedIn ns)
  | [] => rfl
  | n :: rest => by
      show n.mended.wiped :: wipedIn (mendedIn rest) = n.wiped.mended :: mendedIn (wipedIn rest)
      rw [wiped_mended n, wipedIn_mendedIn rest]

end

end Node

/-! ## 4. One change at every node -/

namespace Node

/-- A change that is made at every node alike and leaves kinds, flags and the order of children. -/
structure Uniform (f : Node → Node) : Prop where
  kind (n : Node) : (f n).kind = n.kind
  enabled (n : Node) : (f n).enabled = n.enabled
  children (n : Node) : (f n).children = n.children.map f

theorem subtree_eq_cons (n : Node) : n.subtree = n :: subtrees n.children := by
  cases n <;> rfl

theorem size_eq (n : Node) : n.size = (subtrees n.children).length + 1 :=
  congrArg List.length n.subtree_eq_cons

mutual

/-- Below a changed node stand the changed nodes. -/
theorem Uniform.subtree_eq {f : Node → Node} (hf : Uniform f) :
    ∀ n : Node, (f n).subtree = n.subtree.map f
  | .leaf k l => by
      rw [subtree_eq_cons, hf.children]
      rfl
  | .branch k l cs => by
      rw [subtree_eq_cons, hf.children]
      show f (.branch k l cs) :: subtrees (cs.map f) = f (.branch k l cs) :: (subtrees cs).map f
      rw [hf.subtrees_eq cs]

theorem Uniform.subtrees_eq {f : Node → Node} (hf : Uniform f) :
    ∀ ns : List Node, subtrees (ns.map f) = (subtrees ns).map f
  | [] => rfl
  | n :: rest => by
      show (f n).subtree ++ subtrees (rest.map f) = (n.subtree ++ subtrees rest).map f
      rw [hf.subtree_eq n, hf.subtrees_eq rest, List.map_append]

end

theorem wipedIn_eq_map : ∀ ns : List Node, wipedIn ns = ns.map wiped
  | [] => rfl
  | n :: rest => by
      unfold wipedIn
      rw [wipedIn_eq_map rest, List.map_cons]

theorem uniform_wiped : Uniform wiped where
  kind n := by cases n <;> rfl
  enabled n := by cases n <;> rfl
  children n := by
    cases n with
    | leaf k l => rfl
    | branch k l cs => exact wipedIn_eq_map cs

theorem uniform_mended : Uniform mended where
  kind := kind_mended
  enabled n := by cases n <;> rfl
  children n := by
    cases n with
    | leaf k l => rfl
    | branch k l cs => exact mendedIn_eq_map cs

end Node

/-! ## 5. Trees -/

namespace Tree

/-- The tree with every number wiped out. -/
def wiped (t : Tree) : Node := t.root.node.wiped

theorem alike_iff (t u : Tree) : t.alike u = true ↔ t.wiped = u.wiped := Node.alike_iff ..

/-- The tree with numbers given anew in pre-order, the root first. -/
def renumbered (t : Tree) : Tree :=
  ⟨⟨t.root.kind, { t.root.label with id := ⟨1⟩ }, Node.numberedIn 1 t.root.children⟩, t.size⟩

theorem wiped_renumbered (t : Tree) : t.renumbered.wiped = t.wiped :=
  Node.wiped_numbered 0 t.root.node

/-- The tree with `regex="all"` wherever a condition of regexes has no `regex`. -/
def mended (t : Tree) : Tree :=
  { t with
    root := ⟨t.root.kind, Node.mend (.branch t.root.kind) t.root.label,
      Node.mendedIn t.root.children⟩ }

theorem wiped_mended (t : Tree) : t.mended.wiped = t.wiped.mended := Node.wiped_mended t.root.node

theorem size_mended (t : Tree) : t.mended.size = t.size := Node.size_mended t.root.node

theorem Lawful.mended {t : Tree} (h : t.Lawful Kind.Fits) : t.mended.Lawful Kind.Shows :=
  ⟨h.1, Node.lawful_mended h.2⟩

/-- A tree in which every condition of regexes has its `regex`. -/
def Shown (t : Tree) : Prop :=
  ∀ n ∈ t.nodes, n.kind = .regexCondition → n.attributes.contains "regex" = true

theorem alike_mended_iff (t : Tree) : t.wiped = t.mended.wiped ↔ t.Shown :=
  Node.wiped_mended_iff t.root.node

theorem Lawful.shown {t : Tree} (h : t.Lawful Kind.Shows) : t.Shown := h.2.shown

theorem wiped_mended_of_shown {t : Tree} (h : t.Shown) : t.mended.wiped = t.wiped :=
  (t.alike_mended_iff.mpr h).symm

theorem mended_mended (t : Tree) (h : t.Lawful Kind.Fits) :
    t.mended.mended.wiped = t.mended.wiped :=
  wiped_mended_of_shown h.mended.shown

end Tree

end Dialplan
