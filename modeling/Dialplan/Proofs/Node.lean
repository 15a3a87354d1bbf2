import Dialplan.Proofs.Attributes
import Dialplan.Tree
/-!
# Nodes and what stands below them

Facts about whole subtrees, for the changes of a tree and for reading and printing.

* `Lawful`: at every node the attributes fit the kind and every child is accepted;
* `outline`: the nodes one by one in pre-order, each without what stands below it;
* `Replaced`: one node in place of another, everything around it as it was; what `change?` does
  (`change?_cases`).
-/

namespace Dialplan

namespace Node

/-! ## 1. Subtrees -/

theorem self_mem_subtree (n : Node) : n ∈ n.subtree := by
  cases n with
  | leaf k l => exact List.mem_singleton_self _
  | branch k l cs => exact List.mem_cons_self

theorem mem_subtrees {m : Node} : ∀ {ns : List Node}, m ∈ subtrees ns ↔ ∃ n ∈ ns, m ∈ n.subtree
  | [] => by simp [subtrees]
  | n :: rest => by
      unfold subtrees
      rw [List.mem_append, mem_subtrees]
      simp only [List.mem_cons, exists_eq_or_imp]

theorem subtrees_append : ∀ ns ms : List Node, subtrees (ns ++ ms) = subtrees ns ++ subtrees ms
  | [], _ => rfl
  | n :: rest, ms => by
      show n.subtree ++ subtrees (rest ++ ms) = (n.subtree ++ subtrees rest) ++ subtrees ms
      rw [subtrees_append rest ms, List.append_assoc]

/-! ## 2. Lawful nodes -/

/-- **At every node the attributes fit the kind and every child is accepted.** -/
def Lawful (fit : Kind → Attributes → Prop) (n : Node) : Prop :=
  ∀ m ∈ n.subtree, fit m.kind m.attributes ∧ ∀ c ∈ m.children, m.kind.accepts c.kind = true

section Lawful

variable {fit : Kind → Attributes → Prop}

theorem lawful_leaf {k : LeafKind} {l : Label} :
    (Node.leaf k l).Lawful fit ↔ fit (.leaf k) l.attributes := by
  unfold Lawful subtree
  constructor
  · intro h
    exact (h _ (List.mem_singleton_self _)).1
  · intro h m hm
    rw [List.mem_singleton.mp hm]
    exact ⟨h, fun c hc => absurd hc List.not_mem_nil⟩

theorem lawful_branch {k : BranchKind} {l : Label} {cs : List Node} :
    (Node.branch k l cs).Lawful fit ↔
      fit (.branch k) l.attributes ∧ (∀ c ∈ cs, k.accepts c.kind = true) ∧
        ∀ c ∈ cs, c.Lawful fit := by
  constructor
  · intro h
    have h0 := h _ (self_mem_subtree _)
    refine ⟨h0.1, h0.2, fun c hc m hm => h m ?_⟩
    exact List.mem_cons_of_mem _ (mem_subtrees.mpr ⟨c, hc, hm⟩)
  · rintro ⟨h1, h2, h3⟩ m hm
    rcases List.mem_cons.mp hm with rfl | hm
    · exact ⟨h1, h2⟩
    · obtain ⟨c, hc, hm⟩ := mem_subtrees.mp hm
      exact h3 c hc m hm

/-- Lawful for one demand on the attributes is lawful for any weaker one. -/
theorem Lawful.mono {fit' : Kind → Attributes → Prop} {n : Node} (h : n.Lawful fit)
    (hw : ∀ k a, fit k a → fit' k a) : n.Lawful fit' :=
  fun m hm => ⟨hw _ _ (h m hm).1, (h m hm).2⟩

mutual

theorem Lawful.of_mem {m : Node} : ∀ {n : Node}, n.Lawful fit → m ∈ n.subtree → m.Lawful fit
  | .leaf _ _, h, hm => by
      rw [List.mem_singleton.mp hm]
      exact h
  | .branch _ _ cs, h, hm => by
      rcases List.mem_cons.mp hm with rfl | hm
      · exact h
      · exact Lawful.of_mem_subtrees (lawful_branch.mp h).2.2 hm

theorem Lawful.of_mem_subtrees {m : Node} : ∀ {ns : List Node},
    (∀ n ∈ ns, n.Lawful fit) → m ∈ subtrees ns → m.Lawful fit
  | [], _, hm => absurd hm List.not_mem_nil
  | n :: rest, h, hm => by
      rcases List.mem_append.mp hm with hm | hm
      · exact Lawful.of_mem (h n List.mem_cons_self) hm
      · exact Lawful.of_mem_subtrees (fun c hc => h c (List.mem_cons_of_mem _ hc)) hm

end

end Lawful

/-! ## 3. Outlines -/

/-- What a node is by itself: its kind, its label and how many children it has. -/
def face (n : Node) : Kind × Label × Nat := (n.kind, n.label, n.children.length)

/-- The faces of a node and all below it, in pre-order. -/
def outline (n : Node) : List (Kind × Label × Nat) := n.subtree.map face

theorem map_subtrees : ∀ ns : List Node, (subtrees ns).map face = ns.flatMap outline
  | [] => rfl
  | n :: rest => by
      unfold subtrees
      rw [List.map_append, List.flatMap_cons, map_subtrees rest]
      rfl

theorem outline_branch (k : BranchKind) (l : Label) (cs : List Node) :
    (Node.branch k l cs).outline = (.branch k, l, cs.length) :: cs.flatMap outline := by
  unfold outline
  show _ :: (subtrees cs).map _ = _
  rw [map_subtrees]
  rfl

/-- The first node with a number is where the outline has the number first. -/
theorem find?_outline (n : Node) (id : NodeId) :
    n.outline.find? (fun e => e.2.1.id == id) = (n.subtree.find? fun m => m.id == id).map face := by
  unfold outline
  rw [List.find?_map]
  rfl

/-! ## 4. One node in place of another -/

/-- The second node is the first with `m'` in place of one `m` in it. -/
inductive Replaced (m m' : Node) : Node → Node → Prop where
  | here : Replaced m m' m m'
  | inside {k : BranchKind} {l : Label} (before after : List Node) {n n' : Node} :
    Replaced m m' n n' →
      Replaced m m' (.branch k l (before ++ n :: after)) (.branch k l (before ++ n' :: after))

mutual

/-- **A change replaces the first node with the number**, and does nothing where there is none. -/
theorem change?_cases (id : NodeId) (f : Node → Node) : ∀ n : Node,
    (n.subtree.find? (fun m => m.id == id) = none ∧ n.change? id f = none) ∨
      ∃ m n', n.subtree.find? (fun m => m.id == id) = some m ∧ n.change? id f = some n' ∧
        Replaced m (f m) n n'
  | .leaf k l => by
      by_cases h : l.id = id
      · exact .inr ⟨_, _, by simp [subtree, Node.id, label, h], by simp [change?, h], .here⟩
      · exact .inl ⟨by simp [subtree, Node.id, label, h], by simp [change?, h]⟩
  | .branch k l cs => by
      by_cases h : l.id = id
      · exact .inr ⟨_, _, by simp [subtree, Node.id, label, h], by simp [change?, h], .here⟩
      · have hs : (Node.branch k l cs).subtree.find? (fun m => m.id == id) =
            (subtrees cs).find? (fun m => m.id == id) := by
          simp [subtree, Node.id, label, h]
        rw [hs]
        unfold change?
        rw [if_neg h]
        rcases changeIn?_cases id f cs with ⟨h1, h2⟩ | ⟨m, before, n, n', after, rfl, h1, h2, hr⟩
        · exact .inl ⟨h1, by rw [h2]; rfl⟩
        · exact .inr ⟨m, _, h1, by rw [h2]; rfl, .inside before after hr⟩

/-- The same for a list of nodes: one of them has the replaced node in it. -/
theorem changeIn?_cases (id : NodeId) (f : Node → Node) : ∀ ns : List Node,
    ((subtrees ns).find? (fun m => m.id == id) = none ∧ changeIn? id f ns = none) ∨
      ∃ m before n n' after, ns = before ++ n :: after ∧
        (subtrees ns).find? (fun m => m.id == id) = some m ∧
        changeIn? id f ns = some (before ++ n' :: after) ∧ Replaced m (f m) n n'
  | [] => .inl ⟨rfl, rfl⟩
  | n :: rest => by
      unfold subtrees changeIn?
      rw [List.find?_append]
      rcases change?_cases id f n with ⟨h1, h2⟩ | ⟨m, n', h1, h2, hr⟩
      · rw [h1, h2, Option.none_or]
        rcases changeIn?_cases id f rest with
          ⟨h3, h4⟩ | ⟨m, before, x, x', after, rfl, h3, h4, hr⟩
        · exact .inl ⟨h3, by simp [h4]⟩
        · exact .inr ⟨m, n :: before, x, x', after, rfl, h3, by simp [h4], hr⟩
      · exact .inr ⟨m, [], n, n', rest, rfl, by rw [h1]; rfl, by rw [h2]; rfl, hr⟩

end

theorem find?_self {n : Node} {id : NodeId} (h : n.id = id) :
    n.subtree.find? (fun m => m.id == id) = some n := by
  cases n with
  | leaf k l => exact List.find?_cons_of_pos (beq_iff_eq.mpr h)
  | branch k l cs => exact List.find?_cons_of_pos (beq_iff_eq.mpr h)

section

variable {id : NodeId} {f : Node → Node}

mutual

/-- A change that keeps the number changes what the number stands for. -/
theorem find?_change? (hf : ∀ n, (f n).id = n.id) : ∀ {n n' : Node}, n.change? id f = some n' →
    n'.subtree.find? (fun m => m.id == id) = (n.subtree.find? fun m => m.id == id).map f
  | .leaf k l, n', h => by
      unfold change? at h
      split at h
      · have hid : (Node.leaf k l).id = id := ‹_›
        cases h
        rw [find?_self ((hf _).trans hid), find?_self hid]
        rfl
      · cases h
  | .branch k l cs, n', h => by
      unfold change? at h
      split at h
      · have hid : (Node.branch k l cs).id = id := ‹_›
        cases h
        rw [find?_self ((hf _).trans hid), find?_self hid]
        rfl
      · rename_i hid
        obtain ⟨cs', hcs, rfl⟩ := Option.map_eq_some_iff.mp h
        have hskip : ∀ ds, (Node.branch k l ds).subtree.find? (fun m => m.id == id) =
            (subtrees ds).find? fun m => m.id == id := fun ds =>
          List.find?_cons_of_neg fun e => hid (beq_iff_eq.mp e)
        rw [hskip, hskip]
        exact find?_changeIn? hf hcs

theorem find?_changeIn? (hf : ∀ n, (f n).id = n.id) : ∀ {ns ns' : List Node},
    changeIn? id f ns = some ns' →
      (subtrees ns').find? (fun m => m.id == id) = ((subtrees ns).find? fun m => m.id == id).map f
  | [], _, h => by cases h
  | n :: rest, ns', h => by
      unfold changeIn? at h
      rcases change?_cases id f n with ⟨hno, hn⟩ | ⟨m, n', hm, hn, -⟩
      · rw [hn] at h
        obtain ⟨rest', hrest, rfl⟩ := Option.map_eq_some_iff.mp h
        unfold subtrees
        rw [List.find?_append, List.find?_append, hno, Option.none_or, Option.none_or]
        exact find?_changeIn? hf hrest
      · rw [hn] at h
        cases h
        unfold subtrees
        rw [List.find?_append, List.find?_append, find?_change? hf hn, hm]
        rfl

end

theorem change?_self {n : Node} (h : n.id = id) : n.change? id f = some (f n) := by
  cases n with
  | leaf k l => exact if_pos h
  | branch k l cs => exact if_pos h

/-- Nothing is changed where nothing has the number. -/
theorem change?_of_find?_eq_none {n : Node}
    (h : n.subtree.find? (fun m => m.id == id) = none) : n.change? id f = none := by
  rcases change?_cases id f n with ⟨-, hn⟩ | ⟨m, n', hm, -, -⟩
  · exact hn
  · rw [h] at hm
    cases hm

variable {g : Node → Node}

mutual

/-- **A change that keeps the number, and another one after it, are one change.** -/
theorem change?_change? (hf : ∀ n, (f n).id = n.id) : ∀ {n n' : Node}, n.change? id f = some n' →
    n'.change? id g = n.change? id fun m => g (f m)
  | .leaf k l, n', h => by
      unfold change? at h
      split at h
      · have hid : (Node.leaf k l).id = id := ‹_›
        cases h
        rw [change?_self ((hf _).trans hid), change?_self hid]
      · cases h
  | .branch k l cs, n', h => by
      unfold change? at h
      split at h
      · have hid : (Node.branch k l cs).id = id := ‹_›
        cases h
        rw [change?_self ((hf _).trans hid), change?_self hid]
      · rename_i hid
        obtain ⟨cs', hcs, rfl⟩ := Option.map_eq_some_iff.mp h
        unfold change?
        rw [if_neg hid, if_neg hid, changeIn?_changeIn? hf hcs]

theorem changeIn?_changeIn? (hf : ∀ n, (f n).id = n.id) : ∀ {ns ns' : List Node},
    changeIn? id f ns = some ns' → changeIn? id g ns' = changeIn? id (fun m => g (f m)) ns
  | [], _, h => by cases h
  | n :: rest, ns', h => by
      unfold changeIn? at h
      rcases change?_cases id f n with ⟨hno, hn⟩ | ⟨m, n', hm, hn, -⟩
      · rw [hn] at h
        obtain ⟨rest', hrest, rfl⟩ := Option.map_eq_some_iff.mp h
        unfold changeIn?
        rw [change?_of_find?_eq_none hno, change?_of_find?_eq_none hno,
          changeIn?_changeIn? hf hrest]
      · rw [hn] at h
        cases h
        -- the first change has found the node here, so the second does
        obtain ⟨n'', hn''⟩ : ∃ n'', n.change? id (fun m => g (f m)) = some n'' := by
          rcases change?_cases id (fun m => g (f m)) n with ⟨hno, -⟩ | ⟨m', n'', -, hn'', -⟩
          · rw [hno] at hm
            cases hm
          · exact ⟨n'', hn''⟩
        unfold changeIn?
        rw [change?_change? hf hn, hn'']

end

end

namespace Replaced

variable {m m' n n' : Node}

/-- A node in its own place leaves the whole as it was. -/
theorem eq_of_self (h : Replaced m m n n') : n' = n := by
  induction h with
  | here => rfl
  | inside before after _ ih => rw [ih]

theorem kind_eq (h : Replaced m m' n n') (hk : m'.kind = m.kind) : n'.kind = n.kind := by
  cases h with
  | here => exact hk
  | inside => rfl

/-- What was put in is there. -/
theorem mem_subtree (h : Replaced m m' n n') : m' ∈ n'.subtree := by
  induction h with
  | here => exact self_mem_subtree _
  | inside before after hr ih =>
    refine List.mem_cons_of_mem _ (mem_subtrees.mpr ⟨_, ?_, ih⟩)
    exact List.mem_append_right before List.mem_cons_self

/-- What was replaced was there. -/
theorem mem_source (h : Replaced m m' n n') : m ∈ n.subtree := by
  induction h with
  | here => exact self_mem_subtree _
  | inside before after hr ih =>
    refine List.mem_cons_of_mem _ (mem_subtrees.mpr ⟨_, ?_, ih⟩)
    exact List.mem_append_right before List.mem_cons_self

theorem id_eq (h : Replaced m m' n n') (hid : m'.id = m.id) : n'.id = n.id := by
  cases h with
  | here => exact hid
  | inside => rfl

/-- A lawful node of the same kind in place of another leaves the whole lawful. -/
theorem lawful {fit : Kind → Attributes → Prop} (h : Replaced m m' n n') (hk : m'.kind = m.kind)
    (hm : m'.Lawful fit) (hn : n.Lawful fit) : n'.Lawful fit := by
  induction h with
  | here => exact hm
  | @inside k l before after x x' hr ih =>
    obtain ⟨h1, h2, h3⟩ := lawful_branch.mp hn
    have hx := ih (h3 x (List.mem_append_right before List.mem_cons_self))
    have hxk := hr.kind_eq hk
    refine lawful_branch.mpr ⟨h1, fun c hc => ?_, fun c hc => ?_⟩
    · rcases List.mem_append.mp hc with hc | hc
      · exact h2 c (List.mem_append_left _ hc)
      · rcases List.mem_cons.mp hc with rfl | hc
        · rw [hxk]
          exact h2 x (List.mem_append_right before List.mem_cons_self)
        · exact h2 c (List.mem_append_right before (List.mem_cons_of_mem x hc))
    · rcases List.mem_append.mp hc with hc | hc
      · exact h3 c (List.mem_append_left _ hc)
      · rcases List.mem_cons.mp hc with rfl | hc
        · exact hx
        · exact h3 c (List.mem_append_right before (List.mem_cons_of_mem x hc))

/-- Outside the replaced node the outline is as it was. -/
theorem outline_eq (h : Replaced m m' n n') :
    ∃ before after, n.outline = before ++ m.outline ++ after ∧
      n'.outline = before ++ m'.outline ++ after := by
  induction h with
  | here => exact ⟨[], [], by simp, by simp⟩
  | @inside k l before after x x' _ ih =>
    obtain ⟨b, a, h1, h2⟩ := ih
    refine ⟨(.branch k, l, (before ++ x :: after).length) :: before.flatMap outline ++ b,
      a ++ after.flatMap outline, ?_, ?_⟩
    · rw [outline_branch, List.flatMap_append, List.flatMap_cons, h1]
      simp only [List.append_assoc, List.cons_append]
    · rw [outline_branch, List.flatMap_append, List.flatMap_cons, h2]
      simp only [List.append_assoc, List.cons_append, List.length_append, List.length_cons]

/-- A number that stands for the same face in either node does so in the whole. -/
theorem face_find? (h : Replaced m m' n n') {id : NodeId}
    (hm : (m'.subtree.find? fun x => x.id == id).map face =
      (m.subtree.find? fun x => x.id == id).map face) :
    (n'.subtree.find? fun x => x.id == id).map face =
      (n.subtree.find? fun x => x.id == id).map face := by
  obtain ⟨before, after, h1, h2⟩ := h.outline_eq
  rw [← find?_outline, ← find?_outline] at hm ⊢
  rw [h1, h2]
  simp only [List.find?_append, hm]

end Replaced

/-- What a number stands for in a list of nodes is as before after one is taken out that does not
    have it. -/
theorem find?_eraseIdx {ns : List Node} {index : Nat} {moved : Node} {id : NodeId}
    (hm : ns[index]? = some moved) (hout : moved.contains id = false) :
    (subtrees (ns.eraseIdx index)).find? (fun x => x.id == id) =
      (subtrees ns).find? fun x => x.id == id := by
  have hsplit : ns = ns.take index ++ moved :: ns.drop (index + 1) := by
    rw [← (List.getElem?_eq_some_iff.mp hm).2, List.getElem_cons_drop, List.take_append_drop]
  have hnone : moved.subtree.find? (fun x => x.id == id) = none := by
    rw [List.find?_eq_none]
    intro x hx he
    exact Bool.false_ne_true (hout.symm.trans (List.any_eq_true.mpr ⟨x, hx, he⟩))
  have hcons : subtrees (moved :: ns.drop (index + 1)) =
      moved.subtree ++ subtrees (ns.drop (index + 1)) := rfl
  conv => rhs; rw [hsplit]
  rw [List.eraseIdx_eq_take_drop_succ, subtrees_append, subtrees_append, hcons]
  simp only [List.find?_append, hnone, Option.none_or]

end Node

/-! ## 5. Trees -/

namespace Tree

/-- A tree that is an extension and lawful at every node. -/
def Lawful (fit : Kind → Attributes → Prop) (t : Tree) : Prop :=
  t.root.kind = .extension ∧ t.root.node.Lawful fit

variable {fit : Kind → Attributes → Prop} {t : Tree}

theorem Lawful.mono {fit' : Kind → Attributes → Prop} (h : t.Lawful fit)
    (hw : ∀ k a, fit k a → fit' k a) : t.Lawful fit' :=
  ⟨h.1, h.2.mono hw⟩

theorem Lawful.find? {id : NodeId} {m : Node} (ht : t.Lawful fit) (h : t.find? id = some m) :
    m.Lawful fit :=
  ht.2.of_mem (List.mem_of_find?_eq_some h)

end Tree

end Dialplan
