import Dialplan.Proofs.Moving
import Dialplan.Proofs.Places
/-!
# Taking an edit back

What was added can be removed, and what was moved can be moved back. The edit that takes another one
back is not only right, it is accepted: it finds its branches again, it makes no cycle, the branch
takes the node, and the index is in bounds, counted in a list from which the node has been taken.

* `Tree.regrow_restore`: two changes of one list that leave it as it was leave the tree as it was;
* `Tree.not_contains_parent`: no node holds the branch that it stands in;
* `Edit.undo`: **the edits that take back an addition and a move**.
-/

namespace Dialplan

namespace Tree

variable {t t₁ : Tree} {id : NodeId} {b : Branch}

/-! ## 1. One list changed twice -/

/-- A node that is reshaped twice is reshaped once. -/
theorem reshape?_reshape? {label : Label → Label} (hl : ∀ l, (label l).id = l.id)
    {children : List Node → List Node} (h : t.reshape? id label children = some t₁)
    (label' : Label → Label) (children' : List Node → List Node) :
    t₁.reshape? id label' children' =
      t.reshape? id (fun l => label' (label l)) fun ns => children' (children ns) := by
  have hkeep : ∀ n : Node, ((n.relabel label).regrow children).id = n.id := by
    intro n
    cases n <;> exact hl _
  have hboth : (fun n : Node =>
      (((n.relabel label).regrow children).relabel label').regrow children') =
      fun n => (n.relabel fun l => label' (label l)).regrow fun ns => children' (children ns) := by
    funext n
    cases n <;> rfl
  unfold reshape? at h ⊢
  by_cases hr : t.root.id = id
  · rw [if_pos hr] at h ⊢
    cases h
    exact if_pos ((hl _).trans hr)
  · rw [if_neg hr] at h ⊢
    obtain ⟨cs, hcs, rfl⟩ := Option.map_eq_some_iff.mp h
    have hsecond := Node.changeIn?_changeIn?
      (g := fun n => (n.relabel label').regrow children') hkeep hcs
    rw [hboth] at hsecond
    rw [← hsecond]
    exact if_neg hr

/-- **Two changes of one list of children that leave it as it was leave the tree as it was.** -/
theorem regrow_restore (hb : t.find? id = some b.node) {f g : List Node → List Node}
    (hc : g (f b.children) = b.children) : (t.regrow id f).regrow id g = t := by
  rcases t.reshape?_cases id (fun l => l) f with ⟨hno, -⟩ | ⟨m, t₁, -, ht₁, -, -⟩
  · rw [hb] at hno
    cases hno
  rcases t.reshape?_cases id (fun l => l) fun ns => g (f ns) with
    ⟨hno, -⟩ | ⟨m, t₂, hm, ht₂, hput, hissued⟩
  · rw [hb] at hno
    cases hno
  obtain rfl : b.node = m := Option.some.inj (hb.symm.trans hm)
  -- at the branch both changes together change nothing
  have hsame : (b.node.relabel fun l => l).regrow (fun ns => g (f ns)) = b.node :=
    congrArg (Node.branch b.kind b.label) hc
  rw [hsame] at hput
  have htwice := reshape?_reshape? (fun _ => rfl) ht₁ (fun l => l) g
  rw [ht₂] at htwice
  unfold regrow
  rw [ht₁, Option.getD_some, htwice]
  exact hput.eq_of_self hissued

/-! ## 2. The branch that a node stands in -/

/-- **No node holds the branch that it stands in.** -/
theorem not_contains_parent (hd : t.ids.Nodup) (hb : b ∈ t.branches) {i : Nat} {n : Node}
    (hn : b.children[i]? = some n) : n.contains b.id = false := by
  have hnode : b.node ∈ t.nodes := mem_branches.mp hb
  have hchild : n ∈ t.nodes := child_mem_nodes hb hn
  obtain ⟨p, hp⟩ := mem_nodes_iff.mp hnode
  have hpath := (pathOf?_eq_some_iff hd hnode).mpr hp
  have hpath' := (pathOf?_eq_some_iff hd hchild).mpr (nodeAt?_child.mpr ⟨_, hp, hn⟩)
  rw [← Bool.not_eq_true]
  intro hin
  have hstarts := (contains_iff_startsWith hd hchild hnode hpath' hpath).mp hin
  have hlen := (List.isPrefixOf_iff_prefix.mp hstarts).length_le
  unfold Path.child at hlen
  rw [List.length_append, List.length_singleton] at hlen
  omega

end Tree

namespace Edit

/-! ## 3. A list without and with the node -/

theorem insertIdx_eraseIdx {ns : List Node} {i : Nat} {n : Node} (h : ns[i]? = some n) :
    (ns.eraseIdx i).insertIdx i n = ns := by
  obtain ⟨hi, rfl⟩ := List.getElem?_eq_some_iff.mp h
  exact List.insertIdx_eraseIdx_getElem hi

/-- What a number stands for below a list is as before after a node is put in that does not have
    it. -/
theorem find?_insertAt {position : Option Nat} {ns : List Node} {n : Node} {id : NodeId}
    (hp : ∀ i, position = some i → i ≤ ns.length) (hout : n.contains id = false) :
    (Node.subtrees (insertAt position n ns)).find? (fun x => x.id == id) =
      (Node.subtrees ns).find? fun x => x.id == id := by
  have h := Node.find?_eraseIdx (getElem?_insertAt n hp) hout
  rw [eraseIdx_insertAt] at h
  exact h.symm

/-! ## 4. Taking back -/

variable {t t' : Tree} {c : Option NodeId}

/-- **Removing the new node takes an addition back**: the root is what it was. The numbers that were
    given out stay given out. -/
theorem undo_addChild (hn : t.Numbered) {parent : NodeId} {kind : Kind} {position : Option Nat}
    (h : apply t (.addChild parent kind position) = .ok (t', c)) :
    ∃ id b i t'', c = some id ∧ t'.parentOf? id = some (b, i) ∧ b.id = parent ∧
      apply t' (.removeChild b.id i) = .ok (t'', none) ∧ t''.root = t.root := by
  have hdone := apply_done h
  have hd' := (hn.done hdone).distinct
  obtain ⟨-, he⟩ := apply_eq_ok.mp h
  cases hdone with
  | @addChild _ _ _ b n t₁ _ hk hb ha hp hc hr hi =>
    have hroot := create?_root hc
    have hb₁ : t₁.find? parent = some b.node := (find?_of_root hroot parent).trans hb
    obtain rfl : t₁.regrow parent (insertAt position n) = t' := by
      simp only [effect, hc] at he
      exact congrArg Prod.fst he
    have hb' := find?_regrow hb₁ (insertAt position n)
    have hat := getElem?_insertAt n hp
    have hparent := Tree.parentOf?_of_child hd' (Tree.mem_branches_of_find? hb') hat
    have hremove : apply (t₁.regrow parent (insertAt position n))
        (.removeChild parent (position.getD b.children.length)) = .ok (t₁, none) := by
      rw [apply_removeChild hd' hb' hat, ← Tree.regrow_eraseIdx hd' hb' hat,
        Tree.regrow_restore hb₁ (eraseIdx_insertAt position n b.children)]
    have hid : b.id = parent := id_of_find? hb
    exact ⟨n.id, _, _, t₁, rfl, hparent, hid, hid ▸ hremove, hroot⟩

/-- **Moving the node back takes a move back**: the tree is what it was. -/
theorem undo_moveNode (hd : t.ids.Nodup)
    (ha : ∀ n ∈ t.nodes, ∀ m ∈ n.children, n.kind.accepts m.kind = true)
    {node fromParent : NodeId} {fromIndex : Nat} {destination : Destination}
    (h : apply t (.moveNode node fromParent fromIndex destination) = .ok (t', c)) :
    ∃ b i, t'.parentOf? node = some (b, i) ∧ b.id = destination.parent ∧
      apply t' (.moveNode node b.id i (.index fromParent fromIndex)) = .ok (t, none) := by
  have hdone := apply_done h
  have hissued : t'.issued = t.issued := by
    cases hdone with
    | moveNode _ _ _ _ _ _ _ _ _ _ _ hi => exact hi
  have hd' : t'.ids.Nodup := hdone.distinct hissued hd
  obtain ⟨hc, he⟩ := apply_eq_ok.mp h
  obtain ⟨source, moved, b, t₁, hs, hm, rfl, ht₁, hb, hp, heffect⟩ := effect_moveNode hc
  rw [heffect] at he
  obtain rfl : t₁.regrow destination.parent (insertAt destination.position moved) = t' :=
    congrArg Prod.fst he
  -- the node is where it was put
  have hb' := find?_regrow hb (insertAt destination.position moved)
  have hat := getElem?_insertAt moved hp
  have hparent := Tree.parentOf?_of_child hd' (Tree.mem_branches_of_find? hb') hat
  have hid : (b.grown (insertAt destination.position moved)).id = destination.parent :=
    id_of_find? hb
  -- the branch that it came from is still there, without it, and takes it
  have hsource : source ∈ t.branches := Tree.mem_branches_of_find? hs
  have hlt : fromIndex < source.children.length := (List.getElem?_eq_some_iff.mp hm).1
  obtain ⟨left, hleft, hkind, hlid, hcut⟩ : ∃ left : Branch,
      t₁.find? fromParent = some left.node ∧ left.kind = source.kind ∧ left.id = fromParent ∧
        left.children.length = source.children.length - 1 :=
    ⟨source.grown fun ns => ns.eraseIdx fromIndex, ht₁ ▸ find?_regrow hs _, rfl, id_of_find? hs,
      List.length_eraseIdx_of_lt hlt⟩
  have hout : moved.contains fromParent = false :=
    id_of_find? hs ▸ Tree.not_contains_parent hd hsource hm
  obtain ⟨target, ht, hk, hlen⟩ := find?_of_regrown (insertAt destination.position moved) hb
    (find?_insertAt hp hout) hleft
  have haccepts : target.accepts moved.kind = true := by
    unfold Branch.accepts
    rw [hk.1, hkind]
    exact ha _ (Tree.mem_branches.mp hsource) _ (List.mem_of_getElem? hm)
  have hindex : ∀ i, (Destination.index fromParent fromIndex).position = some i →
      i ≤ if target.id = destination.parent then target.children.length - 1
        else target.children.length := by
    rintro _ ⟨⟩
    have htid : target.id = left.id := congrArg Label.id hk.2
    rw [hlen, length_insertAt moved hp, htid, hlid]
    split
    · -- moved within one branch: the list is as long as it was
      rename_i hsame
      obtain rfl : b = left := by
        rw [← hsame, hleft] at hb
        exact (Branch.node_inj (Option.some.inj hb)).symm
      omega
    · omega
  refine ⟨_, _, hparent, hid, ?_⟩
  rw [hid]
  refine apply_eq_ok.mpr ⟨check_moveNode hb' hat rfl hout ht haccepts hindex, ?_⟩
  rw [effect_moveNode_of_find? hb' hat,
    Tree.regrow_restore hb (eraseIdx_insertAt destination.position moved b.children), ht₁]
  show (Tree.regrow _ _ _, none) = _
  have hback := Tree.regrow_restore hs (f := fun ns => ns.eraseIdx fromIndex)
    (g := fun ns => ns.insertIdx fromIndex moved) (insertIdx_eraseIdx hm)
  exact congrArg (Prod.mk · none) hback

/-- **Every addition and every move can be taken back**, in a tree with distinct numbers, all of
    them given out, and every child where it may stand. Removing the created node where it stands
    gives the root back, and moving the node from where it stands to where it stood gives the tree
    back. -/
theorem undo (hn : t.Numbered)
    (ha : ∀ n ∈ t.nodes, ∀ m ∈ n.children, n.kind.accepts m.kind = true) :
    (∀ parent kind position t' c, apply t (.addChild parent kind position) = .ok (t', c) →
      ∃ id b i t'', c = some id ∧ t'.parentOf? id = some (b, i) ∧ b.id = parent ∧
        apply t' (.removeChild b.id i) = .ok (t'', none) ∧ t''.root = t.root) ∧
    ∀ node fromParent fromIndex destination t' c,
      apply t (.moveNode node fromParent fromIndex destination) = .ok (t', c) →
      ∃ b i, t'.parentOf? node = some (b, i) ∧ b.id = destination.parent ∧
        apply t' (.moveNode node b.id i (.index fromParent fromIndex)) = .ok (t, none) := by
  constructor
  · intro parent kind position t' c h
    exact undo_addChild hn h
  · intro node fromParent fromIndex destination t' c h
    exact undo_moveNode hn.distinct ha h

/-- A condition of regexes is added before others and removed, and one is moved out of its condition
    and back into it. -/
theorem undo_nestedTree :
    (Tree.nestedTree.Numbered ∧
      ∀ n ∈ Tree.nestedTree.nodes, ∀ m ∈ n.children, n.kind.accepts m.kind = true) ∧
    (∃ t' b i t'', apply Tree.nestedTree (.addChild ⟨2⟩ .regexCondition (some 0)) =
        .ok (t', some ⟨7⟩) ∧ t'.parentOf? ⟨7⟩ = some (b, i) ∧
      apply t' (.removeChild b.id i) = .ok (t'', none) ∧ t''.root = Tree.nestedTree.root) ∧
    ∃ t' b i, apply Tree.nestedTree (.moveNode ⟨4⟩ ⟨2⟩ 1 (.index ⟨1⟩ 0)) = .ok (t', none) ∧
      t'.parentOf? ⟨4⟩ = some (b, i) ∧
      apply t' (.moveNode ⟨4⟩ b.id i (.index ⟨2⟩ 1)) = .ok (Tree.nestedTree, none) := by
  have hn : Tree.nestedTree.Numbered := ⟨by decide, by decide⟩
  have ha : ∀ n ∈ Tree.nestedTree.nodes, ∀ m ∈ n.children, n.kind.accepts m.kind = true := by
    decide
  obtain ⟨id, b, i, t'', hc, hparent, -, hremove, hroot⟩ :=
    (undo hn ha).1 ⟨2⟩ .regexCondition (some 0) _ _ rfl
  obtain ⟨b', i', hparent', -, hback⟩ := (undo hn ha).2 ⟨4⟩ ⟨2⟩ 1 (.index ⟨1⟩ 0) _ _ rfl
  cases hc
  exact ⟨⟨hn, ha⟩, ⟨_, b, i, t'', rfl, hparent, hremove, hroot⟩, ⟨_, b', i', rfl, hparent', hback⟩⟩

end Edit

end Dialplan
