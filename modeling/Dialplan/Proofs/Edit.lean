import Dialplan.Edit
import Dialplan.Proofs.Node
/-!
# What an edit does

`Edit.Done` states, one constructor for each sort of edit, all that an accepted edit does to a tree:
what was checked, which node was replaced and by what. Facts about edits are read off it, so the
check and the effect are opened here only.

* `Edit.apply_done`: an accepted edit is done as `Edit.Done` says;
* `Edit.effect_moveNode`: the two lists that a move changes;
* `Edit.Done.lawful`: edits keep a tree lawful;
* `Tree.attempt`, `Tree.attempts`: edits one after another, refused ones passed over.
-/

namespace Dialplan

/-! ## 1. Binding -/

theorem bind_eq_ok {ε α β : Type} {x : Except ε α} {f : α → Except ε β} {r : β} :
    x >>= f = .ok r ↔ ∃ a, x = .ok a ∧ f a = .ok r := by
  cases x with
  | error e => exact ⟨fun h => (nomatch h), fun ⟨_, h, _⟩ => (nomatch h)⟩
  | ok a => exact ⟨fun h => ⟨a, rfl, h⟩, fun ⟨_, h, hf⟩ => Except.ok.inj h ▸ hf⟩

/-! ## 2. Changes of a tree -/

theorem Branch.node_inj {b c : Branch} (h : b.node = c.node) : b = c := by
  obtain ⟨k, l, cs⟩ := b
  obtain ⟨k', l', cs'⟩ := c
  cases h
  rfl

namespace Tree

/-- Another tree, with `m'` in place of one node `m`. -/
def Put (t : Tree) (m m' : Node) (t' : Tree) : Prop := Node.Replaced m m' t.root.node t'.root.node

variable {t t' : Tree} {m m' : Node} {fit : Kind → Attributes → Prop}

theorem Put.root_kind (h : t.Put m m' t') (hk : m'.kind = m.kind) : t'.root.kind = t.root.kind :=
  Kind.branch.inj (Node.Replaced.kind_eq h hk)

theorem Put.lawful (h : t.Put m m' t') (hk : m'.kind = m.kind) (hm : m'.Lawful fit)
    (ht : t.Lawful fit) : t'.Lawful fit :=
  ⟨(h.root_kind hk).trans ht.1, Node.Replaced.lawful h hk hm ht.2⟩

/-- A node in its own place leaves the tree as it was. -/
theorem Put.eq_of_self (h : t.Put m m t') (hi : t'.issued = t.issued) : t' = t := by
  have hroot := Branch.node_inj (Node.Replaced.eq_of_self h)
  cases t
  cases t'
  cases hroot
  cases hi
  rfl

/-- **Reshaping replaces the first node with the number**, and nothing else. -/
theorem reshape?_cases (t : Tree) (id : NodeId) (label : Label → Label)
    (children : List Node → List Node) :
    (t.find? id = none ∧ t.reshape? id label children = none) ∨
      ∃ m t', t.find? id = some m ∧ t.reshape? id label children = some t' ∧
        t.Put m ((m.relabel label).regrow children) t' ∧ t'.issued = t.issued := by
  unfold reshape?
  by_cases h : t.root.id = id
  · have hf : t.find? id = some t.root.node := List.find?_cons_of_pos (beq_iff_eq.mpr h)
    rw [if_pos h]
    exact .inr ⟨t.root.node, _, hf, rfl, .here, rfl⟩
  · have hf : t.find? id = (Node.subtrees t.root.children).find? fun n => n.id == id :=
      List.find?_cons_of_neg fun e => h (beq_iff_eq.mp e)
    rw [hf, if_neg h]
    rcases Node.changeIn?_cases id (fun n => (n.relabel label).regrow children) t.root.children with
      ⟨h1, h2⟩ | ⟨m, before, n, n', after, hc, h1, h2, hr⟩
    · exact .inl ⟨h1, by rw [h2]; rfl⟩
    · refine .inr ⟨m, { t with root := { t.root with children := before ++ n' :: after } }, h1,
        by rw [h2]; rfl, ?_, rfl⟩
      unfold Put Branch.node
      rw [hc]
      exact .inside before after hr

theorem reshape?_getD {id : NodeId} (h : t.find? id = some m) (label : Label → Label)
    (children : List Node → List Node) :
    t.Put m ((m.relabel label).regrow children) ((t.reshape? id label children).getD t) ∧
      ((t.reshape? id label children).getD t).issued = t.issued := by
  rcases t.reshape?_cases id label children with ⟨h1, -⟩ | ⟨m₁, t', h1, h2, hp, hi⟩
  · rw [h] at h1
    cases h1
  · rw [h] at h1
    cases h1
    rw [h2]
    exact ⟨hp, hi⟩

end Tree

/-- A branch with other children. -/
def Branch.grown (b : Branch) (children : List Node → List Node) : Branch :=
  { b with children := children b.children }

theorem Node.eq_of_branch? {n : Node} {b : Branch} (h : n.branch? = some b) : n = b.node := by
  cases n with
  | leaf k l => cases h
  | branch k l cs => cases h; rfl

theorem Tree.regrow_put {t : Tree} {id : NodeId} {b : Branch} (h : t.find? id = some b.node)
    (children : List Node → List Node) :
    t.Put b.node (b.grown children).node (t.regrow id children) ∧
      (t.regrow id children).issued = t.issued :=
  Tree.reshape?_getD h (fun l => l) children

/-! ## 3. Accepted edits -/

namespace Edit

/-- **All that an accepted edit does.** The tree after it, and the number of the node it made. -/
inductive Done (t : Tree) : Edit → Tree → Option NodeId → Prop where
  | addChild {parent : NodeId} {kind : Kind} {position : Option Nat} {b : Branch} {n : Node}
      {t₁ t' : Tree} (hk : kind ≠ .extension) (hb : t.find? parent = some b.node)
      (ha : b.accepts kind = true) (hp : ∀ i, position = some i → i ≤ b.children.length)
      (hc : t.create? kind = some (n, t₁))
      (hr : t.Put b.node (b.grown (insertAt position n)).node t') (hi : t'.issued = t₁.issued) :
    Done t (.addChild parent kind position) t' (some n.id)
  | removeChild {parent : NodeId} {index : Nat} {b : Branch} {t' : Tree}
      (hb : t.find? parent = some b.node) (hp : index < b.children.length)
      (hr : t.Put b.node (b.grown fun ns => ns.eraseIdx index).node t')
      (hi : t'.issued = t.issued) :
    Done t (.removeChild parent index) t' none
  | moveNode {node fromParent : NodeId} {fromIndex : Nat} {destination : Destination}
      {source target target₁ : Branch} {moved : Node} {t₁ t' : Tree}
      (hs : t.find? fromParent = some source.node)
      (hm : source.children[fromIndex]? = some moved) (hid : moved.id = node)
      (hout : moved.contains destination.parent = false)
      (ht : t.find? destination.parent = some target.node) (ha : target.accepts moved.kind = true)
      (hp : ∀ i, destination.position = some i →
        i ≤ if target.id = fromParent then target.children.length - 1 else target.children.length)
      (hr : t.Put source.node (source.grown fun ns => ns.eraseIdx fromIndex).node t₁)
      (ht₁ : t₁.find? destination.parent = some target₁.node)
      (hk : target₁.kind = target.kind ∧ target₁.label = target.label)
      (hr₁ : t₁.Put target₁.node (target₁.grown (insertAt destination.position moved)).node t')
      (hi : t'.issued = t.issued) :
    Done t (.moveNode node fromParent fromIndex destination) t' none
  | setEnabled {node : NodeId} {flag : Bool} {m : Node} {t' : Tree} (hm : t.find? node = some m)
      (hr : t.Put m (m.enableAll flag) t') (hi : t'.issued = t.issued) :
    Done t (.setEnabled node flag) t' none
  | setAttribute {node : NodeId} {key value : String} {m : Node} {t' : Tree}
      (hm : t.find? node = some m) (ha : m.kind.Admits key)
      (hr : t.Put m (m.relabel fun l =>
        { l with attributes := l.attributes.set key (writtenValue m.kind key value) }) t')
      (hi : t'.issued = t.issued) :
    Done t (.setAttribute node key value) t' none

theorem needBranch_ok {t : Tree} {id : NodeId} {b : Branch} (h : needBranch t id = .ok b) :
    t.find? id = some b.node := by
  unfold needBranch at h
  split at h
  · cases h
  · rename_i n hn
    split at h
    · cases h
    · rename_i b' hb
      cases h
      rw [hn, Node.eq_of_branch? hb]

theorem checkKind_ok {b : Branch} {k : Kind} (h : checkKind b k = .ok ()) : b.accepts k = true := by
  unfold checkKind at h
  split at h
  · assumption
  · cases h

theorem checkPosition_ok {position : Option Nat} {size : Nat}
    (h : checkPosition position size = .ok ()) : ∀ i, position = some i → i ≤ size := by
  rintro i rfl
  by_cases hi : i > size
  · simp [checkPosition, hi] at h
  · omega

theorem needChild_ok {b : Branch} {parent node : NodeId} {index : Nat} {n : Node}
    (h : needChild b parent index node = .ok n) : b.children[index]? = some n ∧ n.id = node := by
  unfold needChild at h
  split at h
  · rename_i n' hn
    split at h
    · cases h
      exact ⟨hn, ‹_›⟩
    · cases h
  · cases h

theorem needNode_ok {t : Tree} {id : NodeId} {n : Node} (h : needNode t id = .ok n) :
    t.find? id = some n := by
  unfold needNode at h
  split at h
  · cases h
  · cases h
    assumption

theorem branch?_of_find? {t : Tree} {id : NodeId} {b : Branch} (h : t.find? id = some b.node) :
    t.branch? id = some b := by
  unfold Tree.branch?
  rw [h]
  rfl

theorem find?_of_root {t t' : Tree} (h : t'.root = t.root) (id : NodeId) :
    t'.find? id = t.find? id := by
  unfold Tree.find? Tree.nodes
  rw [h]

theorem create?_root {t t' : Tree} {k : Kind} {n : Node} (h : t.create? k = some (n, t')) :
    t'.root = t.root := by
  rcases k with k | k <;> cases k <;> cases h <;> rfl

theorem id_of_find? {t : Tree} {id : NodeId} {m : Node} (h : t.find? id = some m) : m.id = id := by
  have hm : (m.id == id) = true := List.find?_some (p := fun n : Node => n.id == id) h
  exact beq_iff_eq.mp hm

/-- A branch that was given other children is still the first with its number. -/
theorem find?_regrow {t : Tree} {id : NodeId} {b : Branch} (h : t.find? id = some b.node)
    (children : List Node → List Node) :
    (t.regrow id children).find? id = some (b.grown children).node := by
  have hkeep : ∀ n : Node, ((n.relabel fun l => l).regrow children).id = n.id := by
    intro n
    cases n <;> rfl
  unfold Tree.regrow Tree.reshape?
  by_cases hr : t.root.id = id
  · have hroot : t.find? id = some t.root.node := Node.find?_self (n := t.root.node) hr
    obtain rfl : t.root = b := Branch.node_inj (Option.some.inj (hroot.symm.trans h))
    rw [if_pos hr]
    exact Node.find?_self (n := (t.root.grown children).node) hr
  · have hskip : ∀ cs, Tree.find? { t with root := { t.root with children := cs } } id =
        (Node.subtrees cs).find? fun m => m.id == id := fun cs =>
      List.find?_cons_of_neg fun e => hr (beq_iff_eq.mp e)
    have hin : (Node.subtrees t.root.children).find? (fun m => m.id == id) = some b.node :=
      (hskip t.root.children).symm.trans h
    rw [if_neg hr]
    rcases Node.changeIn?_cases id (fun n => (n.relabel fun l => l).regrow children)
      t.root.children with ⟨hno, -⟩ | ⟨m, before, n, n', after, -, -, hch, -⟩
    · rw [hin] at hno
      cases hno
    · rw [hch]
      refine (hskip _).trans ?_
      rw [Node.find?_changeIn? hkeep hch, hin]
      rfl

/-- **The branch with a number after another one, or this one, was given other children**, among
    which the number still stands for the same. It keeps its place in the outline, so its kind and
    its label are as before, and its own children have changed only if it is that branch. -/
theorem find?_of_regrown {t : Tree} {parent id : NodeId} {b target : Branch}
    (children : List Node → List Node) (hb : t.find? parent = some b.node)
    (hc : (Node.subtrees (children b.children)).find? (fun m => m.id == id) =
      (Node.subtrees b.children).find? fun m => m.id == id)
    (ht : t.find? id = some target.node) :
    ∃ b' : Branch, (t.regrow parent children).find? id = some b'.node ∧
      (b'.kind = target.kind ∧ b'.label = target.label) ∧
      b'.children.length = if target.id = parent then (children b.children).length
        else target.children.length := by
  have hid : target.id = id := id_of_find? ht
  by_cases hsame : target.id = parent
  · obtain rfl : parent = id := hsame.symm.trans hid
    obtain rfl : b = target := Branch.node_inj (Option.some.inj (hb.symm.trans ht))
    refine ⟨_, find?_regrow hb _, ⟨rfl, rfl⟩, ?_⟩
    rw [if_pos hsame]
    rfl
  · have hother : b.id ≠ id := by
      intro e
      exact hsame (hid.trans (e.symm.trans (id_of_find? hb)))
    have hskip : ∀ cs, ({ b with children := cs } : Branch).node.subtree.find?
        (fun m => m.id == id) = (Node.subtrees cs).find? fun m => m.id == id := fun cs =>
      List.find?_cons_of_neg fun e => hother (beq_iff_eq.mp e)
    have hface : ((t.regrow parent children).find? id).map Node.face =
        (t.find? id).map Node.face := by
      refine (Tree.regrow_put hb children).1.face_find? (congrArg _ ?_)
      exact (hskip _).trans (hc.trans (hskip _).symm)
    rw [ht] at hface
    obtain ⟨n, hn, he⟩ := Option.map_eq_some_iff.mp hface
    cases n with
    | leaf k l => cases he
    | branch k l cs =>
      simp only [Node.face, Prod.mk.injEq] at he
      obtain ⟨hk, hl, hlen⟩ := he
      refine ⟨⟨k, l, cs⟩, hn, ⟨Kind.branch.inj hk, hl⟩, ?_⟩
      rw [if_neg hsame]
      exact hlen

/-- The branch with a number, after a node that does not hold the number was taken out of the tree:
    it has lost a child only if it is the branch that the node was taken from. -/
theorem find?_of_taken {t : Tree} {origin id : NodeId} {source target : Branch} {moved : Node}
    {index : Nat} (hs : t.find? origin = some source.node)
    (hm : source.children[index]? = some moved) (hout : moved.contains id = false)
    (ht : t.find? id = some target.node) :
    ∃ b : Branch, (t.regrow origin fun ns => ns.eraseIdx index).find? id = some b.node ∧
      (b.kind = target.kind ∧ b.label = target.label) ∧
      b.children.length =
        if target.id = origin then target.children.length - 1 else target.children.length := by
  have hlt : index < source.children.length := (List.getElem?_eq_some_iff.mp hm).1
  obtain ⟨b, hb, hk, hlen⟩ := find?_of_regrown (fun ns => ns.eraseIdx index) hs
    (Node.find?_eraseIdx hm hout) ht
  refine ⟨b, hb, hk, ?_⟩
  rw [hlen, List.length_eraseIdx_of_lt hlt]
  split
  · rename_i hsame
    have hid : target.id = id := id_of_find? ht
    rw [← hid, hsame, hs] at ht
    rw [Branch.node_inj (Option.some.inj ht)]
  · rfl

theorem effect_moveNode_of_find? {t : Tree} {node fromParent : NodeId} {fromIndex : Nat}
    {destination : Destination} {source : Branch} {moved : Node}
    (hs : t.find? fromParent = some source.node) (hm : source.children[fromIndex]? = some moved) :
    effect t (.moveNode node fromParent fromIndex destination) =
      ((t.regrow fromParent fun ns => ns.eraseIdx fromIndex).regrow destination.parent
        (insertAt destination.position moved), none) := by
  simp only [effect, branch?_of_find? hs, Option.bind_some, hm]

/-- An edit that passes the check is done as `Done` says. -/
theorem check_done {t : Tree} {e : Edit} (hc : e.check t = .ok ()) :
    Done t e (e.effect t).1 (e.effect t).2 := by
  cases e with
  | addChild parent kind position =>
    simp only [check] at hc
    split at hc
    · cases hc
    rename_i hk
    obtain ⟨b, hb, hc⟩ := bind_eq_ok.mp hc
    obtain ⟨⟨⟩, ha, hp⟩ := bind_eq_ok.mp hc
    have hb := needBranch_ok hb
    obtain ⟨n, t₁, hn⟩ : ∃ n t₁, t.create? kind = some (n, t₁) := by
      rcases kind with k | k
      · cases k with
        | extension => exact absurd rfl hk
        | _ => exact ⟨_, _, rfl⟩
      · exact ⟨_, _, rfl⟩
    have hr := create?_root hn
    have hput := Tree.regrow_put ((find?_of_root hr parent).trans hb) (insertAt position n)
    have he : effect t (.addChild parent kind position) =
        (t₁.regrow parent (insertAt position n), some n.id) := by
      simp only [effect, hn]
    rw [he]
    refine .addChild hk hb (checkKind_ok ha) (checkPosition_ok hp) hn ?_ hput.2
    unfold Tree.Put
    rw [← hr]
    exact hput.1
  | removeChild parent index =>
    obtain ⟨b, hb, hc⟩ := bind_eq_ok.mp hc
    have hp : index < b.children.length := by
      by_cases hp : index < b.children.length
      · exact hp
      · rw [if_pos (Nat.le_of_not_lt hp)] at hc
        cases hc
    have hb := needBranch_ok hb
    have hput := Tree.regrow_put hb fun ns => ns.eraseIdx index
    exact .removeChild hb hp hput.1 hput.2
  | moveNode node fromParent fromIndex destination =>
    obtain ⟨source, hs, hc⟩ := bind_eq_ok.mp hc
    obtain ⟨moved, hm, hc⟩ := bind_eq_ok.mp hc
    have hout : moved.contains destination.parent = false := by
      cases ho : moved.contains destination.parent with
      | false => rfl
      | true =>
        rw [if_pos ho] at hc
        cases hc
    rw [hout, if_neg Bool.false_ne_true] at hc
    obtain ⟨target, ht, hc⟩ := bind_eq_ok.mp hc
    obtain ⟨⟨⟩, ha, hp⟩ := bind_eq_ok.mp hc
    have hs := needBranch_ok hs
    have ht := needBranch_ok ht
    obtain ⟨hm, hid⟩ := needChild_ok hm
    have hput := Tree.regrow_put hs fun ns => ns.eraseIdx fromIndex
    obtain ⟨target₁, ht₁, hk, -⟩ := find?_of_taken hs hm hout ht
    have hput₁ := Tree.regrow_put ht₁ (insertAt destination.position moved)
    rw [effect_moveNode_of_find? hs hm]
    exact .moveNode hs hm hid hout ht (checkKind_ok ha) (checkPosition_ok hp) hput.1 ht₁ hk hput₁.1
      (hput₁.2.trans hput.2)
  | setEnabled node flag =>
    obtain ⟨m, hm, -⟩ := bind_eq_ok.mp hc
    have hm := needNode_ok hm
    have hput := Tree.reshape?_getD hm (fun l => { l with enabled := flag })
      (Node.enableAllIn flag)
    refine .setEnabled hm ?_ hput.2
    cases m with
    | leaf k l => exact hput.1
    | branch k l cs => exact hput.1
  | setAttribute node key value =>
    obtain ⟨m, hm, hc⟩ := bind_eq_ok.mp hc
    have hm := needNode_ok hm
    have ha : m.kind.Admits key := by
      split at hc
      · cases hc
      · rename_i hn
        simp only [Bool.or_eq_true, Bool.and_eq_true, decide_eq_true_eq, Bool.not_eq_true',
          not_or, not_and, Bool.not_eq_false, ne_eq, Decidable.not_not] at hn
        exact ⟨hn.2, hn.1.1, hn.1.2⟩
    have hput := Tree.reshape?_getD hm (fun l =>
      { l with attributes := l.attributes.set key (writtenValue m.kind key value) }) fun cs => cs
    have he : effect t (.setAttribute node key value) = (t.relabel node fun l =>
        { l with attributes := l.attributes.set key (writtenValue m.kind key value) }, none) := by
      simp only [effect, hm]
    rw [he]
    refine .setAttribute hm ha ?_ hput.2
    cases m with
    | leaf k l => exact hput.1
    | branch k l cs => exact hput.1

/-- **The two lists that a move changes**: the one that the node is taken out of, and the one that
    the destination has then, which is long enough. -/
theorem effect_moveNode {t : Tree} {node fromParent : NodeId} {fromIndex : Nat}
    {destination : Destination}
    (hc : check t (.moveNode node fromParent fromIndex destination) = .ok ()) :
    ∃ source moved b t₁, t.find? fromParent = some (Branch.node source) ∧
      source.children[fromIndex]? = some moved ∧ moved.id = node ∧
      t₁ = t.regrow fromParent (fun ns => ns.eraseIdx fromIndex) ∧
      t₁.find? destination.parent = some (Branch.node b) ∧
      (∀ i, destination.position = some i → i ≤ b.children.length) ∧
      effect t (.moveNode node fromParent fromIndex destination) =
        (t₁.regrow destination.parent (insertAt destination.position moved), none) := by
  obtain ⟨u, c, hd⟩ :
      ∃ u c, Done t (.moveNode node fromParent fromIndex destination) u c :=
    ⟨_, _, check_done hc⟩
  cases hd with
  | @moveNode _ _ _ _ source target target₁ moved t₁ _ hs hm hid hout ht ha hp hr ht₁ hk hr₁ hi =>
    obtain ⟨b, hb, -, hlen⟩ := find?_of_taken hs hm hout ht
    refine ⟨source, moved, b, _, hs, hm, hid, rfl, hb, fun i h => ?_,
      effect_moveNode_of_find? hs hm⟩
    rw [hlen]
    exact hp i h

theorem needBranch_of_find? {t : Tree} {id : NodeId} {b : Branch} (h : t.find? id = some b.node) :
    needBranch t id = .ok b := by
  unfold needBranch
  rw [h]
  rfl

/-- **When a move passes the check.** -/
theorem check_moveNode {t : Tree} {node fromParent : NodeId} {fromIndex : Nat}
    {destination : Destination} {source target : Branch} {moved : Node}
    (hs : t.find? fromParent = some source.node) (hm : source.children[fromIndex]? = some moved)
    (hid : moved.id = node) (hout : moved.contains destination.parent = false)
    (ht : t.find? destination.parent = some target.node) (ha : target.accepts moved.kind = true)
    (hp : ∀ i, destination.position = some i →
      i ≤ if target.id = fromParent then target.children.length - 1 else target.children.length) :
    check t (.moveNode node fromParent fromIndex destination) = .ok () := by
  have hchild : needChild source fromParent fromIndex node = .ok moved := by
    unfold needChild
    rw [hm]
    exact if_pos hid
  have hkind : checkKind target moved.kind = .ok () := if_pos ha
  have hposition : ∀ size, (∀ i, destination.position = some i → i ≤ size) →
      checkPosition destination.position size = .ok () := by
    intro size h
    unfold checkPosition
    split
    · rfl
    · exact if_neg (Nat.not_lt.mpr (h _ ‹_›))
  simp only [check, needBranch_of_find? hs, hchild, hout, needBranch_of_find? ht, hkind, bind,
    Except.bind]
  exact hposition _ hp

/-- An edit that is accepted has passed the check and has its effect. -/
theorem apply_eq_ok {t : Tree} {e : Edit} {r : Tree × Option NodeId} :
    e.apply t = .ok r ↔ e.check t = .ok () ∧ e.effect t = r := by
  unfold apply
  cases e.check t with
  | error x => exact ⟨fun h => (nomatch h), fun h => (nomatch h.1)⟩
  | ok u => exact ⟨fun h => ⟨rfl, Except.ok.inj h⟩, fun h => congrArg Except.ok h.2⟩

/-- **An accepted edit is done as `Done` says.** -/
theorem apply_done {t t' : Tree} {e : Edit} {c : Option NodeId} (h : e.apply t = .ok (t', c)) :
    Done t e t' c := by
  obtain ⟨hc, he⟩ := apply_eq_ok.mp h
  have hd := check_done hc
  rw [he] at hd
  exact hd

/-! ## 4. Edits keep a tree lawful -/

/-- Demands on attributes that new nodes meet and that writing an admitted attribute keeps. -/
structure Stable (fit : Kind → Attributes → Prop) : Prop where
  fresh : ∀ k : Kind, fit k k.defaults
  set : ∀ (k : Kind) (a : Attributes) (key value : String), fit k a → k.Admits key →
    fit k (a.set key (writtenValue k key value))

theorem stable_fits : Stable Kind.Fits where
  fresh k := k.shows_defaults.1
  set _ _ _ _ h hk := h.set _ hk

theorem stable_shows : Stable Kind.Shows where
  fresh k := k.shows_defaults
  set _ _ _ _ h hk := h.set _ hk

theorem mem_of_mem_insertAt {position : Option Nat} {n m : Node} {ns : List Node}
    (h : m ∈ insertAt position n ns) : m = n ∨ m ∈ ns := by
  cases position with
  | none =>
    rcases List.mem_append.mp h with h | h
    · exact .inr h
    · exact .inl (List.mem_singleton.mp h)
  | some i =>
    by_cases hi : i ≤ ns.length
    · exact (List.mem_insertIdx hi).mp h
    · rw [insertAt, List.insertIdx_of_length_lt (Nat.lt_of_not_le hi)] at h
      exact .inr h

theorem enableAllIn_eq_map (flag : Bool) (ns : List Node) :
    Node.enableAllIn flag ns = ns.map (Node.enableAll flag) := by
  induction ns with
  | nil => rfl
  | cons n rest ih =>
    unfold Node.enableAllIn
    rw [ih, List.map_cons]

theorem kind_enableAll (flag : Bool) (n : Node) : (n.enableAll flag).kind = n.kind := by
  cases n <;> rfl

section Lawful

variable {fit : Kind → Attributes → Prop} {t t' : Tree}

mutual

theorem lawful_enableAll (flag : Bool) : ∀ {n : Node},
    n.Lawful fit → (n.enableAll flag).Lawful fit
  | .leaf _ _, h => by
      have hl := Node.lawful_leaf.mp h
      exact Node.lawful_leaf.mpr hl
  | .branch _ _ cs, h => by
      obtain ⟨h1, h2, h3⟩ := Node.lawful_branch.mp h
      refine Node.lawful_branch.mpr ⟨h1, fun c hc => ?_, lawful_enableAllIn flag h3⟩
      rw [enableAllIn_eq_map] at hc
      obtain ⟨x, hx, rfl⟩ := List.mem_map.mp hc
      rw [kind_enableAll]
      exact h2 x hx

theorem lawful_enableAllIn (flag : Bool) : ∀ {ns : List Node},
    (∀ n ∈ ns, n.Lawful fit) → ∀ n ∈ Node.enableAllIn flag ns, n.Lawful fit
  | [], _, _, hn => absurd hn List.not_mem_nil
  | x :: rest, h, n, hn => by
      rcases List.mem_cons.mp hn with rfl | hn
      · exact lawful_enableAll flag (h x List.mem_cons_self)
      · exact lawful_enableAllIn flag (fun c hc => h c (List.mem_cons_of_mem x hc)) n hn

end

theorem lawful_create? (hs : Stable fit) {k : Kind} {n : Node} (h : t.create? k = some (n, t')) :
    n.Lawful fit ∧ n.kind = k := by
  have leaf : ∀ (k : LeafKind) (id : NodeId),
      (Node.leaf k (.new id (.leaf k))).Lawful fit := fun k _ =>
    Node.lawful_leaf.mpr (hs.fresh (.leaf k))
  rcases k with k | k
  · cases k with
    | extension => cases h
    | condition =>
      cases h
      exact ⟨Node.lawful_branch.mpr ⟨hs.fresh _, fun _ hc => absurd hc List.not_mem_nil,
        fun _ hc => absurd hc List.not_mem_nil⟩, rfl⟩
    | regexCondition =>
      cases h
      refine ⟨Node.lawful_branch.mpr ⟨hs.fresh _, fun c hc => ?_, fun c hc => ?_⟩, rfl⟩
      · rw [List.mem_singleton.mp hc]
        rfl
      · rw [List.mem_singleton.mp hc]
        exact leaf _ _
  · cases h
    exact ⟨leaf _ _, rfl⟩

theorem lawful_grown {b : Branch} (hb : b.node.Lawful fit) {children : List Node → List Node}
    (hc : ∀ c ∈ children b.children, c ∈ b.children ∨ c.Lawful fit ∧ b.accepts c.kind = true) :
    (b.grown children).node.Lawful fit := by
  obtain ⟨h1, h2, h3⟩ := Node.lawful_branch.mp hb
  refine Node.lawful_branch.mpr ⟨h1, fun c hm => ?_, fun c hm => ?_⟩
  · exact (hc c hm).elim (h2 c) fun h => h.2
  · exact (hc c hm).elim (h3 c) fun h => h.1

/-- **An accepted edit keeps a tree lawful.** -/
theorem Done.lawful (hs : Stable fit) {e : Edit} {c : Option NodeId} (h : Done t e t' c)
    (ht : t.Lawful fit) : t'.Lawful fit := by
  cases h with
  | addChild hk hb ha hp hc hr hi =>
    obtain ⟨hn, rfl⟩ := lawful_create? hs hc
    refine hr.lawful rfl (lawful_grown (ht.find? hb) fun c hm => ?_) ht
    exact (mem_of_mem_insertAt hm).elim (fun e => .inr (e ▸ ⟨hn, ha⟩)) .inl
  | removeChild hb hp hr hi =>
    exact hr.lawful rfl (lawful_grown (ht.find? hb) fun c hm =>
      .inl (List.mem_of_mem_eraseIdx hm)) ht
  | @moveNode _ _ _ _ source target target₁ moved _ _ hm hs' hid hout htg ha hp hr ht₁ hk hr₁ hi =>
    have hsource := ht.find? hm
    have hmoved : moved.Lawful fit :=
      (Node.lawful_branch.mp hsource).2.2 moved (List.mem_of_getElem? hs')
    have h₁ := hr.lawful rfl (lawful_grown hsource fun c hc =>
      .inl (List.mem_of_mem_eraseIdx hc)) ht
    refine hr₁.lawful rfl (lawful_grown (h₁.find? ht₁) fun c hc => ?_) h₁
    refine (mem_of_mem_insertAt hc).elim (fun e => .inr ⟨e ▸ hmoved, ?_⟩) .inl
    unfold Branch.accepts at ha ⊢
    rw [e, hk.1]
    exact ha
  | setEnabled hm hr hi =>
    exact hr.lawful (kind_enableAll _ _) (lawful_enableAll _ (ht.find? hm)) ht
  | @setAttribute _ key value m _ hm ha hr hi =>
    have hl := ht.find? hm
    cases m with
    | leaf k l =>
      exact hr.lawful rfl (Node.lawful_leaf.mpr
        (hs.set _ _ key value (Node.lawful_leaf.mp hl) ha)) ht
    | branch k l cs =>
      obtain ⟨h1, h2⟩ := Node.lawful_branch.mp hl
      exact hr.lawful rfl (Node.lawful_branch.mpr ⟨hs.set _ _ key value h1 ha, h2⟩) ht

end Lawful

end Edit

/-! ## 5. Edits one after another -/

namespace Tree

/-- The tree after an edit, as it was where the edit is refused. -/
def attempt (t : Tree) (e : Edit) : Tree :=
  match e.apply t with
  | .ok (t', _) => t'
  | .error _ => t

/-- The tree after edits one after another. -/
def attempts (t : Tree) (es : List Edit) : Tree := es.foldl attempt t

variable {fit : Kind → Attributes → Prop}

theorem Lawful.attempt {t : Tree} (hs : Edit.Stable fit) (ht : t.Lawful fit) (e : Edit) :
    (t.attempt e).Lawful fit := by
  unfold Tree.attempt
  split
  · exact (Edit.apply_done ‹_›).lawful hs ht
  · exact ht

/-- **Whatever edits are tried, a lawful tree stays lawful.** -/
theorem Lawful.attempts {t : Tree} (hs : Edit.Stable fit) (ht : t.Lawful fit) (es : List Edit) :
    (t.attempts es).Lawful fit := by
  induction es generalizing t with
  | nil => exact ht
  | cons e es ih => exact ih (ht.attempt hs e)

theorem lawful_bare (hs : Edit.Stable fit) : bare.Lawful fit :=
  ⟨rfl, Node.lawful_branch.mpr ⟨hs.fresh .extension, fun _ hc => absurd hc List.not_mem_nil,
    fun _ hc => absurd hc List.not_mem_nil⟩⟩

end Tree

end Dialplan
