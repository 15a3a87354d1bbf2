import Dialplan.Proofs.DetailRow
import Dialplan.Proofs.Edit
import Dialplan.Proofs.Reading
import Mathlib.Data.List.Nodup
/-!
# Numbers of nodes

Every node has the number that was next when it was made, and no number is given out twice.

* `minted`: the numbers given out while the count grows;
* `Tree.InOrder`: the numbers of a tree are all that were given out, in pre-order; so it is with the
  bare extension, with a tree that was read and with a tree made of rows;
* `Tree.Numbered`: distinct numbers, all of them given out; `Edit.Done.ids` says which numbers come
  and go with an edit, and `Numbered.attempts` that edits keep a tree numbered.
-/

namespace Dialplan

/-! ## 1. Numbers given out -/

/-- The numbers that are given out while the count goes from `a` to `b`. -/
def minted (a b : Nat) : List NodeId := (List.range' (a + 1) (b - a)).map NodeId.mk

theorem mem_minted {a b : Nat} {i : NodeId} : i ∈ minted a b ↔ a < i.number ∧ i.number ≤ b := by
  unfold minted
  rw [List.mem_map]
  constructor
  · rintro ⟨n, hn, rfl⟩
    have h := List.mem_range'_1.mp hn
    show a < n ∧ n ≤ b
    omega
  · intro h
    refine ⟨i.number, List.mem_range'_1.mpr ?_, rfl⟩
    omega

theorem nodup_minted (a b : Nat) : (minted a b).Nodup := by
  unfold minted
  refine List.Nodup.map ?_ List.nodup_range'
  intro m n h
  injection h

@[simp] theorem minted_self (a : Nat) : minted a a = [] := by
  simp [minted]

theorem minted_succ (a : Nat) : minted a (a + 1) = [⟨a + 1⟩] := by
  unfold minted
  rw [Nat.add_sub_cancel_left]
  rfl

theorem minted_append {a b c : Nat} (hab : a ≤ b) (hbc : b ≤ c) :
    minted a b ++ minted b c = minted a c := by
  unfold minted
  have hb : b + 1 = a + 1 + 1 * (b - a) := by omega
  have hc : c - a = b - a + (c - b) := by omega
  rw [← List.map_append, hc, hb, List.range'_append]

/-! ## 2. The numbers in a node -/

namespace Node

/-- The numbers of a node and of all below it, in pre-order. -/
def ids (n : Node) : List NodeId := n.subtree.map Node.id

/-- The numbers of the nodes of a list and of all below them, in pre-order. -/
def idsIn (ns : List Node) : List NodeId := (subtrees ns).map Node.id

@[simp] theorem ids_leaf (k : LeafKind) (l : Label) : (Node.leaf k l).ids = [l.id] := rfl

@[simp] theorem ids_branch (k : BranchKind) (l : Label) (cs : List Node) :
    (Node.branch k l cs).ids = l.id :: idsIn cs := rfl

@[simp] theorem idsIn_nil : idsIn [] = [] := rfl

@[simp] theorem idsIn_cons (n : Node) (rest : List Node) :
    idsIn (n :: rest) = n.ids ++ idsIn rest := List.map_append

@[simp] theorem idsIn_append (ns ms : List Node) : idsIn (ns ++ ms) = idsIn ns ++ idsIn ms := by
  unfold idsIn
  rw [subtrees_append, List.map_append]

theorem idsIn_eq_flatMap (ns : List Node) : idsIn ns = ns.flatMap ids := by
  induction ns with
  | nil => rfl
  | cons n rest ih => rw [idsIn_cons, ih, List.flatMap_cons]

theorem ids_eq_map_outline (n : Node) : n.ids = n.outline.map fun e => e.2.1.id := by
  unfold ids outline
  rw [List.map_map]
  rfl

/-- Numbers that come and go at one node come and go in the whole. -/
theorem Replaced.ids_perm {m m' n n' : Node} (h : Replaced m m' n n') (gone new : List NodeId)
    (hm : (gone ++ m'.ids).Perm (new ++ m.ids)) : (gone ++ n'.ids).Perm (new ++ n.ids) := by
  obtain ⟨before, after, h1, h2⟩ := h.outline_eq
  rw [ids_eq_map_outline] at hm ⊢
  rw [ids_eq_map_outline m] at hm
  rw [ids_eq_map_outline n, h1, h2]
  rw [List.perm_iff_count] at hm ⊢
  intro i
  have hi := hm i
  simp only [List.map_append, List.count_append] at hi ⊢
  omega

mutual

@[simp] theorem ids_enableAll (flag : Bool) : ∀ n : Node, (n.enableAll flag).ids = n.ids
  | .leaf _ _ => rfl
  | .branch k l cs => by
      show l.id :: idsIn (enableAllIn flag cs) = l.id :: idsIn cs
      rw [idsIn_enableAllIn flag cs]

@[simp] theorem idsIn_enableAllIn (flag : Bool) : ∀ ns : List Node,
    idsIn (enableAllIn flag ns) = idsIn ns
  | [] => rfl
  | n :: rest => by
      unfold enableAllIn
      rw [idsIn_cons, idsIn_cons, ids_enableAll flag n, idsIn_enableAllIn flag rest]

end

theorem ids_relabel {n : Node} {f : Label → Label} (hf : ∀ l, (f l).id = l.id) :
    (n.relabel f).ids = n.ids := by
  cases n with
  | leaf k l =>
    show [(f l).id] = [l.id]
    rw [hf]
  | branch k l cs =>
    show (f l).id :: idsIn cs = l.id :: idsIn cs
    rw [hf]

/-- A child that is taken out takes its numbers along. -/
theorem idsIn_eraseIdx {ns : List Node} {index : Nat} {n : Node} (h : ns[index]? = some n) :
    (n.ids ++ idsIn (ns.eraseIdx index)).Perm (idsIn ns) := by
  obtain ⟨hlt, hn⟩ := List.getElem?_eq_some_iff.mp h
  have hs : ns = ns.take index ++ n :: ns.drop (index + 1) := by
    rw [← hn, List.getElem_cons_drop, List.take_append_drop]
  have he : ns.eraseIdx index = ns.take index ++ ns.drop (index + 1) :=
    List.eraseIdx_eq_take_drop_succ ..
  rw [he]
  conv => rhs; rw [hs]
  rw [List.perm_iff_count]
  intro i
  simp only [idsIn_append, idsIn_cons, List.count_append]
  omega

/-- A child that is put in brings its numbers; past the end of the list it is lost with them. -/
theorem idsIn_insertAt (position : Option Nat) (n : Node) (ns : List Node) :
    ∃ gone, (gone ++ idsIn (Edit.insertAt position n ns)).Perm (n.ids ++ idsIn ns) := by
  cases position with
  | none =>
    refine ⟨[], ?_⟩
    show (idsIn (ns ++ [n])).Perm _
    simp only [idsIn_append, idsIn_cons, idsIn_nil, List.append_nil]
    exact List.perm_append_comm
  | some i =>
    by_cases hi : i ≤ ns.length
    · refine ⟨[], ?_⟩
      show (idsIn (ns.insertIdx i n)).Perm _
      have hp := (List.perm_insertIdx n ns hi).flatMap_right ids
      rw [idsIn_eq_flatMap, idsIn_eq_flatMap]
      exact hp
    · refine ⟨n.ids, ?_⟩
      have hl : ns.insertIdx i n = ns := List.insertIdx_of_length_lt (Nat.lt_of_not_le hi)
      show (n.ids ++ idsIn (ns.insertIdx i n)).Perm _
      rw [hl]

end Node

/-! ## 3. Numbered trees -/

namespace Tree

/-- The numbers of a tree, in pre-order. -/
def ids (t : Tree) : List NodeId := t.root.node.ids

/-- The numbers of a tree are all that were given out, in pre-order. -/
def InOrder (t : Tree) : Prop := t.ids = minted 0 t.issued

/-- **Distinct numbers, all of them given out.** -/
structure Numbered (t : Tree) : Prop where
  distinct : t.ids.Nodup
  issued : ∀ i ∈ t.ids, i.number ≤ t.issued

theorem InOrder.numbered {t : Tree} (h : t.InOrder) : t.Numbered where
  distinct := by
    rw [h]
    exact nodup_minted 0 t.issued
  issued i hi := by
    rw [h] at hi
    exact (mem_minted.mp hi).2

theorem inOrder_bare : bare.InOrder := rfl

/-- Numbers that are new are none of those before. -/
theorem Numbered.not_mem_of_mem_minted {t : Tree} (h : t.Numbered) {b : Nat} {i : NodeId}
    (hi : i ∈ minted t.issued b) : i ∉ t.ids := by
  intro hm
  have h1 := (mem_minted.mp hi).1
  have h2 := h.issued i hm
  omega

/-- A tree stays numbered when all that comes is newly given out. -/
theorem Numbered.of_perm {t t' : Tree} (h : t.Numbered) (hle : t.issued ≤ t'.issued)
    {gone : List NodeId} (hp : (gone ++ t'.ids).Perm (minted t.issued t'.issued ++ t.ids)) :
    t'.Numbered where
  distinct := by
    have hd : (minted t.issued t'.issued ++ t.ids).Nodup := by
      refine List.nodup_append.mpr ⟨nodup_minted _ _, h.distinct, ?_⟩
      rintro i hi _ hm rfl
      exact h.not_mem_of_mem_minted hi hm
    exact (List.nodup_append.mp (hp.nodup_iff.mpr hd)).2.1
  issued i hi := by
    have hm : i ∈ minted t.issued t'.issued ++ t.ids :=
      hp.mem_iff.mp (List.mem_append_right gone hi)
    rcases List.mem_append.mp hm with hm | hm
    · exact (mem_minted.mp hm).2
    · exact Nat.le_trans (h.issued i hm) hle

end Tree

/-! ## 4. Edits -/

namespace Edit

open Node (idsIn)

/-- A new node has the numbers that are given out for it. -/
theorem ids_create? {t t₁ : Tree} {k : Kind} {n : Node} (h : t.create? k = some (n, t₁)) :
    t.issued ≤ t₁.issued ∧ n.ids = minted t.issued t₁.issued := by
  rcases k with k | k
  · cases k with
    | extension => cases h
    | condition =>
      cases h
      exact ⟨Nat.le_succ _, (minted_succ t.issued).symm⟩
    | regexCondition =>
      cases h
      have h1 := minted_succ t.issued
      have h2 := minted_succ (t.issued + 1)
      have h3 : t.issued ≤ t.issued + 1 := Nat.le_succ _
      refine ⟨Nat.le_add_right _ 2, ?_⟩
      show [_, _] = minted t.issued (t.issued + 1 + 1)
      rw [← minted_append h3 (Nat.le_succ _), h1, h2]
      rfl
  · cases h
    exact ⟨Nat.le_succ _, (minted_succ t.issued).symm⟩

theorem ids_grown {b : Branch} {children : List Node → List Node} {gone new : List NodeId}
    (h : (gone ++ idsIn (children b.children)).Perm (new ++ idsIn b.children)) :
    (gone ++ (b.grown children).node.ids).Perm (new ++ b.node.ids) := by
  rw [List.perm_iff_count] at h ⊢
  intro i
  have hi := h i
  show (gone ++ b.label.id :: idsIn (children b.children)).count i =
    (new ++ b.label.id :: idsIn b.children).count i
  simp only [List.count_append, List.count_cons] at hi ⊢
  omega

/-- A child that is taken out of a tree takes its numbers along. -/
theorem ids_taken {t t' : Tree} {b : Branch} {n : Node} {index : Nat}
    (hn : b.children[index]? = some n)
    (hr : t.Put b.node (b.grown fun ns => ns.eraseIdx index).node t') :
    (n.ids ++ t'.ids).Perm t.ids :=
  hr.ids_perm _ [] (ids_grown (Node.idsIn_eraseIdx hn))

/-- **After an edit a tree has the numbers it had and those given out meanwhile**, but for numbers
    that have gone. -/
theorem Done.ids {t t' : Tree} {e : Edit} {c : Option NodeId} (h : Done t e t' c) :
    t.issued ≤ t'.issued ∧
      ∃ gone, (gone ++ t'.ids).Perm (minted t.issued t'.issued ++ t.ids) := by
  -- an edit that gives out no number leaves the count
  have same : t'.issued = t.issued → ∀ gone, (gone ++ t'.ids).Perm t.ids →
      t.issued ≤ t'.issued ∧
        ∃ gone, (gone ++ t'.ids).Perm (minted t.issued t'.issued ++ t.ids) := by
    intro hi gone hp
    refine ⟨Nat.le_of_eq hi.symm, gone, ?_⟩
    rw [hi, minted_self]
    exact hp
  cases h with
  | @addChild _ _ position b n t₁ _ hk hb ha hp hc hr hi =>
    obtain ⟨hle, hn⟩ := ids_create? hc
    obtain ⟨gone, hg⟩ := Node.idsIn_insertAt position n b.children
    rw [hi]
    refine ⟨hle, gone, ?_⟩
    rw [hn] at hg
    exact hr.ids_perm gone _ (ids_grown hg)
  | @removeChild _ index b _ hb hp hr hi =>
    have hm : b.children[index]? = some b.children[index] := List.getElem?_eq_getElem hp
    exact same hi _ (ids_taken hm hr)
  | @moveNode _ _ _ destination source target target₁ moved t₁ _ hs hm hid hout ht ha hp hr ht₁ hk
      hr₁ hi =>
    have h1 : (moved.ids ++ t₁.ids).Perm t.ids := ids_taken hm hr
    obtain ⟨gone, hg⟩ := Node.idsIn_insertAt destination.position moved target₁.children
    have h2 : (gone ++ t'.ids).Perm (moved.ids ++ t₁.ids) := hr₁.ids_perm gone _ (ids_grown hg)
    exact same hi gone (h2.trans h1)
  | @setEnabled _ flag m _ hm hr hi =>
    refine same hi [] (hr.ids_perm [] [] ?_)
    rw [Node.ids_enableAll]
  | @setAttribute _ key value m _ hm ha hr hi =>
    have hl : (m.relabel fun l => { l with
        attributes := l.attributes.set key (writtenValue m.kind key value) }).ids = m.ids :=
      Node.ids_relabel fun _ => rfl
    refine same hi [] (hr.ids_perm [] [] ?_)
    rw [hl]

end Edit

namespace Tree

/-- An accepted edit keeps a tree numbered. -/
theorem Numbered.done {t t' : Tree} {e : Edit} {c : Option NodeId} (h : t.Numbered)
    (hd : Edit.Done t e t' c) : t'.Numbered := by
  obtain ⟨hle, gone, hp⟩ := hd.ids
  exact h.of_perm hle hp

/-- **Whatever edits are tried, a numbered tree stays numbered.** -/
theorem Numbered.attempts {t : Tree} (h : t.Numbered) (es : List Edit) :
    (t.attempts es).Numbered := by
  induction es generalizing t with
  | nil => exact h
  | cons e es ih =>
    refine ih (t := t.attempt e) ?_
    unfold Tree.attempt
    split
    · exact h.done (Edit.apply_done ‹_›)
    · exact h

end Tree

/-! ## 5. Trees of rows -/

namespace DetailRow

open Node (idsIn)

/-- The numbers below the root are those after the root's, in pre-order. -/
def Pass.InOrder (p : Pass) : Prop := 1 ≤ p.issued ∧ idsIn p.finished = minted 1 p.issued

theorem Pass.InOrder.enter {p : Pass} (h : p.InOrder) (group : Int) : (p.enter group).InOrder := by
  unfold Pass.enter
  split
  · exact h
  · refine ⟨h.1, ?_⟩
    show idsIn p.flush.finished = _
    rw [p.finished_flush]
    exact h.2

/-- One more node at the end of the pre-order, with the next number. -/
theorem Pass.InOrder.append {p p' : Pass} (h : p.InOrder) (hi : p'.issued = p.issued + 1)
    (hn : idsIn p'.finished = idsIn p.finished ++ [p.fresh]) : p'.InOrder := by
  refine ⟨by omega, ?_⟩
  have hs : minted p.issued (p.issued + 1) = [p.fresh] := minted_succ p.issued
  rw [hn, h.2, hi, ← hs]
  exact minted_append h.1 (Nat.le_succ _)

theorem Pass.InOrder.addLeaf {p : Pass} (h : p.InOrder) (k : LeafKind) {l : Label}
    (hl : l.id = p.fresh) : (p.addLeaf (.leaf k l)).InOrder := by
  cases hc : p.current with
  | none =>
    refine h.append ?_ ?_
    · simp only [Pass.addLeaf, hc]
    · simp only [Pass.addLeaf, Pass.finished, hc, Option.map_none, Option.toList_none,
        List.append_nil, Node.idsIn_append, Node.idsIn_cons, Node.idsIn_nil, Node.ids_leaf, hl]
  | some b =>
    refine h.append ?_ ?_
    · simp only [Pass.addLeaf, hc]
    · simp only [Pass.addLeaf, Pass.finished, hc, Option.map_some, Option.toList_some, Branch.node,
        Node.idsIn_append, Node.idsIn_cons, Node.idsIn_nil, Node.ids_branch, Node.ids_leaf, hl,
        List.append_nil, List.append_assoc, List.cons_append]

theorem Pass.InOrder.step {p : Pass} (h : p.InOrder) (r : DetailRow) : (p.step r).InOrder := by
  have he := h.enter r.group
  unfold Pass.step
  cases hrole : r.role? with
  | none => exact he
  | some role =>
    cases role with
    | condition k =>
      refine he.append rfl ?_
      show idsIn ((p.enter r.group).finished ++ [.branch k (r.label (.condition k) _) []]) = _
      rw [Node.idsIn_append]
      rfl
    | regex =>
      show Pass.InOrder (if _ then _ else _)
      split
      · exact he.addLeaf .regex rfl
      · exact he
    | action k => exact he.addLeaf k rfl

theorem Pass.InOrder.foldl {p : Pass} (h : p.InOrder) (rows : List DetailRow) :
    (rows.foldl Pass.step p).InOrder := by
  induction rows generalizing p with
  | nil => exact h
  | cons r rows ih => exact ih (h.step r)

end DetailRow

/-- The nodes of a tree of rows have their numbers in pre-order. -/
theorem Tree.inOrder_ofRows (a : Attributes) (rows : List DetailRow) :
    (Tree.ofRows a rows).InOrder := by
  have hp : (DetailRow.Pass.mk [] none none 1).InOrder := ⟨Nat.le_refl 1, rfl⟩
  obtain ⟨h1, h2⟩ := hp.foldl (DetailRow.sorted rows)
  have h0 : minted 0 1 = [⟨1⟩] := minted_succ 0
  have h3 : Node.idsIn (Tree.ofRows a rows).root.children =
      minted 1 (Tree.ofRows a rows).issued := h2
  show [⟨1⟩] ++ Node.idsIn (Tree.ofRows a rows).root.children = _
  rw [h3, ← h0]
  exact minted_append (Nat.zero_le 1) h1

/-! ## 6. Trees that were read -/

namespace Markup

open Dialplan.Text
open Node (idsIn)

/-- The numbers of an element and of all that has been read below it. -/
def Element.ids (e : Element) : List NodeId := e.label.id :: idsIn e.children

/-- The numbers in open elements, innermost first: what is further in comes later. -/
def idsOpen : List Element → List NodeId
  | [] => []
  | e :: outer => idsOpen outer ++ e.ids

/-- The numbers of all that has been read, in pre-order. -/
def State.ids (s : State) : List NodeId :=
  match s.phase with
  | .start | .elementName _ | .inTag _ | .equals .. | .value .. => idsOpen s.outer
  | .body e | .endName e | .endMark e => idsOpen (e :: s.outer)
  | .finished root => root.node.ids

/-- The numbers of all that has been read are all that were given out, in pre-order. -/
def State.InOrder (s : State) : Prop := s.ids = minted 0 s.issued

/-- A sound element keeps its numbers when it becomes a node: a leaf has no children to lose. -/
theorem Element.Sound.ids_node {e : Element} (h : e.Sound) : e.node.ids = e.ids := by
  have ha := h.accepted
  unfold Element.node Element.ids
  split
  · rfl
  · rename_i k hk
    have hc : e.children = [] := by
      refine List.eq_nil_iff_forall_not_mem.mpr ?_
      intro c hc
      have hx := ha c hc
      rw [hk] at hx
      cases hx
    rw [hc]
    rfl

theorem ids_closeElement {outer : List Element} {e : Element} (h : e.Sound) (issued : Nat) :
    (closeElement outer e issued).ids = idsOpen (e :: outer) := by
  cases outer with
  | nil => rfl
  | cons p rest =>
    show idsOpen rest ++ p.label.id :: idsIn (p.children ++ [e.node]) = _
    simp only [idsOpen, Node.idsIn_append, Node.idsIn_cons, Node.idsIn_nil, h.ids_node,
      List.append_nil, List.append_assoc, List.cons_append, Element.ids]

theorem issued_closeElement (outer : List Element) (e : Element) (issued : Nat) :
    (closeElement outer e issued).issued = issued := by
  cases outer <;> rfl

/-- A start tag that is finished gets the next number. -/
theorem idsOpen_opened {s : State} (h : idsOpen s.outer = minted 0 s.issued) (tag : StartTag)
    (kind : Kind) : idsOpen (s.opened tag kind :: s.outer) = minted 0 (s.issued + 1) := by
  show idsOpen s.outer ++ [⟨s.issued + 1⟩] = _
  rw [h, ← minted_succ]
  exact minted_append (Nat.zero_le _) (Nat.le_succ _)

/-- **A step keeps the numbers in order.** -/
theorem Took.inOrder {lt : Located Token} {s s' : State} (h : Took lt s s') (hs : s.Sound)
    (ho : s.InOrder) : s'.InOrder := by
  cases h with
  | @close tag outer issued kind hk => exact idsOpen_opened (s := ⟨.inTag tag, outer, issued⟩) ho ..
  | @selfClose tag outer issued kind hk =>
    have he : (State.opened ⟨.inTag tag, outer, issued⟩ tag kind).Sound := by
      refine ⟨(kindAt_ok hk hs.2).2, ?_, ?_⟩
      · intro c hc
        exact absurd hc List.not_mem_nil
      · intro c hc
        exact absurd hc List.not_mem_nil
    unfold State.InOrder
    rw [issued_closeElement]
    exact (ids_closeElement he _).trans
      (idsOpen_opened (s := ⟨.inTag tag, outer, issued⟩) ho tag kind)
  | @endMark e outer issued =>
    unfold State.InOrder
    rw [issued_closeElement]
    exact (ids_closeElement hs.1 _).trans ho
  | _ => exact ho

/-- **The nodes of a tree that was read have their numbers in pre-order.** -/
theorem inOrder_of_read {text : String} {t : Tree} (h : read text = .ok t) : t.InOrder := by
  have h0 : State.Sound .start ∧ State.InOrder .start := ⟨trivial, rfl⟩
  obtain ⟨lts, outer, -, -, ho⟩ := holds_of_read (P := fun _ s => s.Sound ∧ s.InOrder) h h0
    fun lts hscan lt hlt done s s' ht hs => ⟨sound_of_took hscan hlt ht hs.1, ht.inOrder hs.1 hs.2⟩
  exact ho

end Markup

end Dialplan
