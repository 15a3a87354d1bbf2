import Dialplan.Proofs.Places
/-!
# Enabling a node with all below it

The flag that is set at a node is written to everything below it, and nothing else is touched. So
the whole is told by what becomes of each flag: a tree in which all flags are set by one rule that
looks at the number and at the flag that was there.

* `Node.reflag`, `Tree.reflag`: every flag set by a rule;
* `Tree.enable_eq_reflag`: setting a flag is such a rule, in a tree with distinct numbers;
* `Edit.apply_setEnabled`: **what setting a flag does**, and what two of them do one after the
  other.
-/

namespace Dialplan

namespace Node

/-! ## 1. Rules for flags -/

mutual

/-- A node with every flag, also below it, set by a rule. -/
def reflag (rule : NodeId → Bool → Bool) : Node → Node
  | .leaf k l => .leaf k { l with enabled := rule l.id l.enabled }
  | .branch k l cs => .branch k { l with enabled := rule l.id l.enabled } (reflagIn rule cs)

/-- A list of nodes with every flag, also below them, set by a rule. -/
def reflagIn (rule : NodeId → Bool → Bool) : List Node → List Node
  | [] => []
  | n :: rest => n.reflag rule :: reflagIn rule rest

end

section Rules

variable {rule rule' : NodeId → Bool → Bool}

theorem reflagIn_eq_map (rule : NodeId → Bool → Bool) (ns : List Node) :
    reflagIn rule ns = ns.map (reflag rule) := by
  induction ns with
  | nil => rfl
  | cons n rest ih =>
    unfold reflagIn
    rw [ih, List.map_cons]

@[simp] theorem id_reflag (n : Node) : (n.reflag rule).id = n.id := by
  cases n <;> rfl

@[simp] theorem kind_reflag (n : Node) : (n.reflag rule).kind = n.kind := by
  cases n <;> rfl

@[simp] theorem attributes_reflag (n : Node) : (n.reflag rule).attributes = n.attributes := by
  cases n <;> rfl

@[simp] theorem enabled_reflag (n : Node) : (n.reflag rule).enabled = rule n.id n.enabled := by
  cases n <;> rfl

theorem children_reflag (n : Node) : (n.reflag rule).children = n.children.map (reflag rule) := by
  cases n with
  | leaf k l => rfl
  | branch k l cs => exact reflagIn_eq_map rule cs

mutual

theorem subtree_reflag : ∀ n : Node, (n.reflag rule).subtree = n.subtree.map (reflag rule)
  | .leaf _ _ => rfl
  | .branch _ _ cs => congrArg (List.cons _) (subtrees_reflagIn cs)

theorem subtrees_reflagIn : ∀ ns : List Node,
    subtrees (reflagIn rule ns) = (subtrees ns).map (reflag rule)
  | [] => rfl
  | n :: rest => by
      unfold reflagIn subtrees
      rw [subtree_reflag n, subtrees_reflagIn rest, List.map_append]

end

@[simp] theorem ids_reflag (n : Node) : (n.reflag rule).ids = n.ids := by
  unfold ids
  rw [subtree_reflag, List.map_map]
  exact List.map_congr_left fun m _ => id_reflag m

mutual

/-- Two rules that agree on what is there leave the same. -/
theorem reflag_congr : ∀ {n : Node}, (∀ m ∈ n.subtree, rule m.id m.enabled = rule' m.id m.enabled) →
    n.reflag rule = n.reflag rule'
  | .leaf k l, h => by
      have hl : rule l.id l.enabled = rule' l.id l.enabled := h _ (List.mem_singleton_self _)
      unfold reflag
      rw [hl]
  | .branch k l cs, h => by
      have hl : rule l.id l.enabled = rule' l.id l.enabled := h _ (self_mem_subtree _)
      unfold reflag
      rw [hl, reflagIn_congr fun m hm => h m (List.mem_cons_of_mem _ hm)]

theorem reflagIn_congr : ∀ {ns : List Node},
    (∀ m ∈ subtrees ns, rule m.id m.enabled = rule' m.id m.enabled) →
      reflagIn rule ns = reflagIn rule' ns
  | [], _ => rfl
  | n :: rest, h => by
      unfold reflagIn
      rw [reflag_congr fun m hm => h m (List.mem_append_left _ hm),
        reflagIn_congr fun m hm => h m (List.mem_append_right _ hm)]

end

mutual

theorem reflag_keep : ∀ n : Node, n.reflag (fun _ flag => flag) = n
  | .leaf _ _ => rfl
  | .branch k l cs => congrArg (Node.branch k l) (reflagIn_keep cs)

theorem reflagIn_keep : ∀ ns : List Node, reflagIn (fun _ flag => flag) ns = ns
  | [] => rfl
  | n :: rest => congrArg₂ List.cons (reflag_keep n) (reflagIn_keep rest)

end

mutual

/-- A rule after another is one rule. -/
theorem reflag_reflag : ∀ n : Node,
    (n.reflag rule).reflag rule' = n.reflag fun id flag => rule' id (rule id flag)
  | .leaf _ _ => rfl
  | .branch k _ cs => congrArg (Node.branch k _) (reflagIn_reflagIn cs)

theorem reflagIn_reflagIn : ∀ ns : List Node,
    reflagIn rule' (reflagIn rule ns) = reflagIn (fun id flag => rule' id (rule id flag)) ns
  | [] => rfl
  | n :: rest => congrArg₂ List.cons (reflag_reflag n) (reflagIn_reflagIn rest)

end

mutual

theorem enableAll_eq_reflag (flag : Bool) : ∀ n : Node, n.enableAll flag = n.reflag fun _ _ => flag
  | .leaf _ _ => rfl
  | .branch k _ cs => congrArg (Node.branch k _) (enableAllIn_eq_reflagIn flag cs)

theorem enableAllIn_eq_reflagIn (flag : Bool) : ∀ ns : List Node,
    enableAllIn flag ns = reflagIn (fun _ _ => flag) ns
  | [] => rfl
  | n :: rest =>
      congrArg₂ List.cons (enableAll_eq_reflag flag n) (enableAllIn_eq_reflagIn flag rest)

end

/-- A way down leads to the node that it led to, with other flags. -/
theorem nodeFrom?_reflag (is : List Nat) : ∀ n : Node,
    Tree.nodeFrom? (n.reflag rule) is = (Tree.nodeFrom? n is).map (reflag rule) := by
  induction is with
  | nil => exact fun n => rfl
  | cons i is ih =>
    intro n
    show ((n.reflag rule).children[i]?).bind _ = ((n.children[i]?).bind _).map _
    rw [children_reflag, List.getElem?_map]
    cases n.children[i]? with
    | none => rfl
    | some c => exact ih c

end Rules

/-! ## 2. A rule for one node and what stands below it -/

/-- The rule that sets the flags from one node down and leaves all others. -/
def sets (m : Node) (flag : Bool) : NodeId → Bool → Bool :=
  fun id old => if id ∈ m.ids then flag else old

theorem sets_of_mem {m : Node} {id : NodeId} (h : id ∈ m.ids) (flag old : Bool) :
    m.sets flag id old = flag := if_pos h

theorem sets_of_not_mem {m : Node} {id : NodeId} (h : id ∉ m.ids) (flag old : Bool) :
    m.sets flag id old = old := if_neg h

/-- Nodes with other numbers are left as they are. -/
theorem reflagIn_sets_eq_self {m : Node} {flag : Bool} {ns : List Node}
    (h : ∀ id ∈ idsIn ns, id ∉ m.ids) : reflagIn (m.sets flag) ns = ns := by
  have hkeep : reflagIn (m.sets flag) ns = reflagIn (fun _ old => old) ns :=
    reflagIn_congr fun x hx => sets_of_not_mem (h x.id (List.mem_map_of_mem hx)) flag x.enabled
  rw [hkeep, reflagIn_keep]

/-- **The flags from one node down, in its place**, are a rule for the whole, where the numbers are
    distinct. -/
theorem Replaced.eq_reflag {m n n' : Node} {flag : Bool} (h : Replaced m (m.enableAll flag) n n')
    (hd : n.ids.Nodup) : n' = n.reflag (m.sets flag) := by
  induction h with
  | here =>
    rw [enableAll_eq_reflag]
    exact reflag_congr fun x hx => (sets_of_mem (List.mem_map_of_mem hx) flag x.enabled).symm
  | @inside k l before after x x' hr ih =>
    have hsub : ∀ id ∈ m.ids, id ∈ x.ids := by
      intro id hid
      obtain ⟨y, hy, rfl⟩ := List.mem_map.mp hid
      exact List.mem_map_of_mem (mem_subtree_trans hr.mem_source hy)
    obtain ⟨hl, hd⟩ : l.id ∉ idsIn (before ++ x :: after) ∧ (idsIn (before ++ x :: after)).Nodup :=
      List.nodup_cons.mp hd
    rw [idsIn_append, idsIn_cons] at hl hd
    obtain ⟨-, hd, hbefore⟩ := List.nodup_append.mp hd
    obtain ⟨hx, -, hafter⟩ := List.nodup_append.mp hd
    have hlid : l.id ∉ m.ids := fun hm =>
      hl (List.mem_append_right _ (List.mem_append_left _ (hsub _ hm)))
    have hlabel : m.sets flag l.id l.enabled = l.enabled := sets_of_not_mem hlid flag l.enabled
    have hb : reflagIn (m.sets flag) before = before := reflagIn_sets_eq_self fun id hid hm =>
      hbefore id hid id (List.mem_append_left _ (hsub id hm)) rfl
    have ha : reflagIn (m.sets flag) after = after := reflagIn_sets_eq_self fun id hid hm =>
      hafter id (hsub id hm) id hid rfl
    unfold reflag
    rw [hlabel, reflagIn_eq_map, List.map_append, List.map_cons, ← reflagIn_eq_map,
      ← reflagIn_eq_map, hb, ha, ← ih hx]

/-- The rule depends on the numbers only. -/
theorem sets_reflag (n : Node) (rule : NodeId → Bool → Bool) (flag : Bool) :
    (n.reflag rule).sets flag = n.sets flag := by
  unfold sets
  rw [ids_reflag]

/-- What is set from a node down is set anew from a node above it. -/
theorem sets_sets_of_mem {a c : Node} (h : a ∈ c.subtree) (x y : Bool) :
    (fun id old => c.sets y id (a.sets x id old)) = c.sets y := by
  funext id old
  by_cases hc : id ∈ c.ids
  · rw [sets_of_mem hc, sets_of_mem hc]
  · have ha : id ∉ a.ids := by
      intro hm
      obtain ⟨z, hz, rfl⟩ := List.mem_map.mp hm
      exact hc (List.mem_map_of_mem (mem_subtree_trans h hz))
    rw [sets_of_not_mem ha]

/-- Two rules for nodes with no number in common can be swapped. -/
theorem sets_comm {a c : Node} (h : ∀ id ∈ a.ids, id ∉ c.ids) (x y : Bool) :
    (fun id old => c.sets y id (a.sets x id old)) =
      fun id old => a.sets x id (c.sets y id old) := by
  funext id old
  by_cases ha : id ∈ a.ids
  · rw [sets_of_mem ha, sets_of_mem ha, sets_of_not_mem (h id ha)]
  · rw [sets_of_not_mem ha, sets_of_not_mem ha]

end Node

namespace Tree

variable {t : Tree} {n : Node} {rule : NodeId → Bool → Bool}

/-! ## 3. Trees -/

/-- A tree with every flag set by a rule. -/
def reflag (t : Tree) (rule : NodeId → Bool → Bool) : Tree :=
  { t with root :=
      ⟨t.root.kind, { t.root.label with enabled := rule t.root.label.id t.root.label.enabled },
        Node.reflagIn rule t.root.children⟩ }

theorem nodes_reflag : (t.reflag rule).nodes = t.nodes.map (Node.reflag rule) :=
  Node.subtree_reflag t.root.node

theorem mem_nodes_reflag (h : n ∈ t.nodes) : n.reflag rule ∈ (t.reflag rule).nodes := by
  rw [nodes_reflag]
  exact List.mem_map_of_mem h

theorem nodup_ids_reflag (hd : t.ids.Nodup) : (t.reflag rule).ids.Nodup := by
  have h : (t.reflag rule).ids = t.ids := Node.ids_reflag t.root.node
  rw [h]
  exact hd

/-- What stands at a path is what stood there, with another flag. -/
theorem nodeAt?_reflag (p : Path) :
    (t.reflag rule).nodeAt? p = (t.nodeAt? p).map (Node.reflag rule) :=
  Node.nodeFrom?_reflag p.indices t.root.node

theorem reflag_reflag (rule' : NodeId → Bool → Bool) :
    (t.reflag rule).reflag rule' = t.reflag fun id flag => rule' id (rule id flag) := by
  unfold reflag
  rw [Node.reflagIn_reflagIn]

/-- **Setting the flag of a node sets the flags from the node down**, and nothing else. -/
theorem enable_eq_reflag (hd : t.ids.Nodup) (hn : n ∈ t.nodes) (flag : Bool) :
    t.enable n.id flag = t.reflag (n.sets flag) := by
  obtain ⟨hput, hissued⟩ := reshape?_getD (find?_of_mem hd hn)
    (fun l => { l with enabled := flag }) (Node.enableAllIn flag)
  have hall : (n.relabel fun l => { l with enabled := flag }).regrow (Node.enableAllIn flag) =
      n.enableAll flag := by
    cases n <;> rfl
  rw [hall] at hput
  have hroot : (t.enable n.id flag).root = (t.reflag (n.sets flag)).root :=
    Branch.node_inj (Node.Replaced.eq_reflag hput hd)
  exact congrArg₂ Tree.mk hroot hissued

end Tree

namespace Edit

/-! ## 4. The edit -/

variable {t : Tree}

/-- Any node of a tree can be enabled and disabled. -/
theorem apply_setEnabled_eq (hd : t.ids.Nodup) {n : Node} (hn : n ∈ t.nodes) (flag : Bool) :
    apply t (.setEnabled n.id flag) = .ok (t.enable n.id flag, none) := by
  have hneed : needNode t n.id = .ok n := by
    unfold needNode
    rw [Tree.find?_of_mem hd hn]
  refine apply_eq_ok.mpr ⟨?_, rfl⟩
  simp only [check, hneed]
  rfl

/-- **Two flags set one after the other are one rule**, that of the second after that of the
    first. -/
theorem apply_setEnabled_after (hd : t.ids.Nodup) {a c : Node} (ha : a ∈ t.nodes)
    (hc : c ∈ t.nodes) (x y : Bool) : apply (t.enable a.id x) (.setEnabled c.id y) =
      .ok (t.reflag fun id old => c.sets y id (a.sets x id old), none) := by
  rw [Tree.enable_eq_reflag hd ha]
  have hd' : (t.reflag (a.sets x)).ids.Nodup := Tree.nodup_ids_reflag hd
  have hc' : c.reflag (a.sets x) ∈ (t.reflag (a.sets x)).nodes := Tree.mem_nodes_reflag hc
  have h := apply_setEnabled_eq hd' hc' y
  rw [Tree.enable_eq_reflag hd' hc', Node.id_reflag, Node.sets_reflag, Tree.reflag_reflag] at h
  exact h

/-- **Enabling reaches all below a node and nothing else.** In a tree with distinct numbers, let the
    flag of a node be set, that of the root or of any other. Then from the node down all flags are
    set, all others are as they were, and at every path there is the same node as before: the same
    number, kind and attributes, and the same children in the same order. Of two settings the second
    alone counts if it is made above the first, and they can be swapped if neither is made above the
    other. -/
theorem apply_setEnabled (hd : t.ids.Nodup) :
    (∀ n ∈ t.nodes, ∀ flag, ∃ t', apply t (.setEnabled n.id flag) = .ok (t', none) ∧
      t'.issued = t.issued ∧ ∀ p, (t.nodeAt? p = none → t'.nodeAt? p = none) ∧
        ∀ m, t.nodeAt? p = some m → ∃ m', t'.nodeAt? p = some m' ∧
          (m ∈ n.subtree → m'.enabled = flag) ∧ (m ∉ n.subtree → m'.enabled = m.enabled) ∧
          m'.id = m.id ∧ m'.kind = m.kind ∧ m'.attributes = m.attributes ∧
          m'.children.map Node.id = m.children.map Node.id) ∧
    ∀ a ∈ t.nodes, ∀ c ∈ t.nodes, ∀ x y,
      ∃ t₁ t₂, apply t (.setEnabled a.id x) = .ok (t₁, none) ∧
        apply t (.setEnabled c.id y) = .ok (t₂, none) ∧
        (a ∈ c.subtree → apply t₁ (.setEnabled c.id y) = .ok (t₂, none)) ∧
        (a ∉ c.subtree → c ∉ a.subtree → ∃ t₃,
          apply t₁ (.setEnabled c.id y) = .ok (t₃, none) ∧
          apply t₂ (.setEnabled a.id x) = .ok (t₃, none)) := by
  constructor
  · intro n hn flag
    refine ⟨_, apply_setEnabled_eq hd hn flag, ?_⟩
    rw [Tree.enable_eq_reflag hd hn]
    refine ⟨rfl, fun p => ⟨fun h => ?_, fun m hm => ⟨m.reflag (n.sets flag), ?_, ?_, ?_, ?_⟩⟩⟩
    · rw [Tree.nodeAt?_reflag, h]
      rfl
    · rw [Tree.nodeAt?_reflag, hm]
      rfl
    · intro hin
      rw [Node.enabled_reflag]
      exact Node.sets_of_mem (List.mem_map_of_mem hin) flag m.enabled
    · intro hout
      rw [Node.enabled_reflag]
      refine Node.sets_of_not_mem (fun hid => hout ?_) flag m.enabled
      obtain ⟨x, hx, hxid⟩ := List.mem_map.mp hid
      have hmt : m ∈ t.nodes := Tree.mem_nodes_iff.mpr ⟨p, hm⟩
      rw [← Tree.eq_of_id hd (Node.mem_subtree_trans hn hx) hmt hxid]
      exact hx
    · refine ⟨Node.id_reflag m, Node.kind_reflag m, Node.attributes_reflag m, ?_⟩
      rw [Node.children_reflag, List.map_map]
      exact List.map_congr_left fun x _ => Node.id_reflag x
  · intro a ha c hc x y
    refine ⟨_, _, apply_setEnabled_eq hd ha x, apply_setEnabled_eq hd hc y, fun h => ?_,
      fun h h' => ⟨_, apply_setEnabled_after hd ha hc x y, ?_⟩⟩
    · rw [apply_setEnabled_after hd ha hc x y, Node.sets_sets_of_mem h, Tree.enable_eq_reflag hd hc]
    · have hapart : ∀ id ∈ a.ids, id ∉ c.ids := by
        intro id hid hid'
        exact (Tree.nested_of_mem_ids hd ha hc hid hid').elim h' h
      rw [apply_setEnabled_after hd hc ha y x, Node.sets_comm hapart]

/-- The condition is disabled, and with it the regex at the third level, but not the action after
    it; that the regex had been enabled before makes no difference. -/
theorem apply_setEnabled_nestedTree : Tree.nestedTree.ids.Nodup ∧
    ∃ t₁ t₂ m last, apply Tree.nestedTree (.setEnabled ⟨5⟩ true) = .ok (t₁, none) ∧
      apply Tree.nestedTree (.setEnabled ⟨2⟩ false) = .ok (t₂, none) ∧
      apply t₁ (.setEnabled ⟨2⟩ false) = .ok (t₂, none) ∧
      t₂.nodeAt? ⟨[0, 1, 0]⟩ = some m ∧ m.enabled = false ∧
      t₂.nodeAt? ⟨[1]⟩ = some last ∧ last.enabled = true := by
  have hd : Tree.nestedTree.ids.Nodup := by decide
  obtain ⟨regex, hregex⟩ : ∃ n, Tree.nestedTree.nodeAt? ⟨[0, 1, 0]⟩ = some n := ⟨_, rfl⟩
  obtain ⟨condition, hcondition⟩ : ∃ n, Tree.nestedTree.nodeAt? ⟨[0]⟩ = some n := ⟨_, rfl⟩
  have hr : regex ∈ Tree.nestedTree.nodes := Tree.mem_nodes_iff.mpr ⟨_, hregex⟩
  have hc : condition ∈ Tree.nestedTree.nodes := Tree.mem_nodes_iff.mpr ⟨_, hcondition⟩
  obtain ⟨action, haction⟩ : ∃ n, Tree.nestedTree.nodeAt? ⟨[1]⟩ = some n := ⟨_, rfl⟩
  have hbelow : regex ∈ condition.subtree := by
    cases hregex
    cases hcondition
    exact Node.mem_subtree_iff_nodeFrom?.mpr ⟨[1, 0], rfl⟩
  have hbeside : action ∉ condition.subtree := by
    have ha : action ∈ Tree.nestedTree.nodes := Tree.mem_nodes_iff.mpr ⟨_, haction⟩
    rw [← Tree.contains_iff_mem_subtree hd hc ha]
    cases haction
    cases hcondition
    decide
  obtain ⟨t₂, h₂, -, hframe⟩ := (apply_setEnabled hd).1 condition hc false
  obtain ⟨t₁, t₂', h₁, h₂', hafter, -⟩ := (apply_setEnabled hd).2 regex hr condition hc true false
  obtain rfl : t₂' = t₂ := congrArg Prod.fst (Except.ok.inj (h₂'.symm.trans h₂))
  obtain ⟨m, hm, henabled, -⟩ := (hframe _).2 regex hregex
  obtain ⟨last, hlast, -, hkept, -⟩ := (hframe _).2 action haction
  cases hregex
  cases hcondition
  cases haction
  exact ⟨hd, t₁, t₂', m, last, h₁, h₂, hafter hbelow, hm, henabled hbelow, hlast, hkept hbeside⟩

end Edit

end Dialplan
