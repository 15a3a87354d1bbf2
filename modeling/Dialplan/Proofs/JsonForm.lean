import Dialplan.Exchange.Node
import Dialplan.Proofs.Node
import Dialplan.Proofs.Words
import Mathlib
/-!
# Nodes as JSON values

A node that is written as a JSON value is read as the node. Nothing in the value says whether it is
a branch or a leaf but the kind, which stands among the other columns, so a branch is tried first
and then a leaf, at every level.

* `columns?_obj`: a record that is written as an object gives its columns, whatever else it has;
* `choice_obj`: the same behind the word of a choice;
* `Node.InWords`: all numbers of a node have 64 bits;
* `leaf?_of_branchHead?`: **what has the head of a branch is no leaf**, so a branch with a child
  that cannot be read is not read as something less;
* `node?_ofNode`, `branch?_ofNode`, `leaf?_ofNode_eq`: **what is written of a node is read as it**,
  and as a branch or a leaf exactly if it is one.
-/

namespace Dialplan

/-! ## 1. Records written as objects -/

namespace Json

/-- Items of which each is read are read as a list. -/
theorem mapM_map_of_some {α β γ : Type} {write : α → β} {read : β → Option γ} {f : α → γ} :
    ∀ {xs : List α}, (∀ x ∈ xs, read (write x) = some (f x)) →
      (xs.map write).mapM read = some (xs.map f)
  | [], _ => rfl
  | x :: xs, h => by
      have hx := h x List.mem_cons_self
      have hxs := mapM_map_of_some fun y hy => h y (List.mem_cons_of_mem x hy)
      rw [List.map_cons, List.mapM_cons, hx, hxs]
      rfl

variable {members columns : List (String × Json)} {m : String × Json} {tag : String} {w : Json}

/-- A name that an object has once gives its column. -/
theorem member?_of_mem (hd : (members.map (·.1)).Nodup) (hm : m ∈ members) :
    member? [m.1] members = some (.given m.2) := by
  have hfilter : (members.filter fun n => [m.1].contains n.1) = [m] := by
    induction members with
    | nil => cases hm
    | cons n rest ih =>
      obtain ⟨hnot, hrest⟩ := List.nodup_cons.mp hd
      rcases List.mem_cons.mp hm with rfl | hm
      · have hnone : (rest.filter fun n => [m.1].contains n.1) = [] := by
          refine List.filter_eq_nil_iff.mpr fun n hn hc => hnot ?_
          rw [List.contains_iff_mem, List.mem_singleton] at hc
          exact List.mem_map.mpr ⟨n, hn, hc⟩
        rw [List.filter_cons, if_pos (List.contains_iff_mem.mpr (List.mem_singleton_self _)), hnone]
      · have hne : ¬ [m.1].contains n.1 = true := by
          intro hc
          rw [List.contains_iff_mem, List.mem_singleton] at hc
          exact hnot (List.mem_map.mpr ⟨m, hm, hc.symm⟩)
        rw [List.filter_cons, if_neg hne, ih hrest hm]
  unfold member?
  rw [hfilter]

/-- **An object gives the columns that it has**, and leaves its other members aside. -/
theorem columns?_obj (hd : (members.map (·.1)).Nodup) (hc : columns ⊆ members) :
    columns? (columns.map fun m => [m.1]) (.obj members) =
      some (columns.map fun m => .given m.2) :=
  mapM_map_of_some fun _ hm => member?_of_mem hd (hc hm)

/-- The word of a choice stands in front of its columns. -/
theorem tagged?_obj (hd : (((tag, w) :: members).map (·.1)).Nodup) :
    tagged? tag (.obj ((tag, w) :: members)) = some (w, .obj members) := by
  have hword : member? [tag] ((tag, w) :: members) = some (.given w) :=
    member?_of_mem hd List.mem_cons_self
  have hrest : (((tag, w) :: members).filter fun m => m.1 != tag) = members := by
    have hkept : ∀ m ∈ members, (m.1 != tag) = true := fun m hm =>
      bne_iff_ne.mpr fun h => (List.nodup_cons.mp hd).1 (List.mem_map.mpr ⟨m, hm, h⟩)
    rw [List.filter_cons, bne_self_eq_false, if_neg Bool.false_ne_true,
      List.filter_eq_self.mpr hkept]
  unfold tagged?
  simp only [hword, hrest]

/-- A record with a word in front gives the word, and then its columns. -/
theorem choice_obj (tag word : String) (columns : List (String × Json))
    (hd : (tag :: columns.map (·.1)).Nodup) :
    tagged? tag (.obj ((tag, .str word) :: columns)) = some (.str word, .obj columns) ∧
      columns? (columns.map fun m => [m.1]) (.obj columns) =
        some (columns.map fun m => .given m.2) :=
  ⟨tagged?_obj hd, columns?_obj (List.nodup_cons.mp hd).2 (List.Subset.refl _)⟩

/-! ## 2. Numbers of 64 bits -/

theorem nat64?_nat {n : Nat} (h : n < wordLimit) : nat64? (.nat n) = some n := by
  have hfits : 0 ≤ (n : Int) ∧ (n : Int) < 0x10000000000000000 := by
    unfold wordLimit at h
    omega
  simp only [nat, nat64?, if_pos hfits, Int.toNat_natCast]

theorem inRange_nat {n : Nat} (h : n < wordLimit) : (nat n).inRange = true := by
  have hword : isWord n = true := by
    unfold isWord
    unfold wordLimit at h
    rw [Bool.and_eq_true, decide_eq_true_eq, decide_eq_true_eq]
    omega
  unfold nat inRange
  rw [hword, Bool.true_or]

end Json

/-- The numbers of a node and of all below it have 64 bits. -/
def Node.InWords (n : Node) : Prop := ∀ m ∈ n.subtree, m.id.number < wordLimit

theorem Node.inWords_branch {k : BranchKind} {l : Label} {cs : List Node} :
    (Node.branch k l cs).InWords ↔ l.id.number < wordLimit ∧ ∀ c ∈ cs, c.InWords := by
  have hsub : (Node.branch k l cs).subtree = .branch k l cs :: subtrees cs := rfl
  unfold InWords
  rw [hsub, List.forall_mem_cons]
  refine and_congr_right fun _ => ⟨fun h c hc m hm => ?_, fun h m hm => ?_⟩
  · exact h m (mem_subtrees.mpr ⟨c, hc, hm⟩)
  · obtain ⟨c, hc, hm⟩ := mem_subtrees.mp hm
    exact h c hc m hm

theorem Node.inWords_leaf {k : LeafKind} {l : Label} :
    (Node.leaf k l).InWords ↔ l.id.number < wordLimit :=
  List.forall_mem_singleton

/-! ## 3. Nodes -/

namespace Exchange

open Json

theorem id?_ofId {id : NodeId} (h : id.number < wordLimit) : id? (ofId id) = some id := by
  unfold id? ofId
  rw [nat64?_nat h]
  rfl

theorem kind?_ofKind (k : Kind) : kind? (ofKind k) = some k := Kind.ofText?_text k

theorem attributes?_ofAttributes (a : Attributes) : attributes? (ofAttributes a) = some a := by
  have hpairs : (a.pairs.map fun p => Json.arr [.str p.1, .str p.2]).mapM pair? =
      some (a.pairs.map fun p => p) := mapM_map_of_some fun _ _ => rfl
  rw [List.map_id'] at hpairs
  have hlist : list? pair? (ofAttributes a) = some a.pairs := hpairs
  unfold attributes?
  rw [hlist]
  rfl

theorem required_given {α : Type} (f : Json → Option α) (v : Json) :
    (Cell.given v).required f = f v := by
  rw [Cell.required]

/-- The columns of a written label are read as the label. -/
theorem label?_given {l : Label} (h : l.id.number < wordLimit) :
    label? (.given (ofId l.id)) (.given (ofAttributes l.attributes)) (.given (.bool l.enabled)) =
      some l := by
  unfold label?
  rw [required_given, required_given, required_given, id?_ofId h, attributes?_ofAttributes]
  rfl

/-- The members of a written label have names of their own. -/
theorem nodup_ofLabel (k : Kind) (l : Label) : ((ofLabel k l).map (·.1)).Nodup := by
  simp [ofLabel]

theorem nodup_ofBranch (k : Kind) (l : Label) (children : Json) :
    ((ofLabel k l ++ [("children", children)]).map (·.1)).Nodup := by
  simp [ofLabel]

theorem leaf?_ofNode {k : LeafKind} {l : Label} (h : l.id.number < wordLimit) :
    leaf? (ofNode (.leaf k l)) = some (.leaf k l) := by
  have hcolumns : columns? leafColumns (ofNode (.leaf k l)) = some [.given (ofId l.id),
      .given (ofKind (.leaf k)), .given (ofAttributes l.attributes), .given (.bool l.enabled)] :=
    columns?_obj (nodup_ofLabel (.leaf k) l) (List.Subset.refl _)
  have hkind : (Cell.given (ofKind (.leaf k))).required leafKind? = some k := by
    rw [required_given, leafKind?, kind?_ofKind]
  unfold leaf?
  simp only [hcolumns, hkind, label?_given h, Option.bind_eq_bind, Option.bind_some,
    Option.pure_def]

theorem branchHead?_ofNode {k : BranchKind} {l : Label} (h : l.id.number < wordLimit)
    (cs : List Node) : branchHead? (ofNode (.branch k l cs)) = some (k, l) := by
  have hcolumns : columns? (leafColumns ++ [["children"]]) (ofNode (.branch k l cs)) =
      some [.given (ofId l.id), .given (ofKind (.branch k)), .given (ofAttributes l.attributes),
        .given (.bool l.enabled), .given (.arr (ofNodes cs))] :=
    columns?_obj (nodup_ofBranch (.branch k) l _) (List.Subset.refl _)
  have hkind : (Cell.given (ofKind (.branch k))).required branchKind? = some k := by
    rw [required_given, branchKind?, kind?_ofKind]
  unfold branchHead?
  simp only [hcolumns, hkind, label?_given h, Option.bind_eq_bind, Option.bind_some,
    Option.pure_def]

/-! ## 4. Which sort of node -/

/-- What stands in the column where a node says its kind. -/
def saidKind? : Json → Option Json
  | .obj members =>
    match member? ["kind"] members with
    | some (.given v) => some v
    | _ => none
  | .arr items => items[1]?
  | _ => none

section Said

variable {j : Json} {n : Node} {k : BranchKind} {l : Label}

/-- What the second column of a node is read as is read from what stands there. -/
theorem said_of_columns {α : Type} {f : Json → Option α} {a : α} {columns : List (List String)}
    {id kind : Cell} {more : List Cell}
    (h : columns? (["id"] :: ["kind"] :: columns) j = some (id :: kind :: more))
    (hk : kind.required f = some a) : (saidKind? j).bind f = some a := by
  cases kind with
  | absent => cases hk
  | beyond => cases hk
  | given v =>
    have hsaid : saidKind? j = some v := by
      cases j with
      | obj members =>
        simp only [columns?, List.mapM_cons, Option.bind_eq_bind, Option.bind_eq_some_iff,
          Option.pure_def, Option.some.injEq, List.cons.injEq] at h
        obtain ⟨_, -, _, ⟨_, hkind, _, -, rfl⟩, -, rfl, rfl⟩ := h
        simp only [saidKind?, hkind]
      | arr items =>
        rcases items with _ | ⟨_, _ | ⟨_, _⟩⟩
        · simp [columns?, positions?] at h
        · simp [columns?, positions?] at h
        · simp only [columns?, positions?, Option.map_eq_some_iff] at h
          obtain ⟨_, ⟨_, -, rfl⟩, heq⟩ := h
          cases heq
          rfl
      | _ => cases h
    rw [hsaid]
    exact hk

theorem said_of_branchHead? (h : branchHead? j = some (k, l)) :
    (saidKind? j).bind branchKind? = some k := by
  unfold branchHead? at h
  obtain ⟨columns, hcolumns, h⟩ := Option.bind_eq_some_iff.mp h
  split at h
  · obtain ⟨_, hkind, h⟩ := Option.bind_eq_some_iff.mp h
    obtain ⟨_, -, h⟩ := Option.bind_eq_some_iff.mp h
    cases h
    exact said_of_columns hcolumns hkind
  · cases h

theorem said_of_leaf? (h : leaf? j = some n) :
    ∃ k, (saidKind? j).bind leafKind? = some k ∧ n.kind = .leaf k := by
  unfold leaf? at h
  obtain ⟨columns, hcolumns, h⟩ := Option.bind_eq_some_iff.mp h
  split at h
  · obtain ⟨k, hkind, h⟩ := Option.bind_eq_some_iff.mp h
    obtain ⟨_, -, h⟩ := Option.bind_eq_some_iff.mp h
    cases h
    exact ⟨k, said_of_columns hcolumns hkind, rfl⟩
  · cases h

/-- **What has the head of a branch is no leaf.** So a branch with a child that is none is not
    read as something less, but not at all. -/
theorem leaf?_of_branchHead? (h : branchHead? j = some (k, l)) : leaf? j = none := by
  cases hleaf : leaf? j with
  | none => rfl
  | some n =>
    obtain ⟨v, hv, hbranch⟩ := Option.bind_eq_some_iff.mp (said_of_branchHead? h)
    obtain ⟨_, hsaid, -⟩ := said_of_leaf? hleaf
    rw [hv, Option.bind_some] at hsaid
    unfold branchKind? at hbranch
    unfold leafKind? at hsaid
    split at hbranch
    · rename_i hkind
      rw [hkind] at hsaid
      cases hsaid
    · cases hbranch

/-- **A branch is as good as its children**: without them it is nothing. -/
theorem branchOrLeaf?_of_head (h : branchHead? j = some (k, l)) (children : Option (List Node)) :
    branchOrLeaf? j children = children.map fun cs => .branch k l cs := by
  unfold branchOrLeaf? branchWith?
  rw [h, leaf?_of_branchHead? h]
  cases children <;> rfl

end Said

/-- What is written of a leaf has no head of a branch. -/
theorem branchHead?_ofNode_leaf {k : LeafKind} {l : Label} (h : l.id.number < wordLimit) :
    branchHead? (ofNode (.leaf k l)) = none := by
  cases hhead : branchHead? (ofNode (.leaf k l)) with
  | none => rfl
  | some p =>
    have hno := leaf?_of_branchHead? hhead
    rw [leaf?_ofNode h] at hno
    cases hno

theorem childrenAmong?_ofNode (k : BranchKind) (l : Label) (cs : List Node) :
    childrenAmong? (ofLabel (.branch k) l ++ [("children", .arr (ofNodes cs))]) =
      nodes? (ofNodes cs) := by
  simp [ofLabel, childrenAmong?, ofAttributes, Json.list, ofId, nat, ofKind]

/-! ## 5. Whole nodes -/

mutual

/-- **What is written of a node is read as the node.** -/
theorem nodeIn?_ofNode : ∀ {n : Node}, n.InWords → nodeIn? (ofNode n) = some n
  | .leaf k l, h => by
      have hl := Node.inWords_leaf.mp h
      show branchOrLeaf? (ofNode (.leaf k l)) _ = _
      unfold branchOrLeaf? branchWith?
      rw [branchHead?_ofNode_leaf hl, leaf?_ofNode hl]
  | .branch k l cs, h => by
      obtain ⟨hl, hcs⟩ := Node.inWords_branch.mp h
      show branchOrLeaf? (ofNode (.branch k l cs)) (childrenAmong? (ofLabel (.branch k) l ++ _)) = _
      rw [childrenAmong?_ofNode, nodes?_ofNodes hcs,
        branchOrLeaf?_of_head (branchHead?_ofNode hl cs)]
      rfl

theorem nodes?_ofNodes : ∀ {ns : List Node}, (∀ n ∈ ns, n.InWords) → nodes? (ofNodes ns) = some ns
  | [], _ => rfl
  | n :: rest, h => by
      have hn := nodeIn?_ofNode (h n List.mem_cons_self)
      have hrest := nodes?_ofNodes fun m hm => h m (List.mem_cons_of_mem n hm)
      unfold ofNodes nodes?
      rw [hn, hrest]

end

theorem inRange_ofId {id : NodeId} (h : id.number < wordLimit) : (ofId id).inRange = true :=
  inRange_nat h

theorem inRange_ofAttributes (a : Attributes) : (ofAttributes a).inRange = true := by
  unfold ofAttributes Json.list inRange
  induction a.pairs with
  | nil => rfl
  | cons p rest ih => exact ih

/-- What stands behind the columns of a label is all that can be out of range. -/
theorem inRange_ofLabel {k : Kind} {l : Label} (h : l.id.number < wordLimit)
    (more : List (String × Json)) :
    inRangeMembers (ofLabel k l ++ more) = inRangeMembers more := by
  simp only [ofLabel, List.cons_append, List.nil_append, inRangeMembers, inRange_ofId h,
    inRange_ofAttributes, Bool.true_and]
  rfl

mutual

/-- All numbers that are written of a node are in range. -/
theorem inRange_ofNode : ∀ {n : Node}, n.InWords → (ofNode n).inRange = true
  | .leaf k l, h => by
      have hlabel := inRange_ofLabel (k := .leaf k) (Node.inWords_leaf.mp h) []
      rw [List.append_nil] at hlabel
      exact hlabel
  | .branch k l cs, h => by
      obtain ⟨hl, hcs⟩ := Node.inWords_branch.mp h
      have hlabel := inRange_ofLabel (k := .branch k) hl [("children", .arr (ofNodes cs))]
      refine hlabel.trans (Bool.and_eq_true_iff.mpr ⟨?_, rfl⟩)
      exact inRangeAll_ofNodes hcs

theorem inRangeAll_ofNodes : ∀ {ns : List Node}, (∀ n ∈ ns, n.InWords) →
    inRangeAll (ofNodes ns) = true
  | [], _ => rfl
  | n :: rest, h => by
      have hn := inRange_ofNode (h n List.mem_cons_self)
      have hrest := inRangeAll_ofNodes fun m hm => h m (List.mem_cons_of_mem n hm)
      unfold ofNodes inRangeAll
      rw [hn, hrest]
      rfl

end

theorem node?_ofNode {n : Node} (h : n.InWords) : node? (ofNode n) = some n := by
  unfold node?
  rw [if_pos (inRange_ofNode h), nodeIn?_ofNode h]

/-- **What is written of a node is read as a branch exactly if it is one.** -/
theorem branch?_ofNode {n : Node} (h : n.InWords) : branch? (ofNode n) = n.branch? := by
  cases n with
  | leaf k l =>
    have hnone : ∀ children, branchWith? (.obj (ofLabel (.leaf k) l)) children = none := by
      intro children
      have hhead : branchHead? (.obj (ofLabel (.leaf k) l)) = none :=
        branchHead?_ofNode_leaf (Node.inWords_leaf.mp h)
      unfold branchWith?
      rw [hhead]
    simp only [ofNode, branch?, hnone, ite_self, Node.branch?]
  | branch k l cs =>
    obtain ⟨hl, hcs⟩ := Node.inWords_branch.mp h
    have hnamed : membersNamed "children" (ofLabel (.branch k) l ++
        [("children", .arr (ofNodes cs))]) = [.arr (ofNodes cs)] := by
      simp [membersNamed, ofLabel]
    have hrange : (Json.arr (ofNodes cs)).inRange = true := inRangeAll_ofNodes hcs
    show (if (membersNamed "children" (ofLabel (.branch k) l ++ _)).all inRange then
      branchWith? (ofNode (.branch k l cs)) (childrenAmong? (ofLabel (.branch k) l ++ _)) else
        none) = _
    rw [hnamed, List.all_cons, List.all_nil, hrange, childrenAmong?_ofNode, nodes?_ofNodes hcs]
    unfold branchWith?
    rw [branchHead?_ofNode hl]
    rfl

/-- **What is written of a node is read as a leaf exactly if it is one.** -/
theorem leaf?_ofNode_eq {n : Node} (h : n.InWords) :
    leaf? (ofNode n) = if n.kind.isBranch then none else some n := by
  cases n with
  | leaf k l => exact leaf?_ofNode (Node.inWords_leaf.mp h)
  | branch k l cs => exact leaf?_of_branchHead? (branchHead?_ofNode (Node.inWords_branch.mp h).1 cs)

end Exchange

end Dialplan
