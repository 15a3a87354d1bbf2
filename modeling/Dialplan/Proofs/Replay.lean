import Dialplan.Exchange.Edit
import Dialplan.Proofs.Edit
import Dialplan.Proofs.JsonForm
import Mathlib
/-!
# Edits as JSON values, and their replay

An edit that is written as a JSON value is read as the edit. So a log of edits can be carried out
again on a copy of the tree that it began with, and both trees and all answers are the same.

* `Edit.InWords`: all numbers of an edit have 64 bits;
* `editOf?_addChild` and the like: what each word makes of the columns behind it;
* `edit?_ofEdit`: **what is written of an edit is read as the edit**;
* `Tree.answers`: what edits tried one after another answer;
* `replay?`: a log of edits carried out on a tree, both in JSON;
* `read_written`: **nodes, edits and whole logs survive being written**.
-/

namespace Dialplan

/-! ## 1. Edits -/

/-- The numbers of a destination have 64 bits. -/
def Destination.InWords (d : Destination) : Prop :=
  d.parent.number < wordLimit ∧ ∀ i ∈ d.position, i < wordLimit

/-- The numbers of an edit have 64 bits. -/
def Edit.InWords : Edit → Prop
  | .addChild parent _ position => parent.number < wordLimit ∧ ∀ i ∈ position, i < wordLimit
  | .removeChild parent index => parent.number < wordLimit ∧ index < wordLimit
  | .moveNode node fromParent fromIndex destination =>
    node.number < wordLimit ∧ fromParent.number < wordLimit ∧ fromIndex < wordLimit ∧
      destination.InWords
  | .setEnabled node _ | .setAttribute node _ _ => node.number < wordLimit

namespace Exchange

open Json

theorem given_id {id : NodeId} (h : id.number < wordLimit) :
    (Cell.given (ofId id)).required id? = some id := by
  rw [required_given, id?_ofId h]

theorem given_nat {n : Nat} (h : n < wordLimit) :
    (Cell.given (nat n)).required nat64? = some n := by
  rw [required_given, nat64?_nat h]

theorem given_kind (k : Kind) : (Cell.given (ofKind k)).required innerKind? = some k :=
  Kind.ofText?_text k

/-- A place that may be missing is read as it was. -/
theorem given_position {position : Option Nat} (h : ∀ i ∈ position, i < wordLimit) :
    (Cell.given (Json.option nat position)).optional nat64? = some position := by
  cases position with
  | none => rfl
  | some i =>
    show (nat64? (nat i)).map some = _
    rw [nat64?_nat (h i rfl)]
    rfl

section Words

variable {j : Json} {id node fromParent kind index destination flag key value : Cell}

/-! What a word makes of its columns. -/

theorem destinationOf?_index {p : NodeId} {i : Nat}
    (h : columns? [["parent"], ["index"]] j = some [id, index])
    (hp : id.required id? = some p) (hi : index.required nat64? = some i) :
    destinationOf? "index" j = some (.index p i) := by
  simp only [destinationOf?, h, hp, hi, Option.bind_eq_bind, Option.bind_some, Option.pure_def]

theorem destinationOf?_lastChild {p : NodeId} (h : columns? [["parent"]] j = some [id])
    (hp : id.required id? = some p) : destinationOf? "lastChild" j = some (.lastChild p) := by
  simp only [destinationOf?, h, hp, Option.bind_eq_bind, Option.bind_some, Option.pure_def]

theorem editOf?_addChild {p : NodeId} {k : Kind} {i : Option Nat}
    (h : columns? [["parent"], ["kind"], ["position"]] j = some [id, kind, index])
    (hp : id.required id? = some p) (hk : kind.required innerKind? = some k)
    (hi : index.optional nat64? = some i) : editOf? "addChild" j = some (.addChild p k i) := by
  simp only [editOf?, h, hp, hk, hi, Option.bind_eq_bind, Option.bind_some, Option.pure_def]

theorem editOf?_removeChild {p : NodeId} {i : Nat}
    (h : columns? [["parent"], ["index"]] j = some [id, index])
    (hp : id.required id? = some p) (hi : index.required nat64? = some i) :
    editOf? "removeChild" j = some (.removeChild p i) := by
  simp only [editOf?, h, hp, hi, Option.bind_eq_bind, Option.bind_some, Option.pure_def]

theorem editOf?_moveNode {n p : NodeId} {i : Nat} {d : Destination}
    (h : columns? [["node"], ["fromParent"], ["fromIndex"], ["destination"]] j =
      some [node, fromParent, index, destination])
    (hn : node.required id? = some n) (hp : fromParent.required id? = some p)
    (hi : index.required nat64? = some i)
    (hd : destination.required innerDestination? = some d) :
    editOf? "moveNode" j = some (.moveNode n p i d) := by
  simp only [editOf?, h, hn, hp, hi, hd, Option.bind_eq_bind, Option.bind_some, Option.pure_def]

theorem editOf?_setEnabled {n : NodeId} {b : Bool}
    (h : columns? [["node"], ["enabled"]] j = some [node, flag])
    (hn : node.required id? = some n) (hb : flag.required bool? = some b) :
    editOf? "setEnabled" j = some (.setEnabled n b) := by
  simp only [editOf?, h, hn, hb, Option.bind_eq_bind, Option.bind_some, Option.pure_def]

theorem editOf?_setAttribute {n : NodeId} {k v : String}
    (h : columns? [["node"], ["key"], ["value"]] j = some [node, key, value])
    (hn : node.required id? = some n) (hk : key.required text? = some k)
    (hv : value.required text? = some v) :
    editOf? "setAttribute" j = some (.setAttribute n k v) := by
  simp only [editOf?, h, hn, hk, hv, Option.bind_eq_bind, Option.bind_some, Option.pure_def]

/-- A destination inside an edit is what its word makes of its columns. -/
theorem innerDestination?_of_choice {columns : Json} {word : String}
    (hw : tagged? "at" j = some (.str word, columns)) :
    innerDestination? j = destinationOf? word columns := by
  unfold innerDestination?
  rw [hw]
  rfl

/-- An edit is what its word makes of its columns. -/
theorem edit?_of_choice {columns : Json} {word : String} (hr : j.inRange = true)
    (hw : tagged? "type" j = some (.str word, columns)) : edit? j = editOf? word columns := by
  unfold edit?
  rw [hr, hw]
  rfl

end Words

theorem innerDestination?_ofDestination {d : Destination} (h : d.InWords) :
    innerDestination? (ofDestination d) = some d := by
  cases d with
  | index parent index =>
    obtain ⟨hword, hcolumns⟩ := choice_obj "at" "index"
      [("parent", ofId parent), ("index", nat index)] (by simp)
    rw [ofDestination, innerDestination?_of_choice hword]
    exact destinationOf?_index hcolumns (given_id h.1) (given_nat (h.2 index rfl))
  | lastChild parent =>
    obtain ⟨hword, hcolumns⟩ := choice_obj "at" "lastChild" [("parent", ofId parent)] (by simp)
    rw [ofDestination, innerDestination?_of_choice hword]
    exact destinationOf?_lastChild hcolumns (given_id h.1)

theorem inRange_ofDestination {d : Destination} (h : d.InWords) :
    (ofDestination d).inRange = true := by
  have hparent := inRange_ofId h.1
  cases d with
  | index parent index =>
    have hindex := inRange_nat (h.2 index rfl)
    simp only [Destination.parent] at hparent
    simp only [ofDestination, inRange, inRangeMembers, hparent, hindex, Bool.and_self]
  | lastChild parent =>
    simp only [Destination.parent] at hparent
    simp only [ofDestination, inRange, inRangeMembers, hparent, Bool.and_self]

/-- All numbers that are written of an edit are in range. -/
theorem inRange_ofEdit {e : Edit} (h : e.InWords) : (ofEdit e).inRange = true := by
  cases e with
  | addChild parent kind position =>
    obtain ⟨hparent, hposition⟩ := h
    have hp : (Json.option nat position).inRange = true := by
      cases position with
      | none => rfl
      | some i => exact inRange_nat (hposition i rfl)
    simp only [ofEdit, ofKind, inRange, inRangeMembers, inRange_ofId hparent, hp, Bool.and_self]
  | removeChild parent index =>
    simp only [ofEdit, inRange, inRangeMembers, inRange_ofId h.1, inRange_nat h.2, Bool.and_self]
  | moveNode node fromParent fromIndex destination =>
    obtain ⟨hnode, hparent, hindex, hdestination⟩ := h
    simp only [ofEdit, inRange, inRangeMembers, inRange_ofId hnode, inRange_ofId hparent,
      inRange_nat hindex, inRange_ofDestination hdestination, Bool.and_self]
  | setEnabled node flag =>
    have hnode := inRange_ofId h
    simp only [ofEdit, inRange, inRangeMembers, hnode, Bool.and_self]
  | setAttribute node key value =>
    have hnode := inRange_ofId h
    simp only [ofEdit, inRange, inRangeMembers, hnode, Bool.and_self]

/-- **What is written of an edit is read as the edit.** -/
theorem edit?_ofEdit {e : Edit} (h : e.InWords) : edit? (ofEdit e) = some e := by
  have hr := inRange_ofEdit h
  cases e with
  | addChild parent kind position =>
    obtain ⟨hword, hcolumns⟩ := choice_obj "type" "addChild" [("parent", ofId parent),
      ("kind", ofKind kind), ("position", Json.option nat position)] (by simp)
    rw [edit?_of_choice hr hword]
    exact editOf?_addChild hcolumns (given_id h.1) (given_kind kind) (given_position h.2)
  | removeChild parent index =>
    obtain ⟨hword, hcolumns⟩ := choice_obj "type" "removeChild" [("parent", ofId parent),
      ("index", nat index)] (by simp)
    rw [edit?_of_choice hr hword]
    exact editOf?_removeChild hcolumns (given_id h.1) (given_nat h.2)
  | moveNode node fromParent fromIndex destination =>
    obtain ⟨hnode, hparent, hindex, hdestination⟩ := h
    obtain ⟨hword, hcolumns⟩ := choice_obj "type" "moveNode" [("node", ofId node),
      ("fromParent", ofId fromParent), ("fromIndex", nat fromIndex),
      ("destination", ofDestination destination)] (by simp)
    rw [edit?_of_choice hr hword]
    exact editOf?_moveNode hcolumns (given_id hnode) (given_id hparent) (given_nat hindex)
      (innerDestination?_ofDestination hdestination)
  | setEnabled node flag =>
    obtain ⟨hword, hcolumns⟩ := choice_obj "type" "setEnabled" [("node", ofId node),
      ("enabled", .bool flag)] (by simp)
    rw [edit?_of_choice hr hword]
    exact editOf?_setEnabled hcolumns (given_id h) rfl
  | setAttribute node key value =>
    obtain ⟨hword, hcolumns⟩ := choice_obj "type" "setAttribute" [("node", ofId node),
      ("key", .str key), ("value", .str value)] (by simp)
    rw [edit?_of_choice hr hword]
    exact editOf?_setAttribute hcolumns (given_id h) rfl rfl

end Exchange

/-! ## 2. Logs -/

/-- What edits tried one after another answer: the number of the node that was created, if any, or
    why the edit was refused. -/
def Tree.answers (t : Tree) : List Edit → List (Except Refusal (Option NodeId))
  | [] => []
  | e :: es => (e.apply t).map (·.2) :: (t.attempt e).answers es

namespace Exchange

/-- The edits of a log tried on the tree that has a root and has given out some numbers: the tree
    they lead to and what they answer. -/
def replay? (root : Json) (issued : Nat) (log : List Json) :
    Option (Tree × List (Except Refusal (Option NodeId))) := do
  let t : Tree := ⟨← branch? root, issued⟩
  let edits ← log.mapM edit?
  return (t.attempts edits, t.answers edits)

theorem branch?_ofBranch {b : Branch} (h : b.node.InWords) : branch? (ofBranch b) = some b :=
  branch?_ofNode h

/-- A log of edits is read as the edits. -/
theorem mapM_edit? {log : List Edit} (h : ∀ e ∈ log, e.InWords) :
    (log.map ofEdit).mapM edit? = some log := by
  have hread : (log.map ofEdit).mapM edit? = some (log.map fun e => e) :=
    Json.mapM_map_of_some fun e he => edit?_ofEdit (h e he)
  rwa [List.map_id'] at hread

/-- **Nodes, edits and whole logs survive being written as JSON.** A node is read as the node, as a
    branch only if it is one and as a leaf only if it is one; an edit is read as the edit; and what
    a log of edits does to the tree that it began with, and answers there, it does to a copy of the
    tree again. -/
theorem read_written {n : Node} (hn : n.InWords) {e : Edit} (he : e.InWords) {t : Tree}
    (ht : t.root.node.InWords) {log : List Edit} (hlog : ∀ e ∈ log, e.InWords) :
    (node? (ofNode n) = some n ∧ branch? (ofNode n) = n.branch? ∧
      leaf? (ofNode n) = if n.kind.isBranch then none else some n) ∧
    edit? (ofEdit e) = some e ∧
    replay? (ofBranch t.root) t.issued (log.map ofEdit) =
      some (t.attempts log, t.answers log) := by
  refine ⟨⟨node?_ofNode hn, branch?_ofNode hn, leaf?_ofNode_eq hn⟩, edit?_ofEdit he, ?_⟩
  unfold replay?
  rw [branch?_ofBranch ht, mapM_edit? hlog]
  rfl

/-- A branch with the largest number, a repeated key and two children of one number. -/
def wideNode : Node :=
  .branch .regexCondition
    ⟨⟨0xffffffffffffffff⟩, ⟨[("regex", "all"), ("", "é"), ("regex", "any")]⟩, false⟩
    [.leaf .regex ⟨⟨7⟩, .empty, true⟩, .branch .condition ⟨⟨7⟩, .empty, true⟩ []]

/-- Edits of the bare extension of which the second and the last are refused. -/
def wideLog : List Edit :=
  [.addChild ⟨1⟩ .condition none, .moveNode ⟨2⟩ ⟨1⟩ 0 (.lastChild ⟨2⟩),
    .setAttribute ⟨2⟩ "field" "a", .removeChild ⟨1⟩ 0xffffffffffffffff]

theorem read_written_wide :
    wideNode.InWords ∧ (Edit.moveNode ⟨2⟩ ⟨1⟩ 0 (.index ⟨0⟩ 5)).InWords ∧
    Tree.bare.root.node.InWords ∧ (∀ e ∈ wideLog, e.InWords) ∧
    ((node? (ofNode wideNode) = some wideNode ∧ branch? (ofNode wideNode) = wideNode.branch? ∧
        leaf? (ofNode wideNode) = none) ∧
      edit? (ofEdit (.moveNode ⟨2⟩ ⟨1⟩ 0 (.index ⟨0⟩ 5))) =
        some (.moveNode ⟨2⟩ ⟨1⟩ 0 (.index ⟨0⟩ 5)) ∧
      replay? (ofBranch Tree.bare.root) 1 (wideLog.map ofEdit) = some (Tree.bare.attempts wideLog,
        [.ok (some ⟨2⟩), .error .cycle, .ok none,
          .error (.indexOutOfBounds 0xffffffffffffffff 1)])) := by
  have hn : wideNode.InWords := by
    unfold Node.InWords
    decide
  have he : (Edit.moveNode ⟨2⟩ ⟨1⟩ 0 (.index ⟨0⟩ 5)).InWords := by
    simp [Edit.InWords, Destination.InWords, Destination.parent, Destination.position, wordLimit]
  have ht : Tree.bare.root.node.InWords := by
    unfold Node.InWords
    decide
  have hlog : ∀ e ∈ wideLog, e.InWords := by
    simp [wideLog, Edit.InWords, Destination.InWords, Destination.parent, Destination.position,
      wordLimit]
  exact ⟨hn, he, ht, hlog, read_written hn he ht hlog⟩

end Exchange

end Dialplan
