import Dialplan.Proofs.Edit
/-!
# Edits in place

An edit is carried out on a tree that is changed where it stands, one write after another, and each
write looks once more for the branch it is about. A write that does not find its branch, or not the
place in it, stops there, and whatever was written before stays written. Here an edit is taken apart
into these writes.

* `Writing`: a write, with the tree as it leaves it, also where it stops;
* `Edit.carryOut`: the check, then the writes of an edit one after another;
* `Edit.carryOut_eq`: the check leaves no write that could stop, so the whole is `Edit.apply`.
-/

namespace Dialplan

/-! ## 1. Writes -/

/-- Why the carrying out of an edit stops. -/
inductive Stop where
  | refused (r : Refusal)
  /-- A list of children has no such place. -/
  | outOfRange (index size : Nat)
deriving DecidableEq, Repr

/-- Something done to a tree in place: what it gives or why it stops, and the tree as it leaves it
    in either case. -/
def Writing (α : Type) : Type := Tree → Except Stop α × Tree

namespace Writing

variable {α β : Type}

/-- Nothing is written. -/
def done (a : α) : Writing α := fun t => (.ok a, t)

/-- One after the other. Where the first stops, the tree stays as that one has left it. -/
def andThen (w : Writing α) (next : α → Writing β) : Writing β := fun t =>
  match w t with
  | (.ok a, t) => next a t
  | (.error s, t) => (.error s, t)

/-- A new node of a kind; its numbers are given out for good. -/
def mint (kind : Kind) : Writing Node := fun t =>
  match t.create? kind with
  | some (n, t) => (.ok n, t)
  | none => (.error (.refused (.cannotCreate kind)), t)

/-- The children of the branch with a number are changed, if they allow it. -/
def onChildren (id : NodeId) (look : List Node → Except Stop α) (change : List Node → List Node) :
    Writing α := fun t =>
  match Edit.needBranch t id with
  | .error r => (.error (.refused r), t)
  | .ok b =>
    match look b.children with
    | .error s => (.error s, t)
    | .ok a => (.ok a, t.regrow id change)

/-- The child at an index is taken out of a list that has one there. -/
def takeOut (parent : NodeId) (index : Nat) : Writing Node :=
  onChildren parent
    (fun ns => match ns[index]? with
      | some n => .ok n
      | none => .error (.outOfRange index ns.length))
    fun ns => ns.eraseIdx index

/-- A node is put into a list that is long enough. -/
def putIn (parent : NodeId) (position : Option Nat) (n : Node) : Writing Unit :=
  onChildren parent
    (fun ns => match position with
      | some i => if i > ns.length then .error (.outOfRange i ns.length) else .ok ()
      | none => .ok ())
    (Edit.insertAt position n)

/-- The node with a number is changed as it says itself. -/
def onNode (id : NodeId) (change : Node → Tree → Tree) : Writing Unit := fun t =>
  match Edit.needNode t id with
  | .error r => (.error (.refused r), t)
  | .ok n => (.ok (), change n t)

theorem andThen_ok {w : Writing α} {next : α → Writing β} {t t' : Tree} {a : α}
    (h : w t = (.ok a, t')) : w.andThen next t = next a t' := by
  unfold andThen
  rw [h]

theorem onChildren_ok {id : NodeId} {look : List Node → Except Stop α}
    {change : List Node → List Node} {t : Tree} {b : Branch} {a : α}
    (hb : t.find? id = some b.node) (hl : look b.children = .ok a) :
    onChildren id look change t = (.ok a, t.regrow id change) := by
  have hn : Edit.needBranch t id = .ok b := by
    unfold Edit.needBranch
    rw [hb]
    rfl
  unfold onChildren
  simp only [hn, hl]

theorem takeOut_ok {t : Tree} {parent : NodeId} {b : Branch} {index : Nat} {n : Node}
    (hb : t.find? parent = some b.node) (hn : b.children[index]? = some n) :
    takeOut parent index t = (.ok n, t.regrow parent fun ns => ns.eraseIdx index) := by
  refine onChildren_ok hb ?_
  rw [hn]

theorem putIn_ok {t : Tree} {parent : NodeId} {b : Branch} {position : Option Nat}
    (hb : t.find? parent = some b.node) (hp : ∀ i, position = some i → i ≤ b.children.length)
    (n : Node) :
    putIn parent position n t = (.ok (), t.regrow parent (Edit.insertAt position n)) := by
  refine onChildren_ok hb ?_
  cases position with
  | none => rfl
  | some i =>
    have hi : ¬ i > b.children.length := by
      have := hp i rfl
      omega
    simp only [if_neg hi]

theorem onNode_ok {t : Tree} {id : NodeId} {n : Node} (hn : t.find? id = some n)
    (change : Node → Tree → Tree) : onNode id change t = (.ok (), change n t) := by
  have hneed : Edit.needNode t id = .ok n := by
    unfold Edit.needNode
    rw [hn]
  unfold onNode
  rw [hneed]

end Writing

/-! ## 2. Edits as writes -/

namespace Edit

open Writing

/-- The writes of an edit, and the number of the node that it makes. -/
def writes : Edit → Writing (Option NodeId)
  | .addChild parent kind position =>
    (mint kind).andThen fun n => (putIn parent position n).andThen fun _ => .done (some n.id)
  | .removeChild parent index => (takeOut parent index).andThen fun _ => .done none
  | .moveNode _ fromParent fromIndex destination =>
    (takeOut fromParent fromIndex).andThen fun moved =>
      (putIn destination.parent destination.position moved).andThen fun _ => .done none
  | .setEnabled node flag =>
    (onNode node fun _ t => t.enable node flag).andThen fun _ => .done none
  | .setAttribute node key value =>
    (onNode node fun n t => t.relabel node fun l =>
      { l with attributes := l.attributes.set key (writtenValue n.kind key value) }).andThen
        fun _ => .done none

/-- An edit carried out in place: nothing is written before the whole check. -/
def carryOut (e : Edit) : Writing (Option NodeId) := fun t =>
  match e.check t with
  | .error r => (.error (.refused r), t)
  | .ok () => e.writes t

/-- **After the check no write stops**, and together they have the effect of the edit. -/
theorem writes_of_check {t : Tree} {e : Edit} (hc : e.check t = .ok ()) :
    e.writes t = (.ok (e.effect t).2, (e.effect t).1) := by
  -- what was checked is read off `Done`, whatever the tree after it is
  obtain ⟨t', c, hd⟩ : ∃ t' c, Done t e t' c := ⟨_, _, check_done hc⟩
  cases hd with
  | @addChild parent kind position b n t₁ _ hk hb ha hp hn hr hi =>
    have hm : mint kind t = (.ok n, t₁) := by
      unfold mint
      rw [hn]
    have hb₁ : t₁.find? parent = some b.node := (find?_of_root (create?_root hn) parent).trans hb
    simp only [writes, effect]
    rw [andThen_ok hm, andThen_ok (putIn_ok hb₁ hp n), hn]
    rfl
  | @removeChild parent index b _ hb hp hr hi =>
    have hn : b.children[index]? = some b.children[index] := List.getElem?_eq_getElem hp
    simp only [writes, effect]
    rw [andThen_ok (takeOut_ok hb hn)]
    rfl
  | @moveNode node origin index destination =>
    -- the second look-up finds the target again, with as many children as the check has counted
    obtain ⟨source, moved, b, t₁, hs, hm, -, rfl, hb, hfit, he⟩ := effect_moveNode hc
    simp only [writes, he]
    rw [andThen_ok (takeOut_ok hs hm), andThen_ok (putIn_ok hb hfit moved)]
    rfl
  | setEnabled hm hr hi =>
    simp only [writes, effect]
    rw [andThen_ok (onNode_ok hm _)]
    rfl
  | setAttribute hm ha hr hi =>
    simp only [writes, effect]
    rw [andThen_ok (onNode_ok hm _), hm]
    rfl

/-- **An edit in place is done as a whole or not at all**: what stops it stops it before the first
    write, and nothing but the check stops it. -/
theorem carryOut_eq (t : Tree) (e : Edit) :
    e.carryOut t = match e.apply t with
      | .error r => (.error (.refused r), t)
      | .ok (t', created) => (.ok created, t') := by
  unfold carryOut apply
  cases hc : e.check t with
  | error r => rfl
  | ok u => exact writes_of_check hc

end Edit

end Dialplan
