import Dialplan.Proofs.Writes
/-!
# Edits in machine words

On a machine a number is a word: a difference must not fall below zero, and a count must not pass
the largest word. A node is looked up where it is changed, in one walk, and a list is changed only
at a place that it has. Any of these can stop an edit halfway. Here an edit is carried out with all
of this, and it is shown that none of it happens.

* `Halt`, `Work`: why the work on a tree stops, and the tree as it is then;
* `Tree.visit?`: one walk that looks a node up and changes it; it reaches the node that `find?`
  finds (`visit?_cases`);
* `Work.Agrees`: work that does step by step what a `Writing` does;
* `Edit.judge`: the check with differences that can fail, which they do not (`judge_eq`);
* `Edit.work`: the check and the steps of an edit; `Edit.work_total`: as long as two more numbers
  can be given out, nothing but the check stops it.
-/

namespace Dialplan

/-! ## 1. Work on a tree -/

/-- Why work on a tree stops. -/
inductive Halt where
  | refused (r : Refusal)
  /-- A list of children has no such place. -/
  | outOfRange (index size : Nat)
  /-- A difference below zero. -/
  | underflow
  /-- A count past the largest word. -/
  | overflow
deriving DecidableEq, Repr

/-- How the stop of a write is seen here. -/
def Stop.halt : Stop → Halt
  | .refused r => .refused r
  | .outOfRange index size => .outOfRange index size

/-- The first number that is no word of 64 bits. -/
def wordLimit : Nat := 0x10000000000000000

/-- Something done to a tree in words: what it gives or why it stops, and the tree as it leaves it
    in either case. -/
def Work (α : Type) : Type := Tree → Except Halt α × Tree

namespace Work

variable {α β : Type} {t : Tree}

/-- Nothing is done. -/
def done (a : α) : Work α := fun t => (.ok a, t)

/-- A refusal; the tree stays. -/
def refuse (r : Refusal) : Work α := fun t => (.error (.refused r), t)

/-- One after the other; where the first stops, the second is not begun. -/
def andThen (w : Work α) (next : α → Work β) : Work β := fun t =>
  match w t with
  | (.ok a, t) => next a t
  | (.error h, t) => (.error h, t)

/-- **Work that does to a tree what a write does to it**, also where the write stops. -/
def Agrees (w : Work α) (v : Writing α) (t : Tree) : Prop :=
  w t = ((v t).1.mapError Stop.halt, (v t).2)

theorem agrees_done (a : α) (t : Tree) : (done a).Agrees (.done a) t := rfl

theorem Agrees.andThen {w : Work α} {v : Writing α} {next : α → Work β} {next' : α → Writing β}
    (h : w.Agrees v t)
    (hn : ∀ a t', v t = (.ok a, t') → (next a).Agrees (next' a) t') :
    (w.andThen next).Agrees (v.andThen next') t := by
  unfold Agrees Work.andThen Writing.andThen
  rw [h]
  rcases hv : v t with ⟨s | a, t'⟩
  · rfl
  · exact hn a t' hv

/-- A number is given out, if the count stays a word. -/
def count : Work NodeId := fun t =>
  if t.issued + 1 < wordLimit then (.ok t.fresh, t.issue) else (.error .overflow, t)

/-- A new node of a kind. -/
def make : Kind → Work Node
  | .branch .extension => refuse (.cannotCreate .extension)
  | .branch .regexCondition =>
    count.andThen fun id => count.andThen fun regex =>
      done (.branch .regexCondition (.new id .regexCondition) [.leaf .regex (.new regex .regex)])
  | .branch .condition =>
    count.andThen fun id => done (.branch .condition (.new id .condition) [])
  | .leaf k => count.andThen fun id => done (.leaf k (.new id (.leaf k)))

theorem count_of_lt (h : t.issued + 1 < wordLimit) : count t = (.ok t.fresh, t.issue) := if_pos h

theorem andThen_ok {w : Work α} {next : α → Work β} {t' : Tree} {a : α} (h : w t = (.ok a, t')) :
    w.andThen next t = next a t' := by
  unfold andThen
  rw [h]

/-- While two more numbers are words, new nodes are made as ever. -/
theorem agrees_make (h : t.issued + 2 < wordLimit) (kind : Kind) :
    (make kind).Agrees (.mint kind) t := by
  have hfirst : count t = (.ok t.fresh, t.issue) := count_of_lt (by omega)
  have hsecond : count t.issue = (.ok t.issue.fresh, t.issue.issue) := count_of_lt h
  unfold Agrees
  rcases kind with k | k
  · cases k with
    | extension => rfl
    | condition =>
      show count.andThen _ t = _
      rw [andThen_ok hfirst]
      rfl
    | regexCondition =>
      show count.andThen _ t = _
      rw [andThen_ok hfirst, andThen_ok hsecond]
      rfl
  · show count.andThen _ t = _
    rw [andThen_ok hfirst]
    rfl

end Work

/-! ## 2. Looking up and changing in one walk -/

namespace Node

variable {ρ : Type}

/-- A node with the label and the children of a pair; a leaf has no children. -/
def renewed (n : Node) (p : Label × List Node) : Node :=
  (n.relabel fun _ => p.1).regrow fun _ => p.2

mutual

/-- The first node of number `id` from this one on is handed to `f`, which gives an answer and what
    the node is to have from now on. -/
def visit? (id : NodeId) (f : Node → ρ × Label × List Node) : Node → Option (ρ × Node)
  | .leaf k l =>
    let n := Node.leaf k l
    if l.id = id then some ((f n).1, n.renewed (f n).2) else none
  | .branch k l cs =>
    let n := Node.branch k l cs
    if l.id = id then some ((f n).1, n.renewed (f n).2)
    else (visitIn? id f cs).map fun (a, cs') => (a, .branch k l cs')

/-- The same for the first such node in a list of nodes or below them. -/
def visitIn? (id : NodeId) (f : Node → ρ × Label × List Node) :
    List Node → Option (ρ × List Node)
  | [] => none
  | n :: rest =>
    match n.visit? id f with
    | some (a, n') => some (a, n' :: rest)
    | none => (visitIn? id f rest).map fun (a, rest') => (a, n :: rest')

end

mutual

/-- **One walk reaches the node that is looked up first**, and leaves what a change that is made
    there leaves. -/
theorem visit?_cases (id : NodeId) (f : Node → ρ × Label × List Node) : ∀ n : Node,
    (n.subtree.find? (fun m => m.id == id) = none ∧ n.visit? id f = none) ∨
      ∃ m n', n.subtree.find? (fun m => m.id == id) = some m ∧
        n.visit? id f = some ((f m).1, n') ∧
        ∀ g : Node → Node, g m = m.renewed (f m).2 → n.change? id g = some n'
  | .leaf k l => by
      by_cases h : l.id = id
      · exact .inr ⟨_, _, find?_self h, if_pos h, fun g hg => by rw [change?, if_pos h, hg]⟩
      · exact .inl ⟨List.find?_cons_of_neg fun e => h (beq_iff_eq.mp e), if_neg h⟩
  | .branch k l cs => by
      by_cases h : l.id = id
      · exact .inr ⟨_, _, find?_self h, if_pos h, fun g hg => by rw [change?, if_pos h, hg]⟩
      · have hs : (Node.branch k l cs).subtree.find? (fun m => m.id == id) =
            (subtrees cs).find? fun m => m.id == id :=
          List.find?_cons_of_neg fun e => h (beq_iff_eq.mp e)
        rw [hs]
        unfold visit?
        rw [if_neg h]
        rcases visitIn?_cases id f cs with ⟨h1, h2⟩ | ⟨m, cs', h1, h2, h3⟩
        · exact .inl ⟨h1, by rw [h2]; rfl⟩
        · exact .inr ⟨m, _, h1, by rw [h2]; rfl, fun g hg => by
            rw [change?, if_neg h, h3 g hg]
            rfl⟩

/-- The same for a list of nodes. -/
theorem visitIn?_cases (id : NodeId) (f : Node → ρ × Label × List Node) : ∀ ns : List Node,
    ((subtrees ns).find? (fun m => m.id == id) = none ∧ visitIn? id f ns = none) ∨
      ∃ m ns', (subtrees ns).find? (fun m => m.id == id) = some m ∧
        visitIn? id f ns = some ((f m).1, ns') ∧
        ∀ g : Node → Node, g m = m.renewed (f m).2 → changeIn? id g ns = some ns'
  | [] => .inl ⟨rfl, rfl⟩
  | n :: rest => by
      unfold subtrees visitIn?
      rw [List.find?_append]
      rcases visit?_cases id f n with ⟨h1, h2⟩ | ⟨m, n', h1, h2, h3⟩
      · rw [h1, h2, Option.none_or]
        -- a walk that finds nothing changes nothing, whatever it is to change
        have hskip : ∀ g, n.change? id g = none := by
          intro g
          rcases change?_cases id g n with ⟨-, hg⟩ | ⟨m, n', hm, -, -⟩
          · exact hg
          · rw [h1] at hm
            cases hm
        rcases visitIn?_cases id f rest with ⟨h4, h5⟩ | ⟨m, rest', h4, h5, h6⟩
        · exact .inl ⟨h4, by rw [h5]; rfl⟩
        · exact .inr ⟨m, _, h4, by rw [h5]; rfl, fun g hg => by simp [changeIn?, hskip, h6 g hg]⟩
      · refine .inr ⟨m, _, by rw [h1]; rfl, by rw [h2], fun g hg => ?_⟩
        simp [changeIn?, h3 g hg]

end

end Node

namespace Tree

variable {ρ : Type} {t t' : Tree} {id : NodeId}

/-- The first node of number `id`, the root first, is handed to `f`, which gives an answer and what
    the node is to have from now on. -/
def visit? (t : Tree) (id : NodeId) (f : Node → ρ × Label × List Node) : Option (ρ × Tree) :=
  if t.root.id = id then
    let (a, label, children) := f t.root.node
    some (a, { t with root := ⟨t.root.kind, label, children⟩ })
  else (Node.visitIn? id f t.root.children).map fun (a, cs) =>
    (a, { t with root := { t.root with children := cs } })

/-- **The walk that changes reaches the node that `find?` finds**, and leaves the tree reshaped
    there. -/
theorem visit?_cases (t : Tree) (id : NodeId) (f : Node → ρ × Label × List Node) :
    (t.find? id = none ∧ t.visit? id f = none) ∨
      ∃ m t', t.find? id = some m ∧ t.visit? id f = some ((f m).1, t') ∧
        ∀ label children, (m.relabel label).regrow children = m.renewed (f m).2 →
          t.reshape? id label children = some t' := by
  unfold visit? reshape?
  by_cases h : t.root.id = id
  · have hf : t.find? id = some t.root.node := Node.find?_self (n := t.root.node) h
    rw [if_pos h]
    refine .inr ⟨_, _, hf, rfl, fun label children he => ?_⟩
    rw [if_pos h]
    injection he with _ hl hc
    rw [hl, hc]
  · have hf : t.find? id = (Node.subtrees t.root.children).find? fun n => n.id == id :=
      List.find?_cons_of_neg fun e => h (beq_iff_eq.mp e)
    rw [hf, if_neg h]
    rcases Node.visitIn?_cases id f t.root.children with ⟨h1, h2⟩ | ⟨m, cs, h1, h2, h3⟩
    · exact .inl ⟨h1, by rw [h2]; rfl⟩
    · refine .inr ⟨m, _, h1, by rw [h2]; rfl, fun label children he => ?_⟩
      rw [if_neg h, h3 (fun n => (n.relabel label).regrow children) he]
      rfl

/-- A node reshaped to what it is leaves the tree as it was. -/
theorem reshape?_self (h : t.reshape? id (fun l => l) (fun cs => cs) = some t') : t' = t := by
  rcases t.reshape?_cases id (fun l => l) fun cs => cs with ⟨-, hn⟩ | ⟨m, t₁, -, hs, hp, hi⟩
  · rw [h] at hn
    cases hn
  · obtain rfl : t' = t₁ := Option.some.inj (h.symm.trans hs)
    have hm : (m.relabel fun l => l).regrow (fun cs => cs) = m := by cases m <;> rfl
    rw [hm] at hp
    exact hp.eq_of_self hi

end Tree

namespace Work

variable {α : Type} {t : Tree} {id : NodeId}

/-- The node with a number is looked up and changed. -/
def visit (id : NodeId) (missing : Refusal) (f : Node → Except Halt α × Label × List Node) :
    Work α := fun t =>
  match t.visit? id f with
  | none => (.error (.refused missing), t)
  | some (a, t') => (a, t')

/-- The list of children of the branch with a number is handed to `f`. -/
def onBranch (id : NodeId) (f : List Node → Except Halt α × List Node) : Work α :=
  visit id (.parentNotFound id) fun
    | .leaf _ l => (.error (.refused (.notABranch id)), l, [])
    | .branch _ l cs => ((f cs).1, l, (f cs).2)

/-- The child at an index is taken out of the list, which must have one there. -/
def takeOut (parent : NodeId) (index : Nat) : Work Node :=
  onBranch parent fun ns =>
    match ns[index]? with
    | some n => (.ok n, ns.eraseIdx index)
    | none => (.error (.outOfRange index ns.length), ns)

/-- A node is put into the list at an index that is at most its length, or else at its end. -/
def putIn (parent : NodeId) (position : Option Nat) (n : Node) : Work Unit :=
  onBranch parent fun ns =>
    let index := position.getD ns.length
    if index > ns.length then (.error (.outOfRange index ns.length), ns)
    else (.ok (), ns.insertIdx index n)

/-- The node with a number is given another label and other children. -/
def onNode (id : NodeId) (f : Node → Label × List Node) : Work Unit :=
  visit id (.nodeNotFound id) fun n => (.ok (), f n)

/-- A list that is changed where `look` allows it, and left alone where it does not. -/
theorem agrees_onBranch {look : List Node → Except Stop α} {change : List Node → List Node}
    {f : List Node → Except Halt α × List Node}
    (hf : ∀ ns, f ns = match look ns with
      | .ok a => (.ok a, change ns)
      | .error s => (.error s.halt, ns)) :
    (onBranch id f).Agrees (.onChildren id look change) t := by
  unfold Agrees onBranch visit Writing.onChildren Edit.needBranch
  rcases t.visit?_cases id _ with ⟨hn, hv⟩ | ⟨m, t', hm, hv, hr⟩
  · rw [hv, hn]
    rfl
  · rw [hv, hm]
    cases m with
    | leaf k l =>
      obtain rfl := Tree.reshape?_self (hr (fun l => l) (fun cs => cs) rfl)
      rfl
    | branch k l cs =>
      have hcs := hf cs
      cases hl : look cs with
      | error s =>
        rw [hl] at hcs
        obtain rfl := Tree.reshape?_self (hr (fun l => l) (fun cs => cs) (by simp only [hcs]; rfl))
        simp only [hcs, Node.branch?, hl]
        rfl
      | ok a =>
        rw [hl] at hcs
        have ht : t.regrow id change = t' := by
          unfold Tree.regrow
          rw [hr (fun l => l) change (by simp only [hcs]; rfl)]
          rfl
        simp only [hcs, Node.branch?, hl, ht]
        rfl

theorem agrees_takeOut (parent : NodeId) (index : Nat) (t : Tree) :
    (takeOut parent index).Agrees (.takeOut parent index) t := by
  refine agrees_onBranch fun ns => ?_
  cases ns[index]? <;> rfl

theorem agrees_putIn (parent : NodeId) (position : Option Nat) (n : Node) (t : Tree) :
    (putIn parent position n).Agrees (.putIn parent position n) t := by
  refine agrees_onBranch fun ns => ?_
  cases position with
  | none =>
    have hend : ¬ ns.length > ns.length := Nat.lt_irrefl _
    simp only [Option.getD_none, if_neg hend, List.insertIdx_length_self]
    rfl
  | some i =>
    by_cases hi : i > ns.length
    · simp only [Option.getD_some, if_pos hi]
      rfl
    · simp only [Option.getD_some, if_neg hi]
      rfl

theorem agrees_onNode {f : Node → Label × List Node} {change : Node → Tree → Tree}
    (label : Node → Label → Label) (children : Node → List Node → List Node)
    (hf : ∀ m : Node, (m.relabel (label m)).regrow (children m) = m.renewed (f m))
    (hchange : ∀ m t, change m t = (t.reshape? id (label m) (children m)).getD t) :
    (onNode id f).Agrees (.onNode id change) t := by
  unfold Agrees onNode visit Writing.onNode Edit.needNode
  rcases t.visit?_cases id _ with ⟨hn, hv⟩ | ⟨m, t', hm, hv, hr⟩
  · rw [hv, hn]
    rfl
  · rw [hv, hm]
    simp only [hchange, hr _ _ (hf m)]
    rfl

end Work

/-! ## 3. Edits -/

namespace Edit

open Work

/-- A difference, if it is not below zero. -/
def less (a b : Nat) : Except Halt Nat := if b ≤ a then .ok (a - b) else .error .underflow

/-- The check of an edit. That of a move counts the children that its destination has once the node
    has been taken out. -/
def judge (t : Tree) : Edit → Except Halt Unit
  | .moveNode node fromParent fromIndex destination => do
    let source ← (needBranch t fromParent).mapError .refused
    let moved ← (needChild source fromParent fromIndex node).mapError .refused
    if moved.contains destination.parent then throw (.refused .cycle)
    let b ← (needBranch t destination.parent).mapError .refused
    (checkKind b moved.kind).mapError .refused
    match destination with
    | .lastChild _ => pure ()
    | .index _ i =>
      let size ← if b.id = fromParent then less b.children.length 1 else pure b.children.length
      (checkPosition (some i) size).mapError .refused
  | e => (e.check t).mapError .refused

/-- The steps of an edit, and the number of the node that it makes. -/
def steps : Edit → Work (Option NodeId)
  | .addChild parent kind position =>
    (make kind).andThen fun n => (putIn parent position n).andThen fun _ => .done (some n.id)
  | .removeChild parent index => (takeOut parent index).andThen fun _ => .done none
  | .moveNode _ fromParent fromIndex destination =>
    (takeOut fromParent fromIndex).andThen fun moved =>
      (putIn destination.parent destination.position moved).andThen fun _ => .done none
  | .setEnabled node flag =>
    (onNode node fun n =>
      ({ n.label with enabled := flag }, Node.enableAllIn flag n.children)).andThen
        fun _ => .done none
  | .setAttribute node key value =>
    (onNode node fun n =>
      ({ n.label with
          attributes := n.attributes.set key (writtenValue n.kind key value) }, n.children)).andThen
        fun _ => .done none

/-- An edit carried out in words: the check, then the steps. -/
def work (e : Edit) : Work (Option NodeId) := fun t =>
  match e.judge t with
  | .error h => (.error h, t)
  | .ok () => e.steps t

/-- Two computations that agree where the first part gives a value agree as a whole. -/
theorem mapError_bind {α β : Type} {x : Except Refusal α} {f : α → Except Refusal β}
    {f' : α → Except Halt β} (h : ∀ a, x = .ok a → f' a = (f a).mapError .refused) :
    x.mapError .refused >>= f' = (x >>= f).mapError .refused := by
  cases x with
  | error r => rfl
  | ok a => exact h a rfl

/-- **No difference in the check falls below zero**: the only one is taken from a branch that has a
    child. -/
theorem judge_eq (t : Tree) (e : Edit) : e.judge t = (e.check t).mapError .refused := by
  cases e with
  | moveNode node fromParent fromIndex destination =>
    simp only [judge, check]
    refine mapError_bind fun source hs => mapError_bind fun moved hm => ?_
    split
    · rfl
    refine mapError_bind fun b hb => mapError_bind fun _ _ => ?_
    cases destination with
    | lastChild parent => rfl
    | index parent i =>
      by_cases hsame : b.id = fromParent
      · -- both look-ups were for one number, and the branch they found has the node as a child
        have hb := needBranch_ok hb
        obtain rfl : parent = fromParent := (id_of_find? hb).symm.trans hsame
        obtain rfl : source = b :=
          Branch.node_inj (Option.some.inj ((needBranch_ok hs).symm.trans hb))
        obtain ⟨hlt, -⟩ := List.getElem?_eq_some_iff.mp (needChild_ok hm).1
        have hless : less source.children.length 1 = .ok (source.children.length - 1) :=
          if_pos (by omega)
        simp only [if_pos hsame, hless]
        rfl
      · simp only [if_neg hsame]
        rfl
  | _ => rfl

theorem agrees_steps {t : Tree} (h : t.issued + 2 < wordLimit) (e : Edit) :
    e.steps.Agrees e.writes t := by
  cases e with
  | addChild parent kind position =>
    exact (agrees_make h kind).andThen fun n t' _ =>
      (agrees_putIn parent position n t').andThen fun _ t'' _ => agrees_done _ t''
  | removeChild parent index =>
    exact (agrees_takeOut parent index t).andThen fun _ t' _ => agrees_done _ t'
  | moveNode node fromParent fromIndex destination =>
    exact (agrees_takeOut fromParent fromIndex t).andThen fun moved t' _ =>
      (agrees_putIn _ _ moved t').andThen fun _ t'' _ => agrees_done _ t''
  | setEnabled node flag =>
    refine (agrees_onNode (fun _ l => { l with enabled := flag })
      (fun _ => Node.enableAllIn flag) (fun m => ?_) fun m t => ?_).andThen
        fun _ t' _ => agrees_done _ t'
    · cases m <;> rfl
    · rfl
  | setAttribute node key value =>
    refine (agrees_onNode
      (fun m l => { l with attributes := l.attributes.set key (writtenValue m.kind key value) })
      (fun _ cs => cs) (fun m => ?_) fun m t => ?_).andThen
        fun _ t' _ => agrees_done _ t'
    · cases m <;> rfl
    · rfl

/-- The whole agrees with the edit that is carried out by writes. -/
theorem agrees_work {t : Tree} (h : t.issued + 2 < wordLimit) (e : Edit) :
    e.work.Agrees e.carryOut t := by
  unfold Work.Agrees work carryOut
  rw [judge_eq]
  cases e.check t with
  | error r => rfl
  | ok u => exact agrees_steps h e

/-- In words an edit does what it does without them. -/
theorem work_eq {t : Tree} (h : t.issued + 2 < wordLimit) (e : Edit) :
    e.work t = match e.apply t with
      | .error r => (.error (.refused r), t)
      | .ok (t', created) => (.ok created, t') := by
  rw [agrees_work h e, carryOut_eq]
  cases e.apply t <;> rfl

/-- **An edit in words always comes to an end, as a whole or not at all.** Whatever the tree, with
    numbers that repeat or not, as long as two more can be given out: no difference falls below
    zero, no count passes the largest word, and no list is changed at a place that it does not have.
    The edit is refused exactly where the check refuses it, for the same reason, and then nothing of
    the tree has changed; where it is done, it is done as `Edit.apply` says. -/
theorem work_total {t : Tree} (h : t.issued < wordLimit - 2) (e : Edit) :
    e.judge t = (e.check t).mapError .refused ∧
    (∀ halt, (e.work t).1 = .error halt → ∃ r, halt = .refused r) ∧
    (∀ r, (e.work t).1 = .error (.refused r) ↔ e.check t = .error r) ∧
    (∀ halt, (e.work t).1 = .error halt → (e.work t).2 = t) ∧
    ∀ created t', e.work t = (.ok created, t') ↔ e.apply t = .ok (t', created) := by
  have hwork := work_eq (t := t) (by omega) e
  have hcheck : ∀ r, e.apply t = .error r ↔ e.check t = .error r := by
    intro r
    unfold apply
    cases e.check t <;> simp
  refine ⟨judge_eq t e, ?_⟩
  simp only [← hcheck, hwork]
  cases ha : e.apply t with
  | error r =>
    refine ⟨fun halt hh => ⟨r, (Except.error.inj hh).symm⟩, fun s => ?_, fun _ _ => rfl,
      fun _ _ => ⟨fun hh => (nomatch hh), fun hh => (nomatch hh)⟩⟩
    simp only [Except.error.injEq, Halt.refused.injEq]
  | ok p =>
    refine ⟨fun _ hh => (nomatch hh), fun _ => ⟨fun hh => (nomatch hh), fun hh => (nomatch hh)⟩,
      fun _ hh => (nomatch hh), fun created t' => ?_⟩
    obtain ⟨u, c⟩ := p
    simp only [Prod.mk.injEq, Except.ok.injEq, and_comm]

/-- A tree in which the numbers 2 and 3 stand for two nodes each. -/
def twins : Tree :=
  ⟨⟨.extension, .new ⟨1⟩ .extension,
    [.branch .condition (.new ⟨2⟩ .condition) [.leaf .action (.new ⟨3⟩ .action)],
      .branch .condition (.new ⟨2⟩ .condition) [],
      .leaf .action (.new ⟨3⟩ .action)]⟩, 3⟩

/-- The first node of number 3 goes to the end, which leaves its condition without a child; within
    that condition there is no index 1 once it has been taken out. -/
theorem work_total_twins :
    twins.issued < wordLimit - 2 ∧
    (work (.moveNode ⟨3⟩ ⟨2⟩ 0 (.lastChild ⟨1⟩)) twins).1 = .ok none ∧
    (work (.moveNode ⟨3⟩ ⟨2⟩ 0 (.index ⟨2⟩ 1)) twins).1 =
      .error (.refused (.indexOutOfBounds 1 0)) ∧
    (work (.moveNode ⟨3⟩ ⟨2⟩ 0 (.index ⟨2⟩ 1)) twins).2 = twins := by
  have h : twins.issued < wordLimit - 2 := by decide
  obtain ⟨-, -, -, -, hdone⟩ := work_total h (.moveNode ⟨3⟩ ⟨2⟩ 0 (.lastChild ⟨1⟩))
  obtain ⟨-, -, hrefused, hsame, -⟩ := work_total h (.moveNode ⟨3⟩ ⟨2⟩ 0 (.index ⟨2⟩ 1))
  have hmove := (hdone none _).mpr rfl
  have hindex := (hrefused (.indexOutOfBounds 1 0)).mpr rfl
  exact ⟨h, by rw [hmove], hindex, hsame _ hindex⟩

end Edit

end Dialplan
