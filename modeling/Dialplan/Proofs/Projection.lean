import Dialplan.Proofs.Coherence
import Dialplan.Proofs.Lookup
/-!
# What is shown is what there is

The rows that a session shows are kept beside its tree, and a row names a node by its number. Here
the rows are compared with the tree: they are never older than the tree, and what a row says of its
node is what the look-ups of the tree answer.

* `mem_rowsOf`: every row is that of a child of a branch, on the path of a walk;
* `Projection.Faithful`: what the rows say is true of the tree, and what they offer can be done;
* `faithful_of`: so it is with the projection of a lawful tree with distinct numbers;
* `Session.Current`: the rows are those of the tree, the applications and the count as they are now;
* `Desk.run_shown`: both after every run.
-/

namespace Dialplan

/-! ## 1. Rows and nodes -/

mutual

/-- The rows have the numbers of the nodes, in their order. -/
theorem map_id_rowsAt (applications : Applications) (parent : NodeId) (index : Nat) (path : Path) :
    ∀ n : Node, (rowsAt applications parent index path n).map Row.id = n.ids
  | .leaf _ _ => rfl
  | .branch k l cs => by
      unfold rowsAt
      rw [List.map_cons, map_id_rowsOf applications l.id path 0 cs]
      rfl

theorem map_id_rowsOf (applications : Applications) (parent : NodeId) (path : Path) :
    ∀ (index : Nat) (ns : List Node),
      (rowsOf applications parent path index ns).map Row.id = Node.idsIn ns
  | _, [] => rfl
  | index, n :: rest => by
      unfold rowsOf
      rw [List.map_append, map_id_rowsAt applications parent index (path.child index) n,
        map_id_rowsOf applications parent path (index + 1) rest, Node.idsIn_cons]

end

/-- The row of a node that is a child of a branch. -/
structure Row.Of (applications : Applications) (b : Branch) (n : Node) (r : Row) : Prop where
  child : b.children[r.index]? = some n
  eq : r = rowOf applications b.id r.index r.path n.kind n.label

section

variable {applications : Applications} {r : Row}

mutual

/-- **Every row is that of a child of a branch**, and stands on the path of a walk. -/
theorem mem_rowsAt {path : Path} {index : Nat} {b : Branch} : ∀ {n : Node},
    b.children[index]? = some n → r ∈ rowsAt applications b.id index path n →
      ∃ b' m, (b' = b ∨ b'.node ∈ n.subtree) ∧ r.Of applications b' m ∧ (r.path, m) ∈ n.walk path
  | .leaf k l, hn, hr => by
      obtain rfl := List.mem_singleton.mp hr
      exact ⟨b, _, .inl rfl, ⟨hn, rfl⟩, List.mem_singleton_self _⟩
  | .branch k l cs, hn, hr => by
      rcases List.mem_cons.mp hr with rfl | hr
      · exact ⟨b, _, .inl rfl, ⟨hn, rfl⟩, List.mem_cons_self⟩
      · obtain ⟨b', m, hb, hof, hwalk⟩ := mem_rowsOf (b := ⟨k, l, cs⟩) (fun _ _ h => h) hr
        refine ⟨b', m, .inr ?_, hof, List.mem_cons_of_mem _ hwalk⟩
        rcases hb with rfl | hb
        · exact List.mem_cons_self
        · exact List.mem_cons_of_mem _ hb

theorem mem_rowsOf {path : Path} {b : Branch} : ∀ {index : Nat} {ns : List Node},
    (∀ i n, ns[i]? = some n → b.children[i + index]? = some n) →
      r ∈ rowsOf applications b.id path index ns →
      ∃ b' m, (b' = b ∨ b'.node ∈ Node.subtrees ns) ∧ r.Of applications b' m ∧
        (r.path, m) ∈ Node.walks path index ns
  | _, [], _, hr => absurd hr List.not_mem_nil
  | index, n :: rest, hns, hr => by
      rcases List.mem_append.mp hr with hr | hr
      · have hn : b.children[index]? = some n := Nat.zero_add index ▸ hns 0 n rfl
        obtain ⟨b', m, hb, hof, hwalk⟩ := mem_rowsAt hn hr
        refine ⟨b', m, ?_, hof, List.mem_append_left _ hwalk⟩
        exact hb.imp_right fun h => List.mem_append_left _ h
      · have hrest : ∀ i m, rest[i]? = some m → b.children[i + (index + 1)]? = some m := by
          intro i m hi
          rw [Nat.add_left_comm, Nat.add_comm index]
          exact hns (i + 1) m hi
        obtain ⟨b', m, hb, hof, hwalk⟩ := mem_rowsOf hrest hr
        refine ⟨b', m, ?_, hof, List.mem_append_right _ hwalk⟩
        exact hb.imp_right fun h => List.mem_append_right _ h

end

end

/-! ## 2. What is offered -/

/-- What can be added to a node may stand in it. -/
theorem accepts_of_mem_buttonsOf {kind k : Kind} (h : k ∈ buttonsOf kind) :
    kind.accepts k = true := by
  rcases kind with b | b
  · cases b with
    | extension => exact absurd h List.not_mem_nil
    | condition => revert k; decide
    | regexCondition => revert k; decide
  · exact absurd h List.not_mem_nil

/-- What can be added below the root may stand there. -/
theorem accepts_of_mem_rootButtons {k : Kind} (h : k ∈ rootButtons) :
    Kind.extension.accepts k = true := by
  revert k
  decide

/-- A new last child of a kind that a node accepts passes the check. -/
theorem Edit.check_addChild {t : Tree} {n : Node} {k : Kind} (hn : t.find? n.id = some n)
    (ha : n.kind.accepts k = true) : check t (.addChild n.id k none) = .ok () := by
  cases n with
  | leaf kind l => cases ha
  | branch kind l cs =>
    have hk : k ≠ .extension := by
      rintro rfl
      cases kind <;> cases ha
    have hb : needBranch t (Node.branch kind l cs).id = .ok ⟨kind, l, cs⟩ := by
      unfold needBranch
      rw [hn]
      rfl
    have hkind : checkKind ⟨kind, l, cs⟩ k = .ok () := if_pos ha
    have hchecks : (needBranch t (Node.branch kind l cs).id >>= fun b => checkKind b k >>= fun _ =>
        checkPosition none b.children.length) = .ok () :=
      bind_eq_ok.mpr ⟨_, hb, bind_eq_ok.mpr ⟨(), hkind, rfl⟩⟩
    exact (if_neg hk).trans hchecks

/-! ## 3. Projections -/

namespace Projection

/-- **What is shown is true of a tree, and what is offered can be done.** -/
structure Faithful (p : Projection) (t : Tree) : Prop where
  /-- The rows are the nodes below the root, in pre-order. -/
  ids : p.rows.map Row.id = Node.idsIn t.root.children
  distinct : (p.rows.map Row.id).Nodup
  parent : ∀ r ∈ p.rows, ∃ b, t.parentOf? r.id = some (b, r.index) ∧ b.id = r.parent
  path : ∀ r ∈ p.rows, t.pathOf? r.id = some r.path
  buttons : ∀ r ∈ p.rows, ∀ k ∈ r.buttons, Edit.check t (.addChild r.id k none) = .ok ()
  rootButtons : ∀ k ∈ p.rootButtons, Edit.check t (.addChild p.rootId k none) = .ok ()

/-- **The projection of a lawful tree with distinct numbers is faithful.** -/
theorem faithful_of {t : Tree} (hn : t.Numbered) (hl : t.Lawful Kind.Fits)
    (applications : Applications) (generation : Nat) :
    (Projection.of t applications generation).Faithful t := by
  have hids : (Projection.of t applications generation).rows.map Row.id =
      Node.idsIn t.root.children := map_id_rowsOf ..
  have hroot : t.root.node ∈ t.nodes := t.root.node.self_mem_subtree
  -- what a row is the row of
  have hrow : ∀ r ∈ (Projection.of t applications generation).rows,
      ∃ b m, b ∈ t.branches ∧ b.children[r.index]? = some m ∧
        r = rowOf applications b.id r.index r.path m.kind m.label ∧
        (r.path, m) ∈ t.descendants := by
    intro r hr
    obtain ⟨b, m, hb, ⟨hm, heq⟩, hwalk⟩ := mem_rowsOf (fun _ _ h => h) hr
    refine ⟨b, m, Tree.mem_branches.mpr ?_, hm, heq, hwalk⟩
    rcases hb with rfl | hb
    · exact hroot
    · exact List.mem_cons_of_mem _ hb
  refine ⟨hids, ?_, ?_, ?_, ?_, ?_⟩
  · rw [hids]
    exact (List.nodup_cons.mp hn.distinct).2
  · intro r hr
    obtain ⟨b, m, hb, hm, heq, -⟩ := hrow r hr
    have hid : r.id = m.id := congrArg Row.id heq
    have hparent : r.parent = b.id := congrArg Row.parent heq
    exact ⟨b, hid ▸ Tree.parentOf?_of_child hn.distinct hb hm, hparent.symm⟩
  · intro r hr
    obtain ⟨b, m, hb, hm, heq, hwalk⟩ := hrow r hr
    have hid : r.id = m.id := congrArg Row.id heq
    rw [hid]
    exact Tree.pathOf?_of_mem hn.distinct hwalk
  · intro r hr k hk
    obtain ⟨b, m, hb, hm, heq, -⟩ := hrow r hr
    have hid : r.id = m.id := congrArg Row.id heq
    have hbuttons : r.buttons = buttonsOf m.kind := congrArg Row.buttons heq
    rw [hbuttons] at hk
    rw [hid]
    exact Edit.check_addChild (Tree.find?_of_mem hn.distinct (Tree.child_mem_nodes hb hm))
      (accepts_of_mem_buttonsOf hk)
  · intro k hk
    have hkind : t.root.node.kind = .extension := congrArg Kind.branch hl.1
    have haccepts : t.root.node.kind.accepts k = true := hkind ▸ accepts_of_mem_rootButtons hk
    exact Edit.check_addChild (Tree.find?_of_mem hn.distinct hroot) haccepts

end Projection

/-! ## 4. Sessions -/

namespace Session

/-- **The rows are those of the tree, the applications and the count as they are now.** -/
def Current (s : Session) : Prop := s.shown = .of s.tree s.applications s.renders

theorem current_rerender (s : Session) : s.rerender.Current := rfl

theorem Opened.current {s : Session} (h : s.Opened) : s.Current := by
  cases h with
  | new id m p => rfl
  | «open» id markup m p =>
    unfold Session.«open»
    split
    · rfl
    · split <;> rfl

variable {s s' : Session}

/-- An edit that is done shows the rows anew. -/
theorem Current.attempt (h : s.Current) {done : Bool} (ha : s.Attempt done s') : s'.Current := by
  cases ha with
  | failed => exact h
  | done _ m => rfl

/-- A tree that is replaced is shown anew. -/
theorem Current.complete (h : s.Current) (k : Ticket) (r : Except Markup.Fault Tree) :
    (s.complete k r).2.Current := by
  unfold Session.complete
  split
  · cases r with
    | ok t => rfl
    | error e => exact h
  · exact h

end Session

/-! ## 5. Runs -/

namespace Desk

variable {σ : Type} [Store σ]

/-- **Every action that changes the tree or the applications shows the rows anew.** -/
theorem current_step {d : Desk σ} (h : d.session.Current) (a : Action) :
    (d.step a).1.session.Current := by
  cases he : a.edits with
  | true =>
    obtain ⟨done, s, hstep, ha⟩ := d.attempt_step he
    rw [hstep]
    exact h.attempt ha
  | false =>
    cases a with
    | updateMetadata _ | hover _ | cancelDrag | editMarkup _ _ | reconcileDue _ | begin => exact h
    | setApplications a => exact Session.current_rerender _
    | startDrag n =>
      obtain ⟨drag, hs⟩ := d.session.startDrag_eq n
      show (d.session.startDrag n).2.Current
      rw [hs]
      exact h
    | dropOn target =>
      have hidle : d.session.cancelDrag.Current := h
      exact hidle.attempt (d.session.attempt_dropOn target)
    | readTicket i =>
      simp only [step]
      split <;> exact h
    | complete i =>
      simp only [step]
      split
      · exact h
      · exact h.complete _ _
    | reconcile =>
      have hb : d.session.begin.2.Current := h
      exact hb.complete _ _
    | save confirmed =>
      have hs := d.session.session_save d.store confirmed
      show (d.session.save d.store confirmed).2.1.Current
      rw [hs]
      split <;> exact h
    | _ => cases he

theorem current_run (as : List Action) {d : Desk σ} (h : d.session.Current) :
    (d.run as).1.session.Current :=
  run_induction (P := fun d => d.session.Current) (fun a _ _ hd => current_step hd a) h

/-- **What is shown is what there is.** After every run of a session the rows are those of its tree
    and its applications as they are, every row's number occurs once, its parent, its index and its
    path are what the tree answers, and whatever a row or the root offers to add passes the check. -/
theorem run_shown {s : Session} (hs : s.Opened) (store : σ) (as : List Action) :
    let now := ((opening s store).run as).1.session
    now.shown = .of now.tree now.applications now.renders ∧ now.shown.Faithful now.tree := by
  intro now
  have hcurrent : now.Current := current_run as hs.current
  have hnumbered : now.tree.Numbered := Session.lasting_numbered.run hs.numbered store as
  have hlawful : now.tree.Lawful Kind.Fits := Session.lasting_lawful.run hs.lawful store as
  refine ⟨hcurrent, ?_⟩
  rw [show now.shown = _ from hcurrent]
  exact Projection.faithful_of hnumbered hlawful now.applications now.renders

/-- A condition of regexes is added, with its regex, and then there are other applications. -/
theorem run_shown_regexCondition :
    let actions : List Action := [.addNode .regexCondition, .setApplications ⟨["answer"]⟩]
    let first : Desk Shelf := opening (.new "main" .standard .standard) .empty
    let now := (first.run actions).1.session
    Session.Opened (.new "main" .standard .standard) ∧ now.shown.rows.length = 2 ∧
      now.renders = 3 ∧ now.shown = .of now.tree now.applications now.renders ∧
      now.shown.Faithful now.tree :=
  ⟨.new _ _ _, rfl, rfl, run_shown (.new _ _ _) _ _⟩

end Desk

end Dialplan
