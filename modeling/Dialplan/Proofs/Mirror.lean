import Dialplan.Proofs.Drag
import Dialplan.Proofs.Unsaved
/-!
# The root and the metadata

The name and the continue flag of a rule set are written twice, as attributes of the root and in the
metadata. Renaming, the setter of the flag and a reading that counts write both; an edit that names
the root writes the attribute alone, and a text that is opened brings a root of its own.

* `Twin`: one of the two fields; `Session.Mirrors`: the metadata say of it what the root says;
* `Edit.gives`: what an edit writes to the root alone; `Edit.said_effect`: it is all that an edit
  does to it;
* `Desk.lone`, `Desk.loneAfter`: what the root was given alone, if nothing has written both since;
* `run_mirrors`: **root and metadata agree after a run exactly when nothing was written to the root
  alone since both were written, or the same was written.**
-/

namespace Dialplan

/-! ## 1. The two fields -/

/-- A field that the root of a rule set and the metadata share. -/
inductive Twin where
  | name
  | continues
deriving DecidableEq, Repr

namespace Twin

/-- The attribute of the root. -/
def key : Twin → String
  | .name => "name"
  | .continues => "continue"

/-- Whether metadata say what a value of the attribute says. -/
def Told : Twin → Metadata → String → Prop
  | .name, m, v => m.name = v
  | .continues, m, v => m.continues = decide (v = "true")

instance (f : Twin) (m : Metadata) (v : String) : Decidable (f.Told m v) :=
  match f with
  | .name => inferInstanceAs (Decidable (m.name = v))
  | .continues => inferInstanceAs (Decidable (m.continues = decide (v = "true")))

/-- What metadata say is said by their two shared fields alone. -/
theorem Told.congr {f : Twin} {m m' : Metadata} {v : String} (h : f.Told m v)
    (hn : m'.name = m.name) (hc : m'.continues = m.continues) : f.Told m' v := by
  cases f with
  | name => exact hn.trans h
  | continues => exact hc.trans h

/-- Metadata that follow a root say what it says. -/
theorem told_followRoot {f : Twin} {m : Metadata} {root : Attributes} {v : String}
    (h : root.get? f.key = some v) : f.Told (Session.followRoot m root) v := by
  cases f with
  | name =>
    have hn : root.get? "name" = some v := h
    show (Session.followRoot m root).name = v
    unfold Session.followRoot
    rw [hn]
    cases root.get? "continue" <;> rfl
  | continues =>
    have hc : root.get? "continue" = some v := h
    unfold Session.followRoot
    rw [hc]
    rfl

end Twin

/-- What the root says of a field. -/
def Tree.said (t : Tree) (f : Twin) : Option String := t.root.label.attributes.get? f.key

/-- **The metadata say of a field what the root says**, if it says anything. -/
def Session.Mirrors (f : Twin) (s : Session) : Prop :=
  ∀ v, s.tree.said f = some v → f.Told s.metadata v

/-! ## 2. What an edit does to the root -/

namespace Tree

/-- A change at the root changes the label of the root, and any other leaves it. -/
theorem label_reshape (t : Tree) (id : NodeId) (label : Label → Label)
    (children : List Node → List Node) :
    ((t.reshape? id label children).getD t).root.label =
      if t.root.id = id then label t.root.label else t.root.label := by
  unfold reshape?
  split
  · rfl
  · cases Node.changeIn? id (fun n => (n.relabel label).regrow children) t.root.children <;> rfl

theorem said_regrow (t : Tree) (f : Twin) (id : NodeId) (children : List Node → List Node) :
    (t.regrow id children).said f = t.said f := by
  unfold said regrow
  rw [label_reshape, ite_self]

theorem said_of_root {t t' : Tree} (h : t'.root = t.root) (f : Twin) : t'.said f = t.said f := by
  unfold said
  rw [h]

end Tree

namespace Edit

/-- The value that an edit gives to a field of the root alone. -/
def gives (f : Twin) (root : NodeId) : Edit → Option String
  | .setAttribute node key value => if node = root ∧ key = f.key then some value else none
  | _ => none

/-- An attribute that is another one gives the field nothing. -/
theorem gives_of_ne {f : Twin} {key : String} (h : key ≠ f.key) (root node : NodeId)
    (value : String) : (Edit.setAttribute node key value).gives f root = none := by
  simp [gives, h]

theorem eq_of_gives {f : Twin} {root : NodeId} {e : Edit} {v : String} (h : e.gives f root = some v) :
    e = .setAttribute root f.key v := by
  unfold gives at h
  split at h
  · split at h
    · rename_i hk
      obtain ⟨rfl, rfl⟩ := hk
      cases h
      rfl
    · cases h
  · cases h

/-- **What an edit writes to a field of the root is all that it does to it.** -/
theorem said_effect (f : Twin) (t : Tree) (e : Edit) :
    (e.effect t).1.said f = (e.gives f t.root.id).or (t.said f) := by
  cases e with
  | addChild parent kind position =>
    simp only [effect]
    cases hc : t.create? kind with
    | none => rfl
    | some made =>
      obtain ⟨n, t'⟩ := made
      exact (t'.said_regrow f parent _).trans (Tree.said_of_root (create?_root hc) f)
  | removeChild parent index => exact t.said_regrow f parent _
  | moveNode node fromParent index destination =>
    simp only [effect]
    split
    · rfl
    · exact (Tree.said_regrow _ f _ _).trans (t.said_regrow f fromParent _)
  | setEnabled node flag =>
    show ((t.reshape? node _ _).getD t).root.label.attributes.get? f.key = t.said f
    rw [Tree.label_reshape]
    split <;> rfl
  | setAttribute node key value =>
    by_cases hn : node = t.root.id
    · subst hn
      have hf : t.find? t.root.id = some t.root.node := Node.find?_self (n := t.root.node) rfl
      have hroot : (effect t (.setAttribute t.root.id key value)).1.root.label.attributes =
          t.root.label.attributes.set key (writtenValue t.root.node.kind key value) := by
        simp only [effect, hf, Tree.relabel, Tree.label_reshape, if_true]
      unfold Tree.said
      rw [hroot]
      by_cases hk : key = f.key
      · subst hk
        have hw : writtenValue t.root.node.kind f.key value = value := by
          cases f <;> simp [writtenValue, Twin.key]
        rw [hw, Attributes.get?_set_self]
        simp [gives]
      · rw [Attributes.get?_set_of_ne (Ne.symm hk)]
        simp [gives, hk]
    · have hs : (Edit.setAttribute node key value).gives f t.root.id = none := by
        simp [gives, hn]
      rw [hs, Option.none_or]
      simp only [effect]
      split
      · rfl
      · unfold Tree.said Tree.relabel
        rw [Tree.label_reshape, if_neg (Ne.symm hn)]

/-- An edit that writes a field of the root is never refused. -/
theorem check_gives (f : Twin) (t : Tree) (v : String) :
    check t (.setAttribute t.root.id f.key v) = .ok () := by
  have hf : t.find? t.root.id = some t.root.node := Node.find?_self (n := t.root.node) rfl
  have hk : f.key ≠ "enabled" ∧ f.key ≠ "regex" ∧ Attributes.isValidKey f.key = true := by
    cases f <;> decide
  simp only [check, needNode, hf, hk.1, hk.2.1, hk.2.2]
  rfl

end Edit

/-! ## 3. What an action does to a field -/

namespace Session

/-- A field of a session when this value was given to the root alone since both were written, if
    one was: the root has the value, and otherwise both sides agree. -/
def Apart (f : Twin) (s : Session) : Option String → Prop
  | none => s.Mirrors f
  | some v => s.tree.said f = some v

variable {f : Twin} {s s' : Session} {w : Option String}

/-- The two sides agree as soon as the metadata say what the root was given alone. -/
theorem Apart.mirrors_iff (h : s.Apart f w) :
    s.Mirrors f ↔ ∀ v, w = some v → f.Told s.metadata v := by
  cases w with
  | none => exact ⟨fun _ v hv => (nomatch hv), fun _ => h⟩
  | some v =>
    have hsaid : s.tree.said f = some v := h
    unfold Mirrors
    rw [hsaid]

/-- What leaves both sides leaves the field. -/
theorem Apart.keep (h : s.Apart f w) (hr : s'.tree.said f = s.tree.said f)
    (hm : ∀ v, f.Told s.metadata v → f.Told s'.metadata v) : s'.Apart f w := by
  cases w with
  | none =>
    intro v hv
    rw [hr] at hv
    exact hm v (h v hv)
  | some v => exact hr.trans h

/-- Every session is one whose root was given its value alone. -/
theorem apart_said (f : Twin) (s : Session) : s.Apart f (s.tree.said f) := by
  cases h : s.tree.said f with
  | none =>
    intro v hv
    rw [h] at hv
    cases hv
  | some v => exact h

/-- An edit, done or refused, leaves the metadata. -/
theorem metadata_apply (s : Session) (e : Edit) : (s.apply e).2.metadata = s.metadata := by
  unfold apply
  cases s.draft.apply s.preferences.indent e <;> rfl

/-- An edit that passes the check leads to its effect, and any other changes nothing. -/
theorem tree_apply (s : Session) (e : Edit) : (s.apply e).2.tree =
    if e.check s.tree = .ok () then (e.effect s.tree).1 else s.tree := by
  unfold apply Draft.apply Edit.apply
  cases h : e.check s.draft.tree with
  | error r =>
    have hc : e.check s.tree ≠ .ok () := by
      rw [show e.check s.tree = .error r from h]
      exact fun he => nomatch he
    rw [if_neg hc]
  | ok u =>
    rw [if_pos (show e.check s.tree = .ok () from h)]
    rfl

theorem said_apply (f : Twin) (s : Session) (e : Edit) :
    (s.apply e).2.tree.said f = (e.gives f s.tree.root.id).or (s.tree.said f) := by
  rw [s.tree_apply e]
  split
  · exact e.said_effect f s.tree
  · rename_i hc
    cases hs : e.gives f s.tree.root.id with
    | none => rfl
    | some v =>
      rw [Edit.eq_of_gives hs] at hc
      exact absurd (Edit.check_gives f s.tree v) hc

/-- **An edit gives the root what it says, and nothing to the metadata.** -/
theorem Apart.apply (h : s.Apart f w) (e : Edit) :
    (s.apply e).2.Apart f ((e.gives f s.tree.root.id).or w) := by
  have hm := s.metadata_apply e
  have hr := s.said_apply f e
  cases hs : e.gives f s.tree.root.id with
  | none =>
    rw [hs] at hr
    exact h.keep hr fun v hv => hm ▸ hv
  | some v =>
    rw [hs] at hr
    exact hr

/-- A new child leaves the session that its edit leaves, also where there is no new number. -/
theorem session_addChild (s : Session) (parent : NodeId) (kind : Kind) (position : Option Nat) :
    (s.addChild parent kind position).2 = (s.apply (.addChild parent kind position)).2 := by
  unfold addChild
  split <;> rename_i h <;> rw [h]

/-- A node that goes or moves is no word to the root. -/
theorem Apart.removeNode (h : s.Apart f w) (node : NodeId) : (s.removeNode node).2.Apart f w := by
  unfold Session.removeNode
  split
  · exact h
  · exact h.apply (.removeChild _ _)

theorem Apart.moveNode (h : s.Apart f w) (node : NodeId) (destination : Destination) :
    (s.moveNode node destination).2.Apart f w := by
  unfold Session.moveNode
  split
  · exact h
  · exact h.apply (.moveNode _ _ _ _)

theorem Apart.dropOn (h : s.Apart f w) (target : Hovered) : (s.dropOn target).2.Apart f w := by
  have hidle : s.cancelDrag.Apart f w := h.keep rfl fun _ hv => hv
  unfold Session.dropOn
  split
  · cases hd : s.drag.drop s.tree target with
    | none => exact hidle
    | some e =>
      have hgives : e.gives f s.cancelDrag.tree.root.id = none := by
        unfold Drag.drop at hd
        split at hd
        · cases hd
        · obtain ⟨_, _, rfl⟩ := Option.map_eq_some_iff.mp hd
          rfl
      have ha := hidle.apply e
      rw [hgives] at ha
      exact ha
  · exact h

/-- A setter is never refused, and the metadata follow the root. -/
theorem setName_eq (s : Session) (name : String) : (s.setName name).2 =
    { (s.apply (.setAttribute s.tree.root.id Twin.name.key name)).2 with
      metadata := { s.metadata with name := name } } := by
  have hc : Edit.check s.draft.tree (.setAttribute s.draft.tree.root.id "name" name) = .ok () :=
    Edit.check_gives .name s.draft.tree name
  simp only [Session.setName, setAttribute, perform, Session.apply, Draft.apply, Edit.apply,
    Session.tree, Twin.key, hc]
  rfl

theorem setContinue_eq (s : Session) (flag : Bool) : (s.setContinue flag).2 =
    { (s.apply (.setAttribute s.tree.root.id Twin.continues.key (boolText flag))).2 with
      metadata := { s.metadata with continues := flag } } := by
  have hc : Edit.check s.draft.tree
      (.setAttribute s.draft.tree.root.id "continue" (boolText flag)) = .ok () :=
    Edit.check_gives .continues s.draft.tree (boolText flag)
  simp only [Session.setContinue, setAttribute, perform, Session.apply, Draft.apply, Edit.apply,
    Session.tree, Twin.key, hc]
  rfl

/-- Where the root is given what the metadata come to say, both sides agree. -/
theorem mirrors_set (f : Twin) (s : Session) {v : String} {m : Metadata} (h : f.Told m v) :
    Mirrors f { (s.apply (.setAttribute s.tree.root.id f.key v)).2 with metadata := m } := by
  intro x hx
  have hr := s.said_apply f (.setAttribute s.tree.root.id f.key v)
  have hg : (Edit.setAttribute s.tree.root.id f.key v).gives f s.tree.root.id = some v := by
    simp [Edit.gives]
  rw [hg] at hr
  obtain rfl : v = x := Option.some.inj (hr.symm.trans hx)
  exact h

/-- **Another name is written on both sides**, and is no word about the flag. -/
theorem Apart.setName (h : s.Apart f w) (name : String) :
    (s.setName name).2.Apart f (if f = .name then none else w) := by
  rw [setName_eq]
  cases f with
  | name => exact mirrors_set .name s (m := { s.metadata with name := name }) rfl
  | continues =>
    have hr := s.said_apply .continues (.setAttribute s.tree.root.id Twin.name.key name)
    rw [Edit.gives_of_ne (by decide)] at hr
    exact h.keep hr fun _ hv => hv

/-- The same of the flag. -/
theorem Apart.setContinue (h : s.Apart f w) (flag : Bool) :
    (s.setContinue flag).2.Apart f (if f = .continues then none else w) := by
  rw [setContinue_eq]
  cases f with
  | name =>
    have hr := s.said_apply .name
      (.setAttribute s.tree.root.id Twin.continues.key (boolText flag))
    rw [Edit.gives_of_ne (by decide)] at hr
    exact h.keep hr fun _ hv => hv
  | continues =>
    refine mirrors_set .continues s (m := { s.metadata with continues := flag }) ?_
    show flag = decide (boolText flag = "true")
    cases flag <;> rfl

/-- **The metadata follow the root of a tree that was read.** -/
theorem Apart.complete (h : s.Apart f w) (k : Ticket) (r : Except Markup.Fault Tree) :
    (s.complete k r).2.Apart f (if (s.complete k r).1 = .applied then none else w) := by
  unfold Session.complete
  split
  · cases r with
    | ok t => exact fun v hv => Twin.told_followRoot hv
    | error e => exact h
  · exact h

end Session

/-! ## 4. Sessions at their start, and the number of the root -/

/-- An accepted edit leaves the root its number. -/
theorem Edit.Done.root_id {t t' : Tree} {e : Edit} {c : Option NodeId} (h : Done t e t' c) :
    t'.root.id = t.root.id := by
  cases h with
  | addChild _ _ _ _ _ hr _ => exact hr.id_eq rfl
  | removeChild _ _ hr _ => exact hr.id_eq rfl
  | moveNode _ _ _ _ _ _ _ hr _ _ hr₁ _ => exact (hr₁.id_eq rfl).trans (hr.id_eq rfl)
  | @setEnabled _ flag m _ _ hr _ =>
    refine hr.id_eq ?_
    cases m <;> rfl
  | @setAttribute _ _ _ m _ _ _ hr _ =>
    refine hr.id_eq ?_
    cases m <;> rfl

/-- The root comes first in pre-order. -/
theorem Tree.InOrder.root_id {t : Tree} (h : t.InOrder) : t.root.id = ⟨1⟩ := by
  have hids : t.root.id :: Node.idsIn t.root.children = minted 0 t.issued := h
  cases hi : t.issued with
  | zero =>
    rw [hi] at hids
    cases hids
  | succ n =>
    rw [hi, ← minted_append (Nat.zero_le 1) (Nat.le_add_left 1 n)] at hids
    exact (List.cons.inj hids).1

namespace Session

/-- The root of a rule set has the first number, whatever has been done. -/
theorem lasting_root : Lasting fun s => s.tree.root.id = ⟨1⟩ :=
  lasting_tree (fun ht h => h.root_id.trans ht) (fun h => (Markup.inOrder_of_read h).root_id)
    fun _ => rfl

theorem Opened.root_id {s : Session} (h : s.Opened) : s.tree.root.id = ⟨1⟩ :=
  h.tree (T := fun t => t.root.id = ⟨1⟩) (fun h => (Markup.inOrder_of_read h).root_id) fun _ => rfl

/-- The root of a new rule set says what the metadata say. -/
theorem told_ofMetadata {f : Twin} {m : Metadata} {v : String}
    (h : (Tree.ofMetadata m).said f = some v) : f.Told m v := by
  cases f with
  | name => exact Option.some.inj h
  | continues =>
    obtain rfl : boolText m.continues = v := Option.some.inj h
    show m.continues = decide (boolText m.continues = "true")
    cases m.continues <;> rfl

/-- **Only a text that was read starts with a root that the metadata do not follow.** -/
theorem Opened.mirrors_or_read {s : Session} (h : s.Opened) (f : Twin) :
    s.Mirrors f ∨ Markup.read s.markup = .ok s.tree := by
  cases h with
  | new id m p => exact .inl fun v hv => told_ofMetadata hv
  | «open» id text m p =>
    unfold Session.open Draft.ofMarkup
    split
    · exact .inl fun v hv => told_ofMetadata hv
    · cases hr : Markup.read text with
      | ok t => exact .inr hr
      | error e => exact .inl fun v hv => told_ofMetadata hv

end Session

/-! ## 5. Runs -/

/-- The value that an action gives to a field of the root alone. -/
def Action.gives (f : Twin) (root : NodeId) : Action → Option String
  | .apply e => e.gives f root
  | .setAttribute node key value => (Edit.setAttribute node key value).gives f root
  | _ => none

namespace Desk

variable {σ : Type}

/-- **What the root was given alone** after an action, if nothing has written both sides since:
    setters and readings that count write both. -/
def lone (f : Twin) (d : Desk σ) (w : Option String) : Action → Option String
  | .setName _ => if f = .name then none else w
  | .setContinue _ => if f = .continues then none else w
  | .complete i =>
    match d.readings[i]? with
    | none => w
    | some (k, r) => if (d.session.complete k r).1 = .applied then none else w
  | .reconcile => if d.session.reconcile.1 = .applied then none else w
  | a => (a.gives f d.session.tree.root.id).or w

/-- An action that gives nothing to the root alone leaves both sides written together. -/
theorem lone_none {f : Twin} {d : Desk σ} {a : Action}
    (h : a.gives f d.session.tree.root.id = none) : d.lone f none a = none := by
  cases a with
  | complete i =>
    simp only [lone]
    split
    · rfl
    · exact ite_self _
  | setName | setContinue | reconcile => exact ite_self _
  | _ =>
    simp only [lone, Option.or_none]
    exact h

variable [Store σ]

/-- The same after actions one after another. -/
def loneAfter (f : Twin) (d : Desk σ) (w : Option String) : List Action → Option String
  | [] => w
  | a :: rest => (d.step a).1.loneAfter f (d.lone f w a) rest

/-- **Every action keeps the account of a field.** -/
theorem apart_step {f : Twin} {d : Desk σ} {w : Option String} (h : d.session.Apart f w)
    (a : Action) : (d.step a).1.session.Apart f (d.lone f w a) := by
  cases a with
  | apply e => exact h.apply e
  | addChild p k i =>
    show (d.session.addChild p k i).2.Apart f w
    rw [Session.session_addChild]
    exact h.apply (.addChild p k i)
  | addNode k =>
    show (d.session.addChild d.session.tree.root.id k none).2.Apart f w
    rw [Session.session_addChild]
    exact h.apply (.addChild _ k none)
  | removeChild p i => exact h.apply (.removeChild p i)
  | removeNode n => exact h.removeNode n
  | moveNode n destination => exact h.moveNode n destination
  | setEnabled n b => exact h.apply (.setEnabled n b)
  | setAttribute n k v => exact h.apply (.setAttribute n k v)
  | setName name => exact h.setName name
  | setContinue flag => exact h.setContinue flag
  | updateMetadata u => exact h.keep rfl fun _ hv => hv.congr rfl rfl
  | startDrag n =>
    have hs := d.session.same_startDrag n
    exact h.keep (congrArg (Tree.said · f) hs.tree) fun _ hv => hv.congr hs.name hs.continues
  | setApplications | hover | cancelDrag | editMarkup | reconcileDue | begin =>
    exact h.keep rfl fun _ hv => hv
  | dropOn target => exact h.dropOn target
  | readTicket i =>
    simp only [step]
    split <;> exact h
  | complete i =>
    simp only [step, lone]
    cases d.readings[i]? with
    | none => exact h
    | some reading => exact h.complete reading.1 reading.2
  | reconcile =>
    have hb : d.session.begin.2.Apart f w := h.keep rfl fun _ hv => hv
    exact hb.complete _ _
  | save confirmed =>
    have hs := d.session.same_save d.store confirmed
    exact h.keep (congrArg (Tree.said · f) hs.tree) fun _ hv => hv.congr hs.name hs.continues

theorem apart_run {f : Twin} (as : List Action) {d : Desk σ} {w : Option String}
    (h : d.session.Apart f w) : (d.run as).1.session.Apart f (d.loneAfter f w as) := by
  induction as generalizing d w with
  | nil => exact h
  | cons a as ih => exact ih (apart_step h a)

/-- Where no edit names the attribute of the root, both sides stay in agreement. -/
theorem mirrors_run {f : Twin} {as : List Action} (ha : ∀ a ∈ as, a.gives f ⟨1⟩ = none)
    {d : Desk σ} (hk : d.Keeps fun s => s.tree.root.id = ⟨1⟩) (hm : d.session.Mirrors f) :
    (d.run as).1.session.Mirrors f := by
  induction as generalizing d with
  | nil => exact hm
  | cons a as ih =>
    have hg : a.gives f d.session.tree.root.id = none := by
      rw [hk.session]
      exact ha a List.mem_cons_self
    have hnone : d.session.Apart f none := hm
    have hstep := apart_step hnone a
    rw [lone_none hg] at hstep
    exact ih (fun b hb => ha b (List.mem_cons_of_mem a hb))
      ((turn_step d a).keeps Session.lasting_root hk) hstep

/-- **Root and metadata agree exactly when nothing was written to the root alone since both were
    written, or the same was written.** At the start the root has its value alone; setters and
    readings that count write both sides. A session that starts in agreement stays in agreement as
    long as no edit names the attribute of the root, and only a text that was read starts without
    it. -/
theorem run_mirrors {s : Session} (hs : s.Opened) (store : σ) (f : Twin) (as : List Action) :
    let d := opening s store
    let now := (d.run as).1.session
    (now.Mirrors f ↔ ∀ v, d.loneAfter f (s.tree.said f) as = some v → f.Told now.metadata v) ∧
      (s.Mirrors f → (∀ a ∈ as, a.gives f ⟨1⟩ = none) → now.Mirrors f) ∧
      (s.Mirrors f ∨ Markup.read s.markup = .ok s.tree) := by
  intro d now
  exact ⟨(apart_run as (s.apart_said f)).mirrors_iff,
    fun hm ha => mirrors_run ha (keeps_opening hs.root_id store) hm, hs.mirrors_or_read f⟩

theorem said_typedDesk : typedDesk.session.tree.said .name = some "typed" := by
  rw [session_typedDesk]
  rfl

theorem not_mirrors_typedDesk : ¬ typedDesk.session.Mirrors .name := by
  intro h
  have ht := h "typed" said_typedDesk
  rw [session_typedDesk] at ht
  exact absurd ht (by decide)

/-- A text whose root has a name of its own, opened beside metadata without a name: the two differ
    until the text is read again. -/
theorem run_mirrors_typed : ¬ typedDesk.session.Mirrors .name ∧
    (typedDesk.run [.reconcile]).1.session.Mirrors .name := by
  have hs : (Session.open "main" typedText .standard .standard).Opened := .open _ _ _ _
  have hlone : typedDesk.loneAfter .name (typedDesk.session.tree.said .name) [.reconcile] =
      none := by
    show (if typedDesk.session.reconcile.1 = .applied then none else _) = none
    rw [reconcile_typedDesk, session_typedDesk]
    rfl
  refine ⟨not_mirrors_typedDesk, (run_mirrors hs Shelf.empty .name [.reconcile]).1.mpr ?_⟩
  intro v hv
  cases hlone.symm.trans hv

/-- **Root and metadata may differ where tree and text are said to agree**: after a text was opened,
    and after an edit of the root. -/
theorem synced_unlike_root :
    (typedDesk.session.agreement = .synced ∧ ¬ typedDesk.session.Mirrors .name) ∧
      let d : Desk Shelf := opening (.new "main" .standard .standard) .empty
      let now := (d.run [.setAttribute ⟨1⟩ "name" "x"]).1.session
      now.agreement = .synced ∧ ¬ now.Mirrors .name := by
  refine ⟨⟨?_, not_mirrors_typedDesk⟩, rfl, fun h => ?_⟩
  · rw [session_typedDesk]
    rfl
  · exact absurd (h "x" rfl) (by decide)

end Desk

end Dialplan
