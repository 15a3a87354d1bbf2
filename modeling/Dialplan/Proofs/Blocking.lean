import Dialplan.Proofs.Places
import Dialplan.Proofs.Saving
import Mathlib
/-!
# What a save and the checks say of one tree

A save looks for the first condition of regexes without a regex. The checks look at every node by
every rule, and list all that they find. Here both are told by the same places of the tree.

* `Tree.LacksAt`: the places of enabled conditions of regexes without an enabled regex;
* `Tree.FirstLack`: the first of them in pre-order, which is the order of paths;
* `Tree.find?_findings`: **the first finding of a rule is the first thing that the rule says**,
  whatever other rules are checked between;
* `Blocker.of?_agrees`: a save is blocked at the first of these places, and this is where the
  checks have the first finding of the rule.
-/

namespace Dialplan

/-! ## 1. One rule among others -/

namespace Rule

variable {r : Rule} {rules : List Rule} {p : Path} {n : Node} {f : Finding}

/-- A finding carries the name of its rule. -/
theorem check_rule (h : r.check p n = some f) : f.rule = r.name := by
  cases r with
  | regexNeeded =>
    obtain ⟨-, h⟩ := Option.ite_none_right_eq_some.mp h
    rw [← Option.some.inj h]
  | applicationNamed =>
    obtain ⟨-, h⟩ := Option.ite_none_right_eq_some.mp h
    rw [← Option.some.inj h]
  | applicationKnown known =>
    obtain ⟨a, -, rfl⟩ := Option.map_eq_some_iff.mp h
    rfl

/-- No finding has the name of a rule that is not checked. -/
theorem find?_checks_eq_none (hr : r.name ∉ rules.map name) (p : Path) (n : Node) :
    (rules.filterMap fun s => s.check p n).find? (fun f => f.rule = r.name) = none := by
  rw [List.find?_eq_none]
  intro f hf hname
  obtain ⟨s, hs, hf⟩ := List.mem_filterMap.mp hf
  refine hr (List.mem_map.mpr ⟨s, hs, ?_⟩)
  exact (check_rule hf).symm.trans (of_decide_eq_true hname)

/-- Among rules with names of their own, the finding with the name of a rule is that of the rule. -/
theorem find?_checks (hr : r ∈ rules) (hd : (rules.map name).Nodup) (p : Path) (n : Node) :
    (rules.filterMap fun s => s.check p n).find? (fun f => f.rule = r.name) = r.check p n := by
  induction rules with
  | nil => exact absurd hr List.not_mem_nil
  | cons s rules ih =>
    obtain ⟨hs, hd⟩ := List.nodup_cons.mp hd
    have hcons : ((s :: rules).filterMap fun s => s.check p n) =
        (s.check p n).toList ++ rules.filterMap fun s => s.check p n := by
      rw [List.filterMap_cons]
      cases s.check p n <;> rfl
    rw [hcons, List.find?_append]
    rcases List.mem_cons.mp hr with rfl | hr
    · rw [find?_checks_eq_none hs]
      cases hc : r.check p n with
      | none => rfl
      | some f =>
        rw [Option.or_none, Option.toList_some, List.find?_cons_of_pos]
        exact decide_eq_true (check_rule hc)
    · -- the rule in front has another name
      have hne : r.name ≠ s.name := fun e => hs (List.mem_map.mpr ⟨r, hr, e⟩)
      have hnone : (s.check p n).toList.find? (fun f => f.rule = r.name) = none := by
        rw [List.find?_eq_none]
        intro f hf hname
        rw [Option.mem_toList] at hf
        exact hne ((of_decide_eq_true hname).symm.trans (check_rule hf))
      rw [hnone, Option.none_or, ih hr hd]

theorem mem_rulesFor (applications : Option (List String)) :
    Rule.regexNeeded ∈ rulesFor applications :=
  List.mem_cons_self

theorem nodup_rulesFor (applications : Option (List String)) :
    ((rulesFor applications).map name).Nodup := by
  cases applications <;> exact of_decide_eq_true rfl

/-- What the first rule says of a node that is not complete. -/
theorem check_regexNeeded_eq_some_iff : regexNeeded.check p n = some f ↔ ¬ n.Complete ∧
    f = ⟨.error, regexNeeded.name, regexNeededMessage, .node p,
      some "Add a regex element or enable an existing one"⟩ := by
  rw [← lacksRegex_eq_false_iff, Bool.not_eq_false]
  exact Option.ite_none_right_eq_some.trans (and_congr_right fun _ => by
    rw [Option.some.injEq]
    exact eq_comm)

end Rule

namespace Tree

variable {t : Tree} {p q : Path} {n : Node} {r : Rule} {rules : List Rule} {f : Finding}

/-- **The first finding of a rule is the first thing that the rule says**, in document order. -/
theorem find?_findings (hr : r ∈ rules) (hd : (rules.map Rule.name).Nodup) (t : Tree) :
    (t.findings rules).find? (fun f => f.rule = r.name) =
      t.descendants.findSome? fun e => r.check e.1 e.2 := by
  unfold findings
  rw [List.find?_flatMap]
  exact congrArg (t.descendants.findSome? ·) (funext fun e => Rule.find?_checks hr hd e.1 e.2)

/-- So the first finding of the first rule is what keeps the tree from being saved. -/
theorem find?_findings_rulesFor (t : Tree) (applications : Option (List String)) :
    (t.findings (rulesFor applications)).find? (fun f => f.rule = Rule.regexNeeded.name) =
      t.blocker? :=
  find?_findings (Rule.mem_rulesFor applications) (Rule.nodup_rulesFor applications) t

/-! ## 2. The first place -/

/-- The walk below the root comes to every place but the root's. -/
theorem mem_descendants : (p, n) ∈ t.descendants ↔ p ≠ .root ∧ t.nodeAt? p = some n := by
  rw [← mem_places]
  unfold places
  constructor
  · intro h
    refine ⟨?_, List.mem_cons_of_mem _ h⟩
    obtain ⟨j, c, is, -, rfl, -⟩ := Node.mem_walks.mp h
    exact fun hroot => absurd (congrArg Path.indices hroot) (List.cons_ne_nil _ _)
  · rintro ⟨hroot, h⟩
    rcases List.mem_cons.mp h with h | h
    · exact absurd (congrArg Prod.fst h) hroot
    · exact h

/-- An enabled condition of regexes without an enabled regex among its children stands at a path.
    Whether the branches above it are enabled does not count; the root is not looked at. -/
def LacksAt (t : Tree) (p : Path) : Prop :=
  p ≠ .root ∧ ∃ n, t.nodeAt? p = some n ∧ ¬ n.Complete

/-- A path leads to the first such condition, in the order of paths. -/
structure FirstLack (t : Tree) (p : Path) : Prop where
  lacks : t.LacksAt p
  first : ∀ q, t.LacksAt q → p = q ∨ p.indices < q.indices

theorem FirstLack.unique (hp : t.FirstLack p) (hq : t.FirstLack q) : p = q := by
  rcases hp.first q hq.lacks with h | h
  · exact h
  · rcases hq.first p hp.lacks with h' | h'
    · exact h'.symm
    · exact absurd h' (List.lt_asymm h)

theorem lacksAt_iff : t.LacksAt p ↔ ∃ n, (p, n) ∈ t.descendants ∧ ¬ n.Complete := by
  unfold LacksAt
  constructor
  · rintro ⟨hroot, n, hn, hc⟩
    exact ⟨n, mem_descendants.mpr ⟨hroot, hn⟩, hc⟩
  · rintro ⟨n, hn, hc⟩
    obtain ⟨hroot, hn⟩ := mem_descendants.mp hn
    exact ⟨hroot, n, hn, hc⟩

/-- **What blocks a save is found at the first of these places.** -/
theorem blocker?_eq_some (h : t.blocker? = some f) : ∃ p, t.FirstLack p ∧
    f = ⟨.error, Rule.regexNeeded.name, Rule.regexNeededMessage, .node p,
      some "Add a regex element or enable an existing one"⟩ := by
  obtain ⟨before, ⟨p, n⟩, after, hsplit, hf, hnone⟩ := List.findSome?_eq_some_iff.mp h
  obtain ⟨hn, rfl⟩ := Rule.check_regexNeeded_eq_some_iff.mp hf
  have hordered := Node.pairwise_walks t.root.children .root 0
  rw [show Node.walks .root 0 t.root.children = _ from hsplit, List.pairwise_append,
    List.pairwise_cons] at hordered
  refine ⟨p, ⟨lacksAt_iff.mpr ⟨n, ?_, hn⟩, fun q hq => ?_⟩, rfl⟩
  · rw [hsplit]
    exact List.mem_append_right _ List.mem_cons_self
  · obtain ⟨m, hm, hc⟩ := lacksAt_iff.mp hq
    rw [hsplit, List.mem_append, List.mem_cons] at hm
    rcases hm with hm | hm | hm
    · -- all that stands in front is complete
      exact absurd ((Rule.check_regexNeeded_eq_none_iff q m).mp (hnone _ hm)) hc
    · exact .inl (congrArg Prod.fst hm).symm
    · exact .inr (hordered.2.1.1 _ hm)

theorem blocker?_eq_none_iff : t.blocker? = none ↔ ∀ p, ¬ t.LacksAt p := by
  unfold blocker?
  rw [List.findSome?_eq_none_iff]
  constructor
  · intro h p hp
    obtain ⟨n, hn, hc⟩ := lacksAt_iff.mp hp
    exact hc ((Rule.check_regexNeeded_eq_none_iff p n).mp (h _ hn))
  · intro h e he
    refine (Rule.check_regexNeeded_eq_none_iff e.1 e.2).mpr (by_contra fun hc => ?_)
    exact h e.1 (lacksAt_iff.mpr ⟨e.2, he, hc⟩)

end Tree

/-! ## 3. The save -/

namespace Blocker

variable {t : Tree} {b : Blocker} {p : Path}

theorem of?_eq_some_iff : of? t = some b ↔ b.message = Rule.regexNeededMessage ∧
    t.FirstLack b.path := by
  constructor
  · intro h
    obtain ⟨f, hf, rfl⟩ := Option.map_eq_some_iff.mp h
    obtain ⟨p, hp, rfl⟩ := Tree.blocker?_eq_some hf
    exact ⟨rfl, hp⟩
  · rintro ⟨hmessage, hp⟩
    cases hf : t.blocker? with
    | none => exact absurd hp.lacks (Tree.blocker?_eq_none_iff.mp hf _)
    | some f =>
      obtain ⟨q, hq, rfl⟩ := Tree.blocker?_eq_some hf
      unfold of?
      rw [hf]
      obtain ⟨message, path⟩ := b
      rw [show message = _ from hmessage, show path = q from hp.unique hq]
      rfl

theorem isSome_of?_iff : (of? t).isSome = true ↔ ∃ p, t.LacksAt p := by
  rw [Option.isSome_iff_ne_none, Ne, of?, Option.map_eq_none_iff, Tree.blocker?_eq_none_iff,
    not_forall_not]

/-- **A save and the checks agree.** A save is blocked exactly if some place below the root has an
    enabled condition of regexes without an enabled regex, and a root that is an extension is none
    itself. It is blocked at the first of these places, and this is where the checks, with a list of
    applications or without, have the first finding of the rule. -/
theorem of?_agrees (t : Tree) :
    ((of? t).isSome = true ↔ ∃ p, t.LacksAt p) ∧
    (t.root.kind = .extension → ((∃ p, t.LacksAt p) ↔ ∃ n ∈ t.nodes, ¬ n.Complete)) ∧
    (∀ b, of? t = some b ↔ b.message = Rule.regexNeededMessage ∧ t.FirstLack b.path) ∧
    ∀ applications p, (∃ b, of? t = some b ∧ b.path = p) ↔
      ∃ f, (t.findings (rulesFor applications)).find?
          (fun f => f.rule = "regex-condition-needs-regex") = some f ∧
        f.severity = .error ∧ f.place = .node p := by
  refine ⟨isSome_of?_iff, fun hroot => ?_, fun b => of?_eq_some_iff, fun applications p => ?_⟩
  · have hcomplete := Tree.complete_iff_blocker? hroot
    rw [Tree.blocker?_eq_none_iff] at hcomplete
    have hnot := not_congr hcomplete.symm
    unfold Tree.Complete at hnot
    push Not at hnot
    exact hnot
  · have hfind := t.find?_findings_rulesFor applications
    rw [show Rule.regexNeeded.name = "regex-condition-needs-regex" from rfl] at hfind
    rw [hfind]
    constructor
    · rintro ⟨b, hb, rfl⟩
      obtain ⟨f, hf, rfl⟩ := Option.map_eq_some_iff.mp hb
      obtain ⟨p, -, rfl⟩ := Tree.blocker?_eq_some hf
      exact ⟨_, hf, rfl, rfl⟩
    · rintro ⟨f, hf, -, hplace⟩
      refine ⟨_, Option.map_eq_some_iff.mpr ⟨f, hf, rfl⟩, ?_⟩
      rw [hplace]

end Blocker

end Dialplan
