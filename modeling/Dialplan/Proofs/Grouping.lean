import Dialplan.Proofs.DetailRow
import Dialplan.Proofs.Places
import Dialplan.Proofs.Sorting
import Mathlib
/-!
# Which rows become nodes, and where

The pass over the rows keeps a condition open and closes it at the next one and where a group ends.
Here it is told without an open condition, from the rows alone, what it comes to.

* `counting`: the rows that become nodes; `features?`: what a row says of its node;
* `holder?`: the row whose condition a row goes into;
* `Pass.Built`: what is built agrees with the rows so far; `Pass.Built.step`: **one row keeps it
  so**;
* `Tree.ofRows_built`: the walk through the tree comes to one node for each of these rows, in their
  order, each below the node of the row that holds it.
-/

namespace Dialplan

/-- What a node says apart from its number and its children. -/
def Node.features (n : Node) : Kind × Attributes × Bool := (n.kind, n.attributes, n.enabled)

/-- The children of a node one after another, the last ones behind the others. -/
theorem Node.walks_append (path : Path) (index : Nat) (ns ms : List Node) :
    walks path index (ns ++ ms) = walks path index ns ++ walks path (index + ns.length) ms := by
  induction ns generalizing index with
  | nil => rfl
  | cons n ns ih =>
    rw [List.cons_append, walks, walks, ih, List.append_assoc, List.length_cons,
      Nat.add_right_comm, Nat.add_assoc]

namespace DetailRow

/-! ## 1. Rows that become nodes -/

/-- What a row says of its node: kind, attributes and flag. -/
def features? (r : DetailRow) : Option (Kind × Attributes × Bool) :=
  r.role?.map fun role => (role.kind, r.attributes role, r.enabled)

/-- The last condition row of a group among rows, and its index. -/
def lastCondition? (rows : List DetailRow) (group : Int) : Option (DetailRow × Nat) :=
  (rows.zipIdx.filter fun e => e.1.tag = "condition" && e.1.group = group).getLast?

/-- Whether a row becomes a node behind these rows: its tag is that of a node, and for a regex row
    the last condition row of its group is one of regexes. -/
def countsBehind (rows : List DetailRow) (r : DetailRow) : Bool :=
  if r.tag = "regex" then (lastCondition? rows r.group).any fun e => e.1.type = "regex"
  else r.tag = "condition" || r.tag = "action" || r.tag = "anti-action"

/-- The rows that become nodes, of rows in the order in which they count. -/
def counting (rows : List DetailRow) : List DetailRow :=
  (rows.zipIdx.filter fun e => countsBehind (rows.take e.2) e.1).map (·.1)

/-- The index of the row whose condition the row at an index goes into: the last condition row of
    its group in front of it. A condition row, and a row without such a row, go below the root. -/
def holder? (rows : List DetailRow) (i : Nat) : Option Nat := do
  let r ← rows[i]?
  if r.tag = "condition" then none else (lastCondition? (rows.take i) r.group).map (·.2)

variable {r c : DetailRow} {rows : List DetailRow} {group : Int}

theorem lastCondition?_concat (rows : List DetailRow) (r : DetailRow) (group : Int) :
    lastCondition? (rows ++ [r]) group =
      if r.tag = "condition" ∧ r.group = group then some (r, rows.length)
      else lastCondition? rows group := by
  unfold lastCondition?
  rw [List.zipIdx_append, List.filter_append, List.zipIdx_singleton, Nat.zero_add]
  by_cases h : r.tag = "condition" ∧ r.group = group
  · rw [if_pos h, List.filter_cons_of_pos (by simp [h])]
    exact List.getLast?_concat
  · rw [if_neg h, List.filter_cons_of_neg (by simpa using h), List.filter_nil, List.append_nil]

theorem lastCondition?_eq_some {i : Nat} (h : lastCondition? rows group = some (c, i)) :
    rows[i]? = some c ∧ c.tag = "condition" ∧ c.group = group := by
  have hmem := List.mem_of_getLast? h
  rw [List.mem_filter, List.mem_zipIdx_iff_getElem?] at hmem
  simpa using hmem

/-- Rows of other groups open no condition of this one. -/
theorem lastCondition?_eq_none (h : ∀ c ∈ rows, c.group ≠ group) :
    lastCondition? rows group = none := by
  cases hl : lastCondition? rows group with
  | none => rfl
  | some e =>
    obtain ⟨hc, -, hg⟩ := lastCondition?_eq_some hl
    exact absurd hg (h _ (List.mem_of_getElem? hc))

/-- The rows in front settle which row holds one. -/
theorem holder?_of_lt {i : Nat} (h : i < rows.length) :
    holder? (rows ++ [r]) i = holder? rows i := by
  unfold holder?
  rw [List.getElem?_append_left h, List.take_append_of_le_length h.le]

theorem holder?_concat (rows : List DetailRow) (r : DetailRow) :
    holder? (rows ++ [r]) rows.length =
      if r.tag = "condition" then none else (lastCondition? rows r.group).map (·.2) := by
  unfold holder?
  rw [List.getElem?_concat_length, List.take_left']
  · rfl
  · rfl

theorem countsBehind_node (h : r.tag = "condition" ∨ r.tag = "action" ∨ r.tag = "anti-action") :
    countsBehind rows r = true := by
  unfold countsBehind
  rcases h with h | h | h <;> rw [h] <;> rfl

theorem countsBehind_regex (h : r.tag = "regex") :
    countsBehind rows r = (lastCondition? rows r.group).any fun e => e.1.type = "regex" :=
  if_pos h

theorem countsBehind_other (h : r.tag ∉ ["condition", "regex", "action", "anti-action"]) :
    countsBehind rows r = false := by
  unfold countsBehind
  simp only [List.mem_cons, List.not_mem_nil, or_false, not_or] at h
  simp [h]

theorem counting_concat (rows : List DetailRow) (r : DetailRow) :
    counting (rows ++ [r]) =
      if countsBehind rows r then counting rows ++ [r] else counting rows := by
  -- the rows in front see the same rows in front of them
  have hfront : (rows.zipIdx.filter fun e => countsBehind ((rows ++ [r]).take e.2) e.1) =
      rows.zipIdx.filter fun e => countsBehind (rows.take e.2) e.1 := by
    refine List.filter_congr fun e he => ?_
    rw [List.take_append_of_le_length (List.snd_lt_of_mem_zipIdx he).le]
  unfold counting
  rw [List.zipIdx_append, List.filter_append, hfront, List.zipIdx_singleton, Nat.zero_add,
    List.map_append, List.filter_singleton, List.take_left]
  cases countsBehind rows r with
  | false => exact List.append_nil _
  | true => rfl

/-- Rows that do not become nodes open no condition. -/
theorem lastCondition?_counting (rows : List DetailRow) (group : Int) :
    (lastCondition? (counting rows) group).map (·.1) =
      (lastCondition? rows group).map (·.1) := by
  induction rows using List.reverseRecOn with
  | nil => rfl
  | append_singleton rows r ih =>
    rw [counting_concat, lastCondition?_concat]
    by_cases htag : r.tag = "condition"
    · rw [if_pos (countsBehind_node (.inl htag)), lastCondition?_concat]
      split
      · rfl
      · exact ih
    · have hopens : ¬(r.tag = "condition" ∧ r.group = group) := fun e => htag e.1
      rw [if_neg hopens]
      split
      · rw [lastCondition?_concat, if_neg hopens, ih]
      · exact ih

theorem countsBehind_counting (rows : List DetailRow) (r : DetailRow) :
    countsBehind (counting rows) r = countsBehind rows r := by
  have h := congrArg (Option.any fun c : DetailRow => c.type = "regex")
    (lastCondition?_counting rows r.group)
  rw [Option.any_map, Option.any_map] at h
  unfold countsBehind
  split
  · exact h
  · rfl

/-! ## 2. What is built -/

namespace Pass

/-- The places below the root so far, each with what the node there says. -/
def trace (p : Pass) : List (Path × Kind × Attributes × Bool) :=
  (Node.walks .root 0 p.finished).map fun e => (e.1, e.2.features)

variable {p p' : Pass} {b : Branch} {k : LeafKind} {l : Label}

theorem trace_flush (p : Pass) : p.flush.trace = p.trace := by
  unfold trace
  rw [finished_flush]

theorem trace_enter (p : Pass) (group : Int) : (p.enter group).trace = p.trace := by
  unfold enter
  split
  · rfl
  · exact p.trace_flush

/-- A leaf where no condition is open is one more child of the root. -/
theorem trace_addLeaf_root (h : p.current = none) : (p.addLeaf (.leaf k l)).trace =
    p.trace ++ [(Path.root.child p.children.length, (Node.leaf k l).features)] := by
  unfold trace addLeaf finished
  rw [h]
  simp only [Option.map_none, Option.toList_none, List.append_nil, Node.walks_append,
    List.map_append, Nat.zero_add]
  rfl

/-- A leaf where a condition is open is one more child of it, and the last node so far. -/
theorem trace_addLeaf_branch (h : p.current = some b) : (p.addLeaf (.leaf k l)).trace =
    p.trace ++ [((Path.root.child p.children.length).child b.children.length,
      (Node.leaf k l).features)] := by
  unfold trace addLeaf finished
  rw [h]
  simp only [Option.map_some, Option.toList_some, Node.walks_append, List.map_append,
    Nat.zero_add, Branch.node]
  simp only [Node.walks, Node.walk, Node.walks_append, Nat.zero_add, List.append_nil,
    List.map_cons, List.map_append, List.map_nil, List.cons_append, List.append_assoc]
  rfl

/-- A condition that is opened is one more child of the root. -/
theorem trace_opened (p : Pass) (b : Branch) (hb : b.children = []) (n : Nat) :
    ({ p.flush with current := some b, issued := n } : Pass).trace =
      p.trace ++ [(Path.root.child p.finished.length, b.node.features)] := by
  obtain ⟨k, l, cs⟩ := b
  obtain rfl : cs = [] := hb
  show (Node.walks .root 0 (p.finished ++ [_])).map _ = _
  rw [Node.walks_append, List.map_append, Nat.zero_add]
  rfl

end Pass

/-! ## 3. One row after another -/

/-- A path leads to a place below that of the row which holds the row at an index, or below the
    root where no row does. -/
structure Hangs (counted : List DetailRow) (paths : List Path) (i : Nat) (path : Path) : Prop where
  root : holder? counted i = none → path.parent? = some .root
  below : ∀ j, holder? counted i = some j → ∃ above, paths[j]? = some above ∧
    path.parent? = some above

/-- What is built agrees with the rows that became nodes so far, and so does what is open. -/
structure Pass.Built (p : Pass) (counted : List DetailRow) : Prop where
  features : p.trace.map (fun e => some e.2) = counted.map features?
  hangs : ∀ i path, (p.trace.map (·.1))[i]? = some path →
    Hangs counted (p.trace.map (·.1)) i path
  group : ∀ r ∈ counted, ∃ g, p.group = some g ∧ r.group ≤ g
  closed : ∀ g, p.group = some g → p.current = none → lastCondition? counted g = none
  opened : ∀ g b, p.group = some g → p.current = some b → ∃ c j,
    lastCondition? counted g = some (c, j) ∧ (b.kind = .regexCondition ↔ c.type = "regex") ∧
      (p.trace.map (·.1))[j]? = some (Path.root.child p.children.length)

namespace Pass

variable {p p' : Pass} {counted : List DetailRow} {k : LeafKind} {l : Label} {path : Path}
  {x : Kind × Attributes × Bool}

theorem Built.length_trace (h : p.Built counted) : p.trace.length = counted.length := by
  have hlen := congrArg List.length h.features
  rwa [List.length_map, List.length_map] at hlen

/-- At a row of a later group no condition of the group is open, nor was there one. -/
theorem Built.enter (h : p.Built counted) (hg : ∀ g, p.group = some g → g ≤ group) :
    (p.enter group).Built counted ∧ (p.enter group).group = some group := by
  by_cases hsame : p.group = some group
  · unfold Pass.enter
    rw [if_pos hsame]
    exact ⟨h, hsame⟩
  · have hnone : lastCondition? counted group = none := by
      refine lastCondition?_eq_none fun c hc hcg => hsame ?_
      obtain ⟨g, hpg, hle⟩ := h.group c hc
      rw [hpg, le_antisymm (hg g hpg) (hcg ▸ hle)]
    have htrace := p.trace_enter group
    unfold Pass.enter at htrace ⊢
    rw [if_neg hsame] at htrace ⊢
    refine ⟨⟨htrace ▸ h.features, htrace ▸ h.hangs, fun r hr => ?_, fun g hgg _ => ?_,
      fun _ _ _ hb => nomatch hb⟩, rfl⟩
    · obtain ⟨g, hpg, hle⟩ := h.group r hr
      exact ⟨group, rfl, hle.trans (hg g hpg)⟩
    · obtain rfl := Option.some.inj hgg
      exact hnone

/-- **One more node for one more row.** What is known of the rows so far stays, and the new node
    stands where its row belongs. -/
theorem Built.snoc (h : p.Built counted) (hg : p.group = some r.group)
    (ht : p'.trace = p.trace ++ [(path, x)]) (hx : r.features? = some x) (hg' : p'.group = p.group)
    (hpath : Hangs (counted ++ [r]) (p.trace.map (·.1)) counted.length path)
    (hclosed : p'.current = none → lastCondition? (counted ++ [r]) r.group = none)
    (hopened : ∀ b, p'.current = some b → ∃ c j,
      lastCondition? (counted ++ [r]) r.group = some (c, j) ∧
        (b.kind = .regexCondition ↔ c.type = "regex") ∧
        (p'.trace.map (·.1))[j]? = some (Path.root.child p'.children.length)) :
    p'.Built (counted ++ [r]) where
  features := by
    rw [ht, List.map_append, List.map_append, h.features, List.map_singleton, List.map_singleton,
      hx]
  hangs i q hq := by
    have hlen : (p.trace.map (·.1)).length = counted.length := by
      rw [List.length_map, h.length_trace]
    rw [ht, List.map_append, List.map_singleton] at hq ⊢
    -- places that were there keep their indices
    have hkeep : ∀ {j above}, (p.trace.map (·.1))[j]? = some above →
        (p.trace.map (·.1) ++ [path])[j]? = some above := fun hj =>
      (List.getElem?_append_left (List.getElem?_eq_some_iff.mp hj).1).trans hj
    rcases lt_trichotomy i counted.length with hi | rfl | hi
    · rw [List.getElem?_append_left (hlen ▸ hi)] at hq
      have hold := h.hangs i q hq
      refine ⟨fun hn => hold.root (holder?_of_lt hi ▸ hn), fun j hj => ?_⟩
      obtain ⟨above, habove, hparent⟩ := hold.below j (holder?_of_lt hi ▸ hj)
      exact ⟨above, hkeep habove, hparent⟩
    · rw [← hlen, List.getElem?_concat_length] at hq
      obtain rfl := Option.some.inj hq
      refine ⟨hpath.root, fun j hj => ?_⟩
      obtain ⟨above, habove, hparent⟩ := hpath.below j hj
      exact ⟨above, hkeep habove, hparent⟩
    · have hout := (List.getElem?_eq_some_iff.mp hq).1
      rw [List.length_append, List.length_singleton, hlen] at hout
      omega
  group r' hr' := by
    rw [hg', hg]
    rcases List.mem_append.mp hr' with hr' | hr'
    · obtain ⟨g, hpg, hle⟩ := h.group r' hr'
      rw [hg] at hpg
      exact ⟨_, hpg, hle⟩
    · rw [List.mem_singleton.mp hr']
      exact ⟨_, rfl, le_refl _⟩
  closed g hgg := by
    rw [hg', hg] at hgg
    obtain rfl := Option.some.inj hgg
    exact hclosed
  opened g b hgg := by
    rw [hg', hg] at hgg
    obtain rfl := Option.some.inj hgg
    exact hopened b

/-- A row that opens a condition. -/
theorem Built.condition (h : p.Built counted) (hg : p.group = some r.group)
    (htag : r.tag = "condition") {kind : BranchKind} (hrole : r.role? = some (.condition kind))
    (hkind : kind = .regexCondition ↔ r.type = "regex") (id : NodeId) (n : Nat) :
    ({ p.flush with current := some ⟨kind, r.label (.condition kind) id, []⟩, issued := n } :
      Pass).Built (counted ++ [r]) := by
  have ht := p.trace_opened ⟨kind, r.label (.condition kind) id, []⟩ rfl n
  have hlast : lastCondition? (counted ++ [r]) r.group = some (r, counted.length) := by
    rw [lastCondition?_concat, if_pos ⟨htag, rfl⟩]
  refine h.snoc hg ht (by rw [features?, hrole]; rfl) rfl ⟨fun _ => Path.parent?_child _ _, ?_⟩
    (fun hc => nomatch hc) fun b hb => ⟨r, counted.length, hlast, ?_, ?_⟩
  · rw [holder?_concat, if_pos htag]
    exact fun j hj => nomatch hj
  · obtain rfl := Option.some.inj hb
    exact hkind
  · rw [ht, List.map_append, List.map_singleton]
    refine (List.getElem?_append_right ?_).trans ?_
    · rw [List.length_map, h.length_trace]
    · rw [List.length_map, h.length_trace, Nat.sub_self]
      rfl

/-- A row that is no condition goes into the open one, or below the root. -/
theorem Built.addLeaf (h : p.Built counted) (hg : p.group = some r.group)
    (htag : r.tag ≠ "condition") (hx : r.features? = some (Node.leaf k l).features) :
    (p.addLeaf (.leaf k l)).Built (counted ++ [r]) := by
  have hlast : lastCondition? (counted ++ [r]) r.group = lastCondition? counted r.group := by
    rw [lastCondition?_concat, if_neg fun e => htag e.1]
  have hholder : holder? (counted ++ [r]) counted.length =
      (lastCondition? counted r.group).map (·.2) := by
    rw [holder?_concat, if_neg htag]
  cases hc : p.current with
  | none =>
    have hnone := h.closed _ hg hc
    have hstays : (p.addLeaf (.leaf k l)).current = none := by
      unfold Pass.addLeaf
      rw [hc]
    refine h.snoc hg (trace_addLeaf_root hc) hx ?_ ⟨fun _ => Path.parent?_child _ _, ?_⟩
      (fun _ => hlast.trans hnone) fun b hb => ?_
    · unfold Pass.addLeaf
      rw [hc]
    · rw [hholder, hnone]
      exact fun j hj => nomatch hj
    · rw [hstays] at hb
      cases hb
  | some b =>
    obtain ⟨c, j, hcj, hkind, hat⟩ := h.opened _ _ hg hc
    have hstays : (p.addLeaf (.leaf k l)).current =
        some { b with children := b.children ++ [.leaf k l] } := by
      unfold Pass.addLeaf
      rw [hc]
    refine h.snoc hg (trace_addLeaf_branch hc) hx ?_ ⟨fun hn => ?_, fun i hi => ?_⟩ (fun hn => ?_)
      fun b' hb' => ⟨c, j, hlast.trans hcj, ?_, ?_⟩
    · unfold Pass.addLeaf
      rw [hc]
    · rw [hholder, hcj] at hn
      cases hn
    · rw [hholder, hcj] at hi
      obtain rfl : j = i := Option.some.inj hi
      exact ⟨_, hat, Path.parent?_child _ _⟩
    · rw [hstays] at hn
      cases hn
    · rw [hstays] at hb'
      obtain rfl := Option.some.inj hb'
      exact hkind
    · have hchildren : (p.addLeaf (.leaf k l)).children = p.children := by
        unfold Pass.addLeaf
        rw [hc]
      rw [trace_addLeaf_branch hc, hchildren, List.map_append]
      exact (List.getElem?_append_left (List.getElem?_eq_some_iff.mp hat).1).trans hat

/-- **One row**, of a group that is not before that of the last one. -/
theorem Built.step (h : p.Built counted) (hg : ∀ g, p.group = some g → g ≤ r.group) :
    (p.step r).Built (if countsBehind counted r then counted ++ [r] else counted) ∧
      (p.step r).group = some r.group := by
  obtain ⟨he, hgroup⟩ := h.enter hg
  have hleaf : ∀ n, ((p.enter r.group).addLeaf n).group = some r.group := by
    intro n
    unfold Pass.addLeaf
    split <;> exact hgroup
  unfold Pass.step
  rcases role?_cases r with ⟨htag, hrole⟩ | ⟨htag, hrole⟩ | ⟨k, -, htag, hrole⟩ | ⟨htag, hrole⟩
  · rw [hrole, if_pos (countsBehind_node (.inl htag))]
    refine ⟨he.condition hgroup htag hrole ?_ _ _, hgroup⟩
    by_cases hr : r.type = "regex" <;> simp [hr]
  · rw [hrole, countsBehind_regex htag]
    have htakes : (p.enter r.group).takesRegex =
        (lastCondition? counted r.group).any fun e => e.1.type = "regex" := by
      unfold Pass.takesRegex
      cases hc : (p.enter r.group).current with
      | none =>
        rw [he.closed _ hgroup hc]
        rfl
      | some b =>
        obtain ⟨c, j, hcj, hkind, -⟩ := he.opened _ _ hgroup hc
        rw [hcj]
        exact decide_eq_decide.mpr hkind
    dsimp only
    rw [htakes]
    split
    · exact ⟨he.addLeaf hgroup (htag ▸ by decide) (by rw [features?, hrole]; rfl), hleaf _⟩
    · exact ⟨he, hgroup⟩
  · have hcondition : r.tag ≠ "condition" := by
      rcases htag with h | h <;> rw [h] <;> decide
    rw [hrole, if_pos (countsBehind_node (.inr htag))]
    exact ⟨he.addLeaf hgroup hcondition (by rw [features?, hrole]; rfl), hleaf _⟩
  · rw [hrole, countsBehind_other htag]
    exact ⟨he, hgroup⟩

/-- Nothing is built of no rows. -/
theorem Built.start : (Pass.mk [] none none 1).Built [] where
  features := rfl
  hangs _ _ h := nomatch h
  group _ h := nomatch h
  closed _ h := nomatch h
  opened _ _ h := nomatch h

/-- **All rows**, in the order of their groups. -/
theorem Built.foldl {rows : List DetailRow} (h : rows.Pairwise fun a b => a.group ≤ b.group) :
    (rows.foldl Pass.step ⟨[], none, none, 1⟩).Built (counting rows) ∧
      ∀ g, (rows.foldl Pass.step ⟨[], none, none, 1⟩).group = some g → ∃ r ∈ rows, r.group = g := by
  induction rows using List.reverseRecOn with
  | nil => exact ⟨.start, fun g hg => nomatch hg⟩
  | append_singleton rows r ih =>
    obtain ⟨hrows, -, hlast⟩ := List.pairwise_append.mp h
    obtain ⟨hbuilt, hgroup⟩ := ih hrows
    have hg : ∀ g, (rows.foldl Pass.step ⟨[], none, none, 1⟩).group = some g → g ≤ r.group := by
      intro g hg
      obtain ⟨a, ha, rfl⟩ := hgroup g hg
      exact hlast a ha r (List.mem_singleton_self r)
    obtain ⟨hstep, hsame⟩ := hbuilt.step hg
    rw [List.foldl_concat, counting_concat, ← countsBehind_counting]
    refine ⟨hstep, fun g hgg => ⟨r, List.mem_append_right _ (List.mem_singleton_self r), ?_⟩⟩
    exact Option.some.inj (hsame.symm.trans hgg)

end Pass

end DetailRow

/-! ## 4. The tree -/

namespace Tree

open DetailRow

/-- **The tree of rows has one node for each row that becomes one, in their order**: the walk
    through it comes to what these rows say, each below the place of the row that holds it, or below
    the root where none does. -/
theorem ofRows_built (a : Attributes) (rows : List DetailRow) :
    let s := counting (sorted rows)
    let places := (Tree.ofRows a rows).descendants
    Arranges (sorted rows) rows ∧
      places.map (fun e => some e.2.features) = s.map features? ∧
      ∀ i path n, places[i]? = some (path, n) →
        (holder? s i = none → path.parent? = some .root) ∧
        ∀ j, holder? s i = some j → ∃ above m, places[j]? = some (above, m) ∧
          path.parent? = some above := by
  intro s places
  have hsorted := arranges_sorted rows
  have hgroups : (sorted rows).Pairwise fun a b => a.group ≤ b.group :=
    hsorted.ordered.imp fun h => (before_iff.mp h).elim le_of_lt fun h => h.1.le
  have hbuilt := (Pass.Built.foldl hgroups).1
  refine ⟨hsorted, ?_, fun i path n hi => ?_⟩
  · have h := hbuilt.features
    unfold Pass.trace at h
    rwa [List.map_map] at h
  · have hpaths : ∀ {j : Nat}, (((sorted rows).foldl Pass.step ⟨[], none, none, 1⟩).trace.map
        (·.1))[j]? = places[j]?.map (·.1) := by
      intro j
      unfold Pass.trace
      rw [List.map_map, List.getElem?_map]
      rfl
    have h := hbuilt.hangs i path (by rw [hpaths, hi]; rfl)
    refine ⟨h.root, fun j hj => ?_⟩
    obtain ⟨above, habove, hparent⟩ := h.below j hj
    rw [hpaths] at habove
    obtain ⟨⟨_, m⟩, hm, rfl⟩ := Option.map_eq_some_iff.mp habove
    exact ⟨_, m, hm, hparent⟩

end Tree

end Dialplan
