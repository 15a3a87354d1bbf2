import Dialplan.DetailRow
import Dialplan.Proofs.Node
/-!
# Rule sets from detail rows are lawful

The pass over the rows keeps one invariant (`Pass.Sound`): every finished child of the root, the
open condition among them, is lawful and may stand below an extension. Whatever the rows say, the
attributes of a row show the kind of its node, since keys are fixed and a condition of regexes
always gets its `regex`.
-/

namespace Dialplan

namespace DetailRow

/-! ## 1. The attributes of a row -/

/-- The kind of node that a role stands for. -/
def Role.kind : Role → Kind
  | .condition k => .branch k
  | .regex => .regex
  | .action k => .leaf k

theorem keys_given (key value : String) :
    (given key value).map (·.1) = [] ∨ (given key value).map (·.1) = [key] := by
  unfold given
  split
  · exact .inl rfl
  · exact .inr rfl

/-- Attributes with one of a few fixed lists of keys are writable. -/
theorem writable_of_keys {a : Attributes} {ks : List String} (h : a.keys = ks) (hd : ks.Nodup)
    (hv : ∀ k ∈ ks, Attributes.isValidKey k = true) (hf : "enabled" ∉ ks) : a.Writable :=
  ⟨h ▸ hd, h ▸ hv, h ▸ hf⟩

theorem keys_condition (r : DetailRow) :
    (r.attributes .regex).keys = ["field", "expression"] ∨
      (r.attributes .regex).keys = ["field", "expression", "break"] := by
  show ["field", "expression"] ++ (given "break" r.breakMode).map (·.1) = _ ∨
    ["field", "expression"] ++ (given "break" r.breakMode).map (·.1) = _
  exact (keys_given "break" r.breakMode).imp (fun h => by rw [h]; rfl) fun h => by rw [h]; rfl

theorem keys_regexCondition (r : DetailRow) :
    (r.attributes (.condition .regexCondition)).keys = ["regex"] ∨
      (r.attributes (.condition .regexCondition)).keys = ["regex", "break"] := by
  show ["regex"] ++ (given "break" r.breakMode).map (·.1) = _ ∨
    ["regex"] ++ (given "break" r.breakMode).map (·.1) = _
  exact (keys_given "break" r.breakMode).imp (fun h => by rw [h]; rfl) fun h => by rw [h]; rfl

theorem keys_action (r : DetailRow) (k : LeafKind) :
    (r.attributes (.action k)).keys ∈ [["application"], ["application", "data"],
      ["application", "inline"], ["application", "data", "inline"]] := by
  have h : (r.attributes (.action k)).keys = ["application"] ++ (given "data" r.data).map (·.1) ++
      (given "inline" r.inlineMode).map (·.1) := by
    unfold attributes Attributes.keys
    rw [List.map_append, List.map_append]
    rfl
  rw [h]
  rcases keys_given "data" r.data with hd | hd <;>
    rcases keys_given "inline" r.inlineMode with hi | hi <;> rw [hd, hi] <;> decide

/-- **The attributes of a row show the kind of its node.** -/
theorem shows_attributes (r : DetailRow) (role : Role) : role.kind.Shows (r.attributes role) := by
  have plain : (r.attributes .regex).Writable ∧ "regex" ∉ (r.attributes .regex).keys := by
    rcases keys_condition r with h | h <;>
      exact ⟨writable_of_keys h (by decide) (by decide) (by decide), by rw [h]; decide⟩
  cases role with
  | condition k =>
    cases k with
    | extension => exact ⟨⟨plain.1, fun e => nomatch e⟩, fun e => nomatch e⟩
    | condition => exact ⟨⟨plain.1, fun _ => plain.2⟩, fun e => nomatch e⟩
    | regexCondition =>
      rcases keys_regexCondition r with h | h <;>
        exact ⟨⟨writable_of_keys h (by decide) (by decide) (by decide), fun e => nomatch e⟩,
          fun _ => by
            show _ ∈ (r.attributes (.condition .regexCondition)).keys
            rw [h]
            decide⟩
  | regex => exact ⟨⟨plain.1, fun e => nomatch e⟩, fun e => nomatch e⟩
  | action k =>
    refine ⟨⟨?_, fun e => nomatch e⟩, fun e => nomatch e⟩
    have h := keys_action r k
    simp only [List.mem_cons, List.not_mem_nil, or_false] at h
    rcases h with h | h | h | h <;>
      exact writable_of_keys h (by decide) (by decide) (by decide)

/-- The tags that stand for nodes, and the role of each. -/
theorem role?_cases (r : DetailRow) :
    (r.tag = "condition" ∧ r.role? =
      some (.condition (if r.type = "regex" then .regexCondition else .condition))) ∨
    (r.tag = "regex" ∧ r.role? = some .regex) ∨
    (∃ k, k ≠ .regex ∧ (r.tag = "action" ∨ r.tag = "anti-action") ∧
      r.role? = some (.action k)) ∨
    (r.tag ∉ ["condition", "regex", "action", "anti-action"] ∧ r.role? = none) := by
  unfold role?
  split
  · rename_i h
    exact .inl ⟨h, rfl⟩
  · split
    · rename_i h
      exact .inr (.inl ⟨h, rfl⟩)
    · split
      · rename_i h
        exact .inr (.inr (.inl ⟨.action, by decide, .inl h, rfl⟩))
      · split
        · rename_i h
          exact .inr (.inr (.inl ⟨.antiAction, by decide, .inr h, rfl⟩))
        · exact .inr (.inr (.inr ⟨by simp [*], rfl⟩))

theorem role?_condition {r : DetailRow} {k : BranchKind} (h : r.role? = some (.condition k)) :
    k ≠ .extension := by
  rcases r.role?_cases with ⟨-, hr⟩ | ⟨-, hr⟩ | ⟨_, -, -, hr⟩ | ⟨-, hr⟩ <;> rw [hr] at h <;>
    cases h
  split <;> decide

theorem role?_action {r : DetailRow} {k : LeafKind} (h : r.role? = some (.action k)) :
    k ≠ .regex := by
  rcases r.role?_cases with ⟨-, hr⟩ | ⟨-, hr⟩ | ⟨_, hk, -, hr⟩ | ⟨-, hr⟩ <;> rw [hr] at h <;>
    cases h
  exact hk

/-! ## 2. The pass -/

/-- Every child of the root so far is lawful and may stand there. -/
def Pass.Sound (p : Pass) : Prop :=
  ∀ c ∈ p.finished, c.Lawful Kind.Shows ∧ BranchKind.extension.accepts c.kind = true

theorem Pass.finished_flush (p : Pass) : p.flush.finished = p.finished :=
  List.append_nil p.finished

theorem Pass.Sound.enter {p : Pass} (h : p.Sound) (group : Int) : (p.enter group).Sound := by
  unfold Pass.enter
  split
  · exact h
  · intro c hc
    exact h c (p.finished_flush ▸ hc)

/-- A lawful leaf that the open condition takes, or the root where none is open, keeps the pass
    sound. -/
theorem Pass.Sound.addLeaf {p : Pass} (h : p.Sound) {n : Node} (hn : n.Lawful Kind.Shows)
    (hb : ∀ b, p.current = some b → b.kind ≠ .extension → b.accepts n.kind = true)
    (hr : p.current = none → BranchKind.extension.accepts n.kind = true) :
    (p.addLeaf n).Sound := by
  unfold Pass.addLeaf
  intro c hc
  cases hcur : p.current with
  | none =>
    rw [hcur] at hc
    have hf : p.finished = p.children := by
      unfold Pass.finished
      rw [hcur]
      exact List.append_nil _
    rcases List.mem_append.mp hc with hc | hc
    · rcases List.mem_append.mp hc with hc | hc
      · exact h c (hf ▸ hc)
      · rw [List.mem_singleton.mp hc]
        exact ⟨hn, hr hcur⟩
    · exact absurd hc List.not_mem_nil
  | some b =>
    rw [hcur] at hc
    have hmem : b.node ∈ p.finished := by
      unfold Pass.finished
      rw [hcur]
      exact List.mem_append_right _ (List.mem_singleton_self _)
    obtain ⟨hl, ha⟩ := h b.node hmem
    have hk : b.kind ≠ .extension := fun e => by
      have hx : BranchKind.extension.accepts (.branch b.kind) = true := ha
      rw [e] at hx
      cases hx
    rcases List.mem_append.mp hc with hc | hc
    · exact h c (List.mem_append_left _ hc)
    · rw [List.mem_singleton.mp hc]
      refine ⟨?_, ha⟩
      obtain ⟨h1, h2, h3⟩ := Node.lawful_branch.mp hl
      refine Node.lawful_branch.mpr ⟨h1, fun x hx => ?_, fun x hx => ?_⟩
      · rcases List.mem_append.mp hx with hx | hx
        · exact h2 x hx
        · rw [List.mem_singleton.mp hx]
          exact hb b hcur hk
      · rcases List.mem_append.mp hx with hx | hx
        · exact h3 x hx
        · rw [List.mem_singleton.mp hx]
          exact hn

/-- **One row keeps the pass sound.** -/
theorem Pass.Sound.step {p : Pass} (h : p.Sound) (r : DetailRow) : (p.step r).Sound := by
  have he := h.enter r.group
  unfold Pass.step
  cases hrole : r.role? with
  | none => exact he
  | some role =>
    cases role with
    | condition k =>
      have hk := role?_condition hrole
      intro c hc
      rcases List.mem_append.mp hc with hc | hc
      · exact he c hc
      · rw [List.mem_singleton.mp hc]
        refine ⟨Node.lawful_branch.mpr ⟨r.shows_attributes (.condition k),
          fun _ hx => absurd hx List.not_mem_nil, fun _ hx => absurd hx List.not_mem_nil⟩, ?_⟩
        cases k with
        | extension => exact absurd rfl hk
        | condition => rfl
        | regexCondition => rfl
    | regex =>
      show Pass.Sound (if _ then _ else _)
      split
      · rename_i ht
        refine he.addLeaf (Node.lawful_leaf.mpr (r.shows_attributes .regex)) (fun b hb _ => ?_)
          fun hn => ?_
        · unfold Pass.takesRegex at ht
          rw [hb] at ht
          exact ht
        · unfold Pass.takesRegex at ht
          rw [hn] at ht
          cases ht
      · exact he
    | action k =>
      have hk := role?_action hrole
      refine he.addLeaf (Node.lawful_leaf.mpr (r.shows_attributes (.action k))) (fun b _ _ => ?_)
        fun _ => ?_
      · cases k with
        | regex => exact absurd rfl hk
        | action => rfl
        | antiAction => rfl
      · cases k with
        | regex => exact absurd rfl hk
        | action => rfl
        | antiAction => rfl

theorem Pass.Sound.foldl {p : Pass} (h : p.Sound) (rows : List DetailRow) :
    (rows.foldl Pass.step p).Sound := by
  induction rows generalizing p with
  | nil => exact h
  | cons r rows ih => exact ih (h.step r)

end DetailRow

/-- **The tree of rows is lawful**, whatever the rows, for an extension with a heading. -/
theorem Tree.lawful_ofRows {a : Attributes} (ha : a.Heading) (rows : List DetailRow) :
    (Tree.ofRows a rows).Lawful Kind.Shows := by
  have hp : (DetailRow.Pass.mk [] none none 1).Sound := fun _ hc => absurd hc List.not_mem_nil
  have h := hp.foldl (DetailRow.sorted rows)
  exact ⟨rfl, Node.lawful_branch.mpr ⟨⟨⟨ha.writable, fun e => nomatch e⟩, fun e => nomatch e⟩,
    fun c hc => (h c hc).2, fun c hc => (h c hc).1⟩⟩

end Dialplan
