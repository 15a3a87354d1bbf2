import Dialplan.Proofs.Numbers
import Dialplan.Proofs.RoundTrip
/-!
# Well-formed trees

What holds of every tree that the program comes by: the bare extension, a tree of stored rows or a
tree that was read, whatever edits are tried on it afterwards.

* `Tree.WellFormed`: one extension at the root, children where they may stand, every number once and
  given out, attributes that can be written and leave no doubt about the kind;
* `wellFormed_attempts`: all of it after every sequence of edits.
-/

namespace Dialplan

namespace Node

variable {fit : Kind → Attributes → Prop} {m : Node}

/-- No kind of node takes an extension. -/
theorem accepts_extension (k : Kind) : k.accepts .extension = false := by
  cases k <;> rfl

mutual

/-- Below a node that is no extension there is none, since none is accepted. -/
theorem Lawful.not_extension : ∀ {n : Node}, n.Lawful fit → n.kind ≠ .extension →
    m ∈ n.subtree → m.kind ≠ .extension
  | .leaf _ _, _, hk, hm => by
      rw [List.mem_singleton.mp hm]
      exact hk
  | .branch k l cs, h, hk, hm => by
      rcases List.mem_cons.mp hm with rfl | hm
      · exact hk
      · obtain ⟨-, ha, hc⟩ := lawful_branch.mp h
        exact Lawful.not_extension_in hc (k := .branch k) ha hm

/-- Nor is there one among nodes that some kind accepts, or below them. -/
theorem Lawful.not_extension_in : ∀ {ns : List Node}, (∀ n ∈ ns, n.Lawful fit) → ∀ {k : Kind},
    (∀ n ∈ ns, k.accepts n.kind = true) → m ∈ subtrees ns → m.kind ≠ .extension
  | [], _, _, _, hm => absurd hm List.not_mem_nil
  | n :: rest, h, k, ha, hm => by
      rcases List.mem_append.mp hm with hm | hm
      · have hn : n.kind ≠ .extension := by
          intro e
          have hx := ha n List.mem_cons_self
          rw [e, accepts_extension] at hx
          cases hx
        exact Lawful.not_extension (h n List.mem_cons_self) hn hm
      · refine Lawful.not_extension_in (k := k) ?_ ?_ hm
        · intro c hc
          exact h c (List.mem_cons_of_mem n hc)
        · intro c hc
          exact ha c (List.mem_cons_of_mem n hc)

end

end Node

namespace Tree

/-! ## 1. Well-formed trees -/

/-- **What holds of every tree that the program comes by.** -/
structure WellFormed (t : Tree) : Prop where
  root_kind : t.root.kind = .extension
  /-- No other node is an extension. -/
  one_extension : ∀ n ∈ Node.subtrees t.root.children, n.kind ≠ .extension
  accepted : ∀ n ∈ t.nodes, ∀ c ∈ n.children, n.kind.accepts c.kind = true
  distinct : (t.nodes.map Node.id).Nodup
  issued : ∀ n ∈ t.nodes, n.id.number ≤ t.issued
  /-- A new node, with what comes along in it, has numbers that no node has. -/
  fresh : ∀ k m t', t.create? k = some (m, t') → ∀ x ∈ m.subtree, ∀ n ∈ t.nodes, x.id ≠ n.id
  keys_distinct : ∀ n ∈ t.nodes, n.attributes.keys.Nodup
  keys_valid : ∀ n ∈ t.nodes, ∀ k ∈ n.attributes.keys, Attributes.isValidKey k = true
  no_flag : ∀ n ∈ t.nodes, "enabled" ∉ n.attributes.keys
  /-- With a `regex` it would be taken for a condition of regexes. -/
  plain_condition : ∀ n ∈ t.nodes, n.kind = .condition → "regex" ∉ n.attributes.keys

theorem WellFormed.of {t : Tree} (hl : t.Lawful Kind.Fits) (hn : t.Numbered) : t.WellFormed where
  root_kind := hl.1
  one_extension n hm := by
    obtain ⟨-, ha, hc⟩ := Node.lawful_branch.mp hl.2
    exact Node.Lawful.not_extension_in hc (k := .branch t.root.kind) ha hm
  accepted n hm := (hl.2 n hm).2
  distinct := hn.distinct
  issued n hm := hn.issued n.id (List.mem_map_of_mem hm)
  fresh k m t' hc x hx n hm := by
    have hi : x.id ∈ m.ids := List.mem_map_of_mem hx
    rw [(Edit.ids_create? hc).2] at hi
    intro e
    have hnot := hn.not_mem_of_mem_minted hi
    rw [e] at hnot
    exact hnot (List.mem_map_of_mem hm)
  keys_distinct n hm := (hl.2 n hm).1.1.distinct
  keys_valid n hm := (hl.2 n hm).1.1.valid
  no_flag n hm := (hl.2 n hm).1.1.noFlag
  plain_condition n hm := (hl.2 n hm).1.2

/-! ## 2. Where trees come from -/

/-- A tree to which no edit has been done yet. -/
inductive Origin : Tree → Prop
  | starting {t : Tree} (h : Markup.Starting t) : Origin t
  | read {text : String} {t : Tree} (h : Markup.read text = .ok t) : Origin t

theorem Origin.lawful {t : Tree} (h : t.Origin) : t.Lawful Kind.Fits := by
  cases h with
  | starting h => exact h.lawful.mono fun _ _ hs => hs.1
  | read h => exact Markup.lawful_of_read h

theorem Origin.inOrder {t : Tree} (h : t.Origin) : t.InOrder := by
  cases h with
  | starting h =>
    cases h with
    | bare => exact inOrder_bare
    | ofRows ha rows => exact inOrder_ofRows _ rows
  | read h => exact Markup.inOrder_of_read h

/-- **Whatever edits are tried, every tree is well-formed.** -/
theorem wellFormed_attempts {t : Tree} (h : t.Origin) (edits : List Edit) :
    (t.attempts edits).WellFormed :=
  .of (h.lawful.attempts Edit.stable_fits edits) (h.inOrder.numbered.attempts edits)

/-- A tree that was read, a node created in it, moved, and moved once more from where it no longer
    is. -/
theorem wellFormed_attempts_unshown : Markup.unshownTree.Origin ∧
    (Markup.unshownTree.attempts [.addChild ⟨1⟩ .regexCondition none,
      .moveNode ⟨3⟩ ⟨1⟩ 1 (.lastChild ⟨2⟩), .moveNode ⟨3⟩ ⟨1⟩ 1 (.index ⟨1⟩ 0)]).WellFormed :=
  ⟨.read Markup.read_unshownText, wellFormed_attempts (.read Markup.read_unshownText) _⟩

end Tree

end Dialplan
