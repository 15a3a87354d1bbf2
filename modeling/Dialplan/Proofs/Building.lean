import Dialplan.Proofs.Grammar
import Dialplan.Proofs.Printing
/-!
# What the tokens of a rule set build

The tokens that a printed tree divides into, as those of an element that denotes the tree.

* `tagOf`, `formOf`: the start tag and the element that a node is printed as;
* `denotes_formOf`: the element of a node denotes the node, mended and numbered anew;
* `read_print`: **what is printed is read as the tree**, mended and numbered anew.
-/

namespace Dialplan.Markup

open Dialplan.Text
open Dialplan.Node (mend)

/-! ## 1. Start tags -/

/-- The start tag that a node is printed with. -/
def tagOf (kind : Kind) (l : Label) : Tag :=
  ⟨kind.tag, (said kind l).map fun p => (p.1, escape p.2)⟩

theorem tokens_tagOf (kind : Kind) (l : Label) : (tagOf kind l).tokens = startTokens kind l := by
  unfold Tag.tokens tagOf startTokens
  rw [List.flatMap_map]
  rfl

theorem meaning_escape (v : String) : meaning (escape v) = v :=
  meaning_of_decode (decode_escape v 0)

theorem decoded_tagOf (kind : Kind) (l : Label) : (tagOf kind l).decoded = said kind l := by
  unfold Tag.decoded tagOf
  rw [List.map_map]
  refine List.map_id'' (fun p => ?_) _
  exact congrArg (Prod.mk p.1) (meaning_escape p.2)

section Tags

variable {kind : Kind} {l : Label} (hf : kind.Fits l.attributes)
include hf

/-- No attribute is taken for the flag. -/
theorem key_ne_enabled {p : String × String} (hp : p ∈ (mend kind l).attributes.pairs) :
    p.1 ≠ "enabled" := by
  intro he
  refine (Node.shows_mend hf).1.1.noFlag (Attributes.mem_keys.mpr ⟨p.2, ?_⟩)
  rw [← he]
  exact hp

theorem attributes_tagOf : (tagOf kind l).attributes = (mend kind l).attributes := by
  have hkeep : (mend kind l).attributes.pairs.filter (fun p => p.1 != "enabled") =
      (mend kind l).attributes.pairs :=
    List.filter_eq_self.mpr fun p hp => bne_iff_ne.mpr (key_ne_enabled hf hp)
  unfold Tag.attributes
  rw [decoded_tagOf]
  unfold said
  rw [List.filter_append, hkeep]
  cases l.enabled <;> exact congrArg Attributes.mk (List.append_nil _)

theorem enabled_tagOf : (tagOf kind l).enabled = l.enabled := by
  have hdrop : (mend kind l).attributes.pairs.filter (fun p => p.1 == "enabled") = [] :=
    List.filter_eq_nil_iff.mpr fun p hp => by
      rw [beq_iff_eq]
      exact key_ne_enabled hf hp
  unfold Tag.enabled
  rw [decoded_tagOf]
  unfold said
  rw [List.filter_append, hdrop]
  cases l.enabled <;> rfl

theorem label_tagOf (count : Nat) :
    (tagOf kind l).label count = { mend kind l with id := ⟨count + 1⟩ } := by
  unfold Tag.label
  rw [attributes_tagOf hf, enabled_tagOf hf]
  rfl

theorem legible_tagOf : (tagOf kind l).Legible where
  values p hp := by
    obtain ⟨q, -, rfl⟩ := List.mem_map.mp hp
    exact ⟨q.2, decode_escape q.2 0⟩
  flags p hp he := by
    rw [decoded_tagOf] at hp
    rcases List.mem_append.mp hp with hp | hp
    · exact absurd he (key_ne_enabled hf hp)
    · split at hp
      · exact absurd hp List.not_mem_nil
      · rw [List.mem_singleton.mp hp]
        exact .inr rfl
  distinct := by
    rw [attributes_tagOf hf]
    exact (Node.shows_mend hf).1.1.distinct

/-- Once a start tag says all that it has to, it means its kind. -/
theorem means_tagOf : (tagOf kind l).Means kind := by
  obtain ⟨hplain, hshown⟩ := Node.shows_mend hf
  have hname : (tagOf kind l).name = kind.tag := rfl
  unfold Tag.Means
  rw [attributes_tagOf hf, hname]
  by_cases hk : kind = .regexCondition
  · subst hk
    rw [if_pos ⟨rfl, hshown rfl⟩]
  · rw [if_neg]
    · rcases kind with k | k <;> cases k
      case branch.regexCondition => exact absurd rfl hk
      all_goals rfl
    · rintro ⟨ht, hr⟩
      rcases kind with k | k <;> cases k
      case branch.regexCondition => exact hk rfl
      case branch.condition => exact hplain.2 rfl hr
      all_goals exact absurd ht (by decide)

end Tags

/-! ## 2. Nodes -/

mutual

/-- The element that a node is printed as. -/
def formOf : Node → Form
  | .leaf k l => .empty (tagOf (.leaf k) l)
  | .branch k l [] => .empty (tagOf (.branch k) l)
  | .branch k l (n :: rest) => .paired (tagOf (.branch k) l) (formOf n :: formsOf rest)

/-- The elements that the nodes of a list are printed as. -/
def formsOf : List Node → List Form
  | [] => []
  | n :: rest => formOf n :: formsOf rest

end

mutual

theorem tokens_formOf : ∀ n : Node, (formOf n).tokens = nodeTokens n
  | .leaf k l => by
      unfold formOf nodeTokens Form.tokens
      rw [tokens_tagOf]
  | .branch k l [] => by
      unfold formOf nodeTokens Form.tokens
      rw [tokens_tagOf]
  | .branch k l (n :: rest) => by
      unfold formOf nodeTokens Form.tokens Form.tokensIn
      rw [tokens_tagOf, tokens_formOf n, tokensIn_formsOf rest, List.append_assoc]
      rfl

theorem tokensIn_formsOf : ∀ ns : List Node, Form.tokensIn (formsOf ns) = nodesTokens ns
  | [] => rfl
  | n :: rest => by
      unfold formsOf nodesTokens Form.tokensIn
      rw [tokens_formOf n, tokensIn_formsOf rest]

end

mutual

/-- **The element of a node denotes the node**, mended and with the next numbers. -/
theorem denotes_formOf : ∀ (n : Node) (parent : Kind) (count : Nat), n.Lawful Kind.Fits →
    parent.accepts n.kind = true →
      Denotes (some parent) count (formOf n) (n.mended.numbered count)
  | .leaf k l, parent, count, hn, hp => by
      have hf : Kind.Fits (.leaf k) l.attributes := Node.lawful_leaf.mp hn
      unfold formOf
      exact .element (legible_tagOf hf) ⟨means_tagOf hf, hp⟩ (label_tagOf hf count).symm .nil
  | .branch k l [], parent, count, hn, hp => by
      have hf : Kind.Fits (.branch k) l.attributes := (Node.lawful_branch.mp hn).1
      unfold formOf
      exact .element (legible_tagOf hf) ⟨means_tagOf hf, hp⟩ (label_tagOf hf count).symm .nil
  | .branch k l (n :: rest), parent, count, hn, hp => by
      obtain ⟨hf, h2, h3⟩ := Node.lawful_branch.mp hn
      have hb := denotes_formsOf (n :: rest) (.branch k) (count + 1) h3 h2
      unfold formOf
      unfold formsOf at hb
      exact .element (legible_tagOf hf) ⟨means_tagOf hf, hp⟩ (label_tagOf hf count).symm hb

theorem denotes_formsOf : ∀ (ns : List Node) (parent : Kind) (count : Nat),
    (∀ n ∈ ns, n.Lawful Kind.Fits) → (∀ n ∈ ns, parent.accepts n.kind = true) →
      DenotesAll parent count (formsOf ns) (Node.numberedIn count (Node.mendedIn ns))
  | [], _, _, _, _ => .nil
  | n :: rest, parent, count, hn, hp => by
      have hc := denotes_formOf n parent count (hn n List.mem_cons_self) (hp n List.mem_cons_self)
      have hr := denotes_formsOf rest parent (count + n.mended.size)
        (fun m hm => hn m (List.mem_cons_of_mem n hm))
        (fun m hm => hp m (List.mem_cons_of_mem n hm))
      refine .cons hc ?_
      rw [Node.size_numbered]
      exact hr

end

/-! ## 3. Trees -/

/-- The element that a tree is printed as: the root has an end tag also when it stands alone. -/
def treeForm (t : Tree) : Form := .paired (tagOf .extension t.root.label) (formsOf t.root.children)

theorem tokens_treeForm (t : Tree) : (treeForm t).tokens = treeTokens t := by
  unfold treeForm treeTokens Form.tokens
  rw [tokens_tagOf, tokensIn_formsOf]
  rfl

/-- **The element of a tree denotes the tree**, mended and numbered anew. -/
theorem denotes_treeForm {t : Tree} (ht : t.Lawful Kind.Fits) :
    Denotes none 0 (treeForm t) t.mended.renumbered.root.node := by
  obtain ⟨⟨kind, label, children⟩, issued⟩ := t
  obtain ⟨hk, hl⟩ := ht
  obtain rfl : kind = .extension := hk
  obtain ⟨hf, h2, h3⟩ := Node.lawful_branch.mp hl
  exact .element (legible_tagOf hf) ⟨rfl, rfl⟩ (label_tagOf hf 0).symm
    (denotes_formsOf children .extension 1 h3 h2)

/-- **The tokens of a tree build the tree**, mended and numbered anew. -/
theorem ofTokens_treeTokens {t : Tree} (ht : t.Lawful Kind.Fits) (len : Nat)
    {lts : List (Located Token)} (hl : lts.map (·.value) = treeTokens t) :
    ofTokens len lts = .ok t.mended.renumbered := by
  have hissued : t.mended.renumbered.issued = t.mended.renumbered.size :=
    (Node.size_numbered 0 t.mended.root.node).symm
  exact ofTokens_of_denotes (denotes_treeForm ht) hissued len (hl.trans (tokens_treeForm t).symm)

/-- **What is printed is read as the tree**, mended and with the numbers of its order, and so it is
    when layout follows. -/
theorem read_print_append {indent : String} (hi : Layout indent.toList) {t : Tree}
    (ht : t.Lawful Kind.Fits) (tail : String) (hl : Layout tail.toList) :
    read (print indent t ++ tail) = .ok t.mended.renumbered := by
  have htail : Lexes tail.toList [] := by
    have h := lexes_layout tail.toList hl .nil
    rwa [List.append_nil] at h
  obtain ⟨lts, hscan, hlts⟩ := (lexes_printChars_append hi ht htail).scanFrom 0
  rw [List.append_nil] at hlts
  unfold read scan print
  rw [String.toList_append, String.toList_ofList, hscan]
  exact ofTokens_treeTokens ht _ hlts

theorem read_print {indent : String} (hi : Layout indent.toList) {t : Tree}
    (ht : t.Lawful Kind.Fits) : read (print indent t) = .ok t.mended.renumbered := by
  have h := read_print_append hi ht "" fun c hc => absurd hc List.not_mem_nil
  rwa [String.append_empty] at h

end Dialplan.Markup
