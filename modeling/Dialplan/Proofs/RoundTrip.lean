import Dialplan.Proofs.Building
import Dialplan.Proofs.DetailRow
import Dialplan.Proofs.Edit
import Mathlib
/-!
# Printing and reading again

What is printed is read as an alike tree, from two sides: for the trees that edits lead to, and for
the trees that were read.

* `read_print_attempts`: whatever edits are tried on a new tree or on a tree of stored rows, the
  printed form of the result is read as an alike tree;
* `read_print_of_read`: the printed form of a tree that was read is always read again, and as an
  alike tree exactly when every condition of regexes in it has its `regex`.
-/

namespace Dialplan.Markup

/-! ## 1. Trees that edits lead to -/

/-- The trees that editing starts from: the bare extension, and the trees of stored rows. -/
inductive Starting : Tree → Prop
  | bare : Starting .bare
  | ofRows {a : Attributes} (ha : a.Heading) (rows : List DetailRow) : Starting (.ofRows a rows)

theorem Starting.lawful {t : Tree} (h : Starting t) : t.Lawful Kind.Shows := by
  cases h with
  | bare => exact Tree.lawful_bare Edit.stable_shows
  | ofRows ha rows => exact Tree.lawful_ofRows ha rows

/-- A tree that shows its kinds is read as it was, but for its numbers. -/
theorem read_print_of_shows {indent : String} (hi : Layout indent.toList) {t : Tree}
    (ht : t.Lawful Kind.Shows) : ∃ u, read (print indent t) = .ok u ∧ t.alike u = true := by
  refine ⟨_, read_print hi (ht.mono fun _ _ h => h.1), ?_⟩
  rw [Tree.alike_iff, Tree.wiped_renumbered]
  exact (Tree.wiped_mended_of_shown ht.shown).symm

/-- **Whatever edits are tried, printing loses nothing**: the printed form of the tree they lead to
    is read as an alike tree. -/
theorem read_print_attempts {t : Tree} (ht : Starting t) (edits : List Edit) {indent : String}
    (hi : Layout indent.toList) :
    ∃ u, read (print indent (t.attempts edits)) = .ok u ∧ (t.attempts edits).alike u = true :=
  read_print_of_shows hi (ht.lawful.attempts Edit.stable_shows edits)

/-- Two edits that are done and one that is refused, on the bare extension. -/
theorem read_print_attempts_bare : Layout "  ".toList ∧
    let edits : List Edit := [.addChild ⟨1⟩ .condition none, .setAttribute ⟨2⟩ "field" "a < \"b\"",
      .setAttribute ⟨2⟩ "regex" "any"]
    ∃ u, read (print "  " (Tree.bare.attempts edits)) = .ok u ∧
      (Tree.bare.attempts edits).alike u = true :=
  ⟨by decide, read_print_attempts .bare _ (by decide)⟩

/-! ## 2. Trees that were read -/

/-- **A tree that was read can be printed and read again**, and nothing but numbers has changed
    exactly when every condition of regexes in it has its `regex`. -/
theorem read_print_of_read {text : String} {t : Tree} (h : read text = .ok t) {indent : String}
    (hi : Layout indent.toList) :
    ∃ u, read (print indent t) = .ok u ∧ (t.alike u = true ↔ t.Shown) := by
  refine ⟨_, read_print hi (lawful_of_read h), ?_⟩
  rw [Tree.alike_iff, Tree.wiped_renumbered]
  exact t.alike_mended_iff

/-- A text that writes a condition of regexes by the kind's own text, and so without a `regex`. -/
def unshownText : String := "<extension><regex-condition/></extension>"

/-- The tree of `unshownText`. -/
def unshownTree : Tree :=
  ⟨⟨.extension, ⟨⟨1⟩, .empty, true⟩, [.branch .regexCondition ⟨⟨2⟩, .empty, true⟩ []]⟩, 2⟩

theorem read_unshownText : read unshownText = .ok unshownTree := by
  unfold unshownText unshownTree
  cbv

/-- The element `regex-condition` is read without its `regex` and written with one. -/
theorem read_print_of_read_unshown : Layout "\t".toList ∧ read unshownText = .ok unshownTree ∧
    ∃ u, read (print "\t" unshownTree) = .ok u ∧ (unshownTree.alike u = true ↔ unshownTree.Shown) :=
  ⟨by decide, read_unshownText,
    read_print_of_read read_unshownText (by decide)⟩

/-- **Some tree that was read changes** when it is printed and read again. -/
theorem exists_read_print_not_alike : ∃ t u, read unshownText = .ok t ∧
    read (print "\t" t) = .ok u ∧ t.alike u = false := by
  have hp : read (print "\t" unshownTree) = .ok unshownTree.mended.renumbered :=
    read_print (by decide) (lawful_of_read read_unshownText)
  exact ⟨unshownTree, _, read_unshownText, hp, rfl⟩

end Dialplan.Markup
