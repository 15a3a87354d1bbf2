import Dialplan.DetailRow
import Dialplan.Markup.Printing
import Mathlib
/-!
# The order in which rows count

Rows count in the order of their groups and places, and rows of one place in the order in which they
come.

* `Arranges`: the rows in this order; `arranges_sorted`: the sorted rows are; `Arranges.unique`:
  there is no other such list;
* `Rearranged`: the same rows in another order, those of one place as they were;
  `sorted_eq_iff`: **exactly such lists are sorted alike**;
* `Tree.ofRows_rearranged`: so their trees are the same.
-/

namespace Dialplan

namespace DetailRow

/-! ## 1. Places -/

/-- Whether two rows have one group and one place in it. -/
def beside (a b : DetailRow) : Bool := a.group = b.group && a.order = b.order

variable {a b c r : DetailRow} {rows rows' s s' : List DetailRow}

theorem before_iff :
    a.before b = true ↔ a.group < b.group ∨ a.group = b.group ∧ a.order ≤ b.order := by
  unfold before
  simp only [Bool.or_eq_true, Bool.and_eq_true, decide_eq_true_eq]

theorem beside_iff : a.beside b = true ↔ a.group = b.group ∧ a.order = b.order := by
  unfold beside
  simp only [Bool.and_eq_true, decide_eq_true_eq]

theorem before_trans (a b c : DetailRow) (hab : a.before b = true) (hbc : b.before c = true) :
    a.before c = true := by
  rw [before_iff] at hab hbc ⊢
  omega

theorem before_total (a b : DetailRow) : (a.before b || b.before a) = true := by
  rw [Bool.or_eq_true, before_iff, before_iff]
  omega

/-- Rows of which each comes no later than the other are of one place. -/
theorem beside_of_before (hab : a.before b = true) (hba : b.before a = true) :
    a.beside b = true := by
  rw [before_iff] at hab hba
  rw [beside_iff]
  omega

/-! ## 2. Rows in order -/

/-- The first rows are the second ones in the order of groups and places, those of one place in the
    order in which they come. -/
structure Arranges (s rows : List DetailRow) : Prop where
  perm : s.Perm rows
  ordered : s.Pairwise fun a b => a.before b = true
  stable : ∀ r ∈ rows, s.filter r.beside = rows.filter r.beside

/-- The second rows are the first ones in another order, those of one place as they were. -/
structure Rearranged (rows rows' : List DetailRow) : Prop where
  perm : rows.Perm rows'
  keeps : ∀ r ∈ rows, rows.filter r.beside = rows'.filter r.beside

theorem arranges_sorted (rows : List DetailRow) : Arranges (sorted rows) rows where
  perm := List.mergeSort_perm rows before
  ordered := List.pairwise_mergeSort before_trans before_total rows
  stable r hr := by
    have hperm := (List.mergeSort_perm rows before).filter r.beside
    -- the rows of one place are in order as they stand, so sorting leaves them so
    have hordered : (rows.filter r.beside).Pairwise fun a b => a.before b = true := by
      refine List.pairwise_of_forall_mem_list fun a ha b hb => ?_
      have hab := beside_iff.mp (List.mem_filter.mp ha).2
      have hbb := beside_iff.mp (List.mem_filter.mp hb).2
      exact before_iff.mpr (.inr ⟨hab.1.symm.trans hbb.1, (hab.2.symm.trans hbb.2).le⟩)
    have hsub := (List.sublist_mergeSort before_trans before_total hordered
      List.filter_sublist).filter r.beside
    simp only [List.filter_filter, Bool.and_self] at hsub
    exact (hsub.eq_of_length hperm.length_eq.symm).symm

/-- Rows in order that are the same, and of each place in the same order, are in the same order. -/
theorem eq_of_ordered (hs : s.Pairwise fun a b => a.before b = true)
    (hs' : s'.Pairwise fun a b => a.before b = true) (h : Rearranged s s') : s = s' := by
  induction s generalizing s' with
  | nil => exact h.perm.nil_eq
  | cons a s ih =>
    cases s' with
    | nil => exact absurd h.perm.symm.nil_eq (List.cons_ne_nil a s).symm
    | cons b s' =>
      obtain ⟨hahead, htail⟩ := List.pairwise_cons.mp hs
      obtain ⟨hbhead, htail'⟩ := List.pairwise_cons.mp hs'
      have hfirst := h.keeps a List.mem_cons_self
      have haa : a.beside a = true := beside_iff.mpr ⟨rfl, rfl⟩
      -- each of the two first rows comes no later than the other, so they are of one place
      have hbeside : a.beside b = true := by
        rcases List.mem_cons.mp (h.perm.subset List.mem_cons_self) with rfl | ha
        · exact haa
        · rcases List.mem_cons.mp (h.perm.symm.subset List.mem_cons_self) with rfl | hb
          · exact haa
          · exact beside_of_before (hahead b hb) (hbhead a ha)
      rw [List.filter_cons_of_pos haa, List.filter_cons_of_pos hbeside] at hfirst
      obtain ⟨rfl, hrest⟩ := List.cons.inj hfirst
      refine congrArg (a :: ·) (ih htail htail' ⟨h.perm.cons_inv, fun r hr => ?_⟩)
      have hr' := h.keeps r (List.mem_cons_of_mem a hr)
      by_cases hra : r.beside a = true
      · rw [List.filter_cons_of_pos hra, List.filter_cons_of_pos hra] at hr'
        exact (List.cons.inj hr').2
      · rwa [List.filter_cons_of_neg hra, List.filter_cons_of_neg hra] at hr'

theorem Rearranged.symm (h : Rearranged rows rows') : Rearranged rows' rows where
  perm := h.perm.symm
  keeps r hr := (h.keeps r (h.perm.symm.subset hr)).symm

theorem Rearranged.trans {more : List DetailRow} (h : Rearranged rows rows')
    (h' : Rearranged rows' more) : Rearranged rows more where
  perm := h.perm.trans h'.perm
  keeps r hr := (h.keeps r hr).trans (h'.keeps r (h.perm.subset hr))

theorem Arranges.rearranged (h : Arranges s rows) : Rearranged s rows where
  perm := h.perm
  keeps r hr := h.stable r (h.perm.subset hr)

/-- **There is one list of the rows in the order in which they count.** -/
theorem Arranges.unique (h : Arranges s rows) (h' : Arranges s' rows) : s = s' :=
  eq_of_ordered h.ordered h'.ordered (h.rearranged.trans h'.rearranged.symm)

/-- **Rows are sorted alike exactly if they are the same in another order**, those of one place as
    they were. -/
theorem sorted_eq_iff : sorted rows = sorted rows' ↔ Rearranged rows rows' := by
  have h := (arranges_sorted rows).rearranged
  have h' := (arranges_sorted rows').rearranged
  constructor
  · intro he
    exact h.symm.trans (he ▸ h')
  · intro hr
    exact eq_of_ordered (arranges_sorted rows).ordered (arranges_sorted rows').ordered
      (h.trans (hr.trans h'.symm))

end DetailRow

namespace Tree

/-- **The tree of rows depends on no more than the order of the rows of one place**, its numbers
    included, and so does its text. -/
theorem ofRows_rearranged {rows rows' : List DetailRow} (h : DetailRow.Rearranged rows rows')
    (a : Attributes) :
    Tree.ofRows a rows = Tree.ofRows a rows' ∧
      ∀ indent, Markup.print indent (Tree.ofRows a rows) =
        Markup.print indent (Tree.ofRows a rows') := by
  have htree : Tree.ofRows a rows = Tree.ofRows a rows' := by
    unfold ofRows
    rw [DetailRow.sorted_eq_iff.mpr h]
  exact ⟨htree, fun indent => by rw [htree]⟩

/-- Rows of two groups; the last two are of one place. -/
def exportedRows : List DetailRow :=
  [⟨1, 10, "action", "hangup", "", "", "", true⟩,
    ⟨0, 5, "condition", "regex", "any", "", "", true⟩,
    ⟨0, 10, "regex", "caller_id_number", "^1", "", "", true⟩,
    ⟨0, 10, "action", "answer", "", "", "", false⟩]

/-- The same rows as another export might give them. -/
def shuffledRows : List DetailRow :=
  [⟨0, 10, "regex", "caller_id_number", "^1", "", "", true⟩,
    ⟨1, 10, "action", "hangup", "", "", "", true⟩,
    ⟨0, 10, "action", "answer", "", "", "", false⟩,
    ⟨0, 5, "condition", "regex", "any", "", "", true⟩]

theorem ofRows_rearranged_shuffledRows :
    DetailRow.Rearranged exportedRows shuffledRows ∧
      Tree.ofRows .empty exportedRows = Tree.ofRows .empty shuffledRows ∧
      ∀ indent, Markup.print indent (Tree.ofRows .empty exportedRows) =
        Markup.print indent (Tree.ofRows .empty shuffledRows) := by
  have h : DetailRow.Rearranged exportedRows shuffledRows := ⟨by decide, by decide⟩
  exact ⟨h, ofRows_rearranged h .empty⟩

end Tree

end Dialplan
