import Dialplan.Proofs.Reading
import Dialplan.Proofs.Spans
import Mathlib
/-!
# Texts that stop too early

A text that can be read, cut off between two of its tokens, is told to stop too early and nothing
else. The tokens up to the cut are taken as before, so the only check that could come first is the
one that is made where a start tag ends; and that one passes, for whether an element may stand
somewhere is settled by its name.

* `kindAt_of_name`: a start tag may stand where another with its name may;
* `State.Settled`: the start tag that is being read may stand where it is;
* `Took.settled`: if that is so after a step, it was so before;
* `cutOffset`: the offset right behind a token, or in front of the first;
* `read_of_cut`: **what is left of a text that was read stops too early**.
-/

namespace Dialplan.Markup

open Dialplan.Text

/-! ## 1. Start tags by their names -/

/-- A condition of regexes may stand where an ordinary one may. -/
theorem accepts_regexCondition (k : Kind) : k.accepts .regexCondition = k.accepts .condition := by
  cases k <;> rfl

/-- **Whether a start tag may stand somewhere is settled by its name.** -/
theorem kindAt_of_name {outer : List Element} {tag tag' : StartTag} {kind : Kind}
    (h : kindAt outer tag' = .ok kind) (hname : tag.name = tag'.name) :
    ∃ k, kindAt outer tag = .ok k := by
  cases outer with
  | nil =>
    obtain ⟨hext, -⟩ := kindAt_nil_eq_ok.mp h
    exact ⟨_, kindAt_nil_eq_ok.mpr ⟨hname.trans hext, rfl⟩⟩
  | cons parent rest =>
    simp only [kindAt_cons_eq_ok] at h ⊢
    rw [hname]
    obtain ⟨hk, ha⟩ := h
    by_cases hc : tag'.name = "condition"
    · -- with a `regex` or without, the kind is one of two that are accepted together
      have hcondition : parent.kind.accepts .condition = true := by
        rw [hc] at hk
        split at hk
        · cases hk
          exact accepts_regexCondition _ ▸ ha
        · cases hk
          exact ha
      rw [hc]
      split
      · exact ⟨_, rfl, accepts_regexCondition _ ▸ hcondition⟩
      · exact ⟨_, rfl, hcondition⟩
    · simp only [hc, decide_false, Bool.false_and, Bool.false_eq_true, if_false] at hk ⊢
      exact ⟨kind, hk, ha⟩

/-! ## 2. States on the way to a tree -/

/-- **The start tag that is being read may stand where it is.** -/
def State.Settled (s : State) : Prop :=
  match s.phase with
  | .inTag tag | .equals tag _ _ | .value tag _ _ => ∃ kind, kindAt s.outer tag = .ok kind
  | _ => True

/-- If it is so after a step, it was so before: a start tag that is closed was found in its place,
    and one that goes on has the same name. -/
theorem Took.settled {lt : Located Token} {s s' : State} (h : Took lt s s') (hs : s'.Settled) :
    s.Settled := by
  cases h with
  | close hk => exact ⟨_, hk⟩
  | selfClose hk => exact ⟨_, hk⟩
  | key => exact hs
  | equals => exact hs
  | value hv ht =>
    obtain ⟨kind, hk⟩ := hs
    exact kindAt_of_name hk (attribute_keeps ht).2.symm
  | _ => trivial

/-- Tokens that lead to a settled state start from one. -/
theorem settled_of_foldlM : ∀ {lts : List (Located Token)} {s s' : State},
    lts.foldlM step s = .ok s' → s'.Settled → s.Settled
  | [], _, _, h, hs => by
      cases h
      exact hs
  | lt :: lts, s, s', h, hs => by
      obtain ⟨s1, ht, h⟩ := foldlM_cons_ok h
      exact ht.settled (settled_of_foldlM h hs)

/-- **In a settled state that waits for a token the end of the text is too early.** -/
theorem finish_of_settled {s s' : State} {lt : Located Token} (hs : s.Settled) (ht : Took lt s s')
    (len : Nat) : ∃ expected, s.finish len = .error (.unexpectedEnd len expected) := by
  cases ht with
  | close hk =>
    unfold State.finish
    simp only [hk]
    exact ⟨_, rfl⟩
  | selfClose hk =>
    unfold State.finish
    simp only [hk]
    exact ⟨_, rfl⟩
  | key =>
    obtain ⟨kind, hk⟩ := hs
    unfold State.finish
    simp only at hk
    simp only [hk]
    exact ⟨_, rfl⟩
  | _ => exact ⟨_, rfl⟩

/-! ## 3. Cuts -/

/-- The offset of a cut between some tokens and the next one: right behind the last of them, or in
    front of the next where there is none before it. -/
def cutOffset (done : List (Located Token)) (lt : Located Token) : Nat :=
  match done.getLast? with
  | some last => last.stop
  | none => lt.start

section

variable {text before after : String} {done more : List (Located Token)} {lt : Located Token}

/-- A text can be cut there, and what is left has the tokens in front of the cut. -/
theorem exists_cut (hscan : scan text = .ok (done ++ lt :: more)) :
    ∃ front behind : List Char, text.toList = front ++ behind ∧ width front = cutOffset done lt ∧
      scanFrom 0 front = .ok done := by
  rcases List.eq_nil_or_concat done with rfl | ⟨done, last, rfl⟩
  · obtain ⟨front, taken, behind, htext, hstart, -, hfront, -⟩ := scanFrom_cut hscan
    refine ⟨front, taken ++ behind, htext, ?_, hfront⟩
    rw [Nat.zero_add] at hstart
    exact hstart.symm
  · rw [List.concat_eq_append, List.append_assoc] at hscan
    obtain ⟨front, taken, behind, htext, hstart, hstop, -, hfront⟩ := scanFrom_cut hscan
    refine ⟨front ++ taken, behind, by rw [htext, List.append_assoc], ?_, ?_⟩
    · unfold cutOffset
      rw [List.concat_eq_append, List.getLast?_concat]
      show _ = last.stop
      rw [hstop, hstart, width_append, Nat.zero_add]
    · rw [List.concat_eq_append]
      exact hfront

/-- There is one way to cut there. -/
theorem scan_of_cut (hscan : scan text = .ok (done ++ lt :: more)) (htext : text = before ++ after)
    (hcut : before.utf8ByteSize = cutOffset done lt) : scan before = .ok done := by
  obtain ⟨front, behind, hsplit, hwidth, hfront⟩ := exists_cut hscan
  have hbefore : before.toList = front := by
    refine eq_of_width_eq (b := after.toList) (d := behind) ?_ ?_
    · rw [← hsplit, htext, String.toList_append]
    · rw [width_toList, hcut, hwidth]
  unfold scan
  rw [hbefore]
  exact hfront

/-! ## 4. Whole texts -/

/-- **Fewer tokens than those of a text that was read stop too early.** -/
theorem read_of_scan {t : Tree} (h : read text = .ok t)
    (hscan : scan text = .ok (done ++ lt :: more)) (hbefore : scan before = .ok done) :
    ∃ expected, read before = .error (.unexpectedEnd before.utf8ByteSize expected) := by
  obtain ⟨lts, outer, hscan', hfold⟩ := finished_of_read h
  obtain rfl := Except.ok.inj (hscan'.symm.trans hscan)
  obtain ⟨s, hdone, hmore⟩ := foldlM_append_ok hfold
  have hsettled : s.Settled := settled_of_foldlM hmore trivial
  obtain ⟨s', ht, -⟩ := foldlM_cons_ok hmore
  obtain ⟨expected, hfinish⟩ := finish_of_settled hsettled ht before.utf8ByteSize
  refine ⟨expected, ?_⟩
  unfold read ofTokens
  rw [hbefore]
  simp only [hdone]
  rw [width_toList, hfinish]

/-- **What is left of a text that was read stops too early**: it can be cut between any two of its
    tokens and in front of the first, and cut there, or anywhere else with the same tokens left, it
    ends where it should go on. -/
theorem read_of_cut {t : Tree} (h : read text = .ok t)
    (hscan : scan text = .ok (done ++ lt :: more)) :
    (∃ before after : String, text = before ++ after ∧
      before.utf8ByteSize = cutOffset done lt) ∧
    ∀ before after : String, text = before ++ after →
      before.utf8ByteSize = cutOffset done lt ∨ scan before = .ok done →
      ∃ expected, read before = .error (.unexpectedEnd before.utf8ByteSize expected) := by
  constructor
  · obtain ⟨front, behind, hsplit, hwidth, -⟩ := exists_cut hscan
    refine ⟨String.ofList front, String.ofList behind, ?_, ?_⟩
    · rw [← String.ofList_append, ← hsplit, String.ofList_toList]
    · rw [← width_toList, String.toList_ofList, hwidth]
  · rintro before after htext (hcut | hbefore)
    · exact read_of_scan h hscan (scan_of_cut hscan htext hcut)
    · exact read_of_scan h hscan hbefore

/-- A condition of regexes, which is an ordinary one up to its mode. -/
def modeText : String := "<extension><condition regex=\"any\"/></extension>"

/-- Cut off behind the name of the condition. -/
theorem read_of_cut_modeText : ∃ t done lt more, read modeText = .ok t ∧
    scan modeText = .ok (done ++ lt :: more) ∧ lt.value = .name "regex" ∧
    cutOffset done lt = 21 ∧
    ∃ expected, read "<extension><condition" = .error (.unexpectedEnd 21 expected) := by
  have hread : read modeText = .ok ⟨⟨.extension, ⟨⟨1⟩, .empty, true⟩,
      [.branch .regexCondition ⟨⟨2⟩, ⟨[("regex", "any")]⟩, true⟩ []]⟩, 2⟩ := by
    unfold modeText
    cbv
  have hscan : scan modeText = .ok (
      [⟨.openTag, 0, 1⟩, ⟨.name "extension", 1, 10⟩, ⟨.close, 10, 11⟩, ⟨.openTag, 11, 12⟩,
        ⟨.name "condition", 12, 21⟩] ++
      ⟨.name "regex", 22, 27⟩ ::
      [⟨.equals, 27, 28⟩, ⟨.value "any", 28, 33⟩, ⟨.selfClose, 33, 35⟩, ⟨.openEnd, 35, 37⟩,
        ⟨.name "extension", 37, 46⟩, ⟨.close, 46, 47⟩]) := by
    unfold modeText
    cbv
  exact ⟨_, _, _, _, hread, hscan, rfl, rfl,
    (read_of_cut hread hscan).2 "<extension><condition" " regex=\"any\"/></extension>" rfl (.inl rfl)⟩

end

end Dialplan.Markup
