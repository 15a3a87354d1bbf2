import Dialplan.Applications
import Dialplan.Check
import Mathlib
/-!
# Two opinions on an application

Beside the input of an action stands whether its application is known, and the checks warn of one
that is not. Both look into one list of names, but the first passes over the case of the letters `A`
to `Z` alone and the second over that of all letters.

* `lowercase_asciiLower`: in the tables of letter case these letters count like their lowercase;
* `standing_agrees`: **the checks warn only of what the editor does not know**, and of all of it but
  what has the lowercase of a name in the list.
-/

namespace Dialplan

/-! ## 1. The tables in ASCII -/

namespace Text

theorem inRanges_filter {ranges : List (Nat × Nat)} {bound : Nat} {c : Char} (hc : c.toNat < bound) :
    inRanges (ranges.filter fun r => r.1 < bound) c = inRanges ranges c := by
  unfold inRanges
  rw [List.any_filter]
  congr 1
  funext ⟨first, last⟩
  by_cases h : first ≤ c.toNat
  · rw [decide_eq_true (Nat.lt_of_le_of_lt h hc), Bool.true_and]
  · dsimp only
    rw [decide_eq_false h, Bool.false_and, Bool.and_false]

theorem casedRanges_ascii : (casedRanges.filter fun r => r.1 < 128) = [(65, 90), (97, 122)] := rfl

theorem skippedRanges_ascii : (skippedRanges.filter fun r => r.1 < 128) =
    [(39, 39), (46, 46), (58, 58), (94, 94), (96, 96)] := by
  decide +kernel

theorem lowerRuns_ascii : (lowerRuns.filter fun r => r.first < 128) = [⟨65, 90, 1, 32⟩] := rfl

/-- In ASCII only the capitals are moved. -/
theorem lowerChar_ascii {c : Char} (hc : c.toNat < 128) : lowerChar c =
    if 65 ≤ c.toNat && c.toNat ≤ 90 then Char.ofNat (c.toNat + 32) else c := by
  have hfind : (lowerRuns.find? fun r =>
      r.first ≤ c.toNat && c.toNat ≤ r.last && (c.toNat - r.first) % r.step == 0) =
      [⟨65, 90, 1, 32⟩].find? fun r =>
        r.first ≤ c.toNat && c.toNat ≤ r.last && (c.toNat - r.first) % r.step == 0 := by
    rw [← lowerRuns_ascii, List.find?_filter]
    congr 1
    funext r
    by_cases h : r.first ≤ c.toNat
    · rw [decide_eq_true (Nat.lt_of_le_of_lt h hc)]
      simp only [true_and, Bool.decide_eq_true]
    · simp only [h, decide_false, Bool.false_and, Bool.false_eq_true, and_false]
  unfold lowerChar
  rw [hfind]
  simp only [List.find?_cons, List.find?_nil, Nat.mod_one, beq_self_eq_true, Bool.and_true]
  cases hcase : decide (65 ≤ c.toNat) && decide (c.toNat ≤ 90) with
  | true => rfl
  | false => rfl

/-! ## 2. Capitals -/

/-- Only the letters `A` to `Z` are mapped, each to the letter 32 places on. -/
theorem toLower_cases (c : Char) :
    c.toLower = c ∨ 65 ≤ c.toNat ∧ c.toNat ≤ 90 ∧ c.toLower.toNat = c.toNat + 32 := by
  by_cases h : c.val ≥ 'A'.val ∧ c.val ≤ 'Z'.val
  · have hlow := UInt32.le_iff_toNat_le.mp h.1
    have hhigh := UInt32.le_iff_toNat_le.mp h.2
    change 65 ≤ c.toNat at hlow
    change c.toNat ≤ 90 at hhigh
    have hval : c.toLower.toNat = (c.val + 32).toNat := by
      unfold Char.toLower
      rw [dif_pos h]
      rfl
    refine .inr ⟨hlow, hhigh, ?_⟩
    rw [hval, UInt32.toNat_add]
    exact Nat.mod_eq_of_lt (show c.toNat + 32 < 2 ^ 32 by omega)
  · exact .inl (dif_neg h)

/-- Two characters that count alike for lowercasing, and for what it looks at around a sigma. -/
structure Alike (c d : Char) : Prop where
  image : lowerChar c = lowerChar d
  cased : inRanges casedRanges c = inRanges casedRanges d
  skipped : inRanges skippedRanges c = inRanges skippedRanges d
  sigma : c = 'Σ' ↔ d = 'Σ'
  dotted : c = 'İ' ↔ d = 'İ'

/-- **A capital of ASCII counts like its lowercase.** -/
theorem alike_toLower (c : Char) : Alike c.toLower c := by
  rcases toLower_cases c with h | ⟨hlow, hhigh, h⟩
  · rw [h]
    exact ⟨rfl, rfl, rfl, Iff.rfl, Iff.rfl⟩
  · have hc : c.toNat < 128 := by omega
    have hl : c.toLower.toNat < 128 := by omega
    have hne {d : Char} (hd : 128 ≤ d.toNat) : c.toLower = d ↔ c = d := by
      refine iff_of_false ?_ ?_
      · rintro rfl
        omega
      · rintro rfl
        omega
    refine ⟨?_, ?_, ?_, hne (by decide), hne (by decide)⟩
    · rw [lowerChar_ascii hc, lowerChar_ascii hl, h, if_neg, if_pos, ← h, Char.ofNat_toNat]
      · rw [decide_eq_true hlow, decide_eq_true hhigh]
        rfl
      · rw [Bool.and_eq_true, decide_eq_true_eq, decide_eq_true_eq]
        omega
    · rw [← inRanges_filter hc, ← inRanges_filter hl, casedRanges_ascii]
      simp only [inRanges, List.any_cons, List.any_nil, h]
      grind
    · rw [← inRanges_filter hc, ← inRanges_filter hl, skippedRanges_ascii]
      simp only [inRanges, List.any_cons, List.any_nil, h]
      grind

theorem meetsCased_map (cs : List Char) : meetsCased (cs.map Char.toLower) = meetsCased cs := by
  have hskip : inRanges skippedRanges ∘ Char.toLower = inRanges skippedRanges :=
    funext fun c => (alike_toLower c).skipped
  unfold meetsCased
  rw [List.dropWhile_map, hskip]
  cases cs.dropWhile (inRanges skippedRanges) with
  | nil => rfl
  | cons c rest => exact (alike_toLower c).cased

theorem lowerChars_map (before cs : List Char) :
    lowerChars (before.map Char.toLower) (cs.map Char.toLower) = lowerChars before cs := by
  induction cs generalizing before with
  | nil => rfl
  | cons c rest ih =>
    have h := alike_toLower c
    simp only [List.map_cons, lowerChars]
    rw [← List.map_cons (f := Char.toLower), ih, meetsCased_map, meetsCased_map, h.image]
    simp only [h.sigma, h.dotted]

/-- **What agrees but for the letters `A` to `Z` has one lowercase.** -/
theorem lowercase_asciiLower (s : String) : lowercase (asciiLower s) = lowercase s := by
  unfold lowercase asciiLower
  rw [String.toList_ofList]
  exact congrArg String.ofList (lowerChars_map [] s.toList)

theorem sameIgnoringCase_iff {a b : String} :
    sameIgnoringCase a b = true ↔ asciiLower a = asciiLower b := beq_iff_eq

theorem lowercase_eq_of_asciiLower_eq {a b : String} (h : asciiLower a = asciiLower b) :
    lowercase a = lowercase b := by
  rw [← lowercase_asciiLower a, ← lowercase_asciiLower b, h]

end Text

/-! ## 3. The two opinions -/

open Dialplan.Text

/-- The application that a node names; none is no text. -/
def Node.application (n : Node) : String := n.attributes.getD "application"

variable {names : List String} {n : Node}

/-- Trimming leaves nothing of a text exactly if it is blank. -/
theorem isEmpty_trimmed (s : String) : (trimmed s).isEmpty = blank s := by
  rw [Bool.eq_iff_iff, String.isEmpty_iff, trimmed, String.ofList_eq_empty_iff, trim_eq_nil_iff]
  exact Iff.rfl

namespace Applications

variable {a : Applications} {application : String}

theorem standing_eq_empty_iff : a.standing application = .empty ↔ blank application = true := by
  unfold standing
  dsimp only
  rw [isEmpty_trimmed]
  constructor
  · intro h
    by_contra hb
    rw [if_neg hb] at h
    split at h <;> cases h
  · intro h
    rw [if_pos h]

/-- A name is unknown if it is not blank and no name of the list is the same but for the letters `A`
    to `Z`. -/
theorem standing_eq_unknown_iff : a.standing application = .unknown ↔ blank application = false ∧
    ∀ name ∈ a.names, asciiLower name ≠ asciiLower (trimmed application) := by
  unfold standing
  dsimp only
  rw [isEmpty_trimmed]
  cases hb : blank application with
  | true => simp
  | false =>
    rw [if_neg Bool.false_ne_true, and_iff_right rfl]
    cases hany : a.names.any fun name => sameIgnoringCase name (trimmed application) with
    | true =>
      obtain ⟨name, hn, hs⟩ := List.any_eq_true.mp hany
      rw [if_pos rfl]
      refine iff_of_false (fun h => ?_) fun h => h name hn (sameIgnoringCase_iff.mp hs)
      cases h
    | false =>
      rw [if_neg Bool.false_ne_true]
      refine iff_of_true rfl fun name hn hs => ?_
      exact List.any_eq_false.mp hany name hn (sameIgnoringCase_iff.mpr hs)

end Applications

namespace Rule

theorem applicationNamed_warns_iff (hr : runsApplication n = true) (path : Path) :
    (applicationNamed.check path n).isSome = true ↔
      n.enabled = true ∧ blank n.application = true := by
  unfold check
  rw [Option.isSome_ite, lacksApplication, hr, Bool.true_and, Bool.and_eq_true]
  exact Iff.rfl

/-- The checks warn of a name that is not blank if no name of the list has its lowercase. -/
theorem knowing_warns_iff (hr : runsApplication n = true) (path : Path) :
    ((knowing names).check path n).isSome = true ↔
      blank n.application = false ∧
        ∀ name ∈ names, lowercase name ≠ lowercase (trimmed n.application) := by
  unfold check knowing
  dsimp only
  rw [Option.isSome_map, unknownApplication?, if_pos hr]
  change (if (trimmed n.application).isEmpty ||
    (names.map lowercase).contains (lowercase (trimmed n.application)) then none
    else some (trimmed n.application)).isSome = true ↔ _
  rw [isEmpty_trimmed]
  cases hb : blank n.application with
  | true => simp
  | false =>
    rw [Bool.false_or, and_iff_right rfl]
    cases hc : (names.map lowercase).contains (lowercase (trimmed n.application)) with
    | true =>
      obtain ⟨name, hn, hl⟩ := List.mem_map.mp (List.contains_iff_mem.mp hc)
      rw [if_pos rfl]
      exact iff_of_false Bool.false_ne_true fun h => h name hn hl
    | false =>
      rw [if_neg Bool.false_ne_true]
      refine iff_of_true rfl fun name hn hl => ?_
      have hmem := List.contains_iff_mem.mpr (List.mem_map.mpr ⟨name, hn, hl⟩)
      rw [hc] at hmem
      cases hmem

end Rule

/-- **Where the two opinions agree.** For an enabled action the editor shows that the application is
    missing exactly if the checks warn of that. What the checks do not know the editor does not know;
    the two disagree about exactly the names that are unknown to the editor and have the lowercase of
    a name in the list. -/
theorem standing_agrees (names : List String) {n : Node} (hr : Rule.runsApplication n = true)
    (path : Path) :
    (n.enabled = true → ((Applications.mk names).standing n.application = .empty ↔
      (Rule.applicationNamed.check path n).isSome = true)) ∧
    (((Rule.knowing names).check path n).isSome = true →
      (Applications.mk names).standing n.application = .unknown) ∧
    (((Applications.mk names).standing n.application = .unknown ↔
        ((Rule.knowing names).check path n).isSome = true) ↔
      ¬ ((Applications.mk names).standing n.application = .unknown ∧
        ∃ name ∈ names, lowercase name = lowercase (trimmed n.application))) := by
  have hwarns : ((Rule.knowing names).check path n).isSome = true ↔
      blank n.application = false ∧
        ∀ name ∈ names, lowercase name ≠ lowercase (trimmed n.application) :=
    Rule.knowing_warns_iff hr path
  have hunknown : (Applications.mk names).standing n.application = .unknown ↔
      blank n.application = false ∧
        ∀ name ∈ names, asciiLower name ≠ asciiLower (trimmed n.application) :=
    Applications.standing_eq_unknown_iff
  have himp : ((Rule.knowing names).check path n).isSome = true →
      (Applications.mk names).standing n.application = .unknown := by
    intro h
    obtain ⟨hblank, hno⟩ := hwarns.mp h
    refine hunknown.mpr ⟨hblank, fun name hn hs => hno name hn ?_⟩
    exact lowercase_eq_of_asciiLower_eq hs
  refine ⟨fun he => ?_, himp, ?_⟩
  · rw [Rule.applicationNamed_warns_iff hr, and_iff_right he]
    exact Applications.standing_eq_empty_iff
  · constructor
    · rintro hagree ⟨hs, name, hn, hl⟩
      exact (hwarns.mp (hagree.mp hs)).2 name hn hl
    · intro hno
      refine ⟨fun hs => hwarns.mpr ⟨(hunknown.mp hs).1, fun name hn hl => ?_⟩, himp⟩
      exact hno ⟨hs, name, hn, hl⟩

/-- An action whose application begins with a letter outside of ASCII. -/
def echo : Node := .leaf .action ⟨⟨2⟩, ⟨[("application", "écho")]⟩, true⟩

theorem trimmed_echo : trimmed echo.application = "écho" := by
  decide +kernel

/-- A name far from all of the list: it is unknown to the editor and the checks warn of it, but not
    as of one that is missing. -/
theorem standing_agrees_echo : Rule.runsApplication echo = true ∧
    (Applications.mk ["answer"]).standing echo.application = .unknown ∧
    ((Rule.knowing ["answer"]).check ⟨[0]⟩ echo).isSome = true ∧
    Rule.applicationNamed.check ⟨[0]⟩ echo = none := by
  have hruns : Rule.runsApplication echo = true := rfl
  have hwarned : ((Rule.knowing ["answer"]).check ⟨[0]⟩ echo).isSome = true := by
    rw [Rule.knowing_warns_iff hruns, trimmed_echo]
    decide +kernel
  obtain ⟨hmissing, hunknown, -⟩ := standing_agrees ["answer"] hruns ⟨[0]⟩
  refine ⟨hruns, hunknown hwarned, hwarned, ?_⟩
  rw [← Option.not_isSome_iff_eq_none, ← hmissing rfl, hunknown hwarned]
  decide

/-- **The two disagree** about a name that the list has with another capital: the editor does not
    know it, and the checks do not warn of it. -/
theorem echo_disagrees : Rule.runsApplication echo = true ∧
    (Applications.mk ["Écho"]).standing echo.application = .unknown ∧
    (Rule.knowing ["Écho"]).check ⟨[0]⟩ echo = none := by
  refine ⟨rfl, Applications.standing_eq_unknown_iff.mpr ⟨by decide, ?_⟩, ?_⟩
  · rw [trimmed_echo]
    decide +kernel
  · rw [← Option.not_isSome_iff_eq_none, Rule.knowing_warns_iff rfl, trimmed_echo]
    rintro ⟨-, hno⟩
    exact hno "Écho" List.mem_cons_self (by decide +kernel)

end Dialplan
