import Dialplan.Check
import Mathlib
/-!
# The nearest known name

A name that is not known is answered with the known name that shares the most characters with it at
the start, and of those that share as many with the first in the order of characters. The known
names have no order of their own, so the answer must not depend on the one in which they come.

* `SharesStart`: two texts begin with the same `n` characters;
* `Nearest`: a known name with the longest such beginning;
* `closest?_eq_argmin`: the search is a minimum under one linear order, the `rank` of a guess;
* `closest?_eq_least`: **the answer is the least of the nearest names**, in whatever order they
  come; `Rule.check_knowing_congr` says the same of the warnings.
-/

namespace Dialplan

open Dialplan.Text

/-! ## 1. Shared beginnings -/

/-- Two texts begin with the same `n` characters. -/
def SharesStart (n : Nat) (a b : String) : Prop :=
  ∃ start : List Char, start.length = n ∧ start <+: a.toList ∧ start <+: b.toList

/-- What begins both texts is no longer than what they share. -/
theorem length_le_sharedStart : ∀ {start as bs : List Char}, start <+: as → start <+: bs →
    start.length ≤ sharedStart as bs
  | [], _, _, _, _ => Nat.zero_le _
  | c :: start, as, bs, ha, hb => by
      obtain ⟨as, rfl⟩ := ha
      obtain ⟨bs, rfl⟩ := hb
      have ih : start.length ≤ sharedStart (start ++ as) (start ++ bs) :=
        length_le_sharedStart (List.prefix_append _ _) (List.prefix_append _ _)
      rw [List.cons_append, List.cons_append, sharedStart, if_pos rfl, List.length_cons]
      exact Nat.succ_le_succ ih

/-- As many characters as two texts share, and fewer, stand at the start of both. -/
theorem take_prefix_of_le_sharedStart : ∀ {as bs : List Char} {n : Nat}, n ≤ sharedStart as bs →
    (as.take n).length = n ∧ as.take n <+: bs
  | _, _, 0, _ => ⟨rfl, List.nil_prefix⟩
  | [], _, n + 1, h => by cases h
  | _ :: _, [], n + 1, h => by cases h
  | a :: as, b :: bs, n + 1, h => by
      unfold sharedStart at h
      split at h
      · rename_i hab
        obtain ⟨hlen, hpre⟩ := take_prefix_of_le_sharedStart (Nat.le_of_succ_le_succ h)
        rw [List.take_succ_cons, List.length_cons, hlen, hab]
        exact ⟨rfl, List.cons_prefix_cons.mpr ⟨rfl, hpre⟩⟩
      · cases h

theorem sharesStart_iff {n : Nat} {a b : String} :
    SharesStart n a b ↔ n ≤ sharedStart a.toList b.toList := by
  constructor
  · rintro ⟨start, rfl, ha, hb⟩
    exact length_le_sharedStart ha hb
  · intro h
    obtain ⟨hlen, hpre⟩ := take_prefix_of_le_sharedStart h
    exact ⟨a.toList.take n, hlen, List.take_prefix _ _, hpre⟩

/-! ## 2. The order of guesses -/

/-- The place of a guess: more shared characters come first, then the order of characters. -/
def rank (name : List Char) (guess : String) : Lex (Natᵒᵈ × String) :=
  toLex (OrderDual.toDual (sharedStart guess.toList name), guess)

variable {name : List Char} {a b : String}

theorem rank_injective (name : List Char) : Function.Injective (rank name) := by
  intro a b h
  exact congrArg (fun p => (ofLex p).2) h

theorem rank_le_iff : rank name a ≤ rank name b ↔
    sharedStart b.toList name < sharedStart a.toList name ∨
      sharedStart a.toList name = sharedStart b.toList name ∧ a ≤ b :=
  Prod.Lex.toLex_le_toLex

theorem betterGuess_iff : betterGuess name a b = true ↔ rank name a < rank name b := by
  have hlt : rank name a < rank name b ↔ sharedStart b.toList name < sharedStart a.toList name ∨
      sharedStart a.toList name = sharedStart b.toList name ∧ a < b :=
    Prod.Lex.toLex_lt_toLex
  rw [hlt]
  simp [betterGuess]

/-- **The search is a minimum**: of the guesses that share three characters, the first in rank. -/
theorem closest?_eq_argmin (name : String) (known : List String) :
    closest? name known = (known.filter fun k =>
      3 ≤ sharedStart k.toList (lowercase name).toList).argmin (rank (lowercase name).toList) := by
  unfold closest? List.argmin
  dsimp only
  congr 1
  funext best k
  cases best with
  | none => rfl
  | some b =>
    show (if betterGuess _ k b = true then some k else some b) = if _ < _ then some k else some b
    exact if_congr betterGuess_iff rfl rfl

theorem closest?_eq_some_iff {name : String} {known : List String} {k : String} :
    closest? name known = some k ↔
      (k ∈ known ∧ 3 ≤ sharedStart k.toList (lowercase name).toList) ∧
        ∀ other ∈ known, 3 ≤ sharedStart other.toList (lowercase name).toList →
          rank (lowercase name).toList k ≤ rank (lowercase name).toList other := by
  rw [closest?_eq_argmin, List.argmin_eq_some_iff]
  simp only [List.mem_filter, decide_eq_true_eq, and_imp]
  refine and_congr_right fun hk => ⟨fun h => h.1, fun h => ⟨h, fun other ho h3 hle => ?_⟩⟩
  -- guesses of one rank are one guess, so the first place is no further condition
  rw [rank_injective _ (le_antisymm hle (h other ho h3))]

theorem closest?_eq_none_iff {name : String} {known : List String} :
    closest? name known = none ↔
      ∀ k ∈ known, sharedStart k.toList (lowercase name).toList < 3 := by
  rw [closest?_eq_argmin, List.argmin_eq_none, List.filter_eq_nil_iff]
  simp only [decide_eq_true_eq, not_le]

/-! ## 3. The answer -/

/-- A known name that shares `n` characters with `name` at the start, where none shares more. -/
structure Nearest (name : String) (known : Finset String) (n : Nat) (k : String) : Prop where
  mem : k ∈ known
  shares : SharesStart n k name
  longest : ∀ other ∈ known, ∀ m, SharesStart m other name → m ≤ n

theorem nearest_iff {name k : String} {known : Finset String} {n : Nat} :
    Nearest name known n k ↔ k ∈ known ∧ sharedStart k.toList name.toList = n ∧
      ∀ other ∈ known, sharedStart other.toList name.toList ≤ n := by
  constructor
  · intro h
    have hmost : ∀ other ∈ known, sharedStart other.toList name.toList ≤ n := fun other ho =>
      h.longest other ho _ (sharesStart_iff.mpr le_rfl)
    exact ⟨h.mem, le_antisymm (hmost k h.mem) (sharesStart_iff.mp h.shares), hmost⟩
  · rintro ⟨hk, rfl, hmost⟩
    exact ⟨hk, sharesStart_iff.mpr le_rfl, fun other ho m hm =>
      (sharesStart_iff.mp hm).trans (hmost other ho)⟩

/-- **The suggestion is the least of the nearest names**, in whatever order the known names come,
    and there is none exactly if no known name shares three characters. -/
theorem closest?_eq_least (name : String) (known : Finset String) {order : List String}
    (ho : ∀ k, k ∈ order ↔ k ∈ known) :
    (∀ k, closest? name order = some k ↔
      ∃ n, 3 ≤ n ∧ IsLeast {other | Nearest (lowercase name) known n other} k) ∧
    (closest? name order = none ↔
      ∀ k ∈ known, ∀ n, SharesStart n k (lowercase name) → n < 3) := by
  constructor
  · intro k
    rw [closest?_eq_some_iff]
    constructor
    · rintro ⟨⟨hk, h3⟩, hfirst⟩
      have hmost : ∀ other ∈ known, sharedStart other.toList (lowercase name).toList ≤
          sharedStart k.toList (lowercase name).toList := by
        intro other hother
        by_contra hlt
        rw [not_le] at hlt
        have hle := hfirst other ((ho other).mpr hother) (h3.trans hlt.le)
        rcases rank_le_iff.mp hle with h | ⟨h, -⟩
        · exact lt_asymm h hlt
        · exact hlt.ne h
      refine ⟨_, h3, nearest_iff.mpr ⟨(ho k).mp hk, rfl, hmost⟩, fun other hother => ?_⟩
      obtain ⟨hmem, heq, -⟩ := nearest_iff.mp hother
      rcases rank_le_iff.mp (hfirst other ((ho other).mpr hmem) (heq ▸ h3)) with h | ⟨-, h⟩
      · exact absurd heq h.ne
      · exact h
    · rintro ⟨n, h3, hk, hleast⟩
      obtain ⟨hmem, rfl, hmost⟩ := nearest_iff.mp hk
      refine ⟨⟨(ho k).mpr hmem, h3⟩, fun other hother _ => rank_le_iff.mpr ?_⟩
      have hother := (ho other).mp hother
      rcases (hmost other hother).lt_or_eq with h | h
      · exact .inl h
      · exact .inr ⟨h.symm, hleast (nearest_iff.mpr ⟨hother, h, hmost⟩)⟩
  · rw [closest?_eq_none_iff]
    constructor
    · intro h k hk n hn
      exact (sharesStart_iff.mp hn).trans_lt (h k ((ho k).mpr hk))
    · intro h k hk
      exact h k ((ho k).mp hk) _ (sharesStart_iff.mpr le_rfl)

/-- Names that share three characters each, looked through from the last to the first. -/
theorem closest?_eq_least_setx :
    (∀ k, k ∈ ["setvar", "answer", "set_global"] ↔
      k ∈ ({"answer", "set_global", "setvar"} : Finset String)) ∧
    closest? "SETX" ["setvar", "answer", "set_global"] = some "set_global" ∧
    ∃ n, 3 ≤ n ∧ IsLeast {other | Nearest (lowercase "SETX") {"answer", "set_global", "setvar"} n
      other} "set_global" := by
  have ho : ∀ k, k ∈ ["setvar", "answer", "set_global"] ↔
      k ∈ ({"answer", "set_global", "setvar"} : Finset String) := by
    intro k
    simp only [List.mem_cons, List.not_mem_nil, or_false, Finset.mem_insert, Finset.mem_singleton]
    tauto
  have h : closest? "SETX" ["setvar", "answer", "set_global"] = some "set_global" := by
    decide +kernel
  exact ⟨ho, h, ((closest?_eq_least "SETX" _ ho).1 _).mp h⟩

/-! ## 4. Warnings -/

/-- Two lists of the same names give the same suggestion. -/
theorem closest?_congr (name : String) {known known' : List String}
    (h : ∀ k, k ∈ known ↔ k ∈ known') : closest? name known = closest? name known' := by
  ext k
  simp only [closest?_eq_some_iff, h]

/-- **What is said of unknown applications depends on the set of the known names only**, letters
    compared without regard to case. -/
theorem Rule.check_knowing_congr {names names' : List String}
    (h : ∀ k, k ∈ names.map lowercase ↔ k ∈ names'.map lowercase) (path : Path) (n : Node) :
    (knowing names).check path n = (knowing names').check path n := by
  have hcontains : ∀ k, (names.map lowercase).contains k = (names'.map lowercase).contains k :=
    fun k => Bool.eq_iff_iff.mpr (by rw [List.contains_iff_mem, List.contains_iff_mem, h k])
  have hunknown : unknownApplication? (names.map lowercase) n =
      unknownApplication? (names'.map lowercase) n := by
    unfold unknownApplication?
    simp only [hcontains]
  unfold check knowing
  simp only [hunknown, closest?_congr _ h]
  rfl

end Dialplan
