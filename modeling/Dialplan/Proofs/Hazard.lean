import Dialplan.Hazard
import Mathlib.Data.List.Forall2
/-!
# What the scan for dangerous applications finds

The scan goes through the text from hit to hit. Here it is said what a hit is without the scan, and
that a text without findings has no hit at any place.

* `Spells`, `Quoted`, `Braced`: a name but for case, and the two sorts of places where it counts;
* `quotedAt?_isSome`, `bracedAt?_isSome`: the matchers answer exactly there;
* `scan_eq_nil`: nothing is found exactly in a text that has no such place.
-/

namespace Dialplan.Hazard

open Dialplan.Text

/-! ## 1. Names -/

/-- These characters are the name but for case. -/
def Spells (name shown : List Char) : Prop :=
  List.Forall₂ (fun l c => matchesChar l c = true) name shown

/-- **A stretch is cut off exactly where a name is spelled.** -/
theorem spelled?_eq_some : ∀ (name cs shown rest : List Char),
    spelled? name cs = some (shown, rest) ↔ cs = shown ++ rest ∧ Spells name shown
  | [], cs, shown, rest => by
      constructor
      · intro h
        cases h
        exact ⟨rfl, .nil⟩
      · rintro ⟨rfl, hs⟩
        cases hs
        rfl
  | l :: name, [], shown, rest => by
      constructor
      · intro h
        cases h
      · rintro ⟨h, hs⟩
        cases hs
        cases h
  | l :: name, c :: cs, shown, rest => by
      unfold spelled?
      constructor
      · intro h
        split at h
        · rename_i hc
          obtain ⟨⟨shown', rest'⟩, hs, he⟩ := Option.map_eq_some_iff.mp h
          cases he
          obtain ⟨rfl, hn⟩ := (spelled?_eq_some name cs shown' rest).mp hs
          exact ⟨rfl, .cons hc hn⟩
        · cases h
      · rintro ⟨he, hs⟩
        cases hs with
        | @cons _ d _ shown' hd hn =>
          obtain ⟨rfl, htail⟩ := List.cons.inj he
          rw [if_pos hd, (spelled?_eq_some name cs shown' rest).mpr ⟨htail, hn⟩]
          rfl

/-! ## 2. Places -/

/-- The rest of the line that a text begins with. -/
def line (cs : List Char) : List Char := cs.takeWhile fun c => c ≠ '\n'

theorem throughLastClose?_isSome : ∀ cs : List Char,
    (throughLastClose? cs).isSome = true ↔ '>' ∈ line cs
  | [] => by simp [throughLastClose?, line]
  | c :: rest => by
      have ih := throughLastClose?_isSome rest
      unfold throughLastClose? line
      by_cases hn : c = '\n'
      · simp [hn]
      · rw [if_neg hn, List.takeWhile_cons_of_pos (by simp [hn]), List.mem_cons]
        cases ht : throughLastClose? rest with
        | some taken =>
          rw [ht] at ih
          simp only [Option.isSome_some, true_iff]
          exact .inr (ih.mp rfl)
        | none =>
          rw [ht] at ih
          have hr : '>' ∉ line rest := fun h => Bool.false_ne_true (ih.mpr h)
          by_cases hc : c = '>'
          · simp [hc]
          · simp only [if_neg hc, Option.isSome_none, Bool.false_eq_true, false_iff, not_or]
            exact ⟨fun e => hc e.symm, hr⟩

/-- A quoted name at the front of a text, with a `>` further on in its line. -/
def Quoted (cs : List Char) : Prop :=
  ∃ q shown q' after, cs = q :: (shown ++ q' :: after) ∧ isQuote q = true ∧ isQuote q' = true ∧
    (∃ name ∈ names, Spells name.toList shown) ∧ '>' ∈ line after

/-- A name after a brace at the front of a text. -/
def Braced (cs : List Char) : Prop :=
  ∃ shown after, cs = '\x7b' :: (shown ++ after) ∧ ∃ name ∈ names, Spells name.toList shown

theorem quotedAt?_isSome (cs : List Char) : (quotedAt? cs).isSome = true ↔ Quoted cs := by
  cases cs with
  | nil =>
    constructor
    · intro h
      cases h
    · rintro ⟨q, shown, q', after, h, -⟩
      cases h
  | cons q rest =>
    simp only [quotedAt?]
    by_cases hq : isQuote q = true
    · rw [if_pos hq, List.findSome?_isSome_iff]
      constructor
      · rintro ⟨name, hn, h⟩
        split at h
        · rename_i shown q' after hs
          obtain ⟨rfl, hspell⟩ := (spelled?_eq_some _ _ _ _).mp hs
          split at h
          · rename_i hq'
            rw [Option.isSome_map] at h
            exact ⟨q, shown, q', after, rfl, hq, hq', ⟨name, hn, hspell⟩,
              (throughLastClose?_isSome after).mp h⟩
          · cases h
        · cases h
      · rintro ⟨q₀, shown, q', after, he, -, hq', ⟨name, hn, hspell⟩, hc⟩
        obtain ⟨rfl, rfl⟩ := List.cons.inj he
        refine ⟨name, hn, ?_⟩
        have hs : spelled? name.toList (shown ++ q' :: after) = some (shown, q' :: after) :=
          (spelled?_eq_some _ _ _ _).mpr ⟨rfl, hspell⟩
        simp only [hs, if_pos hq', Option.isSome_map]
        exact (throughLastClose?_isSome after).mpr hc
    · rw [if_neg hq]
      constructor
      · intro h
        cases h
      · rintro ⟨q₀, shown, q', after, he, hq₀, -⟩
        cases he
        exact absurd hq₀ hq

theorem bracedAt?_isSome (cs : List Char) : (bracedAt? cs).isSome = true ↔ Braced cs := by
  cases cs with
  | nil =>
    constructor
    · intro h
      cases h
    · rintro ⟨shown, after, h, -⟩
      cases h
  | cons c rest =>
    simp only [bracedAt?]
    by_cases hb : c = '\x7b'
    · rw [if_pos hb, List.findSome?_isSome_iff]
      constructor
      · rintro ⟨name, hn, h⟩
        rw [Option.isSome_map] at h
        obtain ⟨⟨shown, after⟩, hs⟩ := Option.isSome_iff_exists.mp h
        obtain ⟨rfl, hspell⟩ := (spelled?_eq_some _ _ _ _).mp hs
        exact ⟨shown, after, by rw [hb], name, hn, hspell⟩
      · rintro ⟨shown, after, he, name, hn, hspell⟩
        obtain ⟨rfl, rfl⟩ := List.cons.inj he
        refine ⟨name, hn, ?_⟩
        rw [(spelled?_eq_some _ _ _ _).mpr ⟨rfl, hspell⟩]
        rfl
    · rw [if_neg hb]
      constructor
      · intro h
        cases h
      · rintro ⟨shown, after, he, -⟩
        cases he
        exact absurd rfl hb

/-! ## 3. The scan -/

/-- **The search for hits passes over no place where something starts**, unless an earlier hit takes
    it: there is none exactly where there is no such place at all. -/
theorem hits_eq_nil (hitAt? : List Char → Option Hit) (h0 : hitAt? [] = none) (pos : Nat)
    (cs : List Char) :
    hits hitAt? pos cs = [] ↔ ∀ rest, rest <:+ cs → hitAt? rest = none := by
  fun_induction hits hitAt? pos cs with
  | case1 pos =>
    simp only [true_iff]
    intro rest hr
    rw [List.suffix_nil.mp hr]
    exact h0
  | case2 pos c rest h hh ih =>
    rw [hh]
    constructor
    · intro he
      cases he
    · intro hno
      rw [hno _ (List.suffix_refl _)] at hh
      cases hh
  | case3 pos c rest hh ih =>
    rw [hh]
    refine Iff.trans ih ?_
    constructor
    · intro hno r hr
      rcases List.suffix_cons_iff.mp hr with rfl | hr
      · exact hh
      · exact hno r hr
    · intro hno r hr
      exact hno r (hr.trans (List.suffix_cons c rest))

theorem merge_eq_nil {α : Type} (le : α → α → Bool) (xs ys : List α) :
    xs.merge ys le = [] ↔ xs = [] ∧ ys = [] := by
  have hl := List.length_merge le xs ys
  rw [← List.length_eq_zero_iff, hl, ← List.length_eq_zero_iff, ← List.length_eq_zero_iff]
  omega

/-- **Nothing is found exactly in a text that has no such place.** -/
theorem scan_eq_nil (markup : String) :
    scan markup = [] ↔ ∀ rest, rest <:+ markup.toList → ¬ Quoted rest ∧ ¬ Braced rest := by
  unfold scan
  rw [List.map_eq_nil_iff, merge_eq_nil, hits_eq_nil _ rfl, hits_eq_nil _ rfl]
  simp only [← quotedAt?_isSome, ← bracedAt?_isSome, Option.not_isSome_iff_eq_none]
  constructor
  · rintro ⟨hq, hb⟩ rest hr
    exact ⟨hq rest hr, hb rest hr⟩
  · intro h
    exact ⟨fun rest hr => (h rest hr).1, fun rest hr => (h rest hr).2⟩

end Dialplan.Hazard
