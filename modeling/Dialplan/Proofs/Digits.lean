import Dialplan.Text.Digits
import Mathlib
/-!
# Digits and the numbers that they write

A written number is read digit by digit, what is read so far being multiplied by the base. Here is
what is read, told by the digits alone.

* `IsDigit`: the digits of a base; `digit?_eq_some_iff`: they are what is read as digits;
* `Writes`: digits and the number that they write;
* `natural?_eq_some_iff`: **digits are read as the number that they write**, and nothing else is
  read; `signedNatural?_eq_some_iff`: the same where a plus sign may stand in front.
-/

namespace Dialplan.Text

/-- The character is digit `d` of a base; letters of either case count on from ten. -/
def IsDigit (base d : Nat) (c : Char) : Prop :=
  d < base ∧ ("0123456789abcdef".toList[d]? = some c ∨ "0123456789ABCDEF".toList[d]? = some c)

/-- There are digits of the base and no other characters, and `n` is the number that they write, the
    first digit counting most. -/
def Writes (base n : Nat) (cs : List Char) : Prop :=
  cs ≠ [] ∧ ∃ ds, List.Forall₂ (IsDigit base) ds cs ∧ n = Nat.ofDigits base ds.reverse

variable {base n m : Nat} {cs : List Char}

/-- A character between two others is so many places behind the first. -/
theorem exists_eq_ofNat {a b c : Char} (h : a ≤ c ∧ c ≤ b) :
    ∃ i ≤ b.toNat - a.toNat, c = Char.ofNat (a.toNat + i) := by
  have hle : a.toNat ≤ c.toNat ∧ c.toNat ≤ b.toNat := by
    simpa [Char.le_def, UInt32.le_iff_toNat_le] using h
  refine ⟨c.toNat - a.toNat, by omega, ?_⟩
  rw [Nat.add_sub_cancel' hle.1, Char.ofNat_toNat]

/-- The digits are the ones of the widest base. -/
theorem digit?_eq_some_iff {c : Char} {d : Nat} : digit? c = some d ↔ IsDigit 16 d c := by
  constructor
  · intro h
    unfold digit? at h
    split at h
    · rename_i hr
      obtain ⟨i, hi : i ≤ 9, rfl⟩ := exists_eq_ofNat hr
      cases h
      interval_cases i <;> exact ⟨by decide, .inl rfl⟩
    · split at h
      · rename_i hr
        obtain ⟨i, hi : i ≤ 5, rfl⟩ := exists_eq_ofNat hr
        cases h
        interval_cases i <;> exact ⟨by decide, .inl rfl⟩
      · split at h
        · rename_i hr
          obtain ⟨i, hi : i ≤ 5, rfl⟩ := exists_eq_ofNat hr
          cases h
          interval_cases i <;> exact ⟨by decide, .inr rfl⟩
        · cases h
  · rintro ⟨hd, h⟩
    interval_cases d <;> rcases h with h | h <;> cases h <;> rfl

/-- Reading goes on behind a digit of the base, and stops at any other character. -/
theorem readDigits?_cons_eq_some_iff (hb : base ≤ 16) {c : Char} :
    readDigits? base n (c :: cs) = some m ↔
      ∃ d, IsDigit base d c ∧ readDigits? base (n * base + d) cs = some m := by
  rw [readDigits?]
  constructor
  · intro h
    split at h
    · rename_i d hd
      split at h
      · rename_i hlt
        exact ⟨d, ⟨hlt, (digit?_eq_some_iff.mp hd).2⟩, h⟩
      · cases h
    · cases h
  · rintro ⟨d, ⟨hlt, hc⟩, h⟩
    rw [digit?_eq_some_iff.mpr ⟨hlt.trans_le hb, hc⟩]
    exact (if_pos hlt).trans h

/-- **Digits write the number that they are read as.** -/
theorem readDigits?_eq_some_iff (hb : base ≤ 16) :
    readDigits? base n cs = some m ↔ ∃ ds, List.Forall₂ (IsDigit base) ds cs ∧
      m = n * base ^ ds.length + Nat.ofDigits base ds.reverse := by
  induction cs generalizing n with
  | nil =>
    constructor
    · rintro ⟨⟩
      exact ⟨[], .nil, by simp⟩
    · rintro ⟨ds, hds, rfl⟩
      cases hds
      simp [readDigits?]
  | cons c cs ih =>
    -- a digit in front counts as often as the power of the base that has as many digits behind it
    have hvalue : ∀ d (ds : List Nat), (n * base + d) * base ^ ds.length +
        Nat.ofDigits base ds.reverse =
          n * base ^ (d :: ds).length + Nat.ofDigits base (d :: ds).reverse := by
      intro d ds
      rw [List.reverse_cons, Nat.ofDigits_append, Nat.ofDigits_singleton, List.length_reverse,
        List.length_cons]
      ring
    rw [readDigits?_cons_eq_some_iff hb]
    constructor
    · rintro ⟨d, hd, h⟩
      obtain ⟨ds, hds, rfl⟩ := ih.mp h
      exact ⟨d :: ds, .cons hd hds, hvalue d ds⟩
    · rintro ⟨ds, hds, rfl⟩
      cases hds with
      | cons hd hds => exact ⟨_, hd, ih.mpr ⟨_, hds, (hvalue _ _).symm⟩⟩

theorem natural?_eq_some_iff (hb : base ≤ 16) : natural? base cs = some n ↔ Writes base n cs := by
  unfold Writes natural?
  cases cs with
  | nil => simp
  | cons c cs =>
    show readDigits? base 0 (c :: cs) = some n ↔ _
    rw [readDigits?_eq_some_iff hb]
    simp only [Nat.zero_mul, Nat.zero_add, ne_eq, reduceCtorEq, not_false_eq_true, true_and]

/-- Every character of a written number is a digit. -/
theorem exists_isDigit {ds : List Nat} (h : List.Forall₂ (IsDigit base) ds cs) :
    ∀ c ∈ cs, ∃ d, IsDigit base d c := by
  induction h with
  | nil => exact fun c hc => absurd hc List.not_mem_nil
  | cons hd _ ih => exact List.forall_mem_cons.mpr ⟨⟨_, hd⟩, ih⟩

/-- A character that is no digit stands in no number. -/
theorem Writes.not_mem (h : Writes base n cs) (hb : base ≤ 16) {c : Char}
    (hc : digit? c = none) : c ∉ cs := by
  intro hmem
  obtain ⟨-, ds, hds, -⟩ := h
  obtain ⟨d, hlt, hd⟩ := exists_isDigit hds c hmem
  rw [digit?_eq_some_iff.mpr ⟨hlt.trans_le hb, hd⟩] at hc
  cases hc

/-- A number is read from its digits, also behind a plus sign. -/
theorem signedNatural?_eq_some_iff (hb : base ≤ 16) : signedNatural? base cs = some n ↔
    Writes base n cs ∨ ∃ digits, cs = '+' :: digits ∧ Writes base n digits := by
  unfold signedNatural?
  split
  · rename_i rest
    rw [natural?_eq_some_iff hb]
    constructor
    · exact fun h => .inr ⟨rest, rfl, h⟩
    · rintro (h | ⟨digits, hcs, h⟩)
      · exact absurd List.mem_cons_self (h.not_mem hb (by decide))
      · cases hcs
        exact h
  · rename_i hplus
    rw [natural?_eq_some_iff hb]
    constructor
    · exact .inl
    · rintro (h | ⟨digits, rfl, -⟩)
      · exact h
      · exact absurd rfl (hplus digits)

end Dialplan.Text
