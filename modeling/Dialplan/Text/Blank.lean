/-!
# Blank characters

A character is blank when Unicode gives it the property White_Space. Trimming takes blanks off the
two ends of a text and nothing from its middle; a text is blank when trimming leaves nothing of it.

* `isBlank`: the table of the property;
* `trim`, `trimEnd`: a text without the blanks at its ends;
* `blank`: whether a text has nothing but blanks.
-/

namespace Dialplan.Text

/-! ## 1. The property -/

/-- The characters with the property White_Space, as ranges of code points in ascending order. The
    zero width space and the byte order mark do not have it. -/
def blankRanges : List (Nat × Nat) :=
  [(0x09, 0x0D), (0x20, 0x20), (0x85, 0x85), (0xA0, 0xA0), (0x1680, 0x1680), (0x2000, 0x200A),
    (0x2028, 0x2029), (0x202F, 0x202F), (0x205F, 0x205F), (0x3000, 0x3000)]

/-- Whether a code point lies in one of the ranges. -/
def inRanges (ranges : List (Nat × Nat)) (c : Char) : Bool :=
  ranges.any fun (first, last) => first ≤ c.toNat && c.toNat ≤ last

/-- Whether `c` has the property White_Space. -/
def isBlank (c : Char) : Bool := inRanges blankRanges c

example : isBlank '\t' ∧ isBlank ' ' ∧ isBlank '\u00a0' ∧ isBlank '\u3000' := by decide
example : isBlank '\u200b' = false ∧ isBlank '\ufeff' = false ∧ isBlank 'a' = false := by decide

/-! ## 2. Trimming -/

/-- Without the blanks in front. -/
def trimStart (cs : List Char) : List Char := cs.dropWhile isBlank

/-- Without the blanks at the end. -/
def trimEnd (cs : List Char) : List Char := (cs.reverse.dropWhile isBlank).reverse

/-- Without the blanks at both ends. -/
def trim (cs : List Char) : List Char := trimEnd (trimStart cs)

/-- A string without the blanks at both ends. -/
def trimmed (s : String) : String := String.ofList (trim s.toList)

/-- A string without the blanks at its end. -/
def trimmedEnd (s : String) : String := String.ofList (trimEnd s.toList)

/-- Whether a string holds nothing but blanks. -/
def blank (s : String) : Bool := s.toList.all isBlank

/-- Nothing is left exactly when every character is dropped. -/
theorem dropWhile_eq_nil_iff {p : Char → Bool} (cs : List Char) :
    cs.dropWhile p = [] ↔ cs.all p = true := by
  induction cs with
  | nil => simp
  | cons c rest ih => by_cases h : p c = true <;> simp [h, ih]

/-- **Trimming leaves nothing exactly of a blank text.** -/
theorem trim_eq_nil_iff (cs : List Char) : trim cs = [] ↔ cs.all isBlank = true := by
  unfold trim trimEnd trimStart
  rw [List.reverse_eq_nil_iff, dropWhile_eq_nil_iff, List.all_reverse]
  constructor
  · intro h
    rw [← List.takeWhile_append_dropWhile (p := isBlank) (l := cs), List.all_append, h,
      List.all_takeWhile, Bool.and_self]
  · intro h
    rw [(dropWhile_eq_nil_iff cs).mpr h]
    rfl

end Dialplan.Text
