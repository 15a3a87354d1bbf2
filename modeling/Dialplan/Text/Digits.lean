/-!
# Written numbers

Natural numbers in positional notation, of any base up to sixteen.
-/

namespace Dialplan.Text

/-- The value of a digit; letters of either case count on from ten. -/
def digit? (c : Char) : Option Nat :=
  if '0' ≤ c ∧ c ≤ '9' then some (c.toNat - '0'.toNat)
  else if 'a' ≤ c ∧ c ≤ 'f' then some (c.toNat - 'a'.toNat + 10)
  else if 'A' ≤ c ∧ c ≤ 'F' then some (c.toNat - 'A'.toNat + 10)
  else none

/-- The number that digits write after a number `n` already read. -/
def readDigits? (base : Nat) (n : Nat) : List Char → Option Nat
  | [] => some n
  | c :: rest =>
    match digit? c with
    | some d => if d < base then readDigits? base (n * base + d) rest else none
    | none => none

/-- The number that at least one digit writes. -/
def natural? (base : Nat) (cs : List Char) : Option Nat :=
  if cs.isEmpty then none else readDigits? base 0 cs

/-- The same with one plus sign allowed in front. -/
def signedNatural? (base : Nat) : List Char → Option Nat
  | '+' :: cs => natural? base cs
  | cs => natural? base cs

example :
    natural? 16 ['2', 'a', 'F'] = some 687 ∧ natural? 10 ['a'] = none ∧ natural? 10 [] = none := by
  decide

end Dialplan.Text
