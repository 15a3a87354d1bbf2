import Dialplan.Json.Value
/-!
# Shapes of JSON values

How records and choices are told from JSON. A record with fixed columns is written as an object, in
any order, with members of other names left aside, or as an array of its columns in their order. A
choice between bare words is written as the word or as an object with the word as its only name and
`null` as its value. A choice between records carries its word as one more column.

* `Cell`, `columns?`: the columns of a record, each given, absent, or beyond the end of the array;
* `required`, `optional`, `defaulted`: what a column does when it is not given;
* `tagged?`: the word of a choice and the rest of the value;
* `bool?`, `nat64?`, `text?`, …: single values;
* `float?`, `inRange`: the doubles that numbers stand for.

A record whose choice is not known from the start is taken as a whole before it is looked at. So all
its numbers have to be in the range of doubles, also those in members that are left aside, and the
words inside it may be written more freely (`innerWord?`, `wordOrPlace?`).
-/

namespace Dialplan.Json

/-! ## 1. Single values -/

/-- A truth value. -/
def bool? : Json → Option Bool
  | .bool b => some b
  | _ => none

/-- A text. -/
def text? : Json → Option String
  | .str s => some s
  | _ => none

/-- A whole number from `low` up to `high`. -/
def int? (low high : Int) : Json → Option Int
  | .int n => if low ≤ n ∧ n ≤ high then some n else none
  | _ => none

/-- A natural number of at most 64 bits. -/
def nat64? : Json → Option Nat
  | .int n => if 0 ≤ n ∧ n < 0x10000000000000000 then some n.toNat else none
  | _ => none

/-- A natural number of at most 32 bits. -/
def nat32? : Json → Option Nat
  | .int n => if 0 ≤ n ∧ n < 0x100000000 then some n.toNat else none
  | _ => none

/-- A whole number of at most 64 bits with its sign. -/
def int64? : Json → Option Int := int? (-0x8000000000000000) 0x7fffffffffffffff

/-- A list of values, each read by `f`. -/
def list? {α : Type} (f : Json → Option α) : Json → Option (List α)
  | .arr items => items.mapM f
  | _ => none

/-- Two texts. -/
def pair? : Json → Option (String × String)
  | .arr [.str a, .str b] => some (a, b)
  | _ => none

/-- One of a list of words, alone or as the only name of an object with the value `null`. -/
def word? : Json → Option String
  | .str w => some w
  | .obj [(w, .null)] => some w
  | _ => none

/-- A word inside a choice between records: as any word, or as an object with an empty object as the
    value. -/
def innerWord? : Json → Option String
  | .obj [(w, .obj [])] => some w
  | j => word? j

/-- A word of a list, or its place in the list. -/
def wordOrPlace? (words : List String) : Json → Option String
  | .int n => if 0 ≤ n then words[n.toNat]? else none
  | j => text? j

/-! ## 2. Records -/

/-- What a value has in one column of a record. -/
inductive Cell where
  /-- A value stands there. -/
  | given (value : Json)
  /-- The object has no member of the column's name. -/
  | absent
  /-- The array ends before the column. -/
  | beyond

/-- The member under one of `names`; more than one such member is an error. -/
def member? (names : List String) (members : List (String × Json)) : Option Cell :=
  match members.filter fun m => names.contains m.1 with
  | [] => some .absent
  | [m] => some (.given m.2)
  | _ => none

/-- Items in the order of the columns; more items than columns are an error. -/
def positions? : List (List String) → List Json → Option (List Cell)
  | [], [] => some []
  | [], _ :: _ => none
  | _ :: columns, [] => (positions? columns []).map (.beyond :: ·)
  | _ :: columns, v :: rest => (positions? columns rest).map (.given v :: ·)

/-- The columns of a record, each of which may go by several names. -/
def columns? (columns : List (List String)) : Json → Option (List Cell)
  | .obj members => columns.mapM fun names => member? names members
  | .arr items => positions? columns items
  | _ => none

namespace Cell

variable {α : Type}

/-- A column that must be given. -/
def required (f : Json → Option α) : Cell → Option α
  | .given v => f v
  | _ => none

/-- A column that may be absent or `null`, but not cut off. -/
def optional (f : Json → Option α) : Cell → Option (Option α)
  | .given .null => some none
  | .given v => (f v).map some
  | .absent => some none
  | .beyond => none

/-- A column with a value of its own when it is not given. -/
def defaulted (value : α) (f : Json → Option α) : Cell → Option α
  | .given v => f v
  | _ => some value

end Cell

/-! ## 3. Choices -/

/-- The word of a choice between records, under the name `tag` or as the first item, and the value
    without it. -/
def tagged? (tag : String) : Json → Option (Json × Json)
  | .obj members =>
    match member? [tag] members with
    | some (.given w) => some (w, .obj (members.filter fun m => m.1 != tag))
    | _ => none
  | .arr (w :: rest) => some (w, .arr rest)
  | _ => none

/-! ## 4. Numbers with a fraction -/

/-- The leading digits of a number as long as they fit into 64 bits, and how many more there are. -/
def leadingDigits (n : Nat) : List Char → Nat × Nat
  | [] => (n, 0)
  | c :: rest =>
    let next := n * 10 + (c.toNat - '0'.toNat)
    if next < 0x10000000000000000 then leadingDigits next rest else (n, rest.length + 1)

/-- A float scaled by a power of ten, by at most 308 places at a time; nothing where the result is
    too large. -/
def scaleFloat (f : Float) (exponent : Int) : Option Float :=
  if 0 ≤ exponent then
    if exponent ≤ 308 then
      let scaled := f * Float.ofScientific 1 false exponent.toNat
      if scaled.isInf then none else some scaled
    else if f == 0.0 then some f else none
  else
    let places := exponent.natAbs
    if places ≤ 308 then some (f / Float.ofScientific 1 false places)
    else if places ≤ 616 then some (f / 1e308 / Float.ofScientific 1 false (places - 308))
    else some (f / 1e308 / 1e308 / 1e308)

/-- The double that a number stands for: its leading digits, rounded, times its power of ten. -/
def decimalFloat? (d : Decimal) : Option Float :=
  let (whole, dropped) := leadingDigits 0 d.whole.toList
  let (significand, kept) :=
    if dropped = 0 then
      let (s, cut) := leadingDigits whole d.fraction.toList
      (s, d.fraction.length - cut)
    else (whole, 0)
  let magnitude := scaleFloat (Float.ofNat significand) (d.exponent + dropped - kept)
  magnitude.map fun f => if d.negative then -f else f

/-- The double that a value stands for, if it is a number. -/
def float? : Json → Option Float
  | .int n => decimalFloat? ⟨n < 0, toString n.natAbs, "", 0⟩
  | .real d => decimalFloat? d
  | _ => none

/-- Whether a whole number has at most 64 bits, with or without a sign. -/
def isWord (n : Int) : Bool := -0x8000000000000000 ≤ n && n < 0x10000000000000000

mutual

/-- Whether every number in a value is in the range of doubles. A whole number of 64 bits is, and is
    not turned into a double to see it. -/
def inRange : Json → Bool
  | .null | .bool _ | .str _ => true
  | .int n => isWord n || (float? (.int n)).isSome
  | .real d => (decimalFloat? d).isSome
  | .arr items => inRangeAll items
  | .obj members => inRangeMembers members

/-- Whether every number in a list of values is in range. -/
def inRangeAll : List Json → Bool
  | [] => true
  | v :: rest => v.inRange && inRangeAll rest

/-- Whether every number in the values of members is in range. -/
def inRangeMembers : List (String × Json) → Bool
  | [] => true
  | (_, v) :: rest => v.inRange && inRangeMembers rest

end

end Dialplan.Json
