/-!
# JSON values

What a JSON text stands for. An object is the list of its members in their order, repeated names
included, so that a reader can tell a name given twice from a name given once. A number is whole
when it is written without fraction and exponent and is not `-0`; any other number is kept as the
digits it was written with.
-/

namespace Dialplan

/-- A number with a fraction or an exponent, as written: sign, digits before and after the point,
    and the power of ten. -/
structure Decimal where
  negative : Bool
  whole : String
  fraction : String
  exponent : Int
deriving DecidableEq, Repr

/-- A JSON value. -/
inductive Json where
  | null
  | bool (value : Bool)
  | int (value : Int)
  | real (value : Decimal)
  | str (value : String)
  | arr (items : List Json)
  | obj (members : List (String × Json))
deriving Repr

namespace Json

instance : Inhabited Json := ⟨.null⟩

/-- A natural number as a value. -/
def nat (n : Nat) : Json := .int n

/-- A list of values, each written by `f`. -/
def list {α : Type} (f : α → Json) (xs : List α) : Json := .arr (xs.map f)

/-- A value that may be absent; `null` stands for its absence. -/
def option {α : Type} (f : α → Json) : Option α → Json
  | none => .null
  | some x => f x

/-- The values of the members with this name. -/
def membersNamed (name : String) (members : List (String × Json)) : List Json :=
  (members.filter fun m => m.1 == name).map (·.2)

/-- The first member of an object with this name. -/
def get? (name : String) : Json → Option Json
  | .obj members => members.lookup name
  | _ => none

end Json

end Dialplan
