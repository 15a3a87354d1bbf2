import Dialplan.Text.Blank
/-!
# Attributes of an element

An ordered mapping from keys to values. Giving a present key a new value leaves the key in its
place; a new key goes to the end. A key that can stand in markup is a letter or an underscore
followed by letters, digits and the four marks `_`, `.`, `:` and `-`, in ASCII.

The type holds any list of pairs, repeated keys included, since a list that comes from outside need
not have been built by `set`; every operation reads and writes the first pair with the key.
-/

namespace Dialplan

/-! ## 1. Names -/

namespace Name

/-- A character that a name may start with. -/
def isHead (c : Char) : Bool := c.isAlpha || c = '_'

/-- A character that a name may go on with. -/
def isTail (c : Char) : Bool := c.isAlphanum || c = '_' || c = '.' || c = ':' || c = '-'

/-- Whether these characters are a name. -/
def isName : List Char → Bool
  | [] => false
  | c :: rest => isHead c && rest.all isTail

end Name

/-! ## 2. The mapping -/

/-- The value of a flag. -/
def boolText (b : Bool) : String := if b then "true" else "false"

/-- The attributes of one element, in their order. -/
structure Attributes where
  pairs : List (String × String)
deriving DecidableEq, Repr

namespace Attributes

instance : Inhabited Attributes := ⟨⟨[]⟩⟩

/-- No attribute. -/
def empty : Attributes := ⟨[]⟩

/-- Whether `key` can be written as the name of an attribute. -/
def isValidKey (key : String) : Bool := Name.isName key.toList

/-- The value of the first pair with the key. -/
def get? (a : Attributes) (key : String) : Option String := a.pairs.lookup key

/-- The value of `key`, or no text where it is absent. -/
def getD (a : Attributes) (key : String) : String := (a.get? key).getD ""

/-- Whether some pair has the key. -/
def contains (a : Attributes) (key : String) : Bool := a.pairs.any fun p => p.1 == key

/-- The pairs with the value of the first `key` replaced, or with a new pair at the end. -/
def put (key value : String) : List (String × String) → List (String × String)
  | [] => [(key, value)]
  | (k, v) :: rest => if k = key then (k, value) :: rest else (k, v) :: put key value rest

/-- The attributes with `key` given this value. -/
def set (a : Attributes) (key value : String) : Attributes := ⟨put key value a.pairs⟩

/-- The attributes without the first pair that has the key. -/
def erase (a : Attributes) (key : String) : Attributes := ⟨a.pairs.eraseP fun p => p.1 == key⟩

/-- The number of pairs. -/
def size (a : Attributes) : Nat := a.pairs.length

/-- Whether there is no pair. -/
def isEmpty (a : Attributes) : Bool := a.pairs.isEmpty

/-- The attributes after setting each pair of a list in turn: of a repeated key the first place and
    the last value stay. -/
def ofPairs (pairs : List (String × String)) : Attributes :=
  pairs.foldl (fun a p => a.set p.1 p.2) empty

@[simp] theorem pairs_set (a : Attributes) (key value : String) :
    (a.set key value).pairs = put key value a.pairs := rfl

theorem get?_set_self (a : Attributes) (key value : String) :
    (a.set key value).get? key = some value := by
  unfold get? set
  obtain ⟨ps⟩ := a
  induction ps with
  | nil => simp [put]
  | cons p ps ih =>
    obtain ⟨k, v⟩ := p
    by_cases h : k = key
    · simp [put, h]
    · have h' : (key == k) = false := by simpa using fun e => h e.symm
      simpa [put, h, List.lookup_cons, h'] using ih

end Attributes

end Dialplan
