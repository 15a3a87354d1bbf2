import Dialplan.Markup.Fault
import Dialplan.Text.Digits
/-!
# Entity references

In a quoted value a character may be written as a reference between `&` and `;`: one of five names,
or the number of the character in decimal after `#`, in hexadecimal after `#x`. Printing writes the
four characters that would disturb a value in double quotes as references and all others as
themselves.

* `escape`: a value as it stands between double quotes;
* `decode`: the value that such a text stands for.
-/

namespace Dialplan.Markup

open Dialplan.Text

/-! ## 1. Writing -/

/-- A character inside a value. -/
def escapeChar : Char → List Char
  | '&' => ['&', 'a', 'm', 'p', ';']
  | '<' => ['&', 'l', 't', ';']
  | '>' => ['&', 'g', 't', ';']
  | '"' => ['&', 'q', 'u', 'o', 't', ';']
  | c => [c]

/-- The characters of a value as they stand between double quotes. -/
def escapeChars (cs : List Char) : List Char := cs.flatMap escapeChar

/-- A value as it stands between double quotes. -/
def escape (s : String) : String := String.ofList (escapeChars s.toList)

/-! ## 2. Reading -/

/-- The character with a number; surrogates and numbers past the last character have none. -/
def scalar? (n : Nat) : Option Char := if n.isValidChar then some (Char.ofNat n) else none

/-- The character that a reference stands for. -/
def reference? : List Char → Option Char
  | ['a', 'm', 'p'] => some '&'
  | ['l', 't'] => some '<'
  | ['g', 't'] => some '>'
  | ['q', 'u', 'o', 't'] => some '"'
  | ['a', 'p', 'o', 's'] => some '\''
  | '#' :: 'x' :: digits => (signedNatural? 16 digits).bind scalar?
  | '#' :: 'X' :: digits => (signedNatural? 16 digits).bind scalar?
  | '#' :: digits => (signedNatural? 10 digits).bind scalar?
  | _ => none

/-- The characters that `cs`, which starts at byte `pos` of its text, stands for. -/
def decodeFrom (pos : Nat) (cs : List Char) : Except Fault (List Char) :=
  match cs with
  | [] => .ok []
  | c :: rest =>
    if c = '&' then
      match h : cutAt ';' rest with
      | none => .error (.invalid pos .unterminatedReference)
      | some (name, after) =>
        match reference? name with
        | none => .error (.invalid pos (.unknownReference (String.ofList name)))
        | some d =>
          have := length_of_cutAt h
          (decodeFrom (pos + 2 + width name) after).map (d :: ·)
    else (decodeFrom (pos + c.utf8Size) rest).map (c :: ·)
termination_by cs.length

/-- The value of a quoted text whose first byte is at `pos`. -/
def decode (raw : String) (pos : Nat) : Except Fault String :=
  (decodeFrom pos raw.toList).map String.ofList

end Dialplan.Markup
