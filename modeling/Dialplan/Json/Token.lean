import Dialplan.Json.Value
import Dialplan.Text.Digits
/-!
# JSON lexemes

A JSON text is cut into marks, literals, numbers and strings, with spaces, tabs and line ends
between them. The cut is strict: an unescaped control character in a string, half of a surrogate
pair written as an escape, or a numeral with a leading zero makes the whole text unreadable.

* `Json.Token`: the lexemes;
* `Json.Token.scan`: the lexemes of a text, or none where it does not divide into lexemes.
-/

namespace Dialplan.Json

open Dialplan.Text

/-- A lexeme of JSON. -/
inductive Token where
  | openObject
  | closeObject
  | openArray
  | closeArray
  | colon
  | comma
  | null
  | bool (value : Bool)
  | int (value : Int)
  | real (value : Decimal)
  | str (value : String)
deriving DecidableEq, Repr

namespace Token

/-! ## 1. Numerals -/

/-- The power of ten after an `e`: an optional sign and at least one digit, to the end. -/
def exponent? : List Char → Option Int
  | '-' :: ds => (natural? 10 ds).map fun n => -n
  | ds => (signedNatural? 10 ds).map fun n => n

/-- What follows the digits of the whole part, given sign and digits. -/
def afterWhole? (negative : Bool) (whole : List Char) (rest : List Char) : Option Token :=
  let decimal (fraction : List Char) (exponent : Int) : Token :=
    .real ⟨negative, String.ofList whole, String.ofList fraction, exponent⟩
  let tail (fraction : List Char) : List Char → Option Token
    | [] => some (decimal fraction 0)
    | c :: rest => if c = 'e' ∨ c = 'E' then (exponent? rest).map (decimal fraction) else none
  match rest with
  | [] => (natural? 10 whole).map fun n =>
    if negative then if n = 0 then decimal [] 0 else .int (-n) else .int n
  | '.' :: rest =>
    let fraction := rest.takeWhile Char.isDigit
    if fraction.isEmpty then none else tail fraction (rest.dropWhile Char.isDigit)
  | rest => tail [] rest

/-- A whole numeral: a leading zero stands alone, a point has digits on both sides. -/
def numeral? (cs : List Char) : Option Token :=
  let negative := cs.head? = some '-'
  let body := if negative then cs.tail else cs
  let whole := body.takeWhile Char.isDigit
  if whole.isEmpty || (whole.head? = some '0' && whole.length > 1) then none
  else afterWhole? negative whole (body.dropWhile Char.isDigit)

/-- A character that can occur in a numeral. -/
def isNumeralChar (c : Char) : Bool :=
  c.isDigit || c = '-' || c = '+' || c = '.' || c = 'e' || c = 'E'

/-! ## 2. Strings -/

/-- The value of four hexadecimal digits. -/
def hex4? (a b c d : Char) : Option Nat :=
  natural? 16 [a, b, c, d]

/-- The character that a one-letter escape stands for. -/
def shortEscape? : Char → Option Char
  | '"' => some '"'
  | '\\' => some '\\'
  | '/' => some '/'
  | 'b' => some '\x08'
  | 'f' => some '\x0c'
  | 'n' => some '\n'
  | 'r' => some '\r'
  | 't' => some '\t'
  | _ => none

/-- The character of a UTF-16 pair. -/
def ofPair (high low : Nat) : Char :=
  Char.ofNat (0x10000 + (high - 0xD800) * 0x400 + (low - 0xDC00))

/-- The characters of a string up to its closing quote, and what follows the quote. -/
def string? : List Char → Option (List Char × List Char)
  | [] => none
  | '"' :: rest => some ([], rest)
  | '\\' :: 'u' :: a :: b :: c :: d :: rest =>
    match hex4? a b c d with
    | none => none
    | some unit =>
      if 0xDC00 ≤ unit ∧ unit ≤ 0xDFFF then none
      else if 0xD800 ≤ unit ∧ unit ≤ 0xDBFF then
        match rest with
        | '\\' :: 'u' :: a :: b :: c :: d :: rest =>
          match hex4? a b c d with
          | some low =>
            if 0xDC00 ≤ low ∧ low ≤ 0xDFFF then
              (string? rest).map fun (cs, after) => (ofPair unit low :: cs, after)
            else none
          | none => none
        | _ => none
      else (string? rest).map fun (cs, after) => (Char.ofNat unit :: cs, after)
  | '\\' :: e :: rest =>
    match shortEscape? e with
    | none => none
    | some c => (string? rest).map fun (cs, after) => (c :: cs, after)
  | c :: rest =>
    if c = '\\' ∨ c.toNat < 0x20 then none
    else (string? rest).map fun (cs, after) => (c :: cs, after)

/-- Reading a string uses up at least its closing quote. -/
theorem length_of_string? {cs : List Char} {content after : List Char}
    (h : string? cs = some (content, after)) : after.length < cs.length := by
  fun_induction string? cs generalizing content after <;>
    simp_all [Option.map_eq_some_iff] <;> grind

/-! ## 3. A whole text -/

/-- White space between lexemes. -/
def isSpace (c : Char) : Bool := c = ' ' || c = '\t' || c = '\n' || c = '\r'

/-- The mark that a character stands for. -/
def mark? : Char → Option Token
  | '{' => some .openObject
  | '}' => some .closeObject
  | '[' => some .openArray
  | ']' => some .closeArray
  | ':' => some .colon
  | ',' => some .comma
  | _ => none

/-- The lexemes of a text. -/
def scan : List Char → Option (List Token)
  | [] => some []
  | 't' :: 'r' :: 'u' :: 'e' :: rest => (scan rest).map (.bool true :: ·)
  | 'f' :: 'a' :: 'l' :: 's' :: 'e' :: rest => (scan rest).map (.bool false :: ·)
  | 'n' :: 'u' :: 'l' :: 'l' :: rest => (scan rest).map (.null :: ·)
  | '"' :: rest =>
    match _h : string? rest with
    | none => none
    | some (content, after) => (scan after).map (.str (String.ofList content) :: ·)
  | c :: rest =>
    if isSpace c then scan rest
    else match mark? c with
      | some m => (scan rest).map (m :: ·)
      | none =>
        if isNumeralChar c then
          match numeral? (c :: rest.takeWhile isNumeralChar) with
          | none => none
          | some n => (scan (rest.dropWhile isNumeralChar)).map (n :: ·)
        else none
termination_by cs => cs.length
decreasing_by
  all_goals simp_wf
  all_goals try omega
  · have := length_of_string? _h
    omega
  · have : (rest.dropWhile isNumeralChar).length ≤ rest.length :=
      (List.dropWhile_sublist _).length_le
    omega

end Token

end Dialplan.Json
