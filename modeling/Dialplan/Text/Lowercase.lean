import Dialplan.Text.Blank
import Dialplan.Text.CaseTable
/-!
# Lowercase

The full Unicode lowercase of a text. Every character is mapped on its own by the simple mapping,
with two exceptions: a capital I with a dot above becomes two characters, and a capital sigma takes
its final form at the end of a word, that is, where a cased letter stands before it and none behind
it (characters without a case of their own are looked through).

* `lowerChars`: the mapping on characters, with what stands before as an argument;
* `lowercase`: the mapping on strings;
* `asciiLower`: the mapping of the 26 letters alone, for names compared without regard to case.
-/

namespace Dialplan.Text

/-- The simple lowercase mapping of one character. -/
def lowerChar (c : Char) : Char :=
  match lowerRuns.find? fun r =>
      r.first ≤ c.toNat && c.toNat ≤ r.last && (c.toNat - r.first) % r.step == 0 with
  | some r => Char.ofNat (Int.toNat (c.toNat + r.shift))
  | none => c

/-- Whether the nearest character that is not looked through is a cased letter. -/
def meetsCased (cs : List Char) : Bool :=
  match cs.dropWhile (inRanges skippedRanges) with
  | c :: _ => inRanges casedRanges c
  | [] => false

/-- Lowercase of `cs` where `before` stands in front of it, nearest character first. -/
def lowerChars (before : List Char) : List Char → List Char
  | [] => []
  | c :: rest =>
    let image :=
      if c = 'Σ' then if meetsCased before && !meetsCased rest then ['ς'] else ['σ']
      else if c = 'İ' then ['i', '\u0307']
      else [lowerChar c]
    image ++ lowerChars (c :: before) rest

/-- The full lowercase of a text. -/
def lowercase (s : String) : String := String.ofList (lowerChars [] s.toList)

/-- Lowercase of the letters `A` to `Z`; every other character stays. -/
def asciiLower (s : String) : String := String.ofList (s.toList.map Char.toLower)

/-- Whether two texts agree but for the case of the letters `A` to `Z`. -/
def sameIgnoringCase (a b : String) : Bool := asciiLower a == asciiLower b

/-- Whether `piece` occurs in `whole` without a gap. -/
def occursIn (piece whole : List Char) : Bool :=
  match whole with
  | [] => piece.isEmpty
  | _ :: rest => piece.isPrefixOf whole || occursIn piece rest

end Dialplan.Text
