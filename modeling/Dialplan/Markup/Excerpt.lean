import Dialplan.Markup.Fault
import Dialplan.Text.Blank
/-!
# Reports that show the place of a fault

A report is the message, the place as file, line and column, the line itself, and below it a mark
with the fault's label. A text is cut into lines after every line break of Unicode (a carriage
return and the line feed after it are one break), and a line includes its break.

Lines and columns are counted in characters, and the mark is put at the character whose number is
the byte offset of the fault: in a text with longer characters before the fault it stands further to
the right than the fault.
-/

namespace Dialplan.Markup

open Dialplan.Text

/-! ## 1. Lines -/

/-- A character that ends a line. -/
def isBreak (c : Char) : Bool :=
  c = '\n' || c = '\r' || c = '\x0b' || c = '\x0c' || c = '\u0085' || c = '\u2028' || c = '\u2029'

/-- Puts a character in front of the first line. -/
def consLine (c : Char) : List (List Char) → List (List Char)
  | [] => [[c]]
  | line :: lines => (c :: line) :: lines

/-- The lines of a text, each with its break. -/
def linesOf : List Char → List (List Char)
  | [] => []
  | '\r' :: '\n' :: rest => ['\r', '\n'] :: linesOf rest
  | c :: rest => if isBreak c then [c] :: linesOf rest else consLine c (linesOf rest)

/-- A line, its index among the lines, and the number of characters before it. -/
structure Line where
  index : Nat
  offset : Nat
  chars : List Char

/-- The lines with their places, counted on from a given place. -/
def numbered (index offset : Nat) : List (List Char) → List Line
  | [] => []
  | l :: rest => ⟨index, offset, l⟩ :: numbered (index + 1) (offset + l.length) rest

/-- The last line that starts at or before a character. -/
def lineAt? (text : List Char) (place : Nat) : Option Line :=
  ((numbered 0 0 (linesOf text)).takeWhile fun l => l.offset ≤ place).getLast?

/-! ## 2. The printed line and the mark below it -/

/-- The columns that a character takes: a tab fills up to the next fourth column. -/
def cellWidth (column : Nat) (c : Char) : Nat :=
  if c = '\t' then (column / 4 + 1) * 4 - column else 1

/-- A character as it is printed. -/
def cell (column : Nat) (c : Char) : List Char :=
  if isBlank c then List.replicate (cellWidth column c) ' ' else [c]

/-- The printed form of a line from a column on. -/
def cells (column : Nat) : List Char → List Char
  | [] => []
  | c :: rest => cell column c ++ cells (column + 1) rest

/-- Stretches of blanks and marks below a line: one stretch a column, as wide as the character
    above it, from column 0 up to, and without, `stop`. -/
def underline (shown : List Char) (stop : Nat) (mark : Nat → Nat → List Char) : List Char :=
  (List.range stop).flatMap fun column =>
    mark column (match shown[column]? with
      | some c => cellWidth column c
      | none => 1)

/-- A mark padded to a width. -/
def padded (head pad : Char) (columns : Nat) : List Char := head :: List.replicate (columns - 1) pad

/-- The lines from the source line to the label, for a mark from character `start` to `stop`. -/
def marked (line : Line) (margin : List Char) (start stop : Nat) (label : List Char) : List Char :=
  let shown := trimEnd line.chars
  let column := start - line.offset
  let width := stop - line.offset + 2
  let above := underline shown width fun c columns =>
    if c = column then if start = stop then padded '│' ' ' columns else padded '┬' '─' columns
    else List.replicate columns ' '
  let below := underline shown width fun c columns =>
    if c = column then padded '╰' '─' columns
    else if c < column then List.replicate columns ' '
    else List.replicate columns '─'
  [' '] ++ (toString (line.index + 1)).toList ++ [' ', '│', ' '] ++ cells 0 shown ++ ['\n'] ++
    margin ++ above ++ ['\n'] ++ margin ++ below ++ [' '] ++ label ++ ['\n']

/-! ## 3. The report -/

/-- The report of a fault in a text. -/
def report (fault : Fault) (source filename : String) : String :=
  let text := source.toList
  let bytes := width text
  let start := min fault.pos bytes
  let stop := max (min (start + 1) bytes) start
  let headline := "Error: " ++ fault.message ++ "\n"
  if start > text.length then headline
  else match lineAt? text start with
    | none => headline
    | some line =>
      let number := (toString (line.index + 1)).toList
      let blanks := List.replicate (number.length + 2) ' '
      let margin := blanks ++ ['│', ' ']
      let place := blanks ++ ['╭', '─', '['] ++ filename.toList ++ [':'] ++ number ++ [':'] ++
        (toString (start - line.offset + 1)).toList ++ [']', '\n']
      let shown :=
        if stop ≤ line.offset + line.chars.length then
          marked line margin start stop fault.label.toList
        else margin ++ ['\n']
      headline ++ String.ofList (place ++ blanks ++ ['│', '\n'] ++ shown ++
        List.replicate (number.length + 2) '─' ++ ['╯', '\n'])

end Dialplan.Markup
