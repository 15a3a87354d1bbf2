import Dialplan.Markup.Entity
import Dialplan.Tree
/-!
# Printing a rule set

The printed form of a tree: one tag a line, attributes in their order and between double quotes, the
children of an element one level further in. A node without children is one self-closing tag; the
root is never self-closing, and no line end follows it. The enabled flag is written only where it is
off. A condition made of regexes is known by its `regex` attribute, so one that has lost it is
written with the mode of a new one.
-/

namespace Dialplan.Markup

/-- One attribute, with the blank before it. -/
def attributeText (p : String × String) : List Char :=
  ' ' :: p.1.toList ++ ['=', '"'] ++ escapeChars p.2.toList ++ ['"']

/-- A start tag up to its closing mark. -/
def startTag (kind : Kind) (l : Label) : List Char :=
  '<' :: kind.tag.toList ++ l.attributes.pairs.flatMap attributeText ++
    (if kind = .regexCondition && !l.attributes.contains "regex" then attributeText ("regex", "all")
      else []) ++
    (if l.enabled then [] else attributeText ("enabled", "false"))

/-- An end tag. -/
def endTag (kind : Kind) : List Char := '<' :: '/' :: kind.tag.toList ++ ['>']

/-- The blanks at the start of a line. -/
def indentation (indent : List Char) (level : Nat) : List Char :=
  (List.replicate level indent).flatten

mutual

/-- The lines of a node at a level. -/
def nodeText (indent : List Char) (level : Nat) : Node → List Char
  | .leaf k l => indentation indent level ++ startTag (.leaf k) l ++ ['/', '>', '\n']
  | .branch k l [] => indentation indent level ++ startTag (.branch k) l ++ ['/', '>', '\n']
  | .branch k l (n :: rest) =>
    indentation indent level ++ startTag (.branch k) l ++ ['>', '\n'] ++
      (nodeText indent (level + 1) n ++ nodesText indent (level + 1) rest) ++
      indentation indent level ++ endTag (.branch k) ++ ['\n']

/-- The lines of the nodes of a list at a level. -/
def nodesText (indent : List Char) (level : Nat) : List Node → List Char
  | [] => []
  | n :: rest => nodeText indent level n ++ nodesText indent level rest

end

/-- The characters of the printed form. -/
def printChars (indent : List Char) (t : Tree) : List Char :=
  startTag .extension t.root.label ++ ['>'] ++
    (if t.root.children.isEmpty then [] else '\n' :: nodesText indent 1 t.root.children) ++
    endTag .extension

/-- The printed form of a tree, each level further in by `indent`. -/
def print (indent : String) (t : Tree) : String := String.ofList (printChars indent.toList t)

/-- The printed form with a tab for every level. -/
def printTabbed (t : Tree) : String := print "\t" t

end Dialplan.Markup
