import Dialplan.Attributes
/-!
# Kinds of nodes

A rule set is a tree of six kinds of nodes. Three kinds own children (`BranchKind`), three never do
(`LeafKind`); `Kind` is one or the other. The element name of a kind is its text, but for a
condition made of regexes, which is written as an ordinary `condition` and told from it by its
`regex` attribute.
-/

namespace Dialplan

/-- The kinds that own children. -/
inductive BranchKind where
  | extension
  | condition
  | regexCondition
deriving DecidableEq, Repr

/-- The kinds that never own children. -/
inductive LeafKind where
  | regex
  | action
  | antiAction
deriving DecidableEq, Repr

/-- Every kind of node a rule set can hold. -/
inductive Kind where
  | branch (kind : BranchKind)
  | leaf (kind : LeafKind)
deriving DecidableEq, Repr

namespace Kind

/-! ## 1. The six kinds and their texts -/

abbrev extension : Kind := .branch .extension
abbrev condition : Kind := .branch .condition
abbrev regexCondition : Kind := .branch .regexCondition
abbrev regex : Kind := .leaf .regex
abbrev action : Kind := .leaf .action
abbrev antiAction : Kind := .leaf .antiAction

/-- All kinds, in the order in which they are searched. -/
def all : List Kind := [extension, condition, regexCondition, regex, action, antiAction]

theorem mem_all (k : Kind) : k ∈ all := by
  rcases k with k | k <;> cases k <;> decide

/-- The kind's own text. -/
def text : Kind → String
  | .branch .extension => "extension"
  | .branch .condition => "condition"
  | .branch .regexCondition => "regex-condition"
  | .leaf .regex => "regex"
  | .leaf .action => "action"
  | .leaf .antiAction => "anti-action"

/-- The element name that stands for the kind in markup. -/
def tag : Kind → String
  | .branch .regexCondition => "condition"
  | k => k.text

/-- The short label on the node's handle. -/
def badge : Kind → String
  | .branch .extension => "Extension"
  | .branch .condition => "Condition"
  | .branch .regexCondition => "RegEx"
  | .leaf .regex => "Regex"
  | .leaf .action => "Action"
  | .leaf .antiAction => "Anti"

/-- The kind with this text. -/
def ofText? (s : String) : Option Kind := all.find? fun k => k.text == s

theorem ofText?_text (k : Kind) : ofText? k.text = some k := by
  rcases k with k | k <;> cases k <;> decide

/-- Whether nodes of the kind own children. -/
def isBranch : Kind → Bool
  | .branch _ => true
  | .leaf _ => false

/-! ## 2. Attributes that belong to a kind -/

/-- The keys that the visual editor offers for a kind. -/
def recognized : Kind → List String
  | .branch .extension => ["name", "continue", "uuid"]
  | .branch .condition | .leaf .regex => ["field", "expression", "break"]
  | .branch .regexCondition => ["regex", "break"]
  | .leaf .action | .leaf .antiAction => ["application", "data", "inline"]

/-- The attributes of a new node. -/
def defaults : Kind → Attributes
  | .branch .extension => ⟨[("name", ""), ("continue", "false")]⟩
  | .branch .regexCondition => ⟨[("regex", "all")]⟩
  | _ => .empty

end Kind

/-! ## 3. What may stand where -/

/-- Whether a child of kind `k` may stand directly inside a branch of this kind: never another
    extension, a regex only where regexes are combined, and anything else everywhere. -/
def BranchKind.accepts (b : BranchKind) : Kind → Bool
  | .branch .extension => false
  | .leaf .regex => b = .regexCondition
  | _ => true

/-- The same for a parent of any kind; a leaf takes no child. -/
def Kind.accepts : Kind → Kind → Bool
  | .branch b, k => b.accepts k
  | .leaf _, _ => false

/-- All branch kinds. -/
def BranchKind.all : List BranchKind := [.extension, .condition, .regexCondition]

end Dialplan
