import Dialplan.Finding
import Dialplan.Text.Lowercase
import Dialplan.Tree
/-!
# Checks of a rule set

Every rule looks at one node below the root at a time. A check takes the nodes in pre-order and, at
every node, the rules in the order in which they are listed.

* a condition made of regexes that is enabled needs an enabled regex among its children;
* an enabled action or anti-action names an application;
* the application it names is one of a list, letters compared without regard to case.

Only the first rule can keep a rule set from being saved (`Tree.blocker?`).
-/

namespace Dialplan

open Dialplan.Text

/-! ## 1. Near misses -/

/-- The number of characters that two texts share at their start. -/
def sharedStart : List Char → List Char → Nat
  | a :: as, b :: bs => if a = b then sharedStart as bs + 1 else 0
  | _, _ => 0

/-- Whether `a` is a better guess for `name` than `b`: more characters shared at the start, and of
    two that share as many the one that comes first in the order of characters. -/
def betterGuess (name : List Char) (a b : String) : Bool :=
  let sa := sharedStart a.toList name
  let sb := sharedStart b.toList name
  sb < sa || (sa == sb && a < b)

/-- The best guess for a name among known names in lower case, if it shares three characters. -/
def closest? (name : String) (known : List String) : Option String :=
  let chars := (lowercase name).toList
  (known.filter fun k => 3 ≤ sharedStart k.toList chars).foldl (fun best k =>
    match best with
    | none => some k
    | some b => if betterGuess chars k b then some k else some b) none

/-! ## 2. Rules -/

/-- A rule that is checked at every node below the root. -/
inductive Rule where
  | regexNeeded
  | applicationNamed
  /-- The known names, in lower case. -/
  | applicationKnown (known : List String)
deriving DecidableEq, Repr

namespace Rule

/-- The rule that applications are among these names. -/
def knowing (names : List String) : Rule := .applicationKnown (names.map lowercase)

/-- The name under which a rule is reported. -/
def name : Rule → String
  | .regexNeeded => "regex-condition-needs-regex"
  | .applicationNamed => "empty-application"
  | .applicationKnown _ => "unknown-application"

/-- What a rule is for, in one line. -/
def description : Rule → String
  | .regexNeeded => "Require an enabled <regex> child in every enabled regex condition"
  | .applicationNamed => "Warn about actions without an application"
  | .applicationKnown _ => "Warn about applications missing from the application list"

/-- The rules that need no list of applications. -/
def builtin : List Rule := [.regexNeeded, .applicationNamed]

/-- The words for a condition of regexes without an enabled regex. -/
def regexNeededMessage : String :=
  "A Regex Condition must have at least one enabled Regex child element."

/-- Whether a node runs an application. -/
def runsApplication (n : Node) : Bool := n.kind = .action || n.kind = .antiAction

/-- Whether a node is an enabled condition of regexes without an enabled regex among its
    children. -/
def lacksRegex (n : Node) : Bool :=
  n.kind = .regexCondition && n.enabled &&
    !n.children.any fun c => c.kind = .regex && c.enabled

/-- Whether a node is an enabled action that names no application. -/
def lacksApplication (n : Node) : Bool :=
  runsApplication n && n.enabled && blank (n.attributes.getD "application")

/-- The application of a node, if it is named but not known. -/
def unknownApplication? (known : List String) (n : Node) : Option String :=
  if runsApplication n then
    let application := trimmed (n.attributes.getD "application")
    if application.isEmpty || known.contains (lowercase application) then none
    else some application
  else none

/-- What a rule says of the node at a path. -/
def check (r : Rule) (path : Path) (n : Node) : Option Finding :=
  match r with
  | .regexNeeded =>
    if lacksRegex n then
      some ⟨.error, r.name, regexNeededMessage, .node path,
        some "Add a regex element or enable an existing one"⟩
    else none
  | .applicationNamed =>
    if lacksApplication n then
      some ⟨.warning, r.name, "<" ++ n.kind.tag ++ "> has no application", .node path, none⟩
    else none
  | .applicationKnown known =>
    (unknownApplication? known n).map fun application =>
      ⟨.warning, r.name, "Unknown application '" ++ application ++ "'", .node path,
        (closest? application known).map fun k => "Did you mean '" ++ k ++ "'?"⟩

end Rule

/-! ## 3. Whole trees -/

/-- What these rules say of a tree, in document order. -/
def Tree.findings (t : Tree) (rules : List Rule) : List Finding :=
  t.descendants.flatMap fun (path, n) => rules.filterMap fun r => r.check path n

/-- The built-in rules, and the rule of known applications where a list of names is given. -/
def rulesFor (applications : Option (List String)) : List Rule :=
  Rule.builtin ++ (applications.map Rule.knowing).toList

/-- The first condition of regexes that keeps a tree from being saved. -/
def Tree.blocker? (t : Tree) : Option Finding :=
  t.descendants.findSome? fun (path, n) => Rule.regexNeeded.check path n

end Dialplan
