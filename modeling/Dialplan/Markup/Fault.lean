import Dialplan.Kind
import Dialplan.Markup.Token
/-!
# Why a text is not a rule set

A fault is what stops the reading of a text, with the byte offset where it was found. Its message is
the one line a user sees; its label is what stands beside the marked place in a report.

* `Expectation`: what should have stood there;
* `Violation`: which rule the tags break;
* `Fault`: the four sorts of faults, their messages and labels.
-/

namespace Dialplan.Markup

/-! ## 1. Causes -/

/-- What should have stood at a place. -/
inductive Expectation where
  | openMark
  | extension
  | elementName
  | equals
  | value
  | tagEnd
  | closing (name : String)
  | closingName
  | closeMark
  | endOfInput
  | stated (text : String)
deriving DecidableEq, Repr

/-- What should have stood there, as a message names it. -/
def Expectation.text : Expectation → String
  | .openMark => "'<'"
  | .extension => "<extension>"
  | .elementName => "element name"
  | .equals => "'='"
  | .value => "quoted attribute value"
  | .tagEnd => "'>' or '/>'"
  | .closing name => "</" ++ name ++ ">"
  | .closingName => "closing tag name"
  | .closeMark => "'>'"
  | .endOfInput => "end of input"
  | .stated s => s

/-- A rule that the tags of a text break. -/
inductive Violation where
  /-- The outermost element is not an extension. -/
  | wrongRoot (name : String)
  /-- No kind of node is written so. -/
  | unknownElement (name : String)
  /-- A node stands where its kind is not allowed. -/
  | misplaced (child parent : Kind)
  /-- Something other than a tag stands between tags. -/
  | textContent (found : Token)
  /-- A leaf has a body. -/
  | leafBody (name : String)
  /-- An end tag closes another element than the innermost open one. -/
  | mismatchedEnd (expected found : String)
  /-- A start tag gives an attribute twice. -/
  | duplicateAttribute (key : String)
  /-- The enabled flag is neither of the two words. -/
  | enabledValue (found : String)
  /-- An ampersand without a semicolon after it. -/
  | unterminatedReference
  /-- A reference that stands for no character. -/
  | unknownReference (name : String)
  | stated (text : String)
deriving DecidableEq, Repr

/-- What a message says of the rule that was broken. -/
def Violation.text : Violation → String
  | .wrongRoot name => "Root element must be <extension>, found <" ++ name ++ ">"
  | .unknownElement name => "Unknown element <" ++ name ++ ">"
  | .misplaced child parent => "<" ++ child.tag ++ "> is not allowed inside <" ++ parent.tag ++ ">"
  | .textContent t => "Text content is not allowed here (" ++ t.text ++ ")"
  | .leafBody name => "<" ++ name ++ "> cannot have children"
  | .mismatchedEnd expected found =>
    "Mismatched closing tag: expected </" ++ expected ++ ">, found </" ++ found ++ ">"
  | .duplicateAttribute key => "Duplicate attribute '" ++ key ++ "'"
  | .enabledValue found => "enabled must be \"true\" or \"false\", found \"" ++ found ++ "\""
  | .unterminatedReference => "Unterminated entity reference"
  | .unknownReference name => "Unknown entity '&" ++ name ++ ";'"
  | .stated s => s

/-! ## 2. Faults -/

/-- What stops the reading of a text, and where. -/
inductive Fault where
  /-- A token of the wrong sort. -/
  | unexpectedToken (pos : Nat) (expected : Expectation) (found : String)
  /-- The text stops too early. -/
  | unexpectedEnd (pos : Nat) (expected : Expectation)
  /-- The tokens are right but what they say is not. -/
  | invalid (pos : Nat) (violation : Violation)
  /-- The text does not divide into tokens. -/
  | unrecognized (pos : Nat) (fragment : String)
deriving DecidableEq, Repr

namespace Fault

/-- The byte offset where the fault was found. -/
def pos : Fault → Nat
  | .unexpectedToken p _ _ | .unexpectedEnd p _ | .invalid p _ | .unrecognized p _ => p

/-- The message of a fault. -/
def message : Fault → String
  | .unexpectedToken p expected found =>
    "Unexpected token at " ++ toString p ++ ": expected " ++ expected.text ++ ", found " ++ found
  | .unexpectedEnd p expected =>
    "Unexpected end of input at " ++ toString p ++ ": expected " ++ expected.text
  | .invalid p violation => "Invalid syntax at " ++ toString p ++ ": " ++ violation.text
  | .unrecognized p fragment =>
    "Lexer error at " ++ toString p ++ ": unrecognized input '" ++ fragment ++ "'"

/-- What stands beside the marked place in a report. -/
def label : Fault → String
  | .unexpectedToken _ expected _ | .unexpectedEnd _ expected => "expected " ++ expected.text
  | .invalid _ violation => violation.text
  | .unrecognized _ _ => "not valid here"

end Fault

end Dialplan.Markup
