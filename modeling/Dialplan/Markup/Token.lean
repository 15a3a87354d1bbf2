import Dialplan.Attributes
import Dialplan.Text.Width
/-!
# Tokens of the markup

Only tags are written in the markup, so a text is cut into the marks of tags, names and quoted
values. White space, comments and declarations between tokens are layout and leave no trace.

* `Token`, `Token.text`: the tokens and how a message shows them;
* `comment`, `declaration`: the two sorts of layout that have an end mark of their own;
* `next`: what a text begins with, layout, a token, or something that is neither.

A comment ends at the first `-->`; before it no two dashes stand together, so `--` without `>` makes
the comment broken. A declaration ends at a `?>` that is not itself preceded by an unpaired `?`.
-/

namespace Dialplan.Markup

open Dialplan.Text

/-! ## 1. Tokens -/

/-- A token of the markup. A value is held without its quotes and with its entity references. -/
inductive Token where
  | openEnd
  | openTag
  | selfClose
  | close
  | equals
  | name (text : String)
  | value (raw : String)
deriving DecidableEq, Repr

/-- How a message shows a token. -/
def Token.text : Token → String
  | .openEnd => "</"
  | .openTag => "<"
  | .selfClose => "/>"
  | .close => ">"
  | .equals => "="
  | .name n => "name '" ++ n ++ "'"
  | .value v => "value \"" ++ v ++ "\""

/-! ## 2. Layout -/

/-- White space between tokens. -/
def isLayout (c : Char) : Bool := c = ' ' || c = '\t' || c = '\n' || c = '\r'

/-- How a stretch with an end mark of its own goes on: to its end mark, with what follows, or to
    the place where it goes wrong. -/
inductive Stretch where
  | closed (body after : List Char)
  | broken (body : List Char)
deriving DecidableEq

/-- A stretch with characters put in front of its body. -/
def Stretch.cons (front : List Char) : Stretch → Stretch
  | .closed body after => .closed (front ++ body) after
  | .broken body => .broken (front ++ body)

/-- What follows the opening of a comment. -/
def comment : List Char → Stretch
  | '-' :: '-' :: '>' :: after => .closed [] after
  | '-' :: c :: rest => if c = '-' then .broken [] else (comment rest).cons ['-', c]
  | c :: rest => if c = '-' then .broken [] else (comment rest).cons [c]
  | [] => .broken []

/-- What follows the opening of a declaration. -/
def declaration : List Char → Stretch
  | '?' :: '>' :: after => .closed [] after
  | '?' :: c :: rest => (declaration rest).cons ['?', c]
  | c :: rest => if c = '?' then .broken [] else (declaration rest).cons [c]
  | [] => .broken []

/-! ## 3. What a text begins with -/

/-- What a text begins with, and what follows it. -/
inductive Next where
  | nothing
  | layout (taken rest : List Char)
  | token (t : Token) (taken rest : List Char)
  | broken (fragment : List Char)
deriving DecidableEq

/-- A stretch as layout between its two marks. -/
def Next.ofStretch (mark closing : List Char) : Stretch → Next
  | .closed body after => .layout (mark ++ body ++ closing) after
  | .broken body => .broken (mark ++ body)

/-- A value that starts with the quote `q`. -/
def quoted (q : Char) (rest : List Char) : Next :=
  match cutAt q rest with
  | some (body, after) => .token (.value (String.ofList body)) (q :: body ++ [q]) after
  | none => .broken (q :: rest)

/-- What a text begins with. Of two tokens that start alike the longer one counts. -/
def next : List Char → Next
  | [] => .nothing
  | '<' :: '!' :: '-' :: '-' :: rest =>
    .ofStretch ['<', '!', '-', '-'] ['-', '-', '>'] (comment rest)
  | '<' :: '?' :: rest => .ofStretch ['<', '?'] ['?', '>'] (declaration rest)
  | '<' :: '/' :: rest => .token .openEnd ['<', '/'] rest
  | '<' :: rest => .token .openTag ['<'] rest
  | '/' :: '>' :: rest => .token .selfClose ['/', '>'] rest
  | '>' :: rest => .token .close ['>'] rest
  | '=' :: rest => .token .equals ['='] rest
  | '"' :: rest => quoted '"' rest
  | '\'' :: rest => quoted '\'' rest
  | c :: rest =>
    if isLayout c then .layout [c] rest
    else if Name.isHead c then
      let taken := c :: rest.takeWhile Name.isTail
      .token (.name (String.ofList taken)) taken (rest.dropWhile Name.isTail)
    else .broken [c]

theorem Stretch.cons_eq_closed {s : Stretch} {front body after : List Char} :
    s.cons front = .closed body after ↔ ∃ b, s = .closed b after ∧ body = front ++ b := by
  cases s with
  | closed b a => simp only [Stretch.cons, Stretch.closed.injEq]; grind
  | broken b => simp [Stretch.cons]

/-- A closed comment is its body, its end mark and what follows. -/
theorem eq_of_comment {cs body after : List Char} (h : comment cs = .closed body after) :
    cs = body ++ ['-', '-', '>'] ++ after := by
  fun_induction comment cs generalizing body after with
  | case1 => simp_all
  | case3 c rest _ _ ih =>
    obtain ⟨b, hb, rfl⟩ := Stretch.cons_eq_closed.mp h
    simp [ih hb]
  | case5 c rest _ _ _ ih =>
    obtain ⟨b, hb, rfl⟩ := Stretch.cons_eq_closed.mp h
    simp [ih hb]
  | _ => simp at h

/-- A closed declaration is its body, its end mark and what follows. -/
theorem eq_of_declaration {cs body after : List Char} (h : declaration cs = .closed body after) :
    cs = body ++ ['?', '>'] ++ after := by
  fun_induction declaration cs generalizing body after with
  | case1 => simp_all
  | case2 c rest _ ih =>
    obtain ⟨b, hb, rfl⟩ := Stretch.cons_eq_closed.mp h
    simp [ih hb]
  | case4 c rest _ _ _ ih =>
    obtain ⟨b, hb, rfl⟩ := Stretch.cons_eq_closed.mp h
    simp [ih hb]
  | _ => simp at h

/-- What is taken is not empty, and nothing of the text is lost. -/
def Next.Splits (cs : List Char) : Next → Prop
  | .layout taken rest | .token _ taken rest => cs = taken ++ rest ∧ taken ≠ []
  | _ => True

theorem quoted_splits (q : Char) (rest : List Char) : (quoted q rest).Splits (q :: rest) := by
  unfold quoted
  split
  · next body after h =>
    obtain ⟨h1, -⟩ := (cutAt_eq_some_iff _ _ _ _).mp h
    simp [Next.Splits, h1]
  · trivial

/-- **Every step takes something and loses nothing.** -/
theorem next_splits (cs : List Char) : (next cs).Splits cs := by
  unfold next
  split
  · trivial
  · next rest =>
    cases h : comment rest with
    | closed body after => simp [Next.ofStretch, Next.Splits, eq_of_comment h]
    | broken body => trivial
  · next rest =>
    cases h : declaration rest with
    | closed body after => simp [Next.ofStretch, Next.Splits, eq_of_declaration h]
    | broken body => trivial
  all_goals try (simp [Next.Splits]; done)
  · exact quoted_splits _ _
  · exact quoted_splits _ _
  · split
    · simp [Next.Splits]
    · split
      · simp [Next.Splits]
      · trivial

end Dialplan.Markup
