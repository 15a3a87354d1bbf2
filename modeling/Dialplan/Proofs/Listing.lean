import Dialplan.Applications
import Mathlib.Data.List.Infix
import Mathlib.Data.List.TakeWhile
/-!
# Which names of a listing are read

The switch answers with blocks of lines, and names applications in the first block only. The block
is cut off at a pair of line feeds before lines are told apart, so it ends at an empty line where
lines end in line feeds. Where they end in carriage return and line feed there is no such pair, and
the lines of all blocks are read.

* `linesOfText_cons`: lines, character by character;
* `firstBlock_of_pair`, `firstBlock_of_no_pair`: where a block ends;
* `FeedsOnly`, `ReturnsOnly`: the two sorts of line ends;
* `nil_not_mem_tail`: no line but the first is empty but where two line ends meet;
* `kept`: the names of rows that are not left out, each judged by itself and the one before it;
* `names_ofShown`: **which names a listing gives**, with either sort of line ends.
-/

namespace Dialplan

variable {cs front back : List Char}

/-! ## 1. Lines, character by character -/

/-- The lines of a text with one more character in front of the first. -/
def pushed (c : Char) : List (List Char) → List (List Char)
  | [] => [[c]]
  | line :: lines => (c :: line) :: lines

theorem pushed_append (c : Char) {lines : List (List Char)} (h : lines ≠ [])
    (others : List (List Char)) : pushed c (lines ++ others) = pushed c lines ++ others := by
  cases lines with
  | nil => exact absurd rfl h
  | cons line lines => rfl

theorem tail_pushed (c : Char) (lines : List (List Char)) : (pushed c lines).tail = lines.tail := by
  cases lines <;> rfl

theorem head?_pushed_ne (c : Char) (lines : List (List Char)) :
    (pushed c lines).head? ≠ some [] := by
  cases lines <;> simp [pushed]

/-- **One character**: a line feed ends a line, a carriage return in front of it is left out, and
    any other begins the first line of what follows. -/
theorem linesOfText_cons (c : Char) (rest : List Char) :
    linesOfText (c :: rest) =
      if c = '\n' then [] :: linesOfText rest
      else if c = '\r' ∧ rest.head? = some '\n' then linesOfText rest
      else pushed c (linesOfText rest) := by
  split
  case isTrue hc =>
    subst hc
    exact linesOfText.eq_2 rest
  case isFalse hc =>
    split
    case isTrue hr =>
      obtain ⟨rfl, hrest⟩ := hr
      obtain ⟨rest, rfl⟩ := List.head?_eq_some_iff.mp hrest
      rw [linesOfText.eq_3, linesOfText.eq_2]
    case isFalse hr =>
      have hreturn : ∀ after, c = '\r' → rest = '\n' :: after → False :=
        fun after hc' hrest => hr ⟨hc', by rw [hrest]; rfl⟩
      cases rest with
      | nil => exact linesOfText.eq_4 c hc hreturn
      | cons d rest =>
        cases hlines : linesOfText (d :: rest) with
        | nil => exact linesOfText.eq_6 c _ hc (List.cons_ne_nil d rest) hreturn hlines
        | cons line lines =>
          exact linesOfText.eq_5 c _ line lines hc (List.cons_ne_nil d rest) hreturn hlines

theorem linesOfText_ne_nil (h : cs ≠ []) : linesOfText cs ≠ [] := by
  induction cs with
  | nil => exact absurd rfl h
  | cons c rest ih =>
    rw [linesOfText_cons]
    split
    · exact List.cons_ne_nil _ _
    · split
      case isTrue hr =>
        refine ih ?_
        rintro rfl
        cases hr.2
      · cases linesOfText rest <;> exact List.cons_ne_nil _ _

/-- A text may be cut behind any line feed. -/
theorem linesOfText_append (front back : List Char) :
    linesOfText (front ++ '\n' :: back) = linesOfText (front ++ ['\n']) ++ linesOfText back := by
  induction front with
  | nil => simp [linesOfText_cons, linesOfText]
  | cons c front ih =>
    have hnext : (front ++ '\n' :: back).head? = (front ++ ['\n']).head? := by
      cases front <;> rfl
    rw [List.cons_append, List.cons_append, linesOfText_cons, linesOfText_cons, hnext, ih]
    split
    · rfl
    · split
      · rfl
      · exact pushed_append c (linesOfText_ne_nil (by simp)) _

/-! ## 2. Pairs of characters -/

theorem pair_infix_cons {a b c : Char} {rest : List Char} :
    [a, b] <:+: c :: rest ↔ (c = a ∧ rest.head? = some b) ∨ [a, b] <:+: rest := by
  rw [List.infix_cons_iff, List.cons_prefix_cons, eq_comm (a := a)]
  refine or_congr_left (and_congr_right fun _ => ?_)
  cases rest with
  | nil => simp
  | cons d rest => simp [eq_comm]

/-- **A block ends at the first pair of line feeds.** -/
theorem firstBlock_of_pair (h : ¬ ['\n', '\n'] <:+: front ++ ['\n']) (back : List Char) :
    firstBlock (front ++ '\n' :: '\n' :: back) = front := by
  induction front with
  | nil => exact firstBlock.eq_1 back
  | cons c front ih =>
    rw [List.cons_append, pair_infix_cons, not_or] at h
    rw [List.cons_append, firstBlock.eq_2, ih h.2]
    intro after hc hrest
    refine h.1 ⟨hc, ?_⟩
    cases front with
    | nil => rfl
    | cons d front => exact congrArg some (List.cons.inj hrest).1

/-- Without such a pair a text is one block. -/
theorem firstBlock_of_no_pair (h : ¬ ['\n', '\n'] <:+: cs) : firstBlock cs = cs := by
  induction cs with
  | nil => rfl
  | cons c rest ih =>
    rw [pair_infix_cons, not_or] at h
    rw [firstBlock.eq_2, ih h.2]
    rintro after hc rfl
    exact h.1 ⟨hc, rfl⟩

/-- What stands in front of the first pair. -/
theorem exists_first_pair (h : ['\n', '\n'] <:+: cs) :
    ∃ front back, cs = front ++ '\n' :: '\n' :: back ∧ ¬ ['\n', '\n'] <:+: front ++ ['\n'] := by
  induction cs with
  | nil => simp at h
  | cons c rest ih =>
    by_cases hc : c = '\n' ∧ rest.head? = some '\n'
    · obtain ⟨rfl, hrest⟩ := hc
      obtain ⟨rest, rfl⟩ := List.head?_eq_some_iff.mp hrest
      exact ⟨[], rest, rfl, by decide⟩
    · obtain ⟨front, back, rfl, hfront⟩ := ih ((pair_infix_cons.mp h).resolve_left hc)
      refine ⟨c :: front, back, rfl, ?_⟩
      rw [List.cons_append, pair_infix_cons]
      rintro (⟨hc', hnext⟩ | hpair)
      · refine hc ⟨hc', ?_⟩
        cases front <;> exact hnext
      · exact hfront hpair

/-! ## 3. Line ends -/

/-- The lines of a text end in line feeds alone. -/
def FeedsOnly (cs : List Char) : Prop := ¬ ['\r', '\n'] <:+: cs

/-- The lines of a text end in carriage return and line feed: a line feed stands behind a carriage
    return, and nowhere else. -/
def ReturnsOnly (cs : List Char) : Prop :=
  ∀ step ∈ (none :: cs.map some).zip cs, step.2 = '\n' → step.1 = some '\r'

instance (cs : List Char) : Decidable (FeedsOnly cs) := inferInstanceAs (Decidable (¬ _))

instance (cs : List Char) : Decidable (ReturnsOnly cs) := inferInstanceAs (Decidable (∀ _ ∈ _, _))

/-- Each pair of characters is a step from one to the next. -/
theorem mem_zip_of_pair {a b : Char} (h : [a, b] <:+: cs) (before : Option Char) :
    (some a, b) ∈ (before :: cs.map some).zip cs := by
  induction cs generalizing before with
  | nil => simp at h
  | cons c rest ih =>
    rw [List.map_cons, List.zip_cons_cons]
    refine List.mem_cons_of_mem _ ?_
    rcases pair_infix_cons.mp h with ⟨hc, hrest⟩ | hrest
    · obtain ⟨rest, rfl⟩ := List.head?_eq_some_iff.mp hrest
      rw [hc]
      exact List.mem_cons_self
    · exact ih hrest (some c)

/-- With such line ends there is no pair of line feeds. -/
theorem ReturnsOnly.no_pair (h : ReturnsOnly cs) : ¬ ['\n', '\n'] <:+: cs := by
  intro hpair
  have hreturn := h _ (mem_zip_of_pair hpair none) rfl
  cases hreturn

theorem FeedsOnly.of_append (h : FeedsOnly (front ++ back)) : FeedsOnly front :=
  fun hpair => h (hpair.trans (List.infix_append' [] front back))

/-- One character of a text whose lines end in line feeds. -/
theorem FeedsOnly.linesOfText_cons {c : Char} {rest : List Char} (h : FeedsOnly (c :: rest)) :
    linesOfText (c :: rest) =
      if c = '\n' then [] :: linesOfText rest else pushed c (linesOfText rest) := by
  unfold FeedsOnly at h
  rw [pair_infix_cons, not_or] at h
  rw [Dialplan.linesOfText_cons, if_neg h.1]

theorem FeedsOnly.head?_eq_nil (h : FeedsOnly cs) (hhead : (linesOfText cs).head? = some []) :
    cs.head? = some '\n' := by
  cases cs with
  | nil => cases hhead
  | cons c rest =>
    rw [h.linesOfText_cons] at hhead
    split at hhead
    case isTrue hc => rw [hc]; rfl
    case isFalse => exact absurd hhead (head?_pushed_ne c _)

theorem not_mem_of_tail {α : Type} {a : α} {l : List α} (hhead : l.head? ≠ some a)
    (htail : a ∉ l.tail) : a ∉ l := by
  cases l with
  | nil => exact List.not_mem_nil
  | cons b l =>
    rintro (_ | ⟨_, hmem⟩)
    · exact hhead rfl
    · exact htail hmem

/-- **An empty line is a line end behind another.** Without a pair of line feeds only the first line
    can be empty. -/
theorem nil_not_mem_tail (h : FeedsOnly cs) (hpair : ¬ ['\n', '\n'] <:+: cs) :
    [] ∉ (linesOfText cs).tail := by
  induction cs with
  | nil => exact List.not_mem_nil
  | cons c rest ih =>
    have hrest : FeedsOnly rest := fun hr => h (pair_infix_cons.mpr (.inr hr))
    rw [pair_infix_cons, not_or] at hpair
    rw [h.linesOfText_cons]
    split
    case isTrue hc =>
      -- the line behind a line feed is empty only where another one follows
      refine not_mem_of_tail (fun hhead => ?_) (ih hrest hpair.2)
      exact hpair.1 ⟨hc, hrest.head?_eq_nil hhead⟩
    case isFalse =>
      rw [tail_pushed]
      exact ih hrest hpair.2

/-- A line feed at the end of a text ends its last line. -/
theorem linesOfText_closed (hne : front ≠ []) (h : FeedsOnly (front ++ ['\n']))
    (hpair : ¬ ['\n', '\n'] <:+: front ++ ['\n']) :
    linesOfText (front ++ ['\n']) = linesOfText front := by
  induction front with
  | nil => exact absurd rfl hne
  | cons c front ih =>
    have hrest : FeedsOnly (front ++ ['\n']) := fun hr => h (pair_infix_cons.mpr (.inr hr))
    have hfront : FeedsOnly (c :: front) := h.of_append
    have hended : FeedsOnly (c :: (front ++ ['\n'])) := h
    rw [List.cons_append, pair_infix_cons, not_or] at hpair
    rw [List.cons_append, hfront.linesOfText_cons, hended.linesOfText_cons]
    cases front with
    | nil =>
      have hc : c ≠ '\n' := fun hc => hpair.1 ⟨hc, rfl⟩
      rw [if_neg hc, if_neg hc]
      rfl
    | cons d front => rw [ih (List.cons_ne_nil d front) hrest hpair.2]

/-! ## 4. Rows and names -/

namespace Applications

/-- The first column of every row. -/
def columns (rows : List (List Char)) : List String :=
  rows.map fun row => String.ofList (row.takeWhile (· ≠ ','))

/-- Whether a row gives a name: not the heading, not one that starts processes, not one with a
    bracket, and not the name of the row before. -/
def Stays (before : Option String) (name : String) : Prop :=
  name ≠ "name" ∧ name ∉ Hazard.names ∧ '[' ∉ name.toList ∧ before ≠ some name

instance (before : Option String) (name : String) : Decidable (Stays before name) :=
  inferInstanceAs (Decidable (_ ∧ _))

/-- **The names of rows that stay**, in their order, each judged by itself and the one before. -/
def kept (before : Option String) (names : List String) : List String :=
  (((before :: names.map some).zip names).filter fun row => Stays row.1 row.2).map Prod.snd

theorem stays_iff {before : Option String} {name : String} :
    Stays before name ↔ (offered name && decide (before ≠ some name)) = true := by
  unfold Stays offered
  simp [and_assoc]

theorem ofRows_cons (previous : Option String) (name : String) (rest : List String) :
    ofRows previous (name :: rest) =
      if Stays previous name then name :: ofRows (some name) rest else ofRows (some name) rest := by
  rw [ofRows]
  simp only [stays_iff]

/-- Rows are read one after another as each is judged by itself and the one before. -/
theorem ofRows_eq (before : Option String) (names : List String) :
    ofRows before names = kept before names := by
  induction names generalizing before with
  | nil => rfl
  | cons name rest ih =>
    unfold kept
    rw [ofRows_cons, ih, List.map_cons, List.zip_cons_cons, List.filter_cons]
    by_cases h : Stays before name
    · rw [if_pos h, if_pos (decide_eq_true h)]
      rfl
    · rw [if_neg h, if_neg (by simpa using h)]
      rfl

/-- Further rows change nothing about those in front. -/
theorem kept_prefix (before : Option String) (names others : List String) :
    kept before names <+: kept before (names ++ others) := by
  rw [← ofRows_eq, ← ofRows_eq]
  induction names generalizing before with
  | nil => exact List.nil_prefix
  | cons name rest ih =>
    rw [List.cons_append, ofRows_cons, ofRows_cons]
    split
    · exact (List.prefix_cons_inj name).mpr (ih _)
    · exact ih _

/-- The lines that hold something. -/
def filled (lines : List (List Char)) : List (List Char) := lines.filter fun line => !line.isEmpty

/-- The lines before the first empty one. -/
def leading (lines : List (List Char)) : List (List Char) :=
  lines.takeWhile fun line => !line.isEmpty

theorem names_ofShown_eq (output : String) :
    (ofShown output).names =
      kept .none (columns (filled (linesOfText (firstBlock output.toList)))) :=
  ofRows_eq Option.none _

theorem holds_of_not_mem {lines : List (List Char)} (h : [] ∉ lines) :
    ∀ line ∈ lines, (!line.isEmpty) = true := by
  rintro (_ | ⟨c, line⟩) hline
  · exact absurd hline h
  · rfl

theorem filled_of_not_mem {lines : List (List Char)} (h : [] ∉ lines) : filled lines = lines :=
  List.filter_eq_self.mpr (holds_of_not_mem h)

theorem leading_of_not_mem {lines : List (List Char)} (h : [] ∉ lines) : leading lines = lines :=
  List.takeWhile_eq_self_iff.mpr (holds_of_not_mem h)

theorem leading_append_nil {lines : List (List Char)} (h : [] ∉ lines)
    (others : List (List Char)) : leading (lines ++ [] :: others) = lines := by
  unfold leading
  rw [List.takeWhile_append_of_pos (holds_of_not_mem h)]
  simp

/-- The lines before the first empty one stand in front of all that hold something. -/
theorem leading_prefix_filled (lines : List (List Char)) : leading lines <+: filled lines := by
  induction lines with
  | nil => exact List.nil_prefix
  | cons line lines ih =>
    cases line with
    | nil => exact List.nil_prefix
    | cons c line => exact (List.prefix_cons_inj (c :: line)).mpr ih

/-! ## 5. What a listing gives -/

/-- **With line feeds alone a block ends at its first empty line.** -/
theorem filled_firstBlock (h : FeedsOnly cs) (hfirst : (linesOfText cs).head? ≠ some []) :
    filled (linesOfText (firstBlock cs)) = leading (linesOfText cs) := by
  by_cases hpair : ['\n', '\n'] <:+: cs
  · obtain ⟨front, back, rfl, hfront⟩ := exists_first_pair hpair
    have hfeeds : FeedsOnly (front ++ ['\n']) := by
      rw [← List.singleton_append, ← List.append_assoc] at h
      exact h.of_append
    have hne : front ≠ [] := by
      rintro rfl
      exact hfirst (by simp [linesOfText_cons])
    have hlines : linesOfText (front ++ '\n' :: '\n' :: back) =
        linesOfText front ++ [] :: linesOfText back := by
      rw [linesOfText_append, linesOfText_closed hne hfeeds hfront, linesOfText_cons, if_pos rfl]
    have hmem : [] ∉ linesOfText front := by
      refine not_mem_of_tail (fun hhead => hfirst ?_)
        (nil_not_mem_tail hfeeds.of_append fun hp => hfront (hp.trans (List.infix_append' [] _ _)))
      rw [hlines, List.head?_append, hhead]
      rfl
    rw [firstBlock_of_pair hfront, hlines, filled_of_not_mem hmem, leading_append_nil hmem]
  · have hmem := not_mem_of_tail hfirst (nil_not_mem_tail h hpair)
    rw [firstBlock_of_no_pair hpair, filled_of_not_mem hmem, leading_of_not_mem hmem]

/-- **Which names a listing gives.** Where lines end in line feeds, these are the names of the lines
    before the first empty one. Where lines end in carriage return and line feed, they are the names
    of all lines that hold something, and those of the first block are only the beginning. With both
    in one text it is the first pair of line feeds that counts. -/
theorem names_ofShown {output : String} (hfirst : (linesOfText output.toList).head? ≠ some []) :
    let names := (ofShown output).names
    let lines := linesOfText output.toList
    (FeedsOnly output.toList → names = kept .none (columns (leading lines))) ∧
    (ReturnsOnly output.toList →
      names = kept .none (columns (filled lines)) ∧
      kept .none (columns (leading lines)) <+: names) ∧
    (∀ front back, output.toList = front ++ '\n' :: '\n' :: back →
      ¬ ['\n', '\n'] <:+: front ++ ['\n'] →
        names = kept .none (columns (filled (linesOfText front)))) ∧
    (¬ ['\n', '\n'] <:+: output.toList → names = kept .none (columns (filled lines))) := by
  intro names lines
  have hnames : names = _ := names_ofShown_eq output
  have hwhole (hpair : ¬ ['\n', '\n'] <:+: output.toList) :
      names = kept .none (columns (filled lines)) := by
    rw [hnames, firstBlock_of_no_pair hpair]
  refine ⟨fun hfeeds => ?_, fun hreturns => ⟨hwhole hreturns.no_pair, ?_⟩, ?_, hwhole⟩
  · rw [hnames, filled_firstBlock hfeeds hfirst]
  · rw [hwhole hreturns.no_pair]
    obtain ⟨others, hothers⟩ := leading_prefix_filled lines
    rw [← hothers]
    unfold columns
    rw [List.map_append]
    exact kept_prefix .none _ _
  · intro front back hcs hfront
    rw [hnames, hcs, firstBlock_of_pair hfront]

/-- A listing with line feeds, and the block that ends it. -/
def shownFeeds : String := "name,description\nanswer,Answer\n\n1 total.\n"

/-- The same listing with carriage returns. -/
def shownReturns : String := "name,description\r\nanswer,Answer\r\n\r\n1 total.\r\n"

theorem returnsOnly_shownReturns : ReturnsOnly shownReturns.toList := by decide +kernel

theorem names_shownReturns :
    kept .none (columns (filled (linesOfText shownReturns.toList))) = ["answer", "1 total."] := by
  decide +kernel

theorem names_ofShown_answer :
    ((linesOfText shownFeeds.toList).head? ≠ some [] ∧ FeedsOnly shownFeeds.toList ∧
      (ofShown shownFeeds).names = ["answer"]) ∧
    (linesOfText shownReturns.toList).head? ≠ some [] ∧ ReturnsOnly shownReturns.toList ∧
      (ofShown shownReturns).names = ["answer", "1 total."] := by
  have hfeeds : (linesOfText shownFeeds.toList).head? ≠ some [] := by decide +kernel
  have hreturns : (linesOfText shownReturns.toList).head? ≠ some [] := by decide +kernel
  have hf : FeedsOnly shownFeeds.toList := by decide +kernel
  have hr := returnsOnly_shownReturns
  refine ⟨⟨hfeeds, hf, ?_⟩, hreturns, hr, ?_⟩
  · rw [(names_ofShown hfeeds).1 hf]
    decide +kernel
  · rw [((names_ofShown hreturns).2.1 hr).1, names_shownReturns]

/-- **A footer is read as a name** where lines end in carriage return and line feed. -/
theorem footer_offered :
    (linesOfText shownReturns.toList).head? ≠ some [] ∧ ReturnsOnly shownReturns.toList ∧
      kept .none (columns (leading (linesOfText shownReturns.toList))) = ["answer"] ∧
      (ofShown shownReturns).names = ["answer", "1 total."] := by
  have hr := returnsOnly_shownReturns
  refine ⟨by decide +kernel, hr, by decide +kernel, ?_⟩
  rw [names_ofShown_eq, firstBlock_of_no_pair hr.no_pair, names_shownReturns]

end Applications

end Dialplan
