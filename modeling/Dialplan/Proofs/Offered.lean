import Dialplan.Applications
import Dialplan.Markup.Printing
import Dialplan.Proofs.Clean
import Mathlib
/-!
# What is offered and what is refused

The names that the switch lists are offered for actions, but not those of dangerous applications. The
scan does not look at names but at the text in which a name ends up, so it also sees what stands
inside of a name and what the root says.

* `Applications.mem_ofShown`: where an offered name comes from;
* `clean_printed`: a rule set with one action is clean if its root and the name in the action are;
* `scan_of_offered`: **which of the offered names the scan refuses**.
-/

namespace Dialplan

open Dialplan.Text

/-! ## 1. Offered names -/

/-- A line holds characters of the text, and no line end. -/
theorem mem_linesOfText {cs line : List Char} (h : line ∈ linesOfText cs) :
    ∀ c ∈ line, c ∈ cs ∧ c ≠ '\n' := by
  fun_induction linesOfText cs generalizing line with
  | case1 => exact absurd h List.not_mem_nil
  | case2 rest ih =>
    rcases List.mem_cons.mp h with rfl | h
    · exact fun c hc => absurd hc List.not_mem_nil
    · exact fun c hc => (ih h c hc).imp_left (List.mem_cons_of_mem _)
  | case3 rest ih =>
    rcases List.mem_cons.mp h with rfl | h
    · exact fun c hc => absurd hc List.not_mem_nil
    · exact fun c hc => (ih h c hc).imp_left
        fun hc => List.mem_cons_of_mem _ (List.mem_cons_of_mem _ hc)
  | case4 d hd =>
    rw [List.mem_singleton.mp h, List.forall_mem_singleton]
    exact ⟨List.mem_cons_self, hd⟩
  | case5 d rest hd _ first others hlines hne ih =>
    rw [hlines] at h ih
    cases rest with
    | nil => exact absurd rfl hne
    | cons e rest =>
      rcases List.mem_cons.mp h with rfl | h
      · refine List.forall_mem_cons.mpr ⟨⟨List.mem_cons_self, hd⟩, fun c hc => ?_⟩
        exact (ih List.mem_cons_self c hc).imp_left (List.mem_cons_of_mem _)
      · exact fun c hc => (ih (List.mem_cons_of_mem _ h) c hc).imp_left (List.mem_cons_of_mem _)
  | case6 d rest hd _ hlines hne =>
    rw [hlines] at h
    cases rest with
    | nil => exact absurd rfl hne
    | cons e rest =>
      rw [List.mem_singleton.mp h, List.forall_mem_singleton]
      exact ⟨List.mem_cons_self, hd⟩

theorem mem_firstBlock {cs : List Char} {c : Char} (h : c ∈ firstBlock cs) : c ∈ cs := by
  fun_induction firstBlock cs with
  | case1 => exact absurd h List.not_mem_nil
  | case2 d rest _ ih =>
    rcases List.mem_cons.mp h with rfl | h
    · exact List.mem_cons_self
    · exact List.mem_cons_of_mem _ (ih h)
  | case3 => exact h

namespace Applications

theorem mem_ofRows {previous : Option String} {rows : List String} {name : String}
    (h : name ∈ ofRows previous rows) : name ∈ rows ∧ offered name = true := by
  induction rows generalizing previous with
  | nil => exact absurd h List.not_mem_nil
  | cons row rows ih =>
    simp only [ofRows] at h
    split at h
    · rename_i hrow
      rcases List.mem_cons.mp h with rfl | h
      · exact ⟨List.mem_cons_self, (Bool.and_eq_true_iff.mp hrow).1⟩
      · exact (ih h).imp_left (List.mem_cons_of_mem _)
    · exact (ih h).imp_left (List.mem_cons_of_mem _)

/-- **An offered name is made of characters of a line**, and is none of the names left out. -/
theorem mem_ofShown {output name : String} (h : name ∈ (ofShown output).names) :
    offered name = true ∧ ∀ c ∈ name.toList, c ∈ output.toList ∧ c ≠ '\n' := by
  obtain ⟨hrow, hoffered⟩ := mem_ofRows h
  refine ⟨hoffered, fun c hc => ?_⟩
  obtain ⟨row, hline, rfl⟩ := List.mem_map.mp hrow
  rw [String.toList_ofList] at hc
  have hmem := mem_linesOfText (List.mem_filter.mp hline).1 c
    ((List.takeWhile_sublist _).subset hc)
  exact hmem.imp_left mem_firstBlock

theorem not_mem_of_offered {name : String} (h : offered name = true) : name ∉ Hazard.names := by
  unfold offered at h
  rw [Bool.and_eq_true, Bool.and_eq_true, Bool.not_eq_true'] at h
  intro hmem
  rw [List.contains_iff_mem.mpr hmem] at h
  cases h.1.2

end Applications

/-! ## 2. Rule sets with one action -/

/-- A rule set that consists of its root. -/
def Tree.ofRoot (root : Label) (issued : Nat) : Tree := ⟨⟨.extension, root, []⟩, issued⟩

/-- A rule set that consists of its root and an action. -/
def Tree.ofAction (root action : Label) (issued : Nat) : Tree :=
  ⟨⟨.extension, root, [.leaf .action action]⟩, issued⟩

/-- The label of an action that names its application and nothing else. -/
def Label.naming (application : String) (id : NodeId) (enabled : Bool) : Label :=
  ⟨id, ⟨[("application", application)]⟩, enabled⟩

namespace Hazard

open Markup

/-- What stands before the value in the line of the action. -/
def actionFront (indent : String) : List Char :=
  '\n' :: (indent.toList ++ ('<' :: ("action".toList ++ (' ' :: ("application".toList ++ ['='])))))

/-- What stands behind it, up to the end of the tag. -/
def actionBack (enabled : Bool) : List Char :=
  (if enabled then [] else attributeText ("enabled", "false")) ++ ['/']

theorem toList_print_ofRoot (indent : String) (root : Label) (issued : Nat) :
    (print indent (.ofRoot root issued)).toList =
      startTag .extension root ++ '>' :: endTag .extension := by
  simp [print, printChars, Tree.ofRoot]

theorem toList_print_ofAction (indent : String) (root : Label) (application : String) (id : NodeId)
    (enabled : Bool) (issued : Nat) :
    (print indent (.ofAction root (.naming application id enabled) issued)).toList =
      startTag .extension root ++ '>' :: (actionFront indent ++
        '"' :: (escapeChars application.toList ++ '"' :: actionBack enabled) ++
          '>' :: '\n' :: endTag .extension) := by
  simp [print, printChars, Tree.ofAction, nodesText, nodeText, indentation, startTag, Label.naming,
    attributeText, actionFront, actionBack, Kind.tag, Kind.text]
  rfl

/-! ## 3. Names in rule sets -/

theorem actionFront_plain {indent : String}
    (h : ∀ c ∈ indent.toList, isQuote c = false ∧ c ≠ '\x7b') :
    ∀ c ∈ actionFront indent, isQuote c = false ∧ c ≠ '\x7b' := by
  refine List.forall_mem_cons.mpr ⟨⟨rfl, by decide⟩, List.forall_mem_append.mpr ⟨h, ?_⟩⟩
  simp [isQuote]

theorem close_mem_actionBack (enabled : Bool) : '>' ∈ line (actionBack enabled ++ ['>']) := by
  cases enabled <;> decide

theorem clean_actionBack (enabled : Bool) : Clean ('"' :: (actionBack enabled ++ ['>'])) := by
  have hscan : scan (String.ofList ('"' :: (actionBack enabled ++ ['>']))) = [] := by
    cases enabled
    · cbv
    · cbv
  rwa [scan_eq_nil_iff_clean, String.toList_ofList] at hscan

theorem isQuote_escapeChars {cs : List Char} (h : ∀ c ∈ cs, isQuote c = false) :
    ∀ c ∈ escapeChars cs, isQuote c = false := by
  intro d hd
  obtain ⟨c, hc, hdc⟩ := List.mem_flatMap.mp hd
  have hchar : ∀ d ∈ escapeChar c, isQuote d = false := by
    unfold escapeChar
    split
    case h_5 => exact List.forall_mem_singleton.mpr (h c hc)
    all_goals simp [isQuote]
  exact hchar d hdc

/-- The value in the line of the action, with the quotes around it. -/
theorem clean_named {name : List Char} (h : ∀ c ∈ name, isQuote c = false) (enabled : Bool) :
    Clean ('"' :: (escapeChars name ++ '"' :: (actionBack enabled ++ ['>']))) ↔
      ¬ Spelled name ∧ ¬ Expands name := by
  rw [clean_value (isQuote_escapeChars h) (close_mem_actionBack enabled) (clean_actionBack enabled),
    spelled_escapeChars, expands_escapeChars]

/-- **A rule set with one action is clean** if its root is, and the name in the action is no
    dangerous one and has none after a brace. -/
theorem clean_printed {indent name : String} (hi : ∀ c ∈ indent.toList, isQuote c = false ∧ c ≠ '\x7b')
    (hname : ∀ c ∈ name.toList, isQuote c = false) (root : Label) (id : NodeId) (enabled : Bool)
    (issued : Nat) :
    Clean (print indent (.ofAction root (.naming name id enabled) issued)).toList ↔
      Clean (print indent (.ofRoot root issued)).toList ∧
        ¬ Spelled name.toList ∧ ¬ Expands name.toList := by
  have hend : ∀ c ∈ '\n' :: endTag .extension, isQuote c = false ∧ c ≠ '\x7b' := by
    simp [isQuote, endTag, Kind.tag, Kind.text]
  have hroot : Clean (print indent (.ofRoot root issued)).toList ↔
      Clean (startTag .extension root ++ ['>']) := by
    rw [toList_print_ofRoot]
    exact clean_append_plain fun c hc => hend c (List.mem_cons_of_mem _ hc)
  have haction : Clean (actionFront indent ++ '"' :: (escapeChars name.toList ++
      '"' :: actionBack enabled) ++ '>' :: '\n' :: endTag .extension) ↔
      ¬ Spelled name.toList ∧ ¬ Expands name.toList := by
    rw [clean_append_plain hend, ← clean_named hname enabled]
    simp only [List.append_assoc, List.cons_append]
    exact clean_append_of_plain (actionFront_plain hi)
  rw [toList_print_ofAction, clean_append_close, hroot, haction]

/-- **Which of the offered names the scan refuses.** The listing has no quotes, and a name that is a
    dangerous one but for case is spelled like it: then the scan finds something in a rule set with
    one action of an offered name exactly if it finds something in the root alone, or the name has a
    dangerous one after a brace. -/
theorem scan_of_offered {output name indent : String}
    (hquotes : ∀ c ∈ output.toList, isQuote c = false)
    (hname : name ∈ (Applications.ofShown output).names)
    (hcase : Spelled name.toList → name ∈ names)
    (hindent : ∀ c ∈ indent.toList, isQuote c = false ∧ c ≠ '\x7b')
    (root : Label) (id : NodeId) (enabled : Bool) (issued : Nat) :
    scan (print indent (.ofAction root (.naming name id enabled) issued)) = [] ↔
      scan (print indent (.ofRoot root issued)) = [] ∧ ¬ Expands name.toList := by
  obtain ⟨hoffered, hchars⟩ := Applications.mem_ofShown hname
  have hplain : ∀ c ∈ name.toList, isQuote c = false := fun c hc => hquotes c (hchars c hc).1
  have hspelled : ¬ Spelled name.toList := fun h =>
    Applications.not_mem_of_offered hoffered (hcase h)
  rw [scan_eq_nil_iff_clean, scan_eq_nil_iff_clean,
    clean_printed hindent hplain root id enabled issued, and_iff_right hspelled]

/-- A listing of the switch. The first of its names is left out, the second one begins like it, and
    the third one has it after a brace. -/
def shownApplications : String :=
  "name,description\nsystem,Execute a command\nsystems,\na\x7bsystem,\n"

theorem names_shownApplications :
    (Applications.ofShown shownApplications).names = ["systems", "a\x7bsystem"] := by
  unfold shownApplications
  cbv

theorem shownApplications_plain : ∀ c ∈ shownApplications.toList, isQuote c = false := by
  simp [shownApplications, isQuote]

/-- The root of a rule set with a name. -/
def rootCalled (name : String) : Label := ⟨⟨1⟩, ⟨[("name", name), ("continue", "false")]⟩, true⟩

theorem scan_of_offered_systems :
    (∀ c ∈ shownApplications.toList, isQuote c = false) ∧
      "systems" ∈ (Applications.ofShown shownApplications).names ∧
      (Spelled "systems".toList → "systems" ∈ names) ∧
      (∀ c ∈ "\t".toList, isQuote c = false ∧ c ≠ '\x7b') ∧
      scan (print "\t" (.ofAction (rootCalled "test") (.naming "systems" ⟨2⟩ true) 2)) = [] := by
  have hname : "systems" ∈ (Applications.ofShown shownApplications).names := by
    rw [names_shownApplications]
    exact List.mem_cons_self
  have hcase : Spelled "systems".toList → "systems" ∈ names := by
    rintro ⟨name, hn, hs⟩
    revert name
    unfold Spells
    decide
  have hindent : ∀ c ∈ "\t".toList, isQuote c = false ∧ c ≠ '\x7b' := by simp [isQuote]
  have hbrace : ¬ Expands "systems".toList := by
    rw [← List.append_nil "systems".toList, expands_append_of_plain (by simp)]
    exact not_expands_nil
  have hroot : scan (print "\t" (.ofRoot (rootCalled "test") 2)) = [] := by cbv
  exact ⟨shownApplications_plain, hname, hcase, hindent,
    (scan_of_offered shownApplications_plain hname hcase hindent (rootCalled "test") ⟨2⟩ true 2).mpr
      ⟨hroot, hbrace⟩⟩

theorem scan_braced :
    (scan (print "\t" (.ofAction (rootCalled "test") (.naming "a\x7bsystem" ⟨2⟩ true) 2))).map
      (fun f => f.message) = ["'system' is not allowed in a dialplan"] := by
  cbv

theorem scan_rootCalled :
    (scan (print "\t" (.ofAction (rootCalled "spawn") (.naming "systems" ⟨2⟩ true) 2))).map
      (fun f => f.message) = ["'spawn' is not allowed in a dialplan"] := by
  cbv

/-- **An offered name does not keep the scan quiet**: not where a dangerous one stands after a brace
    in it, and not where the root names one itself. -/
theorem offered_refused :
    (∀ c ∈ shownApplications.toList, isQuote c = false) ∧
      (Applications.ofShown shownApplications).names = ["systems", "a\x7bsystem"] ∧
      scan (print "\t" (.ofAction (rootCalled "test") (.naming "a\x7bsystem" ⟨2⟩ true) 2)) ≠ [] ∧
      scan (print "\t" (.ofAction (rootCalled "spawn") (.naming "systems" ⟨2⟩ true) 2)) ≠ [] := by
  refine ⟨shownApplications_plain, names_shownApplications, fun h => ?_, fun h => ?_⟩
  · have hfound := scan_braced
    rw [h] at hfound
    cases hfound
  · have hfound := scan_rootCalled
    rw [h] at hfound
    cases hfound

end Hazard

end Dialplan
