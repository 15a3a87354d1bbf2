import Dialplan.Markup.Entity
import Dialplan.Proofs.Hits
import Mathlib
/-!
# Texts in which nothing is found

Whether something is found in a text can be told from its pieces.

* `Clean`: a text without a dangerous name between quotes or after a brace;
* `clean_append_close`: **a text can be cut after any `>`**;
* `clean_value`: a value between quotes is clean if it is no name itself and has none after a brace;
* `spelled_escapeChars`, `expands_escapeChars`: references make no difference to that.
-/

namespace Dialplan.Hazard

open Dialplan.Text

variable {c m : Char} {cs front after u v : List Char}

/-! ## 1. Clean texts -/

/-- No place of the text has a dangerous name between quotes or after a brace. -/
def Clean (cs : List Char) : Prop := ∀ rest, rest <:+ cs → ¬ Quoted rest ∧ ¬ Braced rest

/-- These characters are a name but for case. -/
def Spelled (cs : List Char) : Prop := ∃ name ∈ names, Spells name.toList cs

/-- A name stands after a brace somewhere among these characters. -/
def Expands (cs : List Char) : Prop := ∃ rest, rest <:+ cs ∧ Braced rest

theorem scan_eq_nil_iff_clean (markup : String) : scan markup = [] ↔ Clean markup.toList :=
  scan_eq_nil markup

theorem not_quoted_nil : ¬ Quoted [] := by
  rintro ⟨q, shown, q', after, h, -⟩
  cases h

theorem not_braced_nil : ¬ Braced [] := by
  rintro ⟨shown, after, h, -⟩
  cases h

theorem clean_nil : Clean [] := by
  intro rest hr
  rw [List.suffix_nil.mp hr]
  exact ⟨not_quoted_nil, not_braced_nil⟩

theorem clean_cons : Clean (c :: cs) ↔ (¬ Quoted (c :: cs) ∧ ¬ Braced (c :: cs)) ∧ Clean cs := by
  constructor
  · intro h
    exact ⟨h _ (List.suffix_refl _), fun rest hr => h rest (hr.trans (List.suffix_cons c cs))⟩
  · rintro ⟨hfront, hrest⟩ rest hr
    rcases List.suffix_cons_iff.mp hr with rfl | hr
    · exact hfront
    · exact hrest rest hr

theorem not_expands_nil : ¬ Expands [] := by
  rintro ⟨rest, hr, hb⟩
  rw [List.suffix_nil.mp hr] at hb
  exact not_braced_nil hb

theorem expands_cons : Expands (c :: cs) ↔ Braced (c :: cs) ∨ Expands cs := by
  constructor
  · rintro ⟨rest, hr, hb⟩
    rcases List.suffix_cons_iff.mp hr with rfl | hr
    · exact .inl hb
    · exact .inr ⟨rest, hr, hb⟩
  · rintro (hb | ⟨rest, hr, hb⟩)
    · exact ⟨_, List.suffix_refl _, hb⟩
    · exact ⟨rest, hr.trans (List.suffix_cons c cs), hb⟩

/-! ## 2. What a place begins with -/

theorem isQuote_of_quoted (h : Quoted (c :: cs)) : isQuote c = true := by
  obtain ⟨q, shown, q', after, he, hq, -⟩ := h
  cases he
  exact hq

theorem eq_brace_of_braced (h : Braced (c :: cs)) : c = '\x7b' := by
  obtain ⟨shown, after, he, -⟩ := h
  exact (List.cons.inj he).1

/-- Characters that are no quote and no brace can be left out at the front. -/
theorem clean_append_of_plain (h : ∀ c ∈ front, isQuote c = false ∧ c ≠ '\x7b') :
    Clean (front ++ cs) ↔ Clean cs := by
  induction front with
  | nil => exact Iff.rfl
  | cons c front ih =>
    obtain ⟨hc, hfront⟩ := List.forall_mem_cons.mp h
    rw [List.cons_append, clean_cons, ih hfront, and_iff_right]
    refine ⟨fun hq => ?_, fun hb => hc.2 (eq_brace_of_braced hb)⟩
    rw [isQuote_of_quoted hq] at hc
    cases hc.1

theorem expands_append_of_plain (h : '\x7b' ∉ front) : Expands (front ++ cs) ↔ Expands cs := by
  induction front with
  | nil => exact Iff.rfl
  | cons c front ih =>
    rw [List.mem_cons, not_or] at h
    rw [List.cons_append, expands_cons, ih h.2, or_iff_right]
    exact fun hb => h.1 (eq_brace_of_braced hb).symm

/-- **A text whose front lacks a mark has the front before the first mark.** -/
theorem exists_of_not_mem (h : u ++ m :: v = front ++ after) (hm : m ∉ front) :
    ∃ more, u = front ++ more ∧ after = more ++ m :: v := by
  rcases List.append_eq_append_iff.mp h with ⟨more, rfl, hmore⟩ | ⟨more, rfl, rfl⟩
  · cases more with
    | nil => exact ⟨[], by rw [List.append_nil, List.append_nil], hmore.symm⟩
    | cons d more =>
      obtain ⟨rfl, -⟩ := List.cons.inj hmore
      exact absurd (List.mem_append_right u List.mem_cons_self) hm
  · exact ⟨more, rfl, rfl⟩

/-- A quoted name, with its quotes. -/
def Opens (front : List Char) : Prop :=
  ∃ q shown q', front = q :: (shown ++ [q']) ∧ isQuote q = true ∧ isQuote q' = true ∧ Spelled shown

theorem quoted_iff : Quoted cs ↔ ∃ front after, cs = front ++ after ∧ Opens front ∧
    '>' ∈ line after := by
  constructor
  · rintro ⟨q, shown, q', after, rfl, hq, hq', hs, hclose⟩
    exact ⟨q :: (shown ++ [q']), after, quoted_append q q' shown after,
      ⟨q, shown, q', rfl, hq, hq', hs⟩, hclose⟩
  · rintro ⟨-, after, rfl, ⟨q, shown, q', rfl, hq, hq', hs⟩, hclose⟩
    exact ⟨q, shown, q', after, (quoted_append q q' shown after).symm, hq, hq', hs, hclose⟩

theorem Spelled.not_mem (h : Spelled cs) (hc : c ∈ marks) : c ∉ cs := by
  obtain ⟨name, hn, hs⟩ := h
  exact not_mem_of_spells hn hs hc

theorem Opens.close_not_mem (h : Opens front) : '>' ∉ front := by
  obtain ⟨q, shown, q', rfl, hq, hq', hs⟩ := h
  exact not_mem_quoted hq hq' hs (by decide) rfl

/-! ## 3. Cuts -/

theorem line_cons (c : Char) (cs : List Char) :
    line (c :: cs) = if c = '\n' then [] else c :: line cs := by
  unfold line
  by_cases hc : c = '\n'
  · rw [if_pos hc, List.takeWhile_cons_of_neg (by simp [hc])]
  · rw [if_neg hc, List.takeWhile_cons_of_pos (by simp [hc])]

theorem close_mem_line_append (u v : List Char) :
    '>' ∈ line (u ++ '>' :: v) ↔ '>' ∈ line (u ++ ['>']) := by
  induction u with
  | nil => exact iff_of_true List.mem_cons_self List.mem_cons_self
  | cons c u ih =>
    rw [List.cons_append, List.cons_append, line_cons, line_cons]
    by_cases hc : c = '\n'
    · rw [if_pos hc, if_pos hc]
    · rw [if_neg hc, if_neg hc, List.mem_cons, List.mem_cons, ih]

/-- What starts in front of a `>` does not look behind it. -/
theorem quoted_append_close (u v : List Char) : Quoted (u ++ '>' :: v) ↔ Quoted (u ++ ['>']) := by
  rw [quoted_iff, quoted_iff]
  constructor
  · rintro ⟨front, after, he, ho, hclose⟩
    obtain ⟨more, rfl, rfl⟩ := exists_of_not_mem he ho.close_not_mem
    exact ⟨front, more ++ ['>'], List.append_assoc _ _ _, ho, (close_mem_line_append more v).mp hclose⟩
  · rintro ⟨front, after, he, ho, hclose⟩
    obtain ⟨more, rfl, rfl⟩ := exists_of_not_mem he ho.close_not_mem
    exact ⟨front, more ++ '>' :: v, List.append_assoc _ _ _, ho,
      (close_mem_line_append more v).mpr hclose⟩

/-- What a brace starts ends before the next mark. -/
theorem braced_append (hm : m ∈ marks) (hb : m ≠ '\x7b') (u v : List Char) :
    Braced (u ++ m :: v) ↔ Braced u := by
  constructor
  · rintro ⟨shown, after, he, hs⟩
    rw [← List.cons_append] at he
    have hfront : m ∉ '\x7b' :: shown := by
      rw [List.mem_cons, not_or]
      exact ⟨hb, Spelled.not_mem hs hm⟩
    obtain ⟨more, rfl, -⟩ := exists_of_not_mem he hfront
    exact ⟨shown, more, rfl, hs⟩
  · rintro ⟨shown, after, rfl, hs⟩
    exact ⟨shown, after ++ m :: v, by simp, hs⟩

/-- **A text can be cut after any `>`**: it is clean if both parts are. -/
theorem clean_append_close (u v : List Char) :
    Clean (u ++ '>' :: v) ↔ Clean (u ++ ['>']) ∧ Clean v := by
  have hclose : ∀ c ∈ ['>'], isQuote c = false ∧ c ≠ '\x7b' :=
    List.forall_mem_singleton.mpr ⟨rfl, by decide⟩
  induction u with
  | nil =>
    have hv : Clean ('>' :: v) ↔ Clean v := clean_append_of_plain hclose
    have hnil : Clean ['>'] ↔ Clean [] := clean_append_of_plain hclose
    exact hv.trans (and_iff_right (hnil.mpr clean_nil)).symm
  | cons c u ih =>
    have hquoted : Quoted (c :: (u ++ '>' :: v)) ↔ Quoted (c :: (u ++ ['>'])) :=
      quoted_append_close (c :: u) v
    have hbraced : Braced (c :: (u ++ '>' :: v)) ↔ Braced (c :: (u ++ ['>'])) :=
      (braced_append (u := c :: u) (by decide) (by decide) v).trans
        (braced_append (u := c :: u) (by decide) (by decide) []).symm
    calc Clean (c :: (u ++ '>' :: v))
        ↔ (¬ Quoted (c :: (u ++ '>' :: v)) ∧ ¬ Braced (c :: (u ++ '>' :: v))) ∧
            Clean (u ++ '>' :: v) := clean_cons
      _ ↔ (¬ Quoted (c :: (u ++ ['>'])) ∧ ¬ Braced (c :: (u ++ ['>']))) ∧
            Clean (u ++ ['>']) ∧ Clean v :=
          and_congr (and_congr (not_congr hquoted) (not_congr hbraced)) ih
      _ ↔ Clean (c :: (u ++ ['>'])) ∧ Clean v := by rw [← and_assoc, ← clean_cons]

/-- A text is cut as well where the first part has neither quotes nor braces behind it. -/
theorem clean_append_plain (h : ∀ c ∈ v, isQuote c = false ∧ c ≠ '\x7b') :
    Clean (u ++ '>' :: v) ↔ Clean (u ++ ['>']) := by
  have hv : Clean (v ++ []) := (clean_append_of_plain h).mpr clean_nil
  rw [List.append_nil] at hv
  exact (clean_append_close u v).trans (and_iff_left hv)

/-! ## 4. Values -/

/-- Two runs without quotes that end in a quote are the same. -/
theorem eq_of_quotes {q : Char} {a b x y : List Char} (h : a ++ m :: x = b ++ q :: y)
    (hm : m ∉ b) (hq : q ∉ a) : a = b := by
  obtain ⟨more, rfl, hmore⟩ := exists_of_not_mem h hm
  cases more with
  | nil => exact List.append_nil b
  | cons d more =>
    obtain ⟨rfl, -⟩ := List.cons.inj hmore
    exact absurd (List.mem_append_right b List.mem_cons_self) hq

variable {value tail : List Char}

theorem quoted_value_iff (hv : ∀ c ∈ value, isQuote c = false) (hclose : '>' ∈ line tail) :
    Quoted ('"' :: (value ++ '"' :: tail)) ↔ Spelled value := by
  constructor
  · rintro ⟨q, shown, q', after, he, -, hq', hs, -⟩
    obtain ⟨-, he⟩ := List.cons.inj he
    have hmark : '"' ∉ shown := Spelled.not_mem hs (by decide)
    have hquote : q' ∉ value := fun hmem => by
      rw [hv q' hmem] at hq'
      cases hq'
    rw [eq_of_quotes he hmark hquote]
    exact hs
  · intro hs
    exact ⟨'"', value, '"', tail, rfl, rfl, rfl, hs, hclose⟩

/-- **A value between quotes is clean** if it is no name itself and has none after a brace. -/
theorem clean_value (hv : ∀ c ∈ value, isQuote c = false) (hclose : '>' ∈ line tail)
    (htail : Clean ('"' :: tail)) :
    Clean ('"' :: (value ++ '"' :: tail)) ↔ ¬ Spelled value ∧ ¬ Expands value := by
  have hinner : Clean (value ++ '"' :: tail) ↔ ¬ Expands value := by
    clear hclose
    induction value with
    | nil => exact iff_of_true htail not_expands_nil
    | cons c value ih =>
      obtain ⟨hc, hvalue⟩ := List.forall_mem_cons.mp hv
      have hquoted : ¬ Quoted (c :: (value ++ '"' :: tail)) := fun hq => by
        rw [isQuote_of_quoted hq] at hc
        cases hc
      have hbraced : Braced (c :: (value ++ '"' :: tail)) ↔ Braced (c :: value) :=
        braced_append (u := c :: value) (by decide) (by decide) tail
      rw [List.cons_append, clean_cons, ih hvalue, hbraced, expands_cons, not_or,
        and_iff_right hquoted]
  have hbraced : ¬ Braced ('"' :: (value ++ '"' :: tail)) := fun hb => by
    cases eq_brace_of_braced hb
  rw [clean_cons, quoted_value_iff hv hclose, hinner, and_iff_left hbraced]

/-! ## 5. References -/

open Markup

/-- A character stands for itself, or is written as a reference, which starts with `&`. -/
theorem escapeChar_cases (c : Char) : escapeChar c = [c] ∨
    c ∈ marks ∧ c ≠ '\x7b' ∧ '\x7b' ∉ escapeChar c ∧ ∃ name, escapeChar c = '&' :: name := by
  unfold escapeChar
  split
  case h_5 => exact .inl rfl
  all_goals exact .inr ⟨by decide, by decide, by decide, _, rfl⟩

theorem escapeChars_cons (c : Char) (cs : List Char) :
    escapeChars (c :: cs) = escapeChar c ++ escapeChars cs := List.flatMap_cons

theorem escapeChars_append (a b : List Char) :
    escapeChars (a ++ b) = escapeChars a ++ escapeChars b := List.flatMap_append

/-- What a name is spelled with is written as it is. -/
theorem escapeChars_of_not_mem (h : ∀ c ∈ cs, c ∉ marks) : escapeChars cs = cs := by
  induction cs with
  | nil => rfl
  | cons c cs ih =>
    obtain ⟨hc, hcs⟩ := List.forall_mem_cons.mp h
    rw [escapeChars_cons, ih hcs]
    rcases escapeChar_cases c with he | ⟨hm, -⟩
    · rw [he]
      rfl
    · exact absurd hm hc

/-- What is written without a reference stands for itself. -/
theorem escapeChars_eq_of_not_mem (h : '&' ∉ escapeChars cs) : escapeChars cs = cs := by
  induction cs with
  | nil => rfl
  | cons c cs ih =>
    rw [escapeChars_cons, List.mem_append, not_or] at h
    rw [escapeChars_cons, ih h.2]
    rcases escapeChar_cases c with hc | ⟨-, -, -, name, hc⟩
    · rw [hc]
      rfl
    · rw [hc] at h
      exact absurd List.mem_cons_self h.1

/-- A front that has no marks is written like itself alone. -/
theorem exists_of_escapeChars_eq (h : ∀ c ∈ front, c ∉ marks) (he : escapeChars cs = front ++ after) :
    ∃ rest, cs = front ++ rest := by
  induction front generalizing cs with
  | nil => exact ⟨cs, rfl⟩
  | cons d front ih =>
    obtain ⟨hd, hfront⟩ := List.forall_mem_cons.mp h
    cases cs with
    | nil => cases he
    | cons c cs =>
      rw [escapeChars_cons] at he
      rcases escapeChar_cases c with hc | ⟨-, -, -, name, hc⟩
      · rw [hc] at he
        obtain ⟨rfl, hrest⟩ := List.cons.inj he
        obtain ⟨rest, rfl⟩ := ih hfront hrest
        exact ⟨rest, rfl⟩
      · rw [hc] at he
        obtain ⟨rfl, -⟩ := List.cons.inj he
        exact absurd (by decide) hd

theorem Spelled.plain (h : Spelled cs) : ∀ c ∈ cs, c ∉ marks := fun _ hc hm => h.not_mem hm hc

/-- **References make no difference to whether a value is a name.** -/
theorem spelled_escapeChars : Spelled (escapeChars cs) ↔ Spelled cs := by
  constructor
  · intro h
    rwa [escapeChars_eq_of_not_mem (h.not_mem (by decide))] at h
  · intro h
    rw [escapeChars_of_not_mem h.plain]
    exact h

/-- Nor to whether a name stands after a brace. -/
theorem braced_escapeChars : Braced ('\x7b' :: escapeChars cs) ↔ Braced ('\x7b' :: cs) := by
  constructor
  · rintro ⟨shown, after, he, hs⟩
    obtain ⟨-, he⟩ := List.cons.inj he
    obtain ⟨rest, rfl⟩ := exists_of_escapeChars_eq (Spelled.plain hs) he
    exact ⟨shown, rest, rfl, hs⟩
  · rintro ⟨shown, after, he, hs⟩
    obtain ⟨-, rfl⟩ := List.cons.inj he
    refine ⟨shown, escapeChars after, ?_, hs⟩
    rw [escapeChars_append, escapeChars_of_not_mem (Spelled.plain hs)]

theorem expands_escapeChars : Expands (escapeChars cs) ↔ Expands cs := by
  induction cs with
  | nil => exact Iff.rfl
  | cons c cs ih =>
    rw [escapeChars_cons, expands_cons]
    rcases escapeChar_cases c with hc | ⟨-, hne, hbrace, -⟩
    · rw [hc, List.singleton_append, expands_cons, ih]
      by_cases hb : c = '\x7b'
      · subst hb
        rw [braced_escapeChars]
      · have hno (rest : List Char) : ¬ Braced (c :: rest) := fun h => hb (eq_brace_of_braced h)
        rw [iff_false_intro (hno _), iff_false_intro (hno _)]
    · rw [expands_append_of_plain hbrace, ih, or_iff_right]
      exact fun h => hne (eq_brace_of_braced h)

end Dialplan.Hazard
