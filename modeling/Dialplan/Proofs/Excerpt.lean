import Dialplan.Markup.Excerpt
import Dialplan.Proofs.JsonText
import Dialplan.Proofs.Offsets
import Mathlib
/-!
# The place that a report shows

A fault carries a byte offset and a report counts in characters. The number that the report takes
for that of a character is the offset itself, so it shows the place of the fault where every
character in front takes one byte, and elsewhere another place, or none.

* `LineAt`: the last line that starts at or before a character;
* `exists_lineAt`: the line that a report picks is that one;
* `report_of_lt`, `report_of_le`: what a report shows of an offset;
* `showsPlace_iff_of_read`: **a report shows the place of its fault exactly where the characters in
  front of it take one byte each.**
-/

namespace Dialplan.Markup

open Dialplan.Text

/-! ## 1. Lines -/

theorem flatten_consLine (c : Char) (ls : List (List Char)) :
    (consLine c ls).flatten = c :: ls.flatten := by
  cases ls <;> rfl

/-- The lines of a text are the whole text. -/
theorem flatten_linesOf (cs : List Char) : (linesOf cs).flatten = cs := by
  fun_induction linesOf cs with
  | case1 => rfl
  | case2 rest ih => rw [List.flatten_cons, ih]; rfl
  | case3 c rest _ _ ih => rw [List.flatten_cons, ih]; rfl
  | case4 c rest _ _ ih => rw [flatten_consLine, ih]

/-- **The last line that starts at or before a character**, and the lines in front of it. -/
structure LineAt (text : List Char) (place : Nat) (earlier : List (List Char)) (line : List Char) :
    Prop where
  isLine : ∃ later, linesOf text = earlier ++ line :: later
  starts : earlier.flatten.length ≤ place
  last : ∀ front other later, linesOf text = front ++ other :: later →
    front.flatten.length ≤ place → front.length ≤ earlier.length

section

variable {text line line' : List Char} {earlier earlier' : List (List Char)} {place : Nat}

theorem LineAt.ne_nil (h : LineAt text place earlier line) : text ≠ [] := by
  rintro rfl
  obtain ⟨later, hlines⟩ := h.isLine
  exact List.append_ne_nil_of_right_ne_nil _ (List.cons_ne_nil _ _) hlines.symm

/-- The last line that starts at or before a character reaches over it, or to the end of the text. -/
theorem LineAt.reaches (h : LineAt text place earlier line) :
    min (place + 1) text.length ≤ earlier.flatten.length + line.length := by
  obtain ⟨later, hlines⟩ := h.isLine
  cases later with
  | nil =>
    have htext := flatten_linesOf text
    rw [hlines, List.flatten_append, List.flatten_singleton] at htext
    rw [← List.length_append, htext]
    exact min_le_right _ _
  | cons other later =>
    have hsplit : linesOf text = (earlier ++ [line]) ++ other :: later := by
      rw [hlines, List.append_assoc]
      rfl
    -- the next line starts behind the character
    have hnext : ¬ (earlier ++ [line]).flatten.length ≤ place := fun hfront => by
      have hlast := h.last _ _ _ hsplit hfront
      rw [List.length_append, List.length_singleton] at hlast
      omega
    rw [List.flatten_append, List.flatten_singleton, List.length_append] at hnext
    omega

/-- There is one such line only. -/
theorem LineAt.unique (h : LineAt text place earlier line) (h' : LineAt text place earlier' line') :
    earlier = earlier' ∧ line = line' := by
  obtain ⟨later, hlines⟩ := h.isLine
  obtain ⟨later', hlines'⟩ := h'.isLine
  have hlength : earlier.length = earlier'.length :=
    Nat.le_antisymm (h'.last _ _ _ hlines h.starts) (h.last _ _ _ hlines' h'.starts)
  obtain ⟨rfl, hrest⟩ := List.append_inj (hlines.symm.trans hlines') hlength
  exact ⟨rfl, (List.cons.inj hrest).1⟩

/-- A row and a column are those of one character only. -/
theorem LineAt.place_inj {place' : Nat} (h : LineAt text place earlier line)
    (h' : LineAt text place' earlier' line') (hrow : earlier.length = earlier'.length)
    (hcolumn : place - earlier.flatten.length = place' - earlier'.flatten.length) :
    place = place' := by
  obtain ⟨later, hlines⟩ := h.isLine
  obtain ⟨later', hlines'⟩ := h'.isLine
  obtain ⟨rfl, -⟩ := List.append_inj (hlines.symm.trans hlines') hrow
  have hstart := h.starts
  have hstart' := h'.starts
  omega

end

section

variable {index offset place : Nat} {ls : List (List Char)} {l : Line}

/-- What the last line says that starts at or before a character. -/
theorem line_of_numbered
    (h : ((numbered index offset ls).takeWhile fun l => l.offset ≤ place).getLast? = some l) :
    ∃ earlier later, ls = earlier ++ l.chars :: later ∧ l.index = index + earlier.length ∧
      l.offset = offset + earlier.flatten.length ∧ l.offset ≤ place ∧
      (later ≠ [] → place < l.offset + l.chars.length) := by
  induction ls generalizing index offset with
  | nil => cases h
  | cons first rest ih =>
    by_cases hfirst : offset ≤ place
    · rw [numbered, List.takeWhile_cons_of_pos (by simpa using hfirst), List.getLast?_cons] at h
      cases hrest : ((numbered (index + 1) (offset + first.length) rest).takeWhile
          fun l => l.offset ≤ place).getLast? with
      | none =>
        rw [hrest] at h
        cases h
        refine ⟨[], rest, rfl, rfl, rfl, hfirst, fun hne => ?_⟩
        obtain ⟨second, more, rfl⟩ := List.exists_cons_of_ne_nil hne
        by_contra hle
        rw [numbered, List.takeWhile_cons_of_pos (by simpa using hle)] at hrest
        simp at hrest
      | some l' =>
        rw [hrest] at h
        cases h
        obtain ⟨earlier, later, rfl, hindex, hoffset, hle, hlater⟩ := ih hrest
        refine ⟨first :: earlier, later, rfl, ?_, ?_, hle, hlater⟩
        · rw [hindex, List.length_cons]
          omega
        · rw [hoffset, List.flatten_cons, List.length_append]
          omega
    · rw [numbered, List.takeWhile_cons_of_neg (by simpa using hfirst)] at h
      cases h

end

section

variable {text line : List Char} {earlier : List (List Char)} {place : Nat}

/-- **The line that a report picks is the last one that starts at or before the character.** -/
theorem exists_lineAt (hne : text ≠ []) (place : Nat) : ∃ earlier line,
    LineAt text place earlier line ∧
      lineAt? text place = some ⟨earlier.length, earlier.flatten.length, line⟩ := by
  cases hl : lineAt? text place with
  | none =>
    -- the first line starts before every character
    refine absurd (List.getLast?_eq_none_iff.mp hl) ?_
    cases hlines : linesOf text with
    | nil =>
      have htext := flatten_linesOf text
      rw [hlines] at htext
      exact absurd htext.symm hne
    | cons first rest =>
      rw [numbered, List.takeWhile_cons_of_pos (by simp)]
      exact List.cons_ne_nil _ _
  | some l =>
    obtain ⟨earlier, later, hlines, hindex, hoffset, hle, hlater⟩ := line_of_numbered hl
    rw [Nat.zero_add] at hindex hoffset
    refine ⟨earlier, l.chars, ⟨⟨later, hlines⟩, hoffset ▸ hle, ?_⟩, by rw [← hindex, ← hoffset]⟩
    intro front other more hsplit hfront
    by_contra hlt
    -- a later line starts behind the whole of this one
    rcases List.append_eq_append_iff.mp (hlines.symm.trans hsplit) with
      ⟨between, rfl, hbetween⟩ | ⟨between, rfl, -⟩
    · cases between with
      | nil => exact hlt (by rw [List.append_nil])
      | cons first between =>
        obtain ⟨rfl, rfl⟩ := List.cons.inj hbetween
        have hplace := hlater (List.append_ne_nil_of_right_ne_nil _ (List.cons_ne_nil _ _))
        rw [List.flatten_append, List.flatten_cons, List.length_append, List.length_append] at hfront
        omega
    · exact hlt (by rw [List.length_append]; omega)

theorem LineAt.lineAt_eq (h : LineAt text place earlier line) :
    lineAt? text place = some ⟨earlier.length, earlier.flatten.length, line⟩ := by
  obtain ⟨earlier', line', h', heq⟩ := exists_lineAt h.ne_nil place
  obtain ⟨rfl, rfl⟩ := h.unique h'
  exact heq

end

/-! ## 2. What a report shows -/

/-- The blanks in front of what stands below or above the number of a row. -/
def rowMargin (row : Nat) : List Char := List.replicate ((toString row).toList.length + 2) ' '

/-- The line of a report with the file, the row and the column. -/
def placeLine (filename : String) (row column : Nat) : List Char :=
  rowMargin row ++ '╭' :: '─' :: '[' :: (filename.toList ++ ':' :: ((toString row).toList ++
    ':' :: ((toString column).toList ++ [']', '\n'])))

/-- The lines below it, down to the source line, which is printed behind its row. -/
def sourceLines (row : Nat) (line : List Char) : List Char :=
  rowMargin row ++ ['│', '\n', ' '] ++ (toString row).toList ++ [' ', '│', ' '] ++
    cells 0 (trimEnd line) ++ ['\n']

/-- The first line of a report. -/
def headline (f : Fault) : String := "Error: " ++ f.message ++ "\n"

/-- **A report shows a place and its line**: behind the headline it names the row and the column,
    and then comes the line with its row. -/
def ShowsPlace (f : Fault) (source filename : String) (row column : Nat) (line : List Char) : Prop :=
  ∃ rest, (report f source filename).toList =
    (headline f).toList ++ (placeLine filename row column ++ (sourceLines row line ++ rest))

section

variable {f : Fault} {source filename : String} {column : Nat}

theorem placeLine_ne_nil (filename : String) (row column : Nat) :
    placeLine filename row column ≠ [] :=
  List.append_ne_nil_of_right_ne_nil _ (List.cons_ne_nil _ _)

/-- The digits of a number are neither of the marks that stand around it. -/
theorem not_mem_toString {c : Char} (hc : c.isDigit = false) (n : Nat) :
    c ∉ (toString n).toList := fun h => by
  have htext : (toString n).toList = Nat.toDigits 10 n := Nat.toList_repr
  rw [htext] at h
  rw [isDigit_toDigits h] at hc
  cases hc

theorem eq_of_toString {m n : Nat} (h : (toString m).toList = (toString n).toList) : m = n :=
  Nat.repr_inj.mp (String.toList_injective h)

/-- What stands in front of the first of a mark, and what behind it. -/
theorem append_mark_inj {c : Char} {a a' b b' : List Char} (ha : c ∉ a) (ha' : c ∉ a')
    (h : a ++ c :: b = a' ++ c :: b') : a = a' ∧ b = b' := by
  have hcut := (cutAt_eq_some_iff c _ a b).mpr ⟨rfl, ha⟩
  rw [(cutAt_eq_some_iff c _ a' b').mpr ⟨h, ha'⟩] at hcut
  cases hcut
  exact ⟨rfl, rfl⟩

/-- **A report names one row and one column.** -/
theorem placeLine_inj {row row' column' : Nat} {rest rest' : List Char}
    (h : placeLine filename row column ++ rest = placeLine filename row' column' ++ rest') :
    row = row' ∧ column = column' := by
  unfold placeLine rowMargin at h
  simp only [List.append_assoc, List.cons_append] at h
  have hblank : ∀ n, '╭' ∉ List.replicate n ' ' := fun n hm =>
    absurd (List.eq_of_mem_replicate hm) (by decide)
  obtain ⟨-, hplace⟩ := append_mark_inj (hblank _) (hblank _) h
  simp only [List.cons.injEq, true_and, List.append_cancel_left_eq] at hplace
  obtain ⟨hrow, hrest⟩ := append_mark_inj (not_mem_toString rfl _) (not_mem_toString rfl _) hplace
  obtain ⟨hcolumn, -⟩ := append_mark_inj (not_mem_toString rfl _) (not_mem_toString rfl _) hrest
  exact ⟨eq_of_toString hrow, eq_of_toString hcolumn⟩

/-- Behind the last character a report is over with its headline. -/
theorem report_of_lt (hpos : f.pos ≤ source.utf8ByteSize) (hlt : source.length < f.pos) :
    report f source filename = headline f := by
  have hstart : min f.pos (width source.toList) = f.pos := by
    rw [width_toList]
    omega
  rw [← String.length_toList] at hlt
  unfold report
  simp only [hstart]
  rw [if_pos hlt]
  rfl

variable {line : List Char} {earlier : List (List Char)}

/-- **Up to the end of the text a report names the place of the character that has the number**, and
    it prints the line if that goes on up to where the mark ends. -/
theorem report_of_le (filename : String) (hpos : f.pos ≤ source.utf8ByteSize)
    (hle : f.pos ≤ source.length) (hline : LineAt source.toList f.pos earlier line) : ∃ rest,
      (report f source filename).toList = (headline f).toList ++
        (placeLine filename (earlier.length + 1) (f.pos - earlier.flatten.length + 1) ++ rest) ∧
      (max (min (f.pos + 1) source.utf8ByteSize) f.pos ≤ earlier.flatten.length + line.length →
        ∃ more, rest = sourceLines (earlier.length + 1) line ++ more) := by
  have hstart : min f.pos (width source.toList) = f.pos := by
    rw [width_toList]
    omega
  rw [← String.length_toList] at hle
  unfold report
  simp only [hstart, hline.lineAt_eq]
  rw [if_neg (by omega)]
  unfold headline placeLine rowMargin
  simp only [String.toList_append, String.toList_ofList, List.append_assoc, List.cons_append,
    List.nil_append, List.append_cancel_left_eq]
  refine ⟨_, rfl, fun hstop => ?_⟩
  rw [width_toList, if_pos hstop]
  unfold marked sourceLines rowMargin
  simp only [List.append_assoc, List.cons_append, List.nil_append]
  exact ⟨_, rfl⟩

end

/-! ## 3. The place of a fault -/

/-- A character takes at least one byte. -/
theorem length_le_width (cs : List Char) : cs.length ≤ width cs := by
  induction cs with
  | nil => exact Nat.le_refl 0
  | cons c rest ih =>
    have hc := c.utf8Size_pos
    rw [width_cons, List.length_cons]
    omega

/-- There are as many bytes as characters only if each character takes one. -/
theorem width_eq_length_iff (cs : List Char) :
    width cs = cs.length ↔ ∀ c ∈ cs, c.utf8Size = 1 := by
  induction cs with
  | nil => simp
  | cons c rest ih =>
    have hc := c.utf8Size_pos
    have hrest := length_le_width rest
    refine Iff.trans ?_ (List.forall_mem_cons.trans (and_congr_right fun _ => ih.symm)).symm
    rw [width_cons, List.length_cons]
    omega

section

variable {f : Fault} {text before after filename : String}

/-- **The place of an offset is shown exactly where the characters in front take one byte each.** -/
theorem showsPlace_iff {line : List Char} {earlier : List (List Char)} (htext : text = before ++ after)
    (hpos : before.utf8ByteSize = f.pos) (hline : LineAt text.toList before.length earlier line) :
    ShowsPlace f text filename (earlier.length + 1) (before.length - earlier.flatten.length + 1) line ↔
      ∀ c ∈ before.toList, c.utf8Size = 1 := by
  have hbytes : text.utf8ByteSize = f.pos + after.utf8ByteSize := by
    rw [htext, String.utf8ByteSize_append, hpos]
  have hlength : text.length = before.length + after.length := by
    rw [htext, String.length_append]
  have hinside : f.pos ≤ text.utf8ByteSize := by omega
  have hne : text.toList ≠ [] := hline.ne_nil
  rw [← width_eq_length_iff, width_toList, String.length_toList, hpos]
  constructor
  · rintro ⟨rest, hshown⟩
    by_cases hle : f.pos ≤ text.length
    · -- the report names the character that has the offset for its number
      obtain ⟨earlier', line', hline', -⟩ := exists_lineAt hne f.pos
      obtain ⟨rest', hreport, -⟩ := report_of_le filename hinside hle hline'
      rw [hreport] at hshown
      obtain ⟨hrow, hcolumn⟩ := placeLine_inj (List.append_cancel_left hshown)
      exact hline'.place_inj hline (Nat.succ.inj hrow) (Nat.succ.inj hcolumn)
    · rw [report_of_lt hinside (Nat.lt_of_not_le hle)] at hshown
      exact absurd (List.self_eq_append_right.mp hshown)
        (List.append_ne_nil_of_left_ne_nil (placeLine_ne_nil _ _ _) _)
  · intro hascii
    have hmark : max (min (f.pos + 1) text.utf8ByteSize) f.pos ≤
        earlier.flatten.length + line.length := by
      have hreaches := hline.reaches
      rw [String.length_toList] at hreaches
      have hend : after.length = 0 → after.utf8ByteSize = 0 := fun h => by
        rw [String.length_eq_zero_iff.mp h]
        rfl
      omega
    rw [← hascii] at hline ⊢
    obtain ⟨rest, hreport, hrest⟩ := report_of_le filename hinside (by omega) hline
    obtain ⟨more, rfl⟩ := hrest hmark
    exact ⟨more, hreport⟩

/-- **The place of a fault.** A text that is not read has its fault behind some of its characters, and
    the report shows the place that comes behind so many characters, and its line, exactly where
    each of them takes one byte. -/
theorem showsPlace_iff_of_read (h : read text = .error f) (hne : text ≠ "") (filename : String) :
    ∃ before after earlier line, text = before ++ after ∧ before.utf8ByteSize = f.pos ∧
      LineAt text.toList before.length earlier line ∧
      (ShowsPlace f text filename (earlier.length + 1)
          (before.length - earlier.flatten.length + 1) line ↔
        ∀ c ∈ before.toList, c.utf8Size = 1) := by
  obtain ⟨before, after, htext, hpos⟩ :=
    String.Pos.Raw.isValid_iff_exists_append.mp (points_of_read h).boundary
  have hbytes : before.utf8ByteSize = f.pos := (congrArg String.Pos.Raw.byteIdx hpos).symm
  have hchars : text.toList ≠ [] := fun he => hne (String.toList_injective he)
  obtain ⟨earlier, line, hline, -⟩ := exists_lineAt hchars before.length
  exact ⟨before, after, earlier, line, htext, hbytes, hline, showsPlace_iff htext hbytes hline⟩

/-- A fault in the second line, with nothing but characters of one byte in front of it. -/
theorem showsPlace_iff_of_read_secondLine :
    (read "<extension\n name/>" = .error (.unexpectedToken 16 .equals "/>") ∧
      "<extension\n name/>" ≠ "") ∧
    ShowsPlace (.unexpectedToken 16 .equals "/>") "<extension\n name/>" "a.xml" 2 6 " name/>".toList := by
  have h : read "<extension\n name/>" = .error (.unexpectedToken 16 .equals "/>") := by cbv
  have hne : "<extension\n name/>" ≠ "" := by decide
  obtain ⟨before, after, earlier, line, htext, hpos, hline, hiff⟩ :=
    showsPlace_iff_of_read h hne "a.xml"
  have hall : ∀ c ∈ "<extension\n name/>".toList, c.utf8Size = 1 :=
    (width_eq_length_iff _).mp (by cbv)
  have hascii : ∀ c ∈ before.toList, c.utf8Size = 1 := fun c hc => by
    refine hall c ?_
    rw [htext, String.toList_append]
    exact List.mem_append_left _ hc
  have hcount : before.length = 16 := by
    rw [← String.length_toList, ← (width_eq_length_iff _).mpr hascii, width_toList, hpos]
    rfl
  have heq := hline.lineAt_eq
  rw [hcount] at heq
  have hsecond : lineAt? "<extension\n name/>".toList 16 = some ⟨1, 11, " name/>".toList⟩ := by cbv
  rw [hsecond] at heq
  obtain ⟨hrow, hstart, rfl⟩ := Line.mk.inj (Option.some.inj heq)
  have hshown := hiff.mpr hascii
  rw [← hrow, ← hstart, hcount] at hshown
  exact ⟨⟨h, hne⟩, hshown⟩

/-- **A report can show a place beside that of its fault**: behind 18 characters, of which one takes
    two bytes, it shows the place behind 19. -/
theorem exists_report_beside :
    ∃ before after f, read (before ++ after) = .error f ∧ before ++ after ≠ "" ∧
      before.utf8ByteSize = f.pos ∧ ∀ earlier line,
        LineAt (before ++ after).toList before.length earlier line →
        ¬ ShowsPlace f (before ++ after) "a.xml" (earlier.length + 1)
          (before.length - earlier.flatten.length + 1) line := by
  refine ⟨"<extension name=\"é", "&no;\"/>", .invalid 19 (.unknownReference "no"), by cbv,
    by decide, by decide, fun earlier line hline => ?_⟩
  have hfirst : lineAt? "<extension name=\"é&no;\"/>".toList 18 =
      some ⟨0, 0, "<extension name=\"é&no;\"/>".toList⟩ := by
    cbv
  obtain ⟨hrow, hstart, -⟩ := Line.mk.inj (Option.some.inj (hfirst.symm.trans hline.lineAt_eq))
  rw [← hrow, ← hstart]
  rintro ⟨rest, hshown⟩
  have hprefix : (headline (.invalid 19 (.unknownReference "no"))).toList ++
      placeLine "a.xml" 1 19 <+:
        (report (.invalid 19 (.unknownReference "no")) "<extension name=\"é&no;\"/>" "a.xml").toList :=
    ⟨_, (List.append_assoc ..).trans hshown.symm⟩
  revert hprefix
  decide +kernel

end

end Dialplan.Markup
