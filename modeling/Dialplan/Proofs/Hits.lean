import Dialplan.Proofs.Hazard
import Mathlib
/-!
# Which places are reported

A search goes on where the last hit ends, so what a hit takes hides the places inside it. A name after
a brace takes itself alone; a name between quotes takes the line through its last `>`.

* `quotedAt?_eq_some`, `bracedAt?_eq_some`: what a hit takes;
* `Reach`: how far the hits of one sort go;
* `Reach.mem_hits`: **a place is hit exactly if no place of its sort hides it**;
* `exists_finding_iff`: every name after a brace is reported, and of the names between quotes in one
  line the first.
-/

namespace Dialplan.Hazard

open Dialplan.Text

/-! ## 1. What a hit takes -/

/-- Characters that no name is spelled with. -/
def marks : List Char := ['\n', '"', '\'', '\x7b', '<', '>', '&']

theorem matchesChar_mark {name : String} {l c : Char} (hn : name ∈ names) (hl : l ∈ name.toList)
    (hc : c ∈ marks) : matchesChar l c = false := by
  have hall : (names.all fun name => name.toList.all fun l => marks.all fun c =>
      !matchesChar l c) = true := rfl
  simp only [List.all_eq_true, Bool.not_eq_true'] at hall
  exact hall name hn l hl c hc

theorem not_mem_of_spells {name : String} {shown : List Char} {c : Char} (hn : name ∈ names)
    (hs : Spells name.toList shown) (hc : c ∈ marks) : c ∉ shown := by
  intro hmem
  obtain ⟨i, hi, rfl⟩ := List.mem_iff_getElem.mp hmem
  have hl : i < name.toList.length := by rw [hs.length_eq]; exact hi
  have hm := (List.forall₂_iff_get.mp hs).2 i hl hi
  rw [List.get_eq_getElem, List.get_eq_getElem,
    matchesChar_mark hn (List.getElem_mem hl) hc] at hm
  cases hm

/-- A quoted name has no marks but its quotes. -/
theorem not_mem_quoted {q q' c : Char} {shown : List Char} (hq : isQuote q = true)
    (hq' : isQuote q' = true) (hs : ∃ name ∈ names, Spells name.toList shown) (hc : c ∈ marks)
    (hplain : isQuote c = false) : c ∉ q :: (shown ++ [q']) := by
  have hne {d : Char} (hd : isQuote d = true) : c ≠ d := by
    rintro rfl
    rw [hd] at hplain
    cases hplain
  obtain ⟨name, hn, hs⟩ := hs
  rw [List.mem_cons, List.mem_append, List.mem_singleton]
  rintro (e | e | e)
  · exact hne hq e
  · exact not_mem_of_spells hn hs hc e
  · exact hne hq' e

/-- A quoted name, taken apart behind its second quote. -/
theorem quoted_append (q q' : Char) (shown after : List Char) :
    q :: (shown ++ q' :: after) = q :: (shown ++ [q']) ++ after := by
  rw [List.cons_append, List.append_assoc, List.singleton_append]

theorem line_append {v : List Char} (hv : '\n' ∉ v) (rest : List Char) :
    line (v ++ rest) = v ++ line rest :=
  List.takeWhile_append_of_pos fun _ hc => decide_eq_true fun e => hv (e ▸ hc)

/-- What goes through the last `>` of a line leaves none in the line. -/
theorem throughLastClose?_eq_some : ∀ {cs taken : List Char}, throughLastClose? cs = some taken →
    ∃ after, cs = taken ++ after ∧ '\n' ∉ taken ∧ '>' ∈ taken ∧ '>' ∉ line after
  | [], _, h => by cases h
  | c :: rest, taken, h => by
      unfold throughLastClose? at h
      by_cases hn : c = '\n'
      · rw [if_pos hn] at h
        cases h
      · rw [if_neg hn] at h
        cases ht : throughLastClose? rest with
        | some t =>
          rw [ht] at h
          cases h
          obtain ⟨after, rfl, hline, hclose, hafter⟩ := throughLastClose?_eq_some ht
          refine ⟨after, rfl, ?_, List.mem_cons_of_mem c hclose, hafter⟩
          rw [List.mem_cons, not_or]
          exact ⟨fun e => hn e.symm, hline⟩
        | none =>
          rw [ht] at h
          obtain ⟨rfl, h⟩ := Option.ite_none_right_eq_some.mp h
          cases h
          refine ⟨rest, rfl, ?_, List.mem_singleton_self _, ?_⟩
          · rw [List.mem_singleton]
            exact fun e => hn e.symm
          · intro hclose
            have hsome := (throughLastClose?_isSome rest).mpr hclose
            rw [ht] at hsome
            cases hsome

/-- **A hit of a quoted name takes the name, its quotes and the line through its last `>`.** -/
theorem quotedAt?_eq_some {cs : List Char} {h : Hit} (hh : quotedAt? cs = some h) :
    ∃ q q' tail after, h.taken = q :: (h.shown ++ q' :: tail) ∧ cs = h.taken ++ after ∧
      isQuote q = true ∧ isQuote q' = true ∧ (∃ name ∈ names, Spells name.toList h.shown) ∧
      '\n' ∉ tail ∧ '>' ∈ tail ∧ '>' ∉ line after := by
  cases cs with
  | nil => cases hh
  | cons q rest =>
    obtain ⟨hq, hfind⟩ := Option.ite_none_right_eq_some.mp hh
    obtain ⟨name, hn, hname⟩ := List.exists_of_findSome?_eq_some hfind
    split at hname
    · rename_i shown q' behind hs
      obtain ⟨rfl, hspell⟩ := (spelled?_eq_some _ _ _ _).mp hs
      obtain ⟨hq', hmap⟩ := Option.ite_none_right_eq_some.mp hname
      obtain ⟨tail, htail, rfl⟩ := Option.map_eq_some_iff.mp hmap
      obtain ⟨after, rfl, hline, hclose, hafter⟩ := throughLastClose?_eq_some htail
      refine ⟨q, q', tail, after, rfl, ?_, hq, hq', ⟨name, hn, hspell⟩, hline, hclose, hafter⟩
      simp only [List.cons_append, List.append_assoc]
    · cases hname

/-- **A hit of a name after a brace takes the brace and the name**, which is the first in the list
    that is spelled there. -/
theorem bracedAt?_eq_some {cs : List Char} {h : Hit} (hh : bracedAt? cs = some h) :
    ∃ front name back after, h.taken = '\x7b' :: h.shown ∧ cs = h.taken ++ after ∧
      names = front ++ name :: back ∧ Spells name.toList h.shown ∧
      ∀ n ∈ front, spelled? n.toList (h.shown ++ after) = none := by
  cases cs with
  | nil => cases hh
  | cons c rest =>
    obtain ⟨rfl, hh⟩ := Option.ite_none_right_eq_some.mp hh
    obtain ⟨front, name, back, hnames, hh, hfront⟩ := List.findSome?_eq_some_iff.mp hh
    obtain ⟨⟨shown, after⟩, hs, rfl⟩ := Option.map_eq_some_iff.mp hh
    obtain ⟨rfl, hspell⟩ := (spelled?_eq_some _ _ _ _).mp hs
    exact ⟨front, name, back, after, rfl, rfl, hnames, hspell,
      fun n hn => Option.map_eq_none_iff.mp (hfront n hn)⟩

/-! ## 2. The search -/

/-- How far the hits of one sort go. A hit takes a front of the text that is not empty, and another
    place of its sort lies inside of what it takes exactly if `pass` holds of all characters between
    the two. -/
structure Reach (hitAt? : List Char → Option Hit) (pass : Char → Bool) : Prop where
  front {cs : List Char} {h : Hit} : hitAt? cs = some h → h.taken ≠ [] ∧ h.taken <+: cs
  inside {v rest : List Char} {h : Hit} : hitAt? (v ++ rest) = some h → v ≠ [] →
    (hitAt? rest).isSome = true → (v.length < h.taken.length ↔ v.all pass = true)
  whole {cs w : List Char} {h : Hit} : hitAt? cs = some h → w <:+ h.taken → w ≠ [] →
    w.all pass = true → h.taken.all pass = true

/-- A place with another one of its sort in front, and between them only what hits go over. -/
def Hidden (hitAt? : List Char → Option Hit) (pass : Char → Bool) (before rest : List Char) : Prop :=
  ∃ front v, before = front ++ v ∧ v ≠ [] ∧ v.all pass = true ∧ (hitAt? (v ++ rest)).isSome = true

section Search

variable {hitAt? : List Char → Option Hit} {pass : Char → Bool}

/-- What the search goes on with after a hit. -/
theorem drop_of_front {c : Char} {rest taken after : List Char} (hne : taken ≠ [])
    (h : taken ++ after = c :: rest) : rest.drop (taken.length - 1) = after := by
  cases taken with
  | nil => exact absurd rfl hne
  | cons d tail =>
    obtain ⟨-, rfl⟩ := List.cons.inj h
    exact List.drop_left

/-- **Every hit is what the matcher finds at its offset.** -/
theorem exists_of_mem_hits (hr : Reach hitAt? pass) (pos : Nat) (cs : List Char) :
    ∀ e ∈ hits hitAt? pos cs, ∃ before rest, cs = before ++ rest ∧ e.1 = pos + width before ∧
      hitAt? rest = some e.2 := by
  fun_induction hits hitAt? pos cs with
  | case1 pos =>
    intro e he
    exact absurd he List.not_mem_nil
  | case2 pos c rest h hh ih =>
    rw [hh]
    intro e he
    obtain ⟨hne, after, ht⟩ := hr.front hh
    rcases List.mem_cons.mp he with rfl | he
    · exact ⟨[], c :: rest, rfl, rfl, hh⟩
    · obtain ⟨before, behind, hafter, hpos, hfound⟩ := ih e he
      rw [drop_of_front hne ht] at hafter
      refine ⟨h.taken ++ before, behind, ?_, ?_, hfound⟩
      · rw [← ht, hafter, List.append_assoc]
      · rw [hpos, width_append, Nat.add_assoc]
  | case3 pos c rest hh ih =>
    rw [hh]
    intro e he
    obtain ⟨before, behind, rfl, hpos, hfound⟩ := ih e he
    refine ⟨c :: before, behind, rfl, ?_, hfound⟩
    rw [hpos, width_cons, Nat.add_assoc]

theorem le_of_mem_hits (hr : Reach hitAt? pass) {pos : Nat} {cs : List Char} {e : Nat × Hit}
    (he : e ∈ hits hitAt? pos cs) : pos ≤ e.1 := by
  obtain ⟨before, rest, -, hpos, -⟩ := exists_of_mem_hits hr pos cs e he
  omega

/-- What is not empty takes a byte. -/
theorem width_pos {cs : List Char} (h : cs ≠ []) : 0 < width cs :=
  Nat.pos_of_ne_zero fun hw => h (eq_nil_of_width hw)

/-- **Hits come in the order of their offsets.** -/
theorem pairwise_hits (hr : Reach hitAt? pass) (pos : Nat) (cs : List Char) :
    (hits hitAt? pos cs).Pairwise fun a b => a.1 < b.1 := by
  fun_induction hits hitAt? pos cs with
  | case1 => exact .nil
  | case2 pos c rest h hh ih =>
    rw [hh]
    have hpos := width_pos (hr.front hh).1
    refine List.pairwise_cons.mpr ⟨fun e he => ?_, ih⟩
    have hle := le_of_mem_hits hr he
    show pos < e.1
    omega
  | case3 pos c rest hh ih =>
    rw [hh]
    exact ih

theorem Reach.nil (hr : Reach hitAt? pass) : hitAt? [] = none := by
  cases hh : hitAt? [] with
  | none => rfl
  | some h => exact absurd (List.prefix_nil.mp (hr.front hh).2) (hr.front hh).1

/-- A hit hides nothing of what comes after it. -/
theorem Reach.hidden_taken_append (hr : Reach hitAt? pass) {h : Hit} {before rest : List Char}
    (hh : hitAt? (h.taken ++ (before ++ rest)) = some h) (hrest : (hitAt? rest).isSome = true) :
    Hidden hitAt? pass (h.taken ++ before) rest ↔ Hidden hitAt? pass before rest := by
  constructor
  · rintro ⟨front, v, hs, hv, hpass, hplace⟩
    rcases List.append_eq_append_iff.mp hs with ⟨more, -, rfl⟩ | ⟨w, htaken, rfl⟩
    · exact ⟨more, v, rfl, hv, hpass, hplace⟩
    · rw [List.all_append, Bool.and_eq_true] at hpass
      by_cases hw : w = []
      · subst hw
        exact ⟨[], before, rfl, hv, hpass.2, hplace⟩
      · -- otherwise the hit would go on as far as the place, which lies behind its end
        have hwhole := hr.whole hh ⟨front, htaken.symm⟩ hw hpass.1
        rw [← List.append_assoc] at hh
        have hne : h.taken ++ before ≠ [] :=
          fun e => (hr.front hh).1 (List.append_eq_nil_iff.mp e).1
        have hall : (h.taken ++ before).all pass = true := by
          rw [List.all_append, hwhole, hpass.2, Bool.and_self]
        have hlt := (hr.inside hh hne hrest).mpr hall
        rw [List.length_append] at hlt
        omega
  · rintro ⟨front, v, rfl, hv, hpass, hplace⟩
    exact ⟨h.taken ++ front, v, by rw [List.append_assoc], hv, hpass, hplace⟩

/-- What starts at a place in front hides nothing if it is no place. -/
theorem hidden_cons {c : Char} {before rest : List Char}
    (hnone : hitAt? (c :: (before ++ rest)) = none) :
    Hidden hitAt? pass (c :: before) rest ↔ Hidden hitAt? pass before rest := by
  constructor
  · rintro ⟨front, v, hs, hv, hpass, hplace⟩
    rcases List.append_eq_cons_iff.mp hs.symm with ⟨rfl, rfl⟩ | ⟨front, rfl, rfl⟩
    · rw [List.cons_append, hnone] at hplace
      cases hplace
    · exact ⟨front, v, rfl, hv, hpass, hplace⟩
  · rintro ⟨front, v, rfl, hv, hpass, hplace⟩
    exact ⟨c :: front, v, rfl, hv, hpass, hplace⟩

theorem not_hidden_nil (rest : List Char) : ¬ Hidden hitAt? pass [] rest := by
  rintro ⟨front, v, hs, hv, -⟩
  exact hv (List.append_eq_nil_iff.mp hs.symm).2

/-- A place inside of what a hit takes is hidden by it. -/
theorem Reach.hidden_inside (hr : Reach hitAt? pass) {h : Hit} {before rest : List Char}
    (hh : hitAt? (before ++ rest) = some h) (hb : before ≠ [])
    (hlength : before.length < h.taken.length) (hrest : (hitAt? rest).isSome = true) :
    Hidden hitAt? pass before rest := by
  refine ⟨[], before, rfl, hb, (hr.inside hh hb hrest).mp hlength, ?_⟩
  rw [hh]
  rfl

/-- The search has no hit inside of what a hit takes. -/
theorem no_hit_inside (hr : Reach hitAt? pass) {pos : Nat} {h : Hit} {before u after : List Char}
    (htaken : before ++ u = h.taken) (hb : before ≠ []) (hu : u ≠ []) :
    ¬ ∃ e ∈ (pos, h) :: hits hitAt? (pos + width h.taken) after, e.1 = pos + width before := by
  have hsplit : width h.taken = width before + width u := by rw [← htaken, width_append]
  have hfront := width_pos hb
  have hmore := width_pos hu
  rintro ⟨e, he, hpos⟩
  rcases List.mem_cons.mp he with rfl | he
  · change pos = pos + width before at hpos
    omega
  · have hle := le_of_mem_hits hr he
    omega

/-- Behind what a hit takes the search has the hits that it goes on with. -/
theorem exists_hit_behind {pos : Nat} {h : Hit} {u after : List Char}
    (hne : h.taken ≠ []) :
    (∃ e ∈ (pos, h) :: hits hitAt? (pos + width h.taken) after, e.1 = pos + width (h.taken ++ u)) ↔
      ∃ e ∈ hits hitAt? (pos + width h.taken) after, e.1 = pos + width h.taken + width u := by
  have hwidth := width_pos hne
  rw [width_append, ← Nat.add_assoc, List.exists_mem_cons_iff]
  refine or_iff_right fun he => ?_
  change pos = pos + width h.taken + width u at he
  omega

/-- **A place is hit exactly if no place of its sort hides it.** -/
theorem Reach.mem_hits (hr : Reach hitAt? pass) (pos : Nat) (cs : List Char) :
    ∀ before rest, cs = before ++ rest →
      ((∃ e ∈ hits hitAt? pos cs, e.1 = pos + width before) ↔
        (hitAt? rest).isSome = true ∧ ¬ Hidden hitAt? pass before rest) := by
  fun_induction hits hitAt? pos cs with
  | case1 pos =>
    intro before rest hs
    obtain ⟨rfl, rfl⟩ := List.append_eq_nil_iff.mp hs.symm
    rw [hr.nil]
    constructor
    · rintro ⟨e, he, -⟩
      exact absurd he List.not_mem_nil
    · rintro ⟨h, -⟩
      cases h
  | case2 pos c tail h hh ih =>
    rw [hh]
    dsimp only
    intro before rest hs
    obtain ⟨hne, after, ht⟩ := hr.front hh
    rw [drop_of_front hne ht] at ih ⊢
    rw [← ht] at hh hs
    by_cases hlength : h.taken.length ≤ before.length
    · -- the place lies behind what is taken
      obtain ⟨u, rfl⟩ := List.prefix_of_prefix_length_le ⟨after, rfl⟩ ⟨rest, hs.symm⟩ hlength
      rw [List.append_assoc] at hs
      obtain rfl := List.append_cancel_left hs
      rw [exists_hit_behind hne, ih u rest rfl]
      exact and_congr_right fun hplace => not_congr (hr.hidden_taken_append hh hplace).symm
    · rw [Nat.not_le] at hlength
      rw [hs] at hh
      by_cases hb : before = []
      · -- it is where the hit starts
        subst hb
        rw [List.nil_append] at hh
        rw [hh]
        exact ⟨fun _ => ⟨rfl, not_hidden_nil rest⟩, fun _ => ⟨(pos, h), List.mem_cons_self, rfl⟩⟩
      · -- it lies inside
        obtain ⟨u, hu⟩ := List.prefix_of_prefix_length_le ⟨rest, hs.symm⟩ ⟨after, rfl⟩ hlength.le
        have hmore : u ≠ [] := by
          rintro rfl
          rw [← hu, List.append_nil] at hlength
          exact absurd hlength (Nat.lt_irrefl _)
        refine iff_of_false (no_hit_inside hr hu hb hmore) ?_
        rintro ⟨hplace, hhidden⟩
        exact hhidden (hr.hidden_inside hh hb hlength hplace)
  | case3 pos c tail hh ih =>
    rw [hh]
    dsimp only
    intro before rest hs
    cases before with
    | nil =>
      obtain rfl : c :: tail = rest := hs
      rw [hh]
      constructor
      · rintro ⟨e, he, hpos⟩
        have hle := le_of_mem_hits hr he
        have hc := c.utf8Size_pos
        rw [width_nil] at hpos
        omega
      · rintro ⟨h, -⟩
        cases h
    | cons d before =>
      obtain ⟨rfl, rfl⟩ := List.cons.inj hs
      rw [hidden_cons hh, width_cons, ← Nat.add_assoc]
      exact ih before rest rfl

end Search

/-! ## 3. The two sorts -/

theorem newLine_mem_marks : '\n' ∈ marks := List.mem_cons_self

theorem all_ne_newLine_iff {v : List Char} : v.all (fun c => c ≠ '\n') = true ↔ '\n' ∉ v := by
  rw [List.all_eq_true]
  constructor
  · intro h hv
    exact of_decide_eq_true (h _ hv) rfl
  · intro h c hc
    exact decide_eq_true fun e => h (e ▸ hc)

theorem newLine_not_mem_taken {cs : List Char} {h : Hit} (hh : quotedAt? cs = some h) :
    '\n' ∉ h.taken := by
  obtain ⟨q, q', tail, after, htaken, -, hq, hq', hs, htail, -⟩ := quotedAt?_eq_some hh
  rw [htaken, quoted_append, List.mem_append, not_or]
  exact ⟨not_mem_quoted hq hq' hs newLine_mem_marks rfl, htail⟩

/-- A quoted name stands in one line, and so does a `>` behind it. -/
theorem Quoted.close_mem_line {cs : List Char} (h : Quoted cs) : '>' ∈ line cs := by
  obtain ⟨q, shown, q', after, rfl, hq, hq', hs, hclose⟩ := h
  rw [quoted_append, line_append (not_mem_quoted hq hq' hs newLine_mem_marks rfl)]
  exact List.mem_append_right _ hclose

/-- **A quoted name hides the rest of its line.** -/
theorem reach_quoted : Reach quotedAt? fun c => c ≠ '\n' where
  front := by
    intro cs h hh
    obtain ⟨q, q', tail, after, htaken, rfl, -⟩ := quotedAt?_eq_some hh
    rw [htaken]
    exact ⟨List.cons_ne_nil _ _, List.prefix_append _ _⟩
  inside := by
    intro v rest h hh _ hplace
    obtain ⟨-, -, -, after, -, hs, -, -, -, -, -, hafter⟩ := quotedAt?_eq_some hh
    rw [all_ne_newLine_iff]
    constructor
    · intro hlength
      obtain ⟨u, hu⟩ := List.prefix_of_prefix_length_le ⟨rest, rfl⟩ ⟨after, hs.symm⟩ hlength.le
      have hline := newLine_not_mem_taken hh
      rw [← hu, List.mem_append, not_or] at hline
      exact hline.1
    · intro hv
      by_contra hlength
      rw [Nat.not_lt] at hlength
      obtain ⟨u, rfl⟩ := List.prefix_of_prefix_length_le ⟨after, hs.symm⟩ ⟨rest, rfl⟩ hlength
      rw [List.append_assoc] at hs
      obtain rfl := List.append_cancel_left hs
      rw [List.mem_append, not_or] at hv
      -- the place has a `>` in its line, and the hit would have gone through it
      rw [line_append hv.2] at hafter
      exact hafter (List.mem_append_right _ ((quotedAt?_isSome rest).mp hplace).close_mem_line)
  whole := by
    intro cs w h hh _ _ _
    rw [all_ne_newLine_iff]
    exact newLine_not_mem_taken hh

/-- **A name after a brace hides nothing.** -/
theorem reach_braced : Reach bracedAt? fun _ => false where
  front := by
    intro cs h hh
    obtain ⟨-, -, -, after, htaken, rfl, -⟩ := bracedAt?_eq_some hh
    rw [htaken]
    exact ⟨List.cons_ne_nil _ _, List.prefix_append _ _⟩
  inside := by
    intro v rest h hh hv hplace
    obtain ⟨c, v, rfl⟩ := List.exists_cons_of_ne_nil hv
    obtain ⟨front, name, back, after, htaken, hs, hnames, hspell, -⟩ := bracedAt?_eq_some hh
    obtain ⟨shown, behind, rfl, -⟩ := (bracedAt?_isSome rest).mp hplace
    rw [List.all_cons, Bool.false_and]
    refine iff_of_false (fun hlength => ?_) Bool.false_ne_true
    obtain ⟨u, hu⟩ := List.prefix_of_prefix_length_le ⟨_, rfl⟩ ⟨after, hs.symm⟩ hlength.le
    rw [← hu, List.append_assoc] at hs
    have hrest := List.append_cancel_left hs
    cases u with
    | nil =>
      rw [← hu, List.append_nil] at hlength
      exact absurd hlength (Nat.lt_irrefl _)
    | cons d u =>
      -- the second brace would stand in the name
      obtain ⟨rfl, -⟩ := List.cons.inj hrest
      obtain ⟨-, hshown⟩ := List.cons.inj (hu.trans htaken)
      have hname : name ∈ names := by
        rw [hnames]
        exact List.mem_append_right _ List.mem_cons_self
      refine not_mem_of_spells hname hspell (c := '\x7b') (by decide) ?_
      rw [← hshown]
      exact List.mem_append_right _ List.mem_cons_self
  whole := by
    intro cs w h _ _ hw hpass
    obtain ⟨c, w, rfl⟩ := List.exists_cons_of_ne_nil hw
    cases hpass

/-! ## 4. What is reported -/

theorem mem_scan {f : Finding} {markup : String} : f ∈ scan markup ↔
    ∃ e, (e ∈ hits quotedAt? 0 markup.toList ∨ e ∈ hits bracedAt? 0 markup.toList) ∧
      finding e = f := by
  unfold scan
  rw [List.mem_map]
  exact exists_congr fun e => and_congr_left' List.mem_merge

theorem place_finding_eq_iff {e : Nat × Hit} {offset : Nat} :
    (finding e).place = .offset offset ↔ e.1 = offset := by
  unfold finding
  exact Place.offset.injEq _ _ ▸ Iff.rfl

/-- An offset is reported if one of the two searches has a hit there. -/
theorem exists_finding_iff_exists_hit {markup : String} {offset : Nat} :
    (∃ f ∈ scan markup, f.place = .offset offset) ↔
      (∃ e ∈ hits quotedAt? 0 markup.toList, e.1 = offset) ∨
        ∃ e ∈ hits bracedAt? 0 markup.toList, e.1 = offset := by
  constructor
  · rintro ⟨f, hf, hplace⟩
    obtain ⟨e, he, rfl⟩ := mem_scan.mp hf
    rw [place_finding_eq_iff] at hplace
    exact he.imp (fun he => ⟨e, he, hplace⟩) fun he => ⟨e, he, hplace⟩
  · rintro (⟨e, he, hoffset⟩ | ⟨e, he, hoffset⟩)
    · exact ⟨_, mem_scan.mpr ⟨e, .inl he, rfl⟩, place_finding_eq_iff.mpr hoffset⟩
    · exact ⟨_, mem_scan.mpr ⟨e, .inr he, rfl⟩, place_finding_eq_iff.mpr hoffset⟩

theorem hidden_quoted_iff {before rest : List Char} :
    Hidden quotedAt? (fun c => c ≠ '\n') before rest ↔
      ∃ front v, before = front ++ v ∧ v ≠ [] ∧ '\n' ∉ v ∧ Quoted (v ++ rest) := by
  unfold Hidden
  simp only [all_ne_newLine_iff, quotedAt?_isSome]

theorem not_hidden_braced {before rest : List Char} :
    ¬ Hidden bracedAt? (fun _ => false) before rest := by
  rintro ⟨front, v, -, hv, hpass, -⟩
  obtain ⟨c, v, rfl⟩ := List.exists_cons_of_ne_nil hv
  cases hpass

/-- **What is reported.** A name after a brace is reported wherever it stands. A name between quotes,
    with a `>` further on in its line, is reported exactly if no such name starts in front of it in
    the same line. -/
theorem exists_finding_iff (before rest : List Char) :
    (∃ f ∈ scan (String.ofList (before ++ rest)), f.place = .offset (width before)) ↔
      Braced rest ∨ Quoted rest ∧
        ¬ ∃ front v, before = front ++ v ∧ v ≠ [] ∧ '\n' ∉ v ∧ Quoted (v ++ rest) := by
  have hquoted := reach_quoted.mem_hits 0 _ before rest rfl
  have hbraced := reach_braced.mem_hits 0 _ before rest rfl
  rw [Nat.zero_add, quotedAt?_isSome, hidden_quoted_iff] at hquoted
  rw [Nat.zero_add, bracedAt?_isSome, and_iff_left not_hidden_braced] at hbraced
  rw [exists_finding_iff_exists_hit, String.toList_ofList, hquoted, hbraced, or_comm]

/-- Two actions in one line. -/
def oneLine : String :=
  "<extension><action application=\"system\"/><action application=\"spawn\"/></extension>"

/-- The same line, cut at the second name. -/
def oneLineParts : List Char × List Char :=
  ("<extension><action application=\"system\"/><action application=".toList,
    "\"spawn\"/></extension>".toList)

theorem scan_oneLine : (scan oneLine).map (fun f => (f.place, f.message)) =
    [(.offset 31, "'system' is not allowed in a dialplan")] := by
  unfold oneLine
  cbv

/-- **A dangerous name is not reported** where another one stands in front of it in its line. -/
theorem oneLine_unreported :
    oneLine.toList = oneLineParts.1 ++ oneLineParts.2 ∧ Quoted oneLineParts.2 ∧
      width oneLineParts.1 = 61 ∧ ¬ ∃ f ∈ scan oneLine, f.place = .offset 61 := by
  refine ⟨?_, (quotedAt?_isSome _).mp ?_, ?_, ?_⟩
  · unfold oneLine oneLineParts
    cbv
  · unfold oneLineParts
    cbv
  · unfold oneLineParts
    cbv
  · rintro ⟨f, hf, hplace⟩
    have hmem := List.mem_map_of_mem (f := fun f => (f.place, f.message)) hf
    rw [scan_oneLine, List.mem_singleton, hplace] at hmem
    cases hmem

end Dialplan.Hazard
