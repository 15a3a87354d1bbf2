import Dialplan.Proofs.Truncation
import Dialplan.Proofs.Unplaced
import Mathlib
/-!
# Layout between tokens

Blanks and comments may be put between any two tokens of a text, and the text goes on to say the
same. A token can only run on into what stands behind it, and neither a blank nor a `<` is anything
that one could run on into.

* `Apart`: what may stand behind any token;
* `scanFrom_append`: two texts of which the second stands apart have their tokens one after the
  other;
* `Filling`: blanks and comments, one after the other;
* `Seam`: a place in front of the first token or behind one;
* `scan_of_seam`: **at a seam layout can be put in**, and what stands behind it moves by its length;
* `read_of_seam`: **a text with more layout is read as before**, or not read for the same reason.
-/

namespace Dialplan.Markup

open Dialplan.Text

/-! ## 1. Moved tokens -/

/-- A piece that stands some bytes further on. -/
def moved {α : Type} (bytes : Nat) (l : Located α) : Located α :=
  ⟨l.value, l.start + bytes, l.stop + bytes⟩

theorem eq_nil_of_next {cs : List Char} (h : next cs = .nothing) : cs = [] := by
  unfold next at h
  split at h
  case h_1 => rfl
  case h_2 rest => cases hc : comment rest <;> rw [hc] at h <;> cases h
  case h_3 rest => cases hc : declaration rest <;> rw [hc] at h <;> cases h
  case h_9 | h_10 =>
    unfold quoted at h
    split at h <;> cases h
  case h_11 =>
    split at h
    · cases h
    · split at h <;> cases h
  all_goals cases h

section

variable {pos : Nat} {cs : List Char} {lts : List (Located Token)}

/-- **A text that starts further on has its tokens further on.** -/
theorem scanFrom_moved (bytes : Nat) (h : scanFrom pos cs = .ok lts) :
    scanFrom (pos + bytes) cs = .ok (lts.map (moved bytes)) := by
  fun_induction scanFrom pos cs generalizing lts with
  | case1 pos cs hn =>
    cases h
    rw [eq_nil_of_next hn, scanFrom_nil]
    rfl
  | case2 => cases h
  | case3 pos cs taken rest hn ih =>
    rw [scanFrom_layout hn, Nat.add_right_comm]
    exact ih h
  | case4 => cases h
  | case5 pos cs u taken rest hn us hus ih =>
    cases h
    have hrest := ih hus
    rw [Nat.add_right_comm] at hrest
    rw [scanFrom_token hn hrest, List.map_cons, moved, Nat.add_right_comm]

end

/-! ## 2. What may stand behind a token -/

/-- The text begins, if at all, with a blank or a `<`: no token runs on into it. -/
def Apart (cs : List Char) : Prop := ∀ c rest, cs = c :: rest → isLayout c = true ∨ c = '<'

section

variable {cs taken rest behind : List Char} {t : Token}

theorem Apart.isTail {c : Char} (h : Apart (c :: rest)) : Name.isTail c = false := by
  rcases h c rest rfl with hc | rfl
  · unfold isLayout at hc
    simp only [Bool.or_eq_true, decide_eq_true_eq] at hc
    rcases hc with ((rfl | rfl) | rfl) | rfl <;> rfl
  · rfl

/-- Characters that no text standing apart begins with are not made up across its front. -/
theorem Apart.append_eq (hb : Apart behind) (mark : List Char)
    (hm : ∀ c ∈ mark, isLayout c = false ∧ c ≠ '<') (h : cs ++ behind = mark ++ rest) :
    ∃ more, cs = mark ++ more := by
  rcases List.append_eq_append_iff.mp h with ⟨across, rfl, rfl⟩ | ⟨more, rfl, -⟩
  · cases across with
    | nil => exact ⟨[], by rw [List.append_nil, List.append_nil]⟩
    | cons c across =>
      obtain ⟨hl, hne⟩ := hm c (List.mem_append_right _ List.mem_cons_self)
      rcases hb c (across ++ rest) rfl with hc | hc
      · rw [hl] at hc
        cases hc
      · exact absurd hc hne
  · exact ⟨more, rfl⟩

/-- A `<` that is a token by itself is one also before more text that stands apart. -/
theorem openTag_behind (h : next ('<' :: cs) = .token .openTag ['<'] cs) (hb : Apart behind) :
    next ('<' :: (cs ++ behind)) = .token .openTag ['<'] (cs ++ behind) := by
  unfold next
  split
  case h_2 =>
    rename_i rest heq
    obtain ⟨more, rfl⟩ := hb.append_eq ['!', '-', '-'] (by simp [isLayout]) (List.cons.inj heq).2
    exact absurd h ofStretch_ne_token
  case h_3 =>
    rename_i rest heq
    obtain ⟨more, rfl⟩ := hb.append_eq ['?'] (by simp [isLayout]) (List.cons.inj heq).2
    exact absurd h ofStretch_ne_token
  case h_4 =>
    rename_i rest heq
    obtain ⟨more, rfl⟩ := hb.append_eq ['/'] (by simp [isLayout]) (List.cons.inj heq).2
    cases h
  case h_5 =>
    rename_i heq
    cases heq
    rfl
  case h_11 =>
    rename_i hc _ _ _ _ _ heq
    exact absurd (List.cons.inj heq).1.symm hc
  all_goals
    rename_i heq
    cases heq

/-- A name is over where a text begins that stands apart. -/
theorem name_behind (rest : List Char) (hb : Apart behind) :
    (rest ++ behind).takeWhile Name.isTail = rest.takeWhile Name.isTail ∧
      (rest ++ behind).dropWhile Name.isTail = rest.dropWhile Name.isTail ++ behind := by
  have hstop : behind.takeWhile Name.isTail = [] ∧ behind.dropWhile Name.isTail = behind := by
    cases behind with
    | nil => exact ⟨rfl, rfl⟩
    | cons c more =>
      have hc := hb.isTail
      exact ⟨List.takeWhile_cons_of_neg (by rw [hc]; decide),
        List.dropWhile_cons_of_neg (by rw [hc]; decide)⟩
  rw [List.takeWhile_append, List.dropWhile_append, hstop.1, hstop.2, List.append_nil]
  constructor
  · split
    · rename_i hl
      exact (List.takeWhile_prefix _).eq_of_length hl |>.symm
    · rfl
  · split
    · rename_i he
      rw [List.isEmpty_iff.mp he, List.nil_append]
    · rfl

/-- **A token does not run on** into a text that stands apart. -/
theorem token_behind (h : next cs = .token t taken rest) (hb : Apart behind) :
    next (cs ++ behind) = .token t taken (rest ++ behind) := by
  have horiginal := h
  have hs := next_splits cs
  rw [h] at hs
  unfold next at h
  split at h
  case h_1 => cases h
  case h_2 => exact absurd h ofStretch_ne_token
  case h_3 => exact absurd h ofStretch_ne_token
  case h_5 =>
    cases h
    exact openTag_behind horiginal hb
  case h_9 | h_10 =>
    obtain ⟨body, rfl, hq⟩ := quoted_front h (rest ++ behind)
    rw [hs.1, List.append_assoc, List.append_assoc]
    exact hq
  case h_11 =>
    split at h
    · cases h
    · split at h
      · rename_i c tail _ _ _ _ _ _ _ _ _ _ hhead
        cases h
        obtain ⟨htake, hdrop⟩ := name_behind tail hb
        rw [List.cons_append, next_head hhead, htake, hdrop]
      · cases h
  all_goals
    cases h
    rfl

end

/-- **Tokens of two texts, one behind the other.** -/
theorem scanFrom_append {pos : Nat} {cs behind : List Char} {lts more : List (Located Token)}
    (h : scanFrom pos cs = .ok lts) (hb : Apart behind)
    (hmore : scanFrom (pos + width cs) behind = .ok more) :
    scanFrom pos (cs ++ behind) = .ok (lts ++ more) := by
  fun_induction scanFrom pos cs generalizing lts with
  | case1 pos cs hn =>
    cases h
    rw [eq_nil_of_next hn] at hmore ⊢
    exact hmore
  | case2 => cases h
  | case3 pos cs taken rest hn ih =>
    have hs := next_splits cs
    rw [hn] at hs
    obtain ⟨rfl, -⟩ := hs
    have hlayout : next (taken ++ (rest ++ behind)) = .layout taken (rest ++ behind) :=
      layout_settled hn
    rw [width_append, ← Nat.add_assoc] at hmore
    rw [List.append_assoc, scanFrom_layout hlayout]
    exact ih h hmore
  | case4 => cases h
  | case5 pos cs u taken rest hn us hus ih =>
    cases h
    have hs := next_splits cs
    rw [hn] at hs
    have htoken := token_behind hn hb
    rw [hs.1, width_append, ← Nat.add_assoc] at hmore
    exact scanFrom_token htoken (ih hus hmore)

/-! ## 3. Layout that is put in -/

/-- **Blanks and comments**, any number of them one after the other. In a comment no two dashes stand
    together, and it does not end in one. -/
inductive Filling : List Char → Prop
  | nil : Filling []
  | blank {c : Char} {rest : List Char} (hc : c = ' ' ∨ c = '\t' ∨ c = '\r' ∨ c = '\n')
      (hrest : Filling rest) : Filling (c :: rest)
  | comment {body rest : List Char} (hdashes : ¬ ['-', '-'] <:+: body)
      (hlast : body.getLast? ≠ some '-') (hrest : Filling rest) :
      Filling (['<', '!', '-', '-'] ++ body ++ ['-', '-', '>'] ++ rest)

section

variable {filling behind : List Char}

theorem isLayout_of_blank {c : Char} (h : c = ' ' ∨ c = '\t' ∨ c = '\r' ∨ c = '\n') :
    isLayout c = true := by
  rcases h with rfl | rfl | rfl | rfl <;> rfl

theorem Filling.apart (h : Filling filling) (hne : filling ≠ []) (behind : List Char) :
    Apart (filling ++ behind) := by
  cases h with
  | nil => exact absurd rfl hne
  | blank hc =>
    rintro d rest heq
    cases heq
    exact .inl (isLayout_of_blank hc)
  | comment =>
    rintro d rest heq
    cases heq
    exact .inr rfl

/-- A comment ends at its end mark if no dashes come together before. -/
theorem comment_of_body {body : List Char} (hdashes : ¬ ['-', '-'] <:+: body)
    (hlast : body.getLast? ≠ some '-') (after : List Char) :
    comment (body ++ '-' :: '-' :: '>' :: after) = .closed body after := by
  induction body using List.twoStepInduction with
  | nil => rfl
  | singleton c =>
    have hc : c ≠ '-' := fun e => hlast (congrArg some e)
    simp [comment, hc, Stretch.cons]
  | cons_cons c d rest ihrest ihcons =>
    by_cases hc : c = '-'
    · -- a dash takes the next character along
      have hd : d ≠ '-' := fun e => hdashes ⟨[], rest, by rw [hc, e]; rfl⟩
      have hlast' : rest.getLast? ≠ some '-' := by
        cases rest with
        | nil => exact (Option.some_ne_none '-').symm
        | cons e rest => exact hlast
      have hrest := ihrest (fun h =>
        hdashes (h.trans ((List.suffix_cons d rest).trans (List.suffix_cons c _)).isInfix)) hlast'
      simp [comment, hc, hd, hrest, Stretch.cons]
    · have hrest := ihcons d (fun h => hdashes (h.trans (List.suffix_cons c _).isInfix)) hlast
      rw [List.cons_append] at hrest
      simp [comment, hc, hrest, Stretch.cons]

/-- **Layout leaves no trace** but the bytes that it takes. -/
theorem Filling.scanFrom_eq (h : Filling filling) (pos : Nat) :
    scanFrom pos (filling ++ behind) = scanFrom (pos + width filling) behind := by
  induction h generalizing pos with
  | nil => rfl
  | @blank c rest hc _ ih =>
    have hn := next_layout (isLayout_of_blank hc) (rest ++ behind)
    rw [List.cons_append, scanFrom_layout hn, ih, width_cons, Nat.add_assoc]
    rfl
  | @comment body rest hdashes hlast _ ih =>
    have hn : next (['<', '!', '-', '-'] ++ body ++ ['-', '-', '>'] ++ rest ++ behind) =
        .layout (['<', '!', '-', '-'] ++ body ++ ['-', '-', '>']) (rest ++ behind) := by
      have hc := comment_of_body hdashes hlast (rest ++ behind)
      simp only [List.append_assoc, List.cons_append, List.nil_append]
      show Next.ofStretch _ _ (Markup.comment _) = _
      rw [hc]
      rfl
    rw [scanFrom_layout hn, ih, width_append _ rest, Nat.add_assoc]

end

/-! ## 4. Seams -/

/-- A place in front of the first token, or right behind one. -/
def Seam (lts : List (Located Token)) (pos : Nat) : Prop :=
  (∃ lt, lts.head? = some lt ∧ lt.start = pos) ∨ ∃ lt ∈ lts, lt.stop = pos

section

variable {pos : Nat} {cs : List Char} {lts done more : List (Located Token)} {lt : Located Token}

/-- **The rest of a text**: from a token on it has this token and those behind it, and from the end
    of the token on those behind it. -/
theorem scanFrom_rest (h : scanFrom pos cs = .ok (done ++ lt :: more)) : ∃ before taken after,
    cs = before ++ (taken ++ after) ∧ lt.start = pos + width before ∧
      lt.stop = lt.start + width taken ∧ scanFrom lt.start (taken ++ after) = .ok (lt :: more) ∧
      scanFrom lt.stop after = .ok more := by
  generalize hlts : done ++ lt :: more = lts at h
  fun_induction scanFrom pos cs generalizing done lts with
  | case1 =>
    cases h
    exact absurd hlts (List.append_ne_nil_of_right_ne_nil _ (List.cons_ne_nil _ _))
  | case2 => cases h
  | case3 pos cs taken rest hn ih =>
    have hs := next_splits cs
    rw [hn] at hs
    obtain ⟨before, mid, after, rfl, hstart, hstop, hfrom, hbehind⟩ := ih lts hlts h
    refine ⟨taken ++ before, mid, after, ?_, ?_, hstop, hfrom, hbehind⟩
    · rw [hs.1, List.append_assoc]
    · rw [hstart, width_append, Nat.add_assoc]
  | case4 => cases h
  | case5 pos cs u taken rest hn us hus ih =>
    cases h
    have hs := next_splits cs
    rw [hn] at hs
    cases done with
    | nil =>
      cases hlts
      exact ⟨[], taken, rest, hs.1, rfl, rfl, hs.1 ▸ scanFrom_token hn hus, hus⟩
    | cons d done =>
      obtain ⟨rfl, hmore⟩ := List.cons.inj hlts
      obtain ⟨before, mid, after, rfl, hstart, hstop, hfrom, hbehind⟩ := ih us hmore hus
      refine ⟨taken ++ before, mid, after, ?_, ?_, hstop, hfrom, hbehind⟩
      · rw [hs.1, List.append_assoc]
      · rw [hstart, width_append, Nat.add_assoc]

/-- **A text falls apart at a seam** into two, each with its tokens. -/
theorem exists_seam {text : String} (hscan : scan text = .ok lts) (hseam : Seam lts pos) :
    ∃ front behind done more, text.toList = front ++ behind ∧ width front = pos ∧
      lts = done ++ more ∧ scanFrom 0 front = .ok done ∧ scanFrom pos behind = .ok more := by
  rcases hseam with ⟨lt, hlt, rfl⟩ | ⟨lt, hlt, rfl⟩
  · -- in front of the first token stands layout alone
    obtain ⟨more, rfl⟩ := List.head?_eq_some_iff.mp hlt
    have hfirst : scanFrom 0 text.toList = .ok ([] ++ lt :: more) := hscan
    obtain ⟨front, mid, after, htext, hstart, -, hfront, -⟩ := scanFrom_cut hfirst
    obtain ⟨front', mid', after', htext', hstart', -, hfrom, -⟩ := scanFrom_rest hfirst
    obtain rfl : front' = front := eq_of_width_eq (htext'.symm.trans htext) (by omega)
    exact ⟨front', _, [], lt :: more, htext', by omega, rfl, hfront, hfrom⟩
  · obtain ⟨done, more, rfl⟩ := List.append_of_mem hlt
    obtain ⟨front, mid, after, htext, hstart, hstop, -, hfront⟩ := scanFrom_cut hscan
    obtain ⟨front', mid', after', htext', hstart', hstop', -, hbehind⟩ := scanFrom_rest hscan
    have hsplit : (front ++ mid) ++ after = (front' ++ mid') ++ after' := by
      rw [List.append_assoc, List.append_assoc, ← htext, ← htext']
    have hfronts : front ++ mid = front' ++ mid' := by
      refine eq_of_width_eq hsplit ?_
      rw [width_append, width_append]
      omega
    obtain rfl : after = after' := by
      rw [hfronts] at hsplit
      exact List.append_cancel_left hsplit
    refine ⟨front ++ mid, after, done ++ [lt], more, ?_, ?_, ?_, hfront, hbehind⟩
    · rw [htext, List.append_assoc]
    · rw [width_append]
      omega
    · rw [List.append_assoc]
      rfl

/-- Layout between two texts that each have their tokens moves those of the second. -/
theorem scanFrom_filled {front filling behind : List Char} (hfront : scanFrom pos front = .ok done)
    (hbehind : scanFrom (pos + width front) behind = .ok more)
    (hboth : scanFrom pos (front ++ behind) = .ok (done ++ more)) (h : Filling filling) :
    scanFrom pos (front ++ (filling ++ behind)) =
      .ok (done ++ more.map (moved (width filling))) := by
  by_cases hne : filling = []
  · have hid : more.map (moved (width [])) = more := List.map_id' more
    rw [hne, hid]
    exact hboth
  · refine scanFrom_append hfront (h.apart hne behind) ?_
    rw [h.scanFrom_eq]
    exact scanFrom_moved _ hbehind

end

/-! ## 5. Whole texts -/

section

variable {before after filling : String} {lts : List (Located Token)}

/-- **At a seam layout can be put in**: the tokens are those that were there, and those behind the
    seam stand further on by what was put in. -/
theorem scan_of_seam (hscan : scan (before ++ after) = .ok lts)
    (hseam : Seam lts before.utf8ByteSize) (h : Filling filling.toList) :
    ∃ done more, lts = done ++ more ∧ scan before = .ok done ∧
      scan (before ++ filling ++ after) =
        .ok (done ++ more.map (moved filling.utf8ByteSize)) := by
  obtain ⟨front, behind, done, more, htext, hwidth, rfl, hfront, hbehind⟩ := exists_seam hscan hseam
  rw [String.toList_append] at htext
  obtain rfl : before.toList = front := eq_of_width_eq htext (by rw [width_toList, hwidth])
  obtain rfl : after.toList = behind := List.append_cancel_left htext
  refine ⟨done, more, rfl, hfront, ?_⟩
  rw [← hwidth, ← Nat.zero_add (width before.toList)] at hbehind
  unfold scan at hscan ⊢
  rw [String.toList_append] at hscan
  rw [String.toList_append, String.toList_append, List.append_assoc, ← width_toList filling]
  exact scanFrom_filled hfront hbehind hscan h

/-- **A text with more layout says the same**: blanks and comments in front of the first token or
    right behind one leave the tokens and their order, and what the text is read as, up to the
    places of faults. -/
theorem read_of_seam (hscan : scan (before ++ after) = .ok lts)
    (hseam : Seam lts before.utf8ByteSize) (h : Filling filling.toList) :
    (∃ lts', scan (before ++ filling ++ after) = .ok lts' ∧
      lts'.map (·.value) = lts.map (·.value)) ∧
    outcome (read (before ++ filling ++ after)) = outcome (read (before ++ after)) := by
  obtain ⟨done, more, rfl, -, hfilled⟩ := scan_of_seam hscan hseam h
  have hvalues : (done ++ more.map (moved filling.utf8ByteSize)).map (·.value) =
      (done ++ more).map (·.value) := by
    rw [List.map_append, List.map_append, List.map_map]
    rfl
  exact ⟨⟨_, hfilled, hvalues⟩, read_of_values hfilled hscan hvalues⟩

/-- A comment that begins with a dash and a line end, right behind the `<` of a start tag. -/
theorem read_of_seam_openTag :
    scan "<extension/>" = .ok
      [⟨.openTag, 0, 1⟩, ⟨.name "extension", 1, 10⟩, ⟨.selfClose, 10, 12⟩] ∧
    (∃ lts, scan "<<!---a-->\nextension/>" = .ok lts ∧
      lts.map (·.value) = [.openTag, .name "extension", .selfClose]) ∧
    outcome (read "<<!---a-->\nextension/>") = outcome (read "<extension/>") := by
  have hscan : scan ("<" ++ "extension/>") = .ok
      [⟨.openTag, 0, 1⟩, ⟨.name "extension", 1, 10⟩, ⟨.selfClose, 10, 12⟩] := by
    cbv
  have hseam : Seam [⟨.openTag, 0, 1⟩, ⟨.name "extension", 1, 10⟩, ⟨.selfClose, 10, 12⟩]
      ("<" : String).utf8ByteSize := .inr ⟨_, List.mem_cons_self, rfl⟩
  have hfilling : Filling "<!---a-->\n".toList := by
    have hchars : "<!---a-->\n".toList =
        ['<', '!', '-', '-'] ++ ['-', 'a'] ++ ['-', '-', '>'] ++ ['\n'] := by
      decide
    rw [hchars]
    exact .comment (by decide) (by decide) (.blank (.inr (.inr (.inr rfl))) .nil)
  exact ⟨hscan, read_of_seam hscan hseam hfilling⟩

end

end Dialplan.Markup
