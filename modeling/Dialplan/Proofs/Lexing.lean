import Dialplan.Markup.Entity
import Dialplan.Markup.Tokens
import Mathlib.Tactic.Common
/-!
# Texts and their tokens

Which tokens a text has, said without positions and without the scanner's recursion.

* `decode_escape`: a value that was written with references reads as it was;
* `Lexes`: a text divides into these tokens, with layout between them; `Lexes.scanFrom` hands such a
  division to the scanner;
* one lemma for each sort of token, each with what follows the token as a parameter;
* `isValidKey_of_scanFrom`: whatever the scanner calls a name is one;
* `value_of_scanFrom`: whatever it calls a value stands between quotes in the text.
-/

namespace Dialplan.Markup

open Dialplan.Text

/-! ## 1. References -/

theorem mem_escapeChar {c d : Char} (h : d ∈ escapeChar c) : d ≠ '"' := by
  unfold escapeChar at h
  split at h
  case h_5 hn =>
    rintro rfl
    exact hn (List.mem_singleton.mp h).symm
  all_goals
    rintro rfl
    exact absurd h (by decide)

/-- Between double quotes no double quote is written. -/
theorem quote_not_mem_escapeChars (cs : List Char) : '"' ∉ escapeChars cs := fun h => by
  obtain ⟨c, -, hc⟩ := List.mem_flatMap.mp h
  exact mem_escapeChar hc rfl

theorem decodeFrom_plain {c : Char} (h : c ≠ '&') (pos : Nat) (rest : List Char) :
    decodeFrom pos (c :: rest) = (decodeFrom (pos + c.utf8Size) rest).map (c :: ·) := by
  rw [decodeFrom, if_neg h]

/-- A reference with a known name is read as its character. -/
theorem decodeFrom_reference (name : List Char) {after : List Char} {d : Char}
    (hr : reference? name = some d) (hn : ';' ∉ name) (pos : Nat) :
    decodeFrom pos ('&' :: (name ++ ';' :: after)) =
      (decodeFrom (pos + 2 + width name) after).map (d :: ·) := by
  have hc : cutAt ';' (name ++ ';' :: after) = some (name, after) :=
    (cutAt_eq_some_iff _ _ _ _).mpr ⟨rfl, hn⟩
  rw [decodeFrom, if_pos rfl]
  split
  · rename_i h
    rw [hc] at h
    cases h
  · rename_i nm aft h
    rw [hc] at h
    cases h
    rw [hr]

/-- What one escaped character is read as. -/
theorem decodeFrom_escapeChar (c : Char) (pos : Nat) (rest : List Char) :
    ∃ pos', decodeFrom pos (escapeChar c ++ rest) = (decodeFrom pos' rest).map (c :: ·) := by
  unfold escapeChar
  split
  · exact ⟨_, decodeFrom_reference ['a', 'm', 'p'] rfl (by decide) pos⟩
  · exact ⟨_, decodeFrom_reference ['l', 't'] rfl (by decide) pos⟩
  · exact ⟨_, decodeFrom_reference ['g', 't'] rfl (by decide) pos⟩
  · exact ⟨_, decodeFrom_reference ['q', 'u', 'o', 't'] rfl (by decide) pos⟩
  · rename_i h _ _ _
    exact ⟨_, decodeFrom_plain h pos rest⟩

theorem decodeFrom_escapeChars : ∀ (cs : List Char) (pos : Nat),
    decodeFrom pos (escapeChars cs) = .ok cs
  | [], pos => by
      unfold escapeChars
      rw [List.flatMap_nil, decodeFrom]
  | c :: rest, pos => by
      obtain ⟨pos', h⟩ := decodeFrom_escapeChar c pos (escapeChars rest)
      have hc : escapeChars (c :: rest) = escapeChar c ++ escapeChars rest := List.flatMap_cons
      rw [hc, h, decodeFrom_escapeChars rest pos']
      rfl

/-- **Reading undoes writing**: an escaped value stands for the value, wherever it is. -/
theorem decode_escape (v : String) (pos : Nat) : decode (escape v) pos = .ok v := by
  unfold decode escape
  rw [String.toList_ofList, decodeFrom_escapeChars]
  exact congrArg Except.ok (String.ofList_toList)

/-! ## 2. What a text begins with -/

theorem next_layout {c : Char} (h : isLayout c = true) (rest : List Char) :
    next (c :: rest) = .layout [c] rest := by
  unfold isLayout at h
  simp only [Bool.or_eq_true, decide_eq_true_eq] at h
  rcases h with ((rfl | rfl) | rfl) | rfl <;> rfl

/-- A character that starts a name starts nothing else. -/
theorem next_head {c : Char} (h : Name.isHead c = true) (rest : List Char) :
    next (c :: rest) = .token (.name (String.ofList (c :: rest.takeWhile Name.isTail)))
      (c :: rest.takeWhile Name.isTail) (rest.dropWhile Name.isTail) := by
  have hl : isLayout c = false := by
    by_contra hc
    rw [Bool.not_eq_false] at hc
    unfold isLayout at hc
    simp only [Bool.or_eq_true, decide_eq_true_eq] at hc
    rcases hc with ((rfl | rfl) | rfl) | rfl <;> exact absurd h (by decide)
  unfold next
  split
  case h_11 =>
    rename_i heq
    cases heq
    simp only [hl, h, if_true, Bool.false_eq_true, if_false]
  all_goals
    rename_i heq
    cases heq
    try exact absurd h (by decide)

/-- No name starts with a blank. -/
theorem isBlank_of_isHead {c : Char} (h : Name.isHead c = true) : isBlank c = false := by
  have hrange : 65 ≤ c.toNat ∧ c.toNat ≤ 122 := by
    unfold Name.isHead at h
    rw [Bool.or_eq_true, decide_eq_true_eq] at h
    rcases h with h | rfl
    · change (decide ('A'.val ≤ c.val ∧ c.val ≤ 'Z'.val) ||
        (decide ('a'.val ≤ c.val) && decide (c.val ≤ 'z'.val))) = true at h
      rw [Bool.or_eq_true, Bool.and_eq_true, decide_eq_true_eq, decide_eq_true_eq,
        decide_eq_true_eq] at h
      have hletter : (65 ≤ c.toNat ∧ c.toNat ≤ 90) ∨ (97 ≤ c.toNat ∧ c.toNat ≤ 122) := h
      omega
    · decide
  by_contra hb
  rw [Bool.not_eq_false] at hb
  simp [isBlank, inRanges, blankRanges] at hb
  omega

/-- A blank starts no token. -/
theorem not_token_of_isBlank {c : Char} (h : isBlank c = true) (rest : List Char) {t : Token}
    {taken after : List Char} : next (c :: rest) ≠ .token t taken after := by
  have hh : Name.isHead c = false := by
    by_contra hc
    rw [Bool.not_eq_false] at hc
    rw [isBlank_of_isHead hc] at h
    cases h
  intro he
  unfold next at he
  split at he
  case h_11 =>
    rename_i heq
    cases heq
    rw [hh, if_neg Bool.false_ne_true] at he
    split at he
    all_goals cases he
  all_goals
    rename_i heq
    cases heq
  all_goals cases h

/-- A `<` before a name opens neither a comment, nor a declaration, nor an end tag. -/
theorem next_openTag {c : Char} (h : Name.isHead c = true) (rest : List Char) :
    next ('<' :: c :: rest) = .token .openTag ['<'] (c :: rest) := by
  unfold next
  split
  case h_11 =>
    rename_i hc _ _ _ _ _ heq
    exact absurd (List.cons.inj heq).1.symm hc
  all_goals
    rename_i heq
    cases heq
  all_goals first | rfl | exact absurd h (by decide)

/-- The text begins with a character that no name goes on with. -/
def Stops (cs : List Char) : Prop := ∃ d rest, cs = d :: rest ∧ Name.isTail d = false

theorem stops_cons {d : Char} (hd : Name.isTail d = false) (rest : List Char) :
    Stops (d :: rest) :=
  ⟨d, rest, rfl, hd⟩

theorem takeWhile_append_of_stops {name cs : List Char} (hn : name.all Name.isTail = true)
    (hs : Stops cs) : (name ++ cs).takeWhile Name.isTail = name ∧
      (name ++ cs).dropWhile Name.isTail = cs := by
  obtain ⟨d, rest, rfl, hd⟩ := hs
  have ha : ∀ c ∈ name, Name.isTail c = true := List.all_eq_true.mp hn
  rw [List.takeWhile_append_of_pos ha, List.dropWhile_append_of_pos ha]
  simp [hd]

theorem next_name {name cs : List Char} (hn : Name.isName name = true) (hs : Stops cs) :
    next (name ++ cs) = .token (.name (String.ofList name)) name cs := by
  cases name with
  | nil => cases hn
  | cons c tail =>
    unfold Name.isName at hn
    rw [Bool.and_eq_true] at hn
    obtain ⟨h1, h2⟩ := takeWhile_append_of_stops hn.2 hs
    rw [List.cons_append, next_head hn.1, h1, h2]

theorem next_value {v : List Char} (hv : '"' ∉ v) (rest : List Char) :
    next ('"' :: (v ++ '"' :: rest)) =
      .token (.value (String.ofList v)) ('"' :: v ++ ['"']) rest := by
  have hc : cutAt '"' (v ++ '"' :: rest) = some (v, rest) :=
    (cutAt_eq_some_iff _ _ _ _).mpr ⟨rfl, hv⟩
  show quoted '"' (v ++ '"' :: rest) = _
  unfold quoted
  rw [hc]

/-! ## 3. Divisions -/

/-- The characters divide into these tokens, with layout between them. -/
inductive Lexes : List Char → List Token → Prop
  | nil : Lexes [] []
  | layout {cs taken rest : List Char} {ts : List Token} :
      next cs = .layout taken rest → Lexes rest ts → Lexes cs ts
  | token {cs taken rest : List Char} {t : Token} {ts : List Token} :
      next cs = .token t taken rest → Lexes rest ts → Lexes cs (t :: ts)

/-- **The scanner finds the tokens of a division**, from whatever byte it counts. -/
theorem Lexes.scanFrom {cs : List Char} {ts : List Token} (h : Lexes cs ts) (pos : Nat) :
    ∃ lts, Markup.scanFrom pos cs = .ok lts ∧ lts.map (·.value) = ts := by
  induction h generalizing pos with
  | nil =>
    refine ⟨[], ?_, rfl⟩
    rw [Markup.scanFrom]
    rfl
  | @layout cs taken rest ts hn _ ih =>
    obtain ⟨lts, h1, h2⟩ := ih (pos + width taken)
    refine ⟨lts, ?_, h2⟩
    rw [Markup.scanFrom]
    split
    all_goals
      rename_i he
      rw [hn] at he
      cases he
    exact h1
  | @token cs taken rest t ts hn _ ih =>
    obtain ⟨lts, h1, h2⟩ := ih (pos + width taken)
    refine ⟨⟨t, pos, pos + width taken⟩ :: lts, ?_, congrArg (t :: ·) h2⟩
    rw [Markup.scanFrom]
    split
    all_goals
      rename_i he
      rw [hn] at he
      cases he
    rw [h1]

section Lexemes

variable {rest : List Char} {ts : List Token}

/-- Layout in front changes nothing. -/
theorem lexes_layout (cs : List Char) (hc : ∀ c ∈ cs, isLayout c = true) (h : Lexes rest ts) :
    Lexes (cs ++ rest) ts := by
  induction cs with
  | nil => exact h
  | cons c cs ih =>
    exact .layout (next_layout (hc c List.mem_cons_self) (cs ++ rest))
      (ih fun d hd => hc d (List.mem_cons_of_mem c hd))

theorem lexes_name {name : List Char} (hn : Name.isName name = true) (hs : Stops rest)
    (h : Lexes rest ts) : Lexes (name ++ rest) (.name (String.ofList name) :: ts) :=
  .token (next_name hn hs) h

theorem lexes_openTag {name : List Char} (hn : Name.isName name = true) (hs : Stops rest)
    (h : Lexes rest ts) :
    Lexes ('<' :: (name ++ rest)) (.openTag :: .name (String.ofList name) :: ts) := by
  cases name with
  | nil => cases hn
  | cons c tail =>
    refine .token (next_openTag ?_ (tail ++ rest)) (lexes_name hn hs h)
    unfold Name.isName at hn
    rw [Bool.and_eq_true] at hn
    exact hn.1

theorem lexes_openEnd (h : Lexes rest ts) : Lexes ('<' :: '/' :: rest) (.openEnd :: ts) :=
  .token (show next ('<' :: '/' :: rest) = .token .openEnd ['<', '/'] rest from rfl) h

theorem lexes_close (h : Lexes rest ts) : Lexes ('>' :: rest) (.close :: ts) :=
  .token (show next ('>' :: rest) = .token .close ['>'] rest from rfl) h

theorem lexes_selfClose (h : Lexes rest ts) : Lexes ('/' :: '>' :: rest) (.selfClose :: ts) :=
  .token (show next ('/' :: '>' :: rest) = .token .selfClose ['/', '>'] rest from rfl) h

theorem lexes_equals (h : Lexes rest ts) : Lexes ('=' :: rest) (.equals :: ts) :=
  .token (show next ('=' :: rest) = .token .equals ['='] rest from rfl) h

theorem lexes_value {v : List Char} (hv : '"' ∉ v) (h : Lexes rest ts) :
    Lexes ('"' :: (v ++ '"' :: rest)) (.value (String.ofList v) :: ts) :=
  .token (next_value hv rest) h

end Lexemes

/-- A blank text has no tokens. -/
theorem eq_nil_of_scanFrom_blank {pos : Nat} {cs : List Char} {lts : List (Located Token)}
    (h : scanFrom pos cs = .ok lts) (hb : cs.all isBlank = true) : lts = [] := by
  fun_induction scanFrom pos cs generalizing lts with
  | case1 =>
    cases h
    rfl
  | case2 => cases h
  | case3 pos cs taken rest hn ih =>
    have hs := next_splits cs
    rw [hn] at hs
    rw [hs.1, List.all_append, Bool.and_eq_true] at hb
    exact ih h hb.2
  | case4 => cases h
  | case5 pos cs u taken rest hn us hus ih =>
    cases cs with
    | nil => cases hn
    | cons c cs =>
      rw [List.all_cons, Bool.and_eq_true] at hb
      exact absurd hn (not_token_of_isBlank hb.1 cs)

/-! ## 4. Names -/

/-- A name at the front of a text can be written as a key. -/
theorem isValidKey_of_next {cs taken rest : List Char} {n : String}
    (h : next cs = .token (.name n) taken rest) : Attributes.isValidKey n = true := by
  unfold next at h
  split at h
  case h_11 =>
    split at h
    · cases h
    · split at h
      · rename_i hh
        cases h
        unfold Attributes.isValidKey Name.isName
        rw [String.toList_ofList]
        simp only [hh, Bool.true_and, List.all_takeWhile]
      · cases h
  all_goals first
    | cases h
    | (unfold quoted at h; split at h <;> cases h)
    | (rename_i r; cases hc : comment r <;> rw [hc] at h <;> cases h)
    | (rename_i r; cases hc : declaration r <;> rw [hc] at h <;> cases h)

/-- **Whatever the scanner calls a name is one.** -/
theorem isValidKey_of_scanFrom {pos : Nat} {cs : List Char} {lts : List (Located Token)}
    (h : scanFrom pos cs = .ok lts) {t : Located Token} (ht : t ∈ lts) {n : String}
    (hn : t.value = .name n) : Attributes.isValidKey n = true := by
  fun_induction scanFrom pos cs generalizing lts with
  | case1 =>
    cases h
    exact absurd ht List.not_mem_nil
  | case2 => cases h
  | case3 _ _ _ _ _ ih => exact ih h ht
  | case4 => cases h
  | case5 pos cs u taken rest hu us hus ih =>
    cases h
    rcases List.mem_cons.mp ht with rfl | ht
    · exact isValidKey_of_next (hu.trans (by rw [← hn]))
    · exact ih hus ht

/-! ## 5. Values -/

/-- A value at the front of a text stands between two quotes of the same sort. -/
theorem value_of_next {cs taken rest : List Char} {raw : String}
    (h : next cs = .token (.value raw) taken rest) :
    ∃ q, (q = '"' ∨ q = '\'') ∧ cs = q :: (raw.toList ++ q :: rest) ∧ q ∉ raw.toList := by
  have quoted_value : ∀ q cs, quoted q cs = .token (.value raw) taken rest →
      cs = raw.toList ++ q :: rest ∧ q ∉ raw.toList := by
    intro q cs hq
    unfold quoted at hq
    split at hq
    · rename_i body after hc
      cases hq
      rw [String.toList_ofList]
      exact (cutAt_eq_some_iff _ _ _ _).mp hc
    · cases hq
  unfold next at h
  split at h
  case h_9 =>
    obtain ⟨rfl, hm⟩ := quoted_value _ _ h
    exact ⟨_, .inl rfl, rfl, hm⟩
  case h_10 =>
    obtain ⟨rfl, hm⟩ := quoted_value _ _ h
    exact ⟨_, .inr rfl, rfl, hm⟩
  case h_11 =>
    split at h
    · cases h
    · split at h <;> cases h
  all_goals first
    | cases h
    | (rename_i r; cases hc : comment r <;> rw [hc] at h <;> cases h)
    | (rename_i r; cases hc : declaration r <;> rw [hc] at h <;> cases h)

/-- **Whatever the scanner calls a value stands between quotes**, where the token says. -/
theorem value_of_scanFrom {pos : Nat} {cs : List Char} {lts : List (Located Token)}
    (h : scanFrom pos cs = .ok lts) {t : Located Token} (ht : t ∈ lts) {raw : String}
    (hr : t.value = .value raw) :
    ∃ before q after, cs = before ++ q :: (raw.toList ++ q :: after) ∧ (q = '"' ∨ q = '\'') ∧
      q ∉ raw.toList ∧ t.start = pos + width before := by
  fun_induction scanFrom pos cs generalizing lts with
  | case1 =>
    cases h
    exact absurd ht List.not_mem_nil
  | case2 => cases h
  | case3 pos cs taken rest hn ih =>
    have hs := next_splits cs
    rw [hn] at hs
    obtain ⟨before, q, after, rfl, hq, hm, hp⟩ := ih h ht
    refine ⟨taken ++ before, q, after, ?_, hq, hm, ?_⟩
    · rw [hs.1, List.append_assoc]
    · rw [hp, width_append, Nat.add_assoc]
  | case4 => cases h
  | case5 pos cs u taken rest hn us hus ih =>
    cases h
    rcases List.mem_cons.mp ht with rfl | ht
    · have hv : u = .value raw := hr
      rw [hv] at hn
      obtain ⟨q, hq, hc, hm⟩ := value_of_next hn
      exact ⟨[], q, rest, hc, hq, hm, rfl⟩
    · have hs := next_splits cs
      rw [hn] at hs
      obtain ⟨before, q, after, hc, hq, hm, hp⟩ := ih hus ht
      refine ⟨taken ++ before, q, after, ?_, hq, hm, ?_⟩
      · rw [hs.1, hc, List.append_assoc]
      · rw [hp, width_append, Nat.add_assoc]

end Dialplan.Markup
