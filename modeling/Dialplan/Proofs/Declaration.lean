import Dialplan.Proofs.Layout
import Mathlib
/-!
# Where a declaration ends

Between its marks a declaration is taken one character after another, but a question mark takes the
next character along. So of question marks that stand together every second one is only taken along,
and a `?>` behind an odd number of them is not seen: the declaration goes on behind it.

* `marksAtEnd`: how many question marks a body ends with;
* `declaration_of_body`: **the first `?>` ends a declaration exactly behind an even number of them**;
* `scan_of_declaration`: what becomes of the text behind it, in both cases.
-/

namespace Dialplan.Markup

open Dialplan.Text

/-! ## 1. Question marks at the end of a body -/

/-- How many question marks stand at the end. -/
def marksAtEnd (cs : List Char) : Nat := (cs.reverse.takeWhile (· = '?')).length

section

variable {c d : Char} {cs : List Char}

/-- What stands in front of a last run of question marks does not count. -/
theorem marksAtEnd_cons (c : Char) (cs : List Char) :
    marksAtEnd (c :: cs) = if c = '?' ∧ marksAtEnd cs = cs.length then cs.length + 1
      else marksAtEnd cs := by
  unfold marksAtEnd
  rw [List.reverse_cons, List.takeWhile_append, List.length_reverse]
  by_cases hall : (cs.reverse.takeWhile (· = '?')).length = cs.length
  · by_cases hc : c = '?'
    · simp [hall, hc]
    · simp [hall, hc]
  · simp [hall]

theorem marksAtEnd_of_ne (hc : c ≠ '?') : marksAtEnd (c :: cs) = marksAtEnd cs := by
  rw [marksAtEnd_cons, if_neg fun h => hc h.1]

/-- A question mark and the character that it takes along leave the rest as even or odd as it was. -/
theorem even_marksAtEnd (d : Char) (cs : List Char) :
    Even (marksAtEnd ('?' :: d :: cs)) ↔ Even (marksAtEnd cs) := by
  have hle : marksAtEnd cs ≤ cs.length := by
    unfold marksAtEnd
    exact (List.takeWhile_prefix _).length_le.trans_eq List.length_reverse
  rw [marksAtEnd_cons, marksAtEnd_cons d, List.length_cons]
  by_cases h : d = '?' ∧ marksAtEnd cs = cs.length
  · rw [if_pos h, if_pos ⟨rfl, rfl⟩, h.2]
    exact Nat.even_add_one.trans (Nat.even_add_one.not.trans not_not)
  · rw [if_neg h, if_neg fun h' => by omega]

end

/-! ## 2. The end of a declaration -/

theorem Stretch.cons_cons (front more : List Char) (s : Stretch) :
    (s.cons more).cons front = s.cons (front ++ more) := by
  cases s <;> simp [Stretch.cons]

/-- **The first `?>` ends a declaration exactly behind an even number of question marks.** Behind an
    odd number the last of them takes along the one of the end mark, and the text that follows is
    taken for more of the declaration. -/
theorem declaration_of_body {body : List Char} (h : ¬ ['?', '>'] <:+: body) (after : List Char) :
    declaration (body ++ '?' :: '>' :: after) =
      if Even (marksAtEnd body) then .closed body after
      else (declaration after).cons (body ++ ['?', '>']) := by
  induction body using List.twoStepInduction with
  | nil => rfl
  | singleton c =>
    by_cases hc : c = '?'
    · subst hc
      have hodd : ¬ Even (marksAtEnd ['?']) := by decide
      rw [if_neg hodd]
      simp [declaration, Stretch.cons_cons]
    · have heven : Even (marksAtEnd [c]) := by
        rw [marksAtEnd_of_ne hc]
        exact ⟨0, rfl⟩
      rw [if_pos heven]
      simp [declaration, hc, Stretch.cons]
  | cons_cons c d rest ihrest ihcons =>
    by_cases hc : c = '?'
    · subst hc
      have hd : d ≠ '>' := fun e => h ⟨[], rest, by rw [e]; rfl⟩
      have hrest := ihrest fun hi =>
        h (hi.trans ((List.suffix_cons d rest).trans (List.suffix_cons '?' _)).isInfix)
      have hstep : declaration (('?' :: d :: rest) ++ '?' :: '>' :: after) =
          (declaration (rest ++ '?' :: '>' :: after)).cons ['?', d] := by
        simp [declaration]
      rw [hstep, hrest]
      simp only [even_marksAtEnd]
      split
      · rfl
      · exact Stretch.cons_cons ..
    · have hrest := ihcons d fun hi => h (hi.trans (List.suffix_cons c _).isInfix)
      rw [List.cons_append] at hrest
      have hstep : declaration ((c :: d :: rest) ++ '?' :: '>' :: after) =
          (declaration (d :: (rest ++ '?' :: '>' :: after))).cons [c] := by
        simp [declaration, hc]
      rw [hstep, hrest, marksAtEnd_of_ne hc]
      split
      · rfl
      · exact Stretch.cons_cons ..

/-! ## 3. The text behind a declaration -/

section

variable {cs inner after : List Char}

/-- A declaration that ends is layout. -/
theorem scanFrom_declaration (h : declaration cs = .closed inner after) (pos : Nat) :
    scanFrom pos ('<' :: '?' :: cs) = scanFrom (pos + (width inner + 4)) after := by
  have hn : next ('<' :: '?' :: cs) = .layout (['<', '?'] ++ inner ++ ['?', '>']) after := by
    show Next.ofStretch _ _ (declaration cs) = _
    rw [h]
    rfl
  rw [scanFrom_layout hn, width_append, width_append]
  congr 1
  show pos + (2 + width inner + 2) = _
  omega

/-- A declaration that does not end breaks the text off at its first byte. -/
theorem scanFrom_declaration_broken (h : declaration cs = .broken inner) (pos : Nat) :
    scanFrom pos ('<' :: '?' :: cs) =
      .error (.unrecognized pos (String.ofList ('<' :: '?' :: inner))) := by
  have hn : next ('<' :: '?' :: cs) = .broken ('<' :: '?' :: inner) := by
    show Next.ofStretch _ _ (declaration cs) = _
    rw [h]
    rfl
  exact scanFrom_broken hn pos

end

/-- **What becomes of a text behind a declaration** whose body has no `?>` in it. If the body ends
    with an even number of question marks, the tokens are those of the text, moved by the length of
    the declaration. If it ends with an odd number, the text is read on as the inside of a
    declaration: up to the `?>` that this one ends with nothing of the text becomes a token, and if
    there is none the whole is broken. -/
theorem scan_of_declaration {body text : String} {lts : List (Located Token)}
    (hbody : ¬ ['?', '>'] <:+: body.toList) (hscan : scan text = .ok lts) :
    (Even (marksAtEnd body.toList) → scan ("<?" ++ body ++ "?>" ++ text) =
      .ok (lts.map (moved (body.utf8ByteSize + 4)))) ∧
    (¬ Even (marksAtEnd body.toList) →
      (∀ inner after, declaration text.toList = .closed inner after →
        scan ("<?" ++ body ++ "?>" ++ text) =
          scanFrom (body.utf8ByteSize + 4 + (width inner + 2)) after) ∧
      ∀ inner, declaration text.toList = .broken inner →
        scan ("<?" ++ body ++ "?>" ++ text) =
          .error (.unrecognized 0 ("<?" ++ body ++ "?>" ++ String.ofList inner))) := by
  have hchars : ("<?" ++ body ++ "?>" ++ text).toList =
      '<' :: '?' :: (body.toList ++ '?' :: '>' :: text.toList) := by
    simp [String.toList_append]
  have hend := declaration_of_body hbody text.toList
  unfold scan
  rw [hchars]
  refine ⟨fun heven => ?_, fun hodd => ⟨fun inner after h => ?_, fun inner h => ?_⟩⟩
  · rw [if_pos heven] at hend
    rw [scanFrom_declaration hend, Nat.add_comm, Nat.add_zero, width_toList]
    have hmoved := scanFrom_moved (body.utf8ByteSize + 4) hscan
    rwa [Nat.zero_add] at hmoved
  · rw [if_neg hodd, h] at hend
    rw [scanFrom_declaration hend, width_append, width_append, width_toList]
    congr 1
    show 0 + (body.utf8ByteSize + 2 + width inner + 4) = _
    omega
  · rw [if_neg hodd, h] at hend
    rw [scanFrom_declaration_broken hend]
    congr 2
    apply String.toList_injective
    simp [String.toList_append]

/-- Behind two question marks the end mark is seen, and behind one it is not: there the text is
    taken for more of the declaration, and as it has no end mark of its own, nothing is left. -/
theorem scan_of_declaration_marks :
    (¬ ['?', '>'] <:+: "a??".toList ∧ ¬ ['?', '>'] <:+: "a?".toList ∧
      scan "<extension/>" = .ok
        [⟨.openTag, 0, 1⟩, ⟨.name "extension", 1, 10⟩, ⟨.selfClose, 10, 12⟩]) ∧
    scan "<?a???><extension/>" = .ok
      [⟨.openTag, 7, 8⟩, ⟨.name "extension", 8, 17⟩, ⟨.selfClose, 17, 19⟩] ∧
    scan "<?a??><extension/>" = .error (.unrecognized 0 "<?a??><extension/>") := by
  have htwo : ¬ ['?', '>'] <:+: "a??".toList := by decide
  have hone : ¬ ['?', '>'] <:+: "a?".toList := by decide
  have hscan : scan "<extension/>" = .ok
      [⟨.openTag, 0, 1⟩, ⟨.name "extension", 1, 10⟩, ⟨.selfClose, 10, 12⟩] := by
    cbv
  have heven : Even (marksAtEnd "a??".toList) := by decide
  have hodd : ¬ Even (marksAtEnd "a?".toList) := by decide
  have hbroken : declaration "<extension/>".toList = .broken "<extension/>".toList := by decide
  exact ⟨⟨htwo, hone, hscan⟩, (scan_of_declaration htwo hscan).1 heven,
    ((scan_of_declaration hone hscan).2 hodd).2 _ hbroken⟩

/-- **A declaration can take along markup that follows it**: its body has no end mark in it, the
    text behind it has three tokens, and all of them are gone without an error. -/
theorem exists_scan_swallowed :
    ∃ body text, ¬ ['?', '>'] <:+: body.toList ∧
      scan text = .ok [⟨.openTag, 0, 1⟩, ⟨.name "extension", 1, 10⟩, ⟨.selfClose, 10, 12⟩] ∧
      scan ("<?" ++ body ++ "?>" ++ text) = .ok [] := by
  refine ⟨"a?", "<extension/><?b?>", by decide, by cbv, ?_⟩
  have hchars : ("<?" ++ "a?" ++ "?>" ++ "<extension/><?b?>").toList =
      '<' :: '?' :: "a??><extension/><?b?>".toList := by
    decide
  have hend : declaration "a??><extension/><?b?>".toList =
      .closed "a??><extension/><?b".toList [] := by
    decide
  unfold scan
  rw [hchars, scanFrom_declaration hend, scanFrom_nil]

end Dialplan.Markup
