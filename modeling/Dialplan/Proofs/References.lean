import Dialplan.Proofs.Digits
import Dialplan.Proofs.Grammar
import Dialplan.Proofs.Offsets
import Mathlib
/-!
# Which references are read

The references of the markup are told here without the reader: five names, and the numbers of
characters in decimal and in hexadecimal. A value should be read exactly when it is made of other
characters and of these references, and should otherwise be refused at its first ampersand that
begins none. So it is, but for one thing: digits may have a plus sign in front.

* `Reference`, `Signed`: the references, and what is read as one beside them;
* `reference?_eq_some_iff`: **these two sorts are all that is read as a reference**;
* `Encodes`, `Loose`: a text made of characters and references, and the first ampersand of a text
  that begins no reference; every text has one or the other (`encodes_or_loose`);
* `decode_references`: **what becomes of every value**, and for which of them the references that
  there are decide it.
-/

namespace Dialplan.Markup

open Dialplan.Text

/-! ## 1. References -/

/-- What stands in front of the digits of a number, and the base that they are in. -/
inductive Mark : List Char → Nat → Prop
  | decimal : Mark ['#'] 10
  | lower : Mark ['#', 'x'] 16
  | upper : Mark ['#', 'X'] 16

/-- **The references that there are**: what stands between the ampersand and the semicolon, and the
    character that it stands for. -/
inductive Reference : List Char → Char → Prop
  | amp : Reference ['a', 'm', 'p'] '&'
  | lt : Reference ['l', 't'] '<'
  | gt : Reference ['g', 't'] '>'
  | quot : Reference ['q', 'u', 'o', 't'] '"'
  | apos : Reference ['a', 'p', 'o', 's'] '\''
  | number {mark digits : List Char} {base n : Nat} (hm : Mark mark base)
      (hd : Writes base n digits) (hn : n.isValidChar) : Reference (mark ++ digits) (Char.ofNat n)

/-- What is no reference and is read as one: the number of a character with a plus sign. -/
inductive Signed : List Char → Char → Prop
  | number {mark digits : List Char} {base n : Nat} (hm : Mark mark base)
      (hd : Writes base n digits) (hn : n.isValidChar) :
    Signed (mark ++ '+' :: digits) (Char.ofNat n)

/-- All that is read as a reference. -/
def Taken (name : List Char) (c : Char) : Prop := Reference name c ∨ Signed name c

section

variable {mark name digits : List Char} {c : Char} {base n : Nat}

theorem Mark.base_le (h : Mark mark base) : base ≤ 16 := by
  cases h <;> decide

theorem scalar?_eq_some_iff : scalar? n = some c ↔ n.isValidChar ∧ Char.ofNat n = c := by
  unfold scalar?
  split
  · rename_i h
    simp [h]
  · rename_i h
    simp [h]

/-- What digits behind a mark stand for, with a sign or without one. -/
theorem taken_of_signedNatural? (hm : Mark mark base)
    (h : (signedNatural? base digits).bind scalar? = some c) : Taken (mark ++ digits) c := by
  obtain ⟨n, hsigned, hc⟩ := Option.bind_eq_some_iff.mp h
  obtain ⟨hn, rfl⟩ := scalar?_eq_some_iff.mp hc
  rcases (signedNatural?_eq_some_iff hm.base_le).mp hsigned with hd | ⟨unsigned, rfl, hd⟩
  · exact .inl (.number hm hd hn)
  · exact .inr (.number hm hd hn)

theorem reference?_number (hm : Mark mark base) (hx : 'x' ∉ digits) (hX : 'X' ∉ digits) :
    reference? (mark ++ digits) = (signedNatural? base digits).bind scalar? := by
  cases hm with
  | decimal =>
    show reference? ('#' :: digits) = _
    rw [reference?]
    · rintro rest rfl
      exact hx List.mem_cons_self
    · rintro rest rfl
      exact hX List.mem_cons_self
  | lower => rfl
  | upper => rfl

/-- Digits behind a mark stand for the character with their number, also behind a plus sign. -/
theorem reference?_writes (hm : Mark mark base) (hd : Writes base n digits) (hn : n.isValidChar) :
    reference? (mark ++ digits) = some (Char.ofNat n) ∧
      reference? (mark ++ '+' :: digits) = some (Char.ofNat n) := by
  have hx : 'x' ∉ digits := hd.not_mem hm.base_le (by decide)
  have hX : 'X' ∉ digits := hd.not_mem hm.base_le (by decide)
  have hc : scalar? n = some (Char.ofNat n) := scalar?_eq_some_iff.mpr ⟨hn, rfl⟩
  constructor
  · rw [reference?_number hm hx hX, (signedNatural?_eq_some_iff hm.base_le).mpr (.inl hd)]
    exact hc
  · rw [reference?_number hm (by simp [hx]) (by simp [hX]),
      (signedNatural?_eq_some_iff hm.base_le).mpr (.inr ⟨digits, rfl, hd⟩)]
    exact hc

/-- **What is read as a reference**: the references, and numbers with a plus sign. -/
theorem reference?_eq_some_iff : reference? name = some c ↔ Taken name c := by
  constructor
  · intro h
    unfold reference? at h
    split at h
    · cases h
      exact .inl .amp
    · cases h
      exact .inl .lt
    · cases h
      exact .inl .gt
    · cases h
      exact .inl .quot
    · cases h
      exact .inl .apos
    · exact taken_of_signedNatural? .lower h
    · exact taken_of_signedNatural? .upper h
    · exact taken_of_signedNatural? .decimal h
    · cases h
  · rintro (h | h)
    · cases h with
      | amp => rfl
      | lt => rfl
      | gt => rfl
      | quot => rfl
      | apos => rfl
      | number hm hd hn => exact (reference?_writes hm hd hn).1
    · cases h with
      | number hm hd hn => exact (reference?_writes hm hd hn).2

/-- Neither end of a reference stands inside one. -/
theorem Taken.not_mem (h : Taken name c) : '&' ∉ name ∧ ';' ∉ name := by
  have hnumber : ∀ {mark digits : List Char} {base n : Nat}, Mark mark base →
      Writes base n digits → ('&' ∉ mark ∧ '&' ∉ digits) ∧ ';' ∉ mark ∧ ';' ∉ digits := by
    intro mark digits base n hm hd
    have hamp : '&' ∉ digits := hd.not_mem hm.base_le (by decide)
    have hsemi : ';' ∉ digits := hd.not_mem hm.base_le (by decide)
    cases hm <;> exact ⟨⟨by decide, hamp⟩, by decide, hsemi⟩
  rcases h with h | h
  · cases h with
    | number hm hd hn =>
      obtain ⟨⟨ha, hb⟩, hc, hd⟩ := hnumber hm hd
      simp [ha, hb, hc, hd]
    | _ => decide
  · cases h with
    | number hm hd hn =>
      obtain ⟨⟨ha, hb⟩, hc, hd⟩ := hnumber hm hd
      simp [ha, hb, hc, hd]

theorem Reference.not_mem (name : List Char) (c : Char) (h : Reference name c) : '&' ∉ name :=
  (Taken.not_mem (.inl h)).1

end

/-! ## 2. Texts made of references -/

/-- A reference begins the text. -/
def Begins (R : List Char → Char → Prop) (cs : List Char) : Prop :=
  ∃ name c rest, R name c ∧ cs = '&' :: (name ++ ';' :: rest)

/-- The first text is one of characters other than the ampersand and of references, and the second
    is what they stand for, one after another. -/
inductive Encodes (R : List Char → Char → Prop) : List Char → List Char → Prop
  | nil : Encodes R [] []
  | plain {c : Char} {cs ds : List Char} (hc : c ≠ '&') (h : Encodes R cs ds) :
    Encodes R (c :: cs) (c :: ds)
  | reference {name : List Char} {d : Char} {cs ds : List Char} (hr : R name d)
      (h : Encodes R cs ds) : Encodes R ('&' :: (name ++ ';' :: cs)) (d :: ds)

/-- Between the two parts of a text stands the first ampersand of it that begins no reference. -/
structure Loose (R : List Char → Char → Prop) (cs before after : List Char) : Prop where
  text : cs = before ++ '&' :: after
  loose : ¬ Begins R ('&' :: after)
  first : ∀ front behind, before = front ++ '&' :: behind →
    Begins R ('&' :: (behind ++ '&' :: after))

section

variable {R : List Char → Char → Prop} {name cs ds before after front behind : List Char}
  {c d : Char}

/-- An ampersand that is not in a name stands behind the semicolon that ends the name. -/
theorem exists_behind (hn : '&' ∉ name) (h : name ++ ';' :: cs = front ++ '&' :: behind) :
    ∃ more, front = name ++ ';' :: more ∧ cs = more ++ '&' :: behind := by
  rcases List.append_eq_append_iff.mp h with ⟨more, rfl, hmore⟩ | ⟨more, rfl, hmore⟩
  · cases more with
    | nil => cases hmore
    | cons _ more =>
      obtain ⟨rfl, hcs⟩ := List.cons.inj hmore
      exact ⟨more, rfl, hcs⟩
  · cases more with
    | nil => cases hmore
    | cons _ more =>
      obtain ⟨rfl, -⟩ := List.cons.inj hmore
      exact absurd (List.mem_append_right front List.mem_cons_self) hn

namespace Loose

theorem here (h : ¬ Begins R ('&' :: after)) : Loose R ('&' :: after) [] after where
  text := rfl
  loose := h
  first _ _ he := absurd he.symm (List.append_ne_nil_of_right_ne_nil _ (List.cons_ne_nil _ _))

/-- A character in front that is no ampersand changes nothing. -/
theorem plain (hc : c ≠ '&') (h : Loose R cs before after) :
    Loose R (c :: cs) (c :: before) after where
  text := congrArg (c :: ·) h.text
  loose := h.loose
  first front behind he := by
    cases front with
    | nil => exact absurd (List.cons.inj he).1 hc
    | cons _ front => exact h.first front behind (List.cons.inj he).2

/-- Nor does a reference in front. -/
theorem reference (hr : R name d) (hn : '&' ∉ name) (h : Loose R cs before after) :
    Loose R ('&' :: (name ++ ';' :: cs)) ('&' :: (name ++ ';' :: before)) after where
  text := by simp [h.text]
  loose := h.loose
  first front behind he := by
    cases front with
    | nil =>
      obtain rfl : name ++ ';' :: before = behind := (List.cons.inj he).2
      exact ⟨name, d, before ++ '&' :: after, hr, by simp⟩
    | cons _ front =>
      obtain ⟨more, -, hmore⟩ := exists_behind hn (List.cons.inj he).2
      exact h.first more behind hmore

/-- What stands in front can be left out. -/
theorem of_append (front : List Char) (h : Loose R (front ++ cs) (front ++ before) after) :
    Loose R cs before after where
  text := List.append_cancel_left (h.text.trans (List.append_assoc ..))
  loose := h.loose
  first more behind he := by
    refine h.first (front ++ more) behind ?_
    rw [he, List.append_assoc]

/-- There is one first ampersand that begins no reference. -/
theorem unique {before' after' : List Char} (h : Loose R cs before after)
    (h' : Loose R cs before' after') : before = before' ∧ after = after' := by
  rcases List.append_eq_append_iff.mp (h.text.symm.trans h'.text) with
    ⟨more, hb, ha⟩ | ⟨more, hb, ha⟩
  · cases more with
    | nil =>
      rw [List.append_nil] at hb
      exact ⟨hb.symm, (List.cons.inj ha).2⟩
    | cons _ more =>
      obtain ⟨rfl, ha⟩ := List.cons.inj ha
      exact absurd (ha ▸ h'.first before more hb) h.loose
  · cases more with
    | nil =>
      rw [List.append_nil] at hb
      exact ⟨hb, (List.cons.inj ha).2.symm⟩
    | cons _ more =>
      obtain ⟨rfl, ha⟩ := List.cons.inj ha
      exact absurd (ha ▸ h.first before' more hb) h'.loose

end Loose

section

variable (hR : ∀ name c, R name c → '&' ∉ name)

include hR

/-- A text made of references has no ampersand that begins none. -/
theorem Encodes.not_loose (h : Encodes R cs ds) : ¬ Loose R cs before after := by
  induction h generalizing before with
  | nil => exact fun hl => List.append_ne_nil_of_right_ne_nil _ (List.cons_ne_nil _ _) hl.text.symm
  | @plain c cs ds hc _ ih =>
    intro hl
    cases before with
    | nil => exact hc (List.cons.inj hl.text).1
    | cons b before =>
      obtain ⟨rfl, -⟩ := List.cons.inj hl.text
      exact ih (Loose.of_append [c] hl)
  | @reference name d cs ds hr _ ih =>
    intro hl
    cases before with
    | nil =>
      obtain ⟨-, rfl⟩ := List.cons.inj hl.text
      exact hl.loose ⟨name, d, cs, hr, rfl⟩
    | cons b before =>
      obtain ⟨rfl, htext⟩ := List.cons.inj hl.text
      obtain ⟨more, rfl, -⟩ := exists_behind (hR _ _ hr) htext
      have hrest : Loose R cs more after := by
        refine Loose.of_append ('&' :: (name ++ [';'])) ?_
        simpa using hl
      exact ih hrest

/-- Every text is made of references, or has a first ampersand that begins none. -/
theorem encodes_or_loose (cs : List Char) :
    (∃ ds, Encodes R cs ds) ∨ ∃ before after, Loose R cs before after := by
  induction hlen : cs.length using Nat.strongRecOn generalizing cs with
  | _ len ih =>
    subst hlen
    cases cs with
    | nil => exact .inl ⟨[], .nil⟩
    | cons c cs =>
      by_cases hc : c = '&'
      · subst hc
        by_cases hb : Begins R ('&' :: cs)
        · obtain ⟨name, d, rest, hr, he⟩ := hb
          obtain ⟨-, rfl⟩ := List.cons.inj he
          rcases ih rest.length (by simp; omega) rest rfl with ⟨ds, h⟩ | ⟨before, after, h⟩
          · exact .inl ⟨_, .reference hr h⟩
          · exact .inr ⟨_, _, h.reference hr (hR _ _ hr)⟩
        · exact .inr ⟨[], cs, .here hb⟩
      · rcases ih cs.length (by simp) cs rfl with ⟨ds, h⟩ | ⟨before, after, h⟩
        · exact .inl ⟨_, .plain hc h⟩
        · exact .inr ⟨_, _, h.plain hc⟩

end

end

/-! ## 3. Reading -/

section

variable {raw : String} {name cs ds before after : List Char} {c d : Char} {pos : Nat} {f : Fault}

/-- What is wrong at an ampersand that begins no reference. -/
def looseViolation (after : List Char) : Violation :=
  match cutAt ';' after with
  | none => .unterminatedReference
  | some (name, _) => .unknownReference (String.ofList name)

theorem width_reference (name before : List Char) :
    width ('&' :: (name ++ ';' :: before)) = 2 + width name + width before := by
  have hamp : '&'.utf8Size = 1 := rfl
  have hsemi : ';'.utf8Size = 1 := rfl
  rw [width_cons, width_append, width_cons, hamp, hsemi]
  omega

/-- What is read is made of references, and is what they stand for. -/
theorem encodes_of_decodeFrom (h : decodeFrom pos cs = .ok ds) : Encodes Taken cs ds := by
  fun_induction decodeFrom pos cs generalizing ds with
  | case1 =>
    cases h
    exact .nil
  | case2 => cases h
  | case3 => cases h
  | case4 pos rest name after hc d hr _ ih =>
    obtain ⟨rfl, -⟩ := (cutAt_eq_some_iff _ _ _ _).mp hc
    obtain ⟨ds, hds, rfl⟩ := map_eq_ok h
    exact .reference (reference?_eq_some_iff.mp hr) (ih hds)
  | case5 pos c rest hc ih =>
    obtain ⟨ds, hds, rfl⟩ := map_eq_ok h
    exact .plain hc (ih hds)

/-- Whatever is made of references is read. -/
theorem decodeFrom_of_encodes (h : Encodes Taken cs ds) (pos : Nat) :
    decodeFrom pos cs = .ok ds := by
  induction h generalizing pos with
  | nil => rw [decodeFrom]
  | plain hc _ ih =>
    rw [decodeFrom_plain hc, ih]
    rfl
  | reference hr _ ih =>
    rw [decodeFrom_reference _ (reference?_eq_some_iff.mpr hr) hr.not_mem.2, ih]
    rfl

/-- What begins with a reference goes on with the semicolon that ends it. -/
theorem exists_cutAt (h : Begins Taken ('&' :: after)) :
    ∃ name rest d, cutAt ';' after = some (name, rest) ∧ reference? name = some d := by
  obtain ⟨name, d, rest, hr, he⟩ := h
  obtain ⟨-, rfl⟩ := List.cons.inj he
  exact ⟨name, rest, d, (cutAt_eq_some_iff _ _ _ _).mpr ⟨rfl, hr.not_mem.2⟩,
    reference?_eq_some_iff.mpr hr⟩

/-- **What is not read is refused at its first ampersand that begins nothing that is read.** -/
theorem loose_of_decodeFrom (h : decodeFrom pos cs = .error f) :
    ∃ before after, Loose Taken cs before after ∧
      f = .invalid (pos + width before) (looseViolation after) := by
  fun_induction decodeFrom pos cs with
  | case1 => cases h
  | case2 pos rest hc =>
    cases h
    refine ⟨[], rest, .here fun hb => ?_, ?_⟩
    · obtain ⟨name, after, d, hcut, -⟩ := exists_cutAt hb
      rw [hc] at hcut
      cases hcut
    · unfold looseViolation
      rw [hc]
      rfl
  | case3 pos rest name after hc hr =>
    cases h
    refine ⟨[], rest, .here fun hb => ?_, ?_⟩
    · obtain ⟨name, after, d, hcut, hd⟩ := exists_cutAt hb
      rw [hc] at hcut
      cases hcut
      rw [hr] at hd
      cases hd
    · unfold looseViolation
      rw [hc]
      rfl
  | case4 pos rest name after hc d hr _ ih =>
    obtain ⟨rfl, -⟩ := (cutAt_eq_some_iff _ _ _ _).mp hc
    obtain ⟨before, behind, hl, rfl⟩ := ih (map_eq_error h)
    have ht : Taken name d := reference?_eq_some_iff.mp hr
    refine ⟨_, behind, hl.reference ht ht.not_mem.1, ?_⟩
    rw [width_reference, ← Nat.add_assoc, ← Nat.add_assoc]
  | case5 pos c rest hc ih =>
    obtain ⟨before, behind, hl, rfl⟩ := ih (map_eq_error h)
    refine ⟨_, behind, hl.plain hc, ?_⟩
    rw [width_cons, Nat.add_assoc]

/-- A value is read exactly when it is made of the references of a sort, as what they stand for,
    and is otherwise refused at its first ampersand that begins none of them. -/
structure Decides (R : List Char → Char → Prop) (raw : String) (pos : Nat) : Prop where
  read : ∀ v, decode raw pos = .ok v ↔ Encodes R raw.toList v.toList
  refused : ∀ f, decode raw pos = .error f → ∃ before after, Loose R raw.toList before after ∧
    f = .invalid (pos + width before) (looseViolation after)

theorem decode_eq_ok_iff {v : String} :
    decode raw pos = .ok v ↔ decodeFrom pos raw.toList = .ok v.toList := by
  unfold decode
  constructor
  · intro h
    obtain ⟨cs, hcs, rfl⟩ := map_eq_ok h
    rw [hcs, String.toList_ofList]
  · intro h
    rw [h]
    exact congrArg Except.ok String.ofList_toList

theorem decides_taken (raw : String) (pos : Nat) : Decides Taken raw pos where
  read v := by
    rw [decode_eq_ok_iff]
    exact ⟨encodes_of_decodeFrom, fun h => decodeFrom_of_encodes h pos⟩
  refused f h := loose_of_decodeFrom (map_eq_error h)

/-! ## 4. The two sorts apart -/

/-- A number with a plus sign is no reference. -/
theorem Signed.not_reference (h : Signed name c) : ¬ Reference name d := by
  intro hr
  cases h with
  | @number mark digits base n hm hd hn =>
    generalize hname : mark ++ '+' :: digits = name at hr
    cases hr with
    | @number mark' digits' base' n' hm' hd' hn' =>
      -- of the marks one is the front of another only with the letter, which is no digit either
      have hplus : '+' ∈ digits' := by
        cases hm <;> cases hm' <;> cases hname <;> simp
      exact hd'.not_mem hm'.base_le (by decide) hplus
    | _ => cases hm <;> cases hname

theorem not_begins_of_signed (h : Begins Signed cs) : ¬ Begins Reference cs := by
  rintro ⟨name, d, rest, hr, rfl⟩
  obtain ⟨name', d', rest', hs, he⟩ := h
  obtain ⟨-, he⟩ := List.cons.inj he
  -- both end at the first semicolon
  have hcut : cutAt ';' (name ++ ';' :: rest) = some (name, rest) :=
    (cutAt_eq_some_iff _ _ _ _).mpr ⟨rfl, (Taken.not_mem (.inl hr)).2⟩
  have hcut' : cutAt ';' (name ++ ';' :: rest) = some (name', rest') :=
    (cutAt_eq_some_iff _ _ _ _).mpr ⟨he, (Taken.not_mem (.inr hs)).2⟩
  obtain ⟨rfl, -⟩ := Prod.mk.inj (Option.some.inj (hcut.symm.trans hcut'))
  exact hs.not_reference hr

theorem Encodes.mono {R S : List Char → Char → Prop} (hRS : ∀ name c, R name c → S name c)
    (h : Encodes R cs ds) : Encodes S cs ds := by
  induction h with
  | nil => exact .nil
  | plain hc _ ih => exact .plain hc ih
  | reference hr _ ih => exact .reference (hRS _ _ hr) ih

/-- The first ampersand that begins no reference is the first that is not read either, if it begins
    no number with a plus sign. -/
theorem Loose.taken (h : Loose Reference cs before after) (hs : ¬ Begins Signed ('&' :: after)) :
    Loose Taken cs before after where
  text := h.text
  loose := by
    rintro ⟨name, c, rest, hr | hr, he⟩
    · exact h.loose ⟨name, c, rest, hr, he⟩
    · exact hs ⟨name, c, rest, hr, he⟩
  first front behind he := by
    obtain ⟨name, c, rest, hr, hb⟩ := h.first front behind he
    exact ⟨name, c, rest, .inl hr, hb⟩

/-- Where the references that there are decide, the first ampersand that begins none of them begins
    no number with a plus sign. -/
theorem Decides.not_signed (hd : Decides Reference raw pos)
    (hl : Loose Reference raw.toList before after) : ¬ Begins Signed ('&' :: after) := by
  intro hs
  cases h : decode raw pos with
  | ok v => exact Encodes.not_loose Reference.not_mem ((hd.read v).mp h) hl
  | error f =>
    -- the same fault is found at the first ampersand that begins nothing that is read
    obtain ⟨b, a, hl', rfl⟩ := hd.refused f h
    obtain ⟨b', a', hlt, hf⟩ := (decides_taken raw pos).refused _ h
    obtain ⟨rfl, rfl⟩ := hl.unique hl'
    have htext := hl.text.symm.trans hlt.text
    have hwidth : width before = width b' := Nat.add_left_cancel (congrArg Fault.pos hf)
    obtain rfl := eq_of_width_eq htext hwidth
    obtain rfl : after = a' := (List.cons.inj (List.append_cancel_left htext)).2
    obtain ⟨name, c, rest, hr, he⟩ := hs
    exact hlt.loose ⟨name, c, rest, .inr hr, he⟩

/-- Where it begins no such number, the references that there are decide. -/
theorem decides_reference (hs : ∀ before after, Loose Reference raw.toList before after →
    ¬ Begins Signed ('&' :: after)) : Decides Reference raw pos := by
  have ht := decides_taken raw pos
  refine ⟨fun v => ⟨fun h => ?_, fun h => ?_⟩, fun f h => ?_⟩
  · have he := (ht.read v).mp h
    rcases encodes_or_loose Reference.not_mem raw.toList with ⟨ds, hds⟩ | ⟨before, after, hl⟩
    · have hread := (ht.read (String.ofList ds)).mpr (by
        rw [String.toList_ofList]
        exact hds.mono fun _ _ => .inl)
      obtain rfl := Except.ok.inj (h.symm.trans hread)
      rwa [String.toList_ofList]
    · exact absurd (hl.taken (hs _ _ hl)) (he.not_loose fun _ _ hr => hr.not_mem.1)
  · exact (ht.read v).mpr (h.mono fun _ _ => .inl)
  · obtain ⟨before, after, hlt, hf⟩ := ht.refused f h
    rcases encodes_or_loose Reference.not_mem raw.toList with ⟨ds, hds⟩ | ⟨b, a, hl⟩
    · have he : Encodes Taken raw.toList ds := hds.mono fun _ _ => .inl
      exact absurd hlt (he.not_loose fun _ _ hr => hr.not_mem.1)
    · obtain ⟨rfl, rfl⟩ := (hl.taken (hs _ _ hl)).unique hlt
      exact ⟨b, a, hl, hf⟩

/-- **What becomes of every value.** It is read exactly when it is made of references and of numbers
    with a plus sign, and otherwise refused at the first ampersand that begins neither. Without the
    numbers with a plus sign the same can be said of those values, and of no others, whose first
    ampersand that begins no reference begins no such number. -/
theorem decode_references (raw : String) (pos : Nat) :
    Decides Taken raw pos ∧
      (Decides Reference raw pos ↔ ∀ before after,
        Loose Reference raw.toList before after → ¬ Begins Signed ('&' :: after)) := by
  refine ⟨decides_taken raw pos, ?_, decides_reference⟩
  intro hd before after hl
  exact hd.not_signed hl

/-- **A number with a plus sign is read**, though it is no reference: the value is not made of
    references, and it is not refused. -/
theorem exists_decode_signed :
    ∃ raw v, decode raw 0 = .ok v ∧ ¬ Encodes Reference raw.toList v.toList := by
  refine ⟨"&#+65;", "A", by cbv, fun h => ?_⟩
  have hdigits : Writes 10 65 ['6', '5'] := ⟨by decide, [6, 5], by simp [IsDigit], by decide⟩
  have hsigned : Signed (['#'] ++ '+' :: ['6', '5']) 'A' := .number .decimal hdigits (by decide)
  have hbegins : Begins Signed "&#+65;".toList := ⟨_, _, [], hsigned, by decide⟩
  have hloose : Loose Reference "&#+65;".toList [] "#+65;".toList :=
    Loose.here (not_begins_of_signed hbegins)
  exact Encodes.not_loose Reference.not_mem h hloose

end

end Dialplan.Markup
