import Dialplan.Proofs.Reading
import Dialplan.Proofs.Spans
import Mathlib
/-!
# Where faults are found

A fault carries a byte offset. There are many places where reading can stop, and the offset comes
about in several ways: as the start of a token, one byte behind it, by counting inside a value, or
as the length of the text. Here is what all of them come to.

* `Stopped`: all that can stop a step, one constructor for each sort of fault;
* `Phase.Marked`: the offsets that wait in a state are the starts of tokens that were taken;
* `halts_of_read`: a text that is not read has no tokens, or a token stops it, or its end does;
* `points_of_read`: **every fault points into the text**, at what it speaks of.
-/

namespace Dialplan.Markup

open Dialplan.Text

/-! ## 1. References -/

/-- What only a reference in a value can break. -/
inductive Violation.OfReference : Violation → Prop
  | unterminated : OfReference .unterminatedReference
  | unknown (name : String) : OfReference (.unknownReference name)

theorem map_eq_error {ε α β : Type} {x : Except ε α} {f : α → β} {e : ε} (h : x.map f = .error e) :
    x = .error e := by
  cases x with
  | error _ => exact congrArg _ (Except.error.inj h)
  | ok a => cases h

/-- **A reference that stands for nothing is found at its ampersand**, wherever the value begins. -/
theorem decodeFrom_fault {pos : Nat} {cs : List Char} {f : Fault} (h : decodeFrom pos cs = .error f) :
    ∃ before after v, cs = before ++ '&' :: after ∧ f = .invalid (pos + width before) v ∧
      v.OfReference := by
  fun_induction decodeFrom pos cs with
  | case1 => cases h
  | case2 pos rest =>
    cases h
    exact ⟨[], rest, _, rfl, rfl, .unterminated⟩
  | case3 pos rest name after =>
    cases h
    exact ⟨[], rest, _, rfl, rfl, .unknown _⟩
  | case4 pos rest name after hc d _ _ ih =>
    obtain ⟨rfl, -⟩ := (cutAt_eq_some_iff _ _ _ _).mp hc
    obtain ⟨before, behind, v, rfl, rfl, hv⟩ := ih (map_eq_error h)
    have hwidth : pos + 2 + width name + width before =
        pos + width ('&' :: (name ++ ';' :: before)) := by
      have hamp : '&'.utf8Size = 1 := rfl
      have hsemi : ';'.utf8Size = 1 := rfl
      rw [width_cons, width_append, width_cons, hamp, hsemi]
      omega
    refine ⟨'&' :: (name ++ ';' :: before), behind, v, ?_, ?_, hv⟩
    · simp only [List.cons_append, List.append_assoc]
    · rw [hwidth]
  | case5 pos c rest _ ih =>
    obtain ⟨before, behind, v, rfl, rfl, hv⟩ := ih (map_eq_error h)
    refine ⟨c :: before, behind, v, rfl, ?_, hv⟩
    rw [width_cons, Nat.add_assoc]

/-! ## 2. What can stop a step -/

/-- **All that can stop a step**, one constructor for each sort of fault. -/
inductive Stopped (lt : Located Token) : State → Fault → Prop
  | unexpected {s : State} (expected : Expectation) :
      Stopped lt s (.unexpectedToken lt.start expected lt.value.text)
  | kind {tag : StartTag} {outer : List Element} {issued : Nat} {f : Fault}
      (hk : kindAt outer tag = .error f) : Stopped lt ⟨.inTag tag, outer, issued⟩ f
  | value {tag : StartTag} {outer : List Element} {key raw : String} {pos issued : Nat} {f : Fault}
      (hv : lt.value = .value raw) (ha : tag.attribute key pos raw (lt.start + 1) = .error f) :
      Stopped lt ⟨.value tag key pos, outer, issued⟩ f
  | textContent {e : Element} {outer : List Element} {issued : Nat} (hb : e.kind.isBranch = true) :
      Stopped lt ⟨.body e, outer, issued⟩ (.invalid lt.start (.textContent lt.value))
  | leafBody {e : Element} {outer : List Element} {issued : Nat} (hl : e.kind.isBranch = false) :
      Stopped lt ⟨.body e, outer, issued⟩ (.invalid lt.start (.leafBody e.name))
  | mismatchedEnd {e : Element} {outer : List Element} {issued : Nat} {n : String}
      (hn : lt.value = .name n) (hne : n ≠ e.name) :
      Stopped lt ⟨.endName e, outer, issued⟩ (.invalid lt.start (.mismatchedEnd e.name n))

theorem stopped_of_step {s : State} {lt : Located Token} {f : Fault} (h : step s lt = .error f) :
    Stopped lt s f := by
  obtain ⟨phase, outer, issued⟩ := s
  cases phase with
  | start =>
    simp only [step] at h
    split at h
    · cases h
    · cases h
      exact .unexpected _
  | elementName pos =>
    simp only [step] at h
    split at h
    · cases h
    · cases h
      exact .unexpected _
  | inTag tag =>
    simp only [step] at h
    split at h
    · cases h
    · split at h
      · rename_i hk
        cases h
        exact .kind hk
      · split at h
        · cases h
        · cases h
        · cases h
          exact .unexpected _
  | equals tag key pos =>
    simp only [step] at h
    split at h
    · cases h
    · cases h
      exact .unexpected _
  | value tag key pos =>
    simp only [step] at h
    split at h
    · rename_i hv
      split at h
      · rename_i ha
        cases h
        exact .value hv ha
      · cases h
    · cases h
      exact .unexpected _
  | body e =>
    simp only [step] at h
    split at h
    · cases h
    · split at h
      · rename_i hb
        split at h
        · cases h
        · cases h
          exact .textContent hb
      · rename_i hl
        cases h
        exact .leafBody (Bool.not_eq_true _ ▸ hl)
  | endName e =>
    simp only [step] at h
    split at h
    · rename_i hn
      split at h
      · cases h
      · rename_i hne
        cases h
        exact .mismatchedEnd hn hne
    · cases h
      exact .unexpected _
  | endMark e =>
    simp only [step] at h
    split at h
    · cases h
    · cases h
      exact .unexpected _
  | finished root =>
    cases h
    exact .unexpected _

/-- A start tag that cannot stand where it stands is found at its `<`. -/
theorem kindAt_fault {outer : List Element} {tag : StartTag} {f : Fault}
    (h : kindAt outer tag = .error f) : ∃ v, f = .invalid tag.pos v ∧ (v = .wrongRoot tag.name ∨
      v = .unknownElement tag.name ∨ ∃ child parent, v = .misplaced child parent) := by
  cases outer with
  | nil =>
    simp only [kindAt] at h
    split at h
    · cases h
    · cases h
      exact ⟨_, rfl, .inl rfl⟩
  | cons parent rest =>
    simp only [kindAt] at h
    split at h
    · cases h
      exact ⟨_, rfl, .inr (.inl rfl)⟩
    · split at h
      · cases h
      · cases h
        exact ⟨_, rfl, .inr (.inr ⟨_, _, rfl⟩)⟩

/-- What can be wrong with an attribute: a reference in its value, the flag's value, or its key. -/
theorem attribute_fault {tag : StartTag} {key raw : String} {keyPos valuePos : Nat} {f : Fault}
    (h : tag.attribute key keyPos raw valuePos = .error f) : decode raw valuePos = .error f ∨
      (∃ found, f = .invalid valuePos (.enabledValue found)) ∨
      (f = .invalid keyPos (.duplicateAttribute key) ∧ key ≠ "enabled" ∧
        key ∈ tag.attributes.keys) := by
  unfold StartTag.attribute at h
  split at h
  · rename_i hd
    cases h
    exact .inl hd
  · split at h
    · split at h
      · cases h
      · split at h
        · cases h
        · cases h
          exact .inr (.inl ⟨_, rfl⟩)
    · rename_i hne
      split at h
      · rename_i hc
        cases h
        exact .inr (.inr ⟨rfl, hne, (Attributes.contains_iff _ _).mp hc⟩)
      · cases h

/-! ## 3. What waits in a state -/

/-- The `<` of a start tag stands at this offset. -/
def TagAt (done : List (Located Token)) (pos : Nat) : Prop :=
  ∃ lt ∈ done, lt.value = .openTag ∧ lt.start = pos

/-- A key stands at this offset. -/
def KeyAt (done : List (Located Token)) (key : String) (pos : Nat) : Prop :=
  ∃ lt ∈ done, lt.value = .name key ∧ lt.start = pos

/-- **The offsets that wait in a phase are starts of tokens** that were taken. -/
def Phase.Marked (done : List (Located Token)) : Phase → Prop
  | .elementName pos => TagAt done pos
  | .inTag tag => TagAt done tag.pos
  | .equals tag key keyPos | .value tag key keyPos => TagAt done tag.pos ∧ KeyAt done key keyPos
  | _ => True

section Marks

variable {done : List (Located Token)} {lt : Located Token} {key : String} {pos : Nat}

theorem TagAt.append (h : TagAt done pos) (lt : Located Token) : TagAt (done ++ [lt]) pos := by
  obtain ⟨l, hl, hv⟩ := h
  exact ⟨l, List.mem_append_left _ hl, hv⟩

theorem KeyAt.append (h : KeyAt done key pos) (lt : Located Token) :
    KeyAt (done ++ [lt]) key pos := by
  obtain ⟨l, hl, hv⟩ := h
  exact ⟨l, List.mem_append_left _ hl, hv⟩

theorem marked_closeElement (outer : List Element) (e : Element) (issued : Nat) :
    (closeElement outer e issued).phase.Marked done := by
  cases outer <;> trivial

/-- A step keeps the offsets that wait, and one that it adds is the start of its own token. -/
theorem Took.marked {s s' : State} (h : Took lt s s') (hs : s.phase.Marked done) :
    s'.phase.Marked (done ++ [lt]) := by
  have hlast : lt ∈ done ++ [lt] := List.mem_append_right _ (List.mem_singleton_self lt)
  cases h with
  | opening ho => exact ⟨lt, hlast, ho, rfl⟩
  | name n => exact hs.append lt
  | key hk => exact ⟨hs.append lt, lt, hlast, hk, rfl⟩
  | close => trivial
  | selfClose => exact marked_closeElement ..
  | equals => exact ⟨hs.1.append lt, hs.2.append lt⟩
  | value hv ht =>
    show TagAt _ _
    rw [(attribute_keeps ht).1]
    exact hs.1.append lt
  | ending => trivial
  | child ho => exact ⟨lt, hlast, ho, rfl⟩
  | endName => trivial
  | endMark => exact marked_closeElement ..

end Marks

/-! ## 4. Where reading stops -/

/-- The first step that fails comes after steps that do not. -/
theorem foldlM_eq_error {f : Fault} : ∀ {lts : List (Located Token)} {s : State},
    lts.foldlM step s = .error f → ∃ done lt more s', lts = done ++ lt :: more ∧
      done.foldlM step s = .ok s' ∧ step s' lt = .error f
  | [], s, h => by cases h
  | lt :: lts, s, h => by
      rw [List.foldlM_cons] at h
      cases h1 : step s lt with
      | error e =>
        rw [h1] at h
        cases h
        exact ⟨[], lt, lts, s, rfl, rfl, h1⟩
      | ok s1 =>
        rw [h1] at h
        obtain ⟨done, lt', more, s', rfl, hdone, hstep⟩ := foldlM_eq_error h
        refine ⟨lt :: done, lt', more, s', rfl, ?_, hstep⟩
        rw [List.foldlM_cons, h1]
        exact hdone

/-- What the end of a text can be too early for. -/
theorem finish_fault {s : State} {len : Nat} {f : Fault} (h : s.finish len = .error f) :
    (∃ expected, f = .unexpectedEnd len expected) ∨
      ∃ tag, s.phase = .inTag tag ∧ kindAt s.outer tag = .error f := by
  unfold State.finish at h
  split at h
  case h_3 tag hp =>
    split at h
    · rename_i hk
      cases h
      exact .inr ⟨tag, hp, hk⟩
    · cases h
      exact .inl ⟨_, rfl⟩
  case h_9 => cases h
  all_goals
    cases h
    exact .inl ⟨_, rfl⟩

/-- **Where the reading of a text stops**: at a stretch that is no token, at one of its tokens, or at
    its end. `P` is what holds of the tokens taken so far and the state they lead to. -/
inductive Halts (text : String) (P : List (Located Token) → State → Prop) (f : Fault) : Prop
  | stretch (hscan : scan text = .error f)
  | token {done more : List (Located Token)} {lt : Located Token} {s : State}
      (hscan : scan text = .ok (done ++ lt :: more)) (hs : P done s) (hstop : Stopped lt s f)
  | textEnd {lts : List (Located Token)} {s : State} (hscan : scan text = .ok lts) (hs : P lts s)
      (hfin : s.finish (width text.toList) = .error f)

/-- A text that is not read stops somewhere, and what every step keeps holds there. -/
theorem halts_of_read {P : List (Located Token) → State → Prop} {text : String} {f : Fault}
    (h : read text = .error f) (h0 : P [] .start)
    (hstep : ∀ lt done s s', Took lt s s' → P done s → P (done ++ [lt]) s') : Halts text P f := by
  unfold read at h
  split at h
  · rename_i hscan
    cases h
    exact .stretch hscan
  · rename_i lts hscan
    unfold ofTokens at h
    split at h
    · rename_i hfold
      cases h
      obtain ⟨done, lt, more, s, rfl, hdone, hlt⟩ := foldlM_eq_error hfold
      have hs : P ([] ++ done) s := took_foldlM hdone h0 fun l _ => hstep l
      exact .token hscan hs (stopped_of_step hlt)
    · rename_i s hfold
      have hs : P ([] ++ lts) s := took_foldlM hfold h0 fun l _ => hstep l
      exact .textEnd hscan hs h

/-! ## 5. What a fault points at -/

/-- What a fault shows of a text, by its sort. -/
def Fault.Shows (text : String) : Fault → Prop
  -- a token of the text, from its first byte, and as a message shows it
  | .unexpectedToken pos _ found =>
    ∃ lts, scan text = .ok lts ∧ ∃ lt ∈ lts, lt.start = pos ∧ lt.value.text = found
  -- its end
  | .unexpectedEnd pos _ => pos = text.utf8ByteSize
  -- of a reference, its ampersand
  | .invalid pos v => v.OfReference → HasAt text pos "&"
  -- the stretch that is no token
  | .unrecognized pos fragment => HasAt text pos fragment

/-- **A fault points into a text**: its offset is at most the length of the text in bytes and a
    boundary between characters, and what it shows stands there. -/
structure Fault.PointsInto (text : String) (f : Fault) : Prop where
  inside : f.pos ≤ text.utf8ByteSize
  boundary : String.Pos.Raw.IsValid text ⟨f.pos⟩
  shows : f.Shows text

section

variable {text piece : String} {lts : List (Located Token)} {lt : Located Token} {pos : Nat}
  {v : Violation} {f : Fault}

theorem Fault.PointsInto.of (h : HasAt text f.pos piece) (hs : f.Shows text) :
    f.PointsInto text where
  inside := h.isValid.le_rawEndPos
  boundary := h.isValid
  shows := hs

/-- A token starts at a boundary between characters. -/
theorem hasAt_start (hscan : scan text = .ok lts) (hlt : lt ∈ lts) : HasAt text lt.start "" := by
  obtain ⟨done, more, rfl⟩ := List.append_of_mem hlt
  obtain ⟨before, taken, after, htext, hstart, -⟩ := scanFrom_cut hscan
  have hsplit : text.toList = before ++ ([] ++ (taken ++ after)) := htext
  rw [hstart, Nat.zero_add]
  exact hasAt_of_toList hsplit

/-- What stands in a value stands one byte further in the text, behind the quote. -/
theorem hasAt_value (hscan : scan text = .ok lts) (hlt : lt ∈ lts) {raw : String}
    (hv : lt.value = .value raw) {before cs after : List Char}
    (hraw : raw.toList = before ++ (cs ++ after)) :
    HasAt text (lt.start + 1 + width before) (String.ofList cs) := by
  obtain ⟨front, q, behind, htext, hq, -, hstart⟩ := value_of_scanFrom hscan hlt hv
  have hwidth : lt.start + 1 + width before = width (front ++ q :: before) := by
    have hone : q.utf8Size = 1 := by rcases hq with rfl | rfl <;> rfl
    rw [hstart, width_append, width_cons, hone]
    omega
  have hsplit : text.toList = (front ++ q :: before) ++ (cs ++ (after ++ q :: behind)) := by
    rw [htext, hraw]
    simp only [List.append_assoc, List.cons_append]
  rw [hwidth]
  exact hasAt_of_toList hsplit

/-- What is wrong with the tags is found at a boundary, and shows nothing else. -/
theorem pointsInto_invalid (h : HasAt text pos "") (hv : ¬ v.OfReference) :
    (Fault.invalid pos v).PointsInto text :=
  .of h fun hr => absurd hr hv

/-- A reference that stands for nothing. -/
theorem pointsInto_decode (hscan : scan text = .ok lts) (hlt : lt ∈ lts) {raw : String}
    (hv : lt.value = .value raw) (hd : decode raw (lt.start + 1) = .error f) :
    f.PointsInto text := by
  obtain ⟨before, after, v, hraw, rfl, -⟩ := decodeFrom_fault (map_eq_error hd)
  have hsplit : raw.toList = before ++ (['&'] ++ after) := hraw
  have hamp : HasAt text (lt.start + 1 + width before) "&" := hasAt_value hscan hlt hv hsplit
  exact .of hamp fun _ => hamp

/-- A start tag that cannot stand where it stands. -/
theorem pointsInto_kind (hscan : scan text = .ok lts) {outer : List Element} {tag : StartTag}
    (htag : ∃ lt ∈ lts, lt.value = .openTag ∧ lt.start = tag.pos)
    (h : kindAt outer tag = .error f) : f.PointsInto text := by
  obtain ⟨lt, hlt, -, hpos⟩ := htag
  obtain ⟨v, rfl, hv⟩ := kindAt_fault h
  rw [← hpos]
  refine pointsInto_invalid (hasAt_start hscan hlt) fun hr => ?_
  rcases hv with rfl | rfl | ⟨child, parent, rfl⟩ <;> cases hr

/-- What stops a step, where the offsets that wait are starts of tokens. -/
theorem Stopped.pointsInto {done more : List (Located Token)} {s : State}
    (h : Stopped lt s f) (hscan : scan text = .ok (done ++ lt :: more))
    (hs : s.phase.Marked done) : f.PointsInto text := by
  have hlt : lt ∈ done ++ lt :: more := List.mem_append_right _ List.mem_cons_self
  have hstart := hasAt_start hscan hlt
  cases h with
  | unexpected expected => exact .of hstart ⟨_, hscan, lt, hlt, rfl, rfl⟩
  | kind hk =>
    obtain ⟨l, hl, hv⟩ := hs
    exact pointsInto_kind hscan ⟨l, List.mem_append_left _ hl, hv⟩ hk
  | @value _ _ _ raw _ _ _ hv ha =>
    rcases attribute_fault ha with hd | ⟨found, rfl⟩ | ⟨rfl, -, -⟩
    · exact pointsInto_decode hscan hlt hv hd
    · have hfront : raw.toList = [] ++ ([] ++ raw.toList) := rfl
      exact pointsInto_invalid (hasAt_value hscan hlt hv hfront) nofun
    · obtain ⟨l, hl, -, rfl⟩ := hs.2
      exact pointsInto_invalid (hasAt_start hscan (List.mem_append_left _ hl)) nofun
  | textContent => exact pointsInto_invalid hstart nofun
  | leafBody => exact pointsInto_invalid hstart nofun
  | mismatchedEnd => exact pointsInto_invalid hstart nofun

/-- **Every fault points into the text.** -/
theorem points_of_read (h : read text = .error f) : f.PointsInto text := by
  have hhalts : Halts text (fun done s => s.phase.Marked done) f :=
    halts_of_read h trivial fun lt done s s' ht hs => ht.marked hs
  cases hhalts with
  | stretch hscan =>
    obtain ⟨before, fragment, after, htext, -, rfl⟩ := fragment_of_scanFrom hscan
    have hat := hasAt_of_toList htext
    rw [Nat.zero_add]
    exact .of hat hat
  | token hscan hs hstop => exact hstop.pointsInto hscan hs
  | textEnd hscan hs hfin =>
    rcases finish_fault hfin with ⟨expected, rfl⟩ | ⟨tag, hp, hk⟩
    · have hend : HasAt text (width text.toList) "" := by
        refine ⟨text, "", ?_, (width_toList text).symm⟩
        rw [String.append_empty, String.append_empty]
      exact .of hend (width_toList text)
    · rw [hp] at hs
      exact pointsInto_kind hscan hs hk

/-- Behind a character of two bytes, an unknown reference. -/
theorem points_of_read_unknownReference :
    read "<extension name=\"é&no;\"/>" = .error (.invalid 19 (.unknownReference "no")) ∧
      HasAt "<extension name=\"é&no;\"/>" 19 "&" := by
  have h : read "<extension name=\"é&no;\"/>" = .error (.invalid 19 (.unknownReference "no")) := by
    cbv
  exact ⟨h, (points_of_read h).shows (.unknown "no")⟩

end

end Dialplan.Markup
