import Dialplan.Markup.Reading
import Dialplan.Proofs.Lexing
import Dialplan.Proofs.Node
/-!
# What reading builds

Reading as a machine that takes tokens, and what holds of everything it has built so far.

* `Took`: all that one token can do, one constructor for each transition;
* `State.Sound`: what holds of everything read so far, preserved by every step (`Took.sound`);
* `holds_of_read`: what every token keeps holds of the tokens and the root of a text that was read;
* `lawful_of_read`: a tree that was read has fitting attributes and accepted children everywhere.
-/

namespace Dialplan.Markup

open Dialplan.Text

/-! ## 1. What a step can do -/

/-- **All that one token can do** without a fault, one constructor for each transition. -/
inductive Took (lt : Located Token) : State → State → Prop
  | opening {outer : List Element} {issued : Nat} (ho : lt.value = .openTag) :
      Took lt ⟨.start, outer, issued⟩ ⟨.elementName lt.start, outer, issued⟩
  | name {pos issued : Nat} {outer : List Element} (n : String) (hn : lt.value = .name n) :
      Took lt ⟨.elementName pos, outer, issued⟩ ⟨.inTag ⟨pos, n, .empty, true⟩, outer, issued⟩
  | key {tag : StartTag} {outer : List Element} {issued : Nat} {key : String}
      (hk : lt.value = .name key) :
      Took lt ⟨.inTag tag, outer, issued⟩ ⟨.equals tag key lt.start, outer, issued⟩
  | close {tag : StartTag} {outer : List Element} {issued : Nat} {kind : Kind}
      (hk : kindAt outer tag = .ok kind) (hc : lt.value = .close) :
      Took lt ⟨.inTag tag, outer, issued⟩
        ⟨.body ⟨tag.name, kind, ⟨⟨issued + 1⟩, tag.attributes, tag.enabled⟩, []⟩, outer, issued + 1⟩
  | selfClose {tag : StartTag} {outer : List Element} {issued : Nat} {kind : Kind}
      (hk : kindAt outer tag = .ok kind) (hc : lt.value = .selfClose) :
      Took lt ⟨.inTag tag, outer, issued⟩
        (closeElement outer ⟨tag.name, kind, ⟨⟨issued + 1⟩, tag.attributes, tag.enabled⟩, []⟩
          (issued + 1))
  | equals {tag : StartTag} {outer : List Element} {key : String} {pos issued : Nat}
      (hk : lt.value = .equals) :
      Took lt ⟨.equals tag key pos, outer, issued⟩ ⟨.value tag key pos, outer, issued⟩
  | value {tag tag' : StartTag} {outer : List Element} {key raw : String} {pos issued : Nat}
      (hv : lt.value = .value raw)
      (ht : tag.attribute key pos raw (lt.start + 1) = .ok tag') :
      Took lt ⟨.value tag key pos, outer, issued⟩ ⟨.inTag tag', outer, issued⟩
  | ending {e : Element} {outer : List Element} {issued : Nat} (ho : lt.value = .openEnd) :
      Took lt ⟨.body e, outer, issued⟩ ⟨.endName e, outer, issued⟩
  | child {e : Element} {outer : List Element} {issued : Nat} (ho : lt.value = .openTag) :
      Took lt ⟨.body e, outer, issued⟩ ⟨.elementName lt.start, e :: outer, issued⟩
  | endName {e : Element} {outer : List Element} {issued : Nat} (hn : lt.value = .name e.name) :
      Took lt ⟨.endName e, outer, issued⟩ ⟨.endMark e, outer, issued⟩
  | endMark {e : Element} {outer : List Element} {issued : Nat} (hc : lt.value = .close) :
      Took lt ⟨.endMark e, outer, issued⟩ (closeElement outer e issued)

theorem took_of_step {s s' : State} {lt : Located Token} (h : step s lt = .ok s') :
    Took lt s s' := by
  obtain ⟨phase, outer, issued⟩ := s
  cases phase with
  | start =>
    simp only [step] at h
    split at h
    · rename_i ho
      cases h
      exact .opening ho
    · cases h
  | elementName pos =>
    simp only [step] at h
    split at h
    · rename_i hn
      cases h
      exact .name _ hn
    · cases h
  | inTag tag =>
    simp only [step] at h
    split at h
    · rename_i hk
      cases h
      exact .key hk
    · split at h
      · cases h
      · rename_i hk
        split at h
        · rename_i hc
          cases h
          exact .close hk hc
        · rename_i hc
          cases h
          exact .selfClose hk hc
        · cases h
  | equals tag key pos =>
    simp only [step] at h
    split at h
    · rename_i hk
      cases h
      exact .equals hk
    · cases h
  | value tag key pos =>
    simp only [step] at h
    split at h
    · rename_i hv
      split at h
      · cases h
      · rename_i ht
        cases h
        exact .value hv ht
    · cases h
  | body e =>
    simp only [step] at h
    split at h
    · rename_i ho
      cases h
      exact .ending ho
    · split at h
      · split at h
        · rename_i ho
          cases h
          exact .child ho
        · cases h
      · cases h
  | endName e =>
    simp only [step] at h
    split at h
    · rename_i hn
      split at h
      · rename_i he
        cases h
        exact .endName (he ▸ hn)
      · cases h
    · cases h
  | endMark e =>
    simp only [step] at h
    split at h
    · rename_i hc
      cases h
      exact .endMark hc
    · cases h
  | finished root => cases h

/-! ## 2. What has been read fits -/

/-- An element whose attributes fit its kind and whose children are accepted and lawful. -/
structure Element.Sound (e : Element) : Prop where
  fits : e.kind.Fits e.label.attributes
  accepted : ∀ c ∈ e.children, e.kind.accepts c.kind = true
  lawful : ∀ c ∈ e.children, c.Lawful Kind.Fits

/-- Whether an element of a kind may start inside these open elements. -/
def Placed : List Element → Kind → Prop
  | [], kind => kind = .extension
  | parent :: _, kind => parent.kind.accepts kind = true

/-- Open elements, innermost first, each sound and each where its kind may stand. -/
def Nested : List Element → Prop
  | [] => True
  | e :: outer => e.Sound ∧ Placed outer e.kind ∧ Nested outer

/-- **What holds of everything read so far.** -/
def State.Sound (s : State) : Prop :=
  match s.phase with
  | .start | .elementName _ => Nested s.outer
  | .inTag tag => Nested s.outer ∧ tag.attributes.Writable
  | .equals tag key _ | .value tag key _ =>
    Nested s.outer ∧ tag.attributes.Writable ∧ Attributes.isValidKey key = true
  | .body e | .endName e | .endMark e => Nested (e :: s.outer)
  | .finished root => root.kind = .extension ∧ root.node.Lawful Kind.Fits

theorem Element.kind_node (e : Element) : e.node.kind = e.kind := by
  unfold Element.node
  split
  all_goals
    rename_i hk
    rw [hk]
    rfl

theorem Element.Sound.lawful_node {e : Element} (h : e.Sound) : e.node.Lawful Kind.Fits := by
  have hf := h.fits
  have ha := h.accepted
  unfold Element.node
  split
  · rename_i hk
    rw [hk] at hf ha
    exact Node.lawful_branch.mpr ⟨hf, ha, h.lawful⟩
  · rename_i hk
    rw [hk] at hf
    exact Node.lawful_leaf.mpr hf

/-- The outermost start tag is settled by its name. -/
theorem kindAt_nil_eq_ok {tag : StartTag} {kind : Kind} :
    kindAt [] tag = .ok kind ↔ tag.name = "extension" ∧ kind = .extension := by
  simp only [kindAt]
  by_cases h : tag.name = "extension"
  · simp [h, eq_comm]
  · simp [h]

/-- Inside an element the kind of a start tag is told first, and then it has to be accepted. -/
theorem kindAt_cons_eq_ok {parent : Element} {rest : List Element} {tag : StartTag} {kind : Kind} :
    kindAt (parent :: rest) tag = .ok kind ↔
      (if tag.name = "condition" && tag.attributes.contains "regex" then some Kind.regexCondition
        else Kind.ofText? tag.name) = some kind ∧ parent.kind.accepts kind = true := by
  unfold kindAt
  cases (if tag.name = "condition" && tag.attributes.contains "regex" then some Kind.regexCondition
    else Kind.ofText? tag.name) with
  | none => simp
  | some k =>
    by_cases ha : parent.kind.accepts k = true
    · simp only [ha, if_true, Except.ok.injEq, Option.some.injEq]
      exact ⟨fun e => ⟨e, e ▸ ha⟩, fun h => h.1⟩
    · simp only [ha, Option.some.injEq]
      exact ⟨fun h => (nomatch h), fun ⟨e, h⟩ => absurd (e ▸ h) ha⟩

/-- A kind is settled only where it may stand and only on attributes that fit it. -/
theorem kindAt_ok {outer : List Element} {tag : StartTag} {kind : Kind}
    (h : kindAt outer tag = .ok kind) (hw : tag.attributes.Writable) :
    Placed outer kind ∧ kind.Fits tag.attributes := by
  cases outer with
  | nil =>
    obtain ⟨-, rfl⟩ := kindAt_nil_eq_ok.mp h
    exact ⟨rfl, hw, fun e => by cases e⟩
  | cons p rest =>
    obtain ⟨hk, hacc⟩ := kindAt_cons_eq_ok.mp h
    refine ⟨hacc, hw, ?_⟩
    -- with a `regex` the element would have been taken for a condition of regexes
    rintro rfl hr
    rw [← Attributes.contains_iff] at hr
    rw [hr] at hk
    split at hk
    · cases hk
    · rename_i hn
      simp only [Bool.and_true, decide_eq_true_eq] at hn
      have := List.find?_some hk
      exact hn (beq_iff_eq.mp this).symm

/-- **All that one more attribute can do** to a start tag without a fault: its value stands for
    something, and it sets the flag or is a new key. -/
theorem attribute_ok {tag tag' : StartTag} {key raw : String} {kp vp : Nat}
    (h : tag.attribute key kp raw vp = .ok tag') : ∃ value, decode raw vp = .ok value ∧
      ((key = "enabled" ∧ (value = "true" ∨ value = "false") ∧
          tag' = { tag with enabled := value == "true" }) ∨
        (key ≠ "enabled" ∧ tag.attributes.contains key = false ∧
          tag' = { tag with attributes := tag.attributes.set key value })) := by
  unfold StartTag.attribute at h
  split at h
  · cases h
  · rename_i value hd
    refine ⟨value, hd, ?_⟩
    split at h
    · rename_i hk
      split at h
      · rename_i hv
        cases h
        exact .inl ⟨hk, .inl hv, by rw [hv]; rfl⟩
      · split at h
        · rename_i hv
          cases h
          exact .inl ⟨hk, .inr hv, by rw [hv]; rfl⟩
        · cases h
    · rename_i hk
      split at h
      · cases h
      · rename_i hc
        cases h
        exact .inr ⟨hk, Bool.not_eq_true _ ▸ hc, rfl⟩

/-- One more attribute leaves the tag's attributes writable. -/
theorem writable_of_attribute {tag tag' : StartTag} {key raw : String} {kp vp : Nat}
    (h : tag.attribute key kp raw vp = .ok tag') (hw : tag.attributes.Writable)
    (hk : Attributes.isValidKey key = true) : tag'.attributes.Writable := by
  obtain ⟨value, -, ⟨-, -, rfl⟩ | ⟨hf, -, rfl⟩⟩ := attribute_ok h
  · exact hw
  · exact hw.set _ hk hf

/-- It leaves the place and the name of the tag as they are. -/
theorem attribute_keeps {tag tag' : StartTag} {key raw : String} {kp vp : Nat}
    (h : tag.attribute key kp raw vp = .ok tag') : tag'.pos = tag.pos ∧ tag'.name = tag.name := by
  obtain ⟨value, -, ⟨-, -, rfl⟩ | ⟨-, -, rfl⟩⟩ := attribute_ok h
  · exact ⟨rfl, rfl⟩
  · exact ⟨rfl, rfl⟩

theorem sound_closeElement {outer : List Element} {e : Element} (h : Nested (e :: outer))
    (issued : Nat) : (closeElement outer e issued).Sound := by
  obtain ⟨he, hp, ho⟩ := h
  cases outer with
  | nil =>
    have hk : e.kind = .extension := hp
    have hf := he.fits
    have ha := he.accepted
    rw [hk] at hf ha
    exact ⟨rfl, Node.lawful_branch.mpr ⟨hf, ha, he.lawful⟩⟩
  | cons p rest =>
    obtain ⟨hps, hpp, hpr⟩ := ho
    refine ⟨⟨hps.fits, fun c hc => ?_, fun c hc => ?_⟩, hpp, hpr⟩
    · rcases List.mem_append.mp hc with hc | hc
      · exact hps.accepted c hc
      · rw [List.mem_singleton.mp hc, e.kind_node]
        exact hp
    · rcases List.mem_append.mp hc with hc | hc
      · exact hps.lawful c hc
      · rw [List.mem_singleton.mp hc]
        exact he.lawful_node

/-- **A step keeps what has been read sound.** -/
theorem Took.sound {lt : Located Token} {s s' : State} (h : Took lt s s') (hs : s.Sound)
    (hn : ∀ n, lt.value = .name n → Attributes.isValidKey n = true) : s'.Sound := by
  cases h with
  | opening => exact hs
  | name n => exact ⟨hs, .empty⟩
  | key hk => exact ⟨hs.1, hs.2, hn _ hk⟩
  | close hk =>
    obtain ⟨hp, hf⟩ := kindAt_ok hk hs.2
    exact ⟨⟨hf, fun c hc => absurd hc List.not_mem_nil, fun c hc => absurd hc List.not_mem_nil⟩,
      hp, hs.1⟩
  | selfClose hk =>
    obtain ⟨hp, hf⟩ := kindAt_ok hk hs.2
    exact sound_closeElement ⟨⟨hf, fun c hc => absurd hc List.not_mem_nil,
      fun c hc => absurd hc List.not_mem_nil⟩, hp, hs.1⟩ _
  | equals hk => exact hs
  | value hv ht => exact ⟨hs.1, writable_of_attribute ht hs.2.1 hs.2.2⟩
  | ending => exact hs
  | child => exact hs
  | endName => exact hs
  | endMark => exact sound_closeElement hs _

/-! ## 3. Whole texts -/

/-- The first token is taken, then the others. -/
theorem foldlM_cons_ok {lt : Located Token} {lts : List (Located Token)} {s s' : State}
    (h : (lt :: lts).foldlM step s = .ok s') :
    ∃ s1, Took lt s s1 ∧ lts.foldlM step s1 = .ok s' := by
  rw [List.foldlM_cons] at h
  cases h1 : step s lt with
  | error e =>
    rw [h1] at h
    cases h
  | ok s1 =>
    rw [h1] at h
    exact ⟨s1, took_of_step h1, h⟩

theorem foldlM_append_ok {lts more : List (Located Token)} {s s' : State}
    (h : (lts ++ more).foldlM step s = .ok s') :
    ∃ s1, lts.foldlM step s = .ok s1 ∧ more.foldlM step s1 = .ok s' := by
  rw [List.foldlM_append] at h
  cases h1 : lts.foldlM step s with
  | error e =>
    rw [h1] at h
    cases h
  | ok s1 =>
    rw [h1] at h
    exact ⟨s1, rfl, h⟩

/-- **What every token keeps holds in the end**, of the tokens taken and the state they lead to. -/
theorem took_foldlM {P : List (Located Token) → State → Prop} :
    ∀ {lts done : List (Located Token)} {s s' : State}, lts.foldlM step s = .ok s' → P done s →
      (∀ lt ∈ lts, ∀ done s s', Took lt s s' → P done s → P (done ++ [lt]) s') →
        P (done ++ lts) s'
  | [], done, s, s', h, h0, _ => by
      cases h
      rw [List.append_nil]
      exact h0
  | lt :: lts, done, s, s', h, h0, hstep => by
      obtain ⟨s1, ht, h⟩ := foldlM_cons_ok h
      have hs1 : P (done ++ [lt]) s1 := hstep lt List.mem_cons_self done s s1 ht h0
      have hr := took_foldlM h hs1 fun m hm => hstep m (List.mem_cons_of_mem lt hm)
      rw [List.append_assoc] at hr
      exact hr

/-- A text that was read has tokens, and they lead to the finished root. -/
theorem finished_of_read {text : String} {t : Tree} (h : read text = .ok t) :
    ∃ lts outer, scan text = .ok lts ∧
      lts.foldlM step .start = .ok ⟨.finished t.root, outer, t.issued⟩ := by
  unfold read at h
  split at h
  · cases h
  · rename_i lts hscan
    unfold ofTokens at h
    split at h
    · cases h
    · rename_i s hfold
      refine ⟨lts, s.outer, hscan, ?_⟩
      rw [hfold]
      unfold State.finish at h
      split at h
      case h_9 hp =>
        cases h
        rw [← hp]
      case h_3 =>
        split at h
        all_goals cases h
      all_goals cases h

/-- A blank text cannot be read. -/
theorem not_read_of_blank {text : String} (h : blank text = true) (t : Tree) :
    read text ≠ .ok t := by
  intro hr
  obtain ⟨lts, outer, hscan, hfold⟩ := finished_of_read hr
  obtain rfl := eq_nil_of_scanFrom_blank hscan h
  cases hfold

/-- What holds before the first token, and is kept by every token of a text that was read, holds of
    all its tokens and its finished root. -/
theorem holds_of_read {P : List (Located Token) → State → Prop} {text : String} {t : Tree}
    (h : read text = .ok t) (h0 : P [] .start)
    (hstep : ∀ lts, scan text = .ok lts → ∀ lt ∈ lts, ∀ done s s', Took lt s s' → P done s →
      P (done ++ [lt]) s') :
    ∃ lts outer, scan text = .ok lts ∧ P lts ⟨.finished t.root, outer, t.issued⟩ := by
  obtain ⟨lts, outer, hscan, hfold⟩ := finished_of_read h
  exact ⟨lts, outer, hscan, took_foldlM hfold h0 (hstep lts hscan)⟩

/-- A text is read by sound steps only, since its names can be written as keys. -/
theorem sound_of_took {text : String} {lts : List (Located Token)} (hscan : scan text = .ok lts)
    {lt : Located Token} (hlt : lt ∈ lts) {s s' : State} (h : Took lt s s') (hs : s.Sound) :
    s'.Sound :=
  h.sound hs fun _ hn => isValidKey_of_scanFrom hscan hlt hn

/-- **What was read is lawful**: its attributes fit its kinds and every child is accepted. -/
theorem lawful_of_read {text : String} {t : Tree} (h : read text = .ok t) :
    t.Lawful Kind.Fits := by
  have h0 : State.Sound .start := trivial
  obtain ⟨lts, outer, -, hs⟩ := holds_of_read (P := fun _ s => s.Sound) h h0
    fun lts hscan lt hlt done s s' ht hs => sound_of_took hscan hlt ht hs
  exact hs

end Dialplan.Markup
