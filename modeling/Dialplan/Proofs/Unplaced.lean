import Dialplan.Proofs.Reading
import Mathlib
/-!
# Reading without places

What a text is read as does not depend on where its tokens stand. Their places are carried along for
the faults alone, so with the places left out everywhere a step takes equal states and tokens to
equal outcomes.

* `Fault.unplaced`, `State.unplaced`: a fault and a state with their places left out;
* `decodeFrom_unplaced`, `attribute_unplaced`, `kindAt_unplaced`: the parts of a step;
* `step_unplaced`: **what a token does depends on no place**;
* `foldlM_unplaced`: nor does what a run of tokens does;
* `read_of_values`: texts with the same tokens are read alike.
-/

namespace Dialplan.Markup

open Dialplan.Text

/-! ## 1. What is left without places -/

/-- The fault with its place left out. -/
def Fault.unplaced : Fault → Fault
  | .unexpectedToken _ expected found => .unexpectedToken 0 expected found
  | .unexpectedEnd _ expected => .unexpectedEnd 0 expected
  | .invalid _ violation => .invalid 0 violation
  | .unrecognized _ fragment => .unrecognized 0 fragment

/-- The start tag with its place left out. -/
def StartTag.unplaced (tag : StartTag) : StartTag := { tag with pos := 0 }

/-- The phase with the places that wait in it left out. -/
def Phase.unplaced : Phase → Phase
  | .elementName _ => .elementName 0
  | .inTag tag => .inTag tag.unplaced
  | .equals tag key _ => .equals tag.unplaced key 0
  | .value tag key _ => .value tag.unplaced key 0
  | phase => phase

/-- The state with the places in its phase left out. -/
def State.unplaced (s : State) : State := { s with phase := s.phase.unplaced }

/-- What comes of something, its faults without their places. -/
def outcome {α : Type} (x : Except Fault α) : Except Fault α := x.mapError Fault.unplaced

theorem outcome_map {α β : Type} (f : α → β) (x : Except Fault α) :
    outcome (x.map f) = (outcome x).map f := by
  cases x <;> rfl

section

variable {α β : Type} {x y : Except Fault α}

/-- Where two things come out alike but for what `f` leaves out, both come to results, alike but for
    that, or both to faults, alike but for their places. -/
theorem outcome_map_eq {f : α → β} (h : outcome (x.map f) = outcome (y.map f)) :
    (∃ a b, x = .ok a ∧ y = .ok b ∧ f a = f b) ∨
      ∃ e g, x = .error e ∧ y = .error g ∧ e.unplaced = g.unplaced := by
  cases x with
  | error e =>
    cases y with
    | error g => exact .inr ⟨e, g, rfl, rfl, Except.error.inj h⟩
    | ok b => cases h
  | ok a =>
    cases y with
    | error g => cases h
    | ok b => exact .inl ⟨a, b, rfl, rfl, Except.ok.inj h⟩

theorem outcome_eq (h : outcome x = outcome y) : (∃ a, x = .ok a ∧ y = .ok a) ∨
    ∃ e g, x = .error e ∧ y = .error g ∧ e.unplaced = g.unplaced := by
  have hmap : outcome (x.map fun a => a) = outcome (y.map fun a => a) := by
    rw [outcome_map, h, ← outcome_map]
  rcases outcome_map_eq hmap with ⟨a, b, hx, hy, rfl⟩ | hfault
  · exact .inl ⟨a, hx, hy⟩
  · exact .inr hfault

end

/-! ## 2. The parts of a step -/

/-- References are read alike wherever they stand. -/
theorem decodeFrom_unplaced (pos pos' : Nat) (cs : List Char) :
    outcome (decodeFrom pos cs) = outcome (decodeFrom pos' cs) := by
  fun_induction decodeFrom pos cs generalizing pos' with
  | case1 => rw [decodeFrom]
  | case2 pos rest hc =>
    rw [decodeFrom, if_pos rfl]
    split
    · rfl
    · rename_i h
      rw [hc] at h
      cases h
  | case3 pos rest name after hc hr =>
    rw [decodeFrom, if_pos rfl]
    split
    · rename_i h
      rw [hc] at h
      cases h
    · rename_i h
      rw [hc] at h
      cases h
      rw [hr]
      rfl
  | case4 pos rest name after hc d hr _ ih =>
    have hn : ';' ∉ name := ((cutAt_eq_some_iff _ _ _ _).mp hc).2
    rw [((cutAt_eq_some_iff _ _ _ _).mp hc).1, decodeFrom_reference name hr hn, outcome_map, ih,
      ← outcome_map]
  | case5 pos c rest hc ih => rw [decodeFrom_plain hc, outcome_map, ih, ← outcome_map]

theorem decode_unplaced (raw : String) (pos pos' : Nat) :
    outcome (decode raw pos) = outcome (decode raw pos') := by
  unfold decode
  rw [outcome_map, decodeFrom_unplaced pos pos', ← outcome_map]

/-- An attribute is taken alike wherever it stands. -/
theorem attribute_unplaced (tag : StartTag) (key raw : String)
    (keyPos valuePos keyPos' valuePos' : Nat) :
    outcome ((tag.attribute key keyPos raw valuePos).map StartTag.unplaced) =
      outcome ((tag.unplaced.attribute key keyPos' raw valuePos').map StartTag.unplaced) := by
  obtain ⟨tagPos, name, attributes, enabled⟩ := tag
  unfold StartTag.unplaced StartTag.attribute
  rcases outcome_eq (decode_unplaced raw valuePos valuePos') with ⟨value, h, h'⟩ | ⟨f, g, h, h', hfg⟩
  · rw [h, h']
    dsimp only
    split
    · split
      · rfl
      · split <;> rfl
    · split <;> rfl
  · rw [h, h']
    exact congrArg Except.error hfg

/-- A start tag may stand where it stands, wherever that is. -/
theorem kindAt_unplaced (outer : List Element) (tag : StartTag) :
    outcome (kindAt outer tag) = outcome (kindAt outer tag.unplaced) := by
  obtain ⟨tagPos, name, attributes, enabled⟩ := tag
  unfold kindAt StartTag.unplaced
  cases outer with
  | nil =>
    dsimp only
    split <;> rfl
  | cons parent rest =>
    dsimp only
    generalize (if name = "condition" && attributes.contains "regex" then some Kind.regexCondition
      else Kind.ofText? name) = kind?
    cases kind? with
    | none => rfl
    | some kind =>
      dsimp only
      split <;> rfl

/-! ## 3. Steps and runs -/

/-- A value that stands where one must follow goes to its key. -/
theorem step_value (tag : StartTag) (key raw : String) (pos start stop : Nat) (outer : List Element)
    (issued : Nat) :
    (step ⟨.value tag key pos, outer, issued⟩ ⟨.value raw, start, stop⟩).map State.unplaced =
      ((tag.attribute key pos raw (start + 1)).map StartTag.unplaced).map
        fun tag => ⟨.inTag tag, outer, issued⟩ := by
  simp only [step]
  cases tag.attribute key pos raw (start + 1) <;> rfl

/-- **What a token does depends on no place.** -/
theorem step_unplaced (s : State) (lt : Located Token) :
    outcome ((step s lt).map State.unplaced) =
      outcome ((step s.unplaced ⟨lt.value, 0, 0⟩).map State.unplaced) := by
  obtain ⟨phase, outer, issued⟩ := s
  obtain ⟨t, start, stop⟩ := lt
  cases phase with
  | start => cases t <;> rfl
  | elementName pos => cases t <;> rfl
  | equals tag key pos => cases t <;> rfl
  | endMark e => cases t <;> rfl
  | finished root => cases t <;> rfl
  | inTag tag =>
    rcases outcome_eq (kindAt_unplaced outer tag) with ⟨kind, h, h'⟩ | ⟨f, g, h, h', hfg⟩
    · cases t <;> simp only [step, State.unplaced, Phase.unplaced, h, h'] <;> rfl
    · cases t with
      | name n => rfl
      | _ =>
        simp only [step, State.unplaced, Phase.unplaced, h, h']
        exact congrArg Except.error hfg
  | value tag key pos =>
    cases t with
    | value raw =>
      rw [step_value, outcome_map, attribute_unplaced tag key raw pos (start + 1) 0 (0 + 1),
        ← outcome_map, ← step_value]
      rfl
    | _ => rfl
  | body e =>
    cases t with
    | openEnd => rfl
    | _ =>
      simp only [step, State.unplaced, Phase.unplaced]
      split <;> rfl
  | endName e =>
    cases t with
    | name n =>
      simp only [step, State.unplaced, Phase.unplaced]
      split <;> rfl
    | _ => rfl

/-- **What a run of tokens does depends on no place**: only on the tokens, and on what was read
    before. -/
theorem foldlM_unplaced : ∀ {lts lts' : List (Located Token)} {s s' : State},
    lts.map (·.value) = lts'.map (·.value) → s.unplaced = s'.unplaced →
      outcome ((lts.foldlM step s).map State.unplaced) =
        outcome ((lts'.foldlM step s').map State.unplaced)
  | [], [], _, _, _, hs => congrArg Except.ok hs
  | lt :: lts, lt' :: lts', s, s', hv, hs => by
      obtain ⟨hvalue, hvalues⟩ := List.cons.inj hv
      have hstep : outcome ((step s lt).map State.unplaced) =
          outcome ((step s' lt').map State.unplaced) := by
        rw [step_unplaced s, step_unplaced s', hs, show lt.value = lt'.value from hvalue]
      rw [List.foldlM_cons, List.foldlM_cons]
      rcases outcome_map_eq hstep with ⟨t, t', h, h', ht⟩ | ⟨e, g, h, h', heg⟩
      · rw [h, h']
        exact foldlM_unplaced hvalues ht
      · rw [h, h']
        exact congrArg Except.error heg
  | [], _ :: _, _, _, hv, _ => nomatch hv
  | _ :: _, [], _, _, hv, _ => nomatch hv

/-- What the end of a text does depends on no place. -/
theorem finish_unplaced (s : State) (len len' : Nat) :
    outcome (s.finish len) = outcome (s.unplaced.finish len') := by
  obtain ⟨phase, outer, issued⟩ := s
  cases phase with
  | inTag tag =>
    simp only [State.finish, State.unplaced, Phase.unplaced]
    rcases outcome_eq (kindAt_unplaced outer tag) with ⟨kind, h, h'⟩ | ⟨f, g, h, h', hfg⟩
    · rw [h, h']
      rfl
    · rw [h, h']
      exact congrArg Except.error hfg
  | _ => rfl

/-- **Texts with the same tokens are read alike**: as one tree, or not for the same reason. -/
theorem read_of_values {text text' : String} {lts lts' : List (Located Token)}
    (hscan : scan text = .ok lts) (hscan' : scan text' = .ok lts')
    (hv : lts.map (·.value) = lts'.map (·.value)) :
    outcome (read text) = outcome (read text') := by
  have hrun := foldlM_unplaced hv (rfl : State.start.unplaced = State.start.unplaced)
  unfold read ofTokens
  rw [hscan, hscan']
  dsimp only
  rcases outcome_map_eq hrun with ⟨s, s', h, h', hs⟩ | ⟨e, g, h, h', heg⟩
  · rw [h, h']
    dsimp only
    rw [finish_unplaced s _ 0, hs, ← finish_unplaced s' _ 0]
  · rw [h, h']
    exact congrArg Except.error heg

end Dialplan.Markup
