import Dialplan.Proofs.Grammar
import Dialplan.Proofs.Offsets
/-!
# Keys that are said again

A start tag may say a key only once, but the enabled flag is set apart before its keys are compared:
it may be said any number of times, and the last time counts.

* `Tag.Repeats`, `Tag.In`: a start tag says a key more than once; a start tag stands in a text;
* `legible_of_taken`: a start tag that was taken is legible, whatever stood around it;
* `repeats_of_halts`: where a key is refused as a duplicate, a start tag had said it already;
* `repeats_flag_only`: **nothing but the flag is said again in a text that is read**, and what is
  refused as a duplicate was said again.
-/

namespace Dialplan.Markup

open Dialplan.Text

/-! ## 1. Start tags that repeat a key -/

namespace Tag

/-- The keys of a start tag as they are written, the flag among them. -/
def keys (g : Tag) : List String := g.pairs.map (·.1)

/-- A start tag says a key more than once. -/
def Repeats (g : Tag) (key : String) : Prop := 2 ≤ g.keys.count key

/-- **A start tag stands in a text**, or what it begins with: its name and its first keys and values
    come one after the other among the tokens. -/
def In (g : Tag) (text : String) : Prop :=
  ∃ lts, scan text = .ok lts ∧ g.tokens <:+: lts.map (·.value)

variable {g : Tag} {key raw : String}

/-- The attributes have every key but the flag's. -/
theorem keys_attributes (g : Tag) : g.attributes.keys = g.keys.filter (· != "enabled") := by
  unfold attributes decoded keys Attributes.keys
  rw [List.filter_map, List.filter_map, List.map_map]
  rfl

/-- A legible start tag repeats nothing but the flag. -/
theorem Legible.eq_of_repeats (hl : g.Legible) (hr : g.Repeats key) : key = "enabled" := by
  by_contra hne
  have hnodup : (g.keys.filter (· != "enabled")).Nodup := g.keys_attributes ▸ hl.distinct
  have hcount : (g.keys.filter (· != "enabled")).count key = g.keys.count key :=
    List.count_filter (bne_iff_ne.mpr hne)
  have hone : g.keys.count key ≤ 1 := hcount ▸ List.nodup_iff_count_le_one.mp hnodup key
  exact absurd (Nat.le_trans hr hone) (by decide)

/-- A start tag repeats a key that comes again. -/
theorem repeats_snoc (h : key ∈ g.attributes.keys) : (g.snoc (key, raw)).Repeats key := by
  rw [keys_attributes] at h
  have hcount : 0 < g.keys.count key := List.count_pos_iff.mpr (List.mem_filter.mp h).1
  have hsnoc : (g.snoc (key, raw)).keys = g.keys ++ [key] := List.map_append
  unfold Repeats
  rw [hsnoc, List.count_append, List.count_singleton_self]
  omega

end Tag

/-! ## 2. Start tags that were taken -/

section Taken

variable {s s' : State} {lts : List (Located Token)}

/-- Where a `<` is taken, the name of a start tag must follow. -/
theorem phase_of_openTag {lt : Located Token} (ho : lt.value = .openTag) (h : Took lt s s') :
    s'.phase = .elementName lt.start := by
  cases h with
  | opening | child => rfl
  | key hm | equals hm | ending hm | endName hm | endMark hm => cases ho.symm.trans hm
  | name _ hm | close _ hm | selfClose _ hm | value hm _ => cases ho.symm.trans hm

/-- A key, its mark and its value are taken as one pair of the start tag. -/
theorem legible_snoc_of_took {g : Tag} {lk le lv : Located Token} {key raw : String} {pos : Nat}
    {outer : List Element} {issued : Nat} {s1 s2 s3 : State} (hg : g.Legible)
    (hk : lk.value = .name key) (hv : lv.value = .value raw)
    (h1 : Took lk ⟨.inTag (g.start pos), outer, issued⟩ s1) (h2 : Took le s1 s2)
    (h3 : Took lv s2 s3) :
    (g.snoc (key, raw)).Legible ∧ s3 = ⟨.inTag ((g.snoc (key, raw)).start pos), outer, issued⟩ := by
  cases h1 with
  | key hk' =>
    cases hk.symm.trans hk'
    cases h2 with
    | equals =>
      cases h3 with
      | value hv' ha =>
        cases hv.symm.trans hv'
        obtain ⟨hl, rfl⟩ := (Tag.attribute_eq_ok_iff hg).mp ha
        exact ⟨hl, rfl⟩
  | close _ hc => cases hk.symm.trans hc
  | selfClose _ hc => cases hk.symm.trans hc

/-- Pairs that are taken one after the other leave the start tag legible. -/
theorem legible_of_pairs {outer : List Element} {issued : Nat} {pos : Nat} :
    ∀ {ps : List (String × String)} {g : Tag} {lts : List (Located Token)}, g.Legible →
      lts.map (·.value) = ps.flatMap pairTokens →
      lts.foldlM step ⟨.inTag (g.start pos), outer, issued⟩ = .ok s' →
        Tag.Legible ⟨g.name, g.pairs ++ ps⟩
  | [], g, _, hg, _, _ => by
      rw [List.append_nil]
      exact hg
  | (key, raw) :: ps, g, lts, hg, hts, h => by
      obtain ⟨lk, lts, rfl, hk, hts⟩ := List.map_eq_cons_iff.mp hts
      obtain ⟨le, lts, rfl, -, hts⟩ := List.map_eq_cons_iff.mp hts
      obtain ⟨lv, lts, rfl, hv, hts⟩ := List.map_eq_cons_iff.mp hts
      obtain ⟨s1, h1, h⟩ := foldlM_cons_ok h
      obtain ⟨s2, h2, h⟩ := foldlM_cons_ok h
      obtain ⟨s3, h3, h⟩ := foldlM_cons_ok h
      obtain ⟨hl, rfl⟩ := legible_snoc_of_took hg hk hv h1 h2 h3
      rw [← g.pairs_snoc]
      exact legible_of_pairs hl hts h

/-- **A start tag that was taken is legible**, whatever stood around it. -/
theorem legible_of_taken {g : Tag} (hts : lts.map (·.value) = g.tokens)
    (h : lts.foldlM step s = .ok s') : g.Legible := by
  obtain ⟨lo, lts, rfl, ho, hts⟩ := List.map_eq_cons_iff.mp hts
  obtain ⟨ln, lts, rfl, hn, hts⟩ := List.map_eq_cons_iff.mp hts
  obtain ⟨⟨phase, outer, issued⟩, h1, h⟩ := foldlM_cons_ok h
  obtain ⟨s2, h2, h⟩ := foldlM_cons_ok h
  obtain rfl : phase = .elementName lo.start := phase_of_openTag ho h1
  cases h2 with
  | name n hn' =>
    cases hn.symm.trans hn'
    exact legible_of_pairs (g := ⟨g.name, []⟩) (.nil g.name) hts h

/-- Every start tag in a text that is read is legible. -/
theorem Tag.In.legible {g : Tag} {text : String} {t : Tree} (hg : g.In text)
    (h : read text = .ok t) : g.Legible := by
  obtain ⟨lts, hscan, before, after, hts⟩ := hg
  obtain ⟨lts', outer, hscan', hfold⟩ := finished_of_read h
  cases hscan.symm.trans hscan'
  obtain ⟨front, back, rfl, hfront, -⟩ := List.map_eq_append_iff.mp hts.symm
  obtain ⟨done, taken, rfl, -, htaken⟩ := List.map_eq_append_iff.mp hfront
  obtain ⟨s, hs, -⟩ := foldlM_append_ok hfold
  obtain ⟨s0, -, hs⟩ := foldlM_append_ok hs
  exact legible_of_taken htaken hs

end Taken

/-! ## 3. Keys that are refused -/

/-- No start tag is refused as a duplicate for where it stands. -/
theorem kindAt_ne_duplicate {outer : List Element} {tag : StartTag} {pos : Nat} {key : String} :
    kindAt outer tag ≠ .error (.invalid pos (.duplicateAttribute key)) := by
  intro h
  obtain ⟨v, hf, hv⟩ := kindAt_fault h
  cases hf
  rcases hv with hv | hv | ⟨_, _, hv⟩ <;> cases hv

/-- **Where a key is refused as a duplicate**, a start tag had said it already, and it is not the
    flag's. -/
theorem repeats_of_halts {text key : String} {pos : Nat}
    (h : Halts text (fun done s => s.Spells (done.map (·.value)))
      (.invalid pos (.duplicateAttribute key))) :
    key ≠ "enabled" ∧ ∃ g : Tag, g.In text ∧ g.Repeats key := by
  cases h with
  | stretch hscan =>
    obtain ⟨_, _, _, _, _, hf⟩ := fragment_of_scanFrom hscan
    cases hf
  | @token done more lt s hscan hs hstop =>
    cases hstop with
    | kind hk => exact absurd hk kindAt_ne_duplicate
    | @value tag outer key' raw _ _ _ hv ha =>
      rcases attribute_fault ha with hd | ⟨found, hf⟩ | ⟨hf, hne, hmem⟩
      · obtain ⟨_, _, v, _, hf, hr⟩ := decodeFrom_fault (map_eq_error hd)
        cases hf
        cases hr
      · cases hf
      · cases hf
        obtain ⟨frs, g, -, -, htag, hdone⟩ := hs
        rw [htag] at hmem
        refine ⟨hne, g.snoc (key, raw), ⟨_, hscan, ?_⟩, Tag.repeats_snoc hmem⟩
        refine ⟨framesTokens frs, more.map (·.value), ?_⟩
        rw [Tag.tokens_snoc, List.map_append, List.map_cons, hdone, hv]
        simp only [pairTokens, List.append_assoc, List.cons_append, List.nil_append]
  | textEnd _ _ hfin =>
    rcases finish_fault hfin with ⟨expected, hf⟩ | ⟨tag, -, hk⟩
    · cases hf
    · exact absurd hk kindAt_ne_duplicate

/-! ## 4. Whole texts -/

/-- **Nothing but the flag is said again in a text that is read**, and what is refused as a duplicate
    is another key that a start tag says again. -/
theorem repeats_flag_only (text : String) :
    (∀ t, read text = .ok t → ∀ (g : Tag) (key : String), g.In text → key ≠ "enabled" →
      ¬ g.Repeats key) ∧
    (∀ pos key, read text = .error (.invalid pos (.duplicateAttribute key)) →
      key ≠ "enabled" ∧ ∃ g : Tag, g.In text ∧ g.Repeats key) := by
  constructor
  · intro t h g key hg hne hr
    exact hne ((hg.legible h).eq_of_repeats hr)
  · intro pos key h
    have hstart : State.start.Spells [] := ⟨.nil, rfl⟩
    refine repeats_of_halts (halts_of_read h hstart fun lt done s s' ht hs => ?_)
    rw [List.map_append]
    exact ht.spells hs

/-- A text whose start tag says its flag off and then on. -/
def wavering : String := "<extension name=\"a\" enabled=\"false\" enabled=\"true\"/>"

/-- The start tag of this text. -/
def waveringTag : Tag :=
  ⟨"extension", [("name", "a"), ("enabled", "false"), ("enabled", "true")]⟩

theorem read_wavering :
    read wavering = .ok ⟨⟨.extension, ⟨⟨1⟩, ⟨[("name", "a")]⟩, true⟩, []⟩, 1⟩ := by
  cbv

theorem waveringTag_in : waveringTag.In wavering := by
  have hscan : (scan wavering).map (·.map (·.value)) = .ok (waveringTag.tokens ++ [.selfClose]) := by
    cbv
  obtain ⟨lts, hs, hv⟩ := map_eq_ok hscan
  exact ⟨lts, hs, [], [.selfClose], hv.symm⟩

/-- Beside a flag that is said again a name is not, and one that is said again is refused. -/
theorem repeats_flag_only_wavering : ¬ waveringTag.Repeats "name" ∧
    read "<extension name=\"a\" name=\"b\"/>" = .error (.invalid 20 (.duplicateAttribute "name")) ∧
    ∃ g : Tag, g.In "<extension name=\"a\" name=\"b\"/>" ∧ g.Repeats "name" := by
  have hname : read "<extension name=\"a\" name=\"b\"/>" =
      .error (.invalid 20 (.duplicateAttribute "name")) := by
    cbv
  exact ⟨(repeats_flag_only wavering).1 _ read_wavering waveringTag "name" waveringTag_in (by decide),
    hname, ((repeats_flag_only _).2 20 "name" hname).2⟩

/-- **A text is read though one of its start tags says a key twice**: the flag, of which the last
    value counts. -/
theorem exists_read_repeats : ∃ t, read wavering = .ok t ∧ t.root.label.enabled = true ∧
    ∃ (g : Tag) (key : String), g.In wavering ∧ g.Repeats key := by
  have hr : waveringTag.Repeats "enabled" := by
    unfold Tag.Repeats
    decide
  exact ⟨_, read_wavering, rfl, waveringTag, "enabled", waveringTag_in, hr⟩

end Dialplan.Markup
