import Dialplan.Proofs.Hazard
import Dialplan.Proofs.Written
import Dialplan.Store
import Dialplan.Text.Lowercase
import Mathlib
/-!
# What the guard keeps out

The guard looks at the text, and what a text means is what it is read as. Here the two are compared:
where in an accepted text the name of a dangerous application can still stand, so that it comes to
be the value of an attribute.

* `exists_spells`: a name in whatever case is a name to the scan;
* `Guarded.dangerous_of_accepted`: in an accepted text such a value is written with a reference, or
  its line has no `>` after it.
-/

namespace Dialplan

open Dialplan.Text

/-! ## 1. Values without references -/

namespace Markup

theorem decodeFrom_of_no_reference : ∀ (cs : List Char) (pos : Nat), '&' ∉ cs →
    decodeFrom pos cs = .ok cs
  | [], pos, _ => by rw [decodeFrom]
  | c :: rest, pos, h => by
      have hc : c ≠ '&' := fun e => h (e ▸ List.mem_cons_self)
      have hr : '&' ∉ rest := fun hm => h (List.mem_cons_of_mem c hm)
      rw [decodeFrom_plain hc, decodeFrom_of_no_reference rest _ hr]
      rfl

/-- Without references a value stands for itself. -/
theorem decode_of_no_reference {raw value : String} {pos : Nat} (h : '&' ∉ raw.toList)
    (hd : decode raw pos = .ok value) : raw = value := by
  unfold decode at hd
  rw [decodeFrom_of_no_reference raw.toList pos h] at hd
  have he : String.ofList raw.toList = value := Except.ok.inj hd
  rw [← he, String.ofList_toList]

end Markup

namespace Hazard

/-- The scan takes a letter in either case for the letter. -/
theorem spells_map_toLower : ∀ shown : List Char, Spells (shown.map Char.toLower) shown
  | [] => .nil
  | c :: rest => by
      have hc : matchesChar c.toLower c = true := by
        unfold matchesChar
        rw [decide_eq_true rfl, Bool.true_or]
      exact .cons hc (spells_map_toLower rest)

/-- A value that is a name but for the case of its letters is a name to the scan. -/
theorem exists_spells {value : String} (h : asciiLower value ∈ names) :
    ∃ name ∈ names, Spells name.toList value.toList := by
  refine ⟨asciiLower value, h, ?_⟩
  unfold asciiLower
  rw [String.toList_ofList]
  exact spells_map_toLower value.toList

end Hazard

/-! ## 2. Accepted texts -/

namespace Guarded

variable {σ : Type} [Store σ]

/-- The guard takes only what nothing is found in. -/
theorem scan_of_accepted {g g' : Guarded σ} {id : String} {r : Stored}
    (h : Store.save g id r = (.ok (), g')) : Hazard.scan r.markup = [] := by
  change Guarded.save g id r = _ at h
  unfold Guarded.save at h
  split at h
  · cases h
  · rename_i ho
    unfold objection? at ho
    split at ho
    · cases ho
    · split at ho
      · cases ho
      · assumption

/-- **What a dangerous value looks like in a text that the guard has taken.** Some node of the tree
    has an attribute whose value is, but for the case of its letters, the name of an application that
    starts processes: then the value is written with a reference, or its line has no `>` after the
    closing quote. -/
theorem dangerous_of_accepted {g g' : Guarded σ} {id : String} {r : Stored} {t : Tree}
    (hs : Store.save g id r = (.ok (), g')) (hr : Markup.read r.markup = .ok t)
    {n : Node} (hn : n ∈ t.nodes) {key value : String} (hv : n.attributes.get? key = some value)
    (hd : asciiLower value ∈ Hazard.names) :
    ∃ before q raw after, r.markup.toList = before ++ q :: (raw.toList ++ q :: after) ∧
      Hazard.isQuote q = true ∧ q ∉ raw.toList ∧
      Markup.decode raw (width before + 1) = .ok value ∧
      ('&' ∈ raw.toList ∨ '>' ∉ Hazard.line after) := by
  obtain ⟨lts, hscan, hw⟩ := Markup.written_of_read hr
  obtain ⟨front, back, hp, -⟩ := List.lookup_eq_some_iff.mp hv
  have hm : (key, value) ∈ n.attributes.pairs := by
    rw [hp]
    exact List.mem_append_right front List.mem_cons_self
  obtain ⟨before, q, raw, after, ht, hq, hnot, hdec⟩ := (hw n hn (key, value) hm).quoted hscan
  have hquote : Hazard.isQuote q = true := by
    rcases hq with rfl | rfl <;> rfl
  refine ⟨before, q, raw, after, ht, hquote, hnot, hdec, ?_⟩
  by_cases href : '&' ∈ raw.toList
  · exact .inl href
  · refine .inr fun hclose => ?_
    -- the value stands as it is between its quotes, which is what the scan looks for
    obtain rfl : raw = value := Markup.decode_of_no_reference href hdec
    have hsuffix : (q :: (raw.toList ++ q :: after)) <:+ r.markup.toList := ⟨before, ht.symm⟩
    have hno := ((Hazard.scan_eq_nil r.markup).mp (scan_of_accepted hs) _ hsuffix).1
    exact hno ⟨q, raw.toList, q, after, rfl, hquote, hquote, Hazard.exists_spells hd, hclose⟩

/-- A dangerous application, with the rest of its tag on the next line. -/
def brokenLine : Stored :=
  ⟨"<extension><action application=\"system\"\n data=\"reboot\"/></extension>",
    { Metadata.standard with name := "night" }⟩

/-- The tree of `brokenLine`. -/
def brokenLineTree : Tree :=
  ⟨⟨.extension, ⟨⟨1⟩, .empty, true⟩,
    [.leaf .action ⟨⟨2⟩, ⟨[("application", "system"), ("data", "reboot")]⟩, true⟩]⟩, 2⟩

theorem read_brokenLine : Markup.read brokenLine.markup = .ok brokenLineTree := by
  unfold brokenLine brokenLineTree
  cbv

theorem save_brokenLine : Store.save (Guarded.mk Shelf.empty) "main" brokenLine =
    (.ok (), ⟨⟨[("main", brokenLine)], 1⟩⟩) := by
  have hblank : blank brokenLine.markup = false := by
    unfold brokenLine
    cbv
  have hscan : Hazard.scan brokenLine.markup = [] := by
    unfold brokenLine
    cbv
  have hno : objection? brokenLine = none := by
    unfold objection?
    rw [hblank, hscan]
    decide
  show Guarded.save _ _ _ = _
  unfold Guarded.save
  rw [hno]
  rfl

/-- The name of the action stands there as it is, and its line ends in the middle of the tag. -/
theorem dangerous_of_accepted_brokenLine :
    asciiLower "system" ∈ Hazard.names ∧
    ∃ before q raw after, brokenLine.markup.toList = before ++ q :: (raw.toList ++ q :: after) ∧
      Hazard.isQuote q = true ∧ q ∉ raw.toList ∧
      Markup.decode raw (width before + 1) = .ok "system" ∧
      ('&' ∈ raw.toList ∨ '>' ∉ Hazard.line after) := by
  have hd : asciiLower "system" ∈ Hazard.names := by decide
  have hn : Node.leaf .action ⟨⟨2⟩, ⟨[("application", "system"), ("data", "reboot")]⟩, true⟩ ∈
      brokenLineTree.nodes := List.mem_cons_of_mem _ List.mem_cons_self
  have hv : (Attributes.mk [("application", "system"), ("data", "reboot")]).get? "application" =
      some "system" := rfl
  exact ⟨hd, dangerous_of_accepted save_brokenLine read_brokenLine hn hv hd⟩

/-- **The guard takes a text with a dangerous action in it.** -/
theorem accepts_dangerous_action :
    Store.save (Guarded.mk Shelf.empty) "main" brokenLine =
      (.ok (), ⟨⟨[("main", brokenLine)], 1⟩⟩) ∧
    Markup.read brokenLine.markup = .ok brokenLineTree ∧
    ∃ n ∈ brokenLineTree.nodes, n.kind = .action ∧
      n.attributes.get? "application" = some "system" ∧ "system" ∈ Hazard.names :=
  ⟨save_brokenLine, read_brokenLine, _, List.mem_cons_of_mem _ List.mem_cons_self, rfl, rfl,
    List.mem_cons_self⟩

end Guarded

end Dialplan
