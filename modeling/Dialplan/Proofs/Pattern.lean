import Dialplan.Proofs.Hits
import Mathlib
/-!
# The scan as a search for two patterns

What is dangerous where is said by two patterns. A pattern can match in several ways at one place, and
the ways have an order: of two alternatives the first is preferred, and of a repetition the longest.
A search takes the leftmost place, there the preferred way, and goes on where the match ends.

* `Pattern.ways`: the ways to match at the front of a text, in their order;
* `hitAt?_quotedPattern`, `hitAt?_bracedPattern`: the two matchers take the preferred way;
* `searched`: one pattern after the other, no offset twice, in the order of offsets;
* `scan_eq_searched`: **the scan is this search**;
* `scan_verdict`: what is found, where, and in which words.
-/

namespace Dialplan.Hazard

open Dialplan.Text

/-! ## 1. Patterns -/

/-- A pattern over characters. -/
inductive Pattern where
  | nothing
  /-- One character that passes. -/
  | char (passes : Char → Bool)
  | seq (first second : Pattern)
  /-- One of the two, rather the first. -/
  | either (first second : Pattern)
  /-- Characters that pass, rather more of them. -/
  | many (passes : Char → Bool)
  /-- What this part takes is given out. -/
  | given (inner : Pattern)

/-- One way to match at the front of a text. -/
structure Way where
  taken : List Char
  given : Option (List Char)
  rest : List Char

namespace Pattern

/-- The fronts of a text in which all characters pass, the longest first, with what is left. -/
def fronts (passes : Char → Bool) : List Char → List (List Char × List Char)
  | [] => [([], [])]
  | c :: rest =>
    (if passes c then (fronts passes rest).map fun (front, left) => (c :: front, left) else []) ++
      [([], c :: rest)]

/-- The ways to match at the front of a text, the preferred one first. -/
def ways : Pattern → List Char → List Way
  | nothing, cs => [⟨[], none, cs⟩]
  | char _, [] => []
  | char passes, c :: rest => if passes c then [⟨[c], none, rest⟩] else []
  | seq first second, cs =>
    (first.ways cs).flatMap fun w =>
      (second.ways w.rest).map fun v => ⟨w.taken ++ v.taken, w.given.or v.given, v.rest⟩
  | either first second, cs => first.ways cs ++ second.ways cs
  | many passes, cs => (fronts passes cs).map fun (front, left) => ⟨front, none, left⟩
  | given inner, cs => (inner.ways cs).map fun w => { w with given := some w.taken }

/-- The preferred way as a hit. -/
def hitAt? (p : Pattern) (cs : List Char) : Option Hit :=
  (p.ways cs).head?.map fun w => ⟨w.given.getD [], w.taken⟩

/-- One letter after the other, without regard to case. -/
def word : List Char → Pattern
  | [] => nothing
  | l :: name => seq (char (matchesChar l)) (word name)

/-- The first of these words that fits. -/
def anyWord : List String → Pattern
  | [] => char fun _ => false
  | name :: rest => either (word name.toList) (anyWord rest)

theorem ways_word : ∀ name cs : List Char, (word name).ways cs =
    (spelled? name cs).toList.map fun (shown, rest) => ⟨shown, none, rest⟩
  | [], cs => by
      simp only [word, ways, spelled?, Option.toList_some, List.map_cons, List.map_nil]
  | l :: name, [] => by
      simp only [word, ways, spelled?, List.flatMap_nil, Option.toList_none, List.map_nil]
  | l :: name, c :: rest => by
      simp only [word, ways, spelled?]
      by_cases hc : matchesChar l c = true
      · rw [if_pos hc, if_pos hc, List.flatMap_cons, List.flatMap_nil, List.append_nil,
          ways_word name rest]
        cases spelled? name rest <;> rfl
      · rw [if_neg hc, if_neg hc]
        rfl

theorem ways_anyWord (cs : List Char) : ∀ ns : List String, (anyWord ns).ways cs =
    ns.flatMap fun name =>
      (spelled? name.toList cs).toList.map fun (shown, rest) => ⟨shown, none, rest⟩
  | [] => by
      cases cs <;> rfl
  | name :: ns => by
      rw [anyWord, ways, ways_word, ways_anyWord cs ns, List.flatMap_cons]

/-- After one character. -/
theorem ways_char_seq (passes : Char → Bool) (p : Pattern) (c : Char) (rest : List Char) :
    (seq (char passes) p).ways (c :: rest) =
      if passes c then (p.ways rest).map fun v => ⟨c :: v.taken, v.given, v.rest⟩ else [] := by
  simp only [ways]
  by_cases hc : passes c = true
  · rw [if_pos hc, if_pos hc, List.flatMap_cons, List.flatMap_nil, List.append_nil]
    simp only [List.singleton_append, Option.none_or]
  · rw [if_neg hc, if_neg hc]
    rfl

/-- A repetition goes on with a character that passes, rather than that it ends. -/
theorem ways_many_seq (passes : Char → Bool) (p : Pattern) (c : Char) (rest : List Char) :
    (seq (many passes) p).ways (c :: rest) =
      (if passes c then
        ((seq (many passes) p).ways rest).map fun v => ⟨c :: v.taken, v.given, v.rest⟩
      else []) ++ p.ways (c :: rest) := by
  simp only [ways, fronts, List.map_append, List.flatMap_append]
  congr 1
  · by_cases hc : passes c = true
    · rw [if_pos hc, if_pos hc]
      simp only [List.map_map, List.flatMap_map, List.map_flatMap]
      rfl
    · rw [if_neg hc, if_neg hc]
      rfl
  · simp only [List.map_cons, List.map_nil, List.flatMap_cons, List.flatMap_nil, List.append_nil,
      List.nil_append, Option.none_or, List.map_id']

/-- The preferred way after a word begins with the first word that lets it go on. -/
theorem head?_ways_word_seq (p : Pattern) (cs : List Char) (ns : List String) :
    ((seq (given (anyWord ns)) p).ways cs).head? =
      ns.findSome? fun name => (spelled? name.toList cs).bind fun (shown, rest) =>
        (p.ways rest).head?.map fun v => ⟨shown ++ v.taken, some shown, v.rest⟩ := by
  simp only [ways, ways_anyWord, List.map_flatMap, List.flatMap_assoc, List.head?_flatMap]
  congr 1
  funext name
  cases spelled? name.toList cs with
  | none => rfl
  | some e =>
    simp only [Option.toList_some, List.map_cons, List.map_nil, List.findSome?_cons,
      List.findSome?_nil, List.head?_map, Option.bind_some, Option.some_or]
    cases (p.ways e.2).head? <;> rfl

/-- The preferred way to match a word is the first word that fits. -/
theorem head?_ways_word (cs : List Char) (ns : List String) :
    ((given (anyWord ns)).ways cs).head? =
      ns.findSome? fun name => (spelled? name.toList cs).map fun (shown, rest) =>
        ⟨shown, some shown, rest⟩ := by
  simp only [ways, ways_anyWord, List.map_flatMap, List.head?_flatMap]
  congr 1
  funext name
  cases spelled? name.toList cs <;> rfl

end Pattern

/-! ## 2. The two patterns -/

open Pattern

/-- A name as a quoted value inside a tag. -/
def quotedPattern : Pattern :=
  seq (char isQuote) (seq (given (anyWord names)) (seq (char isQuote)
    (seq (many fun c => c ≠ '\n') (char fun c => c = '>'))))

/-- A name in an expansion. -/
def bracedPattern : Pattern := seq (char fun c => c = '\x7b') (given (anyWord names))

/-- The longest run of a line that a `>` follows is the one up to the last. -/
theorem head?_ways_close : ∀ cs : List Char,
    ((seq (many fun c => c ≠ '\n') (char fun c => c = '>')).ways cs).head?.map Way.taken =
      throughLastClose? cs
  | [] => rfl
  | c :: rest => by
      have ih := head?_ways_close rest
      unfold throughLastClose?
      rw [ways_many_seq, List.head?_append]
      by_cases hn : c = '\n'
      · subst hn
        rfl
      · rw [if_pos (decide_eq_true hn), if_neg hn, List.head?_map, ← ih]
        cases ((seq (many fun c => c ≠ '\n') (char fun c => c = '>')).ways rest).head? with
        | some v => rfl
        | none =>
          by_cases hc : c = '>'
          · subst hc
            rfl
          · simp only [Option.map_none, Option.none_or, ways, decide_eq_true_eq, if_neg hc,
              List.head?_nil]

/-- **A quoted name is hit in the preferred way of its pattern.** -/
theorem hitAt?_quotedPattern (cs : List Char) : quotedPattern.hitAt? cs = quotedAt? cs := by
  cases cs with
  | nil => rfl
  | cons q rest =>
    simp only [hitAt?, quotedPattern, quotedAt?, ways_char_seq]
    by_cases hq : isQuote q = true
    · rw [if_pos hq, if_pos hq, List.head?_map, head?_ways_word_seq, Option.map_map,
        List.map_findSome?]
      congr 1
      funext name
      rw [Function.comp_apply]
      cases spelled? name.toList rest with
      | none => rfl
      | some e =>
        obtain ⟨shown, left⟩ := e
        rw [Option.bind_some, Option.map_map]
        cases left with
        | nil => rfl
        | cons q' after =>
          dsimp only
          rw [ways_char_seq]
          by_cases hq' : isQuote q' = true
          · rw [if_pos hq', if_pos hq', List.head?_map, ← head?_ways_close]
            cases ((seq (many fun c => c ≠ '\n') (char fun c => c = '>')).ways after).head? <;> rfl
          · rw [if_neg hq', if_neg hq']
            rfl
    · rw [if_neg hq, if_neg hq]
      rfl

/-- **A name after a brace is hit in the preferred way of its pattern.** -/
theorem hitAt?_bracedPattern (cs : List Char) : bracedPattern.hitAt? cs = bracedAt? cs := by
  cases cs with
  | nil => rfl
  | cons c rest =>
    simp only [hitAt?, bracedPattern, bracedAt?, ways_char_seq, decide_eq_true_eq]
    by_cases hb : c = '\x7b'
    · rw [if_pos hb, if_pos hb, List.head?_map, head?_ways_word, Option.map_map, List.map_findSome?]
      congr 1
      funext name
      rw [Function.comp_apply]
      cases spelled? name.toList rest <;> rfl
    · rw [if_neg hb, if_neg hb]
      rfl

/-! ## 3. The search -/

/-- A list of hits with one more, unless there is one at its offset. -/
def gather (found : List (Nat × Hit)) (e : Nat × Hit) : List (Nat × Hit) :=
  if found.any fun d => d.1 = e.1 then found else found ++ [e]

/-- **The search**: one pattern after the other, no offset twice, in the order of offsets. -/
def searched (markup : String) : List Finding :=
  let all := [quotedPattern, bracedPattern].flatMap fun p => hits p.hitAt? 0 markup.toList
  ((all.foldl gather []).mergeSort fun a b => a.1 ≤ b.1).map finding

/-- Where all offsets are different, nothing is left out. -/
theorem foldl_gather {found es : List (Nat × Hit)}
    (h : (found ++ es).Pairwise fun a b => a.1 ≠ b.1) : es.foldl gather found = found ++ es := by
  induction es generalizing found with
  | nil => exact (List.append_nil _).symm
  | cons e es ih =>
    have hnew : (found.any fun d => d.1 = e.1) = false := by
      rw [List.any_eq_false]
      intro d hd he
      exact (List.pairwise_append.mp h).2.2 d hd e List.mem_cons_self (of_decide_eq_true he)
    rw [List.append_cons] at h
    rw [List.foldl_cons, gather, if_neg (Bool.eq_false_iff.mp hnew), ih h, ← List.append_cons]

/-- A quote is no brace. -/
theorem bracedAt?_of_quotedAt? {cs : List Char} {h : Hit} (hh : quotedAt? cs = some h) :
    bracedAt? cs = none := by
  obtain ⟨q, q', tail, after, htaken, rfl, hq, -⟩ := quotedAt?_eq_some hh
  have hne : q ≠ '\x7b' := by
    rintro rfl
    cases hq
  rw [htaken, List.cons_append, bracedAt?, if_neg hne]

section Offsets

variable (markup : String)

/-- The two patterns have no hits at one offset. -/
theorem pairwise_hits_append :
    (hits quotedAt? 0 markup.toList ++ hits bracedAt? 0 markup.toList).Pairwise
      fun a b => a.1 ≠ b.1 := by
  rw [List.pairwise_append]
  refine ⟨(pairwise_hits reach_quoted _ _).imp Nat.ne_of_lt,
    (pairwise_hits reach_braced _ _).imp Nat.ne_of_lt, fun a ha b hb he => ?_⟩
  obtain ⟨before, rest, hs, hpos, hfound⟩ := exists_of_mem_hits reach_quoted _ _ a ha
  obtain ⟨before', rest', hs', hpos', hfound'⟩ := exists_of_mem_hits reach_braced _ _ b hb
  obtain rfl : before = before' := eq_of_width_eq (hs.symm.trans hs') (by omega)
  obtain rfl : rest = rest' := List.append_cancel_left (hs.symm.trans hs')
  rw [bracedAt?_of_quotedAt? hfound] at hfound'
  cases hfound'

variable {markup}

/-- What is in the order of offsets, with no offset twice, is strictly so. -/
theorem pairwise_lt_of_perm {l found : List (Nat × Hit)} (hp : l.Perm found)
    (hd : found.Pairwise fun a b => a.1 ≠ b.1)
    (hs : l.Pairwise fun a b => decide (a.1 ≤ b.1) = true) : l.Pairwise fun a b => a.1 < b.1 := by
  have hne := hp.symm.pairwise hd Ne.symm
  refine (hs.and hne).imp fun h => ?_
  exact Nat.lt_of_le_of_ne (of_decide_eq_true h.1) h.2

theorem le_trans_offset (a b c : Nat × Hit) (hab : decide (a.1 ≤ b.1) = true)
    (hbc : decide (b.1 ≤ c.1) = true) : decide (a.1 ≤ c.1) = true :=
  decide_eq_true (Nat.le_trans (of_decide_eq_true hab) (of_decide_eq_true hbc))

theorem le_total_offset (a b : Nat × Hit) : (decide (a.1 ≤ b.1) || decide (b.1 ≤ a.1)) = true := by
  rw [Bool.or_eq_true, decide_eq_true_eq, decide_eq_true_eq]
  exact Nat.le_total _ _

variable (markup)

/-- **The merged hits are in the order of their offsets**, no offset twice. -/
theorem pairwise_merge_hits :
    ((hits quotedAt? 0 markup.toList).merge (hits bracedAt? 0 markup.toList)
      fun a b => a.1 ≤ b.1).Pairwise fun a b => a.1 < b.1 := by
  have hle {l : List (Nat × Hit)} (h : l.Pairwise fun a b => a.1 < b.1) :
      l.Pairwise fun a b => decide (a.1 ≤ b.1) = true :=
    h.imp fun h => decide_eq_true (Nat.le_of_lt h)
  exact pairwise_lt_of_perm (List.merge_perm_append _) (pairwise_hits_append markup)
    (List.pairwise_merge le_trans_offset le_total_offset _ _
      (hle (pairwise_hits reach_quoted _ _)) (hle (pairwise_hits reach_braced _ _)))

/-- **The scan is the search for the two patterns.** -/
theorem scan_eq_searched : scan markup = searched markup := by
  have hpatterns : ([quotedPattern, bracedPattern].flatMap fun p => hits p.hitAt? 0 markup.toList) =
      hits quotedAt? 0 markup.toList ++ hits bracedAt? 0 markup.toList := by
    rw [List.flatMap_cons, List.flatMap_cons, List.flatMap_nil, List.append_nil,
      funext hitAt?_quotedPattern, funext hitAt?_bracedPattern]
  have hall : (hits quotedAt? 0 markup.toList ++ hits bracedAt? 0 markup.toList).foldl gather [] =
      hits quotedAt? 0 markup.toList ++ hits bracedAt? 0 markup.toList :=
    foldl_gather (pairwise_hits_append markup)
  unfold scan searched
  dsimp only
  rw [hpatterns, hall]
  congr 1
  -- both lists have the same hits in strict order
  refine List.Perm.eq_of_pairwise (fun a b _ _ hab hba => ?_) (pairwise_merge_hits markup)
    (pairwise_lt_of_perm (List.mergeSort_perm _ _) (pairwise_hits_append markup)
      (List.pairwise_mergeSort le_trans_offset le_total_offset _))
    ((List.merge_perm_append _).trans (List.mergeSort_perm _ _).symm)
  omega

end Offsets

/-! ## 4. The verdict -/

/-- What is matched at the front of a text: the name between two quotes, or the first name of the
    list that is spelled after a brace. -/
inductive Matched : List Char → List Char → Prop
  | quoted {q q' : Char} {name : String} {shown after : List Char} (hq : isQuote q = true)
      (hq' : isQuote q' = true) (hn : name ∈ names) (hs : Spells name.toList shown)
      (hclose : '>' ∈ line after) : Matched (q :: (shown ++ q' :: after)) shown
  | braced {front back : List String} {name : String} {shown after : List Char}
      (hn : names = front ++ name :: back) (hs : Spells name.toList shown)
      (hfirst : ∀ n ∈ front, ∀ other, other <+: shown ++ after → ¬ Spells n.toList other) :
      Matched ('\x7b' :: (shown ++ after)) shown

theorem matched_of_quotedAt? {cs : List Char} {h : Hit} (hh : quotedAt? cs = some h) :
    Matched cs h.shown := by
  obtain ⟨q, q', tail, after, htaken, rfl, hq, hq', ⟨name, hn, hs⟩, hline, hclose, -⟩ :=
    quotedAt?_eq_some hh
  have hsplit : h.taken ++ after = q :: (h.shown ++ q' :: (tail ++ after)) := by
    rw [htaken, List.cons_append, List.append_assoc, List.cons_append]
  rw [hsplit]
  refine .quoted hq hq' hn hs ?_
  rw [line_append hline]
  exact List.mem_append_left _ hclose

theorem matched_of_bracedAt? {cs : List Char} {h : Hit} (hh : bracedAt? cs = some h) :
    Matched cs h.shown := by
  obtain ⟨front, name, back, after, htaken, rfl, hnames, hspell, hfront⟩ := bracedAt?_eq_some hh
  rw [htaken]
  refine .braced hnames hspell fun n hn other hother hs => ?_
  obtain ⟨rest, hrest⟩ := hother
  have hsome := (spelled?_eq_some _ _ _ _).mpr ⟨hrest.symm, hs⟩
  rw [hfront n hn] at hsome
  cases hsome

/-- **The verdict of the scan.** Nothing is found exactly in a text without a dangerous name between
    quotes, with a `>` further on in its line, or after a brace. What is found comes in the strict
    order of offsets, stands at such places and names the text that is matched there; and it is what
    the search for the two patterns gives. -/
theorem scan_verdict (markup : String) :
    (scan markup = [] ↔ ∀ rest, rest <:+ markup.toList → ¬ Quoted rest ∧ ¬ Braced rest) ∧
    (scan markup).Pairwise (fun f g =>
      ∃ a b, f.place = .offset a ∧ g.place = .offset b ∧ a < b) ∧
    (∀ f ∈ scan markup, ∃ before rest shown, markup.toList = before ++ rest ∧ Matched rest shown ∧
      f.place = .offset (width before) ∧
      f.message = "'" ++ String.ofList shown ++ "' is not allowed in a dialplan") ∧
    scan markup = searched markup := by
  refine ⟨scan_eq_nil markup, ?_, fun f hf => ?_, scan_eq_searched markup⟩
  · unfold scan
    rw [List.pairwise_map]
    exact (pairwise_merge_hits markup).imp fun {a b} hlt => ⟨a.1, b.1, rfl, rfl, hlt⟩
  · obtain ⟨e, he, rfl⟩ := mem_scan.mp hf
    have hfound : ∃ before rest, markup.toList = before ++ rest ∧ e.1 = width before ∧
        Matched rest e.2.shown := by
      rcases he with he | he
      · obtain ⟨before, rest, hs, hpos, hh⟩ := exists_of_mem_hits reach_quoted _ _ e he
        exact ⟨before, rest, hs, by omega, matched_of_quotedAt? hh⟩
      · obtain ⟨before, rest, hs, hpos, hh⟩ := exists_of_mem_hits reach_braced _ _ e he
        exact ⟨before, rest, hs, by omega, matched_of_bracedAt? hh⟩
    obtain ⟨before, rest, hs, hpos, hmatched⟩ := hfound
    exact ⟨before, rest, e.2.shown, hs, hmatched, place_finding_eq_iff.mpr hpos, rfl⟩

end Dialplan.Hazard
