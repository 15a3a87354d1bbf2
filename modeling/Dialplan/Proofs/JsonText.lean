import Dialplan.Json.Reader
import Dialplan.Json.Writer
import Mathlib.Data.List.Basic
import Mathlib.Data.List.TakeWhile
/-!
# JSON written and read again

What is written as JSON, one item a line, reads as the value that was written.

* `natural?_toDigits`: the digits of a number are read as the number;
* `string?_quoted`: what stands between the quotes of a text is read as the text;
* `Scans`: a text divides into lexemes, with one lemma for each sort of lexeme; `tokens`: the
  lexemes of a value; `scans_prettyAt`: its written form divides into them;
* `foldlM_tokens`: the lexemes of a value lead from "a value must follow" to the value;
* `read?_pretty`: the two together.

Numbers with a fraction or an exponent are kept as they were written, so they are left out here
(`whole`); and no more than `maxDepth` containers may be open at once (`depth`).
-/

namespace Dialplan

/-! ## 1. Digits -/

namespace Text

theorem digit?_of_isDigit {c : Char} (h : c.isDigit = true) :
    digit? c = some (c.toNat - '0'.toNat) ∧ c.toNat - '0'.toNat < 10 := by
  have hc : 48 ≤ c.toNat ∧ c.toNat ≤ 57 := by
    simpa [Char.isDigit, UInt32.le_iff_toNat_le] using h
  have hle : '0' ≤ c ∧ c ≤ '9' := by
    simpa [Char.le_def, UInt32.le_iff_toNat_le] using hc
  refine ⟨?_, ?_⟩
  · unfold digit?
    rw [if_pos hle]
  · show c.toNat - 48 < 10
    omega

theorem readDigits?_of_isDigit : ∀ {cs : List Char} (n : Nat), (∀ c ∈ cs, c.isDigit = true) →
    readDigits? 10 n cs = some (Nat.ofDigitChars 10 cs n)
  | [], _, _ => rfl
  | c :: rest, n, h => by
      obtain ⟨hd, hlt⟩ := digit?_of_isDigit (h c List.mem_cons_self)
      have ih := readDigits?_of_isDigit (n * 10 + (c.toNat - '0'.toNat))
        fun d hd => h d (List.mem_cons_of_mem c hd)
      unfold readDigits?
      simp only [hd, hlt, if_true, ih]
      rw [Nat.mul_comm n 10]
      rfl

theorem isDigit_toDigits {n : Nat} {c : Char} (h : c ∈ Nat.toDigits 10 n) : c.isDigit = true :=
  Nat.isDigit_of_mem_toDigits (by decide) (by decide) h

/-- **The digits of a number are read as the number.** -/
theorem natural?_toDigits (n : Nat) : natural? 10 (Nat.toDigits 10 n) = some n := by
  have hdigits : ∀ c ∈ Nat.toDigits 10 n, c.isDigit = true := fun _ hc => isDigit_toDigits hc
  have hne : (Nat.toDigits 10 n).isEmpty = false := by
    simp [Nat.toDigits_ne_nil]
  unfold natural?
  rw [hne, readDigits?_of_isDigit 0 hdigits, Nat.ofDigitChars_toDigits (by decide) (by decide)]
  rfl

/-- Only zero begins with the digit zero. -/
theorem eq_zero_of_head?_toDigits (n : Nat) (h : (Nat.toDigits 10 n).head? = some '0') : n = 0 := by
  induction n using Nat.strongRecOn with
  | _ n ih =>
    have hone : ∀ m < 10, Nat.digitChar m = '0' → m = 0 := by decide
    rw [Nat.toDigits_eq_if (by decide)] at h
    by_cases hn : n < 10
    · rw [if_pos hn] at h
      exact hone n hn (Option.some.inj h)
    · rw [if_neg hn, List.head?_append_of_ne_nil _ Nat.toDigits_ne_nil] at h
      have hz := ih (n / 10) (by omega) h
      omega

end Text

namespace Json

open Text

/-! ## 2. Texts between quotes -/

namespace Token

/-- The escape of a control character by its number. -/
theorem string?_control {n : Nat} (hn : n < 0x20) (rest : List Char) :
    string? ('\\' :: 'u' :: '0' :: '0' :: hexDigit (n / 16) :: hexDigit (n % 16) :: rest) =
      (string? rest).map fun p => (Char.ofNat n :: p.1, p.2) := by
  have hhex : ∀ n < 0x20, hex4? '0' '0' (hexDigit (n / 16)) (hexDigit (n % 16)) = some n := by
    decide
  have hlow : ¬ (0xDC00 ≤ n ∧ n ≤ 0xDFFF) := by omega
  have hhigh : ¬ (0xD800 ≤ n ∧ n ≤ 0xDBFF) := by omega
  rw [string?.eq_3, hhex n hn]
  simp only [if_neg hlow, if_neg hhigh]

/-- The escape of a character by one letter. -/
theorem string?_short {e c : Char} (he : shortEscape? e = some c) (rest : List Char) :
    string? ('\\' :: e :: rest) = (string? rest).map fun p => (c :: p.1, p.2) := by
  have hu : e ≠ 'u' := by
    rintro rfl
    have hnone : shortEscape? 'u' = none := by decide
    rw [hnone] at he
    cases he
  rw [string?.eq_4 e rest fun _ _ _ _ _ h => absurd h hu]
  simp only [he]

/-- A character that needs no escape. -/
theorem string?_plain {c : Char} (hq : c ≠ '"') (hb : c ≠ '\\') (hc : ¬ c.toNat < 0x20)
    (rest : List Char) :
    string? (c :: rest) = (string? rest).map fun p => (c :: p.1, p.2) := by
  rw [string?.eq_5 c rest hq (fun _ _ _ _ _ h => absurd h hb) (fun _ _ h => absurd h hb),
    if_neg (not_or.mpr ⟨hb, hc⟩)]

/-- **A character as it is written in a text is read as the character.** -/
theorem string?_escapeChar (c : Char) (rest : List Char) :
    string? ((escapeChar c).toList ++ rest) =
      (string? rest).map fun p => (c :: p.1, p.2) := by
  unfold escapeChar
  -- seven characters have a letter of their own
  iterate 7
    split
    · exact string?_short (by subst_vars; decide) rest
  split
  · rename_i hc
    have hcontrol := string?_control hc rest
    rw [Char.ofNat_toNat] at hcontrol
    simp only [String.toList_append, String.toList_singleton]
    exact hcontrol
  · rename_i hq hb _ _ _ _ _ hc
    rw [String.toList_singleton]
    exact string?_plain hq hb hc rest

/-- **What stands between the quotes of a text is read as the text.** -/
theorem string?_quoted (rest : List Char) : ∀ cs : List Char,
    string? (cs.flatMap (fun c => (escapeChar c).toList) ++ '"' :: rest) = some (cs, rest)
  | [] => rfl
  | c :: cs => by
      rw [List.flatMap_cons, List.append_assoc, string?_escapeChar, string?_quoted rest cs]
      rfl

/-! ## 3. Lexemes -/

/-- **The text divides into these lexemes.** -/
def Scans (cs : List Char) (ts : List Token) : Prop := scan cs = some ts

/-- The text does not go on with a character of a numeral. -/
def Ends (cs : List Char) : Prop := ∀ c ∈ cs.head?, isNumeralChar c = false

variable {rest : List Char} {ts : List Token}

theorem scans_nil : Scans [] [] := by
  unfold Scans
  rw [scan]

theorem scans_bool (b : Bool) (h : Scans rest ts) :
    Scans ((if b then "true" else "false").toList ++ rest) (.bool b :: ts) := by
  unfold Scans at h ⊢
  cases b with
  | true =>
    show scan ('t' :: 'r' :: 'u' :: 'e' :: rest) = _
    rw [scan, h]
    rfl
  | false =>
    show scan ('f' :: 'a' :: 'l' :: 's' :: 'e' :: rest) = _
    rw [scan, h]
    rfl

theorem scans_null (h : Scans rest ts) : Scans ("null".toList ++ rest) (.null :: ts) := by
  unfold Scans at h ⊢
  show scan ('n' :: 'u' :: 'l' :: 'l' :: rest) = _
  rw [scan, h]
  rfl

theorem scans_quote (s : String) (h : Scans rest ts) :
    Scans ((quote s).toList ++ rest) (.str s :: ts) := by
  have htext : (quote s).toList ++ rest =
      '"' :: (s.toList.flatMap (fun c => (escapeChar c).toList) ++ '"' :: rest) := by
    unfold quote
    simp only [String.toList_append, String.toList_join, List.flatMap_map, List.append_assoc]
    rfl
  unfold Scans at h ⊢
  rw [htext, scan, string?_quoted]
  simp only [h, String.ofList_toList]
  rfl

/-- A character that begins neither a word nor a text. -/
theorem scan_cons {c : Char} (hc : c ∉ ['t', 'f', 'n', '"']) (rest : List Char) :
    scan (c :: rest) =
      if isSpace c then scan rest
      else match mark? c with
        | some m => (scan rest).map (m :: ·)
        | none =>
          if isNumeralChar c then
            match numeral? (c :: rest.takeWhile isNumeralChar) with
            | none => none
            | some n => (scan (rest.dropWhile isNumeralChar)).map (n :: ·)
          else none := by
  simp only [List.mem_cons, List.not_mem_nil, or_false, not_or] at hc
  exact scan.eq_6 c rest (fun _ h _ => absurd h hc.1) (fun _ h _ => absurd h hc.2.1)
    (fun _ h _ => absurd h hc.2.2.1) hc.2.2.2

theorem scans_space {c : Char} (hc : isSpace c = true) (h : Scans rest ts) :
    Scans (c :: rest) ts := by
  have hc' : c ∉ ['t', 'f', 'n', '"'] := by
    intro hm
    simp only [List.mem_cons, List.not_mem_nil, or_false] at hm
    rcases hm with rfl | rfl | rfl | rfl <;> cases hc
  unfold Scans at h ⊢
  rw [scan_cons hc', if_pos hc, h]

theorem scans_spaces {cs : List Char} (hc : ∀ c ∈ cs, isSpace c = true) (h : Scans rest ts) :
    Scans (cs ++ rest) ts := by
  induction cs with
  | nil => exact h
  | cons c cs ih =>
    exact scans_space (hc c List.mem_cons_self) (ih fun d hd => hc d (List.mem_cons_of_mem c hd))

theorem scans_mark {c : Char} {m : Token} (hm : mark? c = some m) (h : Scans rest ts) :
    Scans (c :: rest) (m :: ts) := by
  have hc : c ∉ ['t', 'f', 'n', '"'] ∧ isSpace c = false := by
    unfold mark? at hm
    split at hm <;> first | cases hm; done | decide
  unfold Scans at h ⊢
  rw [scan_cons hc.1, hc.2, hm, h]
  rfl

/-- A character of a numeral begins no other lexeme. -/
theorem other_of_isNumeralChar {c : Char} (h : isNumeralChar c = true) :
    c ∉ ['t', 'f', 'n', '"'] ∧ isSpace c = false ∧ mark? c = none := by
  refine ⟨fun hm => ?_, Bool.eq_false_iff.mpr fun hs => ?_, ?_⟩
  · simp only [List.mem_cons, List.not_mem_nil, or_false] at hm
    rcases hm with rfl | rfl | rfl | rfl <;> cases h
  · simp only [isSpace, Bool.or_eq_true, decide_eq_true_eq] at hs
    rcases hs with ((rfl | rfl) | rfl) | rfl <;> cases h
  · unfold mark?
    split <;> first | rfl | cases h

/-- A numeral by itself, where the text does not go on with one. -/
theorem scans_numeral {c : Char} {cs : List Char} {n : Token}
    (hc : ∀ d ∈ c :: cs, isNumeralChar d = true) (hn : numeral? (c :: cs) = some n)
    (hr : Ends rest) (h : Scans rest ts) : Scans (c :: cs ++ rest) (n :: ts) := by
  have hfirst : isNumeralChar c = true := hc c List.mem_cons_self
  obtain ⟨hword, hspace, hmark⟩ := other_of_isNumeralChar hfirst
  have htail : ∀ d ∈ cs, isNumeralChar d = true := fun d hd => hc d (List.mem_cons_of_mem c hd)
  have htake : (cs ++ rest).takeWhile isNumeralChar = cs := by
    rw [List.takeWhile_append_of_pos htail]
    cases rest with
    | nil => simp
    | cons d rest => simp [hr d rfl]
  have hdrop : (cs ++ rest).dropWhile isNumeralChar = rest := by
    rw [List.dropWhile_append_of_pos htail]
    cases rest with
    | nil => rfl
    | cons d rest => simp [hr d rfl]
  unfold Scans at h ⊢
  rw [List.cons_append, scan_cons hword, hspace, hmark, hfirst, htake, hdrop, hn, h]
  rfl

/-- A number is written without leading zeros. -/
theorem no_leading_zero (n : Nat) :
    ((Nat.toDigits 10 n).head? = some '0' && (Nat.toDigits 10 n).length > 1) = false := by
  rw [Bool.and_eq_false_imp]
  intro h
  have hzero : n = 0 := eq_zero_of_head?_toDigits n (of_decide_eq_true h)
  rw [hzero]
  decide

/-- **The digits of a number are its numeral**, with a sign before them or without. -/
theorem numeral?_toDigits (negative : Bool) {n : Nat} (hn : negative = true → n ≠ 0) :
    numeral? ((if negative then ['-'] else []) ++ Nat.toDigits 10 n) =
      some (.int (if negative then -n else n)) := by
  have htake : (Nat.toDigits 10 n).takeWhile Char.isDigit = Nat.toDigits 10 n :=
    List.takeWhile_eq_self_iff.mpr fun c hc => isDigit_toDigits hc
  have hdrop : (Nat.toDigits 10 n).dropWhile Char.isDigit = [] :=
    List.dropWhile_eq_nil_iff.mpr fun c hc => isDigit_toDigits hc
  have hne : (Nat.toDigits 10 n).isEmpty = false := by
    simp [Nat.toDigits_ne_nil]
  unfold numeral?
  cases negative with
  | true =>
    have hn := hn rfl
    simp [htake, hdrop, hne, no_leading_zero, afterWhole?, natural?_toDigits, hn]
  | false =>
    have hsign : ((Nat.toDigits 10 n).head? = some '-') = False := by
      rw [eq_iff_iff, iff_false]
      intro h
      have hd := isDigit_toDigits (List.mem_of_mem_head? h)
      cases hd
    simp [hsign, htake, hdrop, hne, no_leading_zero, afterWhole?, natural?_toDigits]

theorem scans_int (n : Int) (hr : Ends rest) (h : Scans rest ts) :
    Scans ((toString n).toList ++ rest) (.int n :: ts) := by
  have hchar : ∀ m, ∀ c ∈ Nat.toDigits 10 m, isNumeralChar c = true := by
    intro m c hc
    unfold isNumeralChar
    rw [isDigit_toDigits hc]
    rfl
  cases n with
  | ofNat m =>
    have htext : (toString (Int.ofNat m)).toList = Nat.toDigits 10 m := Nat.toList_repr
    have hn := numeral?_toDigits false (n := m) fun h => nomatch h
    rw [htext]
    cases hd : Nat.toDigits 10 m with
    | nil => exact absurd hd Nat.toDigits_ne_nil
    | cons c cs =>
      rw [hd] at hn
      exact scans_numeral (hd ▸ hchar m) hn hr h
  | negSucc m =>
    have htext : (toString (Int.negSucc m)).toList = '-' :: Nat.toDigits 10 (m + 1) := by
      show ("-" ++ Nat.repr (m + 1)).toList = _
      rw [String.toList_append, Nat.toList_repr]
      rfl
    have hn := numeral?_toDigits true (n := m + 1) fun _ => Nat.succ_ne_zero m
    rw [htext]
    refine scans_numeral (fun d hd => ?_) hn hr h
    rcases List.mem_cons.mp hd with rfl | hd
    · rfl
    · exact hchar _ d hd

end Token

/-! ## 4. The lexemes of a value -/

mutual

/-- The lexemes of a value. -/
def tokens : Json → List Token
  | .null => [.null]
  | .bool b => [.bool b]
  | .int n => [.int n]
  | .real d => [.real d]
  | .str s => [.str s]
  | .arr [] => [.openArray, .closeArray]
  | .arr (v :: rest) => .openArray :: (v.tokens ++ (itemTokens rest ++ [.closeArray]))
  | .obj [] => [.openObject, .closeObject]
  | .obj ((name, v) :: rest) =>
    .openObject :: .str name :: .colon :: (v.tokens ++ (memberTokens rest ++ [.closeObject]))

/-- The lexemes of items that follow another. -/
def itemTokens : List Json → List Token
  | [] => []
  | v :: rest => .comma :: (v.tokens ++ itemTokens rest)

/-- The lexemes of members that follow another. -/
def memberTokens : List (String × Json) → List Token
  | [] => []
  | (name, v) :: rest => .comma :: .str name :: .colon :: (v.tokens ++ memberTokens rest)

end

mutual

/-- Whether no number in a value has a fraction or an exponent. -/
def whole : Json → Bool
  | .null | .bool _ | .int _ | .str _ => true
  | .real _ => false
  | .arr items => wholeAll items
  | .obj members => wholeMembers members

/-- Whether no number in a list of values has a fraction or an exponent. -/
def wholeAll : List Json → Bool
  | [] => true
  | v :: rest => v.whole && wholeAll rest

/-- Whether no number in the values of members has a fraction or an exponent. -/
def wholeMembers : List (String × Json) → Bool
  | [] => true
  | (_, v) :: rest => v.whole && wholeMembers rest

end

mutual

/-- How many containers are open at once in a value. -/
def depth : Json → Nat
  | .null | .bool _ | .int _ | .real _ | .str _ => 0
  | .arr items => depthAll items + 1
  | .obj members => depthMembers members + 1

/-- How many containers are open at once in any value of a list. -/
def depthAll : List Json → Nat
  | [] => 0
  | v :: rest => max v.depth (depthAll rest)

/-- How many containers are open at once in the value of any member. -/
def depthMembers : List (String × Json) → Nat
  | [] => 0
  | (_, v) :: rest => max v.depth (depthMembers rest)

end

open Token

/-! ## 5. Written forms -/

variable {rest : List Char} {ts : List Token}

theorem isSpace_newline (level : Nat) : ∀ c ∈ (newline level).toList, isSpace c = true := by
  intro c hc
  unfold newline at hc
  rw [String.toList_append, String.toList_join, List.flatMap_replicate] at hc
  rcases List.mem_append.mp hc with hc | hc
  · rw [List.mem_singleton.mp hc]
    rfl
  · obtain ⟨l, hl, hc⟩ := List.mem_flatten.mp hc
    rw [List.eq_of_mem_replicate hl] at hc
    rcases List.mem_cons.mp hc with rfl | hc
    · rfl
    · rw [List.mem_singleton.mp hc]
      rfl

theorem scans_newline (level : Nat) (h : Scans rest ts) :
    Scans ((newline level).toList ++ rest) ts :=
  scans_spaces (isSpace_newline level) h

theorem ends_cons {c : Char} (h : isNumeralChar c = false) (rest : List Char) :
    Ends (c :: rest) := by
  intro d hd
  cases hd
  exact h

theorem ends_newline (level : Nat) (rest : List Char) : Ends ((newline level).toList ++ rest) := by
  unfold newline
  rw [String.toList_append, List.append_assoc]
  exact ends_cons rfl _

/-- Pieces with a comma before each but the first. -/
def listed (pieces : List String) : List Char := pieces.flatMap fun s => ',' :: s.toList

theorem listed_cons (s : String) (pieces : List String) :
    listed (s :: pieces) = ',' :: (s.toList ++ listed pieces) := rfl

theorem toList_intercalate_cons (first : String) (pieces : List String) :
    (",".intercalate (first :: pieces)).toList = first.toList ++ listed pieces := by
  rw [String.toList_intercalate, List.map_cons]
  induction pieces generalizing first with
  | nil => simp [listed]
  | cons s pieces ih =>
    rw [List.map_cons, List.intercalate_cons_cons, ih s, listed_cons, List.append_assoc]
    rfl

/-- After an item comes a comma, or what comes after them all. -/
theorem ends_more (pieces : List String) (hr : Ends rest) : Ends (listed pieces ++ rest) := by
  cases pieces with
  | nil => exact hr
  | cons s pieces => exact ends_cons rfl _

theorem toList_pretty_arr (level : Nat) (v : Json) (items : List Json) (rest : List Char) :
    ((Json.arr (v :: items)).prettyAt level).toList ++ rest =
      '[' :: ((newline (level + 1)).toList ++ ((v.prettyAt (level + 1)).toList ++
        (listed (prettyItems (level + 1) items) ++ ((newline level).toList ++ ']' :: rest)))) := by
  rw [prettyAt, prettyItems]
  simp only [List.isEmpty_cons, Bool.false_eq_true, if_false, String.toList_append,
    toList_intercalate_cons, List.append_assoc]
  rfl

theorem toList_pretty_obj (level : Nat) (name : String) (v : Json) (members : List (String × Json))
    (rest : List Char) :
    ((Json.obj ((name, v) :: members)).prettyAt level).toList ++ rest =
      '\x7b' :: ((newline (level + 1)).toList ++ ((quote name).toList ++ (':' :: ' ' ::
        ((v.prettyAt (level + 1)).toList ++ (listed (prettyMembers (level + 1) members) ++
          ((newline level).toList ++ '\x7d' :: rest)))))) := by
  rw [prettyAt, prettyMembers]
  simp only [List.isEmpty_cons, Bool.false_eq_true, if_false, String.toList_append,
    toList_intercalate_cons, List.append_assoc]
  rfl

mutual

/-- **The written form of a value divides into its lexemes.** -/
theorem scans_prettyAt {rest : List Char} {ts : List Token} : ∀ {v : Json} (level : Nat),
    v.whole = true → Ends rest → Scans rest ts →
      Scans ((v.prettyAt level).toList ++ rest) (v.tokens ++ ts)
  | .null, _, _, _, h => scans_null h
  | .bool b, _, _, _, h => scans_bool b h
  | .int n, _, _, hr, h => scans_int n hr h
  | .real _, _, hw, _, _ => by cases hw
  | .str s, _, _, _, h => scans_quote s h
  | .arr [], _, _, _, h => by
      have hclose : Scans (']' :: rest) (.closeArray :: ts) := scans_mark rfl h
      have hopen : Scans ('[' :: ']' :: rest) (.openArray :: .closeArray :: ts) :=
        scans_mark rfl hclose
      rw [prettyAt, tokens, if_pos List.isEmpty_nil]
      exact hopen
  | .arr (v :: items), level, hw, _, h => by
      obtain ⟨hv, hi⟩ := Bool.and_eq_true_iff.mp hw
      have hclose : Scans (']' :: rest) (.closeArray :: ts) := scans_mark rfl h
      have hitems := scans_items (level + 1) hi (ends_newline level _) (scans_newline level hclose)
      have hvalue := scans_prettyAt (level + 1) hv (ends_more _ (ends_newline level _)) hitems
      have hopen : Scans _ (.openArray :: (v.tokens ++ (itemTokens items ++ .closeArray :: ts))) :=
        scans_mark (c := '[') rfl (scans_newline (level + 1) hvalue)
      rw [toList_pretty_arr]
      unfold tokens
      simp only [List.cons_append, List.append_assoc, List.nil_append]
      exact hopen
  | .obj [], _, _, _, h => by
      have hclose : Scans ('\x7d' :: rest) (.closeObject :: ts) := scans_mark rfl h
      have hopen : Scans ('\x7b' :: '\x7d' :: rest) (.openObject :: .closeObject :: ts) :=
        scans_mark rfl hclose
      rw [prettyAt, tokens, if_pos List.isEmpty_nil]
      exact hopen
  | .obj ((name, v) :: members), level, hw, _, h => by
      obtain ⟨hv, hm⟩ := Bool.and_eq_true_iff.mp hw
      have hclose : Scans ('\x7d' :: rest) (.closeObject :: ts) := scans_mark rfl h
      have hmembers :=
        scans_members (level + 1) hm (ends_newline level _) (scans_newline level hclose)
      have hvalue := scans_prettyAt (level + 1) hv (ends_more _ (ends_newline level _)) hmembers
      have hcolon : Scans _ (.colon :: _) :=
        scans_mark (c := ':') rfl (scans_space (c := ' ') rfl hvalue)
      have hname := scans_newline (level + 1) (scans_quote name hcolon)
      have hopen : Scans _ (.openObject :: .str name :: .colon :: (v.tokens ++
          (memberTokens members ++ .closeObject :: ts))) := scans_mark (c := '\x7b') rfl hname
      rw [toList_pretty_obj]
      unfold tokens
      simp only [List.cons_append, List.append_assoc, List.nil_append]
      exact hopen

theorem scans_items {rest : List Char} {ts : List Token} : ∀ {items : List Json} (level : Nat),
    wholeAll items = true → Ends rest → Scans rest ts →
      Scans (listed (prettyItems level items) ++ rest) (itemTokens items ++ ts)
  | [], _, _, _, h => h
  | v :: items, level, hw, hr, h => by
      obtain ⟨hv, hi⟩ := Bool.and_eq_true_iff.mp hw
      have hitems := scans_items level hi hr h
      have hvalue := scans_prettyAt level hv (ends_more _ hr) hitems
      have hcomma : Scans _ (.comma :: (v.tokens ++ (itemTokens items ++ ts))) :=
        scans_mark (c := ',') rfl (scans_newline level hvalue)
      rw [prettyItems, listed_cons, itemTokens]
      simp only [String.toList_append, List.cons_append, List.append_assoc]
      exact hcomma

theorem scans_members {rest : List Char} {ts : List Token} :
    ∀ {members : List (String × Json)} (level : Nat),
      wholeMembers members = true → Ends rest → Scans rest ts →
        Scans (listed (prettyMembers level members) ++ rest) (memberTokens members ++ ts)
  | [], _, _, _, h => h
  | (name, v) :: members, level, hw, hr, h => by
      obtain ⟨hv, hm⟩ := Bool.and_eq_true_iff.mp hw
      have hmembers := scans_members level hm hr h
      have hvalue := scans_prettyAt level hv (ends_more _ hr) hmembers
      have hcolon : Scans _ (.colon :: _) :=
        scans_mark (c := ':') rfl (scans_space (c := ' ') rfl hvalue)
      have hcomma : Scans _ (.comma :: .str name :: .colon ::
          (v.tokens ++ (memberTokens members ++ ts))) :=
        scans_mark (c := ',') rfl (scans_newline level (scans_quote name hcolon))
      rw [prettyMembers, listed_cons, memberTokens]
      simp only [String.toList_append, List.cons_append, List.append_assoc]
      exact hcomma

end

/-! ## 6. Reading -/

variable (frames : List Frame)

/-- The lexemes of a first item are read as those of any value. -/
theorem foldlM_firstItem (v : Json) :
    v.tokens.foldlM step (.firstItem frames) =
      v.tokens.foldlM step (.value (.array [] :: frames)) := by
  -- none of the lexemes that a value begins with closes an array
  rcases v with _ | _ | _ | _ | _ | ⟨_ | ⟨v, items⟩⟩ | ⟨_ | ⟨⟨name, v⟩, members⟩⟩ <;>
    simp only [tokens, List.foldlM_cons] <;> rfl

theorem startValue_open (h : frames.length < maxDepth) :
    startValue frames .openArray = some (.firstItem frames) ∧
      startValue frames .openObject = some (.firstName frames) := by
  unfold startValue
  rw [if_pos h]
  exact ⟨rfl, if_pos h⟩

mutual

/-- **The lexemes of a value lead from "a value must follow" to the value.** -/
theorem foldlM_tokens : ∀ {v : Json} (frames : List Frame), v.depth + frames.length ≤ maxDepth →
    v.tokens.foldlM step (.value frames) = some (deliver v frames)
  | .null, _, _ => rfl
  | .bool b, _, _ => rfl
  | .int n, _, _ => rfl
  | .real d, _, _ => rfl
  | .str s, _, _ => rfl
  | .arr [], frames, h => by
      obtain ⟨ho, -⟩ := startValue_open frames (by simp only [depth, depthAll] at h; omega)
      rw [tokens, List.foldlM_cons]
      show startValue frames .openArray >>= _ = _
      rw [ho]
      rfl
  | .arr (v :: items), frames, h => by
      simp only [depth, depthAll] at h
      obtain ⟨ho, -⟩ := startValue_open frames (by omega)
      have hv := foldlM_tokens (v := v) (.array [] :: frames)
        (by simp only [List.length_cons]; omega)
      have hi := foldlM_itemTokens items [v] frames (by omega)
      rw [tokens, List.foldlM_cons]
      show startValue frames .openArray >>= _ = _
      rw [ho, Option.bind_eq_bind, Option.bind_some, List.foldlM_append, foldlM_firstItem, hv,
        Option.bind_eq_bind, Option.bind_some, List.foldlM_append]
      show (itemTokens items).foldlM step (.afterItem [v] frames) >>= _ = _
      rw [hi]
      show some (deliver (.arr (items.reverse ++ [v]).reverse) frames) = _
      rw [List.reverse_append, List.reverse_reverse]
      rfl
  | .obj [], frames, h => by
      obtain ⟨-, ho⟩ := startValue_open frames (by simp only [depth, depthMembers] at h; omega)
      rw [tokens, List.foldlM_cons]
      show startValue frames .openObject >>= _ = _
      rw [ho]
      rfl
  | .obj ((name, v) :: members), frames, h => by
      simp only [depth, depthMembers] at h
      obtain ⟨-, ho⟩ := startValue_open frames (by omega)
      have hv := foldlM_tokens (v := v) (.member name [] :: frames)
        (by simp only [List.length_cons]; omega)
      have hm := foldlM_memberTokens members [(name, v)] frames (by omega)
      rw [tokens, List.foldlM_cons]
      show startValue frames .openObject >>= _ = _
      rw [ho]
      show (v.tokens ++ (memberTokens members ++ [Token.closeObject])).foldlM step
        (.value (.member name [] :: frames)) = _
      rw [List.foldlM_append, hv, Option.bind_eq_bind, Option.bind_some, List.foldlM_append]
      show (memberTokens members).foldlM step (.afterMember [(name, v)] frames) >>= _ = _
      rw [hm]
      show some (deliver (.obj (members.reverse ++ [(name, v)]).reverse) frames) = _
      rw [List.reverse_append, List.reverse_reverse]
      rfl

theorem foldlM_itemTokens : ∀ (items done : List Json) (frames : List Frame),
    depthAll items + frames.length < maxDepth →
      (itemTokens items).foldlM step (.afterItem done frames) =
        some (.afterItem (items.reverse ++ done) frames)
  | [], _, _, _ => rfl
  | v :: items, done, frames, h => by
      simp only [depthAll] at h
      have hv := foldlM_tokens (v := v) (.array done :: frames)
        (by simp only [List.length_cons]; omega)
      have hi := foldlM_itemTokens items (v :: done) frames (by omega)
      rw [itemTokens]
      show (v.tokens ++ itemTokens items).foldlM step (.value (.array done :: frames)) = _
      rw [List.foldlM_append, hv, Option.bind_eq_bind, Option.bind_some, List.reverse_cons,
        List.append_assoc]
      exact hi

theorem foldlM_memberTokens : ∀ (members done : List (String × Json)) (frames : List Frame),
    depthMembers members + frames.length < maxDepth →
      (memberTokens members).foldlM step (.afterMember done frames) =
        some (.afterMember (members.reverse ++ done) frames)
  | [], _, _, _ => rfl
  | (name, v) :: members, done, frames, h => by
      simp only [depthMembers] at h
      have hv := foldlM_tokens (v := v) (.member name done :: frames)
        (by simp only [List.length_cons]; omega)
      have hm := foldlM_memberTokens members ((name, v) :: done) frames (by omega)
      rw [memberTokens]
      show (v.tokens ++ memberTokens members).foldlM step (.value (.member name done :: frames)) = _
      rw [List.foldlM_append, hv, Option.bind_eq_bind, Option.bind_some, List.reverse_cons,
        List.append_assoc]
      exact hm

end

/-- **What is written as JSON is read as the value that was written.** -/
theorem read?_pretty {v : Json} (hw : v.whole = true) (hd : v.depth ≤ maxDepth) :
    read? v.pretty = some v := by
  have hscan : Scans (v.pretty.toList ++ []) (v.tokens ++ []) :=
    scans_prettyAt 0 hw (fun _ h => nomatch h) scans_nil
  rw [List.append_nil, List.append_nil] at hscan
  have hfold : v.tokens.foldlM step (.value []) = some (.done v) := foldlM_tokens [] hd
  unfold read? ofTokens?
  rw [hscan, Option.bind_some, hfold]

end Json

end Dialplan
