import Dialplan.Proofs.Layout
import Mathlib
/-!
# A value and a key as tokens

What is written as a value is cut out of any text as one token, and what may be a key is cut out of
its own text as one token. So an editor that checks its keys and escapes its values writes nothing
that the scanner divides in another way.

* `scan_inQuotes`: a value in quotes in front of a text is its first token, and the tokens of the
  text stand behind it;
* `escaped_read_back`: **an escaped value is one token, and is read as the value**;
* `Name.Spelled`: what a name is, in the characters of an alphabet;
* `isValidKey_iff_scan`: **a text may be a key exactly if it is one token, a name**.
-/

namespace Dialplan

open Dialplan.Text

/-! ## 1. A value in front of a text -/

namespace Markup

/-- A value as it is written, escaped and between double quotes. -/
def inQuotes (v : String) : String := "\"" ++ escape v ++ "\""

theorem toList_inQuotes (v : String) :
    (inQuotes v).toList = '"' :: (escapeChars v.toList ++ ['"']) := by
  unfold inQuotes escape
  simp only [String.toList_append, String.toList_ofList]
  rfl

/-- **A value in quotes is the first token** of a text that begins with it; the others are those of
    the text behind it, moved by its length. -/
theorem scan_inQuotes (v : String) {t : String} {lts : List (Located Token)}
    (h : scan t = .ok lts) : scan (inQuotes v ++ t) =
      .ok (⟨.value (escape v), 0, (inQuotes v).utf8ByteSize⟩ ::
        lts.map (moved (inQuotes v).utf8ByteSize)) := by
  have hnext : next (inQuotes v ++ t).toList =
      .token (.value (escape v)) (inQuotes v).toList t.toList := by
    rw [String.toList_append, toList_inQuotes, List.cons_append, List.append_assoc]
    exact next_value (quote_not_mem_escapeChars _) t.toList
  have hrest := scanFrom_moved (width (inQuotes v).toList) h
  unfold scan
  rw [scanFrom_token hnext hrest, Nat.zero_add, width_toList]

/-- **An escaped value is one token, and is read as the value**: its references are resolved to the
    value wherever it stands, and in quotes in front of any text that divides into tokens it is the
    first of them, and the others are only moved. -/
theorem escaped_read_back (v : String) (pos : Nat) {t : String} {lts : List (Located Token)}
    (h : scan t = .ok lts) :
    decode (escape v) pos = .ok v ∧ scan (inQuotes v ++ t) =
      .ok (⟨.value (escape v), 0, (inQuotes v).utf8ByteSize⟩ ::
        lts.map (moved (inQuotes v).utf8ByteSize)) :=
  ⟨decode_escape v pos, scan_inQuotes v h⟩

/-- A value with a quote, a reference, a comment and a line end in it, in front of a tag. -/
theorem escaped_read_back_hard :
    scan " />" = .ok [⟨.selfClose, 1, 3⟩] ∧
    decode (escape "\"&amp;<!--é\n-->'") 5 = .ok "\"&amp;<!--é\n-->'" ∧
    scan (inQuotes "\"&amp;<!--é\n-->'" ++ " />") =
      .ok [⟨.value (escape "\"&amp;<!--é\n-->'"), 0, 34⟩, ⟨.selfClose, 35, 37⟩] := by
  have h : scan " />" = .ok [⟨.selfClose, 1, 3⟩] := by cbv
  obtain ⟨hdecode, hscan⟩ := escaped_read_back "\"&amp;<!--é\n-->'" 5 h
  refine ⟨h, hdecode, hscan.trans ?_⟩
  cbv

end Markup

/-! ## 2. A key by itself -/

namespace Name

/-- The characters `A-Za-z_`, with which a name begins. -/
def Begins (c : Char) : Prop := ('A' ≤ c ∧ c ≤ 'Z') ∨ ('a' ≤ c ∧ c ≤ 'z') ∨ c = '_'

/-- The characters `A-Za-z0-9_.:-`, with which a name goes on. -/
def GoesOn (c : Char) : Prop := Begins c ∨ ('0' ≤ c ∧ c ≤ '9') ∨ c = '.' ∨ c = ':' ∨ c = '-'

/-- **What a name is**: one character that begins it and any that go on. -/
def Spelled (cs : List Char) : Prop := ∃ c rest, cs = c :: rest ∧ Begins c ∧ ∀ d ∈ rest, GoesOn d

theorem isHead_iff (c : Char) : isHead c = true ↔ Begins c := by
  unfold isHead Begins Char.isAlpha Char.isUpper Char.isLower
  simp only [Bool.or_eq_true, Bool.and_eq_true, decide_eq_true_eq, Char.le_def, or_assoc, ge_iff_le]

theorem isTail_iff (c : Char) : isTail c = true ↔ GoesOn c := by
  unfold GoesOn
  rw [← isHead_iff]
  unfold isTail isHead Char.isAlphanum Char.isDigit
  simp only [Bool.or_eq_true, Bool.and_eq_true, decide_eq_true_eq, Char.le_def, ge_iff_le]
  tauto

theorem isName_iff (cs : List Char) : isName cs = true ↔ Spelled cs := by
  unfold Spelled
  cases cs with
  | nil => simp [isName]
  | cons c rest => simp [isName, isHead_iff, isTail_iff]

end Name

namespace Markup

/-- A name alone in its text is one token. -/
theorem scan_name {k : String} (h : Attributes.isValidKey k = true) :
    scan k = .ok [⟨.name k, 0, k.utf8ByteSize⟩] := by
  unfold Attributes.isValidKey at h
  cases hk : k.toList with
  | nil =>
    rw [hk] at h
    cases h
  | cons c rest =>
    rw [hk, Name.isName, Bool.and_eq_true] at h
    obtain ⟨hhead, htail⟩ := h
    have hall : ∀ d ∈ rest, Name.isTail d = true := List.all_eq_true.mp htail
    have hnext : next k.toList = .token (.name k) k.toList [] := by
      have hlist := next_head hhead rest
      rw [List.takeWhile_eq_self_iff.mpr hall, List.dropWhile_eq_nil_iff.mpr hall, ← hk,
        String.ofList_toList] at hlist
      exact hlist
    unfold scan
    rw [scanFrom_token hnext (scanFrom_nil _), Nat.zero_add, width_toList]

end Markup

namespace Attributes

/-- **A text may be a key exactly if it is one token, a name**, from its first byte to its last; and
    that is so exactly if it is spelled as names are. -/
theorem isValidKey_iff_scan (k : String) :
    (isValidKey k = true ↔ Markup.scan k = .ok [⟨.name k, 0, k.utf8ByteSize⟩]) ∧
      (isValidKey k = true ↔ Name.Spelled k.toList) := by
  refine ⟨⟨Markup.scan_name, fun h => ?_⟩, Name.isName_iff k.toList⟩
  exact Markup.isValidKey_of_scanFrom h (List.mem_singleton_self _) rfl

/-- A blank in front leaves one name, which does not span the text. -/
example : Markup.scan " a" = .ok [⟨.name "a", 1, 2⟩] ∧ isValidKey " a" = false := by
  constructor <;> cbv

end Attributes

end Dialplan
