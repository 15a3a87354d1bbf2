import Dialplan.Proofs.Lexemes
import Mathlib
/-!
# Nothing is lost between tokens

The scanner drops what stands between tokens, and no fault tells of it. What may be dropped is
written down here as three rules, and every token has its spellings. A text that divides into tokens
is made of nothing else: layout that follows the rules and spellings take turns, from its first byte
to its last.

* `blanks`, `comments`, `declarations`: the three rules, as sets of texts; `skipped`: any of them;
* `Token.spellings`: how a token can be written;
* `next_follows`: what the scanner takes follows a rule or is a spelling of its token;
* `Woven`: layout and spellings by turns, with the bytes that each spelling takes;
* `woven_of_scanFrom`: a text that divides into tokens is woven of them;
* `gaps`: the stretches that tokens leave free;
* `lossless_of_scan`: **a text is its tokens and layout**.
-/

namespace Dialplan.Markup

open Dialplan.Text
open scoped Computability

/-! ## 1. The rules of layout -/

/-- One character that passes. -/
def oneOf (passes : Char → Prop) : Language Char := {cs | ∃ c, passes c ∧ cs = [c]}

/-- White space: `[ \t\n\r]+`. -/
def blanks : Language Char :=
  let blank := oneOf fun c => c = ' ' ∨ c = '\t' ∨ c = '\n' ∨ c = '\r'
  blank * blank∗

/-- What a comment is made of: `[^-]|-[^-]`. -/
def commentItem : Language Char := oneOf (· ≠ '-') + {['-']} * oneOf (· ≠ '-')

/-- A comment: `<!--([^-]|-[^-])*-->`. -/
def comments : Language Char := {['<', '!', '-', '-']} * commentItem∗ * {['-', '-', '>']}

/-- What a declaration is made of: `[^?]|\?[^>]`. -/
def declarationItem : Language Char := oneOf (· ≠ '?') + {['?']} * oneOf (· ≠ '>')

/-- A declaration: `<\?([^?]|\?[^>])*\?>`. -/
def declarations : Language Char := {['<', '?']} * declarationItem∗ * {['?', '>']}

/-- A stretch that one of the rules skips. -/
def skipped : Language Char := blanks + comments + declarations

/-- One more piece in front of pieces. -/
theorem append_mem_kstar {l : Language Char} {front rest : List Char} (hf : front ∈ l)
    (hr : rest ∈ l∗) : front ++ rest ∈ l∗ :=
  (mul_kstar_le_kstar : l * l∗ ≤ l∗) (Language.append_mem_mul hf hr)

section

variable {c d : Char} {cs body after : List Char}

theorem one_mem_oneOf {passes : Char → Prop} (h : passes c) : [c] ∈ oneOf passes := ⟨c, h, rfl⟩

/-- A mark and a character behind it. -/
theorem pair_mem {passes : Char → Prop} (h : passes d) : [c, d] ∈ {[c]} * oneOf passes :=
  Language.append_mem_mul (Set.mem_singleton [c]) (one_mem_oneOf h)

/-- What stands between the marks of a comment follows its rule. -/
theorem body_mem_of_comment (h : comment cs = .closed body after) : body ∈ commentItem∗ := by
  fun_induction comment cs generalizing body after with
  | case1 =>
    cases h
    exact Language.nil_mem_kstar _
  | case3 c rest _ hc ih =>
    obtain ⟨b, hb, rfl⟩ := Stretch.cons_eq_closed.mp h
    exact append_mem_kstar (.inr (pair_mem hc)) (ih hb)
  | case5 c rest _ _ hc ih =>
    obtain ⟨b, hb, rfl⟩ := Stretch.cons_eq_closed.mp h
    exact append_mem_kstar (.inl (one_mem_oneOf hc)) (ih hb)
  | _ => simp at h

/-- What stands between the marks of a declaration follows its rule. -/
theorem body_mem_of_declaration (h : declaration cs = .closed body after) :
    body ∈ declarationItem∗ := by
  fun_induction declaration cs generalizing body after with
  | case1 =>
    cases h
    exact Language.nil_mem_kstar _
  | case2 c rest hc ih =>
    obtain ⟨b, hb, rfl⟩ := Stretch.cons_eq_closed.mp h
    exact append_mem_kstar (.inr (pair_mem hc)) (ih hb)
  | case4 c rest _ _ hc ih =>
    obtain ⟨b, hb, rfl⟩ := Stretch.cons_eq_closed.mp h
    exact append_mem_kstar (.inl (one_mem_oneOf hc)) (ih hb)
  | _ => simp at h

theorem blank_mem_skipped (h : isLayout c = true) : [c] ∈ skipped := by
  unfold isLayout at h
  simp only [Bool.or_eq_true, decide_eq_true_eq, or_assoc] at h
  refine .inl (.inl ?_)
  exact Language.append_mem_mul (one_mem_oneOf h) (Language.nil_mem_kstar _)

theorem comment_mem_skipped (h : body ∈ commentItem∗) :
    ['<', '!', '-', '-'] ++ body ++ ['-', '-', '>'] ∈ skipped :=
  .inl (.inr (Language.append_mem_mul (Language.append_mem_mul (Set.mem_singleton _) h)
    (Set.mem_singleton _)))

theorem declaration_mem_skipped (h : body ∈ declarationItem∗) :
    ['<', '?'] ++ body ++ ['?', '>'] ∈ skipped :=
  .inr (Language.append_mem_mul (Language.append_mem_mul (Set.mem_singleton _) h)
    (Set.mem_singleton _))

end

/-! ## 2. The spellings of a token -/

/-- **How a token is written.** A mark and a name are written as themselves; a value stands between
    two quotes of one sort, and this sort of quote is not in it. -/
def Token.spellings : Token → Language Char
  | .openEnd => {['<', '/']}
  | .openTag => {['<']}
  | .selfClose => {['/', '>']}
  | .close => {['>']}
  | .equals => {['=']}
  | .name n => {cs | cs = n.toList ∧ Name.Spelled cs}
  | .value v => {cs | ∃ q, (q = '"' ∨ q = '\'') ∧ q ∉ v.toList ∧ cs = q :: v.toList ++ [q]}

/-- Every spelling takes a byte. -/
theorem width_pos_of_spelling {t : Token} {piece : List Char} (h : piece ∈ t.spellings) :
    0 < width piece := by
  refine Nat.pos_of_ne_zero fun hw => ?_
  rw [eq_nil_of_width hw] at h
  cases t with
  | name n =>
    obtain ⟨-, c, more, hcons, -⟩ := h
    cases hcons
  | value v =>
    obtain ⟨q, -, -, hcons⟩ := h
    cases hcons
  | _ => cases h

/-- What a text begins with follows a rule of layout or is a spelling of its token. -/
def Next.Follows : Next → Prop
  | .layout taken _ => taken ∈ skipped
  | .token t taken _ => taken ∈ t.spellings
  | _ => True

theorem quoted_follows {q : Char} (hq : q = '"' ∨ q = '\'') (rest : List Char) :
    (quoted q rest).Follows := by
  unfold quoted
  split
  · rename_i body after hc
    obtain ⟨-, hbody⟩ := (cutAt_eq_some_iff _ _ _ _).mp hc
    refine ⟨q, hq, ?_, ?_⟩
    · rwa [String.toList_ofList]
    · rw [String.toList_ofList]
  · trivial

theorem name_follows {c : Char} (hc : Name.isHead c = true) (rest : List Char) :
    c :: rest.takeWhile Name.isTail ∈
      (Token.name (String.ofList (c :: rest.takeWhile Name.isTail))).spellings := by
  refine ⟨String.toList_ofList.symm, (Name.isName_iff _).mp ?_⟩
  rw [Name.isName, hc, Bool.true_and]
  exact List.all_takeWhile

/-- **Every step takes what a rule or a token allows.** -/
theorem next_follows (cs : List Char) : (next cs).Follows := by
  unfold next
  split
  case h_1 => trivial
  case h_2 rest =>
    cases hc : comment rest with
    | closed body after => exact comment_mem_skipped (body_mem_of_comment hc)
    | broken body => trivial
  case h_3 rest =>
    cases hc : declaration rest with
    | closed body after => exact declaration_mem_skipped (body_mem_of_declaration hc)
    | broken body => trivial
  case h_9 => exact quoted_follows (.inl rfl) _
  case h_10 => exact quoted_follows (.inr rfl) _
  case h_11 =>
    split
    · rename_i hblank
      exact blank_mem_skipped hblank
    · split
      · rename_i hhead
        exact name_follows hhead _
      · trivial
  -- the marks
  all_goals exact Set.mem_singleton _

/-! ## 3. Layout and spellings by turns -/

/-- **A text woven of its tokens**: layout and spellings take turns from byte `pos` on, and every
    token has the bytes that its spelling takes. -/
inductive Woven : Nat → List Char → List (Located Token) → Prop
  | ends {pos : Nat} {gap : List Char} (hgap : gap ∈ skipped∗) : Woven pos gap []
  | token {pos : Nat} {gap piece rest : List Char} {t : Token} {lts : List (Located Token)}
      (hgap : gap ∈ skipped∗) (hpiece : piece ∈ t.spellings)
      (hrest : Woven (pos + width gap + width piece) rest lts) :
      Woven pos (gap ++ (piece ++ rest))
        (⟨t, pos + width gap, pos + width gap + width piece⟩ :: lts)

section

variable {pos : Nat} {cs taken : List Char} {lts : List (Located Token)}

/-- More layout in front. -/
theorem Woven.behind (h : Woven (pos + width taken) cs lts) (ht : taken ∈ skipped) :
    Woven pos (taken ++ cs) lts := by
  generalize hpos : pos + width taken = start at h
  cases h with
  | ends hgap => exact .ends (append_mem_kstar ht hgap)
  | @token _ gap piece rest t lts hgap hpiece hrest =>
    have hstart : start + width gap = pos + width (taken ++ gap) := by
      rw [← hpos, width_append, Nat.add_assoc]
    rw [hstart] at hrest ⊢
    rw [← List.append_assoc]
    exact .token (append_mem_kstar ht hgap) hpiece hrest

/-- **A text that divides into tokens is woven of them.** -/
theorem woven_of_scanFrom (h : scanFrom pos cs = .ok lts) : Woven pos cs lts := by
  fun_induction scanFrom pos cs generalizing lts with
  | case1 pos cs hn =>
    cases h
    rw [eq_nil_of_next hn]
    exact .ends (Language.nil_mem_kstar _)
  | case2 => cases h
  | case3 pos cs taken rest hn ih =>
    have hs := next_splits cs
    have hf := next_follows cs
    rw [hn] at hs hf
    rw [hs.1]
    exact (ih h).behind hf
  | case4 => cases h
  | case5 pos cs t taken rest hn us hus ih =>
    cases h
    have hs := next_splits cs
    have hf := next_follows cs
    rw [hn] at hs hf
    rw [hs.1]
    exact .token (Language.nil_mem_kstar _) hf (ih hus)

/-- Every token takes bytes of the woven text, at least one. -/
theorem Woven.bounds (h : Woven pos cs lts) : ∀ lt ∈ lts,
    pos ≤ lt.start ∧ lt.start < lt.stop ∧ lt.stop ≤ pos + width cs := by
  induction h with
  | ends => exact fun _ h => absurd h List.not_mem_nil
  | token _ hpiece _ ih =>
    have hpos := width_pos_of_spelling hpiece
    intro lt hlt
    simp only [width_append]
    rcases List.mem_cons.mp hlt with rfl | hlt
    · dsimp only
      omega
    · have hbehind := ih lt hlt
      omega

/-- No token begins before the one in front of it ends. -/
theorem Woven.pairwise (h : Woven pos cs lts) :
    lts.Pairwise fun a b => a.start < b.start ∧ a.stop ≤ b.start := by
  induction h with
  | ends => exact .nil
  | token _ hpiece hrest ih =>
    have hpos := width_pos_of_spelling hpiece
    refine .cons (fun lt hlt => ?_) ih
    have hbehind := (hrest.bounds lt hlt).1
    dsimp only
    omega

end

/-! ## 4. Slices of the text -/

/-- Both offsets are boundaries of the text, and what stands between them is one of these texts. -/
def Slice (text : String) (start stop : Nat) (l : Language Char) : Prop :=
  ∃ piece, HasAt text start piece ∧ start + piece.utf8ByteSize = stop ∧ piece.toList ∈ l

/-- The stretches that tokens leave free of a text that goes on to byte `stop`: in front of them,
    between them and behind them. -/
def gaps (pos : Nat) (stop : Nat) : List (Located Token) → List (Nat × Nat)
  | [] => [(pos, stop)]
  | lt :: rest => (pos, lt.start) :: gaps lt.stop stop rest

section

variable {text : String} {front cs : List Char} {lts : List (Located Token)} {l : Language Char}

theorem slice_of_toList {piece after : List Char} (h : text.toList = front ++ (piece ++ after))
    (hl : piece ∈ l) : Slice text (width front) (width front + width piece) l := by
  refine ⟨String.ofList piece, hasAt_of_toList h, ?_, ?_⟩
  · rw [← width_toList, String.toList_ofList]
  · rwa [String.toList_ofList]

/-- In a text that goes on as it is woven, every token is spelled where it says. -/
theorem Woven.spelled (h : Woven (width front) cs lts) (htext : text.toList = front ++ cs) :
    ∀ lt ∈ lts, Slice text lt.start lt.stop lt.value.spellings := by
  generalize hpos : width front = pos at h
  induction h generalizing front with
  | ends => exact fun _ h => absurd h List.not_mem_nil
  | @token pos gap piece rest t lts hgap hpiece _ ih =>
    intro lt hlt
    rcases List.mem_cons.mp hlt with rfl | hlt
    · have hsplit : text.toList = (front ++ gap) ++ (piece ++ rest) := by
        rw [htext, List.append_assoc]
      have hslice := slice_of_toList hsplit hpiece
      rwa [width_append, hpos] at hslice
    · have hsplit : text.toList = (front ++ gap ++ piece) ++ rest := by
        rw [htext]
        simp only [List.append_assoc]
      exact ih hsplit (by rw [width_append, width_append, hpos]) lt hlt

/-- In a text that goes on as it is woven, all that tokens leave free is layout. -/
theorem Woven.filled (h : Woven (width front) cs lts) (htext : text.toList = front ++ cs) :
    ∀ gap ∈ gaps (width front) (width front + width cs) lts,
      Slice text gap.1 gap.2 skipped∗ := by
  generalize hpos : width front = pos at h ⊢
  induction h generalizing front with
  | @ends pos gap hgap =>
    intro g hg
    obtain rfl := List.mem_singleton.mp hg
    have hsplit : text.toList = front ++ (gap ++ []) := by rw [htext, List.append_nil]
    have hslice := slice_of_toList hsplit hgap
    rwa [hpos] at hslice
  | @token pos gap piece rest t lts hgap hpiece _ ih =>
    intro g hg
    rcases List.mem_cons.mp hg with rfl | hg
    · have hslice := slice_of_toList htext hgap
      rwa [hpos] at hslice
    · have hsplit : text.toList = (front ++ gap ++ piece) ++ rest := by
        rw [htext]
        simp only [List.append_assoc]
      refine ih hsplit (by rw [width_append, width_append, hpos]) g ?_
      have hstop : pos + width gap + width piece + width rest =
          pos + width (gap ++ (piece ++ rest)) := by
        simp only [width_append, Nat.add_assoc]
      rwa [hstop]

end

/-! ## 5. Whole texts -/

/-- **Nothing of a text is lost** in its tokens and their places. -/
structure Lossless (text : String) (lts : List (Located Token)) : Prop where
  /-- A token takes some bytes of the text. -/
  bounded : ∀ lt ∈ lts, lt.start < lt.stop ∧ lt.stop ≤ text.utf8ByteSize
  /-- The tokens stand one behind the other. -/
  ordered : lts.Pairwise fun a b => a.start < b.start ∧ a.stop ≤ b.start
  /-- There the text has a spelling of the token. -/
  spelled : ∀ lt ∈ lts, Slice text lt.start lt.stop lt.value.spellings
  /-- Everywhere else it has layout, one stretch after the other. -/
  filled : ∀ gap ∈ gaps 0 text.utf8ByteSize lts, Slice text gap.1 gap.2 skipped∗

/-- **A text is its tokens and layout**: of every text that divides into tokens, each token is
    spelled where its bytes say, the tokens stand one behind the other, and all the rest of the text
    is blanks, comments and declarations. -/
theorem lossless_of_scan {text : String} {lts : List (Located Token)} (h : scan text = .ok lts) :
    Lossless text lts := by
  have hwoven : Woven (width []) text.toList lts := woven_of_scanFrom h
  have hfilled := hwoven.filled (List.nil_append _).symm
  rw [width_nil, Nat.zero_add, width_toList] at hfilled
  exact {
    bounded := fun lt hlt => by
      have hbounds := hwoven.bounds lt hlt
      rw [width_nil, Nat.zero_add, width_toList] at hbounds
      exact hbounds.2
    ordered := hwoven.pairwise
    spelled := hwoven.spelled (List.nil_append _).symm
    filled := hfilled }

/-- Characters of two bytes: in a declaration that ends behind two question marks, in a comment with
    a tag in it, and in a value that has the other quote in it. -/
theorem lossless_of_scan_wide :
    scan "<?é???><!--ü-<a>--> <a\n b='\"ö'/>\n" = .ok
      [⟨.openTag, 22, 23⟩, ⟨.name "a", 23, 24⟩, ⟨.name "b", 26, 27⟩, ⟨.equals, 27, 28⟩,
        ⟨.value "\"ö", 28, 33⟩, ⟨.selfClose, 33, 35⟩] ∧
    Lossless "<?é???><!--ü-<a>--> <a\n b='\"ö'/>\n"
      [⟨.openTag, 22, 23⟩, ⟨.name "a", 23, 24⟩, ⟨.name "b", 26, 27⟩, ⟨.equals, 27, 28⟩,
        ⟨.value "\"ö", 28, 33⟩, ⟨.selfClose, 33, 35⟩] := by
  have h : scan "<?é???><!--ü-<a>--> <a\n b='\"ö'/>\n" = .ok
      [⟨.openTag, 22, 23⟩, ⟨.name "a", 23, 24⟩, ⟨.name "b", 26, 27⟩, ⟨.equals, 27, 28⟩,
        ⟨.value "\"ö", 28, 33⟩, ⟨.selfClose, 33, 35⟩] := by
    cbv
  exact ⟨h, lossless_of_scan h⟩

end Dialplan.Markup
