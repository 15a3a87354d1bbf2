import Dialplan.Proofs.Lexing
/-!
# Where tokens stand

The scanner counts bytes while it goes along a text. Here its counts are places of the text, and a
text may be cut at them: what it begins with was settled by the characters taken, so the front of a
text has the tokens that stand in it.

* `Text.HasAt`: a piece stands at a byte offset;
* `token_front`, `layout_settled`: what follows a token may be cut off anywhere, and what follows
  layout may be anything;
* `scanFrom_cut`: the span of a token, and the tokens of the text up to there;
* `fragment_of_scanFrom`: a stretch that is no token stands where the fault says.
-/

namespace Dialplan

/-! ## 1. Bytes -/

namespace Text

theorem width_toList (s : String) : width s.toList = s.utf8ByteSize := by
  have h : ∀ cs : List Char, (String.ofList cs).utf8ByteSize = width cs := by
    intro cs
    induction cs with
    | nil => rfl
    | cons c cs ih =>
      rw [String.ofList_cons, String.utf8ByteSize_append, String.utf8ByteSize_singleton, ih]
      rfl
  rw [← h, String.ofList_toList]

/-- **The text has the piece at a byte offset**: so many bytes stand before it. -/
def HasAt (text : String) (pos : Nat) (piece : String) : Prop :=
  ∃ before after : String, text = before ++ piece ++ after ∧ before.utf8ByteSize = pos

variable {text piece : String} {pos : Nat}

theorem hasAt_of_toList {before cs after : List Char} (h : text.toList = before ++ (cs ++ after)) :
    HasAt text (width before) (String.ofList cs) := by
  refine ⟨String.ofList before, String.ofList after, ?_, ?_⟩
  · rw [← String.ofList_append, ← String.ofList_append, List.append_assoc, ← h, String.ofList_toList]
  · rw [← width_toList, String.toList_ofList]

/-- Where a piece stands there is a boundary between characters. -/
theorem HasAt.isValid (h : HasAt text pos piece) : String.Pos.Raw.IsValid text ⟨pos⟩ := by
  obtain ⟨before, after, rfl, rfl⟩ := h
  rw [String.append_assoc]
  exact String.Pos.Raw.isValid_iff_exists_append.mpr ⟨before, piece ++ after, rfl, rfl⟩

end Text

namespace Markup

open Dialplan.Text

/-! ## 2. What follows may be cut off -/

/-- A comment is over at its end mark, whatever follows. -/
theorem comment_front {cs body after : List Char} (h : comment cs = .closed body after)
    (kept : List Char) : comment (body ++ '-' :: '-' :: '>' :: kept) = .closed body kept := by
  fun_induction comment cs generalizing body after with
  | case1 =>
    cases h
    rfl
  | case3 c rest _ hc ih =>
    obtain ⟨b, hb, rfl⟩ := Stretch.cons_eq_closed.mp h
    have hrest := ih hb
    simp [comment, hc, hrest, Stretch.cons]
  | case5 c rest _ _ hc ih =>
    obtain ⟨b, hb, rfl⟩ := Stretch.cons_eq_closed.mp h
    have hrest := ih hb
    simp [comment, hc, hrest, Stretch.cons]
  | _ => simp at h

/-- So is a declaration. -/
theorem declaration_front {cs body after : List Char} (h : declaration cs = .closed body after)
    (kept : List Char) : declaration (body ++ '?' :: '>' :: kept) = .closed body kept := by
  fun_induction declaration cs generalizing body after with
  | case1 =>
    cases h
    rfl
  | case2 c rest hc ih =>
    obtain ⟨b, hb, rfl⟩ := Stretch.cons_eq_closed.mp h
    have hrest := ih hb
    simp [declaration, hrest, Stretch.cons]
  | case4 c rest _ _ hc ih =>
    obtain ⟨b, hb, rfl⟩ := Stretch.cons_eq_closed.mp h
    have hrest := ih hb
    simp [declaration, hc, hrest, Stretch.cons]
  | _ => simp at h

/-- A stretch with an end mark of its own is no token. -/
theorem ofStretch_ne_token {mark closing taken rest : List Char} {st : Stretch} {t : Token} :
    Next.ofStretch mark closing st ≠ .token t taken rest := by
  cases st <;> exact fun h => by cases h

/-- A `<` that is a token by itself is one also where less follows. -/
theorem openTag_front {kept cut : List Char}
    (h : next ('<' :: (kept ++ cut)) = .token .openTag ['<'] (kept ++ cut)) :
    next ('<' :: kept) = .token .openTag ['<'] kept := by
  unfold next
  split
  case h_2 =>
    rename_i rest heq
    cases heq
    exact absurd h ofStretch_ne_token
  case h_3 =>
    rename_i rest heq
    cases heq
    exact absurd h ofStretch_ne_token
  case h_4 =>
    rename_i rest heq
    cases heq
    cases h
  case h_5 =>
    rename_i heq
    cases heq
    rfl
  case h_11 =>
    rename_i hc _ _ _ _ _ heq
    cases heq
    exact absurd rfl hc
  all_goals
    rename_i heq
    cases heq

/-- A quoted value is over at its second quote, whatever follows. -/
theorem quoted_front {q : Char} {after rest taken : List Char} {t : Token}
    (h : quoted q rest = .token t taken after) (kept : List Char) :
    ∃ body, taken = q :: body ++ [q] ∧ quoted q (body ++ q :: kept) = .token t taken kept := by
  unfold quoted at h
  split at h
  · rename_i body behind hc
    cases h
    obtain ⟨-, hq⟩ := (cutAt_eq_some_iff _ _ _ _).mp hc
    have hcut : cutAt q (body ++ q :: kept) = some (body, kept) :=
      (cutAt_eq_some_iff _ _ _ _).mpr ⟨rfl, hq⟩
    refine ⟨body, rfl, ?_⟩
    unfold quoted
    rw [hcut]
  · cases h

/-- A name is over before the first character that none goes on with. -/
theorem name_front {rest kept cut : List Char} (h : rest.dropWhile Name.isTail = kept ++ cut) :
    (rest.takeWhile Name.isTail ++ kept).takeWhile Name.isTail = rest.takeWhile Name.isTail ∧
      (rest.takeWhile Name.isTail ++ kept).dropWhile Name.isTail = kept := by
  have ha : ∀ c ∈ rest.takeWhile Name.isTail, Name.isTail c = true :=
    List.all_eq_true.mp List.all_takeWhile
  rw [List.takeWhile_append_of_pos ha, List.dropWhile_append_of_pos ha]
  cases kept with
  | nil => exact ⟨List.append_nil _, rfl⟩
  | cons d kept =>
    have hd := List.head?_dropWhile_not Name.isTail rest
    rw [h] at hd
    have hstop : Name.isTail d = false := hd
    rw [List.takeWhile_cons_of_neg (Bool.not_eq_true _ ▸ hstop),
      List.dropWhile_cons_of_neg (Bool.not_eq_true _ ▸ hstop), List.append_nil]
    exact ⟨rfl, rfl⟩

/-- **A token is settled by its own characters**: it is the same where less follows. -/
theorem token_front {t : Token} {taken kept cut : List Char}
    (h : next (taken ++ (kept ++ cut)) = .token t taken (kept ++ cut)) :
    next (taken ++ kept) = .token t taken kept := by
  have horiginal := h
  generalize hcs : taken ++ (kept ++ cut) = cs at h
  unfold next at h
  split at h
  case h_1 => cases h
  case h_2 => exact absurd h ofStretch_ne_token
  case h_3 => exact absurd h ofStretch_ne_token
  case h_5 =>
    cases h
    exact openTag_front horiginal
  case h_9 | h_10 =>
    obtain ⟨body, rfl, hq⟩ := quoted_front h kept
    rw [List.append_assoc]
    exact hq
  case h_11 =>
    split at h
    · cases h
    · split at h
      · rename_i hhead
        injection h with ht htaken hrest
        obtain ⟨htake, hdrop⟩ := name_front hrest
        rw [← ht, ← htaken, List.cons_append, next_head hhead, htake, hdrop]
      · cases h
  all_goals
    cases h
    rfl

/-- **Layout is settled by its own characters**, too, and whatever follows it. -/
theorem layout_settled {taken kept behind : List Char}
    (h : next (taken ++ behind) = .layout taken behind) :
    next (taken ++ kept) = .layout taken kept := by
  generalize hcs : taken ++ behind = cs at h
  unfold next at h
  split at h
  case h_2 =>
    rename_i rest
    cases hc : comment rest with
    | closed body after =>
      rw [hc] at h
      cases h
      have hsplit : ['<', '!', '-', '-'] ++ body ++ ['-', '-', '>'] ++ kept =
          '<' :: '!' :: '-' :: '-' :: (body ++ '-' :: '-' :: '>' :: kept) := by simp
      rw [hsplit]
      show Next.ofStretch _ _ (comment _) = _
      rw [comment_front hc kept]
      rfl
    | broken body =>
      rw [hc] at h
      cases h
  case h_3 =>
    rename_i rest
    cases hc : declaration rest with
    | closed body after =>
      rw [hc] at h
      cases h
      have hsplit : ['<', '?'] ++ body ++ ['?', '>'] ++ kept =
          '<' :: '?' :: (body ++ '?' :: '>' :: kept) := by simp
      rw [hsplit]
      show Next.ofStretch _ _ (declaration _) = _
      rw [declaration_front hc kept]
      rfl
    | broken body =>
      rw [hc] at h
      cases h
  case h_9 | h_10 =>
    unfold quoted at h
    split at h <;> cases h
  case h_11 =>
    split at h
    · rename_i hl
      cases h
      exact next_layout hl kept
    · split at h <;> cases h
  all_goals cases h

/-! ## 3. Cuts at tokens -/

section Scanning

variable {pos : Nat} {cs taken rest : List Char} {t : Token} {lts : List (Located Token)}

theorem scanFrom_layout (h : next cs = .layout taken rest) (pos : Nat) :
    scanFrom pos cs = scanFrom (pos + width taken) rest := by
  rw [scanFrom]
  split
  all_goals
    rename_i he
    rw [h] at he
    cases he
  rfl

theorem scanFrom_token (h : next cs = .token t taken rest)
    (hrest : scanFrom (pos + width taken) rest = .ok lts) :
    scanFrom pos cs = .ok (⟨t, pos, pos + width taken⟩ :: lts) := by
  rw [scanFrom]
  split
  all_goals
    rename_i he
    rw [h] at he
    cases he
  rw [hrest]

theorem scanFrom_broken {fragment : List Char} (h : next cs = .broken fragment) (pos : Nat) :
    scanFrom pos cs = .error (.unrecognized pos (String.ofList fragment)) := by
  rw [scanFrom]
  split
  all_goals
    rename_i he
    rw [h] at he
    cases he
  rfl

theorem scanFrom_nil (pos : Nat) : scanFrom pos [] = .ok [] := by
  rw [scanFrom]
  rfl

/-- **The span of a token.** Its characters stand where its start says, they end where its stop
    says, and cut off before or behind them the text has the tokens up to there. -/
theorem scanFrom_cut {done more : List (Located Token)} {lt : Located Token}
    (h : scanFrom pos cs = .ok (done ++ lt :: more)) : ∃ before taken after,
      cs = before ++ (taken ++ after) ∧ lt.start = pos + width before ∧
      lt.stop = lt.start + width taken ∧ scanFrom pos before = .ok done ∧
      scanFrom pos (before ++ taken) = .ok (done ++ [lt]) := by
  generalize hlts : done ++ lt :: more = lts at h
  fun_induction scanFrom pos cs generalizing done lts with
  | case1 =>
    cases h
    exact absurd hlts (List.append_ne_nil_of_right_ne_nil _ (List.cons_ne_nil _ _))
  | case2 => cases h
  | case3 pos cs taken rest hn ih =>
    have hs := next_splits cs
    rw [hn] at hs
    obtain ⟨before, mid, after, rfl, hstart, hstop, hbefore, hmid⟩ := ih lts hlts h
    rw [hs.1] at hn
    have hlayout : next (taken ++ before) = .layout taken before := layout_settled hn
    have hlayout' : next (taken ++ (before ++ mid)) = .layout taken (before ++ mid) :=
      layout_settled hn
    refine ⟨taken ++ before, mid, after, ?_, ?_, hstop, ?_, ?_⟩
    · rw [hs.1, List.append_assoc]
    · rw [hstart, width_append, Nat.add_assoc]
    · rw [scanFrom_layout hlayout, hbefore]
    · rw [List.append_assoc, scanFrom_layout hlayout', hmid]
  | case4 => cases h
  | case5 pos cs u taken rest hn us hus ih =>
    cases h
    have hs := next_splits cs
    rw [hn] at hs
    rw [hs.1] at hn
    cases done with
    | nil =>
      cases hlts
      have htoken : next (taken ++ []) = .token u taken [] := token_front hn
      refine ⟨[], taken, rest, hs.1, rfl, rfl, scanFrom_nil pos, ?_⟩
      rw [List.append_nil] at htoken
      exact scanFrom_token htoken (scanFrom_nil _)
    | cons d done =>
      obtain ⟨rfl, hmore⟩ := List.cons.inj hlts
      obtain ⟨before, mid, after, rfl, hstart, hstop, hbefore, hmid⟩ := ih us hmore hus
      have htoken : next (taken ++ before) = .token u taken before := token_front hn
      have htoken' : next (taken ++ (before ++ mid)) = .token u taken (before ++ mid) := by
        rw [← List.append_assoc before] at hn
        exact token_front hn
      refine ⟨taken ++ before, mid, after, ?_, ?_, hstop, ?_, ?_⟩
      · rw [hs.1, List.append_assoc]
      · rw [hstart, width_append, Nat.add_assoc]
      · exact scanFrom_token htoken hbefore
      · rw [List.append_assoc]
        exact scanFrom_token htoken' hmid

/-! ## 4. Stretches that are no token -/

theorem Stretch.cons_eq_broken {s : Stretch} {front body : List Char} :
    s.cons front = .broken body ↔ ∃ b, s = .broken b ∧ body = front ++ b := by
  cases s with
  | closed b a => simp [Stretch.cons]
  | broken b =>
    simp only [Stretch.cons, Stretch.broken.injEq]
    grind

theorem comment_broken {cs body : List Char} (h : comment cs = .broken body) : body <+: cs := by
  fun_induction comment cs generalizing body with
  | case1 => cases h
  | case3 c rest _ _ ih =>
    obtain ⟨b, hb, rfl⟩ := Stretch.cons_eq_broken.mp h
    exact List.prefix_append_right_inj ['-', c] |>.mpr (ih hb)
  | case5 c rest _ _ _ ih =>
    obtain ⟨b, hb, rfl⟩ := Stretch.cons_eq_broken.mp h
    exact List.prefix_append_right_inj [c] |>.mpr (ih hb)
  | _ =>
    cases h
    exact List.nil_prefix

theorem declaration_broken {cs body : List Char} (h : declaration cs = .broken body) :
    body <+: cs := by
  fun_induction declaration cs generalizing body with
  | case1 => cases h
  | case2 c rest _ ih =>
    obtain ⟨b, hb, rfl⟩ := Stretch.cons_eq_broken.mp h
    exact List.prefix_append_right_inj ['?', c] |>.mpr (ih hb)
  | case4 c rest _ _ _ ih =>
    obtain ⟨b, hb, rfl⟩ := Stretch.cons_eq_broken.mp h
    exact List.prefix_append_right_inj [c] |>.mpr (ih hb)
  | _ =>
    cases h
    exact List.nil_prefix

/-- A stretch that is no token is some of what comes next. -/
theorem fragment_of_next {cs fragment : List Char} (h : next cs = .broken fragment) :
    fragment <+: cs ∧ fragment ≠ [] := by
  unfold next at h
  split at h
  case h_2 =>
    rename_i rest
    cases hc : comment rest with
    | closed body after =>
      rw [hc] at h
      cases h
    | broken body =>
      rw [hc] at h
      cases h
      exact ⟨List.prefix_append_right_inj ['<', '!', '-', '-'] |>.mpr (comment_broken hc),
        List.cons_ne_nil _ _⟩
  case h_3 =>
    rename_i rest
    cases hc : declaration rest with
    | closed body after =>
      rw [hc] at h
      cases h
    | broken body =>
      rw [hc] at h
      cases h
      exact ⟨List.prefix_append_right_inj ['<', '?'] |>.mpr (declaration_broken hc),
        List.cons_ne_nil _ _⟩
  case h_9 | h_10 =>
    unfold quoted at h
    split at h
    · cases h
    · cases h
      exact ⟨List.prefix_rfl, List.cons_ne_nil _ _⟩
  case h_11 =>
    split at h
    · cases h
    · split at h
      · cases h
      · cases h
        exact ⟨⟨_, rfl⟩, List.cons_ne_nil _ _⟩
  all_goals cases h

/-- **A stretch that is no token stands where the fault says.** -/
theorem fragment_of_scanFrom {f : Fault} (h : scanFrom pos cs = .error f) :
    ∃ before fragment after, cs = before ++ (fragment ++ after) ∧ fragment ≠ [] ∧
      f = .unrecognized (pos + width before) (String.ofList fragment) := by
  fun_induction scanFrom pos cs with
  | case1 => cases h
  | case2 pos cs fragment hn =>
    cases h
    obtain ⟨⟨after, rfl⟩, hne⟩ := fragment_of_next hn
    exact ⟨[], fragment, after, rfl, hne, rfl⟩
  | case3 pos cs taken rest hn ih =>
    have hs := next_splits cs
    rw [hn] at hs
    obtain ⟨before, fragment, after, rfl, hne, rfl⟩ := ih h
    refine ⟨taken ++ before, fragment, after, ?_, hne, ?_⟩
    · rw [hs.1, List.append_assoc]
    · rw [width_append, Nat.add_assoc]
  | case4 pos cs u taken rest hn e he ih =>
    cases h
    have hs := next_splits cs
    rw [hn] at hs
    obtain ⟨before, fragment, after, rfl, hne, rfl⟩ := ih he
    refine ⟨taken ++ before, fragment, after, ?_, hne, ?_⟩
    · rw [hs.1, List.append_assoc]
    · rw [width_append, Nat.add_assoc]
  | case5 => cases h

end Scanning

end Markup

end Dialplan
