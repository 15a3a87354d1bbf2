/-!
# Byte offsets

Places in a text are counted in bytes of its UTF-8 form. `width` is the number of bytes a stretch of
characters takes, so the offset of what follows a stretch is the offset of the stretch plus its
width.
-/

namespace Dialplan.Text

/-- The number of bytes that a stretch of characters takes in UTF-8. -/
def width : List Char → Nat
  | [] => 0
  | c :: cs => c.utf8Size + width cs

@[simp] theorem width_nil : width [] = 0 := rfl

@[simp] theorem width_cons (c : Char) (cs : List Char) :
    width (c :: cs) = c.utf8Size + width cs := rfl

@[simp] theorem width_append (a b : List Char) : width (a ++ b) = width a + width b := by
  induction a with
  | nil => exact (Nat.zero_add _).symm
  | cons c cs ih => rw [List.cons_append, width_cons, width_cons, ih, Nat.add_assoc]

/-- Every character takes a byte. -/
theorem eq_nil_of_width {cs : List Char} (h : width cs = 0) : cs = [] := by
  cases cs with
  | nil => rfl
  | cons c cs =>
    have hc := c.utf8Size_pos
    rw [width_cons] at h
    omega

/-- Two fronts of a text with the same number of bytes are the same. -/
theorem eq_of_width_eq {a b c d : List Char} (h : a ++ b = c ++ d) (hw : width a = width c) :
    a = c := by
  rcases List.append_eq_append_iff.mp h with ⟨more, rfl, -⟩ | ⟨more, rfl, -⟩
  all_goals
    rw [width_append] at hw
    have hmore : more = [] := eq_nil_of_width (by omega)
    rw [hmore, List.append_nil]

/-- A piece of a text together with the bytes it takes there: from `start` up to, and without,
    `stop`. -/
structure Located (α : Type) where
  value : α
  start : Nat
  stop : Nat
deriving DecidableEq, Repr

/-- The place of the first `target` in a text, as the characters before it and those after. -/
def cutAt (target : Char) : List Char → Option (List Char × List Char)
  | [] => none
  | c :: rest =>
    if c = target then some ([], rest)
    else (cutAt target rest).map fun (before, behind) => (c :: before, behind)

/-- **A cut loses nothing and cuts at the first place.** -/
theorem cutAt_eq_some_iff (target : Char) (cs before behind : List Char) :
    cutAt target cs = some (before, behind) ↔
      cs = before ++ target :: behind ∧ target ∉ before := by
  induction cs generalizing before with
  | nil => simp [cutAt]
  | cons c rest ih =>
    by_cases h : c = target
    · subst h
      cases before with
      | nil => simp [cutAt]
      | cons b bs =>
        simp only [cutAt, if_true, Option.some.injEq, Prod.mk.injEq, List.cons_append,
          List.cons.injEq, List.mem_cons, not_or]
        constructor
        · rintro ⟨h, -⟩; cases h
        · rintro ⟨⟨h, -⟩, h', -⟩; exact absurd h h'
    · cases before with
      | nil => simp [cutAt, h]
      | cons b bs =>
        simp only [cutAt, h, if_false, Option.map_eq_some_iff, Prod.mk.injEq, List.cons.injEq,
          List.cons_append, List.mem_cons, not_or, Prod.exists]
        constructor
        · rintro ⟨x, y, hxy, ⟨rfl, rfl⟩, rfl⟩
          obtain ⟨h1, h2⟩ := (ih x).mp hxy
          exact ⟨⟨rfl, h1⟩, fun e => h e.symm, h2⟩
        · rintro ⟨⟨rfl, h1⟩, -, h2⟩
          exact ⟨bs, behind, (ih bs).mpr ⟨h1, h2⟩, ⟨rfl, rfl⟩, rfl⟩

/-- What follows a cut is shorter than the whole. -/
theorem length_of_cutAt {target : Char} {cs before behind : List Char}
    (h : cutAt target cs = some (before, behind)) : behind.length < cs.length := by
  obtain ⟨rfl, -⟩ := (cutAt_eq_some_iff target cs before behind).mp h
  rw [List.length_append, List.length_cons]
  omega

end Dialplan.Text
