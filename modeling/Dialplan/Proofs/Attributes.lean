import Dialplan.Kind
/-!
# Keys of attributes

The keys of an attribute list as a list of their own, and what setting a value does to them: a
present key stays where it is, a new one goes to the end.

* `keys_set_of_mem`, `pairs_set_of_not_mem`: the two things that `set` does;
* `get?_set_of_ne`: what it leaves of the other keys;
* `Attributes.Writable`: distinct keys, each a name other than `enabled`; what can stand in a start
  tag and be read from it again;
* `Kind.Fits`, `Kind.Shows`: what the attributes of a node say about its kind.
-/

namespace Dialplan

namespace Attributes

/-! ## 1. Keys -/

/-- The keys, in their order. -/
def keys (a : Attributes) : List String := a.pairs.map (·.1)

theorem mem_keys {a : Attributes} {key : String} : key ∈ a.keys ↔ ∃ v, (key, v) ∈ a.pairs := by
  unfold keys
  rw [List.mem_map]
  constructor
  · rintro ⟨⟨k, v⟩, hm, rfl⟩
    exact ⟨v, hm⟩
  · rintro ⟨v, hm⟩
    exact ⟨(key, v), hm, rfl⟩

theorem contains_iff (a : Attributes) (key : String) : a.contains key = true ↔ key ∈ a.keys := by
  unfold contains keys
  rw [List.any_eq_true, List.mem_map]
  simp only [beq_iff_eq]

theorem contains_eq_false_iff (a : Attributes) (key : String) :
    a.contains key = false ↔ key ∉ a.keys := by
  rw [← contains_iff, Bool.not_eq_true]

theorem keys_put_of_mem (key value : String) : ∀ ps : List (String × String),
    key ∈ ps.map (·.1) → (put key value ps).map (·.1) = ps.map (·.1)
  | [], h => absurd h List.not_mem_nil
  | (k, v) :: rest, h => by
      by_cases hk : k = key
      · simp [put, hk]
      · have hr : key ∈ rest.map (·.1) := by
          rcases List.mem_cons.mp h with e | hr
          · exact absurd e.symm hk
          · exact hr
        simp [put, hk, keys_put_of_mem key value rest hr]

theorem put_of_not_mem (key value : String) : ∀ ps : List (String × String),
    key ∉ ps.map (·.1) → put key value ps = ps ++ [(key, value)]
  | [], _ => rfl
  | (k, v) :: rest, h => by
      simp only [List.map_cons, List.mem_cons, not_or] at h
      have hk : ¬ k = key := fun e => h.1 e.symm
      simp [put, hk, put_of_not_mem key value rest h.2]

theorem keys_set_of_mem {a : Attributes} {key : String} (value : String) (h : key ∈ a.keys) :
    (a.set key value).keys = a.keys :=
  keys_put_of_mem key value a.pairs h

theorem pairs_set_of_not_mem {a : Attributes} {key : String} (value : String) (h : key ∉ a.keys) :
    (a.set key value).pairs = a.pairs ++ [(key, value)] :=
  put_of_not_mem key value a.pairs h

theorem keys_set_of_not_mem {a : Attributes} {key : String} (value : String) (h : key ∉ a.keys) :
    (a.set key value).keys = a.keys ++ [key] := by
  unfold keys
  rw [pairs_set_of_not_mem value h, List.map_append]
  rfl

theorem mem_keys_set (a : Attributes) (key value k : String) :
    k ∈ (a.set key value).keys ↔ k ∈ a.keys ∨ k = key := by
  by_cases h : key ∈ a.keys
  · rw [keys_set_of_mem value h]
    exact ⟨Or.inl, fun hk => hk.elim id fun e => e ▸ h⟩
  · rw [keys_set_of_not_mem value h, List.mem_append, List.mem_singleton]

/-- Setting a value makes no key stand twice. -/
theorem nodup_keys_set {a : Attributes} (h : a.keys.Nodup) (key value : String) :
    (a.set key value).keys.Nodup := by
  by_cases hk : key ∈ a.keys
  · rw [keys_set_of_mem value hk]
    exact h
  · rw [keys_set_of_not_mem value hk]
    exact List.nodup_append.mpr ⟨h, List.pairwise_singleton _ key, by
      rintro x hx y hy rfl
      exact hk (List.mem_singleton.mp hy ▸ hx)⟩

theorem lookup_put_of_ne {key k : String} (h : k ≠ key) (value : String) :
    ∀ ps : List (String × String), (put key value ps).lookup k = ps.lookup k
  | [] => by simp [put, h]
  | (k', v) :: rest => by
      by_cases hk : k' = key
      · have hne : (k == key) = false := by simpa using h
        subst hk
        simp [put, List.lookup_cons, hne]
      · simp [put, hk, List.lookup_cons, lookup_put_of_ne h value rest]

/-- Another key keeps its value. -/
theorem get?_set_of_ne {a : Attributes} {key k : String} (h : k ≠ key) (value : String) :
    (a.set key value).get? k = a.get? k :=
  lookup_put_of_ne h value a.pairs

/-! ## 2. Attributes that markup can hold -/

/-- **What can stand in a start tag**: distinct keys, every one a name, none of them the flag. -/
structure Writable (a : Attributes) : Prop where
  distinct : a.keys.Nodup
  valid : ∀ k ∈ a.keys, isValidKey k = true
  noFlag : "enabled" ∉ a.keys

theorem Writable.empty : Writable .empty :=
  ⟨List.nodup_nil, fun _ h => absurd h List.not_mem_nil, List.not_mem_nil⟩

theorem Writable.set {a : Attributes} {key : String} (h : a.Writable) (value : String)
    (hv : isValidKey key = true) (hf : key ≠ "enabled") : (a.set key value).Writable where
  distinct := nodup_keys_set h.distinct key value
  valid k hk := by
    rcases (mem_keys_set a key value k).mp hk with hk | rfl
    · exact h.valid k hk
    · exact hv
  noFlag hk := by
    rcases (mem_keys_set a key value _).mp hk with hk | e
    · exact h.noFlag hk
    · exact hf e.symm

/-- The attributes `name` and `continue` in some order, each at most once: what the root of a rule
    set made from stored rows is given. -/
def Heading (a : Attributes) : Prop :=
  a.keys.Nodup ∧ ∀ k ∈ a.keys, k = "name" ∨ k = "continue"

theorem Heading.writable {a : Attributes} (h : a.Heading) : a.Writable where
  distinct := h.1
  valid k hk := by rcases h.2 k hk with rfl | rfl <;> decide
  noFlag hk := by rcases h.2 _ hk with e | e <;> exact absurd e (by decide)

end Attributes

/-! ## 3. Attributes and kinds -/

/-- Attributes that a node of this kind can be read with: an ordinary condition has no `regex`,
    since with it the element would stand for a condition of regexes. -/
def Kind.Fits (k : Kind) (a : Attributes) : Prop :=
  a.Writable ∧ (k = .condition → "regex" ∉ a.keys)

/-- Attributes that also show the kind: a condition of regexes has its `regex`. -/
def Kind.Shows (k : Kind) (a : Attributes) : Prop :=
  k.Fits a ∧ (k = .regexCondition → "regex" ∈ a.keys)

/-- An attribute that an edit may write on a node of this kind. -/
def Kind.Admits (k : Kind) (key : String) : Prop :=
  Attributes.isValidKey key = true ∧ key ≠ "enabled" ∧ (key = "regex" → k = .regexCondition)

theorem Kind.Fits.set {k : Kind} {a : Attributes} {key : String} (h : k.Fits a) (value : String)
    (hk : k.Admits key) : k.Fits (a.set key value) := by
  refine ⟨h.1.set value hk.1 hk.2.1, fun e hm => ?_⟩
  rcases (Attributes.mem_keys_set a key value _).mp hm with hm | hm
  · exact h.2 e hm
  · rw [e] at hk
    exact absurd (hk.2.2 hm.symm) (by decide)

theorem Kind.Shows.set {k : Kind} {a : Attributes} {key : String} (h : k.Shows a) (value : String)
    (hk : k.Admits key) : k.Shows (a.set key value) :=
  ⟨h.1.set value hk, fun e => (Attributes.mem_keys_set a key value _).mpr (.inl (h.2 e))⟩

theorem Kind.shows_defaults (k : Kind) : k.Shows k.defaults := by
  rcases k with k | k <;> cases k <;>
    exact ⟨⟨⟨by decide, by decide, by decide⟩, by decide⟩, by decide⟩

end Dialplan
