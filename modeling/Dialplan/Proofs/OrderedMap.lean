import Dialplan.Proofs.Attributes
import Mathlib
/-!
# Attributes as an ordered map

Setting a key and removing one both answer with the value that was there before. Attributes made from
a list of pairs and then changed by any such calls hold what a finite map holds, and the calls give
the answers of the map. What the map does not know is the order of the keys, and that is told by the
calls alone: a key has the place of the call that set it when it was absent for the last time.

* `replace`, `remove`: the two calls with their answers, by the position of the key;
* `replace_eq`, `remove_eq`: they are `set` and `erase`, and answer what `get?` gives;
* `table`: the finite map that calls lead to;
* `Agrees`: attributes hold what a finite map holds; a call keeps it so (`Agrees.call`);
* `FirstSet`: the call that set a key for the first time since it was absent;
* `InOrder`: keys stand in the order of these calls; a call keeps it so (`InOrder.call`);
* `ordered_after`: **attributes are an ordered map**, after any calls.
-/

namespace Dialplan.Attributes

/-! ## 1. The calls -/

/-- The attributes with this value for `key`, and the value it had. A present key is found by its
    position and keeps it; a new pair goes to the end. -/
def replace (a : Attributes) (key value : String) : Option String × Attributes :=
  match a.pairs.findIdx? fun p => p.1 == key with
  | some i => (a.pairs[i]?.map (·.2), ⟨a.pairs.modify i fun p => (p.1, value)⟩)
  | none => (none, ⟨a.pairs ++ [(key, value)]⟩)

/-- The attributes without `key`, and the value it had. -/
def remove (a : Attributes) (key : String) : Option String × Attributes :=
  match a.pairs.findIdx? fun p => p.1 == key with
  | some i => (a.pairs[i]?.map (·.2), ⟨a.pairs.eraseIdx i⟩)
  | none => (none, a)

section

variable (key value : String)

theorem lookup_eq_findIdx? : ∀ ps : List (String × String),
    ps.lookup key = (ps.findIdx? fun p => p.1 == key).bind fun i => ps[i]?.map (·.2)
  | [] => rfl
  | (k, v) :: rest => by
      by_cases hk : k = key
      · simp [List.findIdx?_cons, hk]
      · have hne : (key == k) = false := by simpa using Ne.symm hk
        simp [List.lookup_cons, List.findIdx?_cons, hk, hne, lookup_eq_findIdx? rest,
          Option.bind_map]

theorem put_eq_findIdx? : ∀ ps : List (String × String),
    put key value ps = match ps.findIdx? fun p => p.1 == key with
      | some i => ps.modify i fun p => (p.1, value)
      | none => ps ++ [(key, value)]
  | [] => rfl
  | (k, v) :: rest => by
      by_cases hk : k = key
      · simp [put, List.findIdx?_cons, hk]
      · have ih := put_eq_findIdx? rest
        cases hi : rest.findIdx? fun p => p.1 == key with
        | none =>
          rw [hi] at ih
          simp [put, List.findIdx?_cons, hk, hi, ih]
        | some i =>
          rw [hi] at ih
          simp [put, List.findIdx?_cons, hk, hi, ih]

variable (a : Attributes)

/-- **Setting a key by its position** gives the attributes with the key set, and answers the value
    that it had. -/
theorem replace_eq : a.replace key value = (a.get? key, a.set key value) := by
  unfold replace get? set
  rw [lookup_eq_findIdx?, put_eq_findIdx?]
  split
  · rename_i i hi
    simp only [hi, Option.bind_some]
  · rename_i hi
    simp only [hi, Option.bind_none]

/-- **Removing a key by its position** gives the attributes without it, and answers the value that
    it had. -/
theorem remove_eq : a.remove key = (a.get? key, a.erase key) := by
  unfold remove get? erase
  rw [lookup_eq_findIdx?, List.eraseP_eq_eraseIdx]
  split
  · rename_i i hi
    simp only [hi, Option.bind_some]
  · rename_i hi
    simp only [hi, Option.bind_none]

end

/-- One call that changes attributes. -/
inductive Call where
  | set (key value : String)
  | remove (key : String)
deriving DecidableEq, Repr

/-- What a call answers, and the attributes after it. -/
def call (a : Attributes) : Call → Option String × Attributes
  | .set key value => a.replace key value
  | .remove key => a.remove key

/-- The attributes after calls, one after the other. -/
def after (a : Attributes) (calls : List Call) : Attributes :=
  calls.foldl (fun a c => (a.call c).2) a

/-- The calls that make attributes from a list of pairs. -/
def Call.sets (pairs : List (String × String)) : List Call := pairs.map fun p => .set p.1 p.2

theorem after_append (a : Attributes) (calls more : List Call) :
    a.after (calls ++ more) = (a.after calls).after more := List.foldl_append

theorem ofPairs_eq_after (pairs : List (String × String)) :
    ofPairs pairs = empty.after (Call.sets pairs) := by
  unfold ofPairs after Call.sets
  rw [List.foldl_map]
  congr 1
  funext a p
  show a.set p.1 p.2 = (a.replace p.1 p.2).2
  rw [replace_eq]

/-! ## 2. The finite map -/

/-- A finite map from keys to values. -/
abbrev Table := Finmap fun _ : String => String

/-- What a call answers of a finite map, and the map after it. -/
def Call.onTable : Call → Table → Option String × Table
  | .set key value, m => (m.lookup key, m.insert key value)
  | .remove key, m => (m.lookup key, m.erase key)

/-- **The finite map that calls lead to**, from nothing. -/
def table (calls : List Call) : Table := calls.foldl (fun m c => (c.onTable m).2) ∅

theorem table_snoc (calls : List Call) (c : Call) :
    table (calls ++ [c]) = (c.onTable (table calls)).2 := by
  unfold table
  rw [List.foldl_append, List.foldl_cons, List.foldl_nil]

/-- **Attributes hold what a finite map holds**, and their next call gives the answer of the map. -/
structure Agrees (a : Attributes) (m : Table) : Prop where
  distinct : a.keys.Nodup
  get : ∀ key, a.get? key = m.lookup key
  contains : ∀ key, a.contains key = true ↔ key ∈ m
  size : a.size = m.keys.card
  pairs : ∀ key value, (key, value) ∈ a.pairs ↔ m.lookup key = some value
  answers : ∀ c, (a.call c).1 = (c.onTable m).1

section

variable {a : Attributes} {m : Table} {key k : String}

theorem get?_eq_none_iff : a.get? key = none ↔ key ∉ a.keys := by
  unfold get?
  rw [List.lookup_eq_none_iff, keys, List.mem_map]
  constructor
  · rintro h ⟨p, hp, rfl⟩
    exact bne_iff_ne.mp (h p hp) rfl
  · exact fun h p hp => bne_iff_ne.mpr fun e => h ⟨p, hp, e.symm⟩

/-- Where no key stands twice every pair can be looked up. -/
theorem mem_pairs_iff (h : a.keys.Nodup) {value : String} :
    (key, value) ∈ a.pairs ↔ a.get? key = some value := by
  obtain ⟨ps⟩ := a
  induction ps with
  | nil => simp [get?]
  | cons p rest ih =>
    obtain ⟨k, v⟩ := p
    obtain ⟨hk, hrest⟩ := List.nodup_cons.mp h
    have hmem : (key, value) ∈ rest → key ∈ rest.map (·.1) := fun hm =>
      List.mem_map.mpr ⟨_, hm, rfl⟩
    by_cases he : key = k
    · subst he
      have hout : (key, value) ∉ rest := fun hm => hk (hmem hm)
      simp [get?, hout, eq_comm]
    · have hne : (key == k) = false := by simpa using he
      have hrec := ih hrest
      unfold get? at hrec ⊢
      rw [List.mem_cons, List.lookup_cons, hne, ← hrec]
      simp [he]

theorem keys_erase (a : Attributes) (key : String) : (a.erase key).keys = a.keys.erase key := by
  have htest : ((fun k => key == k) ∘ Prod.fst) = fun p : String × String => p.1 == key :=
    funext fun p => BEq.comm
  unfold keys erase
  rw [List.erase_eq_eraseP, List.eraseP_map, htest]

theorem get?_erase_self (h : a.keys.Nodup) : (a.erase key).get? key = none := by
  rw [get?_eq_none_iff, keys_erase]
  exact h.not_mem_erase

theorem lookup_eraseP_of_ne (h : k ≠ key) : ∀ ps : List (String × String),
    (ps.eraseP fun p => p.1 == key).lookup k = ps.lookup k
  | [] => rfl
  | (k', v) :: rest => by
      by_cases hk : k' = key
      · have hne : (k == key) = false := by simpa using h
        simp [hk, List.lookup_cons, hne]
      · simp [hk, List.lookup_cons, lookup_eraseP_of_ne h rest]

theorem get?_erase_of_ne (h : k ≠ key) : (a.erase key).get? k = a.get? k :=
  lookup_eraseP_of_ne h a.pairs

theorem mem_keys_iff_lookup (h : ∀ key, a.get? key = m.lookup key) : key ∈ a.keys ↔ key ∈ m := by
  rw [← Finmap.lookup_isSome, ← h, Option.isSome_iff_ne_none, ne_eq, get?_eq_none_iff, not_not]

/-- All that a finite map tells of attributes is told by looking up. -/
theorem Agrees.of (hd : a.keys.Nodup) (hg : ∀ key, a.get? key = m.lookup key) : a.Agrees m where
  distinct := hd
  get := hg
  contains key := (contains_iff a key).trans (mem_keys_iff_lookup hg)
  size := by
    have hkeys : m.keys = a.keys.toFinset := by
      ext key
      rw [Finmap.mem_keys, List.mem_toFinset, mem_keys_iff_lookup hg]
    rw [hkeys, List.toFinset_card_of_nodup hd, keys, List.length_map]
    rfl
  pairs key value := by rw [mem_pairs_iff hd, hg]
  answers
    | .set key value => by
      show (a.replace key value).1 = m.lookup key
      rw [replace_eq, hg]
    | .remove key => by
      show (a.remove key).1 = m.lookup key
      rw [remove_eq, hg]

/-- **A call leaves attributes and finite map in agreement.** -/
theorem Agrees.call (h : a.Agrees m) (c : Call) : (a.call c).2.Agrees (c.onTable m).2 := by
  cases c with
  | set key value =>
    show (a.replace key value).2.Agrees (m.insert key value)
    rw [replace_eq]
    refine .of (nodup_keys_set h.distinct key value) fun k => ?_
    by_cases hk : k = key
    · rw [hk, get?_set_self, Finmap.lookup_insert]
    · rw [get?_set_of_ne hk, Finmap.lookup_insert_of_ne _ hk, h.get]
  | remove key =>
    show (a.remove key).2.Agrees (m.erase key)
    rw [remove_eq]
    refine .of ?_ fun k => ?_
    · rw [keys_erase]
      exact h.distinct.erase key
    · by_cases hk : k = key
      · rw [hk, get?_erase_self h.distinct, Finmap.lookup_erase]
      · rw [get?_erase_of_ne hk, Finmap.lookup_erase_ne hk, h.get]

end

/-! ## 3. The order of the keys -/

/-- **The call that set a key for the first time since it was absent**: before it the key was absent,
    and after it and all later ones it is there. -/
structure FirstSet (calls : List Call) (key : String) (i : Nat) : Prop where
  sets : ∃ value, calls[i]? = some (.set key value)
  absent : key ∉ table (calls.take i)
  present : ∀ n, i < n → n ≤ calls.length → key ∈ table (calls.take n)

/-- Of two keys the one was set first, since it was absent, by an earlier call than the other. -/
def Earlier (calls : List Call) (first second : String) : Prop :=
  ∃ i j, FirstSet calls first i ∧ FirstSet calls second j ∧ i < j

/-- **Keys stand in the order of the calls that set them first** since they were absent. -/
structure InOrder (a : Attributes) (calls : List Call) : Prop where
  entered : ∀ key ∈ a.keys, ∃ i, FirstSet calls key i
  ordered : a.keys.Pairwise (Earlier calls)

section

variable {a b : Attributes} {m : Table} {calls : List Call} {c : Call} {key first second : String}
  {i j : Nat}

theorem FirstSet.lt_length (h : FirstSet calls key i) : i < calls.length := by
  obtain ⟨value, hv⟩ := h.sets
  exact (List.getElem?_eq_some_iff.mp hv).1

/-- There is only one such call. -/
theorem FirstSet.unique (hi : FirstSet calls key i) (hj : FirstSet calls key j) : i = j := by
  rcases Nat.lt_trichotomy i j with hlt | he | hlt
  · exact absurd (hi.present j hlt hj.lt_length.le) hj.absent
  · exact he
  · exact absurd (hj.present i hlt hi.lt_length.le) hi.absent

theorem Earlier.asymm (h : Earlier calls first second) : ¬ Earlier calls second first := by
  obtain ⟨i, j, hi, hj, hlt⟩ := h
  rintro ⟨j', i', hj', hi', hlt'⟩
  rw [hi'.unique hi, hj'.unique hj] at hlt'
  omega

/-- Another call leaves it the first as long as the key is there. -/
theorem FirstSet.snoc (h : FirstSet calls key i) (hkey : key ∈ table (calls ++ [c])) :
    FirstSet (calls ++ [c]) key i where
  sets := by
    obtain ⟨value, hv⟩ := h.sets
    exact ⟨value, by rw [List.getElem?_append_left h.lt_length, hv]⟩
  absent := by
    rw [List.take_append_of_le_length h.lt_length.le]
    exact h.absent
  present n hn hle := by
    rw [List.length_append, List.length_singleton] at hle
    rcases Nat.lt_or_ge calls.length n with hlast | hearlier
    · rw [List.take_of_length_le (by rw [List.length_append, List.length_singleton]; omega)]
      exact hkey
    · rw [List.take_append_of_le_length hearlier]
      exact h.present n hn hearlier

/-- A key that was absent is set first by the last call. -/
theorem FirstSet.last (h : key ∉ table calls) (value : String) :
    FirstSet (calls ++ [.set key value]) key calls.length where
  sets := ⟨value, by simp⟩
  absent := by
    rw [List.take_left' rfl]
    exact h
  present n hn hle := by
    rw [List.length_append, List.length_singleton] at hle
    rw [List.take_of_length_le (by rw [List.length_append, List.length_singleton]; omega),
      table_snoc]
    exact Finmap.mem_insert.mpr (.inl rfl)

/-- Keys that are still there keep their order. -/
theorem InOrder.kept (h : a.InOrder calls) (hsub : b.keys.Sublist a.keys)
    (hkeys : ∀ key ∈ b.keys, key ∈ table (calls ++ [c])) : b.InOrder (calls ++ [c]) where
  entered key hkey := by
    obtain ⟨i, hi⟩ := h.entered key (hsub.subset hkey)
    exact ⟨i, hi.snoc (hkeys key hkey)⟩
  ordered := by
    refine (h.ordered.sublist hsub).imp_of_mem fun h1 h2 hlt => ?_
    obtain ⟨i, j, hi, hj, hij⟩ := hlt
    exact ⟨i, j, hi.snoc (hkeys _ h1), hj.snoc (hkeys _ h2), hij⟩

/-- A key that was absent comes last. -/
theorem InOrder.snoc (h : a.InOrder calls) (ha : a.Agrees (table calls)) (hkey : key ∉ a.keys)
    (value : String) : (a.set key value).InOrder (calls ++ [.set key value]) := by
  have hlast := FirstSet.last (fun hm => hkey ((mem_keys_iff_lookup ha.get).mpr hm)) value
  have hkeys : ∀ k ∈ a.keys, k ∈ table (calls ++ [.set key value]) := fun k hk => by
    rw [table_snoc]
    exact Finmap.mem_insert.mpr (.inr ((mem_keys_iff_lookup ha.get).mp hk))
  have hkept : a.InOrder (calls ++ [.set key value]) := h.kept (.refl _) hkeys
  refine ⟨fun k hk => ?_, ?_⟩
  · rcases (mem_keys_set a key value k).mp hk with hk | rfl
    · exact hkept.entered k hk
    · exact ⟨_, hlast⟩
  · rw [keys_set_of_not_mem value hkey]
    refine List.pairwise_append.mpr ⟨hkept.ordered, List.pairwise_singleton _ _, ?_⟩
    intro k hk k' hk'
    obtain rfl := List.mem_singleton.mp hk'
    obtain ⟨i, hi⟩ := h.entered k hk
    exact ⟨i, calls.length, hi.snoc (hkeys k hk), hlast, hi.lt_length⟩

/-- **A call keeps the keys in their order.** -/
theorem InOrder.call (h : a.InOrder calls) (ha : a.Agrees (table calls)) (c : Call) :
    (a.call c).2.InOrder (calls ++ [c]) := by
  have hafter := ha.call c
  rw [← table_snoc] at hafter
  have hkeys : ∀ k ∈ (a.call c).2.keys, k ∈ table (calls ++ [c]) := fun k hk =>
    (mem_keys_iff_lookup hafter.get).mp hk
  cases c with
  | set key value =>
    have hset : (a.call (.set key value)).2 = a.set key value :=
      congrArg Prod.snd (replace_eq key value a)
    rw [hset] at hkeys ⊢
    by_cases hkey : key ∈ a.keys
    · exact h.kept (by rw [keys_set_of_mem value hkey]) hkeys
    · exact h.snoc ha hkey value
  | remove key =>
    have herase : (a.call (.remove key)).2 = a.erase key := congrArg Prod.snd (remove_eq key a)
    rw [herase] at hkeys ⊢
    refine h.kept ?_ hkeys
    rw [keys_erase]
    exact List.erase_sublist

/-- **The calls settle the attributes**: no others hold what the finite map holds, in this order. -/
theorem InOrder.eq (ha : a.Agrees m) (hb : b.Agrees m) (hao : a.InOrder calls)
    (hbo : b.InOrder calls) : a = b := by
  have hperm : a.pairs.Perm b.pairs :=
    (List.perm_ext_iff_of_nodup (.of_map _ ha.distinct) (.of_map _ hb.distinct)).mpr fun p =>
      (ha.pairs p.1 p.2).trans (hb.pairs p.1 p.2).symm
  have hpairs : a.pairs = b.pairs :=
    hperm.eq_of_pairwise (fun p q _ _ hpq hqp => absurd hqp hpq.asymm)
      (List.pairwise_map.mp hao.ordered) (List.pairwise_map.mp hbo.ordered)
  exact congrArg Attributes.mk hpairs

end

/-! ## 4. After any calls -/

theorem after_empty (calls : List Call) :
    (empty.after calls).Agrees (table calls) ∧ (empty.after calls).InOrder calls := by
  induction calls using List.reverseRecOn with
  | nil => exact ⟨.of List.nodup_nil fun _ => rfl, fun _ h => absurd h List.not_mem_nil, .nil⟩
  | append_singleton calls c ih =>
    obtain ⟨hagrees, horder⟩ := ih
    rw [after_append, table_snoc]
    exact ⟨hagrees.call c, horder.call hagrees c⟩

/-- **Attributes are an ordered map.** Made from a list of pairs and changed by any calls, they hold
    what a finite map holds after the same calls, no key twice, and the next call gives the answer of
    the map. Their keys stand in the order of the calls that set them first since they were absent,
    the pairs of the list being such calls. No other attributes do. -/
theorem ordered_after (pairs : List (String × String)) (calls : List Call) :
    ((ofPairs pairs).after calls).Agrees (table (Call.sets pairs ++ calls)) ∧
    ((ofPairs pairs).after calls).InOrder (Call.sets pairs ++ calls) ∧
    ∀ other : Attributes, other.Agrees (table (Call.sets pairs ++ calls)) →
      other.InOrder (Call.sets pairs ++ calls) → other = (ofPairs pairs).after calls := by
  rw [ofPairs_eq_after, ← after_append]
  obtain ⟨hagrees, horder⟩ := after_empty (Call.sets pairs ++ calls)
  exact ⟨hagrees, horder, fun _ hother hin => hin.eq hother hagrees horder⟩

/-- A key keeps its place with another value, and comes last when it was removed in between. -/
example : ((ofPairs [("a", "1"), ("b", "2"), ("a", "3")]).pairs = [("a", "3"), ("b", "2")]) ∧
    ((ofPairs [("a", "1"), ("b", "2")]).after [.remove "a", .set "a" "4"]).pairs =
      [("b", "2"), ("a", "4")] := by
  decide

end Dialplan.Attributes
