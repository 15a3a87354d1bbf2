import Dialplan.Proofs.Reading
/-!
# Where attributes are written

An attribute of a tree that was read comes from one place in its text: a key, an equals sign and a
value between quotes, one token after another. Which node it has come to, and how deep that node
stands, makes no difference.

* `WrittenAs`: an attribute that is written somewhere among tokens;
* `State.Written`: everything read so far is written among the tokens taken so far;
* `written_of_read`: the same of every attribute of a tree that was read, with its place in the text.
-/

namespace Dialplan

/-! ## 1. Demands on every attribute -/

/-- Every pair of a key and its value meets a demand. -/
def Attributes.Each (P : String → String → Prop) (a : Attributes) : Prop := ∀ p ∈ a.pairs, P p.1 p.2

/-- So does every pair at a node and below it. -/
def Node.Each (P : String → String → Prop) (n : Node) : Prop :=
  ∀ m ∈ n.subtree, m.attributes.Each P

namespace Attributes

variable {P Q : String → String → Prop} {a : Attributes}

theorem Each.empty : Each P .empty := fun _ h => absurd h List.not_mem_nil

theorem Each.mono (h : a.Each P) (hw : ∀ k v, P k v → Q k v) : a.Each Q := by
  intro p hp
  exact hw p.1 p.2 (h p hp)

theorem mem_put {key value : String} {p : String × String} : ∀ {ps : List (String × String)},
    p ∈ put key value ps → p = (key, value) ∨ p ∈ ps
  | [], h => .inl (List.mem_singleton.mp h)
  | (k, v) :: rest, h => by
      unfold put at h
      split at h
      · rename_i hk
        rcases List.mem_cons.mp h with rfl | h
        · rw [hk]
          exact .inl rfl
        · exact .inr (List.mem_cons_of_mem _ h)
      · rcases List.mem_cons.mp h with rfl | h
        · exact .inr List.mem_cons_self
        · rcases mem_put h with h | h
          · exact .inl h
          · exact .inr (List.mem_cons_of_mem _ h)

theorem Each.set (h : a.Each P) {key value : String} (hp : P key value) :
    (a.set key value).Each P := by
  intro p hm
  rcases mem_put hm with rfl | hm
  · exact hp
  · exact h p hm

end Attributes

namespace Markup

open Dialplan.Text

/-! ## 2. What is written among tokens -/

/-- **An attribute is written among these tokens**: its key, an equals sign and a value that stands
    for its value, one after another. -/
def WrittenAs (lts : List (Located Token)) (key value : String) : Prop :=
  ∃ before after k e v raw, lts = before ++ k :: e :: v :: after ∧ k.value = .name key ∧
    e.value = .equals ∧ v.value = .value raw ∧ decode raw (v.start + 1) = .ok value

theorem WrittenAs.append {lts : List (Located Token)} {key value : String}
    (h : WrittenAs lts key value) (more : List (Located Token)) :
    WrittenAs (lts ++ more) key value := by
  obtain ⟨before, after, k, e, v, raw, rfl, hk, he, hv, hd⟩ := h
  refine ⟨before, after ++ more, k, e, v, raw, ?_, hk, he, hv, hd⟩
  simp only [List.append_assoc, List.cons_append]

/-- All that has been read of an element meets a demand. -/
structure Element.Each (P : String → String → Prop) (e : Element) : Prop where
  own : e.label.attributes.Each P
  below : ∀ c ∈ e.children, c.Each P

section Each

variable {P Q : String → String → Prop}

theorem Element.Each.mono {e : Element} (h : e.Each P) (hw : ∀ k v, P k v → Q k v) : e.Each Q where
  own := h.own.mono hw
  below c hc m hm := (h.below c hc m hm).mono hw

theorem each_branch {k : BranchKind} {l : Label} {cs : List Node} (ho : l.attributes.Each P)
    (hb : ∀ c ∈ cs, c.Each P) : (Node.branch k l cs).Each P := by
  intro m hm
  rcases List.mem_cons.mp hm with rfl | hm
  · exact ho
  · obtain ⟨c, hc, hm⟩ := Node.mem_subtrees.mp hm
    exact hb c hc m hm

theorem Element.Each.node {e : Element} (h : e.Each P) : e.node.Each P := by
  unfold Element.node
  split
  · exact each_branch h.own h.below
  · intro m hm
    rw [List.mem_singleton.mp hm]
    exact h.own

end Each

/-- What follows next knows only what is written among the tokens taken so far. -/
def Phase.Written (done : List (Located Token)) : Phase → Prop
  | .start | .elementName _ => True
  | .inTag tag => tag.attributes.Each (WrittenAs done)
  | .equals tag key _ =>
    tag.attributes.Each (WrittenAs done) ∧ ∃ before k, done = before ++ [k] ∧ k.value = .name key
  | .value tag key _ =>
    tag.attributes.Each (WrittenAs done) ∧
      ∃ before k e, done = before ++ [k, e] ∧ k.value = .name key ∧ e.value = .equals
  | .body e | .endName e | .endMark e => e.Each (WrittenAs done)
  | .finished root => root.node.Each (WrittenAs done)

/-- **Everything read so far is written among the tokens taken so far.** -/
structure State.Written (done : List (Located Token)) (s : State) : Prop where
  phase : s.phase.Written done
  outer : ∀ e ∈ s.outer, e.Each (WrittenAs done)

/-- An element that ends takes along what is written of it. -/
theorem written_closeElement {done : List (Located Token)} {outer : List Element} {e : Element}
    (he : e.Each (WrittenAs done)) (ho : ∀ x ∈ outer, x.Each (WrittenAs done)) (issued : Nat) :
    (closeElement outer e issued).Written done := by
  cases outer with
  | nil => exact ⟨each_branch he.own he.below, fun _ h => absurd h List.not_mem_nil⟩
  | cons parent rest =>
    have hp := ho parent List.mem_cons_self
    refine ⟨⟨hp.own, ?_⟩, fun x hx => ho x (List.mem_cons_of_mem parent hx)⟩
    intro c hc
    rcases List.mem_append.mp hc with hc | hc
    · exact hp.below c hc
    · rw [List.mem_singleton.mp hc]
      exact he.node

/-- One more attribute is written by the three tokens that gave it. -/
theorem written_attribute {done : List (Located Token)} {lt : Located Token} {tag tag' : StartTag}
    {key raw : String} {keyPos : Nat} (ha : tag.attributes.Each (WrittenAs done))
    (hw : ∃ before k e, done = before ++ [k, e] ∧ k.value = .name key ∧ e.value = .equals)
    (hv : lt.value = .value raw) (ht : tag.attribute key keyPos raw (lt.start + 1) = .ok tag') :
    tag'.attributes.Each (WrittenAs (done ++ [lt])) := by
  have hold : tag.attributes.Each (WrittenAs (done ++ [lt])) := ha.mono fun k v h => h.append [lt]
  obtain ⟨value, hd, ⟨-, -, rfl⟩ | ⟨-, -, rfl⟩⟩ := attribute_ok ht
  · exact hold
  · obtain ⟨before, k, e, rfl, hk, he⟩ := hw
    refine hold.set ⟨before, [], k, e, lt, raw, ?_, hk, he, hv, hd⟩
    simp only [List.append_assoc, List.cons_append, List.nil_append]

/-- **A step keeps everything written.** -/
theorem Took.written {done : List (Located Token)} {lt : Located Token} {s s' : State}
    (h : Took lt s s') (hs : s.Written done) : s'.Written (done ++ [lt]) := by
  have grow : ∀ k v, WrittenAs done k v → WrittenAs (done ++ [lt]) k v := fun _ _ h => h.append [lt]
  have ho : ∀ e ∈ s.outer, e.Each (WrittenAs (done ++ [lt])) := by
    intro e he
    exact (hs.outer e he).mono grow
  have hp := hs.phase
  cases h with
  | opening => exact ⟨trivial, ho⟩
  | name n => exact ⟨.empty, ho⟩
  | @key tag outer issued key hk => exact ⟨⟨hp.mono grow, done, lt, rfl, hk⟩, ho⟩
  | close hk => exact ⟨⟨hp.mono grow, fun _ h => absurd h List.not_mem_nil⟩, ho⟩
  | selfClose hk =>
    exact written_closeElement ⟨hp.mono grow, fun _ h => absurd h List.not_mem_nil⟩ ho _
  | equals hk =>
    obtain ⟨ha, before, k, rfl, hn⟩ := hp
    refine ⟨⟨ha.mono grow, before, k, lt, ?_, hn, hk⟩, ho⟩
    rw [List.append_assoc]
    rfl
  | value hv ht => exact ⟨written_attribute hp.1 hp.2 hv ht, ho⟩
  | ending => exact ⟨hp.mono grow, ho⟩
  | child =>
    refine ⟨trivial, ?_⟩
    intro x hx
    rcases List.mem_cons.mp hx with rfl | hx
    · exact hp.mono grow
    · exact ho x hx
  | endName => exact ⟨hp.mono grow, ho⟩
  | endMark => exact written_closeElement (hp.mono grow) ho _

/-! ## 3. Trees that were read -/

/-- **Every attribute of a tree that was read is written in its text**: the tokens of its key, of an
    equals sign and of its value follow one another there. -/
theorem written_of_read {text : String} {t : Tree} (h : read text = .ok t) :
    ∃ lts, scan text = .ok lts ∧ ∀ n ∈ t.nodes, n.attributes.Each (WrittenAs lts) := by
  have h0 : State.Written [] .start := ⟨trivial, fun _ h => absurd h List.not_mem_nil⟩
  obtain ⟨lts, outer, hscan, hw⟩ := holds_of_read (P := fun done s => s.Written done) h h0
    fun lts _ lt _ done s s' ht hs => ht.written hs
  exact ⟨lts, hscan, hw.phase⟩

/-- A value stands between quotes of one sort, which it does not have in it. -/
theorem WrittenAs.quoted {text : String} {lts : List (Located Token)} (hscan : scan text = .ok lts)
    {key value : String} (h : WrittenAs lts key value) :
    ∃ before q raw after, text.toList = before ++ q :: (raw.toList ++ q :: after) ∧
      (q = '"' ∨ q = '\'') ∧ q ∉ raw.toList ∧ decode raw (width before + 1) = .ok value := by
  obtain ⟨front, back, k, e, v, raw, rfl, -, -, hv, hd⟩ := h
  have hm : v ∈ front ++ k :: e :: v :: back := by
    simp only [List.mem_append, List.mem_cons, true_or, or_true]
  obtain ⟨before, q, after, ht, hq, hn, hp⟩ := value_of_scanFrom hscan hm hv
  rw [Nat.zero_add] at hp
  rw [hp] at hd
  exact ⟨before, q, raw, after, ht, hq, hn, hd⟩

end Markup

end Dialplan
