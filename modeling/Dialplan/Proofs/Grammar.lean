import Dialplan.Proofs.Likeness
import Dialplan.Proofs.Reading
/-!
# The grammar of the markup

What a text has to be so that it is read, and what it is read as, without the reading machine.

* `Tag`, `Form`: a start tag and an element as they are written; `Form.tokens`: their tokens;
* `Tag.Legible`, `Tag.Stands`: what a start tag has to be, in itself and where it stands;
* `Denotes`: **an element denotes a node**, with one rule for all kinds;
* `leads_form`: the tokens of an element that denotes a node add the node to what is read;
* `Took.spells`: whatever has been read was spelt by elements that denote it;
* `read_eq_ok_iff`: a text is read as a tree exactly when its tokens are those of one element that
  denotes the tree.
-/

namespace Dialplan.Markup

open Dialplan.Text
open Node (subtrees)

/-! ## 1. Values -/

theorem map_eq_ok {ε α β : Type} {x : Except ε α} {f : α → β} {b : β} (h : x.map f = .ok b) :
    ∃ a, x = .ok a ∧ f a = b := by
  cases x with
  | error e => cases h
  | ok a => exact ⟨a, rfl, Except.ok.inj h⟩

/-- What a value stands for does not depend on where it is. -/
theorem decodeFrom_ok {pos : Nat} {cs ds : List Char} (h : decodeFrom pos cs = .ok ds)
    (pos' : Nat) : decodeFrom pos' cs = .ok ds := by
  fun_induction decodeFrom pos cs generalizing ds pos' with
  | case1 pos =>
    cases h
    rw [decodeFrom]
  | case2 => cases h
  | case3 => cases h
  | case4 pos rest name after hc d hr _ ih =>
    obtain ⟨rfl, hn⟩ := (cutAt_eq_some_iff _ _ _ _).mp hc
    obtain ⟨es, he, rfl⟩ := map_eq_ok h
    rw [decodeFrom_reference name hr hn, ih he]
    rfl
  | case5 pos c rest hc ih =>
    obtain ⟨es, he, rfl⟩ := map_eq_ok h
    rw [decodeFrom_plain hc, ih he]
    rfl

theorem decode_ok {raw v : String} {pos : Nat} (h : decode raw pos = .ok v) (pos' : Nat) :
    decode raw pos' = .ok v := by
  obtain ⟨cs, hd, rfl⟩ := map_eq_ok h
  unfold decode
  rw [decodeFrom_ok hd pos']
  rfl

/-- What a raw value stands for; nothing for one that stands for none. -/
def meaning (raw : String) : String := (decode raw 0).toOption.getD ""

theorem meaning_of_decode {raw v : String} {pos : Nat} (h : decode raw pos = .ok v) :
    meaning raw = v := by
  unfold meaning
  rw [decode_ok h 0]
  rfl

/-! ## 2. Start tags -/

/-- A start tag as it is written: its name, and its keys with their raw values. -/
structure Tag where
  name : String
  pairs : List (String × String)

/-- The tokens of a key with its raw value. -/
def pairTokens (p : String × String) : List Token := [.name p.1, .equals, .value p.2]

namespace Tag

/-- The tokens of a start tag up to its closing mark. -/
def tokens (g : Tag) : List Token := .openTag :: .name g.name :: g.pairs.flatMap pairTokens

/-- The keys with what their values stand for. -/
def decoded (g : Tag) : List (String × String) := g.pairs.map fun p => (p.1, meaning p.2)

/-- The attributes that a start tag gives: all decoded pairs but those of the flag, in order. -/
def attributes (g : Tag) : Attributes := ⟨g.decoded.filter fun p => p.1 != "enabled"⟩

/-- The flag that a start tag gives: the last one that it says, and on where it says none. -/
def enabled (g : Tag) : Bool :=
  ((g.decoded.filter fun p => p.1 == "enabled").getLast?.map fun p => p.2 == "true").getD true

/-- The label of the node that a start tag makes after `count` others. -/
def label (g : Tag) (count : Nat) : Label := ⟨⟨count + 1⟩, g.attributes, g.enabled⟩

/-- **What a start tag has to be in itself**: every value stands for something, the flag is on or
    off, and every other key comes once. -/
structure Legible (g : Tag) : Prop where
  values : ∀ p ∈ g.pairs, ∃ v, decode p.2 0 = .ok v
  flags : ∀ p ∈ g.decoded, p.1 = "enabled" → p.2 = "true" ∨ p.2 = "false"
  distinct : g.attributes.keys.Nodup

/-- The kind that an element inside another stands for: the one with its name as text, but a
    condition with a `regex` is a condition of regexes. -/
def Means (g : Tag) (k : Kind) : Prop :=
  if g.name = "condition" ∧ "regex" ∈ g.attributes.keys then k = .regexCondition
  else k.text = g.name

/-- **What a start tag has to be where it stands**: the outermost one is an extension, and inside an
    element it means a kind that the element accepts. -/
def Stands (g : Tag) : Option Kind → Kind → Prop
  | none, k => g.name = "extension" ∧ k = .extension
  | some parent, k => g.Means k ∧ parent.accepts k = true

/-! ## 3. Start tags in the machine -/

/-- A start tag in the machine that has said all this. -/
def start (g : Tag) (pos : Nat) : StartTag := ⟨pos, g.name, g.attributes, g.enabled⟩

/-- A start tag with one more pair. -/
def snoc (g : Tag) (p : String × String) : Tag := { g with pairs := g.pairs ++ [p] }

variable {g : Tag} {p : String × String}

theorem pairs_snoc (g : Tag) (p : String × String) (ps : List (String × String)) :
    (g.snoc p).pairs ++ ps = g.pairs ++ p :: ps :=
  (List.append_cons g.pairs p ps).symm

theorem tokens_snoc (g : Tag) (p : String × String) :
    (g.snoc p).tokens = g.tokens ++ pairTokens p := by
  unfold tokens snoc
  rw [List.flatMap_append, List.flatMap_singleton, List.cons_append, List.cons_append]

theorem decoded_snoc (g : Tag) (p : String × String) :
    (g.snoc p).decoded = g.decoded ++ [(p.1, meaning p.2)] := by
  unfold decoded snoc
  rw [List.map_append]
  rfl

theorem attributes_snoc (hp : p.1 ≠ "enabled") :
    (g.snoc p).attributes = ⟨g.attributes.pairs ++ [(p.1, meaning p.2)]⟩ := by
  unfold attributes
  simp [decoded_snoc, hp]

theorem attributes_snoc_flag (hp : p.1 = "enabled") : (g.snoc p).attributes = g.attributes := by
  unfold attributes
  simp [decoded_snoc, hp]

theorem enabled_snoc (hp : p.1 ≠ "enabled") : (g.snoc p).enabled = g.enabled := by
  unfold enabled
  simp [decoded_snoc, hp]

theorem enabled_snoc_flag (hp : p.1 = "enabled") :
    (g.snoc p).enabled = (meaning p.2 == "true") := by
  unfold enabled
  simp [decoded_snoc, hp]

/-- What one more pair has to be. -/
theorem legible_snoc_iff : (g.snoc p).Legible ↔ g.Legible ∧ (∃ v, decode p.2 0 = .ok v) ∧
    (p.1 = "enabled" → meaning p.2 = "true" ∨ meaning p.2 = "false") ∧
      (p.1 ≠ "enabled" → p.1 ∉ g.attributes.keys) := by
  have hkeys : p.1 ≠ "enabled" → (g.snoc p).attributes.keys = g.attributes.keys ++ [p.1] := by
    intro hp
    rw [attributes_snoc hp]
    unfold Attributes.keys
    rw [List.map_append]
    rfl
  have hdecoded : (p.1, meaning p.2) ∈ (g.snoc p).decoded := by
    rw [decoded_snoc]
    exact List.mem_append_right _ (List.mem_singleton_self _)
  constructor
  · intro h
    have hvalues : ∀ q ∈ g.pairs ++ [p], ∃ v, decode q.2 0 = .ok v := h.values
    refine ⟨⟨fun q hq => hvalues q (List.mem_append_left _ hq), fun q hq => h.flags q ?_, ?_⟩,
      hvalues p (List.mem_append_right _ (List.mem_singleton_self _)), h.flags _ hdecoded,
      fun hp hm => ?_⟩
    · rw [decoded_snoc]
      exact List.mem_append_left _ hq
    · by_cases hp : p.1 = "enabled"
      · exact attributes_snoc_flag hp ▸ h.distinct
      · exact (List.nodup_append.mp (hkeys hp ▸ h.distinct)).1
    · exact (List.nodup_append.mp (hkeys hp ▸ h.distinct)).2.2 _ hm _ (List.mem_singleton_self _) rfl
  · rintro ⟨h, hv, hflag, hfresh⟩
    refine ⟨fun q hq => ?_, fun q hq => ?_, ?_⟩
    · rcases List.mem_append.mp hq with hq | hq
      · exact h.values q hq
      · rw [List.mem_singleton.mp hq]
        exact hv
    · rw [decoded_snoc] at hq
      rcases List.mem_append.mp hq with hq | hq
      · exact h.flags q hq
      · rw [List.mem_singleton.mp hq]
        exact hflag
    · by_cases hp : p.1 = "enabled"
      · rw [attributes_snoc_flag hp]
        exact h.distinct
      · rw [hkeys hp]
        refine List.nodup_append.mpr ⟨h.distinct, List.pairwise_singleton _ _, ?_⟩
        rintro x hx y hy rfl
        exact hfresh hp (List.mem_singleton.mp hy ▸ hx)

theorem Legible.nil (name : String) : Legible ⟨name, []⟩ :=
  ⟨fun _ hp => absurd hp List.not_mem_nil, fun _ hp => absurd hp List.not_mem_nil, List.nodup_nil⟩

/-- A legible start tag is so before its last pairs come. -/
theorem Legible.front {ps : List (String × String)} (h : Legible ⟨g.name, g.pairs ++ ps⟩) :
    g.Legible := by
  have hdecoded : decoded ⟨g.name, g.pairs ++ ps⟩ = g.decoded ++ decoded ⟨g.name, ps⟩ :=
    List.map_append
  refine ⟨fun p hp => h.values p (List.mem_append_left ps hp), fun p hp => h.flags p ?_, ?_⟩
  · rw [hdecoded]
    exact List.mem_append_left _ hp
  · have hd := h.distinct
    unfold attributes Attributes.keys at hd
    rw [hdecoded, List.filter_append, List.map_append] at hd
    exact (List.nodup_append.mp hd).1

/-- A pair with which a start tag is legible is taken. -/
theorem attribute_of_legible {key raw : String} (h : (g.snoc (key, raw)).Legible)
    (pos keyPos valuePos : Nat) : (g.start pos).attribute key keyPos raw valuePos =
      .ok ((g.snoc (key, raw)).start pos) := by
  obtain ⟨-, ⟨v, hv⟩, hflag, hfresh⟩ := legible_snoc_iff.mp h
  have hm : meaning raw = v := meaning_of_decode hv
  unfold StartTag.attribute
  rw [decode_ok hv valuePos]
  by_cases hk : key = "enabled"
  · subst hk
    have hstart : (g.snoc ("enabled", raw)).start pos =
        { g.start pos with enabled := v == "true" } := by
      unfold start
      rw [attributes_snoc_flag rfl, enabled_snoc_flag rfl, hm]
      rfl
    have hv' : v = "true" ∨ v = "false" := hm ▸ hflag rfl
    rw [hstart]
    rcases hv' with rfl | rfl <;> rfl
  · have hnew : key ∉ g.attributes.keys := hfresh hk
    have hset : (g.start pos).attributes.set key v = ⟨g.attributes.pairs ++ [(key, v)]⟩ :=
      congrArg Attributes.mk (Attributes.pairs_set_of_not_mem v hnew)
    have hc : (g.start pos).attributes.contains key = false :=
      (Attributes.contains_eq_false_iff _ _).mpr hnew
    simp only [hk, if_false, hc, Bool.false_eq_true, hset]
    unfold start
    rw [attributes_snoc hk, enabled_snoc hk, hm]
    rfl

/-- **A pair is taken exactly when the start tag stays legible with it.** -/
theorem attribute_eq_ok_iff (hg : g.Legible) {pos keyPos valuePos : Nat} {key raw : String}
    {tag : StartTag} : (g.start pos).attribute key keyPos raw valuePos = .ok tag ↔
      (g.snoc (key, raw)).Legible ∧ tag = (g.snoc (key, raw)).start pos := by
  constructor
  · intro h
    have hl : (g.snoc (key, raw)).Legible := by
      refine legible_snoc_iff.mpr ⟨hg, ?_⟩
      obtain ⟨v, hd, h⟩ := attribute_ok h
      have hm : meaning raw = v := meaning_of_decode hd
      refine ⟨⟨v, decode_ok hd 0⟩, fun hk => ?_, fun hk => ?_⟩
      · rcases h with ⟨-, hv, -⟩ | ⟨hne, -, -⟩
        · exact hm.symm ▸ hv
        · exact absurd hk hne
      · rcases h with ⟨heq, -, -⟩ | ⟨-, hc, -⟩
        · exact absurd heq hk
        · exact (Attributes.contains_eq_false_iff _ _).mp hc
    refine ⟨hl, ?_⟩
    rw [attribute_of_legible hl] at h
    exact (Except.ok.inj h).symm
  · rintro ⟨hl, rfl⟩
    exact attribute_of_legible hl pos keyPos valuePos

/-- The machine's way to settle the kind of an element inside another. -/
theorem means_iff {k : Kind} :
    (if g.name = "condition" && g.attributes.contains "regex" then some Kind.regexCondition
      else Kind.ofText? g.name) = some k ↔ g.Means k := by
  unfold Means
  by_cases h : g.name = "condition" ∧ "regex" ∈ g.attributes.keys
  · have hc := (Attributes.contains_iff g.attributes "regex").mpr h.2
    rw [if_pos h]
    simp [h.1, hc, eq_comm]
  · have hc : ¬ ((decide (g.name = "condition") && g.attributes.contains "regex") = true) := by
      rw [Bool.and_eq_true, decide_eq_true_eq, Attributes.contains_iff]
      exact h
    rw [if_neg h, if_neg hc]
    constructor
    · intro hk
      exact beq_iff_eq.mp (List.find?_some (p := fun k : Kind => k.text == g.name) hk)
    · intro hk
      rw [← hk]
      exact Kind.ofText?_text k

/-- **A start tag is taken for a kind exactly where it stands for it.** -/
theorem kindAt_eq_ok_iff {outer : List Element} {pos : Nat} {kind : Kind} :
    kindAt outer (g.start pos) = .ok kind ↔ g.Stands (outer.head?.map Element.kind) kind := by
  cases outer with
  | nil => exact kindAt_nil_eq_ok
  | cons parent rest => exact kindAt_cons_eq_ok.trans (and_congr_left fun _ => means_iff)

end Tag

/-! ## 4. Elements -/

/-- An element as it is written. -/
inductive Form where
  /-- A start tag that closes itself. -/
  | empty (tag : Tag)
  /-- A start tag, elements, and an end tag with the same name. -/
  | paired (tag : Tag) (body : List Form)

namespace Form

/-- The start tag. -/
def tag : Form → Tag
  | .empty g | .paired g _ => g

/-- The elements inside. -/
def body : Form → List Form
  | .empty _ => []
  | .paired _ fs => fs

mutual

/-- The tokens of an element. -/
def tokens : Form → List Token
  | .empty g => g.tokens ++ [.selfClose]
  | .paired g fs => g.tokens ++ .close :: (tokensIn fs ++ [.openEnd, .name g.name, .close])

/-- The tokens of elements one after another. -/
def tokensIn : List Form → List Token
  | [] => []
  | f :: rest => f.tokens ++ tokensIn rest

end

theorem tokensIn_append : ∀ fs gs : List Form, tokensIn (fs ++ gs) = tokensIn fs ++ tokensIn gs
  | [], _ => rfl
  | f :: rest, gs => by
      show f.tokens ++ tokensIn (rest ++ gs) = (f.tokens ++ tokensIn rest) ++ tokensIn gs
      rw [tokensIn_append rest gs, List.append_assoc]

end Form

mutual

/-- **An element denotes a node**, inside an element of a kind or outermost, after `count` other
    nodes. The start tag is legible and stands where the node's kind may stand, the node is labelled
    by it, and the elements inside denote the children. A leaf has no children, so nothing may be
    inside an element that denotes one. -/
inductive Denotes : Option Kind → Nat → Form → Node → Prop
  | element {parent : Option Kind} {count : Nat} {f : Form} {n : Node} (hl : f.tag.Legible)
      (hs : f.tag.Stands parent n.kind) (hn : n.label = f.tag.label count)
      (hb : DenotesAll n.kind (count + 1) f.body n.children) : Denotes parent count f n

/-- Elements inside one of a kind denote nodes one by one. -/
inductive DenotesAll : Kind → Nat → List Form → List Node → Prop
  | nil {parent : Kind} {count : Nat} : DenotesAll parent count [] []
  | cons {parent : Kind} {count : Nat} {f : Form} {n : Node} {fs : List Form} {ns : List Node}
      (h : Denotes (some parent) count f n) (hr : DenotesAll parent (count + n.size) fs ns) :
      DenotesAll parent count (f :: fs) (n :: ns)

end

/-- One more element at the end denotes one more node. -/
theorem DenotesAll.snoc {parent : Kind} {f : Form} {n : Node} : ∀ {count : Nat} {fs : List Form}
    {ns : List Node}, DenotesAll parent count fs ns →
      Denotes (some parent) (count + (subtrees ns).length) f n →
        DenotesAll parent count (fs ++ [f]) (ns ++ [n])
  | _, _, _, .nil, h => .cons h .nil
  | _, _, _, .cons hm hr, h => by
      rw [Node.length_subtrees_cons, ← Nat.add_assoc] at h
      exact .cons hm (hr.snoc h)

/-- Inside an element of a leaf's kind there is nothing. -/
theorem DenotesAll.nil_of_leaf {k : LeafKind} {count : Nat} {fs : List Form} {ns : List Node}
    (h : DenotesAll (.leaf k) count fs ns) : ns = [] := by
  cases h with
  | nil => rfl
  | cons h _ =>
    cases h with
    | element _ hs => cases hs.2

/-! ## 5. Elements that denote are read -/

/-- From `s` the tokens `ts` lead to `s'`, wherever in a text they stand. -/
def Leads (ts : List Token) (s s' : State) : Prop :=
  ∀ lts : List (Located Token), lts.map (·.value) = ts → lts.foldlM step s = .ok s'

theorem Leads.nil (s : State) : Leads [] s s := fun lts h => by
  rw [List.map_eq_nil_iff.mp h]
  rfl

/-- The first token may leave its place in the state, so what follows is asked of every place. -/
theorem Leads.cons {t : Token} {ts : List Token} {s s'' : State}
    (h : ∀ lt : Located Token, lt.value = t → ∃ s', step s lt = .ok s' ∧ Leads ts s' s'') :
    Leads (t :: ts) s s'' := fun lts hl => by
  obtain ⟨lt, rest, rfl, h1, h2⟩ := List.map_eq_cons_iff.mp hl
  obtain ⟨s', hs, hr⟩ := h lt h1
  rw [List.foldlM_cons, hs]
  exact hr rest h2

theorem Leads.append {ts us : List Token} {s s' s'' : State} (h1 : Leads ts s s')
    (h2 : Leads us s' s'') : Leads (ts ++ us) s s'' := fun lts hl => by
  obtain ⟨l1, l2, rfl, e1, e2⟩ := List.map_eq_append_iff.mp hl
  rw [List.foldlM_append, h1 l1 e1]
  exact h2 l2 e2

/-- Where a start tag may come: at the front of a text, or in the body of an element. -/
def State.ready : List Element → Nat → State
  | [], issued => ⟨.start, [], issued⟩
  | e :: outer, issued => ⟨.body e, outer, issued⟩

/-- The kind of the innermost open element. -/
def around (outer : List Element) : Option Kind := outer.head?.map Element.kind

/-- The element that becomes this node, with all its children. -/
def Element.of (name : String) (n : Node) : Element := ⟨name, n.kind, n.label, n.children⟩

theorem Element.node_of (name : String) (n : Node) : (Element.of name n).node = n := by
  cases n <;> rfl

section Tags

variable {outer : List Element} {issued : Nat} {ts : List Token} {s : State}

/-- Pairs with which a start tag is legible are taken one after the other. -/
theorem leads_pairs (pos : Nat) : ∀ (ps : List (String × String)) (g : Tag),
    Tag.Legible ⟨g.name, g.pairs ++ ps⟩ →
      Leads ts ⟨.inTag (Tag.start ⟨g.name, g.pairs ++ ps⟩ pos), outer, issued⟩ s →
        Leads (ps.flatMap pairTokens ++ ts) ⟨.inTag (g.start pos), outer, issued⟩ s
  | [], g, _, h => by
      rw [List.append_nil] at h
      exact h
  | p :: ps, g, hl, h => by
      rw [← g.pairs_snoc] at hl h
      have hp : (g.snoc p).Legible := hl.front
      refine .cons fun lk hk => ⟨⟨.equals (g.start pos) p.1 lk.start, outer, issued⟩, ?_, ?_⟩
      · unfold step
        rw [hk]
      refine .cons fun le he => ⟨⟨.value (g.start pos) p.1 lk.start, outer, issued⟩, ?_, ?_⟩
      · unfold step
        rw [he]
      refine .cons fun lv hv => ⟨⟨.inTag ((g.snoc p).start pos), outer, issued⟩, ?_,
        leads_pairs pos ps (g.snoc p) hl h⟩
      unfold step
      rw [hv]
      simp only [Tag.attribute_of_legible hp]

/-- A legible start tag up to its closing mark, where a start tag may come. -/
theorem leads_tag {g : Tag} {kind : Kind} (hl : g.Legible) (hs : g.Stands (around outer) kind)
    (h : ∀ pos, Leads ts ⟨.inTag (g.start pos), outer, issued⟩ s) :
    Leads (g.tokens ++ ts) (State.ready outer issued) s := by
  refine .cons fun lo hlo => ⟨⟨.elementName lo.start, outer, issued⟩, ?_, ?_⟩
  · cases outer with
    | nil =>
      unfold step State.ready
      rw [hlo]
    | cons p rest =>
      have hb : p.kind.isBranch = true := by
        have ha : p.kind.accepts kind = true := hs.2
        cases hp : p.kind with
        | branch b => rfl
        | leaf l =>
          rw [hp] at ha
          cases ha
      unfold step State.ready
      rw [hlo]
      simp only [hb, if_true]
  refine .cons fun ln hln => ⟨⟨.inTag (Tag.start ⟨g.name, []⟩ lo.start), outer, issued⟩, ?_,
    leads_pairs lo.start g.pairs ⟨g.name, []⟩ hl (h lo.start)⟩
  unfold step
  rw [hln]
  rfl

theorem leads_endTag (e : Element) (outer : List Element) (issued : Nat) :
    Leads [.openEnd, .name e.name, .close] (State.ready (e :: outer) issued)
      (closeElement outer e issued) := by
  refine .cons fun lo hlo => ⟨⟨.endName e, outer, issued⟩, ?_, ?_⟩
  · unfold step State.ready
    rw [hlo]
  refine .cons fun ln hln => ⟨⟨.endMark e, outer, issued⟩, ?_, ?_⟩
  · unfold step
    rw [hln]
    simp only [if_true]
  refine .cons fun lc hlc => ⟨_, ?_, .nil _⟩
  unfold step
  rw [hlc]

end Tags

mutual

/-- **The tokens of an element that denotes a node add the node** to what is read. -/
theorem leads_form : ∀ (f : Form) (n : Node) (outer : List Element) (issued : Nat),
    Denotes (around outer) issued f n →
      Leads f.tokens (State.ready outer issued)
        (closeElement outer (.of f.tag.name n) (issued + n.size))
  | .empty g, n, outer, issued, .element hl hs hn hb => by
      have hc : n.children = [] := by
        generalize n.children = cs at hb
        cases hb
        rfl
      have hsize : n.size = 1 := by
        rw [Node.size_eq, hc]
        rfl
      have hk : ∀ pos, kindAt outer (g.start pos) = .ok n.kind := fun pos =>
        Tag.kindAt_eq_ok_iff.mpr hs
      have hlabel : n.label = g.label issued := hn
      unfold Form.tokens
      refine leads_tag hl hs fun pos => .cons fun lc hlc => ⟨_, ?_, .nil _⟩
      unfold step
      rw [hlc]
      simp only [hk pos]
      unfold Element.of State.opened
      rw [hc, hlabel, hsize]
      rfl
  | .paired g body, n, outer, issued, .element hl hs hn hb => by
      have hk : ∀ pos, kindAt outer (g.start pos) = .ok n.kind := fun pos =>
        Tag.kindAt_eq_ok_iff.mpr hs
      have hlabel : n.label = g.label issued := hn
      have hbody := leads_forms body n.children ⟨g.name, n.kind, g.label issued, []⟩ outer
        (issued + 1) hb
      have hend := leads_endTag (.of g.name n) outer (issued + n.size)
      unfold Form.tokens
      refine leads_tag hl hs fun pos => .cons fun lc hlc =>
        ⟨State.ready (⟨g.name, n.kind, g.label issued, []⟩ :: outer) (issued + 1), ?_, ?_⟩
      · unfold step
        rw [hlc]
        simp only [hk pos]
        rfl
      · -- the children are complete where the end tag comes, so the element closes with them
        have hsize : issued + 1 + (subtrees n.children).length = issued + n.size := by
          rw [Node.size_eq]
          omega
        rw [hsize, ← hlabel] at hbody
        rw [← hlabel]
        exact hbody.append hend

theorem leads_forms : ∀ (fs : List Form) (ns : List Node) (p : Element) (outer : List Element)
    (issued : Nat), DenotesAll p.kind issued fs ns →
      Leads (Form.tokensIn fs) (State.ready (p :: outer) issued)
        (State.ready ({ p with children := p.children ++ ns } :: outer)
          (issued + (subtrees ns).length))
  | [], _, p, outer, issued, .nil => by
      rw [List.append_nil]
      exact .nil _
  | f :: fs, n :: ns, p, outer, issued, .cons h hr => by
      have hf := leads_form f n (p :: outer) issued h
      have hrest := leads_forms fs ns { p with children := p.children ++ [n] } outer
        (issued + n.size) hr
      unfold closeElement at hf
      rw [Element.node_of] at hf
      unfold Form.tokensIn
      rw [Node.length_subtrees_cons, ← Nat.add_assoc]
      have happ := hf.append hrest
      rw [List.append_assoc] at happ
      exact happ

end

/-! ## 6. What is read was spelt -/

/-- An element whose body is being read, as it is written so far. -/
structure Frame where
  tag : Tag
  body : List Form

/-- The tokens of open elements, innermost first: what is further in comes later. -/
def framesTokens : List Frame → List Token
  | [] => []
  | fr :: frs => framesTokens frs ++ (fr.tag.tokens ++ .close :: Form.tokensIn fr.body)

/-- **Open elements as they are written**, innermost first, with the count of nodes so far. -/
inductive Spelt : List Frame → List Element → Nat → Prop
  | nil : Spelt [] [] 0
  | cons {frs : List Frame} {outer : List Element} {count : Nat} {fr : Frame} {e : Element}
      (ho : Spelt frs outer count) (hl : fr.tag.Legible)
      (hs : fr.tag.Stands (around outer) e.kind) (hname : e.name = fr.tag.name)
      (hlabel : e.label = fr.tag.label count)
      (hb : DenotesAll e.kind (count + 1) fr.body e.children) :
      Spelt (fr :: frs) (e :: outer) (count + 1 + (subtrees e.children).length)

/-- **These tokens spell what has been read.** -/
def State.Spells (done : List Token) (s : State) : Prop :=
  match s.phase with
  | .start => Spelt [] s.outer s.issued ∧ done = []
  | .elementName _ =>
    ∃ frs : List Frame, Spelt frs s.outer s.issued ∧ done = framesTokens frs ++ [.openTag]
  | .inTag tag =>
    ∃ (frs : List Frame) (g : Tag), Spelt frs s.outer s.issued ∧ g.Legible ∧
      tag = g.start tag.pos ∧ done = framesTokens frs ++ g.tokens
  | .equals tag key _ =>
    ∃ (frs : List Frame) (g : Tag), Spelt frs s.outer s.issued ∧ g.Legible ∧
      tag = g.start tag.pos ∧ done = framesTokens frs ++ (g.tokens ++ [.name key])
  | .value tag key _ =>
    ∃ (frs : List Frame) (g : Tag), Spelt frs s.outer s.issued ∧ g.Legible ∧
      tag = g.start tag.pos ∧ done = framesTokens frs ++ (g.tokens ++ [.name key, .equals])
  | .body e => ∃ frs : List Frame, Spelt frs (e :: s.outer) s.issued ∧ done = framesTokens frs
  | .endName e =>
    ∃ frs : List Frame, Spelt frs (e :: s.outer) s.issued ∧ done = framesTokens frs ++ [.openEnd]
  | .endMark e =>
    ∃ frs : List Frame, Spelt frs (e :: s.outer) s.issued ∧
      done = framesTokens frs ++ [.openEnd, .name e.name]
  | .finished root =>
    ∃ f : Form, Denotes none 0 f root.node ∧ s.issued = root.node.size ∧ done = f.tokens

theorem Element.label_node (e : Element) : e.node.label = e.label := by
  unfold Element.node
  split <;> rfl

/-- The node of an element has the children read for it, since a leaf has none to lose. -/
theorem children_node {e : Element} {count : Nat} {fs : List Form}
    (h : DenotesAll e.kind count fs e.children) : e.node.children = e.children := by
  unfold Element.node
  split
  · rfl
  · rename_i hk
    rw [hk] at h
    exact h.nil_of_leaf.symm

/-- The finished root, as a node, is the node of the outermost element. -/
theorem node_root {e : Element} (hk : e.kind = .extension) :
    (Branch.mk .extension e.label e.children).node = e.node := by
  unfold Element.node
  rw [hk]
  rfl

/-- **An element ends**: what has been written of it is complete, and denotes its node. -/
theorem spells_closeElement {frs : List Frame} {outer : List Element} {count : Nat} {f : Form}
    {e : Element} (ho : Spelt frs outer count) (hl : f.tag.Legible)
    (hs : f.tag.Stands (around outer) e.kind) (hlabel : e.label = f.tag.label count)
    (hb : DenotesAll e.kind (count + 1) f.body e.children) :
    (closeElement outer e (count + 1 + (subtrees e.children).length)).Spells
      (framesTokens frs ++ f.tokens) := by
  have hc := children_node hb
  have hn : Denotes (around outer) count f e.node := by
    rw [← hc, ← e.kind_node] at hb
    rw [← e.kind_node] at hs
    exact .element hl hs (e.label_node.trans hlabel) hb
  have hsize : 1 + (subtrees e.children).length = e.node.size := by
    rw [Node.size_eq, hc, Nat.add_comm]
  rw [Nat.add_assoc, hsize]
  cases ho with
  | nil =>
    refine ⟨f, ?_, ?_, rfl⟩
    · rw [node_root hs.2]
      exact hn
    · rw [node_root hs.2]
      exact Nat.zero_add _
  | @cons frs outer count fr p ho hlp hsp hname hlabelp hbp =>
    refine ⟨⟨fr.tag, fr.body ++ [f]⟩ :: frs, ?_, ?_⟩
    · have hs' : Spelt (⟨fr.tag, fr.body ++ [f]⟩ :: frs)
          ({ p with children := p.children ++ [e.node] } :: outer)
          (count + 1 + (subtrees (p.children ++ [e.node])).length) :=
        .cons ho hlp hsp hname hlabelp (hbp.snoc hn)
      have hlen : (subtrees (p.children ++ [e.node])).length =
          (subtrees p.children).length + e.node.size := by
        rw [Node.subtrees_append, List.length_append]
        exact congrArg _ (Node.length_subtrees_cons e.node [])
      rw [hlen, ← Nat.add_assoc] at hs'
      exact hs'
    · unfold framesTokens
      rw [Form.tokensIn_append]
      simp only [Form.tokensIn, List.append_nil, List.append_assoc, List.cons_append]

/-- **A step keeps what has been read spelt**: the token goes on where the form was left. -/
theorem Took.spells {lt : Located Token} {s s' : State} (h : Took lt s s') {done : List Token}
    (hs : s.Spells done) : s'.Spells (done ++ [lt.value]) := by
  cases h with
  | opening ho =>
    obtain ⟨hspelt, rfl⟩ := hs
    rw [ho]
    exact ⟨[], hspelt, rfl⟩
  | name n hn =>
    obtain ⟨frs, hspelt, rfl⟩ := hs
    rw [hn, List.append_assoc]
    exact ⟨frs, ⟨n, []⟩, hspelt, .nil n, rfl, rfl⟩
  | key hk =>
    obtain ⟨frs, g, hspelt, hl, ht, rfl⟩ := hs
    rw [hk, List.append_assoc]
    exact ⟨frs, g, hspelt, hl, ht, rfl⟩
  | equals hk =>
    obtain ⟨frs, g, hspelt, hl, ht, rfl⟩ := hs
    rw [hk, List.append_assoc, List.append_assoc]
    exact ⟨frs, g, hspelt, hl, ht, rfl⟩
  | @value tag tag' outer key raw keyPos issued hv ha =>
    obtain ⟨frs, g, hspelt, hl, ht, rfl⟩ := hs
    rw [ht] at ha
    obtain ⟨hl', rfl⟩ := (Tag.attribute_eq_ok_iff hl).mp ha
    rw [hv, List.append_assoc, List.append_assoc]
    refine ⟨frs, g.snoc (key, raw), hspelt, hl', rfl, ?_⟩
    rw [Tag.tokens_snoc]
    rfl
  | @close tag outer issued kind hk hc =>
    obtain ⟨frs, g, hspelt, hl, ht, rfl⟩ := hs
    rw [ht] at hk ⊢
    rw [hc, List.append_assoc]
    exact ⟨⟨g, []⟩ :: frs, .cons hspelt hl (Tag.kindAt_eq_ok_iff.mp hk) rfl rfl .nil, rfl⟩
  | @selfClose tag outer issued kind hk hc =>
    obtain ⟨frs, g, hspelt, hl, ht, rfl⟩ := hs
    rw [ht] at hk ⊢
    rw [hc, List.append_assoc]
    have hb : DenotesAll kind (issued + 1) [] [] := .nil
    exact spells_closeElement (f := .empty g) (e := ⟨g.name, kind, g.label issued, []⟩) hspelt hl
      (Tag.kindAt_eq_ok_iff.mp hk) rfl hb
  | ending ho =>
    obtain ⟨frs, hspelt, rfl⟩ := hs
    rw [ho]
    exact ⟨frs, hspelt, rfl⟩
  | child ho =>
    obtain ⟨frs, hspelt, rfl⟩ := hs
    rw [ho]
    exact ⟨frs, hspelt, rfl⟩
  | endName hn =>
    obtain ⟨frs, hspelt, rfl⟩ := hs
    rw [hn, List.append_assoc]
    exact ⟨frs, hspelt, rfl⟩
  | @endMark e outer issued hc =>
    obtain ⟨frs, hspelt, rfl⟩ := hs
    cases hspelt with
    | @cons frs _ count fr _ ho hl hs hname hlabel hb =>
      have htokens : framesTokens frs ++ (Form.paired fr.tag fr.body).tokens =
          framesTokens (fr :: frs) ++ [.openEnd, .name fr.tag.name] ++ [.close] := by
        simp only [framesTokens, Form.tokens, List.append_assoc, List.cons_append, List.nil_append]
      rw [hc, hname, ← htokens]
      exact spells_closeElement (f := .paired fr.tag fr.body) ho hl hs hlabel hb

/-! ## 7. Whole texts -/

/-- **The tokens of an element that denotes a tree build the tree.** -/
theorem ofTokens_of_denotes {f : Form} {t : Tree} (hf : Denotes none 0 f t.root.node)
    (hissued : t.issued = t.size) (len : Nat) {lts : List (Located Token)}
    (htokens : lts.map (·.value) = f.tokens) : ofTokens len lts = .ok t := by
  obtain ⟨⟨kind, label, children⟩, issued⟩ := t
  obtain rfl : kind = .extension := by
    cases hf with
    | element _ hs => exact Kind.branch.inj hs.2
  have hrun : lts.foldlM step State.start = _ := leads_form f _ [] 0 hf lts htokens
  have hsize : (Node.branch .extension label children).size = issued := hissued.symm
  unfold ofTokens
  rw [hrun, Nat.zero_add]
  show Except.ok (Tree.mk ⟨.extension, label, children⟩ _) = _
  rw [← hsize]
  rfl

/-- **The texts that are read, and what they are read as.** A text is read as a tree exactly when it
    divides into the tokens of one element, outermost, that denotes the tree. -/
theorem read_eq_ok_iff (text : String) (t : Tree) :
    read text = .ok t ↔ ∃ lts f, scan text = .ok lts ∧ lts.map (·.value) = f.tokens ∧
      Denotes none 0 f t.root.node ∧ t.issued = t.size := by
  constructor
  · intro h
    obtain ⟨lts, outer, hscan, f, hf, hissued, htokens⟩ :=
      holds_of_read (P := fun lts s => s.Spells (lts.map (·.value))) h ⟨.nil, rfl⟩
        fun lts _ lt _ done s s' ht hs => by
          rw [List.map_append]
          exact ht.spells hs
    exact ⟨lts, f, hscan, htokens, hf, hissued⟩
  · rintro ⟨lts, f, hscan, htokens, hf, hissued⟩
    unfold read
    rw [hscan]
    exact ofTokens_of_denotes hf hissued _ htokens

end Dialplan.Markup
