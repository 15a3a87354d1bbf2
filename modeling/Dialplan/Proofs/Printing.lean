import Dialplan.Markup.Printing
import Dialplan.Proofs.Lexing
import Dialplan.Proofs.Likeness
/-!
# The tokens of a printed rule set

Printing told as tokens: what the printed form of a tree divides into, whatever the indentation.

* `said`: all that a start tag says, the mode that a condition of regexes may lack included;
* `nodeTokens`, `treeTokens`: the tokens of a node and of a tree;
* `lexes_printChars_append`: the printed form divides into them, whatever follows it, as soon as
  every key is a name and the indentation is layout.
-/

namespace Dialplan.Markup

open Dialplan.Node (mend)

/-! ## 1. The tokens -/

/-- The pairs that a start tag writes, in their order. -/
def said (kind : Kind) (l : Label) : List (String × String) :=
  (mend kind l).attributes.pairs ++ (if l.enabled then [] else [("enabled", "false")])

/-- The tokens of one pair. -/
def attributeTokens (p : String × String) : List Token := [.name p.1, .equals, .value (escape p.2)]

/-- The tokens of a start tag up to its closing mark. -/
def startTokens (kind : Kind) (l : Label) : List Token :=
  .openTag :: .name kind.tag :: (said kind l).flatMap attributeTokens

/-- The tokens of an end tag. -/
def endTokens (kind : Kind) : List Token := [.openEnd, .name kind.tag, .close]

mutual

/-- The tokens of a node. -/
def nodeTokens : Node → List Token
  | .leaf k l => startTokens (.leaf k) l ++ [.selfClose]
  | .branch k l [] => startTokens (.branch k) l ++ [.selfClose]
  | .branch k l (n :: rest) =>
    startTokens (.branch k) l ++ .close :: (nodeTokens n ++ (nodesTokens rest ++
      endTokens (.branch k)))

/-- The tokens of the nodes of a list. -/
def nodesTokens : List Node → List Token
  | [] => []
  | n :: rest => nodeTokens n ++ nodesTokens rest

end

/-- The tokens of a tree. -/
def treeTokens (t : Tree) : List Token :=
  startTokens .extension t.root.label ++
    .close :: (nodesTokens t.root.children ++ endTokens .extension)

/-! ## 2. Start tags -/

/-- A start tag is the pairs it says, one after the other. -/
theorem startTag_eq (kind : Kind) (l : Label) :
    startTag kind l = '<' :: (kind.tag.toList ++ (said kind l).flatMap attributeText) := by
  unfold startTag said Node.mend Node.mendAttributes
  rw [List.cons_append, List.cons_append, List.cons_append, List.flatMap_append]
  congr 1
  rw [List.append_assoc, List.append_assoc]
  congr 1
  split <;> split <;> simp

theorem isName_tag (kind : Kind) : Name.isName kind.tag.toList = true := by
  rcases kind with k | k <;> cases k <;> decide

/-- A key that a start tag writes is a name. -/
theorem isValidKey_of_said {kind : Kind} {l : Label} (h : kind.Fits l.attributes)
    {p : String × String} (hp : p ∈ said kind l) : Attributes.isValidKey p.1 = true := by
  rcases List.mem_append.mp hp with hp | hp
  · refine (Node.shows_mend h).1.1.valid p.1 ?_
    exact Attributes.mem_keys.mpr ⟨p.2, hp⟩
  · split at hp
    · exact absurd hp List.not_mem_nil
    · rw [List.mem_singleton.mp hp]
      decide

section Tags

variable {rest : List Char} {ts : List Token}

/-- What follows a pair does not reach into it. -/
theorem lexes_attribute {p : String × String} (hp : Attributes.isValidKey p.1 = true)
    (h : Lexes rest ts) : Lexes (attributeText p ++ rest) (attributeTokens p ++ ts) := by
  have hv := lexes_value (quote_not_mem_escapeChars p.2.toList) h
  have hn := lexes_name hp (stops_cons rfl _) (lexes_equals hv)
  rw [String.ofList_toList] at hn
  have hl := Lexes.layout (next_layout (c := ' ') rfl _) hn
  unfold attributeText attributeTokens escape
  simpa only [List.append_assoc, List.cons_append, List.nil_append] using hl

theorem lexes_attributes : ∀ {ps : List (String × String)},
    (∀ p ∈ ps, Attributes.isValidKey p.1 = true) → Stops rest → Lexes rest ts →
      Stops (ps.flatMap attributeText ++ rest) ∧
        Lexes (ps.flatMap attributeText ++ rest) (ps.flatMap attributeTokens ++ ts)
  | [], _, hs, h => ⟨hs, h⟩
  | p :: ps, hp, hs, h => by
      obtain ⟨-, ih⟩ := lexes_attributes (fun q hq => hp q (List.mem_cons_of_mem p hq)) hs h
      rw [List.flatMap_cons, List.flatMap_cons, List.append_assoc, List.append_assoc]
      exact ⟨stops_cons rfl _, lexes_attribute (hp p List.mem_cons_self) ih⟩

theorem lexes_startTag {kind : Kind} {l : Label} (hf : kind.Fits l.attributes) (hs : Stops rest)
    (h : Lexes rest ts) : Lexes (startTag kind l ++ rest) (startTokens kind l ++ ts) := by
  obtain ⟨hs', h'⟩ := lexes_attributes (fun p hp => isValidKey_of_said hf hp) hs h
  have hn := lexes_openTag (isName_tag kind) hs' h'
  rw [String.ofList_toList] at hn
  rw [startTag_eq]
  unfold startTokens
  simpa only [List.append_assoc, List.cons_append] using hn

theorem lexes_endTag (kind : Kind) (h : Lexes rest ts) :
    Lexes (endTag kind ++ rest) (endTokens kind ++ ts) := by
  have hn := lexes_name (isName_tag kind) (stops_cons rfl rest) (lexes_close h)
  rw [String.ofList_toList] at hn
  unfold endTag endTokens
  simpa only [List.append_assoc, List.cons_append, List.nil_append] using lexes_openEnd hn

end Tags

/-! ## 3. Nodes -/

/-- Characters that may stand between tokens. -/
def Layout (cs : List Char) : Prop := ∀ c ∈ cs, isLayout c = true

instance (cs : List Char) : Decidable (Layout cs) :=
  decidable_of_iff (cs.all isLayout = true) List.all_eq_true

theorem layout_indentation {indent : List Char} (hi : Layout indent) (level : Nat) :
    Layout (indentation indent level) := fun c hc => by
  obtain ⟨cs, hcs, hc⟩ := List.mem_flatten.mp hc
  rw [List.eq_of_mem_replicate hcs] at hc
  exact hi c hc

section Nodes

variable {indent : List Char} {rest : List Char} {ts : List Token}

/-- A line end between two tokens. -/
theorem lexes_lineEnd (h : Lexes rest ts) : Lexes ('\n' :: rest) ts :=
  .layout (next_layout (c := '\n') rfl rest) h

/-- An element without children, on a line of its own. -/
theorem lexes_empty {kind : Kind} {l : Label} (hi : Layout indent) (hf : kind.Fits l.attributes)
    (level : Nat) (h : Lexes rest ts) :
    Lexes (indentation indent level ++ startTag kind l ++ ['/', '>', '\n'] ++ rest)
      (startTokens kind l ++ [.selfClose] ++ ts) := by
  have hl := lexes_startTag hf (stops_cons rfl _) (lexes_selfClose (lexes_lineEnd h))
  have hi' := lexes_layout _ (layout_indentation hi level) hl
  simpa only [List.append_assoc, List.cons_append, List.nil_append] using hi'

mutual

/-- **The lines of a node divide into its tokens**, whatever follows them. -/
theorem lexes_nodeText (hi : Layout indent) : ∀ (n : Node) (level : Nat) {rest : List Char}
    {ts : List Token}, n.Lawful Kind.Fits → Lexes rest ts →
      Lexes (nodeText indent level n ++ rest) (nodeTokens n ++ ts)
  | .leaf k l, level, _, _, hn, h => by
      unfold nodeText nodeTokens
      exact lexes_empty hi (Node.lawful_leaf.mp hn) level h
  | .branch k l [], level, _, _, hn, h => by
      unfold nodeText nodeTokens
      exact lexes_empty hi (Node.lawful_branch.mp hn).1 level h
  | .branch k l (n :: more), level, _, _, hn, h => by
      obtain ⟨h1, -, h3⟩ := Node.lawful_branch.mp hn
      have he := lexes_layout _ (layout_indentation hi level)
        (lexes_endTag (.branch k) (lexes_lineEnd h))
      have hm := lexes_nodesText hi more (level + 1)
        (fun c hc => h3 c (List.mem_cons_of_mem n hc)) he
      have hc := lexes_nodeText hi n (level + 1) (h3 n List.mem_cons_self) hm
      have hs := lexes_startTag h1 (stops_cons rfl _) (lexes_close (lexes_lineEnd hc))
      have hi' := lexes_layout _ (layout_indentation hi level) hs
      unfold nodeText nodeTokens
      simpa only [List.append_assoc, List.cons_append, List.nil_append] using hi'

theorem lexes_nodesText (hi : Layout indent) : ∀ (ns : List Node) (level : Nat) {rest : List Char}
    {ts : List Token}, (∀ n ∈ ns, n.Lawful Kind.Fits) → Lexes rest ts →
      Lexes (nodesText indent level ns ++ rest) (nodesTokens ns ++ ts)
  | [], _, _, _, _, h => by
      unfold nodesText nodesTokens
      exact h
  | n :: more, level, _, _, hn, h => by
      have hm := lexes_nodesText hi more level (fun c hc => hn c (List.mem_cons_of_mem n hc)) h
      unfold nodesText nodesTokens
      rw [List.append_assoc, List.append_assoc]
      exact lexes_nodeText hi n level (hn n List.mem_cons_self) hm

end

/-- **The printed form of a tree divides into the tokens of the tree**, whatever follows it. -/
theorem lexes_printChars_append (hi : Layout indent) {t : Tree} (ht : t.Lawful Kind.Fits)
    (h : Lexes rest ts) : Lexes (printChars indent t ++ rest) (treeTokens t ++ ts) := by
  obtain ⟨hk, hl⟩ := ht
  obtain ⟨h1, -, h3⟩ := Node.lawful_branch.mp hl
  rw [hk] at h1
  have he := lexes_endTag .extension h
  have hm := lexes_nodesText hi t.root.children 1 h3 he
  have hb : Lexes ((if t.root.children.isEmpty then [] else
      '\n' :: nodesText indent 1 t.root.children) ++ (endTag .extension ++ rest))
      (nodesTokens t.root.children ++ (endTokens .extension ++ ts)) := by
    cases hc : t.root.children with
    | nil =>
      rw [hc] at hm
      exact hm
    | cons n more =>
      rw [hc] at hm
      exact lexes_lineEnd hm
  have hs := lexes_startTag h1 (stops_cons rfl _) (lexes_close hb)
  unfold printChars treeTokens
  simpa only [List.append_assoc, List.cons_append, List.nil_append] using hs

end Nodes

end Dialplan.Markup
