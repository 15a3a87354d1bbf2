import Dialplan.Command.Machine
import Dialplan.Command.Run
import Dialplan.Proofs.Building
import Dialplan.Proofs.Folder
import Dialplan.Proofs.RoundTrip
/-!
# Formatting twice

The printed form is a fixed point: what is read from it prints as it was. A file that was formatted
once is therefore left alone ever after.

* `printChars_congr`, `printChars_mended`: printing looks at no number and has mended already;
* `print_of_read_print`: **what is read from a printed form prints as that form**;
* `Settled`: a file that has its printed form but for blanks at its end; `Settled.rewrite_eq` and
  `settled_of_rewrite` say what formatting does to such a file and that it leaves one;
* `format_idempotent`: printed forms are read and printed as they were, and after one formatting of
  a file every other one leaves the disk as it is.
-/

namespace Dialplan.Markup

open Dialplan.Text
open Dialplan.Node (mend mendAttributes wipe)

/-! ## 1. What printing looks at -/

section Indent

variable {indent : List Char}

mutual

theorem nodeText_wiped : ∀ (n : Node) (level : Nat),
    nodeText indent level n.wiped = nodeText indent level n
  | .leaf _ _, _ => rfl
  | .branch _ _ [], _ => rfl
  | .branch k l (n :: rest), level => by
      have hn := nodeText_wiped n (level + 1)
      have hr := nodesText_wipedIn rest (level + 1)
      have hs : startTag (.branch k) (wipe l) = startTag (.branch k) l := rfl
      unfold Node.wiped Node.wipedIn nodeText
      rw [hn, hr, hs]

theorem nodesText_wipedIn : ∀ (ns : List Node) (level : Nat),
    nodesText indent level (Node.wipedIn ns) = nodesText indent level ns
  | [], _ => rfl
  | n :: rest, level => by
      unfold Node.wipedIn nodesText
      rw [nodeText_wiped n level, nodesText_wipedIn rest level]

end

/-- **Printing looks at no number.** -/
theorem printChars_congr {t u : Tree} (h : t.wiped = u.wiped) :
    printChars indent t = printChars indent u := by
  obtain ⟨-, hl, hc⟩ := Node.branch.inj h
  have hs : startTag .extension t.root.label = startTag .extension u.root.label := by
    show startTag .extension (wipe t.root.label) = startTag .extension (wipe u.root.label)
    exact congrArg _ hl
  have hn : nodesText indent 1 t.root.children = nodesText indent 1 u.root.children := by
    rw [← nodesText_wipedIn, ← nodesText_wipedIn u.root.children]
    exact congrArg _ hc
  have he : t.root.children.isEmpty = u.root.children.isEmpty := by
    change Node.wipedIn t.root.children = Node.wipedIn u.root.children at hc
    rw [Node.wipedIn_eq_map, Node.wipedIn_eq_map] at hc
    rw [← List.isEmpty_map (f := Node.wiped), hc, List.isEmpty_map]
  unfold printChars
  rw [hs, hn, he]

/-- What is mended has its `regex`. -/
theorem mendAttributes_mendAttributes (k : Kind) (a : Attributes) :
    mendAttributes k (mendAttributes k a) = mendAttributes k a := by
  refine Node.mendAttributes_of_shown fun hk => ?_
  by_cases hr : a.contains "regex" = true
  · have hm := (Attributes.contains_iff a "regex").mp hr
    rwa [Node.mendAttributes_of_shown fun _ => hm]
  · unfold mendAttributes
    simp [hk, hr, Attributes.keys]

/-- A start tag says what it says of the mended label. -/
theorem startTag_mend (k : Kind) (l : Label) : startTag k (mend k l) = startTag k l := by
  have hm : mend k (mend k l) = mend k l := by
    unfold mend
    rw [mendAttributes_mendAttributes]
  rw [startTag_eq, startTag_eq]
  unfold said
  rw [hm]
  rfl

mutual

theorem nodeText_mended : ∀ (n : Node) (level : Nat),
    nodeText indent level n.mended = nodeText indent level n
  | .leaf _ _, _ => rfl
  | .branch k l [], level => by
      unfold Node.mended Node.mendedIn nodeText
      rw [startTag_mend]
  | .branch k l (n :: rest), level => by
      have hn := nodeText_mended n (level + 1)
      have hr := nodesText_mendedIn rest (level + 1)
      unfold Node.mended Node.mendedIn nodeText
      rw [hn, hr, startTag_mend]

theorem nodesText_mendedIn : ∀ (ns : List Node) (level : Nat),
    nodesText indent level (Node.mendedIn ns) = nodesText indent level ns
  | [], _ => rfl
  | n :: rest, level => by
      unfold Node.mendedIn nodesText
      rw [nodeText_mended n level, nodesText_mendedIn rest level]

end

/-- **Printing mends**, so a mended tree prints as it did before. -/
theorem printChars_mended {t : Tree} (hk : t.root.kind = .extension) :
    printChars indent t.mended = printChars indent t := by
  have hs : startTag .extension t.mended.root.label = startTag .extension t.root.label := by
    unfold Tree.mended
    rw [hk]
    exact startTag_mend .extension t.root.label
  have he : t.mended.root.children.isEmpty = t.root.children.isEmpty := by
    show (Node.mendedIn t.root.children).isEmpty = _
    rw [Node.mendedIn_eq_map, List.isEmpty_map]
  have hn : nodesText indent 1 t.mended.root.children = nodesText indent 1 t.root.children :=
    nodesText_mendedIn t.root.children 1
  unfold printChars
  rw [hs, hn, he]

end Indent

/-! ## 2. Printed forms are fixed points -/

/-- The tree that is read from a printed form prints as that form. -/
theorem print_mended_renumbered (indent : String) {t : Tree} (hk : t.root.kind = .extension) :
    print indent t.mended.renumbered = print indent t := by
  unfold print
  rw [printChars_congr t.mended.wiped_renumbered, printChars_mended hk]

/-- **What is read from a printed form prints as that form**, also when layout follows the form. -/
theorem print_of_read_print {text : String} {t : Tree} (h : read text = .ok t) {indent : String}
    (hi : Layout indent.toList) (tail : String) (hl : Layout tail.toList) :
    ∃ u, read (print indent t ++ tail) = .ok u ∧ print indent u = print indent t := by
  have hlaw := lawful_of_read h
  exact ⟨_, read_print_append hi hlaw tail hl, print_mended_renumbered indent hlaw.1⟩

/-- Blanks after a character that is none are all that is taken off the end. -/
theorem trimEnd_append {cs blanks : List Char} {c : Char} (hc : isBlank c = false)
    (hb : ∀ b ∈ blanks, isBlank b = true) : trimEnd (cs ++ c :: blanks) = cs ++ [c] := by
  have hr : (cs ++ c :: blanks).reverse = blanks.reverse ++ c :: cs.reverse := by simp
  unfold trimEnd
  rw [hr, List.dropWhile_append_of_pos fun b h => hb b (List.mem_reverse.mp h),
    List.dropWhile_cons_of_neg (by simp [hc]), List.reverse_cons, List.reverse_reverse]

/-- A printed form ends in a mark, so a line end after it is taken off again. -/
theorem trimmedEnd_print (indent : String) (t : Tree) :
    trimmedEnd (print indent t ++ "\n") = print indent t := by
  obtain ⟨cs, hcs⟩ : ∃ cs, printChars indent.toList t = cs ++ ['>'] := by
    unfold printChars endTag
    rw [← List.append_assoc]
    exact ⟨_, rfl⟩
  have ht : (print indent t ++ "\n").toList = cs ++ '>' :: ['\n'] := by
    unfold print
    rw [String.toList_append, String.toList_ofList, hcs, List.append_assoc]
    rfl
  have hb : ∀ b ∈ ['\n'], isBlank b = true := fun b hb => by
    rw [List.mem_singleton.mp hb]
    decide
  unfold trimmedEnd
  rw [ht, trimEnd_append (by decide) hb, ← hcs]
  rfl

end Dialplan.Markup

/-! ## 3. Files of a machine -/

namespace Dialplan.Command

namespace Machine

variable {s s' : Machine} {path text : String}

/-- What can be read at the end of a path is a file at the place it leads to. -/
theorem readText_eq_some_iff : s.readText path = some text ↔
    ∃ place, s.place? path = some place ∧ s.disk.at? place = some (.file text) := by
  unfold readText entry?
  cases hp : s.place? path with
  | none => simp
  | some place =>
    cases he : s.disk.at? place with
    | none => simp [he]
    | some e => cases e <;> simp [he]

/-- A write leaves a disk with the file and nothing else of the machine changed. -/
theorem write?_eq_some (h : s.write? path text = some s') :
    ∃ place disk, s.place? path = some place ∧ s.disk.put? text place = some disk ∧
      s' = { s with disk := disk } := by
  obtain ⟨place, hp, hw⟩ := Option.bind_eq_some_iff.mp h
  split at hw
  · cases hw
  · obtain ⟨disk, hd, rfl⟩ := Option.map_eq_some_iff.mp hw
    exact ⟨place, disk, hp, hd, rfl⟩

/-- A path leads where it led before. -/
theorem place?_write? (h : s.write? path text = some s') (other : String) :
    s'.place? other = s.place? other := by
  obtain ⟨place, disk, -, hd, rfl⟩ := write?_eq_some h
  unfold place?
  simp only [Entry.resolve?_put? hd]

/-- **What was written is what is read.** -/
theorem readText_write? (h : s.write? path text = some s') : s'.readText path = some text := by
  obtain ⟨place, disk, hp, hd, rfl⟩ := write?_eq_some h
  refine readText_eq_some_iff.mpr ⟨place, ?_, Entry.at?_put?_self hd⟩
  rw [place?_write? h path]
  exact hp

/-- A file that can be read can be written, if its name is one that a disk takes. -/
theorem exists_write? {old : String} (h : s.readText path = some old)
    (hn : ∀ place, s.place? path = some place → Entry.tooLong place = false) (text : String) :
    ∃ s', s.write? path text = some s' := by
  obtain ⟨place, hp, hf⟩ := readText_eq_some_iff.mp h
  obtain ⟨disk, hd⟩ := Entry.exists_put?_of_file text hf
  refine ⟨{ s with disk := disk }, ?_⟩
  unfold write?
  simp [hp, hn place hp, hd]

/-- The machine after a line was printed. -/
def saying (s : Machine) (line : String) : Machine := { s with out := s.out ++ (line ++ "\n") }

end Machine

/-! ## 4. Parts of commands on a machine -/

section Work

variable {α β : Type}

/-- What a part of a command gives on a machine: how it went and the machine after it. -/
def on (w : Work (StateM Machine) α) (s : Machine) : Except Fault α × Machine := w.run s

/-- The second of two parts runs on the machine that the first one leaves. -/
theorem on_bind (w : Work (StateM Machine) α) (f : α → Work (StateM Machine) β) (s : Machine) :
    on (w >>= f) s =
      match on w s with
      | (.ok a, s') => on (f a) s'
      | (.error fault, s') => (.error fault, s') := by
  show (ExceptT.bindCont f (w.run s).1 (w.run s).2 : Except Fault β × Machine) = _
  unfold on
  rcases w.run s with ⟨_ | _, _⟩ <;> rfl

theorem on_lift (w : StateM Machine α) (s : Machine) :
    on (ExceptT.lift w) s = (.ok (w s).1, (w s).2) := rfl

theorem on_say (line : String) (s : Machine) : on (say line) s = (.ok (), s.saying line) := rfl

theorem on_keep (path text : String) (s : Machine) :
    on (keep path text) s =
      match s.write? path (text ++ "\n") with
      | some s' => (.ok (), s')
      | none => (.error (.unavailable path), s) := by
  unfold keep
  rw [on_bind, on_lift]
  cases h : s.write? path (text ++ "\n") with
  | none =>
    simp only [Host.writeText, h]
    rfl
  | some s' =>
    simp only [Host.writeText, h]
    rfl

theorem on_readTree {path text : String} {t : Tree} {s : Machine}
    (hs : s.readText path = some text) (ht : Markup.read text = .ok t) :
    on (readTree path) s = (.ok (text, t), s) := by
  have hn : on (need path (.unreadable path)) s = (.ok text, s) := by
    unfold need
    rw [on_bind, on_lift]
    simp only [Host.readText, hs]
    rfl
  unfold readTree
  rw [on_bind, hn]
  simp only [ht]
  rfl

end Work

/-! ## 5. Formatting a file in its place -/

/-- One formatting of a file in its place: how it went and the machine after it. -/
def rewrite (p : Project) (path : String) (s : Machine) : Except Fault Unit × Machine :=
  on (format p path true) s

/-- What is said of a file that is left as it is. -/
def unchanged (path : String) : String := "✓ " ++ path ++ " (unchanged)"

/-- **A file that has its printed form** `form`, but for blanks at its end. -/
def Settled (p : Project) (path form : String) (s : Machine) : Prop :=
  ∃ text t, s.readText path = some text ∧ Markup.read text = .ok t ∧
    Markup.print p.indent t = form ∧ Text.trimmedEnd text = form

variable {p : Project} {path text form : String} {t : Tree} {s s' : Machine}

/-- **All that formatting does with a file that holds a rule set.** -/
theorem rewrite_eq (hs : s.readText path = some text) (ht : Markup.read text = .ok t) :
    rewrite p path s =
      if Text.trimmedEnd text = Markup.print p.indent t then (.ok (), s.saying (unchanged path))
      else match s.write? path (Markup.print p.indent t ++ "\n") with
        | some s' => (.ok (), s'.saying ("✓ Formatted " ++ path))
        | none => (.error (.unavailable path), s) := by
  unfold rewrite format
  rw [on_bind, on_readTree hs ht]
  simp only [Bool.not_true, Bool.false_eq_true, if_false]
  split
  · exact on_say _ s
  · rw [on_bind, on_keep]
    cases s.write? path (Markup.print p.indent t ++ "\n") with
    | none => rfl
    | some s' => exact on_say _ s'

/-- A settled file is left as it is. -/
theorem Settled.rewrite_eq (h : Settled p path form s) :
    rewrite p path s = (.ok (), s.saying (unchanged path)) := by
  obtain ⟨text, t, hs, ht, hp, hd⟩ := h
  rw [Command.rewrite_eq hs ht, if_pos (hd.trans hp.symm)]

/-- **Formatting settles a file.** -/
theorem settled_of_rewrite (hs : s.readText path = some text) (ht : Markup.read text = .ok t)
    (hi : Markup.Layout p.indent.toList) (h : rewrite p path s = (.ok (), s')) :
    Settled p path (Markup.print p.indent t) s' := by
  rw [Command.rewrite_eq hs ht] at h
  split at h
  · rename_i hd
    cases h
    exact ⟨text, t, hs, ht, rfl, hd⟩
  · split at h
    · rename_i written hw
      cases h
      obtain ⟨u, hu, hp⟩ := Markup.print_of_read_print ht hi "\n" (by decide)
      have hr : written.readText path = some (Markup.print p.indent t ++ "\n") :=
        Machine.readText_write? hw
      exact ⟨_, u, hr, hu, hp, Markup.trimmedEnd_print p.indent t⟩
    · cases h

/-- Formatting goes well where the disk takes the file's name. -/
theorem exists_rewrite (hs : s.readText path = some text) (ht : Markup.read text = .ok t)
    (hn : ∀ place, s.place? path = some place → Entry.tooLong place = false) :
    ∃ s', rewrite p path s = (.ok (), s') := by
  rw [Command.rewrite_eq hs ht]
  split
  · exact ⟨_, rfl⟩
  · obtain ⟨s', hw⟩ := Machine.exists_write? hs hn (Markup.print p.indent t ++ "\n")
    rw [hw]
    exact ⟨_, rfl⟩

/-- The machine after formatting a file a number of times. -/
def rewrites (p : Project) (path : String) : Nat → Machine → Machine
  | 0, s => s
  | n + 1, s => rewrites p path n (rewrite p path s).2

/-- **Once settled, always settled**: whatever the number of formattings, the machine differs in
    what it has printed alone. -/
theorem Settled.rewrites (h : Settled p path form s) (n : Nat) :
    Settled p path form (rewrites p path n s) ∧
      ∃ out, rewrites p path n s = { s with out := out } := by
  induction n generalizing s with
  | zero => exact ⟨h, s.out, rfl⟩
  | succ n ih =>
    have hs : Settled p path form (s.saying (unchanged path)) := h
    obtain ⟨hr, out, ho⟩ := ih hs
    unfold Command.rewrites
    rw [h.rewrite_eq]
    exact ⟨hr, out, ho⟩

/-- **Formatting is idempotent.** For a text that is read and an indent of layout, the printed form
    is read and prints as it was, with or without a line end after it. So after one formatting of a
    file with that text the file has that form but for its end, and every further formatting says
    that the file is unchanged and leaves the disk as it is. The first one goes well where the disk
    takes the file's name. -/
theorem format_idempotent {text : String} {t : Tree} (h : Markup.read text = .ok t)
    {indent : String} (hi : Markup.Layout indent.toList) :
    (∃ u, Markup.read (Markup.print indent t) = .ok u ∧
      Markup.print indent u = Markup.print indent t) ∧
    (∃ u, Markup.read (Markup.print indent t ++ "\n") = .ok u ∧
      Markup.print indent u = Markup.print indent t) ∧
    ∀ (p : Project) (path : String) (s : Machine), p.indent = indent →
      s.readText path = some text →
        ((∀ place, s.place? path = some place → Entry.tooLong place = false) →
          ∃ s', rewrite p path s = (.ok (), s')) ∧
        ∀ s', rewrite p path s = (.ok (), s') →
          (∃ kept, s'.readText path = some kept ∧
            Text.trimmedEnd kept = Markup.print indent t) ∧
          ∀ n : Nat, (rewrites p path n s').disk = s'.disk ∧
            rewrite p path (rewrites p path n s') =
              (.ok (), (rewrites p path n s').saying (unchanged path)) := by
  refine ⟨?_, Markup.print_of_read_print h hi "\n" (by decide), ?_⟩
  · have hp := Markup.print_of_read_print h hi "" (by decide)
    rwa [String.append_empty] at hp
  · rintro p path s rfl hs
    refine ⟨exists_rewrite hs h, fun s' hr => ?_⟩
    have hset := settled_of_rewrite hs h hi hr
    refine ⟨?_, fun n => ?_⟩
    · obtain ⟨kept, u, hk, -, -, hd⟩ := hset
      exact ⟨kept, hk, hd⟩
    obtain ⟨hn, out, ho⟩ := hset.rewrites n
    refine ⟨?_, hn.rewrite_eq⟩
    rw [ho]

/-- A machine with `unshownText` in a file of its working folder. -/
def unshownMachine : Machine := .new (.folder [("r", .file Markup.unshownText)]) []

theorem place?_unshownMachine : unshownMachine.place? "r" = some ["r"] := by
  have h1 : "r".startsWith "/" = false := by cbv
  have h2 : FilePath.steps "r" = ["r"] := by cbv
  unfold Machine.place?
  rw [h1, h2]
  rfl

/-- A rule set that printing adds an attribute to: the first formatting writes it, and no other one
    changes anything. -/
theorem format_idempotent_unshown : Markup.read Markup.unshownText = .ok Markup.unshownTree ∧
    Markup.Layout Project.standard.indent.toList ∧
    unshownMachine.readText "r" = some Markup.unshownText ∧
    ∃ s', rewrite .standard "r" unshownMachine = (.ok (), s') ∧
      ∀ n : Nat, (rewrites .standard "r" n s').disk = s'.disk := by
  have hi : Markup.Layout Project.standard.indent.toList := by decide
  have hp := place?_unshownMachine
  have hs : unshownMachine.readText "r" = some Markup.unshownText :=
    Machine.readText_eq_some_iff.mpr ⟨_, hp, rfl⟩
  obtain ⟨-, -, h⟩ := format_idempotent Markup.read_unshownText hi
  obtain ⟨hok, hrest⟩ := h .standard "r" unshownMachine rfl hs
  obtain ⟨s', hs'⟩ := hok fun place hplace => by
    rw [hp] at hplace
    cases hplace
    decide
  exact ⟨Markup.read_unshownText, hi, hs, s', hs', fun n => ((hrest s' hs').2 n).1⟩

end Dialplan.Command
