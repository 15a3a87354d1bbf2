import Dialplan.Proofs.FolderStore
/-!
# Saves that break off

A save into a folder makes the folder, writes the markup and then the metadata, and stops at the
first step that fails. What a load gives after a failed save is settled by how far the save came:
until the markup is written nothing is lost, and from then on the new markup stands beside the
metadata of the save before.

* `Alike`: two folders with the same entries but for some names, and so with the same loads;
* `Takes`: a file can be written under a name; `write_of_takes`, `write_of_not_takes`;
* `TakesMarkup`: a save comes as far as its metadata; `save_with_markup`, `save_without_markup`;
* `load_after_failed_save`: what a load gives after a failed save, and when that is what it gave
  before;
* `save_at_limit`: a save fails so where only the name of its metadata is too long for the disk;
* `failed_save_loses`: a failed save may lose what was stored.
-/

namespace Dialplan.FolderStore

variable {f g : FolderStore} {id : String} {r : Stored}

/-! ## 1. Folders that differ in a few files -/

/-- Two folders at the same place of two disks, with the same entries but for some names. -/
structure Alike (f g : FolderStore) (but : List String) : Prop where
  place : g.place = f.place
  entries (name : String) :
    name ∉ but → g.disk.at? (f.place ++ [name]) = f.disk.at? (f.place ++ [name])

namespace Alike

variable {but : List String}

theorem loadMetadata (h : f.Alike g but) (hj : id ++ ".json" ∉ but) :
    g.loadMetadata id = f.loadMetadata id := by
  unfold FolderStore.loadMetadata Entry.has Entry.text? metadataPlace
  rw [h.place, h.entries _ hj]

/-- **Loads give the same, if the two files of the id are the same.** -/
theorem load (h : f.Alike g but) (hx : id ++ ".xml" ∉ but) (hj : id ++ ".json" ∉ but) :
    g.load id = f.load id := by
  unfold FolderStore.load Entry.has Entry.text? markupPlace
  rw [h.place, h.entries _ hx, h.loadMetadata hj]

/-- A file that only one of two steps changed. -/
theorem trans {g' : FolderStore} (h : f.Alike g []) (h' : g.Alike g' but) : f.Alike g' but where
  place := h'.place.trans h.place
  entries name hn := by
    have hg := h'.entries name hn
    rw [h.place] at hg
    rw [hg, h.entries name List.not_mem_nil]

end Alike

/-- A rule set with markup has the metadata that stand beside it. -/
theorem load_of_markup {markup : String} (hid : Nameable id)
    (hx : f.disk.at? (f.markupPlace id) = some (.file markup)) :
    f.load id = (f.loadMetadata id).map fun m => ⟨markup, m⟩ := by
  unfold load Entry.has Entry.text?
  rw [if_pos ((isValidId_iff id).mpr hid), hx]
  rfl

theorem load_of_no_markup (hid : Nameable id) (hx : f.disk.at? (f.markupPlace id) = none) :
    f.load id = .error (.notFound id) := by
  unfold load Entry.has
  rw [if_pos ((isValidId_iff id).mpr hid), hx]
  rfl

/-- Metadata are never what is not found. -/
theorem loadMetadata_ne_notFound (f : FolderStore) (id other : String) :
    f.loadMetadata id ≠ .error (.notFound other) := by
  unfold loadMetadata metadataOf
  split
  · split
    · split <;> nofun
    · nofun
  · nofun

/-- A fault is not changed by the markup beside it. -/
theorem eq_error_of_map {m : Except StoreFault Metadata} {markup : String} {e : StoreFault}
    (h : (m.map fun m => Stored.mk markup m) = .error e) : m = .error e := by
  cases m with
  | ok m => cases h
  | error e' =>
    cases h
    rfl

/-- Two markups beside the same metadata are told apart where there are metadata. -/
theorem map_beside_eq_iff {m : Except StoreFault Metadata} {markup old : String} :
    ((m.map fun m => Stored.mk markup m) = m.map fun m => ⟨old, m⟩) ↔
      old = markup ∨ m.isOk = false := by
  cases m with
  | ok m => simp [Except.map, Except.isOk, Except.toBool, eq_comm]
  | error e => simp [Except.map, Except.isOk, Except.toBool]

/-! ## 2. One write -/

/-- **A file can be written under a name**, in a folder that is there: the disk takes it, and the
    name is not that of a folder. -/
def Takes (f : FolderStore) (name : String) : Prop :=
  f.refuses (f.place ++ [name]) = false ∧ f.Writable name

theorem write_of_takes {name : String} (hf : f.disk.isFolderAt f.place = true) (h : f.Takes name)
    (content : String) :
    ∃ disk, f.write (f.place ++ [name]) content = (.ok (), { f with disk := disk }) ∧
      f.Alike { f with disk := disk } [name] ∧ disk.isFolderAt f.place = true ∧
      disk.at? (f.place ++ [name]) = some (.file content) := by
  obtain ⟨disk, hwrite, hfolder, hself, hrest⟩ := write_beside content hf h.1 h.2
  have halike : f.Alike { f with disk := disk } [name] :=
    ⟨rfl, fun other ho => hrest other fun he => ho (by simp [he])⟩
  exact ⟨disk, hwrite, halike, hfolder, hself⟩

/-- A write that fails leaves everything as it was. -/
theorem write_of_not_takes {name : String} (h : ¬ f.Takes name) (content : String) :
    f.write (f.place ++ [name]) content = (.error .unavailable, f) := by
  unfold write
  cases hr : f.refuses (f.place ++ [name]) with
  | true => rfl
  | false =>
    have hfolder : f.disk.isFolderAt (f.place ++ [name]) = true := by
      unfold Entry.isFolderAt
      cases hat : f.disk.at? (f.place ++ [name]) with
      | none => exact absurd ⟨hr, .inl hat⟩ h
      | some e =>
        cases e with
        | file old => exact absurd ⟨hr, .inr ⟨old, hat⟩⟩ h
        | folder members => rfl
    rw [Entry.put?_of_folder content hfolder]
    rfl

/-! ## 3. How far a save comes -/

/-- **A save gets its markup onto the disk**: the id can be part of a file name, the folder is there
    or can be made, and the file of the markup can be written. -/
structure TakesMarkup (f : FolderStore) (id : String) : Prop where
  nameable : Nameable id
  folder : f.disk.makeFolders? f.place ≠ none
  file : f.Takes (id ++ ".xml")

/-- The folder is made, and what is in it stays. -/
theorem prepare_of_makeFolders? {disk : Entry} (h : f.disk.makeFolders? f.place = some disk) :
    f.prepare = (.ok (), { f with disk := disk }) ∧ f.Alike { f with disk := disk } [] := by
  refine ⟨?_, rfl, fun name _ => Entry.at?_makeFolders? name h⟩
  unfold prepare
  rw [h]

theorem takes_iff_of_alike {disk : Entry} {name : String} {but : List String}
    (h : f.Alike { f with disk := disk } but) (hn : name ∉ but) :
    Takes { f with disk := disk } name ↔ f.Takes name := by
  unfold Takes Writable
  rw [← h.entries name hn]

/-- **Without the markup a save changes no file.** -/
theorem save_without_markup (h : ¬ f.TakesMarkup id) (r : Stored) :
    ∃ e g, f.save id r = (.error e, g) ∧ f.Alike g [] := by
  unfold save
  by_cases hid : Nameable id
  · rw [if_pos ((isValidId_iff id).mpr hid)]
    cases hm : f.disk.makeFolders? f.place with
    | none =>
      refine ⟨.unavailable, f, ?_, rfl, fun _ _ => rfl⟩
      unfold prepare
      rw [hm]
    | some disk =>
      obtain ⟨hprepare, halike⟩ := prepare_of_makeFolders? hm
      have hfile : ¬ Takes { f with disk := disk } (id ++ ".xml") := by
        rw [takes_iff_of_alike halike List.not_mem_nil]
        exact fun ht => h ⟨hid, by simp [hm], ht⟩
      have hwrite := write_of_not_takes hfile r.markup
      refine ⟨.unavailable, { f with disk := disk }, ?_, halike⟩
      rw [hprepare]
      simp only [markupPlace, hwrite]
  · refine ⟨.invalidId id, f, ?_, rfl, fun _ _ => rfl⟩
    rw [if_neg fun hv => hid ((isValidId_iff id).mp hv)]

/-- **With the markup on the disk a save goes on to the metadata.** -/
theorem save_with_markup (h : f.TakesMarkup id) (r : Stored) :
    ∃ disk, f.Alike { f with disk := disk } [id ++ ".xml"] ∧ disk.isFolderAt f.place = true ∧
      disk.at? (f.markupPlace id) = some (.file r.markup) ∧
      f.save id r = write { f with disk := disk } (f.metadataPlace id)
        (Exchange.ofMetadata r.metadata).pretty := by
  obtain ⟨made, hm⟩ := Option.ne_none_iff_exists'.mp h.folder
  obtain ⟨hprepare, halike⟩ := prepare_of_makeFolders? hm
  have htakes : Takes { f with disk := made } (id ++ ".xml") :=
    (takes_iff_of_alike halike List.not_mem_nil).mpr h.file
  obtain ⟨disk, hwrite, hbut, hfolder, hself⟩ :=
    write_of_takes (Entry.isFolderAt_makeFolders? hm) htakes r.markup
  refine ⟨disk, halike.trans hbut, hfolder, hself, ?_⟩
  unfold save
  rw [if_pos ((isValidId_iff id).mpr h.nameable), hprepare]
  simp only [markupPlace, hwrite, metadataPlace]

/-- The name of the metadata is not that of the markup. -/
theorem json_not_mem (id other : String) : other ++ ".json" ∉ [id ++ ".xml"] := by
  rw [List.mem_singleton]
  exact (xml_ne_json id other).symm

/-- A save that gets its markup onto the disk fails where its metadata are not taken, and leaves the
    new markup beside the metadata that were there. -/
theorem save_broken (h : f.TakesMarkup id) (r : Stored) (hj : ¬ f.Takes (id ++ ".json")) :
    ∃ g, f.save id r = (.error .unavailable, g) ∧ f.Alike g [id ++ ".xml"] ∧
      g.disk.at? (g.markupPlace id) = some (.file r.markup) := by
  obtain ⟨disk, halike, -, hself, hsave⟩ := save_with_markup h r
  refine ⟨{ f with disk := disk }, ?_, halike, hself⟩
  have hj' := mt (takes_iff_of_alike halike (json_not_mem id id)).mp hj
  rw [hsave]
  exact write_of_not_takes hj' _

/-- **When a save is done**: markup and metadata can both be written. -/
theorem save_eq_ok_iff (f : FolderStore) (id : String) (r : Stored) :
    (f.save id r).1 = .ok () ↔ f.TakesMarkup id ∧ f.Takes (id ++ ".json") := by
  constructor
  · intro h
    have hm : f.TakesMarkup id := by
      by_contra hm
      obtain ⟨e, g, hsave, -⟩ := save_without_markup hm r
      rw [hsave] at h
      cases h
    refine ⟨hm, ?_⟩
    by_contra hj
    obtain ⟨g, hsave, -⟩ := save_broken hm r hj
    rw [hsave] at h
    cases h
  · rintro ⟨hm, hj⟩
    obtain ⟨disk, halike, hfolder, -, hsave⟩ := save_with_markup hm r
    obtain ⟨_, hwrite, -⟩ := write_of_takes hfolder
      ((takes_iff_of_alike halike (json_not_mem id id)).mpr hj)
      (Exchange.ofMetadata r.metadata).pretty
    rw [hsave]
    exact congrArg Prod.fst hwrite

/-! ## 4. Failed saves -/

/-- What a load gives where the markup of an id can be written: nothing is found, or there is a
    markup with the metadata that stand beside it. -/
theorem load_of_takes (hid : Nameable id) (h : f.Takes (id ++ ".xml")) :
    (f.disk.text? (f.markupPlace id) = none ∧ f.load id = .error (.notFound id)) ∨
      ∃ old, f.disk.text? (f.markupPlace id) = some old ∧
        f.load id = (f.loadMetadata id).map fun m => ⟨old, m⟩ := by
  rcases h.2 with hx | ⟨old, hx⟩
  · refine .inl ⟨?_, load_of_no_markup hid hx⟩
    unfold Entry.text? markupPlace
    rw [hx]
  · refine .inr ⟨old, ?_, load_of_markup hid hx⟩
    unfold Entry.text? markupPlace
    rw [hx]

/-- **What a failed save leaves.** If the markup could not be written, every load gives what it gave
    before. If it was written, and the metadata could not be, a load of the id gives the new markup
    with the metadata from before; that is what it gave before only if there was the same markup
    already, or a markup beside metadata that cannot be read. Other ids are not touched. -/
theorem load_after_failed_save {e : StoreFault} (h : (f.save id r).1 = .error e) :
    let g := (f.save id r).2
    (¬ f.TakesMarkup id → ∀ other, g.load other = f.load other) ∧
    (f.TakesMarkup id →
      g.load id = (f.loadMetadata id).map (fun m => ⟨r.markup, m⟩) ∧
      (g.load id = f.load id ↔ ∃ old, f.disk.text? (f.markupPlace id) = some old ∧
        (old = r.markup ∨ (f.loadMetadata id).isOk = false)) ∧
      ∀ other, other ≠ id → g.load other = f.load other) := by
  intro g
  constructor
  · intro hm other
    obtain ⟨e', g', hsave, halike⟩ := save_without_markup hm r
    have hg : g = g' := congrArg Prod.snd hsave
    rw [hg]
    exact halike.load List.not_mem_nil List.not_mem_nil
  · intro hm
    have hj : ¬ f.Takes (id ++ ".json") := by
      intro hj
      rw [(save_eq_ok_iff f id r).mpr ⟨hm, hj⟩] at h
      cases h
    obtain ⟨g', hsave, halike, hself⟩ := save_broken hm r hj
    have hg : g = g' := congrArg Prod.snd hsave
    have hload : g.load id = (f.loadMetadata id).map fun m => ⟨r.markup, m⟩ := by
      rw [hg, load_of_markup hm.nameable hself, halike.loadMetadata (json_not_mem id id)]
    refine ⟨hload, ?_, fun other ho => ?_⟩
    · rw [hload]
      rcases load_of_takes hm.nameable hm.file with ⟨hnone, hf⟩ | ⟨old, hold, hf⟩
      · -- nothing was found before, and metadata are no way to find nothing
        rw [hf, hnone]
        refine iff_of_false (fun he => ?_) (fun ⟨_, h, _⟩ => by cases h)
        exact f.loadMetadata_ne_notFound id id (eq_error_of_map he)
      · rw [hf, hold, map_beside_eq_iff]
        simp
    · rw [hg]
      refine halike.load ?_ (json_not_mem id other)
      rw [List.mem_singleton]
      exact append_ne_append ho ".xml"

/-- A folder `store` on a disk that does not take the metadata of the rule set `day`, with one that
    was saved there before. -/
def lockedFolder : FolderStore where
  disk := .folder [("store", .folder [("day.xml", .file "<extension name=\"old\"/>"),
    ("day.json", .file (Exchange.ofMetadata { Metadata.standard with name := "old" }).pretty)])]
  place := ["store"]
  refuses place := place = ["store", "day.json"]

/-- A new rule set `day`. -/
def newDay : Stored := ⟨"<extension name=\"new\"/>", { Metadata.standard with name := "new" }⟩

theorem takesMarkup_lockedFolder : lockedFolder.TakesMarkup "day" :=
  ⟨by decide, nofun, rfl, .inr ⟨_, rfl⟩⟩

theorem not_takes_lockedFolder : ¬ lockedFolder.Takes ("day" ++ ".json") :=
  fun h => absurd h.1 (by decide)

theorem load_after_failed_save_day :
    (lockedFolder.save "day" newDay).1 = .error .unavailable ∧
    lockedFolder.TakesMarkup "day" ∧
    (lockedFolder.save "day" newDay).2.load "day" =
      (lockedFolder.loadMetadata "day").map fun m => ⟨newDay.markup, m⟩ := by
  obtain ⟨_, hsave, -⟩ := save_broken takesMarkup_lockedFolder newDay not_takes_lockedFolder
  have h : (lockedFolder.save "day" newDay).1 = .error .unavailable := by rw [hsave]
  exact ⟨h, takesMarkup_lockedFolder, ((load_after_failed_save h).2 takesMarkup_lockedFolder).1⟩

theorem refuses_standardFolder (name : String) :
    standardFolder.refuses (standardFolder.place ++ [name]) = decide (name.utf8ByteSize > 255) := by
  show Entry.tooLong ["store", name] = _
  have hstore : "store".utf8ByteSize = 5 := by decide +kernel
  simp [Entry.tooLong, Entry.nameLimit, hstore]

/-- **Ids at the limit.** Behind an id of 251 bytes there is room for the ending of the markup, and
    one byte less than the ending of the metadata takes. -/
theorem save_at_limit (hid : Nameable id) (hsize : id.utf8ByteSize = 251) (r : Stored) :
    (standardFolder.save id r).1 = .error .unavailable ∧
    standardFolder.load id = .error (.notFound id) ∧
    (standardFolder.save id r).2.load id = .ok ⟨r.markup, .standard⟩ := by
  have hxml : (id ++ ".xml").utf8ByteSize = 255 := by
    rw [String.utf8ByteSize_append, hsize]
    decide +kernel
  have hjson : (id ++ ".json").utf8ByteSize = 256 := by
    rw [String.utf8ByteSize_append, hsize]
    decide +kernel
  have hm : standardFolder.TakesMarkup id :=
    ⟨hid, nofun, by rw [refuses_standardFolder, hxml]; rfl, .inl rfl⟩
  have hj : ¬ standardFolder.Takes (id ++ ".json") := by
    rintro ⟨hr, -⟩
    rw [refuses_standardFolder, hjson] at hr
    cases hr
  obtain ⟨g, hsave, halike, hself⟩ := save_broken hm r hj
  refine ⟨by rw [hsave], load_of_no_markup hid rfl, ?_⟩
  rw [hsave]
  show g.load id = _
  rw [load_of_markup hid hself, halike.loadMetadata (json_not_mem id id)]
  rfl

/-- The size of an id that is one letter over and over. -/
theorem utf8ByteSize_replicate (n : Nat) :
    (String.ofList (List.replicate n 'a')).utf8ByteSize = n := by
  induction n with
  | zero => rfl
  | succ n ih =>
    rw [List.replicate_succ, String.ofList_cons, String.utf8ByteSize_append, ih,
      String.utf8ByteSize_singleton, Nat.add_comm]
    rfl

theorem nameable_replicate (n : Nat) : Nameable (.ofList (List.replicate (n + 1) 'a')) := by
  refine ⟨fun h => ?_, fun c hc => .inl ?_⟩
  · have hempty := utf8ByteSize_replicate (n + 1)
    rw [h] at hempty
    cases hempty
  · rw [String.toList_ofList] at hc
    rw [List.eq_of_mem_replicate hc]
    rfl

/-- **A failed save may lose what was stored**: a new markup stands beside old metadata, and a rule
    set that was not there is found. -/
theorem failed_save_loses :
    let name : String := .ofList (List.replicate 251 'a')
    ((standardFolder.save name newDay).1 = .error .unavailable ∧
      standardFolder.load name = .error (.notFound name) ∧
      (standardFolder.save name newDay).2.load name = .ok ⟨newDay.markup, .standard⟩) ∧
    (lockedFolder.save "day" newDay).1 = .error .unavailable ∧
      lockedFolder.load "day" =
        .ok ⟨"<extension name=\"old\"/>", { Metadata.standard with name := "old" }⟩ ∧
      (lockedFolder.save "day" newDay).2.load "day" =
        .ok ⟨"<extension name=\"new\"/>", { Metadata.standard with name := "old" }⟩ := by
  have hold : lockedFolder.disk.at? (lockedFolder.metadataPlace "day") =
      some (.file (Exchange.ofMetadata { Metadata.standard with name := "old" }).pretty) := rfl
  have hmetadata : lockedFolder.loadMetadata "day" =
      .ok { Metadata.standard with name := "old" } := by
    unfold loadMetadata Entry.has Entry.text?
    rw [hold, Option.isSome_some, if_pos rfl]
    exact metadataOf_pretty (by decide)
  have hm := takesMarkup_lockedFolder
  obtain ⟨g, hsave, halike, hself⟩ := save_broken hm newDay not_takes_lockedFolder
  refine ⟨save_at_limit (nameable_replicate 250) (utf8ByteSize_replicate 251) newDay,
    by rw [hsave], ?_, ?_⟩
  · rw [load_of_markup hm.nameable rfl, hmetadata]
    rfl
  · rw [hsave]
    show g.load "day" = _
    rw [load_of_markup hm.nameable hself, halike.loadMetadata (json_not_mem "day" "day"), hmetadata]
    rfl

end Dialplan.FolderStore
