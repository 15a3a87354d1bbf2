import Dialplan.Proofs.Folder
import Dialplan.Proofs.JsonText
import Dialplan.Proofs.SaveOutcome
/-!
# Rule sets in a folder

A folder keeps two files for every rule set, its markup and its metadata. Seen through saves and
loads it cannot be told from the store in memory, as long as the disk takes the files.

* `metadataOf_pretty`: metadata are read from their file as they were written;
* `Nameable`: the ids that can be part of a file name; any other is turned away before the disk is
  looked at (`invalid_of_not_nameable`);
* `write_beside`: what one write leaves of the files in the folder;
* `Request`, `Store.answers`: saves and loads one after another, with what the store answers;
* `FolderStore.Mirrors`: the folder has the two files of every rule set on the shelf and no others
  that an id could name; a save keeps it so (`Mirrors.save`), and loads give the same
  (`Mirrors.load`);
* `FolderStore.answers_eq_shelf`: the two stores give the same answers.
-/

namespace Dialplan

/-! ## 1. The file of the metadata -/

namespace Exchange

open Json

/-- Metadata are what their columns are read as. -/
theorem metadata?_of_columns {j : Json} {m : Metadata}
    {name number context continues order enabled description destination : Cell}
    (h : columns? [["name"], ["number"], ["context"], ["continue"], ["order"], ["enabled"],
      ["description"], ["destination"]] j =
        some [name, number, context, continues, order, enabled, description, destination])
    (hname : name.defaulted Metadata.standard.name text? = some m.name)
    (hnumber : number.defaulted Metadata.standard.number text? = some m.number)
    (hcontext : context.defaulted Metadata.standard.context text? = some m.context)
    (hcontinues : continues.defaulted Metadata.standard.continues bool? = some m.continues)
    (horder : order.defaulted Metadata.standard.order nat32? = some m.order)
    (henabled : enabled.defaulted Metadata.standard.enabled bool? = some m.enabled)
    (hdescription : description.defaulted Metadata.standard.description text? =
      some m.description)
    (hdestination : destination.defaulted Metadata.standard.destination bool? =
      some m.destination) : metadata? j = some m := by
  unfold metadata?
  simp only [h, hname, hnumber, hcontext, hcontinues, horder, henabled, hdescription, hdestination,
    Option.bind_eq_bind, Option.bind_some, Option.pure_def]

theorem nat32?_nat {n : Nat} (h : n < 2 ^ 32) : nat32? (.nat n) = some n := by
  have hfits : 0 ≤ (n : Int) ∧ (n : Int) < 0x100000000 := ⟨Int.natCast_nonneg _, by omega⟩
  simp only [Json.nat, nat32?, if_pos hfits, Int.toNat_natCast]

theorem defaulted_given {α : Type} (value : α) (f : Json → Option α) (v : Json) :
    (Cell.given v).defaulted value f = f v := rfl

/-- Metadata are read from the value they are written as, if their order fits into 32 bits. -/
theorem metadata?_ofMetadata {m : Metadata} (h : m.order < 2 ^ 32) :
    metadata? (ofMetadata m) = some m :=
  metadata?_of_columns rfl rfl rfl rfl rfl ((defaulted_given _ _ _).trans (nat32?_nat h)) rfl rfl
    rfl

end Exchange

namespace FolderStore

/-- **Metadata are read from their file as they were written.** -/
theorem metadataOf_pretty {m : Metadata} (h : m.order < 2 ^ 32) :
    metadataOf (Exchange.ofMetadata m).pretty = .ok m := by
  have hread : Json.read? (Exchange.ofMetadata m).pretty = some (Exchange.ofMetadata m) :=
    Json.read?_pretty rfl (by simp [Exchange.ofMetadata, Json.depth, Json.depthMembers, Json.nat,
      Json.maxDepth])
  unfold metadataOf
  rw [hread, Option.bind_some, Exchange.metadata?_ofMetadata h]

/-! ## 2. Ids and the places of their files -/

/-- The ids that can be part of a file name: one or more letters, digits, `-` and `_`. -/
def Nameable (id : String) : Prop :=
  id ≠ "" ∧ ∀ c ∈ id.toList, c.isAlphanum = true ∨ c = '-' ∨ c = '_'

theorem isValidId_iff (id : String) : isValidId id = true ↔ Nameable id := by
  unfold isValidId Nameable
  simp [List.all_eq_true, or_assoc]

instance (id : String) : Decidable (Nameable id) := decidable_of_iff _ (isValidId_iff id)

/-- **Any other id is turned away, and no file changes.** -/
theorem invalid_of_not_nameable {id : String} (h : ¬ Nameable id) (f : FolderStore) :
    (∀ r, f.save id r = (.error (.invalidId id), f)) ∧ f.load id = .error (.invalidId id) := by
  have hv : ¬ isValidId id = true := fun hv => h ((isValidId_iff id).mp hv)
  exact ⟨fun r => if_neg hv, if_neg hv⟩

/-- The file of the markup of one rule set is never that of the metadata of another. -/
theorem xml_ne_json (id other : String) : id ++ ".xml" ≠ other ++ ".json" := by
  intro h
  have hlast := congrArg (fun s : String => s.toList.getLast?) h
  simp [String.toList_append] at hlast

theorem append_ne_append {id other : String} (h : other ≠ id) (ending : String) :
    other ++ ending ≠ id ++ ending := fun he => h (by simpa using he)

/-! ## 3. One write -/

variable {f : FolderStore}

/-- Nothing but a file stands under a name. -/
def Writable (f : FolderStore) (name : String) : Prop :=
  f.disk.at? (f.place ++ [name]) = none ∨
    ∃ old, f.disk.at? (f.place ++ [name]) = some (.file old)

/-- **What one write leaves of the files in the folder**: the written one is there, and the others
    are as they were. -/
theorem write_beside (content : String) {name : String}
    (hf : f.disk.isFolderAt f.place = true) (hr : f.refuses (f.place ++ [name]) = false)
    (hw : f.Writable name) :
    ∃ disk, f.write (f.place ++ [name]) content = (.ok (), { f with disk := disk }) ∧
      disk.isFolderAt f.place = true ∧ disk.at? (f.place ++ [name]) = some (.file content) ∧
      ∀ other, other ≠ name → disk.at? (f.place ++ [other]) = f.disk.at? (f.place ++ [other]) := by
  obtain ⟨disk, hd⟩ : ∃ disk, Entry.put? content f.disk (f.place ++ [name]) = some disk := by
    rcases hw with hn | ⟨old, ho⟩
    · exact Entry.exists_put?_of_free content name hf hn
    · exact Entry.exists_put?_of_file content ho
  refine ⟨disk, ?_, (Entry.isFolderAt_put? hd _).trans hf, Entry.at?_put?_self hd, ?_⟩
  · unfold write
    rw [hr, hd]
    rfl
  · intro other ho
    refine Entry.at?_put?_of_not_prefix hd fun hp => ho ?_
    have heq := hp.eq_of_length (by simp)
    simpa using heq

/-- **What a save leaves of the files in the folder**: its own two are written, and those of any
    other rule set are as they were. -/
theorem save_beside {id : String} {r : Stored} (hid : Nameable id)
    (hf : f.disk.isFolderAt f.place = true) (hx : f.refuses (f.markupPlace id) = false)
    (hj : f.refuses (f.metadataPlace id) = false)
    (hw : f.Writable (id ++ ".xml") ∧ f.Writable (id ++ ".json")) :
    ∃ disk, f.save id r = (.ok (), { f with disk := disk }) ∧
      disk.isFolderAt f.place = true ∧
      disk.at? (f.markupPlace id) = some (.file r.markup) ∧
      disk.at? (f.metadataPlace id) = some (.file (Exchange.ofMetadata r.metadata).pretty) ∧
      ∀ other, other ≠ id →
        disk.at? (f.markupPlace other) = f.disk.at? (f.markupPlace other) ∧
        disk.at? (f.metadataPlace other) = f.disk.at? (f.metadataPlace other) := by
  obtain ⟨d, hwrite, hfolder, hxml, hrest⟩ := write_beside r.markup hf hx hw.1
  have hjson : Writable { f with disk := d } (id ++ ".json") := by
    unfold Writable
    rw [hrest _ (xml_ne_json id id).symm]
    exact hw.2
  obtain ⟨d', hwrite', hfolder', hjson', hrest'⟩ :=
    write_beside (f := { f with disk := d }) (Exchange.ofMetadata r.metadata).pretty hfolder hj
      hjson
  have hprepare : f.prepare = (.ok (), f) := by
    unfold prepare
    rw [Entry.makeFolders?_of_folder hf]
  refine ⟨d', ?_, hfolder', ?_, hjson', fun other ho => ⟨?_, ?_⟩⟩
  · unfold save
    rw [if_pos ((isValidId_iff id).mpr hid), hprepare]
    simp only [markupPlace, hwrite]
    exact hwrite'
  · exact (hrest' _ (xml_ne_json id id)).trans hxml
  · exact (hrest' _ (xml_ne_json other id)).trans (hrest _ (append_ne_append ho ".xml"))
  · exact (hrest' _ (append_ne_append ho ".json")).trans (hrest _ (xml_ne_json id other).symm)

end FolderStore

/-! ## 4. Requests -/

/-- What is asked of a store. -/
inductive Request where
  | save (id : String) (r : Stored)
  | load (id : String)

/-- What a store answers. -/
inductive Reply where
  | saved (result : Except StoreFault Unit)
  | loaded (result : Except StoreFault Stored)
deriving DecidableEq

namespace Store

variable {σ : Type} [Store σ]

/-- One request, with the store after it. -/
def answer (store : σ) : Request → Reply × σ
  | .save id r => let (result, store') := Store.save store id r; (.saved result, store')
  | .load id => (.loaded (Store.load store id), store)

/-- What a store answers to requests one after another. -/
def answers (store : σ) : List Request → List Reply
  | [] => []
  | q :: rest => (answer store q).1 :: answers (answer store q).2 rest

end Store

namespace FolderStore

variable {f : FolderStore} {shelf : Shelf} {id : String} {r : Stored}

/-- A request that the disk does not stand in the way of: the id can be part of a file name, a save
    may write its two files, and its order fits into 32 bits. -/
def Serves (f : FolderStore) : Request → Prop
  | .save id r => Nameable id ∧ f.refuses (f.markupPlace id) = false ∧
      f.refuses (f.metadataPlace id) = false ∧ r.metadata.order < 2 ^ 32
  | .load id => Nameable id

instance (f : FolderStore) : ∀ q : Request, Decidable (f.Serves q)
  | .save _ _ => inferInstanceAs (Decidable (_ ∧ _))
  | .load id => inferInstanceAs (Decidable (Nameable id))

/-! ## 5. The folder and the shelf -/

/-- What the folder holds for an id under which there is this rule set, or none. -/
def Files (f : FolderStore) (id : String) : Option Stored → Prop
  | none => f.disk.at? (f.markupPlace id) = none ∧ f.disk.at? (f.metadataPlace id) = none
  | some r => f.disk.at? (f.markupPlace id) = some (.file r.markup) ∧
      f.disk.at? (f.metadataPlace id) = some (.file (Exchange.ofMetadata r.metadata).pretty) ∧
      r.metadata.order < 2 ^ 32

/-- **The folder holds what the shelf holds.** -/
structure Mirrors (f : FolderStore) (shelf : Shelf) : Prop where
  folder : f.disk.isFolderAt f.place = true
  files (id : String) : f.Files id (shelf.ruleSets.lookup id)

/-- An empty folder holds what the empty shelf holds. -/
theorem mirrors_empty (h : f.disk.at? f.place = some (.folder [])) : f.Mirrors .empty where
  folder := by
    unfold Entry.isFolderAt
    rw [h]
  files id := by
    show f.disk.at? (f.place ++ _) = none ∧ f.disk.at? (f.place ++ _) = none
    rw [Entry.at?_append, Entry.at?_append, h]
    exact ⟨rfl, rfl⟩

namespace Mirrors

/-- **A save keeps the folder and the shelf alike.** -/
theorem save (h : f.Mirrors shelf) (hs : f.Serves (.save id r)) :
    ∃ disk, f.save id r = (.ok (), { f with disk := disk }) ∧
      Mirrors { f with disk := disk } (shelf.save id r).2 := by
  obtain ⟨hid, hmarkup, hmetadata, horder⟩ := hs
  have hwritable : f.Writable (id ++ ".xml") ∧ f.Writable (id ++ ".json") := by
    have hfiles := h.files id
    cases hl : shelf.ruleSets.lookup id with
    | none =>
      rw [hl] at hfiles
      exact ⟨.inl hfiles.1, .inl hfiles.2⟩
    | some old =>
      rw [hl] at hfiles
      exact ⟨.inr ⟨_, hfiles.1⟩, .inr ⟨_, hfiles.2.1⟩⟩
  obtain ⟨disk, hsave, hfolder, hxml, hjson, hrest⟩ :=
    save_beside hid h.folder hmarkup hmetadata hwritable
  refine ⟨disk, hsave, hfolder, fun other => ?_⟩
  rw [Shelf.lookup_save]
  by_cases ho : other = id
  · subst ho
    rw [if_pos rfl]
    exact ⟨hxml, hjson, horder⟩
  · -- the files of any other id stand where they stood
    obtain ⟨hx, hj⟩ := hrest other ho
    have hfiles := h.files other
    rw [if_neg ho]
    unfold Files at hfiles ⊢
    rw [← hx, ← hj] at hfiles
    exact hfiles

/-- **Loads give the same.** -/
theorem load (h : f.Mirrors shelf) (hid : Nameable id) : f.load id = shelf.load id := by
  have hfiles := h.files id
  unfold FolderStore.load Shelf.load loadMetadata Entry.has Entry.text?
  rw [if_pos ((isValidId_iff id).mpr hid)]
  cases hl : shelf.ruleSets.lookup id with
  | none =>
    rw [hl] at hfiles
    rw [hfiles.1]
    rfl
  | some r =>
    rw [hl] at hfiles
    obtain ⟨hxml, hjson, horder⟩ := hfiles
    rw [hxml, hjson]
    simp only [Option.isSome_some, if_true, metadataOf_pretty horder]
    rfl

/-- One request: the answers are the same, and folder and shelf alike after it. -/
theorem answer (h : f.Mirrors shelf) {q : Request} (hq : f.Serves q) :
    ∃ disk, Store.answer f q = ((Store.answer shelf q).1, { f with disk := disk }) ∧
      Mirrors { f with disk := disk } (Store.answer shelf q).2 := by
  cases q with
  | save id r =>
    obtain ⟨disk, hsave, hm⟩ := h.save hq
    refine ⟨disk, ?_, hm⟩
    show (Reply.saved (f.save id r).1, (f.save id r).2) = _
    rw [hsave]
    rfl
  | load id =>
    refine ⟨f.disk, ?_, h⟩
    show (Reply.loaded (f.load id), f) = _
    rw [h.load hq]
    rfl

/-- Requests one after another, by induction on them. -/
theorem answers : ∀ {requests : List Request} {f : FolderStore} {shelf : Shelf},
    f.Mirrors shelf → (∀ q ∈ requests, f.Serves q) →
      Store.answers f requests = Store.answers shelf requests
  | [], _, _, _, _ => rfl
  | q :: rest, f, shelf, h, hs => by
      obtain ⟨disk, hq, hm⟩ := h.answer (hs q List.mem_cons_self)
      -- which requests the disk serves does not depend on what is on it
      have hrest : ∀ q' ∈ rest, Serves { f with disk := disk } q' := by
        intro q' hq'
        have := hs q' (List.mem_cons_of_mem q hq')
        cases q' <;> exact this
      unfold Store.answers
      rw [hq, answers hm hrest]

end Mirrors

/-- **A folder cannot be told from the store in memory.** From an empty folder on, saves and loads
    under ids that can be part of a file name are answered as they are in memory, as long as the
    disk takes the files that are written. A save or a load under any other id is refused as
    invalid, and changes nothing on the disk. -/
theorem answers_eq_shelf {f : FolderStore} (he : f.disk.at? f.place = some (.folder []))
    {requests : List Request} (hs : ∀ q ∈ requests, f.Serves q) :
    Store.answers f requests = Store.answers Shelf.empty requests ∧
      ∀ (g : FolderStore) (id : String), ¬ Nameable id →
        (∀ r, Store.save g id r = (.error (.invalidId id), g)) ∧
        Store.load g id = .error (.invalidId id) :=
  ⟨(mirrors_empty he).answers hs, fun g _ h => invalid_of_not_nameable h g⟩

/-- The folder `store` of a disk that takes every name of a length it can have. -/
def standardFolder : FolderStore := ⟨.folder [("store", .folder [])], ["store"], Entry.tooLong⟩

/-- Two rule sets are saved, one of them twice, and loaded. -/
theorem answers_eq_shelf_night :
    let night : Stored := ⟨"<extension/>", { Metadata.standard with name := "night", order := 7 }⟩
    let day : Stored := ⟨"", .standard⟩
    let requests : List Request := [.load "a-b", .save "a-b" day, .save "a_b" day,
      .save "a-b" night, .load "a-b", .load "a_b", .load "c"]
    standardFolder.disk.at? standardFolder.place = some (.folder []) ∧
    (∀ q ∈ requests, standardFolder.Serves q) ∧
    Store.answers standardFolder requests =
      [.loaded (.error (.notFound "a-b")), .saved (.ok ()), .saved (.ok ()), .saved (.ok ()),
        .loaded (.ok night), .loaded (.ok day), .loaded (.error (.notFound "c"))] ∧
    Store.load standardFolder "../a" = .error (.invalidId "../a") := by
  intro night day requests
  have hs : ∀ q ∈ requests, standardFolder.Serves q := by decide +kernel
  have hup : ¬ Nameable "../a" := by decide +kernel
  obtain ⟨heq, hinvalid⟩ := answers_eq_shelf (f := standardFolder) rfl hs
  exact ⟨rfl, hs, heq.trans rfl, (hinvalid standardFolder "../a" hup).2⟩

end FolderStore

end Dialplan
