import Dialplan.Exchange.Settings
import Dialplan.Folder
import Dialplan.Hazard
import Dialplan.Json.Reader
import Dialplan.Json.Writer
import Dialplan.Text.Blank
/-!
# Where rule sets are kept

A store keeps markup and metadata of rule sets under their ids. There are two stores, in memory and
in a folder, and a guard that can stand before either.

* `Shelf`: the store in memory;
* `FolderStore`: two files for every rule set;
* `Guarded`: refuses markup that is blank or names an application that starts processes, and a rule
  set without a name.

A save gives its result together with the store after it, since a save that fails on its way may
have written something.
-/

namespace Dialplan

open Dialplan.Text

/-! ## 1. Stores in general -/

/-- Why a rule set is not saved or not found. -/
inductive StoreFault where
  | missingName
  | emptyMarkup
  | dangerous (message : String)
  | notFound (id : String)
  | invalidId (id : String)
  /-- The folder did not take or give a file. -/
  | unavailable
  /-- The file beside the markup is not metadata. -/
  | badMetadata
deriving DecidableEq, Repr

/-- The message of a fault. -/
def StoreFault.message : StoreFault → String
  | .missingName => "Rule set name is required"
  | .emptyMarkup => "Rule set markup is empty"
  | .dangerous m => "Markup contains invalid or dangerous content: " ++ m
  | .notFound id => "Rule set not found: " ++ id
  | .invalidId id => "Invalid rule set id: " ++ id
  | .unavailable => "IO error"
  | .badMetadata => "Metadata error"

/-- A rule set as it is kept. -/
structure Stored where
  markup : String
  metadata : Metadata
deriving DecidableEq, Repr

/-- What a store does. -/
class Store (σ : Type) where
  save : σ → String → Stored → Except StoreFault Unit × σ
  load : σ → String → Except StoreFault Stored

/-! ## 2. In memory -/

/-- Rule sets by id, and how many saves there were. -/
structure Shelf where
  ruleSets : List (String × Stored)
  saves : Nat
deriving DecidableEq, Repr

namespace Shelf

/-- Nothing saved yet. -/
def empty : Shelf := ⟨[], 0⟩

/-- A rule set kept in place of the one that had its id. -/
def save (s : Shelf) (id : String) (r : Stored) : Except StoreFault Unit × Shelf :=
  (.ok (), ⟨(id, r) :: s.ruleSets.filter (fun e => e.1 ≠ id), s.saves + 1⟩)

/-- The rule set that was saved last under an id. -/
def load (s : Shelf) (id : String) : Except StoreFault Stored :=
  match s.ruleSets.lookup id with
  | some r => .ok r
  | none => .error (.notFound id)

instance : Store Shelf := ⟨save, load⟩

end Shelf

/-! ## 3. In a folder -/

/-- A folder somewhere on a disk: what the disk holds, the place of the folder, and the places where
    a write fails. -/
structure FolderStore where
  disk : Entry
  place : List String
  refuses : List String → Bool

namespace FolderStore

/-- Whether an id can be part of a file name. -/
def isValidId (id : String) : Bool :=
  !id.isEmpty && id.toList.all fun c => c.isAlphanum || c = '-' || c = '_'

/-- Where the markup of a rule set lies. -/
def markupPlace (s : FolderStore) (id : String) : List String := s.place ++ [id ++ ".xml"]

/-- Where the metadata of a rule set lie. -/
def metadataPlace (s : FolderStore) (id : String) : List String := s.place ++ [id ++ ".json"]

/-- One file written; nothing changes where that fails. -/
def write (s : FolderStore) (place : List String) (content : String) :
    Except StoreFault Unit × FolderStore :=
  if s.refuses place then (.error .unavailable, s)
  else match s.disk.put? content place with
    | some disk => (.ok (), { s with disk := disk })
    | none => (.error .unavailable, s)

/-- The folder itself, made where it is missing. -/
def prepare (s : FolderStore) : Except StoreFault Unit × FolderStore :=
  match s.disk.makeFolders? s.place with
  | some disk => (.ok (), { s with disk := disk })
  | none => (.error .unavailable, s)

/-- The folder, then the markup, then the metadata; the first step that fails is the last. -/
def save (s : FolderStore) (id : String) (r : Stored) : Except StoreFault Unit × FolderStore :=
  if isValidId id then
    match s.prepare with
    | (.error e, s) => (.error e, s)
    | (.ok (), s) =>
      match s.write (s.markupPlace id) r.markup with
      | (.error e, s) => (.error e, s)
      | (.ok (), s) => s.write (s.metadataPlace id) (Exchange.ofMetadata r.metadata).pretty
  else (.error (.invalidId id), s)

/-- The metadata in a text. -/
def metadataOf (text : String) : Except StoreFault Metadata :=
  match (Json.read? text).bind Exchange.metadata? with
  | some m => .ok m
  | none => .error .badMetadata

/-- The metadata beside the markup; where there is no such file, the metadata of a new rule set. -/
def loadMetadata (s : FolderStore) (id : String) : Except StoreFault Metadata :=
  if s.disk.has (s.metadataPlace id) then
    match s.disk.text? (s.metadataPlace id) with
    | some text => metadataOf text
    | none => .error .unavailable
  else .ok .standard

/-- The markup and what lies beside it, if the id can be part of a file name. -/
def load (s : FolderStore) (id : String) : Except StoreFault Stored :=
  if isValidId id then
    if s.disk.has (s.markupPlace id) then
      match s.disk.text? (s.markupPlace id) with
      | some markup => (s.loadMetadata id).map fun m => ⟨markup, m⟩
      | none => .error .unavailable
    else .error (.notFound id)
  else .error (.invalidId id)

instance : Store FolderStore := ⟨save, load⟩

end FolderStore

/-! ## 4. The guard -/

/-- A store behind the guard. -/
structure Guarded (σ : Type) where
  inner : σ

namespace Guarded

variable {σ : Type}

/-- Why the guard refuses a rule set: blank markup first, then what the markup names, then a blank
    name. -/
def objection? (r : Stored) : Option StoreFault :=
  if blank r.markup then some .emptyMarkup
  else match Hazard.scan r.markup with
    | f :: _ => some (.dangerous f.message)
    | [] => if blank r.metadata.name then some .missingName else none

/-- A save that reaches the store only if the guard has no objection. -/
def save [Store σ] (s : Guarded σ) (id : String) (r : Stored) :
    Except StoreFault Unit × Guarded σ :=
  match objection? r with
  | some e => (.error e, s)
  | none =>
    let (result, inner) := Store.save s.inner id r
    (result, ⟨inner⟩)

/-- A load, to which the guard has nothing to say. -/
def load [Store σ] (s : Guarded σ) (id : String) : Except StoreFault Stored := Store.load s.inner id

instance [Store σ] : Store (Guarded σ) := ⟨save, load⟩

end Guarded

end Dialplan
