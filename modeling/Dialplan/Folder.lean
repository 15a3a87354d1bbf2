/-!
# Folders

A folder holds named entries, files with a text and folders. A place in it is the list of names on
the way down. Reading and writing say nothing about files outside the place: after a write every
other place reads as before.

* `Entry.at?`: what stands at a place;
* `Entry.put?`: a file written at a place, in a folder that is there;
* `Entry.makeFolders?`: a place made a folder, with all folders above it;
* `Entry.files`: the files below a place.
-/

namespace Dialplan

/-- What a name in a folder stands for. -/
inductive Entry where
  | file (content : String)
  | folder (members : List (String × Entry))

namespace Entry

instance : Inhabited Entry := ⟨.folder []⟩

/-- The folder without entries. -/
def empty : Entry := .folder []

/-- The members of a folder with one of them replaced, or a new one at the end. -/
def putMember (name : String) (e : Entry) : List (String × Entry) → List (String × Entry)
  | [] => [(name, e)]
  | (n, old) :: rest => if n = name then (n, e) :: rest else (n, old) :: putMember name e rest

/-- What stands at a place. -/
def at? : Entry → List String → Option Entry
  | e, [] => some e
  | .file _, _ :: _ => none
  | .folder members, name :: rest =>
    match members.lookup name with
    | some e => e.at? rest
    | none => none

/-- The text of the file at a place. -/
def text? (e : Entry) (place : List String) : Option String :=
  match e.at? place with
  | some (.file content) => some content
  | _ => none

/-- Whether anything stands at a place. -/
def has (e : Entry) (place : List String) : Bool := (e.at? place).isSome

/-- A file written at a place. The folder that it is in must be there, and the place must not be a
    folder. -/
def put? (content : String) : Entry → List String → Option Entry
  | .file _, [] => some (.file content)
  | .folder _, [] => none
  | .file _, _ :: _ => none
  | .folder members, name :: rest =>
    match members.lookup name with
    | some e => (put? content e rest).map fun e' => .folder (putMember name e' members)
    | none => if rest.isEmpty then some (.folder (putMember name (.file content) members)) else none

/-- A place made a folder, with all folders above it. No file may be in the way. -/
def makeFolders? : Entry → List String → Option Entry
  | .file _, _ => none
  | .folder members, [] => some (.folder members)
  | .folder members, name :: rest =>
    match members.lookup name with
    | some e => (makeFolders? e rest).map fun e' => .folder (putMember name e' members)
    | none =>
      (makeFolders? (.folder []) rest).map fun e' => .folder (putMember name e' members)

mutual

/-- The places of the files at or below an entry that stands at a place. -/
def files (place : List String) : Entry → List (List String)
  | .file _ => [place]
  | .folder members => filesAmong place members

/-- The places of the files among the members of the folder at a place, and below them. -/
def filesAmong (place : List String) : List (String × Entry) → List (List String)
  | [] => []
  | (name, e) :: rest => e.files (place ++ [name]) ++ filesAmong place rest

end

/-- The place that a walk leads to: `.` stays, `..` goes up, and every step starts in a folder. -/
def resolve? (e : Entry) (here : List String) : List String → Option (List String)
  | [] => some here
  | step :: rest =>
    match e.at? here with
    | some (.folder _) =>
      if step = "." then e.resolve? here rest
      else if step = ".." then if here.isEmpty then none else e.resolve? here.dropLast rest
      else e.resolve? (here ++ [step]) rest
    | _ => none

/-- How many bytes a name on a disk may take. -/
def nameLimit : Nat := 255

/-- Whether some name on the way to a place is too long for a disk. -/
def tooLong (place : List String) : Bool := place.any fun name => name.utf8ByteSize > nameLimit

end Entry

/-! ## Written paths -/

namespace FilePath

/-- The steps of a path: the stretches between slashes, where a slash at the end asks for a
    folder. -/
def steps (path : String) : List String :=
  let parts := path.splitOn "/"
  parts.filter (fun p => !p.isEmpty) ++ if path.endsWith "/" then ["."] else []

/-- A path with one more step; a path from the very top takes the place of the first. -/
def join (folder step : String) : String :=
  if step.startsWith "/" then step
  else if folder.isEmpty || folder.endsWith "/" then folder ++ step
  else folder ++ "/" ++ step

/-- Whether a file name has the extension, that is, ends in a point and the extension with something
    before the point. -/
def hasExtension (extension name : String) : Bool :=
  let ending := "." ++ extension
  name.endsWith ending && name.length > ending.length

end FilePath

end Dialplan
