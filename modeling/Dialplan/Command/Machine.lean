import Dialplan.Command.Host
/-!
# A machine that is a value

A disk, a working folder on it, and what has been printed. Commands that run on it are functions, so
that what they do can be computed and reasoned about.
-/

namespace Dialplan.Command

/-- A disk, the place of the working folder, and what has been printed so far. -/
structure Machine where
  disk : Entry
  folder : List String
  out : String
  err : String

namespace Machine

/-- A machine before anything is printed. -/
def new (disk : Entry) (folder : List String) : Machine := ⟨disk, folder, "", ""⟩

/-- The place that a path leads to. -/
def place? (s : Machine) (path : String) : Option (List String) :=
  if path.isEmpty then none
  else s.disk.resolve? (if path.startsWith "/" then [] else s.folder) (FilePath.steps path)

/-- What stands at the end of a path. -/
def entry? (s : Machine) (path : String) : Option Entry := (s.place? path).bind s.disk.at?

/-- The machine with a file written at the end of a path, if that is possible. -/
def write? (s : Machine) (path text : String) : Option Machine :=
  (s.place? path).bind fun place =>
    if Entry.tooLong place then none
    else (s.disk.put? text place).map fun disk => { s with disk := disk }

/-- The path of the working folder from the top. -/
def folderPath (s : Machine) : String := "/" ++ "/".intercalate s.folder

/-- What stands at the end of a path, its contents left out. -/
def kindOf (s : Machine) (path : String) : PathKind :=
  match s.entry? path with
  | none => .nothing
  | some (.file _) => .file
  | some (.folder _) => .folder

/-- The text of the file at the end of a path. -/
def readText (s : Machine) (path : String) : Option String :=
  match s.entry? path with
  | some (.file content) => some content
  | _ => none

/-- The files at the end of a path and below it; where nothing stands there are none. -/
def filesBelow (s : Machine) (path : String) : List (List String) :=
  match s.entry? path with
  | some e => e.files []
  | none => []

instance : Host (StateM Machine) where
  workingFolder := fun s => (s.folderPath, s)
  kindOf path := fun s => (s.kindOf path, s)
  readText path := fun s => (s.readText path, s)
  writeText path text := fun s =>
    match s.write? path text with
    | some s' => (true, s')
    | none => (false, s)
  filesBelow path := fun s => (s.filesBelow path, s)
  out text := fun s => ((), { s with out := s.out ++ text })
  err text := fun s => ((), { s with err := s.err ++ text })

end Machine

end Dialplan.Command
