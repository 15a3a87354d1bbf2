import Dialplan.Command.Run
/-!
# The program

Commands run on the real machine: its files, its working folder and its two outputs.
-/

namespace Dialplan.Command

/-- What stands at a path of the real machine. -/
def realKind (path : String) : IO PathKind := do
  let path := (← IO.currentDir) / path
  if ← path.isDir then return .folder
  if ← path.pathExists then
    return if (← path.metadata).type == .file then .file else .nothing
  return .nothing

/-- The files below a folder of the real machine, as steps from where `place` began. -/
partial def realFiles (folder : String) (place : List String) : IO (List (List String)) := do
  let mut files : List (List String) := []
  for entry in ← ((← IO.currentDir) / folder).readDir do
    let path := FilePath.join folder entry.fileName
    let here := place ++ [entry.fileName]
    match ← realKind path with
    | .folder => files := files ++ (← realFiles path here)
    | .file => files := files ++ [here]
    | .nothing => pure ()
  return files

instance : Host IO where
  workingFolder := do return (← IO.currentDir).toString
  kindOf path := realKind path
  readText path := do
    try return some (← IO.FS.readFile path)
    catch _ => return none
  writeText path text := do
    try
      IO.FS.writeFile path text
      return true
    catch _ => return false
  filesBelow path := do
    try realFiles path []
    catch _ => return []
  out text := IO.print text
  err text := IO.eprint text

end Dialplan.Command

/-- Does what the arguments ask for. -/
def main (args : List String) : IO UInt32 := do
  return UInt32.ofNat (← Dialplan.Command.run args)
