import TemplateFrontend.CommandLine.Run
/-!
# The program

`main` reads the files that the arguments name, asks `CommandLine.answer` what to do, and does it.
-/

namespace TemplateFrontend

namespace CommandLine

/-- The tree with the file or directory at a path and all that is below it. -/
partial def load (t : FileTree) (path : String) : IO FileTree := do
  try
    let entries ← (← IO.FS.realPath path).readDir
    entries.foldlM (fun t entry => load t (joinPath path entry.fileName))
      (t.addDirectory (t.placeOf path))
  catch _ =>
    try
      return t.write (t.placeOf path) (← IO.FS.readFile path)
    catch _ => return t

/-- The files that a request is about. -/
def loadFor (args : List String) : IO FileTree := do
  let here := (FileTree.empty []).placeOf (toString (← IO.currentDir))
  match Request.ofArguments args with
  | .ok (.run i) => i.paths.foldlM load (.empty here)
  | _ => return .empty here

/-- Carries out an answer. -/
def perform (a : Answer) : IO UInt32 := do
  IO.eprint a.stderr
  IO.print a.stdout
  return a.exitCode.toUInt32

end CommandLine

end TemplateFrontend

open TemplateFrontend in
/-- The program. -/
def main (args : List String) : IO UInt32 := do
  let answer := CommandLine.answer (← CommandLine.loadFor args) args
  match answer.output with
  | none => CommandLine.perform answer
  | some (path, text) =>
    try
      IO.FS.writeFile path text
      CommandLine.perform answer
    catch _ => CommandLine.perform (.unwritable path)
