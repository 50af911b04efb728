/-
# The program

The disk of the running machine, and the program on it. A file is replaced by renaming a new one,
so a reader sees the old text or the new text and never a part.
-/

import Scaffold.CommandLine.Run

namespace Scaffold

/-- Whether an action succeeds. -/
def succeeds (action : IO Unit) : IO Bool := do
  try
    action
    return true
  catch _ => return false

instance : Disk IO where
  workingDirectory := do return (← IO.currentDir).toString.toList
  isPresent path := succeeds do discard (IO.FS.realPath (String.ofList path))
  isDirectory path := succeeds do discard (IO.FS.realPath (String.ofList (path ++ ['/', '.'])))
  read? path := do
    try
      return some (← IO.FS.readFile (String.ofList path)).toList
    catch _ => return none
  createDirectories path := succeeds do
    if path.isEmpty then return else IO.FS.createDirAll (String.ofList path)
  replace path text := succeeds do
    let target := String.ofList path
    let draft := target ++ ".tmp" ++ toString (← IO.rand 100000000 999999999)
    IO.FS.writeFile draft (String.ofList text)
    IO.FS.rename draft target

end Scaffold

open Scaffold CommandLine in
/-- Runs the program with the arguments of the command line. -/
def main (arguments : List String) : IO UInt32 := do
  let ending ← (run (arguments.map String.toList) : IO Ending)
  for line in ending.printed do
    IO.println (String.ofList line)
  match ending with
  | .stopped .usage => (← IO.getStderr).putStrLn "wrong arguments; try --help"
  | _ => pure ()
  match ending.failure? with
  | some failure => (← IO.getStderr).putStrLn s!"Error ({failure.kind}): {failure.message}"
  | none => pure ()
  return ending.exitCode.toUInt32
