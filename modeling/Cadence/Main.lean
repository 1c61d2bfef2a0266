import Cadence.Command

/-!
# The program

Reads the file that a command names, carries the command out, prints what it says and writes the files
that it leaves.
-/

namespace Cadence.Program

/-- A tree of the folders above a path, with a file at it if there is one. -/
def treeOf (p : Path) (bytes? : Option (List UInt8)) : Tree :=
  let place := Tree.spelled p.names
  let folders := (List.range place.length).map fun n => (place.take n, Entry.folder)
  let file := bytes?.map fun bytes => (place, Entry.file bytes)
  { entries := file.toList ++ folders.drop 1 }

/-- The bytes of a file, if it can be read. -/
def bytesOf? (file : String) : IO (Option (List UInt8)) := do
  try return some (← IO.FS.readBinFile file).toList catch _ => return none

/-- The tree that a command sees. -/
def load : Command → IO Tree
  | .play file _ _ _ _ _ | .exporting file _ => do
    return treeOf (Path.ofString file) (← bytesOf? file)
  | .starter path => return treeOf (Path.ofString path) none
  | .chords => return {}

/-- Whether a folder is reached by a link. -/
def isLinked (folder : Path) : IO Bool := do
  try
    let above ← IO.FS.realPath folder.parent.text
    let here ← IO.FS.realPath folder.text
    return here.toString != (above / folder.name).toString
  catch _ => return false

/-- Writes the files that a command leaves. An export replaces its folder, but not one elsewhere. -/
def store (command : Command) (written : List Path) (t : Tree) : IO (Option Error) := do
  if let (.exporting _ _, first :: _) := (command, written) then
    if ← isLinked first.parent then return some (.exporting ⟨first.parent, .elsewhere⟩)
    try IO.FS.removeDirAll first.parent.text catch _ => pure ()
    IO.FS.createDirAll first.parent.text
  for path in written do
    if let .ok bytes := t.read path then IO.FS.writeBinFile path.text ⟨bytes.toArray⟩
  return none

/-- No port can be opened here. -/
def noPorts (_ : String) : Option PortFault := some (.missing "no backend")

end Cadence.Program

open Cadence in
/-- Runs a command line. -/
def main (args : List String) : IO UInt32 := do
  match Invocation.parse args with
  | .error stop => return stop.code.toUInt32
  | .ok invocation =>
    let seed ← IO.rand 0 0xffffffff
    let picks : Picks := fun n => (mixHash (hash seed) (hash n)).toNat
    let before ← Program.load invocation.command
    let (outcome, after) := invocation.command.run before picks Program.noPorts
    if let some e ← Program.store invocation.command outcome.written after then
      IO.eprintln e.message.text
      return 1
    for line in outcome.lines do IO.println line
    if let .failed e := outcome.verdict then IO.eprintln e.message.text
    return outcome.code.toUInt32
