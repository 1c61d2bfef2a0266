import Cadence.Document.Starter
import Cadence.Files.Access
import Cadence.Score

/-!
# Exporting

A composition is exported as a folder of its own with a score file for each pattern. What could go
wrong with names and scores is found before anything is removed or written, and a folder that is
there is replaced as a whole.
-/

namespace Cadence

/-- Why a composition is not exported. -/
inductive ExportFault where
  /-- a name that is no name of a file -/
  | name (name : Name)
  /-- a pattern that has no score -/
  | score (e : Score.EncodeError)
  /-- a folder that lies elsewhere -/
  | elsewhere
  | file (failure : Failure)
  deriving Repr, DecidableEq

/-- A fault in exporting and the path that it is about. -/
structure ExportError where
  path : Path
  fault : ExportFault
  deriving Repr, DecidableEq

namespace ExportFault

def message : ExportFault → Name
  | name text => "'" ++ text ++ "' is not a valid file name"
  | score e => e.message
  | elsewhere => "composition folder escapes the export directory"
  | file failure => failure.message

/-- The faults of an export, as against those of its arguments. -/
def isExportFailure : ExportFault → Bool
  | score e => e.isBadValue
  | file failure => failure.isSystem
  | _ => true

end ExportFault

namespace Composition

/-- The folder that a composition is exported to. -/
def folder (c : Composition) (parent : Path) : Path := parent.child c.name.text

/-- The score file of a pattern with a name. -/
def scorePath (folder : Path) (name : Name) : Path := folder.child (name.text ++ ".mid")

/-- The names that a composition gives to files, with their paths: its own, then those of its patterns. -/
def fileNames (c : Composition) (parent : Path) : List (Name × Path) :=
  (c.name, c.folder parent) ::
    c.patterns.map fun p => (p.name, scorePath (c.folder parent) p.name)

/-- The first name that is no name of a file. -/
def badName? (c : Composition) (parent : Path) : Option ExportError :=
  ((c.fileNames parent).find? fun named => !Path.isPlainName named.1).map fun (name, path) =>
    ⟨path, .name name⟩

/-- What is written, by pattern name, if all of it can be. -/
def scores (c : Composition) (parent : Path) : Except ExportError (List (Name × List UInt8)) :=
  match c.badName? parent with
  | some e => .error e
  | none => (Score.encodeAll c).mapError fun e => ⟨c.folder parent, .score e⟩

/-- Where a folder with a broken name would be. It is asked for with the folders above it, which have to
be usable. -/
def brokenFolder (t : Tree) (parent : Path) (name : Broken) : Failure :=
  match t.resolve parent with
  | .error .unusable => .unusable
  | .error _ => .broken name
  | .ok above => .broken { name with before := (Path.mk "/" (above ++ [name.before])).text }

/-- Checks that the folder is where its path says. -/
def checkFolder (t : Tree) (c : Composition) (parent : Path) : Except ExportError Unit := do
  let fail (failure : Failure) : ExportError := ⟨c.folder parent, .file failure⟩
  if let .broken name := c.name then .error (fail (brokenFolder t parent name))
  let place ← (t.resolve (c.folder parent)).mapError fail
  let above ← (t.resolve parent).mapError fail
  if place.dropLast ≠ above then .error ⟨c.folder parent, .elsewhere⟩

/-- Takes away the folder that is there, if one is. -/
def clearFolder (t : Tree) (folder : Path) : Except Failure Unit × Tree :=
  match t.has folder with
  | .error failure => (.error failure, t)
  | .ok false => (.ok (), t)
  | .ok true => t.removeFolder folder

/-- Makes the folder anew. -/
def renewFolder (t : Tree) (folder : Path) : Except Failure Unit × Tree :=
  match clearFolder t folder with
  | (.error failure, t) => (.error failure, t)
  | (.ok (), t) => t.makeFolders false folder

/-- Writes files in turn, up to the first that cannot be written. -/
def writeScores (folder : Path) : Tree → List (Name × List UInt8) →
    Except ExportError (List Path) × Tree
  | t, [] => (.ok [], t)
  | t, (name, bytes) :: rest =>
    let path := scorePath folder name
    match t.write path bytes with
    | .error failure => (.error ⟨path, .file failure⟩, t)
    | .ok t =>
      let (paths, t) := writeScores folder t rest
      (paths.map (path :: ·), t)

/-- Exports a composition into a folder below a path. The answer is the paths of the files written. -/
def exportTo (t : Tree) (c : Composition) (parent : Path) : Except ExportError (List Path) × Tree :=
  match c.scores parent with
  | .error e => (.error e, t)
  | .ok files =>
    match c.checkFolder t parent with
    | .error e => (.error e, t)
    | .ok () =>
      match renewFolder t (c.folder parent) with
      | (.error failure, t) => (.error ⟨c.folder parent, .file failure⟩, t)
      | (.ok (), t) => writeScores (c.folder parent) t files

end Composition

/-- Writes the starter document. -/
def Document.exportStarter (t : Tree) (p : Path) : Except Failure Path × Tree :=
  match t.write p Document.starter.toUTF8.toList with
  | .ok t => (.ok p, t)
  | .error failure => (.error failure, t)

end Cadence
