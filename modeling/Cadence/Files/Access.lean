import Cadence.Files.Tree

/-!
# Reading and changing files

The operations on a tree. One that fails half way leaves what it has done.
-/

namespace Cadence.Tree

/-! ## Reading -/

/-- What a path leads to, through links. -/
def look (t : Tree) (p : Path) : Except Failure Entry := do
  match t.findAt p (← t.placeOf true p) with
  | some entry => .ok entry
  | none => .error (.refused .missing p)

/-- The bytes of a file. -/
def read (t : Tree) (p : Path) : Except Failure (List UInt8) := do
  match ← t.look p with
  | .file bytes => .ok bytes
  | _ => .error (.refused .isFolder p)

/-- Whether a path leads to anything. A path with a name that is too long is a failure. -/
def has (t : Tree) (p : Path) : Except Failure Bool :=
  match t.look p with
  | .ok _ => .ok true
  | .error (.refused .nameTooLong p) => .error (.refused .nameTooLong p)
  | .error _ => .ok false

/-- Whether a path leads to a folder. -/
def isFolder (t : Tree) (p : Path) : Bool :=
  match t.look p with
  | .ok .folder => true
  | _ => false

/-! ## Changing -/

/-- Writes a file, in the stead of the one that is there. A link leads to the file written. -/
def write (t : Tree) (p : Path) (bytes : List UInt8) : Except Failure Tree := do
  let place ← t.placeOf true p
  match t.findAt p place with
  | some .folder => .error (.refused .isFolder p)
  | _ => return t.put place (.file bytes)

/-- Makes a folder where nothing is. -/
def makeFolder (t : Tree) (p : Path) : Except Failure Tree := do
  let place ← t.placeOf false p
  match t.findAt p place with
  | some _ => .error (.refused .taken p)
  | none => return t.put place .folder

/-- Makes a folder and those above it that are missing. A folder that is there already is a failure
unless it may exist. -/
def makeFolders (t : Tree) (mayExist : Bool) (p : Path) : Except Failure Unit × Tree :=
  let settle (mayExist : Bool) (t : Tree) (e : Failure) : Except Failure Unit × Tree :=
    if e.isSystem && mayExist && t.isFolder p then (.ok (), t) else (.error e, t)
  match t.makeFolder p with
  | .ok t => (.ok (), t)
  | .error (.refused .missing q) =>
    if _atRoot : p.names = [] then (.error (.refused .missing q), t)
    else
      match t.makeFolders true p.parent with
      | (.error e, t) => (.error e, t)
      | (.ok (), t) =>
        match t.makeFolder p with
        | .ok t => (.ok (), t)
        | .error (.refused .missing q) => (.error (.refused .missing q), t)
        | .error e => settle mayExist t e
  | .error e => settle mayExist t e
termination_by p.names.length
decreasing_by
  simp only [Path.parent, List.length_dropLast]
  have := List.length_pos_iff.2 _atRoot
  omega

/-- Removes a folder and all that is below it. Links below it are removed and not followed. What is
below goes first, so a path that leads through it leads nowhere when the folder itself is to go. -/
def removeFolder (t : Tree) (p : Path) : Except Failure Unit × Tree :=
  match t.placeOf false p with
  | .error e => (.error e, t)
  | .ok place =>
    match t.find? place with
    | some .folder =>
      let emptied := t.clearBelow place
      match emptied.placeOf false p with
      | .error e => (.error e, emptied)
      | .ok place => (.ok (), emptied.clear place)
    | some (.link _) => (.error .isLink, t)
    | some (.file _) => (.error (.refused .notFolder p), t)
    | none => (.error (.refused .missing p), t)

/-! ## Text -/

/-- Makes line ends alike, as text files are read. -/
def uniformLines : List Char → List Char
  | [] => []
  | '\r' :: '\n' :: cs => '\n' :: uniformLines cs
  | c :: cs => (if c = '\r' then '\n' else c) :: uniformLines cs

/-- The text that bytes spell, if they spell any. -/
def textOf? (bytes : List UInt8) : Option String :=
  (String.fromUTF8? ⟨bytes.toArray⟩).map fun s => String.ofList (uniformLines s.toList)

end Cadence.Tree
