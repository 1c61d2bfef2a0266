import Cadence.Files.Failure

/-!
# Trees of files

A tree holds folders, files and symbolic links by place. A path is walked name by name: links on the
way are followed, and the folder above is that of the place reached, not of the path.
-/

namespace Cadence

/-- The names that lead from the root to something, none of them a link. -/
abbrev Place := List String

/-- What stands at a place. -/
inductive Entry where
  | folder
  | file (bytes : List UInt8)
  | link (target : String)
  deriving Repr, DecidableEq

/-- A tree of files, with the folder that relative paths start from. The root is always there. -/
structure Tree where
  entries : List (Place × Entry) := []
  working : Place := []
  deriving Repr, DecidableEq

namespace Tree

/-- What stands at a place. -/
def find? (t : Tree) (place : Place) : Option Entry :=
  if place = [] then some .folder else t.entries.lookup place

/-- Puts something at a place, in the stead of what is there. -/
def put (t : Tree) (place : Place) (entry : Entry) : Tree :=
  { t with entries := (place, entry) :: t.entries.filter fun e => e.1 ≠ place }

/-- Takes away a place and all that is below it. -/
def clear (t : Tree) (place : Place) : Tree :=
  { t with entries := t.entries.filter fun e => !place.isPrefixOf e.1 }

/-- Takes away all that is below a place, and leaves the place. -/
def clearBelow (t : Tree) (place : Place) : Tree :=
  { t with entries := t.entries.filter fun e => !(place.isPrefixOf e.1 && e.1 != place) }

/-- The bytes that a name may have. -/
def nameLimit : Nat := 255

/-- The links that one walk may follow. -/
def linkLimit : Nat := 40

/-- Walks names from a place on, following a number of links. The last name may be new, and may be a
link that is not followed. -/
def walk (t : Tree) (followLast : Bool) (links : Nat) (here : Place) :
    List String → Except Refusal Place
  | [] => .ok here
  | name :: rest =>
    match t.find? here with
    | none | some (.link _) => .error .missing
    | some (.file _) => .error .notFolder
    | some .folder =>
      if name = ".." then t.walk followLast links here.dropLast rest
      else if nameLimit < name.utf8ByteSize then .error .nameTooLong
      else match t.find? (here ++ [name]) with
        | none => if rest = [] then .ok (here ++ [name]) else .error .missing
        | some (.link target) =>
          if rest = [] ∧ !followLast then .ok (here ++ [name])
          else match links with
            | 0 => .error .tooManyLinks
            | links + 1 =>
              let path := Path.ofString target
              t.walk followLast links (if path.isAbsolute then [] else here) (path.names ++ rest)
        | some _ => t.walk followLast links (here ++ [name]) rest
termination_by names => (links, names.length)

/-- Where the walk of a path starts, and the names that are left to walk. What is above the working
folder stays above it even when that folder is gone. -/
def startOf (t : Tree) (p : Path) : Place × List String :=
  if p.isAbsolute then ([], p.names)
  else
    let up := (p.names.takeWhile (· = "..")).length
    (t.working.take (t.working.length - up), p.names.drop up)

/-- The place that a path leads to. -/
def placeOf (t : Tree) (followLast : Bool) (p : Path) : Except Failure Place :=
  if p.names.any (·.toList.contains '\x00') then .error .unusable
  else match t.walk followLast linkLimit (t.startOf p).1 (t.startOf p).2 with
    | .ok place => .ok place
    | .error refusal => .error (.refused refusal p)

/-- What is found at the place that a path leads to. A folder that the path only starts from is one
even when it is gone. -/
def findAt (t : Tree) (p : Path) (place : Place) : Option Entry :=
  if (t.startOf p).2 = [] then some .folder else t.find? place

/-! ## Resolving -/

/-- Follows all links. Names of nothing lead on as if they were folders. When a link leads back to
itself, on its own or by way of the links that are being followed, nothing more is followed, and the
answer is the names as they stand. No more links are followed at once than there are. -/
def resolveFrom (t : Tree) (following : List Place) (depth : Nat) (here : Place) :
    List String → Except (List String) Place
  | [] => .ok here
  | name :: rest =>
    if name = ".." then t.resolveFrom following depth here.dropLast rest
    else
      let next := here ++ [name]
      match t.find? next with
      | some (.link target) =>
        match depth with
        | 0 => .error (next ++ rest)
        | deeper + 1 =>
          if following.contains next then .error (next ++ rest)
          else
            let path := Path.ofString target
            let start := if path.isAbsolute then [] else here
            match t.resolveFrom (next :: following) deeper start path.names with
            | .error names => .error (names ++ rest)
            | .ok place => t.resolveFrom following (deeper + 1) place rest
      | _ => t.resolveFrom following depth next rest
termination_by names => (depth, names.length)

/-- The place that names spell when nothing is a link. -/
def spelled (names : List String) : Place :=
  names.foldl (fun place name => if name = ".." then place.dropLast else place ++ [name]) []

/-- The place that a path leads to when all links are followed. Links that lead back to themselves are
a failure unless the path leaves them again. -/
def resolve (t : Tree) (p : Path) : Except Failure Place :=
  if p.names.any (·.toList.contains '\x00') then .error .unusable
  else match t.resolveFrom [] t.entries.length (t.startOf p).1 (t.startOf p).2 with
    | .ok place => .ok place
    | .error names =>
      let place := spelled names
      match t.walk true linkLimit [] place with
      | .error .tooManyLinks => .error (.loop ⟨"/", place⟩)
      | _ => .ok place

end Tree

end Cadence
