import Cadence.Text.Name
import Cadence.Text.Numeral

/-!
# Paths

A path is a root and the names below it. Names of nothing and of the same folder are dropped when a
path is read; the name of the folder above stays, because what is above depends on links.
-/

namespace Cadence

/-- A path, relative if its root is empty. -/
structure Path where
  root : String := ""
  names : List String := []
  deriving Repr, DecidableEq

namespace Path

/-- The root that a number of slashes at the beginning of a text spell. Two are kept apart. -/
def rootOf : Nat → String
  | 0 => ""
  | 2 => "//"
  | _ => "/"

/-- Reads a path. -/
def ofString (text : String) : Path :=
  let cs := text.toList
  let slashes := (cs.takeWhile (· == '/')).length
  let names := (Text.splitAt '/' cs).filter fun name => name ≠ [] ∧ name ≠ ['.']
  ⟨rootOf slashes, names.map String.ofList⟩

def isAbsolute (p : Path) : Bool := p.root != ""

/-- The path as text. -/
def text (p : Path) : String :=
  if p.root = "" ∧ p.names = [] then "." else p.root ++ "/".intercalate p.names

/-- A path from another one on. An absolute path is the same from everywhere. -/
def join (p q : Path) : Path := if q.isAbsolute then q else { p with names := p.names ++ q.names }

/-- What a text names from a path on. -/
def child (p : Path) (text : String) : Path := p.join (ofString text)

/-- The path without its last name. -/
def parent (p : Path) : Path := { p with names := p.names.dropLast }

/-- The last name, empty if there is none. -/
def name (p : Path) : String := p.names.getLast?.getD ""

/-- A character that no name of a file may hold. -/
def isReserved (c : Char) : Bool := c == '/' || c == '\\' || c == '\x00'

/-- A text that names something directly in a folder. -/
def isPlainName : Name → Bool
  | .whole name => name != "" && name != "." && name != ".." && !name.toList.any isReserved
  | .broken b => !b.points.any (·.char?.any isReserved)

end Path

end Cadence
