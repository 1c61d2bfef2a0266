import Cadence.Text.Name
import Cadence.Yaml.Problem

/-!
# Tokens

What a text is made of before it is put together: brackets and marks, the beginnings and ends that
indentation implies, and scalars with their blanks and line ends already folded.
-/

namespace Cadence.Yaml

/-- The text of a scalar. -/
structure Content where
  chars : List Char := []
  /-- half of a character that an escape stood for, and what comes after it -/
  more? : Option (Half × List Point) := none
  deriving Repr, DecidableEq

/-- A line that begins with a percent sign. -/
inductive Directive where
  | version (major : Nat)
  | tagHandle (handle uri : List Char)
  | unknown
  deriving Repr, DecidableEq

/-- One token. -/
inductive Token where
  | directive (d : Directive)
  | documentStart
  | documentEnd
  /-- a block list begins -/
  | blockList
  /-- a block mapping begins -/
  | blockMap
  /-- a block list or mapping ends -/
  | blockEnd
  | listOpen
  | listClose
  | mapOpen
  | mapClose
  /-- the dash of a block list -/
  | entry
  | comma
  | key
  | value
  | alias (name : List Char)
  | anchor (name : List Char)
  | tag (handle? : Option (List Char)) (suffix : List Char)
  | scalar (isPlain : Bool) (content : Content)
  /-- the text breaks off here -/
  | broken (p : Problem)
  deriving Repr, DecidableEq

end Cadence.Yaml
