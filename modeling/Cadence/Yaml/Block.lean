import Cadence.Yaml.Lines
import Cadence.Yaml.Problem

/-!
# Block scalars

A block scalar is the lines below its header that are indented far enough. A literal one keeps its
lines, a folded one joins lines that begin with text. The header may fix the indentation, and may say
what becomes of the line ends at the end.
-/

namespace Cadence.Yaml

/-- What becomes of the line ends at the end: the first one is kept, or none, or all. -/
inductive Chomp where
  | clip
  | strip
  | keep
  deriving Repr, DecidableEq

/-- The first line of a block scalar. -/
structure BlockHeader where
  chomp : Chomp := .clip
  /-- how much deeper than its surroundings the text is indented, if the header says so -/
  depth? : Option Nat := none
  deriving Repr, DecidableEq

/-- Reads what says how to end, if it is there. -/
def readChomp : List Char → Option Chomp × List Char
  | '+' :: cs => (some .keep, cs)
  | '-' :: cs => (some .strip, cs)
  | cs => (none, cs)

/-- Reads the depth, if it is there. Zero is no depth. -/
def readDepth : List Char → Except Problem (Option Nat × List Char)
  | c :: cs =>
    if c = '0' then .error .header
    else if c.isDigit then .ok (some (c.toNat - 48), cs)
    else .ok (none, c :: cs)
  | [] => .ok (none, [])

/-- Reads to the end of a line on which only a comment may stand. -/
def skipLine (inComment : Bool) : List Char → Except Problem (List Char)
  | [] => .ok []
  | c :: cs =>
    if isBreak c then .ok cs
    else if inComment || c = '#' then skipLine true cs
    else if c = ' ' then skipLine false cs
    else .error .header

/-- Reads the header after its first character, and its line end. -/
def readHeader (cs : List Char) : Except Problem (BlockHeader × List Char) := do
  let (before?, cs) := readChomp cs
  let (depth?, cs) ← readDepth cs
  let (after?, cs) := if before?.isNone && depth?.isSome then readChomp cs else (none, cs)
  if cs.head?.any fun c => c != ' ' && !isBreak c then .error .header
  let cs ← skipLine false cs
  return (⟨(before?.or after?).getD .clip, depth?⟩, cs)

/-- The deepest column that the spaces before the first text reach. -/
def deepest (column most : Nat) : List Char → Nat
  | [] => most
  | c :: cs =>
    if c = ' ' then deepest (column + 1) (max most (column + 1)) cs
    else if isBreak c then deepest 0 most cs
    else most

/-- The lines of a block scalar so far. -/
structure BlockLines where
  /-- the text, the last character first -/
  reversed : List Char := []
  /-- the end of the last line with text -/
  lineEnd? : Option Char := none
  /-- the last line with text began with it, and not with a blank -/
  flush : Bool := true
  /-- line ends after that -/
  breaks : List Char := []
  deriving Repr, DecidableEq

/-- Begins a line, which joins the one before it when it is folded and both begin with text. -/
def BlockLines.begin (lines : BlockLines) (folded : Bool) (c : Char) : BlockLines :=
  let joint := match lines.lineEnd? with
    | none => []
    | some lineEnd =>
      if folded && lineEnd == '\n' && lines.flush && !isBlank c then
        (if lines.breaks.isEmpty then [' '] else [])
      else [lineEnd]
  { reversed := c :: ((joint ++ lines.breaks).reverse ++ lines.reversed)
    flush := !isBlank c }

/-- The text with what is left of the line ends at the end. -/
def BlockLines.text (lines : BlockLines) (chomp : Chomp) : List Char :=
  let ending := match chomp with
    | .strip => []
    | .clip => lines.lineEnd?.toList
    | .keep => lines.lineEnd?.toList ++ lines.breaks
  lines.reversed.reverse ++ ending

/-- Reads lines indented to a column. A column is given while the reader stands in the indentation of
a line. -/
def readLines (folded : Bool) (indent : Nat) :
    Option Nat → BlockLines → List Char → BlockLines × List Char
  | _, lines, [] => (lines, [])
  | none, lines, c :: cs =>
    if isBreak c then readLines folded indent (some 0) { lines with lineEnd? := some c } cs
    else readLines folded indent none { lines with reversed := c :: lines.reversed } cs
  | some column, lines, c :: cs =>
    if isBreak c then
      readLines folded indent (some 0) { lines with breaks := lines.breaks ++ [c] } cs
    else if c = ' ' ∧ column < indent then readLines folded indent (some (column + 1)) lines cs
    else if column = indent then readLines folded indent none (lines.begin folded c) cs
    else (lines, c :: cs)

/-- Reads a block scalar after its first character, inside a block with an indentation. -/
def readBlock (folded : Bool) (outer : Nat) (cs : List Char) :
    Except Problem (List Char × List Char) := do
  let (header, cs) ← readHeader cs
  let indent := match header.depth? with
    | some depth => outer + depth - 1
    | none => max outer (deepest 0 0 cs)
  let (lines, rest) := readLines folded indent (some 0) {} cs
  return (lines.text header.chomp, rest)

end Cadence.Yaml
