import Cadence.Value
import Cadence.Yaml.Style

/-!
# From values to text

A collection of scalars is written in brackets, any other one as a block with an entry on each line. A
list in a block mapping stands below its key; what a list in a block holds begins on the same line.
A number with too many digits cannot be written.
-/

namespace Cadence.Yaml

/-- Anything but a list or a mapping. -/
def isScalar : Value → Bool
  | .list _ | .map _ => false
  | _ => true

/-- A collection that holds another one. -/
def isBlock : Value → Bool
  | .list vs => !vs.all isScalar
  | .map es => !es.all (isScalar ·.2)
  | _ => false

/-- The column after some text. -/
def columnAfter (column : Nat) (cs : List Char) : Nat :=
  cs.foldl (fun n c => if c = '\n' then 0 else n + 1) column

/-- A scalar as it is written from a column on. -/
def writeScalar (inFlow : Bool) (indent column : Nat) : Value → List Char
  | .text s => writeText inFlow indent column s.toList
  | .brokenText b => '\x22' :: writeDouble indent true true (column + 1) b.points
  | .null => ['n', 'u', 'l', 'l']
  | .bool b => if b then ['t', 'r', 'u', 'e'] else ['f', 'a', 'l', 's', 'e']
  | .int n => Text.numeral n
  | .float x => x.text.toList
  | _ => []

/-! ## In brackets -/

/-- Writes the items of a bracket from a column on. A line that is too long ends before an item. -/
def writeFlow (indent : Nat) (write : Nat → α → List Char) : Bool → Nat → List α → List Char
  | _, _, [] => []
  | first, column, a :: as =>
    let comma := if first then [] else [',']
    let column := column + comma.length
    let gap := if lineWidth < column then newLine indent else if first then [] else [' ']
    let shown := gap ++ write (columnAfter column gap) a
    comma ++ shown ++ writeFlow indent write false (columnAfter column shown) as

/-- A scalar, or a collection of scalars in brackets. -/
def writeInline (indent column : Nat) : Value → List Char
  | .list vs => '[' :: writeFlow indent (writeScalar true (indent + 2)) true (column + 1) vs ++ [']']
  | .map es =>
    let entry (column : Nat) (e : String × Value) :=
      e.1.toList ++ ':' :: ' ' :: writeScalar true (indent + 2) (column + e.1.length + 2) e.2
    '{' :: writeFlow indent entry true (column + 1) es ++ ['}']
  | v => writeScalar false indent column v

/-! ## In blocks -/

mutual

/-- A value in a block. The first line of a collection is not indented. -/
def writeBlock (indent : Nat) : Value → List Char
  | .list vs => writeItems indent vs
  | .map es => writeEntries indent es
  | v => writeInline indent 0 v

/-- The items of a list. -/
def writeItems (indent : Nat) : List Value → List Char
  | [] => []
  | v :: vs =>
    let item := if isBlock v then writeBlock (indent + 2) v else writeInline (indent + 2) (indent + 2) v
    '-' :: ' ' :: item ++ (if vs.isEmpty then [] else newLine indent ++ writeItems indent vs)

/-- The entries of a mapping. -/
def writeEntries (indent : Nat) : List (String × Value) → List Char
  | [] => []
  | (name, v) :: es =>
    let value := match v with
      | .list _ =>
        if isBlock v then newLine indent ++ writeBlock indent v
        else ' ' :: writeInline (indent + 2) (indent + name.length + 2) v
      | _ =>
        if isBlock v then newLine (indent + 2) ++ writeBlock (indent + 2) v
        else ' ' :: writeInline (indent + 2) (indent + name.length + 2) v
    name.toList ++ ':' :: value ++ (if es.isEmpty then [] else newLine indent ++ writeEntries indent es)

end

/-- The text of a value. -/
def write (v : Value) : String :=
  let body := if isBlock v then writeBlock 0 v else writeInline 2 0 v
  String.ofList (body ++ ['\n'])

/-! ## Numbers that are too long -/

/-- A number with more digits than can be written. -/
structure TooLong where
  number : Int
  deriving Repr, DecidableEq

def TooLong.message (_ : TooLong) : String :=
  "Exceeds the limit (" ++ Nat.repr Meaning.digitLimit ++ " digits) for integer string " ++
    "conversion; use sys.set_int_max_str_digits() to increase the limit"

/-- A number with few enough digits to be written, and to be read again. -/
def isShort (n : Int) : Bool := (Text.digits n.natAbs).length ≤ Meaning.digitLimit

mutual

/-- The numbers in a value, in the order in which they are written. -/
def numbers : Value → List Int
  | .int n => [n]
  | .list vs => itemNumbers vs
  | .map es => entryNumbers es
  | _ => []

def itemNumbers : List Value → List Int
  | [] => []
  | v :: vs => numbers v ++ itemNumbers vs

def entryNumbers : List (String × Value) → List Int
  | [] => []
  | (_, v) :: es => numbers v ++ entryNumbers es

end

/-- The first of some numbers that is too long. -/
def tooLong? (ns : List Int) : Option TooLong := (ns.find? (!isShort ·)).map TooLong.mk

/-- The text of a value, if every number in it can be written. -/
def write? (v : Value) : Except TooLong String :=
  match (numbers v).find? (!isShort ·) with
  | some n => .error ⟨n⟩
  | none => .ok (write v)

end Cadence.Yaml
