import Cadence.Number.Shortest
import Cadence.Text.Name

/-!
# Plain data

What a document is made of once its text is read, and what replies are made of before they are
written.
-/

namespace Cadence

/-- A plain value. A mapping keeps the order of its entries. -/
inductive Value where
  | null
  | bool (b : Bool)
  | int (n : Int)
  | float (x : Double)
  | text (s : String)
  /-- text with half of a character in it -/
  | brokenText (b : Broken)
  | bytes (bs : List UInt8)
  | date
  | dateTime
  /-- a set, into which nothing looks -/
  | set
  | list (items : List Value)
  | map (entries : List (String × Value))
  deriving Repr

namespace Value

instance : Inhabited Value := ⟨null⟩

/-- The name of a value's kind. -/
def kind : Value → String
  | null => "NoneType"
  | bool _ => "bool"
  | int _ => "int"
  | float _ => "float"
  | text _ | brokenText _ => "str"
  | bytes _ => "bytes"
  | date => "date"
  | dateTime => "datetime"
  | set => "set"
  | list _ => "list"
  | map _ => "dict"

/-- The last entry with a name: a later entry replaces an earlier one. -/
def lookup (entries : List (String × Value)) (name : String) : Option Value :=
  entries.reverse.lookup name

/-- A list of values. -/
def ofList {α : Type} (f : α → Value) (xs : List α) : Value := list (xs.map f)

/-- Whether a value counts as given: nothing, no, zero and what is empty do not. -/
def isGiven : Value → Bool
  | null => false
  | bool b => b
  | int n => n != 0
  | float (.finite _ m _) => m != 0
  | text s => s != ""
  | bytes bs => !bs.isEmpty
  | list items => !items.isEmpty
  | map entries => !entries.isEmpty
  | _ => true

mutual

/-- A value as it is shown inside a list. -/
def shown : Value → String
  | null => "None"
  | bool b => if b then "True" else "False"
  | int n => String.ofList (Text.numeral n)
  | float x => x.text
  | text s => Text.quoted s
  | brokenText b => b.quoted
  | bytes _ | date | dateTime | set => ""
  | list items => "[" ++ ", ".intercalate (shownItems items) ++ "]"
  | map entries => "\x7b" ++ ", ".intercalate (shownEntries entries) ++ "\x7d"

def shownItems : List Value → List String
  | [] => []
  | v :: vs => shown v :: shownItems vs

def shownEntries : List (String × Value) → List String
  | [] => []
  | (name, v) :: vs => (Text.quoted name ++ ": " ++ shown v) :: shownEntries vs

end

/-- A value as a name: text stands for itself. -/
def asName : Value → Name
  | text s => s
  | brokenText b => .broken b
  | v => v.shown

/-- A name as a value. -/
def ofName : Name → Value
  | .whole s => text s
  | .broken b => brokenText b

@[simp] theorem ofName_whole (s : String) : ofName (.whole s) = text s := rfl

@[simp] theorem asName_ofName (name : Name) : (ofName name).asName = name := by
  cases name <;> rfl

@[simp] theorem ofName_inj {name other : Name} : ofName name = ofName other ↔ name = other := by
  constructor
  · intro h
    rw [← asName_ofName name, h, asName_ofName]
  · exact congrArg ofName

end Value

end Cadence
