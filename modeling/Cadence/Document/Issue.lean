/-!
# Issues

What a check finds wrong, and where. A check goes on after an issue, so the list that it ends with
is complete and in the order of the fields.
-/

namespace Cadence

/-- One step from a value to a part of it. -/
inductive Step where
  | field (name : String)
  | index (n : Nat)
  deriving Repr, DecidableEq

/-- What is wrong with a value. -/
inductive Flaw where
  | stringType | stringUnicode
  | intType | intParsing | intFromFloat | finiteNumber | intParsingSize
  | greaterThan | greaterThanEqual | lessThanEqual
  | tupleType | listType | modelType | valueError
  | tooLong | missing
  deriving Repr, DecidableEq

/-- The name of a flaw. -/
def Flaw.name : Flaw → String
  | stringType => "string_type"
  | stringUnicode => "string_unicode"
  | intType => "int_type"
  | intParsing => "int_parsing"
  | intFromFloat => "int_from_float"
  | finiteNumber => "finite_number"
  | intParsingSize => "int_parsing_size"
  | greaterThan => "greater_than"
  | greaterThanEqual => "greater_than_equal"
  | lessThanEqual => "less_than_equal"
  | tupleType => "tuple_type"
  | listType => "list_type"
  | modelType => "model_type"
  | valueError => "value_error"
  | tooLong => "too_long"
  | missing => "missing"

/-- A flaw and the way to it from the value that was checked. -/
structure Issue where
  path : List Step
  flaw : Flaw
  deriving Repr, DecidableEq

/-- The outcome of a check: what was read, or everything that is wrong. -/
abbrev Checked (α : Type) := Except (List Issue) α

namespace Checked

/-- A single flaw at the value itself. -/
def flaw {α : Type} (f : Flaw) : Checked α := .error [⟨[], f⟩]

/-- The outcome for a part, seen from the whole. -/
def under {α : Type} (step : Step) : Checked α → Checked α
  | .ok a => .ok a
  | .error issues => .error (issues.map fun i => { i with path := step :: i.path })

/-- Two outcomes at once, with the issues of both. -/
def both {α β : Type} : Checked α → Checked β → Checked (α × β)
  | .ok a, .ok b => .ok (a, b)
  | .ok _, .error js => .error js
  | .error is, .ok _ => .error is
  | .error is, .error js => .error (is ++ js)

/-- Every item of a list, the first at an index. -/
def items {α β : Type} (check : α → Checked β) (first : Nat) : List α → Checked (List β)
  | [] => .ok []
  | a :: as =>
    (both (under (.index first) (check a)) (items check (first + 1) as)).map fun (b, bs) => b :: bs

end Checked

end Cadence
