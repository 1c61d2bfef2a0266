import Cadence.Value

/-!
# Replies as text

Plain data is sent to a client as JSON.
-/

namespace Cadence

namespace Text

/-- One character of a JSON string. -/
def jsonChar (c : Char) : List Char :=
  if c = '\x22' ∨ c = '\\' then ['\\', c]
  else if c.toNat < 32 then '\\' :: 'u' :: hex 4 c.toNat
  else [c]

/-- A character, or half of one, of a JSON string. -/
def jsonPoint : Point → List Char
  | .char c => jsonChar c
  | .half h => h.escape

/-- A JSON string. -/
def jsonString (s : String) : String :=
  String.ofList ('\x22' :: s.toList.flatMap jsonChar ++ ['\x22'])

/-- A JSON string with halves of characters in it. -/
def jsonBroken (b : Broken) : String :=
  String.ofList ('\x22' :: b.points.flatMap jsonPoint ++ ['\x22'])

end Text

namespace Value

mutual

/-- A value as JSON. What has no form there is sent as nothing. -/
def json : Value → String
  | null | bytes _ | date | dateTime | set => "null"
  | bool b => if b then "true" else "false"
  | int n => String.ofList (Text.numeral n)
  | float x => x.text
  | text s => Text.jsonString s
  | brokenText b => Text.jsonBroken b
  | list items => "[" ++ ",".intercalate (jsonItems items) ++ "]"
  | map entries => "\x7b" ++ ",".intercalate (jsonEntries entries) ++ "\x7d"

def jsonItems : List Value → List String
  | [] => []
  | v :: vs => json v :: jsonItems vs

def jsonEntries : List (String × Value) → List String
  | [] => []
  | (name, v) :: vs => (Text.jsonString name ++ ":" ++ json v) :: jsonEntries vs

end

end Value

end Cadence
