import Cadence.Time
import Cadence.Yaml.Writer

/-!
# Times and signatures in writing

What is shown of a time or a signature is its numbers. It can be written if each of them can.
-/

namespace Cadence

/-- A text that shows numbers, if none of them has too many digits. -/
def textShowing (numbers : List Int) (text : String) : Except Yaml.TooLong String :=
  match Yaml.tooLong? numbers with
  | some e => .error e
  | none => .ok text

/-- The number of a time that has too many digits, if one has. -/
def Time.tooLong? (t : Time) : Option Yaml.TooLong := Yaml.tooLong? t.numbers

/-- The text of a time, if there is one. -/
def Time.write? (t : Time) : Except Yaml.TooLong String := textShowing t.numbers t.text

/-- The text of a signature, if there is one. -/
def Signature.write? (s : Signature) : Except Yaml.TooLong String := textShowing s.numbers s.text

end Cadence
