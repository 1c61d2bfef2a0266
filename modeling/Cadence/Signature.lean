import Cadence.Text.Quoted
import Cadence.Text.Numeral

/-!
# Time signatures

A signature may be any pair of numbers, so that a wrong one can still be shown. Eight intervals
make a beat, and a beat is 480 ticks in a score.
-/

namespace Cadence

/-- Why a text is not a time or a signature. -/
inductive NotationError where
  /-- a part is not a whole number -/
  | numeral (text : String)
  /-- a part has too many digits -/
  | tooLong (digits : Nat)
  /-- the wrong number of parts, in a signature -/
  | signature (text : String)
  /-- the wrong number of parts, in a time -/
  | time (text : String)
  /-- a time field below zero -/
  | negative (bar beat interval : Int)
  deriving Repr, DecidableEq

namespace NotationError

/-- The most characters that a message shows of a part, with its quotes. -/
def shownLength : Nat := 200

def message : NotationError → String
  | numeral text =>
    "invalid literal for int() with base 10: " ++
      String.ofList ((Text.quoted text).toList.take shownLength)
  | tooLong digits =>
    "Exceeds the limit (" ++ Nat.repr Text.digitLimit ++ " digits) for integer string conversion: " ++
      "value has " ++ Nat.repr digits ++
        " digits; use sys.set_int_max_str_digits() to increase the limit"
  | signature text => "Invalid time signature format: " ++ text
  | time text => "Invalid music time format: " ++ text
  | negative bar beat interval =>
    let field (n : Int) := String.ofList (Text.numeral n)
    "Music time fields must be non-negative, got (" ++ field bar ++ ", " ++ field beat ++ ", " ++
      field interval ++ ")"

end NotationError

/-- Reads one part of a time or a signature. -/
def readPart (part : List Char) : Except NotationError Int :=
  match Text.readInt part with
  | some n => .ok n
  | none =>
    let digits := Text.digitCount part
    if Text.digitLimit < digits then .error (.tooLong digits)
    else .error (.numeral (String.ofList part))

/-- Intervals in a beat. -/
def intervalsPerBeat : Nat := 8

/-- Ticks in an interval. -/
def ticksPerInterval : Int := 60

/-- Ticks in a beat. -/
def ticksPerBeat : Int := 480

/-- Beats in a bar over the unit of a beat. -/
structure Signature where
  numerator : Int
  denominator : Int
  deriving Repr, DecidableEq

namespace Signature

/-- Four beats of a quarter. -/
def common : Signature := ⟨4, 4⟩

/-- The power of two that a supported denominator is. -/
def power? (s : Signature) : Option Nat :=
  [(2, 1), (4, 2), (8, 3), (16, 4), (32, 5), (64, 6)].lookup s.denominator

/-- The denominator as a power of two, zero when it is not supported. -/
def power (s : Signature) : Nat := s.power?.getD 0

/-- A signature that a pattern may have: some beats, over a supported denominator. -/
def IsValid (s : Signature) : Prop := 0 < s.numerator ∧ s.power?.isSome

instance (s : Signature) : Decidable s.IsValid := by unfold IsValid; infer_instance

/-- Intervals in a bar. -/
def intervalsPerBar (s : Signature) : Int := s.numerator * intervalsPerBeat

/-- Ticks in a bar, at a resolution. -/
def ticksPerBar (s : Signature) (resolution : Int := ticksPerBeat) : Int := s.numerator * resolution

/-- The two numbers with a stroke between them. -/
def chars (s : Signature) : List Char :=
  Text.numeral s.numerator ++ '/' :: Text.numeral s.denominator

def text (s : Signature) : String := String.ofList s.chars

/-- The numbers in its text. -/
def numbers (s : Signature) : List Int := [s.numerator, s.denominator]

/-- Reads two numbers with a stroke between them. -/
def parse (text : String) : Except NotationError Signature :=
  match Text.splitAt '/' text.toList with
  | [count, unit] => do return ⟨← readPart count, ← readPart unit⟩
  | _ => .error (.signature text)

end Signature

end Cadence
