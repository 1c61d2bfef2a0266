import Cadence.Text.Name
import Cadence.Text.Numeral

/-!
# Keys and pitches

A key is a number of semitones above C. A pitch is a note number; what is played lies between the
lowest and the highest playable note.
-/

namespace Cadence

/-- The twelve keys, each by its distance from C. -/
inductive Key where
  | c | cSharp | d | dSharp | e | f | fSharp | g | gSharp | a | aSharp | b
  deriving Repr, DecidableEq

namespace Key

/-- The keys in rising order. -/
def all : List Key := [c, cSharp, d, dSharp, e, f, fSharp, g, gSharp, a, aSharp, b]

/-- Semitones above C. -/
def semitones : Key → Nat
  | c => 0 | cSharp => 1 | d => 2 | dSharp => 3 | e => 4 | f => 5
  | fSharp => 6 | g => 7 | gSharp => 8 | a => 9 | aSharp => 10 | b => 11

/-- Keys are spelled with sharps only. -/
def spell : Key → String
  | c => "C" | cSharp => "C#" | d => "D" | dSharp => "D#" | e => "E" | f => "F"
  | fSharp => "F#" | g => "G" | gSharp => "G#" | a => "A" | aSharp => "A#" | b => "B"

/-- Reads a key. A name that spells none is C, so a slip in a key never stops a composition. -/
def parse (name : Name) : Key :=
  (all.find? fun k => k.spell == name.strip).getD c

/-- The key a number of semitones above C, whatever the octave. -/
def ofSemitones (n : Int) : Key := all.getD (n.emod 12).toNat c

theorem parse_spell (k : Key) : parse k.spell = k := by cases k <;> decide

end Key

/-! ## Pitches -/

/-- The lowest playable note, C of the first octave. -/
def lowestNote : Int := 24

/-- The highest playable note, B of the seventh octave. -/
def highestNote : Int := 107

/-- The note an interval above a base note, held inside the playable range. -/
def noteAt (interval : Int) (base : Int := lowestNote) : Int :=
  max lowestNote (min highestNote (base + interval))

/-- The octave of a note. The lowest note begins the first octave. -/
def octaveOf (pitch : Int) : Int := (pitch - lowestNote).fdiv 12 + 1

/-- The key of a note, whatever its octave. -/
def keyOf (pitch : Int) : Key := Key.ofSemitones (pitch - lowestNote)

/-- A note as key and octave. -/
def spellPitch (pitch : Int) : String :=
  (keyOf pitch).spell ++ String.ofList (Text.numeral (octaveOf pitch))

theorem lowestNote_le_noteAt (interval base : Int) : lowestNote ≤ noteAt interval base := by
  unfold noteAt; omega

theorem noteAt_le_highestNote (interval base : Int) : noteAt interval base ≤ highestNote := by
  unfold noteAt lowestNote highestNote; omega

end Cadence
