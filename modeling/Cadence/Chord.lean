import Cadence.Chord.Table
import Cadence.Pitch

/-!
# Chords

A chord token names a stack of intervals: a chord of the table, a custom chord, or a random pick.
A `Voicing` is such a stack with a transposition that stays exact until pitches are taken.
-/

namespace Cadence

/-- The chords that a document adds, in the order in which it gives them. -/
abbrev CustomChords := List (Name × List Int)

/-- Where random chords come from: the pick numbered `n` is `source n`. -/
abbrev Picks := Nat → Nat

namespace Chord

/-- The candidate that a pick selects. -/
def pick (candidates : List (List Int)) (n : Nat) : List Int :=
  candidates.getD (n % candidates.length) []

/-- What `??` chooses from: the table, then the custom chords. -/
def anyCandidates (customs : CustomChords) : List (List Int) :=
  table.map (·.2) ++ customs.map (·.2)

/-- The chord with a name: the table first, then the custom chords, the first of a name winning.
An unknown name has no intervals. -/
def named (customs : CustomChords) (name : Name) : List Int :=
  ((table ++ customs).lookup name).getD []

/-- The intervals of a token and the number of picks drawn after it. `?` draws a custom chord, if
there is one; `??` draws from everything; any other token draws nothing. -/
def resolve (customs : CustomChords) (picks : Picks) (token : Name) (drawn : Nat) :
    List Int × Nat :=
  let name := token.strip
  if name = "?" then
    if customs.isEmpty then ([], drawn)
    else (pick (customs.map (·.2)) (picks drawn), drawn + 1)
  else if name = "??" then (pick (anyCandidates customs) (picks drawn), drawn + 1)
  else (named customs name, drawn)

/-- A list of intervals in brackets. -/
def showIntervals (intervals : List Int) : String :=
  "[" ++ ", ".intercalate (intervals.map fun i => String.ofList (Text.numeral i)) ++ "]"

/-- Every chord of the table as a line `NAME = [intervals]`. -/
def keywords : List String :=
  table.map fun (name, intervals) => name.text ++ " = " ++ showIntervals intervals

end Chord

/-! ## Voicings -/

/-- Intervals with a transposition in semitones that is still to be applied. -/
structure Voicing where
  intervals : List Int
  shift : Int := 0
  deriving Repr, DecidableEq

namespace Voicing

/-- Moved by a number of semitones. -/
def transpose (v : Voicing) (semitones : Int) : Voicing :=
  { v with shift := v.shift + semitones }

/-- Moved by whole octaves. -/
def transposeOctave (v : Voicing) (octaves : Int) : Voicing := v.transpose (octaves * 12)

/-- Moved into a key. -/
def inKey (v : Voicing) (key : Key) : Voicing := v.transpose key.semitones

/-- The pitches, one for each interval. -/
def pitches (v : Voicing) : List Int := v.intervals.map fun i => noteAt (i + v.shift)

theorem length_pitches (v : Voicing) : v.pitches.length = v.intervals.length := by
  simp [pitches]

end Voicing

/-- Chords sound in the third octave: this many octaves above the lowest note. -/
def playbackLift : Int := 2

/-- The pitches that intervals sound at in a key with a transposition. -/
def soundingPitches (intervals : List Int) (key : Key) (transpose : Int) : List Int :=
  ((((⟨intervals, 0⟩ : Voicing).inKey key).transpose transpose).transposeOctave playbackLift).pitches

end Cadence
