import Cadence.Number.Double
import Cadence.Timeline

/-!
# Score messages

A score has two tracks: one sets tempo and signature, the other plays the chords of a pattern. A
message stands at a number of ticks after the message before it.
-/

namespace Cadence.Score

/-- One message of a track. Notes are on the first channel. -/
inductive Message where
  /-- microseconds in a beat -/
  | tempo (microseconds : Int)
  /-- the denominator is a power of two -/
  | signature (numerator : Int) (power : Nat)
  | trackName (name : String)
  /-- a note that begins, or with velocity zero one that ends -/
  | note (pitch : Int) (velocity : Nat)
  | endOfTrack
  deriving Repr, DecidableEq

/-- A message and the ticks between it and the one before. -/
structure Timed where
  delta : Int
  message : Message
  deriving Repr, DecidableEq

/-- A track in the order in which it is written. -/
abbrev Track := List Timed

/-! ## The track of the chords -/

/-- The velocity of a note that begins. -/
def onVelocity : Nat := 64

/-- The velocity of a note that ends. -/
def offVelocity : Nat := 0

/-- One message for each pitch, all at once, the first after a delta. -/
def chordMessages (delta : Int) (velocity : Nat) : List Int → Track
  | [] => []
  | p :: ps => ⟨delta, .note p velocity⟩ :: ps.map fun q => ⟨0, .note q velocity⟩

/-- A chord sounds until the next event, silent or not; the last one until its bar is over. -/
def soundsUntil (event : Event) : List Event → Time
  | [] => event.time.nextBar
  | next :: _ => next.time

/-- The messages of events after a number of ticks. Silent events have none. -/
def noteMessages (signature : Signature) : Int → List Event → Track
  | _, [] => []
  | now, event :: rest =>
    if event.pitches.isEmpty then noteMessages signature now rest
    else
      let begins := event.time.ticks signature
      let ends := (soundsUntil event rest).ticks signature
      chordMessages (begins - now) onVelocity event.pitches ++
        chordMessages (ends - begins) offVelocity event.pitches ++
        noteMessages signature ends rest

/-- The track that plays a pattern. -/
def noteTrack (p : Pattern) : Track :=
  ⟨0, .trackName p.name.text⟩ :: noteMessages p.signature 0 p.events ++ [⟨0, .endOfTrack⟩]

/-! ## The track of the tempo -/

/-- Microseconds in a beat, a half going to the even neighbour. There is none at zero beats. -/
def tempoOf? (bpm : Int) : Option Int :=
  if bpm = 0 then none
  else
    let n : Int := Double.roundHalfEven 60000000 bpm.natAbs
    some (if bpm < 0 then -n else n)

/-- The track that sets tempo and signature. -/
def tempoTrack (tempo : Int) (signature : Signature) : Track :=
  [⟨0, .tempo tempo⟩, ⟨0, .signature signature.numerator signature.power⟩, ⟨0, .endOfTrack⟩]

/-- MIDI clocks in a click, as every score has it. -/
def clocksPerClick : Nat := 8

/-- Notated 32nd notes in a beat, as every score has it. -/
def thirtySecondsPerBeat : Nat := 24

end Cadence.Score
