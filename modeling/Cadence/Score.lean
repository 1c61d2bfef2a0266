import Cadence.Score.Bytes

/-!
# Score files

Every pattern becomes a score file of its own. What cannot be written is found before anything is:
the tempo first, then the signature, then the notes in order.
-/

namespace Cadence.Score

/-- Whether the status byte of a note may be left out. -/
inductive Layout where
  | plain
  | running
  deriving Repr, DecidableEq

/-- The resolutions that a header can carry. -/
def Layout.fits : Layout → Int → Bool
  | plain, r => 0 ≤ r && r ≤ 65535
  | running, r => -32768 ≤ r && r ≤ 32767

/-- The body of a track. -/
def Layout.body : Layout → Track → Except EncodeError (List UInt8)
  | plain, track => plainBody track
  | running, track => runningBody false track

/-- The first pitch in the order of the messages that is no note. -/
def badPitch? (events : List Event) : Option Int :=
  (events.flatMap (·.pitches)).find? fun p => p < 0 || 127 < p

/-- The track of the chords, if its name has bytes and every pitch is a note. -/
def chordTrack (p : Pattern) : Except EncodeError Track :=
  match p.name with
  | .broken name => .error (.brokenName name)
  | .whole _ => if (badPitch? p.events).isSome then .error .noteRange else .ok (noteTrack p)

/-- The tracks of a pattern. -/
def tracks (p : Pattern) : Except EncodeError (List Track) :=
  match tempoOf? p.bpm with
  | none => .error .divisionByZero
  | some tempo =>
    if tempo < 0 ∨ 16777215 < tempo then .error .tempoRange
    else if p.signature.numerator < 0 ∨ 255 < p.signature.numerator then .error .numeratorRange
    else do return [tempoTrack tempo p.signature, ← chordTrack p]

/-- The chunk of a track, if the length of its body fits the field for it. -/
def Layout.trackChunk (layout : Layout) (track : Track) : Except EncodeError (List UInt8) :=
  match layout.body track with
  | .error e => .error e
  | .ok body =>
    if body.length < 4294967296 then .ok (chunk trackLetters body) else .error .chunkRange

/-- Tracks as a file with a resolution in ticks per beat. -/
def write (layout : Layout) (resolution : Int) (tracks : List Track) :
    Except EncodeError (List UInt8) :=
  if !layout.fits resolution then .error .resolutionRange
  else do
    let header := fixed 2 1 ++ fixed 2 tracks.length ++ fixed 2 (resolution.emod 65536).toNat
    return chunk headerLetters header ++ (← tracks.mapM layout.trackChunk).flatten

/-- The score file of a pattern. -/
def encode (p : Pattern) (layout : Layout := .plain) (resolution : Int := ticksPerBeat) :
    Except EncodeError (List UInt8) := do
  write layout resolution (← tracks p)

/-- A name with what it stands for, in place of what it stood for before. -/
def put {α : Type} (name : Name) (a : α) : List (Name × α) → List (Name × α)
  | [] => [(name, a)]
  | (other, b) :: rest =>
    if other = name then (name, a) :: rest else (other, b) :: put name a rest

/-- The score files of all patterns by name. A name that comes again keeps its place and takes the
later file. -/
def encodeAll (c : Composition) : Except EncodeError (List (Name × List UInt8)) := do
  let files ← c.patterns.mapM fun p => do return (p.name, ← encode p)
  return files.foldl (fun named (name, file) => put name file named) []

end Cadence.Score
