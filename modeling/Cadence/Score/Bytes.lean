import Cadence.Score.Message

/-!
# Scores as bytes

A score file is a header chunk and a chunk for each track. Lengths and deltas are numbers of
variable length: seven bits a byte, the highest bit set on all bytes but the last.
-/

namespace Cadence.Score

/-- Why a pattern has no score. -/
inductive EncodeError where
  | divisionByZero
  | tempoRange
  | numeratorRange
  /-- a name without bytes -/
  | brokenName (name : Broken)
  | noteRange
  | resolutionRange
  | negativeDelta
  | negativeRunningDelta
  | chunkRange
  deriving Repr, DecidableEq

namespace EncodeError

def message : EncodeError → String
  | divisionByZero => "division by zero"
  | tempoRange => "attribute must be in range 0..16777215"
  | numeratorRange => "attribute must be in range 0..255"
  | brokenName name => name.noBytes
  | noteRange => "data byte must be in range 0..127"
  | resolutionRange => "resolution does not fit its field"
  | negativeDelta => "variable int must be a non-negative integer"
  | negativeRunningDelta => "message time must be non-negative in MIDI file"
  | chunkRange => "length of a track does not fit its field"

/-- Whether a message does not take a value, as against a division or a length that fails. -/
def isBadValue : EncodeError → Bool
  | divisionByZero | resolutionRange | chunkRange => false
  | tempoRange | numeratorRange | brokenName _ | noteRange | negativeDelta
  | negativeRunningDelta => true

end EncodeError

/-! ## Numbers -/

/-- A number in a fixed number of bytes, the highest first. -/
def fixed (width n : Nat) : List UInt8 :=
  match width with
  | 0 => []
  | w + 1 => fixed w (n / 256) ++ [UInt8.ofNat n]

/-- The bytes before the last one of a number of variable length. -/
def varyingHead (n : Nat) : List UInt8 :=
  if n = 0 then [] else varyingHead (n / 128) ++ [UInt8.ofNat (128 + n % 128)]
termination_by n

/-- A number of variable length. -/
def varying (n : Nat) : List UInt8 := varyingHead (n / 128) ++ [UInt8.ofNat (n % 128)]

/-! ## Messages -/

/-- A message that is not for a channel: its type, its length and its data. -/
def metaBytes (type : UInt8) (data : List UInt8) : List UInt8 :=
  0xff :: type :: varying data.length ++ data

/-- A name as the bytes that a track carries. -/
def nameBytes (name : String) : List UInt8 := name.toUTF8.toList

/-- The status byte of a message for a channel. -/
def noteStatus : UInt8 := 0x90

/-- A message with its status byte. -/
def Message.bytes : Message → List UInt8
  | tempo n => metaBytes 0x51 (fixed 3 n.toNat)
  | signature n power =>
    metaBytes 0x58 [UInt8.ofNat n.toNat, UInt8.ofNat power, UInt8.ofNat clocksPerClick,
      UInt8.ofNat thirtySecondsPerBeat]
  | trackName name => metaBytes 0x03 (nameBytes name)
  | note pitch velocity => [noteStatus, UInt8.ofNat pitch.toNat, UInt8.ofNat velocity]
  | endOfTrack => metaBytes 0x2f []

/-- Whether a message is for a channel. -/
def Message.isNote : Message → Bool
  | note _ _ => true
  | _ => false

/-- A track with every status byte. -/
def plainBody : Track → Except EncodeError (List UInt8)
  | [] => .ok []
  | ⟨delta, message⟩ :: rest =>
    if delta < 0 then .error .negativeDelta
    else (plainBody rest).map fun tail => varying delta.toNat ++ message.bytes ++ tail

/-- A track in which a note leaves out its status byte when the message before it was a note. -/
def runningBody (afterNote : Bool) : Track → Except EncodeError (List UInt8)
  | [] => .ok []
  | ⟨delta, message⟩ :: rest =>
    if delta < 0 then .error .negativeRunningDelta
    else (runningBody message.isNote rest).map fun tail =>
      varying delta.toNat ++ message.bytes.drop (if afterNote && message.isNote then 1 else 0) ++
        tail

/-- A chunk: its four letters, its length and its body. -/
def chunk (letters : List UInt8) (body : List UInt8) : List UInt8 :=
  letters ++ fixed 4 body.length ++ body

/-- The letters of the header chunk, `MThd`. -/
def headerLetters : List UInt8 := [0x4d, 0x54, 0x68, 0x64]

/-- The letters of a track chunk, `MTrk`. -/
def trackLetters : List UInt8 := [0x4d, 0x54, 0x72, 0x6b]

end Cadence.Score
