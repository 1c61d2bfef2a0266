import Cadence.Performance.Player

/-!
# Samplers on a port

A sampler plays sounds by index as notes on a channel of a port. A note sounds until it is played
again or released. Two samplers may share a port, each on a channel of its own.
-/

namespace Cadence

/-- A message on a port. -/
inductive PortMessage where
  | noteOn (channel note velocity : Int)
  | noteOff (channel note : Int)
  deriving Repr, DecidableEq

/-- Why a sampler cannot play. -/
inductive SamplerError where
  | channel (channel : Int)
  /-- there is no note for an index -/
  | noNote
  /-- a note or velocity that no message can carry -/
  | dataRange
  deriving Repr, DecidableEq

namespace SamplerError

def message : SamplerError → String
  | channel n => "Channel must be 0-15, got " ++ String.ofList (Text.numeral n)
  | noNote => "list index out of range"
  | dataRange => "data byte must be in range 0..127"

end SamplerError

/-! ## Messages -/

namespace PortMessage

/-- Whether a message can carry a number. -/
def isDataByte (n : Int) : Bool := 0 ≤ n && n ≤ 127

/-- Whether there is such a message. Its channel is one of the sixteen. -/
def isPossible : PortMessage → Bool
  | noteOn _ note velocity => isDataByte note && isDataByte velocity
  | noteOff _ note => isDataByte note

/-- Sends messages in turn, up to the first that is not possible. -/
def transmit : List PortMessage → List PortMessage × Option SamplerError
  | [] => ([], none)
  | m :: ms =>
    if m.isPossible then
      let (sent, error?) := transmit ms
      (m :: sent, error?)
    else ([], some .dataRange)

end PortMessage

/-! ## Samplers -/

/-- A sampler and the notes that sound on its channel, in rising order. -/
structure Sampler where
  channel : Int := 0
  /-- the note for each index; without a list the index counts from the lowest note -/
  notes? : Option (List Int) := none
  velocity : Int := 64
  sounding : List Int := []
  deriving Repr, DecidableEq

namespace Sampler

/-- A sampler on one of the sixteen channels. -/
def new (channel : Int) (notes? : Option (List Int)) (velocity : Int) :
    Except SamplerError Sampler :=
  if 0 ≤ channel ∧ channel ≤ 15 then .ok { channel, notes?, velocity }
  else .error (.channel channel)

/-- The note of an index. A negative index counts from the end of the list. -/
def noteFor (s : Sampler) (index : Int) : Except SamplerError Int :=
  match s.notes? with
  | none => .ok (index + lowestNote)
  | some notes =>
    let place := if 0 ≤ index then index else index + notes.length
    if place < 0 then .error .noNote
    else match notes[place.toNat]? with
      | some note => .ok note
      | none => .error .noNote

/-- Adds a note to rising notes, unless it is there. -/
def addNote (note : Int) : List Int → List Int
  | [] => [note]
  | n :: ns => if note < n then note :: n :: ns else if note = n then n :: ns else n :: addNote note ns

/-- What comes of using a sampler: what was sent, the sampler after that, and the error that ended
it, if one did. -/
structure Attempt where
  sent : List PortMessage
  sampler : Sampler
  error? : Option SamplerError := none
  deriving Repr, DecidableEq

/-- Sends messages. Only when all are sent do other notes sound. -/
def attempt (s : Sampler) (messages : List PortMessage) (sounding : List Int) : Attempt :=
  match PortMessage.transmit messages with
  | (sent, some e) => { sent, sampler := s, error? := some e }
  | (sent, none) => { sent, sampler := { s with sounding } }

/-- Plays an index. A note that sounds already ends first. -/
def play (s : Sampler) (index : Int) : Attempt :=
  match s.noteFor index with
  | .error e => { sent := [], sampler := s, error? := some e }
  | .ok note =>
    let ends := if s.sounding.contains note then [.noteOff s.channel note] else []
    s.attempt (ends ++ [.noteOn s.channel note s.velocity]) (addNote note s.sounding)

/-- Ends every note that sounds. -/
def release (s : Sampler) : Attempt := s.attempt (s.sounding.map (.noteOff s.channel)) []

end Sampler

/-! ## Instrument and metronome -/

/-- The two samplers of a port. -/
inductive Voice where
  | instrument
  | metronome
  deriving Repr, DecidableEq

/-- A use of one of them. -/
inductive PortAction where
  | play (voice : Voice) (index : Int)
  | release (voice : Voice)
  deriving Repr, DecidableEq

/-- What a cue asks for. -/
def Cue.action? : Cue → Option PortAction
  | callback _ => none
  | play index => some (.play .instrument index)
  | click index => some (.play .metronome index)

/-- What is done to a port. -/
inductive PortOperation where
  | send (m : PortMessage)
  | close
  deriving Repr, DecidableEq

/-- The instrument and the metronome of one port. -/
structure Rig where
  instrument : Sampler
  metronome : Sampler
  deriving Repr, DecidableEq

namespace Rig

/-- The instrument on the first channel, the metronome with two wood blocks on the drum channel. -/
def standard : Rig := ⟨{}, { channel := 9, notes? := some [77, 76] }⟩

def sampler (rig : Rig) : Voice → Sampler
  | .instrument => rig.instrument
  | .metronome => rig.metronome

/-- What comes of using a rig. -/
structure Attempt where
  sent : List PortMessage
  rig : Rig
  error? : Option SamplerError := none
  deriving Repr, DecidableEq

/-- A rig after one of its samplers was used. -/
def after (rig : Rig) (a : Sampler.Attempt) : Voice → Attempt
  | .instrument => ⟨a.sent, { rig with instrument := a.sampler }, a.error?⟩
  | .metronome => ⟨a.sent, { rig with metronome := a.sampler }, a.error?⟩

/-- Uses a sampler. -/
def act (rig : Rig) : PortAction → Attempt
  | .play voice index => rig.after ((rig.sampler voice).play index) voice
  | .release voice => rig.after (rig.sampler voice).release voice

/-- Uses samplers in turn, up to the first error. -/
def acts (rig : Rig) : List PortAction → Attempt
  | [] => { sent := [], rig }
  | a :: rest =>
    let first := rig.act a
    match first.error? with
    | some _ => first
    | none =>
      let others := first.rig.acts rest
      { others with sent := first.sent ++ others.sent }

/-- Sounds cues on a port. However they end, what still sounds is released, the metronome first, and
the port is closed. -/
def session (rig : Rig) (cues : List Cue) : List PortOperation × Option SamplerError :=
  let played := rig.acts (cues.filterMap Cue.action?)
  let released := played.rig.acts [.release .metronome, .release .instrument]
  let sent := (played.sent ++ released.sent).map .send
  match released.error? with
  | some e => (sent, some e)
  | none => (sent ++ [.close], played.error?)

end Rig

end Cadence
