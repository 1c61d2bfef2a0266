import Mathlib.Data.List.Chain
import Cadence.Performance.Sampler

/-!
# What is heard on a port

Pure definitions over the messages of a port, with no sampler in them but for the last section: what
happens to one note of one channel, and when a port is left quiet. `Turns.lean` shows that samplers
keep to them.
-/

namespace Cadence

namespace PortMessage

def channel : PortMessage → Int
  | noteOn channel _ _ | noteOff channel _ => channel

def note : PortMessage → Int
  | noteOn _ note _ | noteOff _ note => note

/-- Whether a message begins a note, as against ending one. -/
def begins : PortMessage → Bool
  | noteOn _ _ _ => true
  | noteOff _ _ => false

end PortMessage

/-! ## One note -/

/-- The beginnings and the ends of a note on a channel, in order. -/
def strokes (channel note : Int) (sent : List PortMessage) : List Bool :=
  (sent.filter fun m => decide (m.channel = channel ∧ m.note = note)).map (·.begins)

/-- Beginnings and ends in turn, a beginning first. -/
def InTurn (strokes : List Bool) : Prop := strokes.head? ≠ some false ∧ strokes.IsChain (· ≠ ·)

/-! ## The whole port -/

def PortOperation.message? : PortOperation → Option PortMessage
  | send m => some m
  | close => none

/-- Closing a port is the last thing done to it, and every note that began has ended by then. -/
structure LeftQuiet (operations : List PortOperation) : Prop where
  closed : ∃ sent : List PortMessage, operations = sent.map .send ++ [.close]
  ended : ∀ before after channel note velocity,
    operations = before ++ .send (.noteOn channel note velocity) :: after →
      .send (.noteOff channel note) ∈ after

/-! ## Two samplers -/

namespace Rig

/-- Uses samplers in turn, however often one of them fails: what was sent, and the rig after that. -/
def tries (rig : Rig) : List PortAction → List PortMessage × Rig
  | [] => ([], rig)
  | a :: rest =>
    let (others, last) := (rig.act a).rig.tries rest
    ((rig.act a).sent ++ others, last)

/-- A rig is in step with what it has sent. -/
structure InStep (rig : Rig) (sent : List PortMessage) : Prop where
  /-- no note begins or ends twice -/
  inTurn : ∀ channel note, InTurn (strokes channel note sent)
  /-- a note that begins can be heard -/
  audible : ∀ channel note velocity, .noteOn channel note velocity ∈ sent → velocity ≠ 0
  /-- the notes that sound are those that began last -/
  sounding : ∀ voice note, note ∈ (rig.sampler voice).sounding ↔
    (strokes (rig.sampler voice).channel note sent).getLast? = some true
  /-- a play fails for want of a note or for a number that no message carries -/
  plays : ∀ voice index, (rig.act (.play voice index)).error? = none ↔
    ∃ note, (rig.sampler voice).noteFor index = .ok note ∧ (0 ≤ note ∧ note ≤ 127) ∧
      (0 ≤ (rig.sampler voice).velocity ∧ (rig.sampler voice).velocity ≤ 127)
  /-- a play that fails leaves no trace -/
  fails : ∀ voice index e, (rig.act (.play voice index)).error? = some e →
    rig.act (.play voice index) = { sent := [], rig, error? := some e }
  rising : ∀ voice, (rig.sampler voice).sounding.Pairwise (· < ·)
  /-- a release ends each note that sounds -/
  releases : ∀ voice, (rig.act (.release voice)).error? = none ∧
    (rig.act (.release voice)).sent =
      (rig.sampler voice).sounding.map (.noteOff (rig.sampler voice).channel) ∧
    ((rig.act (.release voice)).rig.sampler voice).sounding = []

end Rig

end Cadence
