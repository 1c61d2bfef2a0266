import Cadence.Proofs.Timeline
import Cadence.Score

/-!
# What a track says

Pure definitions, with no track in them that is being built. `NoteTrack.lean` shows that the track of
a pattern says exactly this.
-/

namespace Cadence.Score

/-! ## Ticks -/

/-- The messages of a track, each at the tick that the ticks before it add up to. -/
def placed (now : Int) : Track → List (Int × Message)
  | [] => []
  | timed :: rest => (now + timed.delta, timed.message) :: placed (now + timed.delta) rest

/-! ## Chords -/

/-- A chord with the ticks at which it begins and ends. -/
structure Sounding where
  pitches : List Int
  begins : Int
  ends : Int

namespace Sounding

def ons (c : Sounding) : List Message := c.pitches.map (.note · 64)

def offs (c : Sounding) : List Message := c.pitches.map (.note · 0)

/-- A note that begins for each pitch, then one that ends, in the same order. -/
def notes (c : Sounding) : List (Int × Message) :=
  c.ons.map (c.begins, ·) ++ c.offs.map (c.ends, ·)

/-- A chord sounds from its first tick on, and no more at its last. -/
def SoundsAt (c : Sounding) (tick : Int) : Prop := c.begins ≤ tick ∧ tick < c.ends

instance (c : Sounding) (tick : Int) : Decidable (c.SoundsAt tick) := by
  unfold SoundsAt; infer_instance

end Sounding

/-- The time at which an event ends: that of the next event, silent or not, or the next bar. -/
def cutOff (events : List Event) (index : Nat) (event : Event) : Time :=
  match events[index + 1]? with
  | some next => next.time
  | none => event.time.nextBar

/-- The chords of events, in order. -/
def soundings (s : Signature) (events : List Event) : List Sounding :=
  (events.mapIdx fun index event =>
    ⟨event.pitches, event.time.ticks s, (cutOff events index event).ticks s⟩).filter
      (·.pitches ≠ [])

/-- The chords of a pattern. -/
def chordsOf (p : Pattern) : List Sounding := soundings p.signature p.events

/-- The last tick of chords, the first tick of all if there are none. -/
def lastTick (chords : List Sounding) : Int := (chords.getLast?.map (·.ends)).getD 0

/-! ## Notes that are on -/

/-- How often a pitch was begun and not ended. -/
def balance (pitch : Int) (messages : List Message) : Int :=
  messages.count (.note pitch 64) - messages.count (.note pitch 0)

/-- No note ends before it begins, and in the end none is on. -/
structure Settles (messages : List Message) : Prop where
  nonneg : ∀ pitch part, part <+: messages → 0 ≤ balance pitch part
  zero : ∀ pitch, balance pitch messages = 0

end Cadence.Score
