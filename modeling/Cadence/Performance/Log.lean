import Cadence.Performance.Player
import Cadence.Value

/-!
# Recordings

What a listener remembers of a performance: the callbacks in order, the last time shown and the
events.
-/

namespace Cadence

namespace Event

/-- An event as plain fields. -/
def entries (e : Event) : List (String × Value) :=
  [("time", .list [.int e.time.bar, .int e.time.beat, .int e.time.interval]),
   ("pitches", .list (e.pitches.map .int))]

end Event

namespace Callback

/-- The name of a callback. -/
def name : Callback → String
  | ready _ => "ready"
  | patternBegin _ => "pattern_begin"
  | bar _ => "bar"
  | beat _ => "beat"
  | interval _ => "beat_interval"
  | event _ => "event"
  | patternEnd _ => "pattern_end"
  | completed _ => "completed"

/-- Whether a callback only tells the time. -/
def isClock : Callback → Bool
  | bar _ | beat _ | interval _ => true
  | _ => false

/-- What a callback carries. -/
def details : Callback → List (String × Value)
  | ready name | completed name => [("name", .ofName name)]
  | patternBegin p | patternEnd p => [("name", .ofName p.name)]
  | bar t | beat t | interval t => [("time", .text t.text)]
  | event e => e.entries

/-- A callback as an entry of a log. -/
def entry (c : Callback) : Value := .map (("callback", .text c.name) :: c.details)

/-- The numbers that are written for a callback. -/
def numbers : Callback → List Int
  | bar t | beat t | interval t => t.numbers
  | event e => e.time.numbers ++ e.pitches
  | _ => []

end Callback

/-! ## Lists of cues -/

namespace Cue

def callback? : Cue → Option Callback
  | callback c => some c
  | _ => none

def play? : Cue → Option Int
  | play index => some index
  | _ => none

def click? : Cue → Option Nat
  | click index => some index
  | _ => none

/-- The callbacks among cues. -/
def callbacks (cues : List Cue) : List Callback := cues.filterMap callback?

/-- The sounds of the instrument among cues. -/
def plays (cues : List Cue) : List Int := cues.filterMap play?

/-- The clicks of the metronome among cues. -/
def clicks (cues : List Cue) : List Nat := cues.filterMap click?

end Cue

namespace Callback

/-- The last time that intervals have shown. -/
def lastTime? (callbacks : List Callback) : Option Time :=
  (callbacks.filterMap fun | interval t => some t | _ => none).getLast?

/-- The events among callbacks. -/
def events (callbacks : List Callback) : List Event :=
  callbacks.filterMap fun | event e => some e | _ => none

/-- A log of callbacks, with the clock or without it. -/
def log (clock : Bool) (callbacks : List Callback) : List Value :=
  (callbacks.filter fun c => clock || !c.isClock).map entry

end Callback

end Cadence
