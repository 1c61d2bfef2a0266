import Cadence.Notation
import Cadence.Number.Double

/-!
# Timers

A timer owns a time of the clock. Polled with a reading, it may fire a pulse: the first pulse
shows the time it was set to, every later one the next interval. Readings and periods are numbers
of any kind, so one timer runs on doubles and is reasoned about on fractions.
-/

namespace Cadence

/-- The changes of the clock that a pulse reports. -/
inductive Boundary where
  | bar
  | beat
  | interval
  deriving Repr, DecidableEq

/-- What begins at a time: the bar first, then the beat, then the interval. -/
def Time.boundaries (t : Time) : List Boundary :=
  (if t.interval = 1 then (if t.beat = 1 then [.bar] else []) ++ [.beat] else []) ++ [.interval]

/-- When the pulses of a timer are due. -/
inductive Pace (α : Type) where
  /-- at every poll -/
  | free
  /-- one after each period, counted from the first poll -/
  | every (period : α)
  deriving Repr

/-- The length of an interval in seconds. -/
def intervalSeconds {α : Type} [Div α] (ofInt : Int → α) (bpm : Int) : α :=
  ofInt 60 / ofInt bpm / ofInt 8

/-- The pace of a tempo where tempos are doubles. One that no double is as large as has none. -/
def Pace.onDoubles? {α : Type} (pace : Int → Pace α) (bpm : Int) : Option (Pace α) :=
  if bpm < Double.limit then some (pace bpm) else none

/-- A pulse source for one signature and tempo. -/
structure Timer (α : Type) where
  signature : Signature
  bpm : Int
  pace : Pace α
  time : Time := Time.start
  /-- whether the time has been shown -/
  started : Bool := false
  /-- the reading from which on the next pulse is due, once there was a poll -/
  deadline? : Option α := none

namespace Timer

variable {α : Type}

/-- Why no timer keeps a tempo. -/
inductive BadTempo where
  | notPositive (bpm : Int)
  /-- the numbers of the timer do not go so far -/
  | tooLarge
  deriving Repr, DecidableEq

def BadTempo.message : BadTempo → String
  | notPositive bpm =>
    match Yaml.tooLong? [bpm] with
    | some e => e.message
    | none => "BPM must be positive, got " ++ String.ofList (Text.numeral bpm)
  | tooLarge => "int too large to convert to float"

/-- A timer at the start of the clock, unless its tempo has no pace. -/
def new (signature : Signature) (bpm : Int) (pace? : Option (Pace α)) : Except BadTempo (Timer α) :=
  if bpm ≤ 0 then .error (.notPositive bpm)
  else match pace? with
    | none => .error .tooLarge
    | some pace => .ok { signature, bpm, pace }

/-- Moves the clock. The next pulse shows this time. -/
def seek (t : Timer α) (time : Time) : Timer α :=
  { t with time, started := false, deadline? := none }

/-- One interval on, without a pulse. -/
def step (t : Timer α) : Timer α := { t with time := t.time.advance t.signature }

/-- Whether a pulse is due at a reading. A pulse that is due is claimed: the deadline moves on by one
period, so a late poll is made up for and not added to. -/
def claim [Add α] [LT α] [DecidableLT α] (t : Timer α) (now : α) : Bool × Timer α :=
  match t.pace with
  | .free => (true, t)
  | .every period =>
    let deadline := t.deadline?.getD now
    if now < deadline then (false, { t with deadline? := some deadline })
    else (true, { t with deadline? := some (deadline + period) })

/-- The pulse itself: the time set is shown as it is, then each next one. -/
def pulse (t : Timer α) : Timer α := if t.started then t.step else { t with started := true }

/-- A poll at a reading, with the time of the pulse if one fired. -/
def poll [Add α] [LT α] [DecidableLT α] (t : Timer α) (now : α) : Option Time × Timer α :=
  match t.claim now with
  | (false, t) => (none, t)
  | (true, t) => (some t.pulse.time, t.pulse)

end Timer

end Cadence
