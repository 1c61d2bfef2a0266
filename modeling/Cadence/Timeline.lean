import Cadence.Text.Name
import Cadence.Time

/-!
# Timelines

The compiled form of a composition: patterns of chord events, each at a time of the clock. What a
pattern is built from may come in any order; its events end up in strictly rising order.
-/

namespace Cadence

/-- Pitches that sound together from a time on. An event may be silent. -/
structure Event where
  time : Time
  pitches : List Int := []
  deriving Repr, DecidableEq

namespace Event

/-- Pitch lists in dictionary order. -/
def pitchesBefore : List Int → List Int → Bool
  | [], [] => false
  | [], _ :: _ => true
  | _ :: _, [] => false
  | p :: ps, q :: qs => p < q || (p == q && pitchesBefore ps qs)

/-- The order of events: by time, then by pitches. -/
def before (a b : Event) : Bool :=
  a.time < b.time || (a.time == b.time && pitchesBefore a.pitches b.pitches)

/-- Events in their order. -/
def sort (events : List Event) : List Event := events.mergeSort fun a b => !b.before a

/-- Events by time alone; events at one time stay as they were. -/
def sortByTime (events : List Event) : List Event :=
  events.mergeSort fun a b => decide (a.time ≤ b.time)

end Event

/-! ## Patterns -/

/-- A named run of events at one tempo and signature. -/
structure Pattern where
  name : Name
  bpm : Int
  signature : Signature
  events : List Event := []
  deriving Repr, DecidableEq

/-- An event that is not later than the last one of its pattern. -/
structure NotAfter where
  time : Time
  last : Time
  pattern : Name
  deriving Repr, DecidableEq

def NotAfter.message (e : NotAfter) : Name :=
  s!"Event at {e.time.text} does not follow {e.last.text} in pattern '" ++ e.pattern ++ "'"

namespace Pattern

/-- The last event. -/
def last? (p : Pattern) : Option Event := p.events.getLast?

/-- Adds an event that is later than all others. -/
def add (p : Pattern) (event : Event) : Except NotAfter Pattern :=
  match p.last? with
  | some last =>
    if event.time ≤ last.time then .error ⟨event.time, last.time, p.name⟩
    else .ok { p with events := p.events ++ [event] }
  | none => .ok { p with events := [event] }

/-- One call that adds an event to a pattern that is changed in place. What a call has changed before
it fails would stay changed. -/
def addInPlace (event : Event) : ExceptT NotAfter (StateM Pattern) Unit := do
  let p ← get
  if let some last := p.last? then
    if event.time ≤ last.time then throw ⟨event.time, last.time, p.name⟩
  set { p with events := p.events ++ [event] }

/-- A pattern of events given in any order. Two of them may not share a time. -/
def ofEvents (name : Name) (bpm : Int) (signature : Signature) (events : List Event) :
    Except NotAfter Pattern :=
  (Event.sortByTime events).foldlM add ⟨name, bpm, signature, []⟩

/-- Halves the range `lo ≤ i ≤ hi` until one index is left. -/
def searchBetween (events : List Event) (t : Time) (lo hi : Nat) : Nat :=
  if lo < hi then
    match events[(lo + hi) / 2]? with
    | some event =>
      if event.time < t then searchBetween events t ((lo + hi) / 2 + 1) hi
      else searchBetween events t lo ((lo + hi) / 2)
    | none => lo
  else lo
termination_by hi - lo

/-- The index of the first event at a time or later: as many events are earlier. -/
def indexFrom (p : Pattern) (t : Time) : Nat := searchBetween p.events t 0 p.events.length

/-- The event at an index. A negative index counts from the end. -/
def get? (p : Pattern) (index : Int) : Option Event :=
  if 0 ≤ index then p.events[index.toNat]?
  else if 0 ≤ index + p.events.length then p.events[(index + p.events.length).toNat]?
  else none

end Pattern

/-! ## Compositions -/

/-- Named patterns in the order in which they play. -/
structure Composition where
  name : Name
  patterns : List Pattern := []
  deriving Repr, DecidableEq

namespace Composition

/-- Adds a pattern at the end. -/
def add (c : Composition) (p : Pattern) : Composition := { c with patterns := c.patterns ++ [p] }

/-- The pattern at an index. -/
def patternAt (c : Composition) (index : Fin c.patterns.length) : Pattern := c.patterns.get index

/-- The index of the first pattern with a name. -/
def indexOf? (c : Composition) (name : Name) : Option Nat :=
  c.patterns.findIdx? fun p => p.name == name

/-- The first pattern with a name. -/
def find? (c : Composition) (name : Name) : Option Pattern :=
  c.patterns.find? fun p => p.name == name

end Composition

end Cadence
