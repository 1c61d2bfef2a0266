import Cadence.Performance.Timer
import Cadence.Pitch
import Cadence.Timeline

/-!
# The player

The player walks a composition in step with a timer and tells a host what happens. The host may ask
it to stop in any callback. What happens is also kept as a list of cues: the callbacks, the sounds of
the instrument and the clicks of the metronome, in order.
-/

namespace Cadence

/-- What a host is told. -/
inductive Callback where
  | ready (composition : Name)
  | patternBegin (pattern : Pattern)
  | bar (time : Time)
  | beat (time : Time)
  | interval (time : Time)
  | event (event : Event)
  | patternEnd (pattern : Pattern)
  | completed (composition : Name)
  deriving Repr, DecidableEq

/-- One thing that happens in a performance. -/
inductive Cue where
  | callback (c : Callback)
  /-- the instrument plays, counted from the lowest note -/
  | play (index : Int)
  /-- the metronome clicks -/
  | click (index : Nat)
  deriving Repr, DecidableEq

/-- The click of a beat. -/
def beatClick : Nat := 0

/-- The click of a bar. -/
def barClick : Nat := 1

/-- What surrounds a player, on a state of its own: a clock to read, and ears for callbacks and
polls. An answer of `true` asks the player to stop. -/
structure Host (σ α : Type) where
  now : σ → α
  hear : σ → Callback → σ × Bool
  /-- told after every poll whether a pulse fired; time goes by here -/
  polled : σ → Bool → σ × Bool

/-- A player of a composition. -/
structure Player (c : Composition) where
  metronome : Bool
  /-- the pattern that is played -/
  index : Fin c.patterns.length
  /-- how many events of the pattern are over -/
  cursor : Nat := 0
  isPlaying : Bool := false
  startTime : Time := Time.start
  stopRequested : Bool := false

namespace Player

variable {c : Composition}

/-- The pattern that is played. -/
def pattern (p : Player c) : Pattern := c.patternAt p.index

/-- A player at the start of the first pattern. An empty composition has none. -/
def new? (c : Composition) (metronome : Bool) : Option (Player c) :=
  if h : 0 < c.patterns.length then some { metronome, index := ⟨0, h⟩ } else none

/-- Ends the pattern after this pulse and keeps further patterns from beginning. -/
def stop (p : Player c) : Player c := { p with stopRequested := true, isPlaying := false }

/-- Moves to a pattern: events before a time there are over. -/
def moveTo (p : Player c) (index : Fin c.patterns.length) (time : Time) : Player c :=
  { p with index, startTime := time, cursor := (c.patternAt index).indexFrom time }

/-- Moves to the pattern at an index, if there is one. -/
def start? (p : Player c) (time : Time) (index : Int) : Option (Player c) :=
  if h : 0 ≤ index ∧ index.toNat < c.patterns.length then
    some (p.moveTo ⟨index.toNat, h.2⟩ time)
  else none

end Player

/-! ## Sessions -/

/-- A player with its host and the cues so far, the newest first. -/
structure Session (c : Composition) (σ : Type) where
  player : Player c
  host : σ
  trail : List Cue := []

namespace Session

variable {c : Composition} {σ α : Type}

/-- The cues in the order in which they happened. -/
def cues (s : Session c σ) : List Cue := s.trail.reverse

/-- Does something to the player alone. -/
def mapPlayer (s : Session c σ) (f : Player c → Player c) : Session c σ :=
  { s with player := f s.player }

/-- Tells the host, and stops the player if the host asks for it. -/
def tell (host : Host σ α) (s : Session c σ) (cb : Callback) : Session c σ :=
  let (state, stops) := host.hear s.host cb
  { player := if stops then s.player.stop else s.player
    host := state
    trail := .callback cb :: s.trail }

/-- A click, if the metronome is on. -/
def clickIf (s : Session c σ) (condition : Bool) (index : Nat) : Session c σ :=
  if s.player.metronome && condition then { s with trail := .click index :: s.trail } else s

/-- A bar begins. -/
def onBar (host : Host σ α) (s : Session c σ) (t : Time) : Session c σ :=
  if s.player.isPlaying then (s.tell host (.bar t)).clickIf true barClick else s

/-- A beat begins. The first beat of a bar has the click of the bar already. -/
def onBeat (host : Host σ α) (s : Session c σ) (t : Time) : Session c σ :=
  if s.player.isPlaying then (s.tell host (.beat t)).clickIf (t.beat != 1) beatClick else s

/-- Fires an event and plays its pitches. -/
def fire (host : Host σ α) (s : Session c σ) (event : Event) : Session c σ :=
  let s := s.tell host (.event event)
  { s with
    player := { s.player with cursor := s.player.cursor + 1 }
    trail := (event.pitches.map fun p => Cue.play (p - lowestNote)).reverse ++ s.trail }

/-- An interval begins. A pattern whose events were all over before ends with its bar; otherwise the
next event fires if this is its time. -/
def onInterval (host : Host σ α) (s : Session c σ) (t : Time) : Session c σ :=
  let pattern := s.player.pattern
  let next? := pattern.events[s.player.cursor]?
  let ends := next?.isNone && decide (t.IsBarEnd pattern.signature)
  let s := if ends then s.mapPlayer ({ · with isPlaying := false }) else s
  let s := s.tell host (.interval t)
  match next? with
  | none => s
  | some event => if event.time = t then s.fire host event else s

/-- Reports one change of the clock. -/
def onBoundary (host : Host σ α) (t : Time) (s : Session c σ) : Boundary → Session c σ
  | .bar => s.onBar host t
  | .beat => s.onBeat host t
  | .interval => s.onInterval host t

/-- A pulse at a time. -/
def pulse (host : Host σ α) (s : Session c σ) (t : Time) : Session c σ :=
  t.boundaries.foldl (onBoundary host t) s

/-- Tells the host that a poll is over. -/
def endPoll (host : Host σ α) (s : Session c σ) (fired : Bool) : Session c σ :=
  let (state, stops) := host.polled s.host fired
  { s with
    player := if stops then s.player.stop else s.player
    host := state }

/-! ## Runs -/

/-- How a run ends. -/
inductive Ending where
  | finished
  /-- more polls are needed than were allowed -/
  | unfinished
  | badTempo (e : Timer.BadTempo)
  /-- a time at which a pattern begins or has ended cannot be written -/
  | tooLong (e : Yaml.TooLong)
  deriving Repr, DecidableEq

/-- How a pattern ends that was played until the clock showed a time. This time is logged, so it has to
be written. -/
def Ending.ofStop (t : Time) : Ending :=
  match t.tooLong? with
  | none => .finished
  | some e => .tooLong e

section

variable [Add α] [LT α] [DecidableLT α]

/-- Polls a timer for as long as the player plays, at most a number of times. If these were enough,
the timer shows a time in the end. -/
def pollWhilePlaying (host : Host σ α) : Nat → Timer α → Session c σ → Session c σ × Option Time
  | 0, timer, s => if s.player.isPlaying then (s, none) else (s, some timer.time)
  | fuel + 1, timer, s =>
    if s.player.isPlaying then
      match timer.poll (host.now s.host) with
      | (some t, timer) => pollWhilePlaying host fuel timer ((s.pulse host t).endPoll host true)
      | (none, timer) => pollWhilePlaying host fuel timer (s.endPoll host false)
    else (s, some timer.time)

/-- Plays one pattern from a time on. This time is logged before anything else. -/
def playPattern (host : Host σ α) (pace : Int → Pace α) (polls : Nat)
    (index : Fin c.patterns.length) (start : Time) (s : Session c σ) : Session c σ × Ending :=
  let pattern := c.patternAt index
  let s := s.mapPlayer ({ · with index })
  match start.tooLong? with
  | some e => (s, .tooLong e)
  | none =>
    let s := (s.tell host (.patternBegin pattern)).mapPlayer ({ · with isPlaying := true })
    match Timer.new pattern.signature pattern.bpm (Pace.onDoubles? pace pattern.bpm) with
    | .error e => (s, .badTempo e)
    | .ok timer =>
      let s := s.mapPlayer ({ · with cursor := pattern.indexFrom start })
      match pollWhilePlaying host polls (timer.seek start) s with
      | (s, none) => (s, .unfinished)
      | (s, some stop) => (s.tell host (.patternEnd pattern), .ofStop stop)

/-- Plays patterns in turn, the first from a time on and the others from their start. -/
def playPatterns (host : Host σ α) (pace : Int → Pace α) (polls : Nat) :
    List (Fin c.patterns.length) → Time → Session c σ → Session c σ × Ending
  | [], _, s => (s, .finished)
  | index :: rest, start, s =>
    if s.player.stopRequested then (s, .finished)
    else match playPattern host pace polls index start s with
      | (s, .finished) => playPatterns host pace polls rest Time.start s
      | other => other

/-- Plays from where the player stands to the end. Each pattern gets at most a number of polls. -/
def run (host : Host σ α) (pace : Int → Pace α) (polls : Nat) (s : Session c σ) :
    Session c σ × Ending :=
  let s := s.tell host (.ready c.name)
  let rest := (List.finRange c.patterns.length).drop s.player.index
  match playPatterns host pace polls rest s.player.startTime s with
  | (s, .finished) => (s.tell host (.completed c.name), .finished)
  | other => other

end

end Session

/-! ## Rendering -/

/-- Polls that are enough for a pattern whose events the clock can reach, when every poll is a
pulse. -/
def Pattern.pollBound (p : Pattern) (start : Time) : Nat :=
  let lastBar := (p.events.map (·.time.bar)).foldl max start.bar
  (lastBar - start.bar + 3) * ((p.signature.numerator.toNat + 1) * intervalsPerBeat)

/-- Polls that are enough for every pattern. -/
def Composition.pollBound (c : Composition) (start : Time) : Nat :=
  (c.patterns.map fun p => max (p.pollBound start) (p.pollBound Time.start)).foldl max 0

/-- A host that only listens, on a clock that stands still. -/
def Host.silent : Host Unit Nat := ⟨fun _ => 0, fun _ _ => ((), false), fun _ _ => ((), false)⟩

end Cadence
