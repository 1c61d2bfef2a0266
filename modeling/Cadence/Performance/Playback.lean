import Cadence.Performance.Player

/-!
# Playback

A composition is played from a time in one of its patterns to its end. Nothing is waited for: the
result is the list of what happens.
-/

namespace Cadence

/-- Why a composition is not played. -/
inductive PlayError where
  | noPatterns
  | notFound (pattern : String)
  | outOfRange (index : Int)
  | badTempo (e : Timer.BadTempo)
  /-- a number has too many digits to be written -/
  | tooLong (e : Yaml.TooLong)
  /-- more polls would be needed than were allowed -/
  | unfinished
  deriving Repr, DecidableEq

namespace PlayError

def message : PlayError → String
  | noPatterns => "Composition has no patterns."
  | notFound pattern => s!"Pattern '{pattern}' not found."
  | outOfRange index => "Pattern index " ++ String.ofList (Text.numeral index) ++ " out of range"
  | badTempo e => e.message
  | tooLong e => e.message
  | unfinished => "Playback does not end."

/-- The error of an index without a pattern. -/
def ofIndex (index : Int) : PlayError :=
  match Yaml.tooLong? [index] with
  | some e => .tooLong e
  | none => .outOfRange index

end PlayError

/-- A pattern as it is asked for. -/
inductive PatternRef where
  | index (n : Int)
  | name (name : String)
  deriving Repr, DecidableEq

namespace Player

variable {c : Composition}

/-- Moves to a time in a pattern. -/
def startFrom (p : Player c) (time : Time) : PatternRef → Except PlayError (Player c)
  | .index n =>
    match p.start? time n with
    | some p => .ok p
    | none => .error (.ofIndex n)
  | .name name =>
    match c.indexOf? name with
    | none => .error (.notFound name)
    | some n =>
      match p.start? time n with
      | some p => .ok p
      | none => .error (.ofIndex n)

end Player

/-- How a run that ended went. -/
def Session.Ending.error? : Session.Ending → Option PlayError
  | .finished => none
  | .unfinished => some .unfinished
  | .badTempo e => some (.badTempo e)
  | .tooLong e => some (.tooLong e)

/-- Plays a composition from a time in a pattern, the first one unless another is asked for. The cues
end where an error stops them. -/
def Composition.play (c : Composition) (metronome : Bool) (start : Time)
    (pattern? : Option PatternRef) : List Cue × Option PlayError :=
  match Player.new? c metronome with
  | none => ([], some .noPatterns)
  | some player =>
    match player.startFrom start (pattern?.getD (.index 0)) with
    | .error e => ([], some e)
    | .ok player =>
      let (session, ending) := Session.run Host.silent (fun _ => .free) (c.pollBound start)
        { player, host := () }
      (session.cues, ending.error?)

end Cadence
