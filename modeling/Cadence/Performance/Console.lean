import Cadence.Performance.Log

/-!
# Progress lines

What a console shows of a performance. Events are always shown; bars, beats and intervals each only
if they are asked for.
-/

namespace Cadence

/-- Which changes of the clock are shown. -/
structure Tickers where
  bar : Bool := false
  beat : Bool := false
  interval : Bool := false
  deriving Repr, DecidableEq

/-- Why a line is not printed. -/
inductive PrintFault where
  /-- it has no bytes -/
  | broken (line : Broken)
  /-- a number in it has too many digits to be written -/
  | tooLong (e : Yaml.TooLong)
  deriving Repr, DecidableEq

def PrintFault.message : PrintFault → String
  | broken line => line.noBytes
  | tooLong e => e.message

namespace Tickers

/-- A time as it is shown, the bar with two digits at least. -/
def timeLine (t : Time) : String :=
  let bar := Nat.repr t.bar
  let padded := if bar.length < 2 then "0" ++ bar else bar
  s!"| {padded}.{Nat.repr t.beat}.{Nat.repr t.interval}"

/-- The line of a callback, if it has one. -/
def line? (shown : Tickers) : Callback → Option Name
  | .ready name => some ("[ " ++ name ++ " ]")
  | .patternBegin p =>
    some ("<< " ++ p.name ++
      s!" {p.signature.text} @ {String.ofList (Text.numeral p.bpm)} bpm >>")
  | .bar t => if shown.bar then some (timeLine t) else none
  | .beat t => if shown.beat then some (timeLine t) else none
  | .interval t => if shown.interval then some (timeLine t) else none
  | .event e => some (timeLine e.time ++ " | " ++ " ".intercalate (e.pitches.map spellPitch))
  | .patternEnd _ => none
  | .completed _ => none

/-- The lines of callbacks. -/
def lines (shown : Tickers) (callbacks : List Callback) : List String :=
  callbacks.filterMap fun c => (shown.line? c).map Name.text

/-- What keeps the line of a callback from being printed. Its numbers are written before it gets its
bytes. -/
def fault? (shown : Tickers) (c : Callback) : Option PrintFault :=
  match shown.line? c with
  | none => none
  | some line =>
    match Yaml.tooLong? c.numbers, line with
    | some e, _ => some (.tooLong e)
    | none, .broken b => some (.broken b)
    | none, .whole _ => none

/-- The cues up to the first one that is not printed, and why it is not. -/
def follow (shown : Tickers) : List Cue → List Cue × Option PrintFault
  | [] => ([], none)
  | cue :: cues =>
    match cue.callback?.bind shown.fault? with
    | some fault => ([], some fault)
    | none =>
      let (followed, fault?) := shown.follow cues
      (cue :: followed, fault?)

end Tickers

end Cadence
