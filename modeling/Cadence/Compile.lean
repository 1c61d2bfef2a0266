import Cadence.Document.Basic
import Cadence.Timeline
import Cadence.Yaml.Writer

/-!
# Compiling documents

A document becomes a timeline pattern by pattern and event by event, in the order in which it is
written. The first defect ends it. Random chords take their picks in the same order, and an event
with a defect takes none.
-/

namespace Cadence

/-- Why a document is no timeline. -/
inductive Defect where
  | noPatterns
  | emptyPatterns
  | badSignature (signature : Signature)
  /-- a time that the clock never shows, or that the event before has already -/
  | unreachable (time : Time) (index : Nat) (chord : Name)
  /-- a time before that of the event before -/
  | timeReverse (time : Time) (index : Nat) (chord : Name)
  /-- an event that its pattern does not take -/
  | notAfter (e : NotAfter)
  /-- a number has too many digits to be written -/
  | tooLong (e : Yaml.TooLong)
  deriving Repr, DecidableEq

namespace Defect

def message : Defect → Name
  | noPatterns => "Composition has no patterns."
  | emptyPatterns => "Composition patterns list is empty."
  | badSignature signature => s!"Invalid time signature {signature.text}."
  | unreachable time index chord =>
    s!"Time is unreachable! Event {Nat.repr index} (" ++ chord ++ s!") at {time.text}."
  | timeReverse time index chord =>
    s!"Time cannot reverse! Event {Nat.repr index} (" ++ chord ++ s!") at {time.text}."
  | notAfter e => e.message
  | tooLong e => e.message

/-- The numbers in its message that come from the document. -/
def numbers : Defect → List Int
  | noPatterns | emptyPatterns | tooLong _ => []
  | badSignature signature => signature.numbers
  | unreachable time _ _ | timeReverse time _ _ => time.numbers
  | notAfter e => e.time.numbers ++ e.last.numbers

/-- A defect as it is raised. If its message cannot be written, the number that is too long is raised
in its place. -/
def raised (d : Defect) : Defect :=
  match Yaml.tooLong? d.numbers with
  | some e => tooLong e
  | none => d

end Defect

namespace EventEntry

/-- The time of an event. -/
def time (e : EventEntry) : Time := ⟨e.bar, e.beat, e.interval⟩

/-- The defect of an event, if it has one, when it comes after the events of a pattern. -/
def defect? (e : EventEntry) (p : Pattern) : Option Defect :=
  if ¬e.time.IsReachable p.signature then some (.unreachable e.time p.events.length e.chord)
  else match p.last? with
    | none => none
    | some last =>
      if e.time = last.time then some (.unreachable e.time p.events.length e.chord)
      else if e.time < last.time then some (.timeReverse e.time p.events.length e.chord)
      else none

/-- The event that sounds, and the number of picks drawn after it. -/
def sound (e : EventEntry) (key : Key) (customs : CustomChords) (picks : Picks) (drawn : Nat) :
    Event × Nat :=
  let (intervals, drawn) := Chord.resolve customs picks e.chord drawn
  (⟨e.time, soundingPitches intervals key e.transpose⟩, drawn)

end EventEntry

/-- What compiling gives: a result, and the number of picks drawn on the way to it. -/
abbrev Compiled (α : Type) := Except Defect α × Nat

/-- A pattern with events added to it in turn. -/
def compileEvents (key : Key) (customs : CustomChords) (picks : Picks) :
    Pattern → List EventEntry → Nat → Compiled Pattern
  | p, [], drawn => (.ok p, drawn)
  | p, e :: es, drawn =>
    match e.defect? p with
    | some defect => (.error defect.raised, drawn)
    | none =>
      let (event, drawn) := e.sound key customs picks drawn
      match p.add event with
      | .error refusal => (.error (Defect.notAfter refusal).raised, drawn)
      | .ok p => compileEvents key customs picks p es drawn

/-- A pattern that is done is logged with its signature, which has to be written. -/
def Compiled.logged (s : Signature) : Compiled Pattern → Compiled Pattern
  | (.error defect, drawn) => (.error defect, drawn)
  | (.ok p, drawn) =>
    match Yaml.tooLong? s.numbers with
    | some e => (.error (.tooLong e), drawn)
    | none => (.ok p, drawn)

/-- The name that a pattern gets from its place. -/
def defaultPatternName (index : Nat) : String := "unnamed_pattern_" ++ Nat.repr index

/-- A pattern under the settings of its document. -/
def PatternEntry.compile (p : PatternEntry) (master? : Option Master) (customs : CustomChords)
    (defaultName : Name) (picks : Picks) (drawn : Nat) : Compiled Pattern :=
  let setting := Setting.merge master? p.master?
  if ¬setting.signature.IsValid then (.error (Defect.badSignature setting.signature).raised, drawn)
  else match p.events? with
    | none => (.error .noPatterns, drawn)
    | some entries =>
      let p : Pattern :=
        { name := (Setting.nonempty? p.name?).getD defaultName
          bpm := setting.tempo.bpm
          signature := setting.signature }
      (compileEvents setting.parsedKey customs picks p entries drawn).logged setting.signature

/-- A composition with patterns added to it in turn. A pattern is counted by how many there are
before it. -/
def compilePatterns (master? : Option Master) (customs : CustomChords) (picks : Picks) :
    Composition → List PatternEntry → Nat → Compiled Composition
  | c, [], drawn => (.ok c, drawn)
  | c, p :: ps, drawn =>
    match p.compile master? customs (defaultPatternName c.patterns.length) picks drawn with
    | (.error defect, drawn) => (.error defect, drawn)
    | (.ok pattern, drawn) => compilePatterns master? customs picks (c.add pattern) ps drawn

/-- The name of a composition that has none. -/
def defaultCompositionName : String := "Unnamed composition"

/-- The timeline of a document. -/
def Document.compile (d : Document) (picks : Picks) (drawn : Nat := 0) : Compiled Composition :=
  match d.patterns? with
  | none => (.error .noPatterns, drawn)
  | some [] => (.error .emptyPatterns, drawn)
  | some entries =>
    let c : Composition := ⟨(Setting.nonempty? d.name?).getD defaultCompositionName, []⟩
    compilePatterns d.master? d.customs picks c entries drawn

end Cadence
