import Cadence.Document.Basic
import Cadence.Value

/-!
# The canonical form of a document

A document as plain data again: every field that is set and no other, and every event as a list of
five.
-/

namespace Cadence

open Value

/-- The entry of a field that is set. -/
def fieldOf {α : Type} (name : String) (toValue : α → Value) (a? : Option α) :
    List (String × Value) :=
  match a? with
  | some a => [(name, toValue a)]
  | none => []

/-- A list of numbers. -/
def Value.ints (ns : List Int) : Value := .list (ns.map .int)

namespace Master

def toValue (m : Master) : Value :=
  .map (fieldOf "key" ofName m.key? ++ fieldOf "time" (fun t => .int t.bpm) m.tempo? ++
    fieldOf "signature" (fun s => ints [s.numerator, s.denominator]) m.signature?)

end Master

namespace EventEntry

def toValue (e : EventEntry) : Value :=
  .list [.int e.bar, .int e.beat, .int e.interval, ofName e.chord, .int e.transpose]

end EventEntry

namespace PatternEntry

def toValue (p : PatternEntry) : Value :=
  .map (fieldOf "name" ofName p.name? ++ fieldOf "master" Master.toValue p.master? ++
    fieldOf "pattern" (fun es => .list (es.map EventEntry.toValue)) p.events?)

end PatternEntry

namespace Document

/-- A custom chord as a list of its name and its intervals. -/
def chordValue (chord : Name × List Int) : Value := .list [ofName chord.1, ints chord.2]

def toValue (d : Document) : Value :=
  .map (fieldOf "name" ofName d.name? ++ fieldOf "master" Master.toValue d.master? ++
    fieldOf "chords" (fun cs => .list (cs.map chordValue)) d.chords? ++
    fieldOf "patterns" (fun ps => .list (ps.map PatternEntry.toValue)) d.patterns?)

end Document

end Cadence
