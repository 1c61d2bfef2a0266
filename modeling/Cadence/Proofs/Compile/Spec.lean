import Cadence.Compile
import Cadence.Proofs.Timeline

/-!
# What compiling means

Pure definitions, read off the document alone: which defects it has and where, how many picks its
events draw, and what a pattern that mirrors its entry is. `Defects.lean` and `Mirror.lean` show that
compiling keeps to them.
-/

namespace Cadence

/-! ## Defects -/

/-- A defect of the event at an index among the events of a pattern. -/
inductive EventDefect (s : Signature) (es : List EventEntry) (j : Nat) : Defect → Prop where
  | unreachable {e : EventEntry} (he : es[j]? = some e) (h : ¬e.time.IsReachable s) :
      EventDefect s es j (.unreachable e.time j e.chord)
  | repeated {e last : EventEntry} (he : es[j]? = some e) (hj : 0 < j)
      (hlast : es[j - 1]? = some last) (h : e.time = last.time) :
      EventDefect s es j (.unreachable e.time j e.chord)
  | earlier {e last : EventEntry} (he : es[j]? = some e) (hreach : e.time.IsReachable s) (hj : 0 < j)
      (hlast : es[j - 1]? = some last) (h : e.time < last.time) :
      EventDefect s es j (.timeReverse e.time j e.chord)

/-- A pattern fails with a defect once this many of its events are read. The end of its events is read
after the last of them, and there its signature has to be written. -/
inductive PatternEntry.FailsAfter (p : PatternEntry) (master? : Option Master) :
    Nat → Defect → Prop where
  | signature (h : ¬(Setting.merge master? p.master?).signature.IsValid) :
      FailsAfter p master? 0
        (Defect.badSignature (Setting.merge master? p.master?).signature).raised
  | noEvents (hs : (Setting.merge master? p.master?).signature.IsValid) (h : p.events? = none) :
      FailsAfter p master? 0 .noPatterns
  | event {es : List EventEntry} {j : Nat} {x : Defect}
      (hs : (Setting.merge master? p.master?).signature.IsValid) (hes : p.events? = some es)
      (h : EventDefect (Setting.merge master? p.master?).signature es j x)
      (hfirst : ∀ i < j, ∀ y, ¬EventDefect (Setting.merge master? p.master?).signature es i y) :
      FailsAfter p master? (j + 1) x.raised
  | log {es : List EventEntry} {e : Yaml.TooLong}
      (hs : (Setting.merge master? p.master?).signature.IsValid) (hes : p.events? = some es)
      (hfine : ∀ i y, ¬EventDefect (Setting.merge master? p.master?).signature es i y)
      (hlong : Yaml.tooLong? (Setting.merge master? p.master?).signature.numbers = some e) :
      FailsAfter p master? (es.length + 1) (.tooLong e)

/-- A pattern without any defect. -/
def PatternEntry.IsSound (p : PatternEntry) (master? : Option Master) : Prop :=
  ∀ j x, ¬p.FailsAfter master? j x

/-- A document fails with a defect of the pattern at an index, once this many events of that pattern
are read. No pattern before it has a defect. -/
inductive Document.FailsAfter (d : Document) : Nat → Nat → Defect → Prop where
  | noPatterns (h : d.patterns? = none) : FailsAfter d 0 0 .noPatterns
  | emptyPatterns (h : d.patterns? = some []) : FailsAfter d 0 0 .emptyPatterns
  | pattern {ps : List PatternEntry} {p : PatternEntry} {k j : Nat} {x : Defect}
      (hps : d.patterns? = some ps) (hp : ps[k]? = some p) (h : p.FailsAfter d.master? j x)
      (hfirst : ∀ i q, i < k → ps[i]? = some q → q.IsSound d.master?) :
      FailsAfter d k j x

/-! ## The part of a document that is read -/

/-- A pattern with its first events only. -/
def PatternEntry.cut (p : PatternEntry) (j : Nat) : PatternEntry :=
  { p with events? := p.events?.map (·.take j) }

/-- Patterns up to an index, the last of them with its first events only. -/
def cutPatterns (ps : List PatternEntry) (k j : Nat) : List PatternEntry :=
  ps.take k ++ (ps[k]?.map (·.cut j)).toList

/-- A document without what comes after an event of a pattern. -/
def Document.cut (d : Document) (k j : Nat) : Document :=
  { d with patterns? := d.patterns?.map (cutPatterns · k j) }

/-! ## Picks -/

/-- The picks that an event draws: one if its chord is random and there is something to choose from. -/
def EventEntry.draws (customs : CustomChords) (e : EventEntry) : Nat :=
  if e.chord.strip = "??" ∨ e.chord.strip = "?" ∧ customs ≠ [] then 1 else 0

/-- The picks that events draw. -/
def drawnBy (customs : CustomChords) (es : List EventEntry) : Nat := (es.map (·.draws customs)).sum

/-- The events of a pattern, none if it has no list of them. -/
def PatternEntry.entries (p : PatternEntry) : List EventEntry := p.events?.getD []

/-! ## Mirrored documents -/

/-- The intervals of an event, its chord drawing from a pick on if it is random. -/
def EventEntry.stack (customs : CustomChords) (picks : Picks) (e : EventEntry) (drawn : Nat) :
    List Int := (Chord.resolve customs picks e.chord drawn).1

/-- An event has the time of its entry and a pitch for every interval, from the third octave up, held
between the lowest and the highest note. -/
structure EventEntry.Mirrors (customs : CustomChords) (picks : Picks) (key : Key) (drawn : Nat)
    (e : EventEntry) (event : Event) : Prop where
  time : event.time = e.time
  length : event.pitches.length = (e.stack customs picks drawn).length
  pitch : ∀ (i : Nat) interval, (e.stack customs picks drawn)[i]? = some interval →
    event.pitches[i]? = some (max 24 (min 107 (48 + interval + key.semitones + e.transpose)))

/-- A pattern that its entry compiles to, as the pattern at an index with picks drawn before it. -/
structure PatternEntry.Mirrors (d : Document) (picks : Picks) (k drawn : Nat) (p : PatternEntry)
    (q : Pattern) : Prop where
  name : q.name = match p.name? with
    | none | some "" => "unnamed_pattern_" ++ Nat.repr k
    | some name => name
  tempo : q.bpm = (Setting.merge d.master? p.master?).tempo.bpm
  tempoRange : 1 ≤ q.bpm ∧ q.bpm ≤ 255
  signature : q.signature = (Setting.merge d.master? p.master?).signature
  valid : q.signature.IsValid
  short : ∀ n ∈ q.signature.numbers, Yaml.isShort n = true
  listed : p.events?.isSome
  length : q.events.length = p.entries.length
  events : ∀ (j : Nat) (e : EventEntry) event, p.entries[j]? = some e → q.events[j]? = some event →
    e.Mirrors d.customs picks (Setting.merge d.master? p.master?).parsedKey
      (drawn + drawnBy d.customs (p.entries.take j)) event
  rising : Rising q.events
  reachable : ∀ event ∈ q.events, event.time.IsReachable q.signature

end Cadence
