import Cadence.Chord
import Cadence.Signature

/-!
# Documents

A composition as its author writes it: names, settings, custom chords and patterns of events.
Every part may be left out. Nothing is resolved yet.
-/

namespace Cadence

/-- A tempo that a document may ask for, in beats per minute. -/
structure Tempo where
  bpm : Nat
  pos : 0 < bpm := by decide
  le : bpm ≤ 255 := by decide
  deriving Repr, DecidableEq

/-- Key, tempo and signature, as far as they are given. -/
structure Master where
  key? : Option Name := none
  tempo? : Option Tempo := none
  signature? : Option Signature := none
  deriving Repr, DecidableEq

/-- One event of a pattern before its chord is looked up. -/
structure EventEntry where
  bar : Nat
  beat : Nat
  interval : Nat
  chord : Name
  transpose : Int := 0
  deriving Repr, DecidableEq

/-- A pattern before it is compiled. -/
structure PatternEntry where
  name? : Option Name := none
  master? : Option Master := none
  events? : Option (List EventEntry) := none
  deriving Repr, DecidableEq

/-- A whole document. -/
structure Document where
  name? : Option Name := none
  master? : Option Master := none
  chords? : Option CustomChords := none
  patterns? : Option (List PatternEntry) := none
  deriving Repr, DecidableEq

/-- The custom chords, none if the document has no list of them. -/
def Document.customs (d : Document) : CustomChords := d.chords?.getD []

/-! ## Settings -/

/-- Key, tempo and signature with nothing left open. -/
structure Setting where
  key : Name
  tempo : Tempo
  signature : Signature
  deriving Repr, DecidableEq

namespace Setting

/-- What holds where a document says nothing. -/
def standard : Setting := ⟨"C", ⟨120, by decide, by decide⟩, Signature.common⟩

/-- An empty name is as good as none. -/
def nonempty? (name? : Option Name) : Option Name := name?.filter (· ≠ "")

/-- Settings laid over a default, field by field, over the standard ones. -/
def merge (default? override? : Option Master) : Setting :=
  let below := default?.getD {}
  let above := override?.getD {}
  { key := ((nonempty? above.key?).or (nonempty? below.key?)).getD standard.key
    tempo := (above.tempo?.or below.tempo?).getD standard.tempo
    signature := (above.signature?.or below.signature?).getD standard.signature }

/-- The key that the text of a setting names. -/
def parsedKey (s : Setting) : Key := Key.parse s.key

end Setting

end Cadence
