import Cadence.Compile
import Cadence.Proofs.Document.RoundTrip

/-!
# One form for each document

Plain data that is a document has a canonical form, which is the document written down again. However
loosely the data is written, its canonical form is read as the same document and compiles as the data
does, and other data has that form exactly if it is read as that document too.
-/

namespace Cadence

namespace Document

variable {v w : Value} {d : Document}

/-- The canonical form of plain data that is a document. -/
def canonicalForm (v : Value) : Except ReadError Value := (ofValue v).map toValue

/-- Reads plain data and compiles it. -/
def compileValue (v : Value) (picks : Picks) : Except ReadError (Compiled Composition) :=
  (ofValue v).map (·.compile picks)

theorem toValue_injective : Function.Injective toValue := by
  intro d d' h
  have hread := d.ofValue_toValue
  rw [h, d'.ofValue_toValue] at hread
  exact (Except.ok.inj hread).symm

theorem canonicalForm_eq_ok_iff {c : Value} :
    canonicalForm v = .ok c ↔ ∃ d, ofValue v = .ok d ∧ d.toValue = c := by
  unfold canonicalForm
  cases ofValue v with
  | error e => simp [Except.map]
  | ok d => simp [Except.map]

theorem canonicalForm_eq_toValue_iff : canonicalForm w = .ok d.toValue ↔ ofValue w = .ok d := by
  rw [canonicalForm_eq_ok_iff]
  constructor
  · -- no two documents are written down alike
    rintro ⟨d', hread, hform⟩
    rwa [← toValue_injective hform]
  · exact fun hread => ⟨d, hread, rfl⟩

theorem compileValue_of_read (h : ofValue v = .ok d) (picks : Picks) :
    compileValue v picks = .ok (d.compile picks) := by
  rw [compileValue, h]
  rfl

/-- The canonical form of a document is read as that document again, is its own canonical form, and
compiles to the same timeline or the same defect, with as many picks drawn. No other document has it. -/
theorem canonical_form_stands_for_its_document (h : ofValue v = .ok d) :
    ∃ c, canonicalForm v = .ok c ∧ ofValue c = .ok d ∧ canonicalForm c = .ok c ∧
      (∀ picks, compileValue c picks = compileValue v picks) ∧
      ∀ w, canonicalForm w = .ok c ↔ ofValue w = .ok d := by
  have hread := d.ofValue_toValue
  refine ⟨d.toValue, canonicalForm_eq_toValue_iff.mpr h, hread,
    canonicalForm_eq_toValue_iff.mpr hread, ?_, fun w => canonicalForm_eq_toValue_iff⟩
  intro picks
  rw [compileValue_of_read hread, compileValue_of_read h]

/-- A document that is written in every loose way there is: numbers as texts, as doubles and as truth
values, events with and without names, fields that are null, twice there or not known. -/
def looseValue : Value :=
  .map [("author", .text "unknown"), ("name", .null),
    ("master", .map [("key", .text ""), ("time", .text " 140.0 "), ("swing", .bool true),
      ("signature", .list [.float (.finite false 3 0), .text "4"])]),
    ("chords", .list [.list [.text "A", .list [.text "-7", .float (.finite true 0 0)]]]),
    ("patterns", .list [
      .map [("name", .text "first"), ("name", .null), ("master", .map [("time", .null)]),
        ("pattern", .list [
          .list [.text "1", .bool true, .float (.finite false 8 (-3)), .text "?"],
          .map [("bar", .int 1), ("ghost", .null), ("beat", .int 2), ("chord", .text "A"),
            ("beat_interval", .bool true), ("transpose", .bool false)]])],
      .map [("pattern", .list [])]])]

def looseDocument : Document where
  master? := some { key? := some "", tempo? := some ⟨140, by decide, by decide⟩, signature? := some ⟨3, 4⟩ }
  chords? := some [("A", [-7, 0])]
  patterns? := some [
    { master? := some {}, events? := some [⟨1, 1, 1, "?", 0⟩, ⟨1, 2, 1, "A", 0⟩] },
    { events? := some [] }]

theorem loose_value_has_a_canonical_form :
    ofValue looseValue = .ok looseDocument ∧
    ∃ c, canonicalForm looseValue = .ok c ∧ ofValue c = .ok looseDocument ∧
      canonicalForm c = .ok c ∧
      (∀ picks, compileValue c picks = compileValue looseValue picks) ∧
      ∀ w, canonicalForm w = .ok c ↔ ofValue w = .ok looseDocument :=
  have h : ofValue looseValue = .ok looseDocument := by rfl
  ⟨h, canonical_form_stands_for_its_document h⟩

end Document

end Cadence
