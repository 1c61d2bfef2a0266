import Cadence.Signature

/-!
# Times

A time is a bar, a beat and an interval of the beat, each counted from one. The clock steps
through the intervals of a beat, then the beats of a bar, then the bars.
-/

namespace Cadence

/-- A position on the musical clock. -/
structure Time where
  bar : Nat := 1
  beat : Nat := 1
  interval : Nat := 1
  deriving Repr, DecidableEq

namespace Time

/-- Where the clock starts. -/
def start : Time := ⟨1, 1, 1⟩

/-- Earlier: by bar, then by beat, then by interval. -/
def before (t u : Time) : Bool :=
  t.bar < u.bar || (t.bar == u.bar && (t.beat < u.beat ||
    (t.beat == u.beat && t.interval < u.interval)))

instance : LT Time := ⟨fun t u => t.before u⟩

instance : LE Time := ⟨fun t u => !u.before t⟩

instance (t u : Time) : Decidable (t < u) := inferInstanceAs (Decidable (t.before u = true))

instance (t u : Time) : Decidable (t ≤ u) := inferInstanceAs (Decidable ((!u.before t) = true))

theorem lt_iff {t u : Time} : t < u ↔ t.bar < u.bar ∨ t.bar = u.bar ∧
    (t.beat < u.beat ∨ t.beat = u.beat ∧ t.interval < u.interval) := by
  change t.before u = true ↔ _
  simp [before]

theorem le_iff_not_lt {t u : Time} : t ≤ u ↔ ¬u < t := by
  change (!u.before t) = true ↔ ¬u.before t = true
  simp

/-- The clock can show this time. -/
def IsReachable (t : Time) (s : Signature) : Prop :=
  1 ≤ t.bar ∧ (1 ≤ t.beat ∧ (t.beat : Int) ≤ s.numerator) ∧
    1 ≤ t.interval ∧ t.interval ≤ intervalsPerBeat

instance (t : Time) (s : Signature) : Decidable (t.IsReachable s) := by
  unfold IsReachable; infer_instance

/-- The last interval of the last beat of a bar. -/
def IsBarEnd (t : Time) (s : Signature) : Prop :=
  (t.beat : Int) = s.numerator ∧ t.interval = intervalsPerBeat

instance (t : Time) (s : Signature) : Decidable (t.IsBarEnd s) := by
  unfold IsBarEnd; infer_instance

/-- One interval later. -/
def advance (t : Time) (s : Signature) : Time :=
  if t.interval + 1 ≤ intervalsPerBeat then ⟨t.bar, t.beat, t.interval + 1⟩
  else if (t.beat + 1 : Int) ≤ s.numerator then ⟨t.bar, t.beat + 1, 1⟩
  else ⟨t.bar + 1, 1, 1⟩

/-- A number of intervals later. -/
def advanceBy (t : Time) (s : Signature) : Nat → Time
  | 0 => t
  | n + 1 => (t.advance s).advanceBy s n

/-- The beginning of the next bar. -/
def nextBar (t : Time) : Time := ⟨t.bar + 1, 1, 1⟩

/-- Ticks since the beginning of the first bar. -/
def ticks (t : Time) (s : Signature) : Int :=
  (t.bar - 1 : Int) * s.ticksPerBar + (t.beat - 1 : Int) * ticksPerBeat +
    (t.interval - 1 : Int) * ticksPerInterval

/-! ## Notation -/

/-- The three numbers with dots between them. -/
def chars (t : Time) : List Char :=
  Text.digits t.bar ++ '.' :: Text.digits t.beat ++ '.' :: Text.digits t.interval

def text (t : Time) : String := String.ofList t.chars

/-- The numbers in its text. -/
def numbers (t : Time) : List Int := [t.bar, t.beat, t.interval]

/-- The time with these fields, none of which may be negative. -/
def ofFields (bar beat interval : Int) : Except NotationError Time :=
  if bar < 0 ∨ beat < 0 ∨ interval < 0 then .error (.negative bar beat interval)
  else .ok ⟨bar.toNat, beat.toNat, interval.toNat⟩

/-- Reads one to three numbers with dots between them. A number left out is one. -/
def parse (text : String) : Except NotationError Time :=
  match Text.splitAt '.' (Text.trim Text.isBlank text.toList) with
  | [bar] => do ofFields (← readPart bar) 1 1
  | [bar, beat] => do ofFields (← readPart bar) (← readPart beat) 1
  | [bar, beat, interval] => do
    ofFields (← readPart bar) (← readPart beat) (← readPart interval)
  | _ => .error (.time text)

end Time

end Cadence
