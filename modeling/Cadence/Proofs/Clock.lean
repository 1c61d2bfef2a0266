import Mathlib.Data.Set.Function
import Mathlib.Order.Defs.LinearOrder
import Mathlib.Tactic.Linarith
import Mathlib.Tactic.Ring
import Cadence.Time

/-!
# The clock

Times are ordered as they are heard. One step of the clock never passes over a time that it can
show, wherever the clock was set, and the end of every later bar is reached. Counted in steps of the
clock, in their order or in ticks, the times that it shows are the same sequence.
-/

namespace Cadence.Time

variable {t u r : Time} {s : Signature}

/-! ## Order -/

theorem le_iff : t ≤ u ↔ t.bar < u.bar ∨ t.bar = u.bar ∧
    (t.beat < u.beat ∨ t.beat = u.beat ∧ t.interval ≤ u.interval) := by
  rw [le_iff_not_lt, lt_iff]
  omega

instance : LinearOrder Time where
  le_refl t := by
    rw [le_iff]
    omega
  le_trans t u r htu hur := by
    rw [le_iff] at *
    omega
  le_antisymm t u htu hut := by
    rw [le_iff] at htu hut
    cases t
    cases u
    simp only [mk.injEq] at *
    omega
  le_total t u := by
    rw [le_iff, le_iff]
    omega
  lt_iff_le_not_ge t u := by
    rw [lt_iff, le_iff, le_iff]
    omega
  toDecidableLE := inferInstance

/-! ## One step -/

/-- The three ways in which the clock moves on. -/
theorem advance_cases (t : Time) (s : Signature) :
    (t.interval < 8 ∧ t.advance s = ⟨t.bar, t.beat, t.interval + 1⟩) ∨
      (8 ≤ t.interval ∧ (t.beat + 1 : Int) ≤ s.numerator ∧ t.advance s = ⟨t.bar, t.beat + 1, 1⟩) ∨
      (8 ≤ t.interval ∧ s.numerator < t.beat + 1 ∧ t.advance s = ⟨t.bar + 1, 1, 1⟩) := by
  unfold advance intervalsPerBeat
  split_ifs
  · exact Or.inl ⟨by omega, rfl⟩
  · exact Or.inr (Or.inl ⟨by omega, by omega, rfl⟩)
  · exact Or.inr (Or.inr ⟨by omega, by omega, rfl⟩)

theorem lt_advance (t : Time) (s : Signature) : t < t.advance s := by
  rw [lt_iff]
  rcases advance_cases t s with ⟨-, ha⟩ | ⟨-, -, ha⟩ | ⟨-, -, ha⟩ <;> rw [ha] <;> simp

/-- No time that the clock can show lies between a time and the next. -/
theorem advance_le (hr : r.IsReachable s) (h : t < r) : t.advance s ≤ r := by
  rw [lt_iff] at h
  rw [le_iff]
  simp only [IsReachable, intervalsPerBeat] at hr
  rcases advance_cases t s with ⟨h8, ha⟩ | ⟨h8, hn, ha⟩ | ⟨h8, hn, ha⟩ <;> rw [ha] <;> dsimp only <;>
    omega

theorem advance_le_iff (hr : r.IsReachable s) : t.advance s ≤ r ↔ t < r :=
  ⟨fun h => lt_of_lt_of_le (lt_advance t s) h, advance_le hr⟩

theorem start_le (hr : r.IsReachable s) : start ≤ r := by
  obtain ⟨hbar, ⟨hbeat, -⟩, hint, -⟩ := hr
  rw [le_iff]
  simp only [start]
  omega

theorem barStart_reachable {b : Nat} (hs : 0 < s.numerator) (hb : 1 ≤ b) :
    (⟨b, 1, 1⟩ : Time).IsReachable s := by
  simp only [IsReachable, intervalsPerBeat]
  omega

theorem advance_reachable (hs : 0 < s.numerator) (ht : t.IsReachable s) :
    (t.advance s).IsReachable s := by
  simp only [IsReachable, intervalsPerBeat] at *
  rcases advance_cases t s with ⟨h8, ha⟩ | ⟨h8, hn, ha⟩ | ⟨h8, hn, ha⟩ <;> rw [ha] <;> dsimp only <;>
    omega

/-! ## Many steps -/

theorem advanceBy_add (t : Time) (s : Signature) (m n : Nat) :
    t.advanceBy s (m + n) = (t.advanceBy s m).advanceBy s n := by
  induction m generalizing t with
  | zero => rw [Nat.zero_add, advanceBy]
  | succ m ih => rw [Nat.succ_add, advanceBy, ih, advanceBy]

theorem advanceBy_succ (t : Time) (s : Signature) (n : Nat) :
    t.advanceBy s (n + 1) = (t.advanceBy s n).advance s := advanceBy_add t s n 1

theorem lt_advanceBy_succ (t : Time) (s : Signature) (n : Nat) : t < t.advanceBy s (n + 1) := by
  induction n generalizing t with
  | zero => exact lt_advance t s
  | succ n ih => exact lt_trans (lt_advance t s) (ih (t.advance s))

theorem advanceBy_lt {m n : Nat} (h : m < n) (t : Time) (s : Signature) :
    t.advanceBy s m < t.advanceBy s n := by
  obtain ⟨k, rfl⟩ : ∃ k, n = m + (k + 1) := ⟨n - m - 1, by omega⟩
  rw [advanceBy_add]
  exact lt_advanceBy_succ _ s k

/-- No later beat or interval exceeds both the first and the last of a bar. -/
theorem advanceBy_le (hs : 0 < s.numerator) (t : Time) (n : Nat) :
    (t.advanceBy s n).beat ≤ max t.beat s.numerator.toNat ∧
      (t.advanceBy s n).interval ≤ max t.interval 8 := by
  induction n generalizing t with
  | zero => exact ⟨le_max_left _ _, le_max_left _ _⟩
  | succ n ih =>
    obtain ⟨hbeat, hinterval⟩ := ih (t.advance s)
    rw [advanceBy]
    rcases advance_cases t s with ⟨h8, ha⟩ | ⟨h8, hn, ha⟩ | ⟨h8, hn, ha⟩ <;>
      rw [ha] at hbeat hinterval ⊢ <;> dsimp only at hbeat hinterval <;> omega

/-- Intervals that follow a time in its bar. -/
def leftInBar (t : Time) (s : Signature) : Nat :=
  (s.numerator.toNat - t.beat) * intervalsPerBeat + (intervalsPerBeat - t.interval)

theorem leftInBar_le (t : Time) (s : Signature) :
    t.leftInBar s ≤ s.numerator.toNat * intervalsPerBeat + intervalsPerBeat := by
  simp only [leftInBar, intervalsPerBeat]
  omega

theorem leftInBar_barStart (hs : 0 < s.numerator) (b : Nat) :
    (⟨b, 1, 1⟩ : Time).leftInBar s + 1 = s.numerator.toNat * intervalsPerBeat := by
  simp only [leftInBar, intervalsPerBeat]
  omega

theorem advance_of_left_zero (h : t.leftInBar s = 0) : t.advance s = t.nextBar := by
  simp only [leftInBar, intervalsPerBeat] at h
  rw [advance, intervalsPerBeat, if_neg (by omega), if_neg (by omega), nextBar]

theorem leftInBar_advance (h : t.leftInBar s ≠ 0) :
    (t.advance s).leftInBar s + 1 = t.leftInBar s ∧ (t.advance s).bar = t.bar := by
  simp only [leftInBar, intervalsPerBeat] at *
  rcases advance_cases t s with ⟨h8, ha⟩ | ⟨h8, hn, ha⟩ | ⟨h8, hn, ha⟩ <;> rw [ha] <;> dsimp only <;>
    omega

/-- The last interval of the bar is reached, whatever the fields of a time were set to. -/
theorem advanceBy_leftInBar (t : Time) (s : Signature) :
    (t.advanceBy s (t.leftInBar s)).leftInBar s = 0 ∧
      (t.advanceBy s (t.leftInBar s)).bar = t.bar := by
  induction hn : t.leftInBar s generalizing t with
  | zero => exact ⟨hn, rfl⟩
  | succ n ih =>
    obtain ⟨hleft, hbar⟩ := leftInBar_advance (t := t) (s := s) (by omega)
    have := ih (t.advance s) (by omega)
    rwa [hbar] at this

theorem advanceBy_nextBar (t : Time) (s : Signature) :
    t.advanceBy s (t.leftInBar s + 1) = t.nextBar := by
  obtain ⟨hleft, hbar⟩ := advanceBy_leftInBar t s
  rw [advanceBy_succ, advance_of_left_zero hleft, nextBar, hbar, nextBar]

theorem advanceBy_bars (hs : 0 < s.numerator) (b k : Nat) :
    (⟨b, 1, 1⟩ : Time).advanceBy s (k * (s.numerator.toNat * intervalsPerBeat)) = ⟨b + k, 1, 1⟩ := by
  induction k with
  | zero => rw [Nat.zero_mul]; rfl
  | succ k ih =>
    rw [Nat.succ_mul, advanceBy_add, ih, ← leftInBar_barStart hs (b + k), advanceBy_nextBar]
    rfl

theorem advanceBy_reachable (hs : 0 < s.numerator) (ht : t.IsReachable s) (n : Nat) :
    (t.advanceBy s n).IsReachable s := by
  induction n with
  | zero => exact ht
  | succ n ih =>
    rw [advanceBy_succ]
    exact advance_reachable hs ih

theorem isBarEnd_of_left_zero (ht : t.IsReachable s) (h : t.leftInBar s = 0) : t.IsBarEnd s := by
  simp only [leftInBar, intervalsPerBeat, IsReachable, IsBarEnd] at *
  omega

/-- The clock comes to the end of any later bar, and a bar takes no more steps than it has room
for, with one beat to spare. -/
theorem exists_barEnd (hs : 0 < s.numerator) (t : Time) (k : Nat) :
    ∃ n, n < (k + 3) * ((s.numerator.toNat + 1) * intervalsPerBeat) ∧
      (t.advanceBy s n).IsBarEnd s ∧ (t.advanceBy s n).bar = t.bar + 1 + k := by
  obtain ⟨b, hb⟩ : ∃ b, b = t.bar + 1 + k := ⟨_, rfl⟩
  obtain ⟨hleft, hbar⟩ := advanceBy_leftInBar ⟨b, 1, 1⟩ s
  have hfull := leftInBar_barStart hs b
  have hpath : t.advanceBy s (t.leftInBar s + 1 + k * (s.numerator.toNat * intervalsPerBeat) +
      (⟨b, 1, 1⟩ : Time).leftInBar s) =
        (⟨b, 1, 1⟩ : Time).advanceBy s ((⟨b, 1, 1⟩ : Time).leftInBar s) := by
    rw [advanceBy_add, advanceBy_add, advanceBy_nextBar, nextBar, advanceBy_bars hs, hb]
  refine ⟨t.leftInBar s + 1 + k * (s.numerator.toNat * intervalsPerBeat) +
      (⟨b, 1, 1⟩ : Time).leftInBar s, ?_, ?_, ?_⟩
  · have hle := leftInBar_le t s
    simp only [intervalsPerBeat] at *
    nlinarith
  · rw [hpath]
    have hstart := barStart_reachable (b := b) hs (by omega)
    exact isBarEnd_of_left_zero (advanceBy_reachable hs hstart _) hleft
  · rw [hpath, hbar, hb]

/-! ## Ticks -/

/-- Ticks since the beginning of the bar. -/
def ticksInBar (t : Time) : Int :=
  (t.beat - 1 : Int) * ticksPerBeat + (t.interval - 1 : Int) * ticksPerInterval

theorem ticks_eq (t : Time) (s : Signature) :
    t.ticks s = (t.bar - 1 : Int) * s.ticksPerBar + t.ticksInBar := by
  rw [ticks, ticksInBar, Int.add_assoc]

/-- A time that the clock shows lies in its bar with its whole interval. -/
theorem ticksInBar_bounds (ht : t.IsReachable s) :
    0 ≤ t.ticksInBar ∧ t.ticksInBar + 60 ≤ s.ticksPerBar := by
  simp only [IsReachable, intervalsPerBeat] at ht
  simp only [ticksInBar, Signature.ticksPerBar, ticksPerBeat, ticksPerInterval]
  omega

theorem ticks_nonneg (ht : t.IsReachable s) : 0 ≤ t.ticks s := by
  obtain ⟨hlow, hhigh⟩ := ticksInBar_bounds ht
  have hbars : 0 ≤ (t.bar - 1 : Int) * s.ticksPerBar := by
    have hbar := ht.1
    exact Int.mul_nonneg (by omega) (by omega)
  rw [ticks_eq]
  omega

/-- A later time is at least an interval later. -/
theorem ticks_add_le (ht : t.IsReachable s) (hu : u.IsReachable s) (h : t < u) :
    t.ticks s + 60 ≤ u.ticks s := by
  obtain ⟨htlow, hthigh⟩ := ticksInBar_bounds ht
  obtain ⟨hulow, -⟩ := ticksInBar_bounds hu
  rw [ticks_eq, ticks_eq]
  rcases lt_iff.mp h with hbar | ⟨hbar, hin⟩
  · have hbars : (t.bar : Int) * s.ticksPerBar ≤ (u.bar - 1 : Int) * s.ticksPerBar :=
      Int.mul_le_mul_of_nonneg_right (by omega) (by omega)
    rw [Int.sub_mul, Int.one_mul]
    omega
  · have hlater : t.ticksInBar + 60 ≤ u.ticksInBar := by
      simp only [IsReachable, intervalsPerBeat] at ht hu
      simp only [ticksInBar, ticksPerBeat, ticksPerInterval]
      omega
    rw [hbar]
    omega

theorem ticks_le (ht : t.IsReachable s) (hu : u.IsReachable s) (h : t ≤ u) :
    t.ticks s ≤ u.ticks s := by
  rcases lt_or_eq_of_le h with hlt | rfl
  · have := ticks_add_le ht hu hlt
    omega
  · exact le_refl _

theorem lt_nextBar (t : Time) : t < t.nextBar := by
  rw [lt_iff, nextBar]
  exact Or.inl (Nat.lt_succ_self _)

/-! ## Ticks of the clock -/

/-- One step of the clock is one interval, also over the end of a beat or of a bar. -/
theorem ticks_advance (ht : t.IsReachable s) : (t.advance s).ticks s = t.ticks s + 60 := by
  simp only [IsReachable, intervalsPerBeat] at ht
  simp only [ticks_eq, ticksInBar, Signature.ticksPerBar, ticksPerBeat, ticksPerInterval]
  rcases advance_cases t s with ⟨h8, ha⟩ | ⟨h8, hn, ha⟩ | ⟨h8, hn, ha⟩ <;> rw [ha] <;> push_cast
  · omega
  · omega
  · have hbar : (t.bar + 1 - 1 : Int) * (s.numerator * 480) =
        (t.bar - 1 : Int) * (s.numerator * 480) + s.numerator * 480 := by ring
    rw [hbar]
    omega

theorem ticks_start (s : Signature) : start.ticks s = 0 := by
  simp [ticks, start]

theorem ticks_advanceBy (hs : 0 < s.numerator) (ht : t.IsReachable s) (n : Nat) :
    (t.advanceBy s n).ticks s = t.ticks s + 60 * n := by
  induction n with
  | zero => simp [advanceBy]
  | succ n ih =>
    rw [advanceBy_succ, ticks_advance (advanceBy_reachable hs ht n), ih]
    omega

theorem start_reachable (hs : 0 < s.numerator) : start.IsReachable s :=
  barStart_reachable hs (le_refl 1)

theorem ticks_inj (ht : t.IsReachable s) (hu : u.IsReachable s) (h : t.ticks s = u.ticks s) :
    t = u := by
  rcases lt_trichotomy t u with hlt | heq | hgt
  · have := ticks_add_le ht hu hlt
    omega
  · exact heq
  · have := ticks_add_le hu ht hgt
    omega

/-- Every time that the clock can show is shown once. -/
theorem exists_advanceBy (ht : t.IsReachable s) : ∃ n, start.advanceBy s n = t := by
  have hs : 0 < s.numerator := by
    obtain ⟨-, ⟨hlow, hhigh⟩, -⟩ := ht
    omega
  have hmultiple : t.ticks s = 60 * ((t.bar - 1 : Int) * (s.numerator * 8) +
      (t.beat - 1 : Int) * 8 + (t.interval - 1 : Int)) := by
    simp only [ticks, Signature.ticksPerBar, ticksPerBeat, ticksPerInterval]
    ring
  have hnonneg := ticks_nonneg ht
  obtain ⟨n, hn⟩ := Int.eq_ofNat_of_zero_le (a := (t.bar - 1 : Int) * (s.numerator * 8) +
      (t.beat - 1 : Int) * 8 + (t.interval - 1 : Int)) (by omega)
  refine ⟨n, ticks_inj (advanceBy_reachable hs (start_reachable hs) n) ht ?_⟩
  rw [ticks_advanceBy hs (start_reachable hs), ticks_start, hmultiple, hn, Int.zero_add]

/-! ## One sequence -/

theorem advanceBy_inj {m n : Nat} (h : t.advanceBy s m = t.advanceBy s n) : m = n := by
  rcases Nat.lt_trichotomy m n with hlt | heq | hgt
  · exact absurd h (ne_of_lt (advanceBy_lt hlt t s))
  · exact heq
  · exact absurd h.symm (ne_of_lt (advanceBy_lt hgt t s))

/-- The times that the clock can show are those that it comes to from its start. -/
theorem reachable_iff (hs : 0 < s.numerator) :
    t.IsReachable s ↔ ∃! n, start.advanceBy s n = t := by
  constructor
  · intro ht
    obtain ⟨n, hn⟩ := exists_advanceBy ht
    refine ⟨n, hn, ?_⟩
    intro m hm
    exact advanceBy_inj (hm.trans hn.symm)
  · rintro ⟨n, rfl, -⟩
    exact advanceBy_reachable hs (start_reachable hs) n

theorem ticks_advanceBy_start (hs : 0 < s.numerator) (n : Nat) :
    (start.advanceBy s n).ticks s = 60 * n := by
  rw [ticks_advanceBy hs (start_reachable hs), ticks_start, Int.zero_add]

/-- Among the times that the clock can show, later by the order is later by the ticks. -/
theorem lt_iff_ticks_lt (ht : t.IsReachable s) (hu : u.IsReachable s) :
    t < u ↔ t.ticks s < u.ticks s := by
  constructor
  · intro h
    have := ticks_add_le ht hu h
    omega
  · intro h
    by_contra hnot
    have := ticks_le hu ht (not_lt.mp hnot)
    omega

theorem ticks_bijOn (hs : 0 < s.numerator) :
    Set.BijOn (fun t : Time => t.ticks s) {t | t.IsReachable s} {k | 0 ≤ k ∧ 60 ∣ k} := by
  refine ⟨?_, ?_, ?_⟩
  · intro t ht
    obtain ⟨n, rfl⟩ := exists_advanceBy ht
    simp only [Set.mem_ofPred_eq, ticks_advanceBy_start hs]
    omega
  · intro t ht u hu h
    exact ticks_inj ht hu h
  · rintro k ⟨hk, d, rfl⟩
    obtain ⟨n, rfl⟩ := Int.eq_ofNat_of_zero_le (a := d) (by omega)
    exact ⟨start.advanceBy s n, advanceBy_reachable hs (start_reachable hs) n,
      ticks_advanceBy_start hs n⟩

/-- What the clock shows, how times are ordered and how ticks are counted is one structure. -/
theorem clock_order_and_ticks_agree (s : Signature) (hs : 0 < s.numerator) :
    (∀ t : Time, t.IsReachable s ↔ ∃! n, start.advanceBy s n = t) ∧
      (∀ n : Nat, (start.advanceBy s n).ticks s = 60 * n) ∧
      Set.BijOn (fun t : Time => t.ticks s) {t | t.IsReachable s} {k | 0 ≤ k ∧ 60 ∣ k} ∧
      (∀ t : Time, t.IsReachable s → (t.advance s).ticks s = t.ticks s + 60) ∧
      (∀ t u : Time, t.IsReachable s → u.IsReachable s → (t < u ↔ t.ticks s < u.ticks s)) ∧
      ∀ t : Time, t < t.advance s := by
  refine ⟨?_, ticks_advanceBy_start hs, ticks_bijOn hs, ?_, ?_, ?_⟩
  · intro t
    exact reachable_iff hs
  · intro t ht
    exact ticks_advance ht
  · intro t u ht hu
    exact lt_iff_ticks_lt ht hu
  · intro t
    exact lt_advance t s

/-- In seven eighths the last interval of the first bar is the fifty-fifth after the first one. There
is no eighth beat, but the clock moves on from there as well. -/
theorem seven_eighths_agree :
    (0 : Int) < (⟨7, 8⟩ : Signature).numerator ∧
      start.advanceBy ⟨7, 8⟩ 55 = ⟨1, 7, 8⟩ ∧ (∃! n, start.advanceBy ⟨7, 8⟩ n = ⟨1, 7, 8⟩) ∧
      ticks ⟨1, 7, 8⟩ ⟨7, 8⟩ = 60 * 55 ∧
      ¬(∃! n, start.advanceBy ⟨7, 8⟩ n = ⟨2, 8, 1⟩) ∧ (⟨2, 8, 1⟩ : Time) < ⟨2, 8, 2⟩ := by
  obtain ⟨hreach, hticks, -, -, -, hlater⟩ := clock_order_and_ticks_agree ⟨7, 8⟩ (by decide)
  have hshown : start.advanceBy ⟨7, 8⟩ 55 = ⟨1, 7, 8⟩ := by decide +kernel
  refine ⟨by decide, hshown, ?_, ?_, ?_, hlater ⟨2, 8, 1⟩⟩
  · rw [← hreach]
    decide
  · rw [← hshown]
    exact hticks 55
  · rw [← hreach]
    decide

/-! ## The end of a bar -/

/-- The last interval of a bar. -/
def barEnd (b : Nat) (s : Signature) : Time := ⟨b, s.numerator.toNat, intervalsPerBeat⟩

theorem barEnd_reachable {b : Nat} (hs : 0 < s.numerator) (hb : 1 ≤ b) :
    (barEnd b s).IsReachable s := by
  simp only [IsReachable, barEnd, intervalsPerBeat]
  omega

theorem isBarEnd_barEnd (hs : 0 < s.numerator) (b : Nat) : (barEnd b s).IsBarEnd s := by
  simp only [IsBarEnd, barEnd, and_true]
  omega

theorem IsBarEnd.eq_barEnd (h : t.IsBarEnd s) : t = barEnd t.bar s := by
  obtain ⟨hbeat, hint⟩ := h
  cases t
  simp only [barEnd, mk.injEq, true_and] at *
  omega

theorem barEnd_lt {b d : Nat} (h : b < d) (s : Signature) : barEnd b s < barEnd d s :=
  lt_iff.mpr (Or.inl h)

/-- All times of a bar but the last are before its end. -/
theorem lt_barEnd_iff (ht : t.IsReachable s) {b : Nat} :
    t < barEnd b s ↔ t.bar < b ∨ t.bar = b ∧ ¬t.IsBarEnd s := by
  simp only [IsReachable, intervalsPerBeat] at ht
  simp only [lt_iff, barEnd, IsBarEnd, intervalsPerBeat]
  omega

/-- A bar lasts to the last tick of its last interval. -/
theorem ticks_barEnd (hs : 0 < s.numerator) (b : Nat) :
    (barEnd b s).ticks s + 60 = b * s.ticksPerBar := by
  have hlast : (barEnd b s).ticksInBar + 60 = s.ticksPerBar := by
    simp only [ticksInBar, barEnd, Signature.ticksPerBar, ticksPerBeat, ticksPerInterval,
      intervalsPerBeat]
    omega
  rw [ticks_eq, Int.add_assoc, hlast, barEnd]
  ring

theorem ticks_nextBar (t : Time) (s : Signature) : t.nextBar.ticks s = t.bar * s.ticksPerBar := by
  simp [ticks, nextBar]

end Cadence.Time
