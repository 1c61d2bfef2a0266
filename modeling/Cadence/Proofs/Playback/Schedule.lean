import Mathlib.Data.Nat.Count
import Mathlib.Data.Rat.Floor
import Mathlib.Tactic.Positivity
import Cadence.Proofs.Clock
import Cadence.Proofs.Playback.Heed

/-!
# Pulses on a schedule

The deadline of a timer is its first reading and a period for each pulse so far, whatever it was
polled at in between. So the clock alone says how many pulses are due, and a poll that fires nothing
finds that all of them have fired.
-/

namespace Cadence.Timer

/-! ## Polls in turn -/

section

variable {α : Type} [Add α] [LT α] [DecidableLT α]

/-- A timer after its first polls, at readings of a clock. -/
def afterPolls (t : Timer α) (readings : ℕ → α) : ℕ → Timer α
  | 0 => t
  | k + 1 => ((t.afterPolls readings k).poll (readings k)).2

/-- What a poll shows, if it fires a pulse. -/
def shownAt? (t : Timer α) (readings : ℕ → α) (k : ℕ) : Option Time :=
  ((t.afterPolls readings k).poll (readings k)).1

/-- The pulses that were fired up to a poll, with the one of this poll. -/
def firedBy (t : Timer α) (readings : ℕ → α) (k : ℕ) : ℕ :=
  Nat.count (fun i => (t.shownAt? readings i).isSome) (k + 1)

theorem firedBy_succ (t : Timer α) (readings : ℕ → α) (k : ℕ) :
    t.firedBy readings (k + 1) =
      t.firedBy readings k + if (t.shownAt? readings (k + 1)).isSome then 1 else 0 := by
  rw [firedBy, Nat.count_succ, ← firedBy]

end

/-! ## Timers on a clock -/

variable {s : Signature} {bpm : Int} {t : Timer ℚ} {time : Time} {period first now : ℚ} {n : ℕ}

/-- When the pulses of a tempo are due on a clock with exact readings, which has a pace for every
tempo. -/
def wallPace (bpm : Int) : Option (Pace ℚ) :=
  some (.every (intervalSeconds (fun n : Int => (n : ℚ)) bpm))

theorem intervalSeconds_eq (bpm : Int) :
    intervalSeconds (fun n : Int => (n : ℚ)) bpm = 60 / (8 * bpm) := by
  rw [intervalSeconds, div_div, mul_comm]
  norm_num

/-- A timer of a signature and a tempo on a clock: one that was made, and then polled, stepped and
moved in any way. -/
inductive OnClock (s : Signature) (bpm : Int) : Timer ℚ → Prop where
  | made {t : Timer ℚ} (h : Timer.new s bpm (wallPace bpm) = .ok t) : OnClock s bpm t
  | polled {t : Timer ℚ} (h : OnClock s bpm t) (now : ℚ) : OnClock s bpm (t.poll now).2
  | stepped {t : Timer ℚ} (h : OnClock s bpm t) : OnClock s bpm t.step
  | moved {t : Timer ℚ} (h : OnClock s bpm t) (time : Time) : OnClock s bpm (t.seek time)

/-- A timer that was set to a time and not polled since. -/
inductive SetTo (s : Signature) (bpm : Int) : Time → Timer ℚ → Prop where
  | made {t : Timer ℚ} (h : Timer.new s bpm (wallPace bpm) = .ok t) : SetTo s bpm Time.start t
  | moved {t : Timer ℚ} (h : OnClock s bpm t) (time : Time) : SetTo s bpm time (t.seek time)

theorem new_eq_ok (h : Timer.new s bpm (wallPace bpm) = .ok t) :
    t = { signature := s, bpm, pace := .every (intervalSeconds (fun n : Int => (n : ℚ)) bpm) } := by
  unfold Timer.new wallPace at h
  split at h
  · cases h
  · exact (Except.ok.inj h).symm

theorem OnClock.fixed (h : OnClock s bpm t) : t.signature = s ∧
    t.pace = .every (intervalSeconds (fun n : Int => (n : ℚ)) bpm) := by
  induction h with
  | made h =>
    rw [new_eq_ok h]
    exact ⟨rfl, rfl⟩
  | @polled t _ now ih =>
    obtain ⟨hpace, hsignature, -⟩ := t.poll_spec now
    exact ⟨hsignature.trans ih.1, hpace.trans ih.2⟩
  | stepped _ ih | moved _ _ ih => exact ih

/-! ## The schedule -/

/-- A timer before its first poll. -/
structure IsFresh (s : Signature) (time : Time) (period : ℚ) (t : Timer ℚ) : Prop where
  signature : t.signature = s
  pace : t.pace = .every period
  shows : t.time = time
  started : t.started = false
  deadline : t.deadline? = none

theorem SetTo.isFresh (h : SetTo s bpm time t) : IsFresh s time (60 / (8 * bpm)) t := by
  rw [← intervalSeconds_eq]
  cases h with
  | made h =>
    rw [new_eq_ok h]
    exact ⟨rfl, rfl, rfl, rfl, rfl⟩
  | moved h time => exact ⟨h.fixed.1, h.fixed.2, rfl, rfl, rfl⟩

/-- A timer that has fired some pulses: the next one is due as many periods after the first. -/
structure OnSchedule (s : Signature) (time : Time) (period first : ℚ) (n : ℕ) (t : Timer ℚ) :
    Prop where
  signature : t.signature = s
  pace : t.pace = .every period
  deadline : t.deadline? = some (first + n * period)
  started : t.started = true
  shows : t.time = time.advanceBy s (n - 1)
  fired : 1 ≤ n

theorem IsFresh.poll_first (h : IsFresh s time period t) (now : ℚ) :
    (t.poll now).1 = some time ∧ OnSchedule s time period now 1 (t.poll now).2 := by
  have hpoll : t.poll now = (some time,
      { t with started := true, deadline? := some (now + period) }) := by
    obtain ⟨signature, tempo, pace, shown, started, deadline?⟩ := t
    obtain ⟨-, rfl, rfl, rfl, rfl⟩ := h
    simp [poll, claim, pulse]
  rw [hpoll]
  exact ⟨rfl, h.signature, h.pace, by simp, rfl, h.shows, le_refl 1⟩

theorem OnSchedule.poll_early (h : OnSchedule s time period first n t)
    (hearly : now < first + n * period) : t.poll now = (none, t) := by
  obtain ⟨signature, tempo, pace, shown, started, deadline?⟩ := t
  obtain ⟨-, rfl, rfl, -, -, -⟩ := h
  simp [poll, claim, hearly]

theorem OnSchedule.poll_due (h : OnSchedule s time period first n t)
    (hdue : first + n * period ≤ now) :
    (t.poll now).1.isSome ∧ OnSchedule s time period first (n + 1) (t.poll now).2 := by
  have hpoll : t.poll now = (some (t.time.advance s),
      { t with time := t.time.advance s, deadline? := some (first + n * period + period) }) := by
    obtain ⟨signature, tempo, pace, shown, started, deadline?⟩ := t
    obtain ⟨rfl, rfl, rfl, rfl, -, -⟩ := h
    simp [poll, claim, not_lt.mpr hdue, pulse, step]
  obtain ⟨m, rfl⟩ : ∃ m, n = m + 1 := ⟨n - 1, by have := h.fired; omega⟩
  rw [hpoll]
  refine ⟨rfl, h.signature, h.pace, ?_, h.started, ?_, by omega⟩
  · have hnext : first + (m + 1 : ℕ) * period + period = first + (m + 1 + 1 : ℕ) * period := by
      push_cast
      ring
    rw [hnext]
  · rw [h.shows]
    exact (Time.advanceBy_succ time s m).symm

/-! ## What the clock says -/

section

variable {c : ℕ → ℚ}

theorem IsFresh.firedBy_zero (h : IsFresh s time period t) (c : ℕ → ℚ) : t.firedBy c 0 = 1 := by
  obtain ⟨hshown, -⟩ := h.poll_first (c 0)
  simp [firedBy, Nat.count_succ, shownAt?, afterPolls, hshown]

/-- Of all readings only the first one has a say in the schedule. -/
theorem IsFresh.onSchedule_afterPolls (h : IsFresh s time period t) (c : ℕ → ℚ) (k : ℕ) :
    OnSchedule s time period (c 0) (t.firedBy c k) (t.afterPolls c (k + 1)) := by
  induction k with
  | zero =>
    rw [h.firedBy_zero]
    exact (h.poll_first (c 0)).2
  | succ k ih =>
    have hshown : t.shownAt? c (k + 1) = ((t.afterPolls c (k + 1)).poll (c (k + 1))).1 := rfl
    have hafter : t.afterPolls c (k + 1 + 1) = ((t.afterPolls c (k + 1)).poll (c (k + 1))).2 := rfl
    rw [firedBy_succ, hshown, hafter]
    -- an early poll changes nothing; a due one moves the deadline on from itself, not from the reading
    rcases lt_or_ge (c (k + 1)) (c 0 + t.firedBy c k * period) with hearly | hdue
    · rw [ih.poll_early hearly]
      exact ih
    · obtain ⟨hsome, hnext⟩ := ih.poll_due hdue
      rw [if_pos hsome]
      exact hnext

/-- The periods that have begun at a poll, the one that begins with the first poll included. -/
def begunBy (period : ℚ) (c : ℕ → ℚ) (k : ℕ) : ℤ := ⌊(c k - c 0) / period⌋ + 1

theorem lt_begunBy_iff (hperiod : 0 < period) (k : ℕ) :
    (n : ℤ) < begunBy period c k ↔ c 0 + n * period ≤ c k := by
  rw [begunBy, Int.lt_add_one_iff, Int.le_floor, le_div_iff₀ hperiod, Int.cast_natCast]
  constructor <;> intro h <;> linarith

theorem begunBy_le_succ (hperiod : 0 < period) (hc : Monotone c) (k : ℕ) :
    begunBy period c k ≤ begunBy period c (k + 1) := by
  have hlater : c k ≤ c (k + 1) := hc k.le_succ
  have hquotient : (c k - c 0) / period ≤ (c (k + 1) - c 0) / period := by gcongr
  have := Int.floor_le_floor hquotient
  rw [begunBy, begunBy]
  omega

theorem begunBy_zero (period : ℚ) (c : ℕ → ℚ) : begunBy period c 0 = 1 := by
  simp [begunBy]

theorem IsFresh.fires_iff (h : IsFresh s time period t) (hperiod : 0 < period) (k : ℕ) :
    (t.shownAt? c (k + 1)).isSome ↔ (t.firedBy c k : ℤ) < begunBy period c (k + 1) := by
  have hschedule := h.onSchedule_afterPolls c k
  have hshown : t.shownAt? c (k + 1) = ((t.afterPolls c (k + 1)).poll (c (k + 1))).1 := rfl
  rw [hshown, lt_begunBy_iff hperiod]
  constructor
  · intro hsome
    by_contra hearly
    rw [hschedule.poll_early (not_le.mp hearly)] at hsome
    cases hsome
  · intro hdue
    exact (hschedule.poll_due hdue).1

theorem IsFresh.firedBy_le_begunBy (h : IsFresh s time period t) (hperiod : 0 < period)
    (hc : Monotone c) (k : ℕ) : (t.firedBy c k : ℤ) ≤ begunBy period c k := by
  induction k with
  | zero =>
    rw [h.firedBy_zero, begunBy_zero]
    rfl
  | succ k ih =>
    have hmore := begunBy_le_succ hperiod hc k
    rw [firedBy_succ]
    split
    · next hsome =>
      have hdue := (h.fires_iff hperiod k).mp hsome
      push_cast
      omega
    · push_cast
      omega

theorem IsFresh.firedBy_of_none (h : IsFresh s time period t) (hperiod : 0 < period)
    (hc : Monotone c) {k : ℕ} (hnone : t.shownAt? c k = none) :
    (t.firedBy c k : ℤ) = begunBy period c k := by
  have hle := h.firedBy_le_begunBy hperiod hc k
  cases k with
  | zero =>
    rw [shownAt?, afterPolls, (h.poll_first (c 0)).1] at hnone
    cases hnone
  | succ k =>
    have hsilent : ¬(t.shownAt? c (k + 1)).isSome := by simp [hnone]
    have hdue := mt (h.fires_iff hperiod k).mpr hsilent
    rw [firedBy_succ, if_neg hsilent] at hle ⊢
    omega

theorem IsFresh.firedBy_eq_min (h : IsFresh s time period t) (hperiod : 0 < period)
    (hc : Monotone c) (k : ℕ) :
    (t.firedBy c (k + 1) : ℤ) = min ((t.firedBy c k : ℤ) + 1) (begunBy period c (k + 1)) := by
  by_cases hdue : (t.firedBy c k : ℤ) < begunBy period c (k + 1)
  · rw [firedBy_succ, if_pos ((h.fires_iff hperiod k).mpr hdue)]
    push_cast
    omega
  · have hle := h.firedBy_le_begunBy hperiod hc k
    have hmore := begunBy_le_succ hperiod hc k
    rw [firedBy_succ, if_neg (mt (h.fires_iff hperiod k).mp hdue)]
    push_cast
    omega

end

/-- A wall clock neither drifts nor runs ahead. A timer that was made for a tempo, or moved to a time
after any use, fires on its first poll and then whenever another period has begun that it fired no
pulse for; a poll that fires nothing finds none, however the polls before it were spread. -/
theorem pulses_keep_to_the_clock (s : Signature) (bpm : Int) (hbpm : 1 ≤ bpm) :
    (∃ t, Timer.new s bpm (wallPace bpm) = .ok t) ∧
      ∀ (t : Timer ℚ) (time : Time) (c : ℕ → ℚ), SetTo s bpm time t → Monotone c →
        t.firedBy c 0 = 1 ∧ ∀ k,
          ((t.firedBy c (k + 1) : ℤ) =
            min ((t.firedBy c k : ℤ) + 1) (⌊(c (k + 1) - c 0) / (60 / (8 * bpm))⌋ + 1)) ∧
          (t.firedBy c k : ℤ) ≤ ⌊(c k - c 0) / (60 / (8 * bpm))⌋ + 1 ∧
          (t.shownAt? c k = none → (t.firedBy c k : ℤ) = ⌊(c k - c 0) / (60 / (8 * bpm))⌋ + 1) ∧
          (t.afterPolls c (k + 1)).time = time.advanceBy s (t.firedBy c k - 1) := by
  constructor
  · unfold Timer.new
    rw [if_neg (by omega)]
    exact ⟨_, rfl⟩
  · intro t time c hset hc
    have hfresh := hset.isFresh
    have hperiod : (0 : ℚ) < 60 / (8 * bpm) := by
      have : (1 : ℚ) ≤ bpm := by exact_mod_cast hbpm
      positivity
    refine ⟨hfresh.firedBy_zero c, fun k => ⟨hfresh.firedBy_eq_min hperiod hc k,
      hfresh.firedBy_le_begunBy hperiod hc k, hfresh.firedBy_of_none hperiod hc, ?_⟩⟩
    exact (hfresh.onSchedule_afterPolls c k).shows

/-- A clock that is read once at its start and then late, several times. -/
def lateReadings (k : ℕ) : ℚ := if k = 0 then 0 else 1 / 5

/-- Four polls make up for the three pulses that were missed, and the last of them fires nothing. -/
theorem late_polls_catch_up :
    (1 : Int) ≤ 120 ∧ Monotone lateReadings ∧ ∃ t, SetTo Signature.common 120 Time.start t ∧
      [0, 1, 2, 3, 4].map (t.firedBy lateReadings) = [1, 2, 3, 4, 4] ∧
      (t.afterPolls lateReadings 5).time = ⟨1, 1, 4⟩ := by
  have hc : Monotone lateReadings := by
    intro i j hij
    simp only [lateReadings]
    split_ifs <;> first | omega | norm_num
  obtain ⟨⟨t, hmade⟩, hpolls⟩ := pulses_keep_to_the_clock Signature.common 120 (by decide)
  obtain ⟨hfirst, hkeeps⟩ := hpolls t Time.start lateReadings (.made hmade) hc
  have hbegun : ∀ k,
      ⌊(lateReadings (k + 1) - lateReadings 0) / (60 / (8 * (120 : Int)))⌋ + 1 = 4 := by
    intro k
    norm_num [lateReadings]
  have hnext : ∀ k, (t.firedBy lateReadings (k + 1) : ℤ) =
      min ((t.firedBy lateReadings k : ℤ) + 1) 4 := by
    intro k
    rw [← hbegun k]
    exact (hkeeps k).1
  have hone : (t.firedBy lateReadings 1 : ℤ) = min ((t.firedBy lateReadings 0 : ℤ) + 1) 4 := hnext 0
  have htwo : (t.firedBy lateReadings 2 : ℤ) = min ((t.firedBy lateReadings 1 : ℤ) + 1) 4 := hnext 1
  have hthree : (t.firedBy lateReadings 3 : ℤ) = min ((t.firedBy lateReadings 2 : ℤ) + 1) 4 := hnext 2
  have hfour : (t.firedBy lateReadings 4 : ℤ) = min ((t.firedBy lateReadings 3 : ℤ) + 1) 4 := hnext 3
  have hshows := (hkeeps 4).2.2.2
  have hfired : t.firedBy lateReadings 4 = 4 := by omega
  refine ⟨by decide, hc, t, .made hmade, ?_, ?_⟩
  · simp only [List.map_cons, List.map_nil, List.cons.injEq, and_true]
    omega
  · rw [hshows, hfired]
    decide

end Cadence.Timer
