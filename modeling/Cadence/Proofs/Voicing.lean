import Mathlib.Algebra.BigOperators.Group.List.Basic
import Mathlib.Algebra.Ring.Int.Defs
import Cadence.Chord

/-!
# Transposing chords

A chord that is moved keeps what it was made of and how far it is to go. So only the sum of its moves
counts, also when it goes out of the playable range and comes back. Where it ends is held inside the
range when its pitches are taken, and no sooner.
-/

namespace Cadence.Voicing

/-- One way to move a chord. -/
inductive Move where
  | steps (count : Int)
  | octaves (count : Int)
  | into (key : Key)
  deriving Repr, DecidableEq

/-- How far a move goes. -/
def Move.semitones : Move → Int
  | .steps n => n
  | .octaves n => 12 * n
  | .into k => k.semitones

/-- How far moves go together. -/
def total (moves : List Move) : Int := (moves.map Move.semitones).sum

def move (v : Voicing) : Move → Voicing
  | .steps n => v.transpose n
  | .octaves n => v.transposeOctave n
  | .into k => v.inKey k

/-- Moved step by step. -/
def moveAll (v : Voicing) (moves : List Move) : Voicing := moves.foldl move v

variable {v : Voicing} {moves others : List Move}

/-! ## Moves -/

theorem move_eq (v : Voicing) (m : Move) : v.move m = ⟨v.intervals, v.shift + m.semitones⟩ := by
  cases m with
  | steps n => rfl
  | octaves n => simp [move, transposeOctave, transpose, Move.semitones, Int.mul_comm]
  | into k => rfl

@[simp]
theorem total_nil : total [] = 0 := rfl

@[simp]
theorem total_cons (m : Move) (moves : List Move) :
    total (m :: moves) = m.semitones + total moves := by
  simp [total]

@[simp]
theorem total_append (moves others : List Move) :
    total (moves ++ others) = total moves + total others := by
  simp [total]

theorem total_perm (h : moves.Perm others) : total moves = total others :=
  (h.map Move.semitones).sum_eq

theorem moveAll_eq (v : Voicing) (moves : List Move) :
    v.moveAll moves = ⟨v.intervals, v.shift + total moves⟩ := by
  unfold moveAll
  induction moves generalizing v with
  | nil => simp
  | cons m moves ih =>
    rw [List.foldl_cons, ih, move_eq, total_cons, Int.add_assoc]

/-- Moves lead to the same chord just if they go as far. -/
theorem moveAll_eq_iff : v.moveAll moves = v.moveAll others ↔ total moves = total others := by
  rw [moveAll_eq, moveAll_eq, mk.injEq]
  simp

/-! ## Pitches -/

theorem noteAt_mono {a b : Int} (h : a ≤ b) : noteAt a ≤ noteAt b := by
  unfold noteAt
  omega

theorem noteAt_of_playable {a : Int} (hlow : 24 ≤ 24 + a) (hhigh : 24 + a ≤ 107) :
    noteAt a = 24 + a := by
  simp only [noteAt, lowestNote, highestNote]
  omega

theorem pitches_moveAll (v : Voicing) (moves : List Move) :
    (v.moveAll moves).pitches = v.intervals.map fun i => noteAt (i + (v.shift + total moves)) := by
  rw [moveAll_eq, pitches]

theorem getElem?_pitches {i : Nat} {interval : Int} (h : v.intervals[i]? = some interval) :
    (v.moveAll moves).pitches[i]? = some (noteAt (interval + (v.shift + total moves))) := by
  rw [pitches_moveAll, List.getElem?_map, h, Option.map_some]

theorem playable_of_mem_pitches {pitch : Int} (h : pitch ∈ v.pitches) :
    24 ≤ pitch ∧ pitch ≤ 107 := by
  obtain ⟨i, -, rfl⟩ := List.mem_map.mp h
  exact ⟨lowestNote_le_noteAt _ _, noteAt_le_highestNote _ _⟩

theorem pitches_mono (h : total moves ≤ total others) :
    List.Forall₂ (· ≤ ·) (v.moveAll moves).pitches (v.moveAll others).pitches := by
  rw [pitches_moveAll, pitches_moveAll, List.forall₂_map_left_iff, List.forall₂_map_right_iff,
    List.forall₂_same]
  intro i _
  apply noteAt_mono
  omega

/-- Of the moves of a chord only their sum counts. Its pitches are held in the playable range, one for
each interval; where they need not be held they are exact, and they keep the order of the intervals and
of the sums. -/
theorem only_the_sum_of_moves_counts (v : Voicing) (moves others : List Move) :
    (v.moveAll moves = v.moveAll others ↔ total moves = total others) ∧
      (moves.Perm others → v.moveAll moves = v.moveAll others) ∧
      (∀ (before after : List Move) (there back : Move), there.semitones + back.semitones = 0 →
        v.moveAll (before ++ there :: back :: after) = v.moveAll (before ++ after)) ∧
      (v.moveAll moves).pitches.length = v.intervals.length ∧
      (∀ pitch ∈ (v.moveAll moves).pitches, 24 ≤ pitch ∧ pitch ≤ 107) ∧
      (∀ (i : Nat) interval, v.intervals[i]? = some interval →
        24 ≤ 24 + interval + (v.shift + total moves) →
        24 + interval + (v.shift + total moves) ≤ 107 →
        (v.moveAll moves).pitches[i]? = some (24 + interval + (v.shift + total moves))) ∧
      (∀ (i j : Nat) a b p q, v.intervals[i]? = some a → v.intervals[j]? = some b → a ≤ b →
        (v.moveAll moves).pitches[i]? = some p → (v.moveAll moves).pitches[j]? = some q → p ≤ q) ∧
      (total moves ≤ total others →
        List.Forall₂ (· ≤ ·) (v.moveAll moves).pitches (v.moveAll others).pitches) := by
  refine ⟨moveAll_eq_iff, ?_, ?_, ?_, fun _ => playable_of_mem_pitches, ?_, ?_, pitches_mono⟩
  · intro hperm
    exact moveAll_eq_iff.mpr (total_perm hperm)
  · intro before after there back hinverse
    rw [moveAll_eq_iff]
    simp only [total_append, total_cons]
    omega
  · rw [length_pitches, moveAll_eq]
  · intro i interval hi hlow hhigh
    rw [Int.add_assoc] at hlow hhigh ⊢
    rw [getElem?_pitches hi, noteAt_of_playable hlow hhigh]
  · intro i j a b p q ha hb hab hp hq
    rw [getElem?_pitches ha, Option.some.injEq] at hp
    rw [getElem?_pitches hb, Option.some.injEq] at hq
    rw [← hp, ← hq]
    apply noteAt_mono
    omega

/-- Twenty octaves up all notes of a chord are the highest one, and twenty octaves down again they are
what they were, in D sharp. -/
theorem chord_comes_back_from_above :
    ((⟨[0, 4, 7], 24⟩ : Voicing).moveAll [.into .dSharp, .octaves 20]).pitches = [107, 107, 107] ∧
      (⟨[0, 4, 7], 24⟩ : Voicing).moveAll [.into .dSharp, .octaves 20, .steps (-240)] =
        (⟨[0, 4, 7], 24⟩ : Voicing).moveAll [.steps 3] ∧
      ((⟨[0, 4, 7], 24⟩ : Voicing).moveAll [.steps 3]).pitches[2]? = some (24 + 7 + (24 + 3)) ∧
      List.Forall₂ (· ≤ ·) ((⟨[0, 4, 7], 24⟩ : Voicing).moveAll [.octaves (-9)]).pitches
        ((⟨[0, 4, 7], 24⟩ : Voicing).moveAll [.steps 3]).pitches := by
  obtain ⟨-, -, hundone, -, -, -, -, -⟩ := only_the_sum_of_moves_counts ⟨[0, 4, 7], 24⟩ [] []
  obtain ⟨hsame, -, -, -, -, -, -, -⟩ :=
    only_the_sum_of_moves_counts ⟨[0, 4, 7], 24⟩ [.into .dSharp] [.steps 3]
  obtain ⟨-, -, -, -, -, hexact, -, -⟩ := only_the_sum_of_moves_counts ⟨[0, 4, 7], 24⟩ [.steps 3] []
  obtain ⟨-, -, -, -, -, -, -, hmono⟩ :=
    only_the_sum_of_moves_counts ⟨[0, 4, 7], 24⟩ [.octaves (-9)] [.steps 3]
  refine ⟨by decide, ?_, hexact 2 7 rfl (by decide) (by decide), hmono (by decide)⟩
  rw [← hsame.mpr (by decide)]
  exact hundone [.into .dSharp] [] (.octaves 20) (.steps (-240)) (by decide)

end Cadence.Voicing
