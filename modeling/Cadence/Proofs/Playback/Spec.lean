import Cadence.Performance.Log
import Cadence.Proofs.Timeline
import Cadence.Proofs.Yaml.Spelling

/-!
# What a performance is

Pure definitions, with no player in them. `Run.lean` shows that a player that nobody stops performs
exactly this.
-/

namespace Cadence

variable {t : Time} {s : Signature} {p : Pattern}

/-! ## Pulses -/

/-- The times that a number of pulses show after the first one, and that of the first. -/
def Time.shown (t : Time) (s : Signature) (n : Nat) : List Time :=
  (List.range (n + 1)).map (t.advanceBy s)

theorem Time.shown_zero (t : Time) (s : Signature) : t.shown s 0 = [t] := rfl

theorem Time.shown_succ (t : Time) (s : Signature) (n : Nat) :
    t.shown s (n + 1) = t :: (t.advance s).shown s n := by
  rw [shown, List.range_succ_eq_map, List.map_cons, List.map_map]
  rfl

/-- A click that sounds if the metronome is on. -/
def clickCues (metronome : Bool) (index : Nat) : List Cue :=
  if metronome then [.click index] else []

/-- What a pulse says of the clock: the bar, then the beat, then the interval. -/
def Time.clockCues (metronome : Bool) (t : Time) : List Cue :=
  (if t.interval = 1 ∧ t.beat = 1 then .callback (.bar t) :: clickCues metronome barClick else []) ++
    (if t.interval = 1 then
      .callback (.beat t) :: if t.beat = 1 then [] else clickCues metronome beatClick
    else []) ++ [.callback (.interval t)]

/-- An event and its sounds. -/
def Event.cues (e : Event) : List Cue :=
  .callback (.event e) :: e.pitches.map fun pitch => .play (pitch - lowestNote)

/-- A pulse of a pattern: the clock, then the event that is due. -/
def Pattern.pulseCues (p : Pattern) (metronome : Bool) (t : Time) : List Cue :=
  t.clockCues metronome ++ (p.due? t).toList.flatMap Event.cues

/-! ## The end of a pattern -/

namespace Pattern

/-- The last interval of a bar, with all events before it. -/
def IsOver (p : Pattern) (t : Time) : Prop :=
  t.IsBarEnd p.signature ∧ ∀ e ∈ p.events, e.time < t

instance (p : Pattern) (t : Time) : Decidable (p.IsOver t) := by unfold IsOver; infer_instance

/-- A pattern played from a time is over after this many steps of the clock, and not before. -/
def EndsAfter (p : Pattern) (t : Time) (n : Nat) : Prop :=
  p.IsOver (t.advanceBy p.signature n) ∧ ∀ m < n, ¬p.IsOver (t.advanceBy p.signature m)

instance (p : Pattern) (t : Time) (n : Nat) : Decidable (p.EndsAfter t n) := by
  unfold EndsAfter; infer_instance

theorem endsAfter_zero : p.EndsAfter t 0 ↔ p.IsOver t := by
  simp [EndsAfter, Time.advanceBy]

theorem endsAfter_succ {n : Nat} :
    p.EndsAfter t (n + 1) ↔ ¬p.IsOver t ∧ p.EndsAfter (t.advance p.signature) n := by
  constructor
  · rintro ⟨hover, hnot⟩
    exact ⟨hnot 0 (by omega), hover, fun m hm => hnot (m + 1) (by omega)⟩
  · rintro ⟨hnow, hover, hnot⟩
    refine ⟨hover, fun m hm => ?_⟩
    cases m with
    | zero => exact hnow
    | succ m => exact hnot m (by omega)

theorem EndsAfter.unique {m n : Nat} (hm : p.EndsAfter t m) (hn : p.EndsAfter t n) : m = n := by
  rcases Nat.lt_trichotomy m n with h | h | h
  · exact absurd hm.1 (hn.2 m h)
  · exact h
  · exact absurd hn.1 (hm.2 n h)

/-- A pattern from a time to its end. -/
def Played (p : Pattern) (metronome : Bool) (t : Time) (cues : List Cue) : Prop :=
  ∃ n, p.EndsAfter t n ∧ cues = .callback (.patternBegin p) ::
    (t.shown p.signature n).flatMap (p.pulseCues metronome) ++ [.callback (.patternEnd p)]

end Pattern

/-! ## Times and tempos -/

/-- Every number of a time can be written. -/
def Time.IsShort (t : Time) : Prop := ∀ n ∈ t.numbers, Yaml.isShort n = true

instance (t : Time) : Decidable t.IsShort := by unfold Time.IsShort; infer_instance

theorem Time.tooLong?_eq_none : t.tooLong? = none ↔ t.IsShort := tooLong?_eq_none_iff

theorem Time.not_isShort {e : Yaml.TooLong} (h : t.tooLong? = some e) : ¬t.IsShort := by
  rw [← tooLong?_eq_none, h]
  exact Option.some_ne_none e

theorem Session.Ending.ofStop_eq_finished : ofStop t = .finished ↔ t.IsShort := by
  rw [← Time.tooLong?_eq_none, ofStop]
  cases t.tooLong? <;> simp

theorem Session.Ending.ofStop_ne_unfinished (t : Time) : ofStop t ≠ .unfinished := by
  rw [ofStop]
  cases t.tooLong? <;> simp

namespace Pattern

/-- The tempo is one that a timer on doubles keeps. -/
def HasTempo (p : Pattern) : Prop := 0 < p.bpm ∧ p.bpm < Double.limit

instance (p : Pattern) : Decidable p.HasTempo := by unfold HasTempo; infer_instance

/-- What is wrong with a tempo that no timer on doubles keeps. -/
def badTempo (p : Pattern) : Timer.BadTempo :=
  if p.bpm ≤ 0 then .notPositive p.bpm else .tooLarge

/-- Played from a time, a pattern begins and ends at times that can be written. -/
def IsLogged (p : Pattern) (t : Time) : Prop :=
  t.IsShort ∧ ∀ n, p.EndsAfter t n → (t.advanceBy p.signature n).IsShort

theorem isLogged_iff {n : Nat} (hend : p.EndsAfter t n) :
    p.IsLogged t ↔ t.IsShort ∧ (t.advanceBy p.signature n).IsShort := by
  refine and_congr_right fun _ => ⟨fun h => h n hend, fun h m hm => ?_⟩
  rwa [hm.unique hend]

/-- Between two times that can be written no time is too long. -/
theorem IsLogged.shown {m n : Nat} (h : p.IsLogged t) (hs : 0 < p.signature.numerator)
    (hend : p.EndsAfter t n) (hm : m ≤ n) : (t.advanceBy p.signature m).IsShort := by
  have hbar : (t.advanceBy p.signature m).bar ≤ (t.advanceBy p.signature n).bar := by
    rcases Nat.eq_or_lt_of_le hm with rfl | hlt
    · exact le_refl _
    · have hlater := Time.lt_iff.mp (Time.advanceBy_lt hlt t p.signature)
      omega
  obtain ⟨hbeat, hinterval⟩ := Time.advanceBy_le hs t m
  obtain ⟨hlast, -⟩ := hend.1.1
  have hstart := h.1
  have hstop := h.2 n hend
  simp only [Time.IsShort, Time.numbers, List.forall_mem_cons] at hstart hstop ⊢
  refine ⟨isShort_of_le hbar hstop.1, ?_, ?_, by simp⟩
  · rcases le_max_iff.mp hbeat with hle | hle
    · exact isShort_of_le hle hstart.2.1
    · exact isShort_of_le (by omega) hstop.2.1
  · rcases le_max_iff.mp hinterval with hle | hle
    · exact isShort_of_le hle hstart.2.2.1
    · exact isShort_of_le hle (by decide)

/-- A pattern from a time on, and how this ends. It does not begin at a time that cannot be logged,
and without a tempo it begins and that is all. -/
inductive Performed (p : Pattern) (metronome : Bool) (t : Time) :
    List Cue → Session.Ending → Prop where
  | unlogged {e : Yaml.TooLong} (hlong : t.tooLong? = some e) :
      Performed p metronome t [] (.tooLong e)
  | noTempo (hshort : t.IsShort) (htempo : ¬p.HasTempo) :
      Performed p metronome t [.callback (.patternBegin p)] (.badTempo p.badTempo)
  | played {n : Nat} (hshort : t.IsShort) (htempo : p.HasTempo) (hend : p.EndsAfter t n) :
      Performed p metronome t (.callback (.patternBegin p) ::
        (t.shown p.signature n).flatMap (p.pulseCues metronome) ++ [.callback (.patternEnd p)])
        (.ofStop (t.advanceBy p.signature n))

variable {metronome : Bool} {part : List Cue} {ending : Session.Ending}

theorem Performed.finished_iff (h : p.Performed metronome t part ending) :
    ending = .finished ↔ p.HasTempo ∧ p.IsLogged t := by
  cases h with
  | unlogged hlong => simp [IsLogged, Time.not_isShort hlong]
  | noTempo _ htempo => simp [htempo]
  | played hshort htempo hend =>
    rw [Session.Ending.ofStop_eq_finished, isLogged_iff hend]
    simp [hshort, htempo]

theorem Performed.ne_unfinished (h : p.Performed metronome t part ending) :
    ending ≠ .unfinished := by
  cases h with
  | unlogged _ | noTempo _ _ => exact fun h => by cases h
  | played _ _ _ => exact Session.Ending.ofStop_ne_unfinished _

theorem Performed.unique {other : List Cue} {ending' : Session.Ending}
    (h : p.Performed metronome t part ending) (h' : p.Performed metronome t other ending') :
    part = other ∧ ending = ending' := by
  cases h with
  | unlogged hlong =>
    cases h' with
    | unlogged hlong' =>
      obtain rfl := Option.some.inj (hlong.symm.trans hlong')
      exact ⟨rfl, rfl⟩
    | noTempo hshort _ | played hshort _ _ => exact absurd hshort (Time.not_isShort hlong)
  | noTempo hshort htempo =>
    cases h' with
    | unlogged hlong => exact absurd hshort (Time.not_isShort hlong)
    | noTempo _ _ => exact ⟨rfl, rfl⟩
    | played _ htempo' _ => exact absurd htempo' htempo
  | played hshort htempo hend =>
    cases h' with
    | unlogged hlong => exact absurd hshort (Time.not_isShort hlong)
    | noTempo _ htempo' => exact absurd htempo htempo'
    | played _ _ hend' =>
      rw [hend.unique hend']
      exact ⟨rfl, rfl⟩

/-- What is performed to the end of the pattern is played. -/
theorem Performed.isPlayed (h : p.Performed metronome t part .finished) :
    p.Played metronome t part := by
  generalize hfinished : Session.Ending.finished = ending at h
  cases h with
  | unlogged _ | noTempo _ _ => cases hfinished
  | played _ _ hend => exact ⟨_, hend, rfl⟩

end Pattern

/-- Patterns in turn: the first from a time on, the others from their start. -/
def inTurn (t : Time) : List Pattern → List (Pattern × Time)
  | [] => []
  | p :: ps => (p, t) :: ps.map fun q => (q, Time.start)

theorem inTurn_start (ps : List Pattern) :
    inTurn Time.start ps = ps.map fun q => (q, Time.start) := by
  cases ps <;> rfl

/-- The patterns from an index on, and where each is played from. -/
def Composition.itinerary (c : Composition) (index : Nat) (t : Time) : List (Pattern × Time) :=
  inTurn t (c.patterns.drop index)

theorem Composition.mem_itinerary {c : Composition} {i : Nat} {t : Time} {visit : Pattern × Time}
    (h : visit ∈ c.itinerary i t) : visit.1 ∈ c.patterns.drop i := by
  rw [itinerary] at h
  cases hdrop : c.patterns.drop i with
  | nil =>
    rw [hdrop] at h
    cases h
  | cons p ps =>
    rw [hdrop, inTurn] at h
    rcases List.mem_cons.mp h with rfl | h
    · exact List.mem_cons_self
    · obtain ⟨q, hq, rfl⟩ := List.mem_map.mp h
      exact List.mem_cons_of_mem _ hq

theorem Composition.itinerary_eq_cons {c : Composition} (i : Fin c.patterns.length) (t : Time) :
    c.itinerary i t =
      (c.patternAt i, t) :: (c.patterns.drop (i + 1)).map fun p => (p, Time.start) := by
  rw [itinerary, List.drop_eq_getElem_cons i.isLt]
  rfl

/-- Patterns in turn, up to the first that is not played to its end. -/
inductive Performs (metronome : Bool) :
    List (Pattern × Time) → List Cue → Session.Ending → Prop where
  | done : Performs metronome [] [] .finished
  | next {p : Pattern} {t : Time} {part cues : List Cue} {visits : List (Pattern × Time)}
      {ending : Session.Ending} (hpart : p.Performed metronome t part .finished)
      (hrest : Performs metronome visits cues ending) :
      Performs metronome ((p, t) :: visits) (part ++ cues) ending
  | last {p : Pattern} {t : Time} {part : List Cue} {visits : List (Pattern × Time)}
      {ending : Session.Ending} (hpart : p.Performed metronome t part ending)
      (hbroken : ending ≠ .finished) :
      Performs metronome ((p, t) :: visits) part ending

namespace Performs

variable {metronome : Bool} {visits : List (Pattern × Time)} {cues : List Cue}
  {ending : Session.Ending}

theorem finished_iff (h : Performs metronome visits cues ending) :
    ending = .finished ↔ ∀ visit ∈ visits, visit.1.HasTempo ∧ visit.1.IsLogged visit.2 := by
  induction h with
  | done => simp
  | next hpart _ ih =>
    rw [ih, List.forall_mem_cons]
    exact (and_iff_right (hpart.finished_iff.mp rfl)).symm
  | last hpart hbroken =>
    rw [List.forall_mem_cons, ← hpart.finished_iff]
    simp [hbroken]

theorem ne_unfinished (h : Performs metronome visits cues ending) : ending ≠ .unfinished := by
  induction h with
  | done => exact fun h => by cases h
  | next _ _ ih => exact ih
  | last hpart _ => exact hpart.ne_unfinished

/-- Nothing but the patterns and the times that they are played from decides what is performed. -/
theorem unique {as bs : List Cue} {e f : Session.Ending}
    (ha : Performs metronome visits as e)
    (hb : Performs metronome visits bs f) : as = bs ∧ e = f := by
  induction ha generalizing bs f with
  | done =>
    cases hb
    exact ⟨rfl, rfl⟩
  | next hpart _ ih =>
    cases hb with
    | next hpart' hrest' =>
      obtain ⟨rfl, -⟩ := hpart.unique hpart'
      obtain ⟨rfl, rfl⟩ := ih hrest'
      exact ⟨rfl, rfl⟩
    | last hpart' hbroken => exact absurd (hpart.unique hpart').2.symm hbroken
  | last hpart hbroken =>
    cases hb with
    | next hpart' _ => exact absurd (hpart.unique hpart').2 hbroken
    | last hpart' _ => exact hpart.unique hpart'

theorem parts (h : Performs metronome visits cues .finished) :
    ∃ parts, cues = parts.flatten ∧
      List.Forall₂ (fun visit part => visit.1.Played metronome visit.2 part) visits parts := by
  generalize hfinished : Session.Ending.finished = ending at h
  induction h with
  | done => exact ⟨[], rfl, .nil⟩
  | next hpart _ ih =>
    obtain ⟨parts, rfl, hparts⟩ := ih hfinished
    exact ⟨_ :: parts, rfl, .cons hpart.isPlayed hparts⟩
  | last _ hbroken => exact absurd hfinished.symm hbroken

end Performs

/-- What follows a pattern that ended at a time: the patterns after it, if this time can be written. -/
def GoesOn (metronome : Bool) (stop : Time) (visits : List (Pattern × Time)) (rest : List Cue)
    (ending : Session.Ending) : Prop :=
  stop.IsShort ∧ Performs metronome visits rest ending ∨
    ¬stop.IsShort ∧ rest = [] ∧ ending = .ofStop stop

/-- A pattern that can be played is followed by what goes on from where it ends. -/
theorem performs_cons_iff {metronome : Bool} {visits : List (Pattern × Time)} {cues : List Cue}
    {ending : Session.Ending} {n : Nat} (hshort : t.IsShort) (htempo : p.HasTempo)
    (hend : p.EndsAfter t n) :
    Performs metronome ((p, t) :: visits) cues ending ↔
      ∃ rest, cues = .callback (.patternBegin p) :: (t.shown p.signature n).flatMap
          (p.pulseCues metronome) ++ .callback (.patternEnd p) :: rest ∧
        GoesOn metronome (t.advanceBy p.signature n) visits rest ending := by
  have hpart : p.Performed metronome t _ _ := .played hshort htempo hend
  constructor
  · intro h
    cases h with
    | next hother hrest =>
      obtain ⟨rfl, hfinished⟩ := hother.unique hpart
      refine ⟨_, List.append_assoc _ _ _, .inl ⟨?_, hrest⟩⟩
      exact Session.Ending.ofStop_eq_finished.mp hfinished.symm
    | last hother hbroken =>
      obtain ⟨rfl, rfl⟩ := hother.unique hpart
      exact ⟨[], rfl, .inr ⟨mt Session.Ending.ofStop_eq_finished.mpr hbroken, rfl, rfl⟩⟩
  · rintro ⟨rest, rfl, ⟨hstop, hrest⟩ | ⟨hstop, rfl, rfl⟩⟩
    · rw [Session.Ending.ofStop_eq_finished.mpr hstop] at hpart
      simpa using Performs.next hpart hrest
    · exact .last hpart (mt Session.Ending.ofStop_eq_finished.mp hstop)

/-- A pattern is not told at all, or begins and that is all, or is played. -/
theorem Performs.cons_cases {metronome : Bool} {visits : List (Pattern × Time)} {cues : List Cue}
    {ending : Session.Ending} (h : Performs metronome ((p, t) :: visits) cues ending) :
    (¬t.IsShort ∧ cues = []) ∨
      (t.IsShort ∧ ¬p.HasTempo ∧ cues = [.callback (.patternBegin p)]) ∨
        (t.IsShort ∧ p.HasTempo ∧ ∃ n rest, p.EndsAfter t n ∧
          cues = .callback (.patternBegin p) :: (t.shown p.signature n).flatMap
            (p.pulseCues metronome) ++ .callback (.patternEnd p) :: rest ∧
          GoesOn metronome (t.advanceBy p.signature n) visits rest ending) := by
  have hpart : ∃ part first, p.Performed metronome t part first ∧
      (first ≠ .finished → cues = part) := by
    cases h with
    | next hpart _ => exact ⟨_, _, hpart, fun hne => absurd rfl hne⟩
    | last hpart _ => exact ⟨_, _, hpart, fun _ => rfl⟩
  obtain ⟨part, first, hpart, hcues⟩ := hpart
  cases hpart with
  | unlogged hlong => exact .inl ⟨Time.not_isShort hlong, hcues (by simp)⟩
  | noTempo hshort htempo => exact .inr (.inl ⟨hshort, htempo, hcues (by simp)⟩)
  | played hshort htempo hend =>
    obtain ⟨rest, hrest⟩ := (performs_cons_iff hshort htempo hend).mp h
    exact .inr (.inr ⟨hshort, htempo, _, rest, hend, hrest⟩)

/-- The last word of a run that comes to the end of its patterns. -/
def Composition.closing (c : Composition) : Session.Ending → List Cue
  | .finished => [.callback (.completed c.name)]
  | _ => []

/-- What a run from a pattern on relies on: events in order, and tempos that a timer keeps. -/
def Composition.PlayableFrom (c : Composition) (index : Nat) : Prop :=
  ∀ p ∈ c.patterns.drop index, p.IsPlayable ∧ p.HasTempo

/-- Every pattern of a run begins and ends at times that can be written. -/
def Composition.IsLoggedFrom (c : Composition) (index : Nat) (t : Time) : Prop :=
  ∀ visit ∈ c.itinerary index t, visit.1.IsLogged visit.2

instance (c : Composition) (index : Nat) : Decidable (c.PlayableFrom index) := by
  unfold Composition.PlayableFrom; infer_instance

theorem Composition.PlayableFrom.get {c : Composition} {i j : Nat} (h : c.PlayableFrom i)
    (hj : c.patterns[i + j]? = some p) : p.IsPlayable ∧ p.HasTempo := by
  rw [← List.getElem?_drop] at hj
  exact h p (List.mem_of_getElem? hj)

/-! ## The events that fire -/

/-- The events among cues. -/
def Cue.events (cues : List Cue) : List Event := Callback.events (Cue.callbacks cues)

namespace Cue

theorem events_append (as bs : List Cue) : events (as ++ bs) = events as ++ events bs := by
  simp [events, callbacks, Callback.events]

theorem events_clockCues (metronome : Bool) (t : Time) : events (t.clockCues metronome) = [] := by
  unfold Time.clockCues clickCues
  split_ifs <;> rfl

theorem events_eventCues (e : Event) : events e.cues = [e] := by
  have hplays : callbacks (e.pitches.map fun pitch => .play (pitch - lowestNote)) = [] := by
    simp [callbacks, List.filterMap_map, callback?]
  rw [Event.cues, ← List.singleton_append, events_append]
  simp only [events, hplays]
  rfl

theorem events_pulseCues (p : Pattern) (metronome : Bool) (t : Time) :
    events (p.pulseCues metronome t) = (p.due? t).toList := by
  rw [Pattern.pulseCues, events_append, events_clockCues, List.nil_append]
  cases p.due? t with
  | none => rfl
  | some e => simpa using events_eventCues e

theorem events_flatMap {α : Type} (f : α → List Cue) (as : List α) :
    events (as.flatMap f) = as.flatMap fun a => events (f a) := by
  induction as with
  | nil => rfl
  | cons a as ih => rw [List.flatMap_cons, events_append, ih, List.flatMap_cons]

end Cue

/-- Until a pattern is over, every event that was to come is due on one of its pulses. -/
theorem Pattern.due_shown (hp : p.IsPlayable) {n : Nat} (h : p.EndsAfter t n) :
    ((t.shown p.signature n).flatMap fun u => (p.due? u).toList) = p.toCome t := by
  induction n generalizing t with
  | zero =>
    have hnone : p.toCome t = [] := toCome_eq_nil_iff.mpr (endsAfter_zero.mp h).2
    rw [Time.shown_zero, hnone, List.flatMap_singleton, due?_eq_none_of_toCome hnone]
    rfl
  | succ n ih =>
    rw [Time.shown_succ, List.flatMap_cons, ih (endsAfter_succ.mp h).2, ← toCome_step hp]

theorem Pattern.Played.events {metronome : Bool} {cues : List Cue} (hp : p.IsPlayable)
    (h : p.Played metronome t cues) : Cue.events cues = p.toCome t := by
  obtain ⟨n, hn, rfl⟩ := h
  rw [Cue.events_append, ← List.singleton_append, Cue.events_append, Cue.events_flatMap]
  simp only [Cue.events_pulseCues, due_shown hp hn]
  simp [Cue.events, Cue.callbacks, Cue.callback?, Callback.events]

end Cadence
