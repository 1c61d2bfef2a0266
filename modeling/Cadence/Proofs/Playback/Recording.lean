import Cadence.Performance.Playback
import Cadence.Proofs.Agreement
import Cadence.Proofs.Document.RoundTrip
import Cadence.Proofs.Playback.Grammar

/-!
# What is recorded of a run

Played from its start, a composition in order leaves a recording that has every event, and ends at the
end of a bar. The clock goes through all bars up to that one, so this bar decides whether every time in
the recording can be written.
-/

namespace Cadence

variable {p : Pattern} {t : Time} {c : Composition} {metronome : Bool}

/-! ## One pattern -/

namespace Callback

theorem events_append (as bs : List Callback) : events (as ++ bs) = events as ++ events bs :=
  List.filterMap_append

theorem lastTime?_append (as bs : List Callback) :
    lastTime? (as ++ bs) = (lastTime? bs).or (lastTime? as) := by
  unfold lastTime?
  rw [List.filterMap_append, List.getLast?_append]

/-- Every number in a callback can be written. -/
def IsShort (cb : Callback) : Prop := ∀ n ∈ cb.numbers, Yaml.isShort n = true

theorem isShort_of_nil {cb : Callback} (h : cb.numbers = []) : cb.IsShort := by
  simp [IsShort, h]

end Callback

/-- The last thing that a pulse tells of the clock is its interval. -/
theorem lastTime?_tick (p : Pattern) (t : Time) :
    Callback.lastTime? (t.told ++ (p.due? t).toList.map .event) = some t := by
  have hevents : Callback.lastTime? ((p.due? t).toList.map .event) = none := by
    cases p.due? t <;> rfl
  rw [Callback.lastTime?_append, hevents, Time.told, Callback.lastTime?_append]
  rfl

namespace Pattern

/-- With the bar with which it ends a pattern is over. -/
theorem isOver_endBar (hp : p.IsPlayable) : p.IsOver (Time.barEnd p.endBar p.signature) := by
  obtain ⟨n, -, hend⟩ := exists_endsAfter hp Time.start
  rw [← hend.eq_endBar hp]
  exact hend.1

theorem Played.callbacks {part : List Cue} (h : p.Played metronome t part) :
    ∃ n, p.EndsAfter t n ∧ Cue.callbacks part = .patternBegin p ::
      ((t.shown p.signature n).map fun u => u.told ++ (p.due? u).toList.map .event).flatten ++
        [.patternEnd p] := by
  obtain ⟨n, hend, rfl⟩ := h
  refine ⟨n, hend, ?_⟩
  rw [Cue.callbacks_append, Cue.callbacks_callback, ← callbacks_pulses p metronome]
  rfl

theorem Played.lastTime? {part : List Cue} (hp : p.IsPlayable)
    (h : p.Played metronome Time.start part) :
    Callback.lastTime? (Cue.callbacks part) = some (Time.barEnd p.endBar p.signature) := by
  obtain ⟨n, hend, hpart⟩ := h.callbacks
  have hpatternEnd : Callback.lastTime? [.patternEnd p] = none := rfl
  rw [hpart, Callback.lastTime?_append, hpatternEnd, Option.none_or, ← List.singleton_append,
    Callback.lastTime?_append, Time.shown, List.range_succ, List.map_append, List.map_append,
    List.flatten_append, Callback.lastTime?_append, List.map_singleton, List.map_singleton,
    List.flatten_singleton, lastTime?_tick, Option.some_or, Option.some_or, hend.eq_endBar hp]

/-- What is told on a pulse is the time and the event at it. -/
theorem of_mem_tick {cb : Callback} (h : cb ∈ t.told ++ (p.due? t).toList.map .event) :
    cb.numbers = t.numbers ∨ ∃ e ∈ p.events, cb = .event e := by
  rcases List.mem_append.mp h with hclock | hevent
  · left
    unfold Time.told at hclock
    split_ifs at hclock <;> simp at hclock <;> rcases hclock with rfl | rfl | rfl <;> rfl
  · right
    obtain ⟨e, he, rfl⟩ := List.mem_map.mp hevent
    exact ⟨e, List.mem_of_find?_eq_some (Option.mem_toList.mp he), rfl⟩

end Pattern

/-- Played from its start, a pattern ends at a time that can be written if its last bar can. -/
theorem Pattern.isLogged_start_iff (hp : p.IsPlayable)
    (hbeats : Yaml.isShort p.signature.numerator = true) :
    p.IsLogged Time.start ↔ Yaml.isShort p.endBar = true := by
  obtain ⟨n, -, hend⟩ := exists_endsAfter hp Time.start
  have hpos := hp.beats
  have hnumerator : ((p.signature.numerator.toNat : Nat) : Int) = p.signature.numerator := by omega
  have hstart : Time.start.IsShort := by decide
  have hinterval : Yaml.isShort intervalsPerBeat = true := by decide
  rw [isLogged_iff hend, hend.eq_endBar hp, and_iff_right hstart]
  simp [Time.IsShort, Time.numbers, Time.barEnd, hnumerator, hbeats, hinterval]

/-- A pattern whose recording can be written shows the bar with which it ends. -/
theorem Pattern.Played.short_endBar {part : List Cue} (hp : p.IsPlayable)
    (h : p.Played metronome Time.start part) (hall : ∀ cb ∈ Cue.callbacks part, cb.IsShort) :
    Yaml.isShort p.endBar = true := by
  obtain ⟨n, hend, hpart⟩ := h.callbacks
  have hshown : Time.barEnd p.endBar p.signature ∈ Time.start.shown p.signature n := by
    rw [← hend.eq_endBar hp]
    exact List.mem_map.mpr ⟨n, List.mem_range.mpr (Nat.lt_succ_self n), rfl⟩
  have htold : Callback.interval (Time.barEnd p.endBar p.signature) ∈ Cue.callbacks part := by
    rw [hpart]
    refine List.mem_append_left _ (List.mem_cons_of_mem _ (List.mem_flatten.mpr
      ⟨_, List.mem_map_of_mem hshown, List.mem_append_left _ ?_⟩))
    exact List.mem_append_right _ (List.mem_singleton_self _)
  exact hall _ htold _ List.mem_cons_self

/-- Of a pattern that can be written, the recording can be if the bar with which it ends can. -/
theorem Pattern.Played.isShort_iff {part : List Cue} (hp : p.IsPlayable)
    (hbeats : Yaml.isShort p.signature.numerator = true)
    (hevents : ∀ e ∈ p.events, (Callback.event e).IsShort)
    (h : p.Played metronome Time.start part) :
    (∀ cb ∈ Cue.callbacks part, cb.IsShort) ↔ Yaml.isShort p.endBar = true := by
  refine ⟨h.short_endBar hp, fun hbar cb hcb => ?_⟩
  obtain ⟨n, hend, hpart⟩ := h.callbacks
  rw [hpart] at hcb
  rcases List.mem_append.mp hcb with hcb | hcb
  · rcases List.mem_cons.mp hcb with rfl | hcb
    · exact Callback.isShort_of_nil rfl
    · obtain ⟨tick, htick, hcb⟩ := List.mem_flatten.mp hcb
      obtain ⟨u, hu, rfl⟩ := List.mem_map.mp htick
      obtain ⟨k, hk, rfl⟩ := List.mem_map.mp hu
      rcases of_mem_tick hcb with hclock | ⟨e, he, rfl⟩
      · rw [Callback.IsShort, hclock]
        exact ((isLogged_start_iff hp hbeats).mpr hbar).shown hp.beats hend
          (Nat.lt_succ_iff.mp (List.mem_range.mp hk))
      · exact hevents e he
  · obtain rfl := List.mem_singleton.mp hcb
    exact Callback.isShort_of_nil rfl

/-! ## All patterns -/

/-- Patterns that are played in turn from their starts. -/
def PlayedInTurn (metronome : Bool) (ps : List Pattern) (cues : List Cue) : Prop :=
  ∃ parts, cues = parts.flatten ∧
    List.Forall₂ (fun p part => p.Played metronome Time.start part) ps parts

namespace PlayedInTurn

variable {ps : List Pattern} {cues : List Cue}

theorem nil_iff : PlayedInTurn metronome [] cues ↔ cues = [] := by
  constructor
  · rintro ⟨parts, rfl, hparts⟩
    cases hparts
    rfl
  · rintro rfl
    exact ⟨[], rfl, .nil⟩

theorem cons_iff : PlayedInTurn metronome (p :: ps) cues ↔ ∃ part rest, cues = part ++ rest ∧
    p.Played metronome Time.start part ∧ PlayedInTurn metronome ps rest := by
  constructor
  · rintro ⟨parts, rfl, hparts⟩
    cases hparts with
    | cons hpart hrest => exact ⟨_, _, rfl, hpart, _, rfl, hrest⟩
  · rintro ⟨part, rest, rfl, hpart, parts, rfl, hrest⟩
    exact ⟨part :: parts, rfl, .cons hpart hrest⟩

theorem events (hp : ∀ p ∈ ps, p.IsPlayable) (h : PlayedInTurn metronome ps cues) :
    Callback.events (Cue.callbacks cues) = ps.flatMap (·.events) := by
  induction ps generalizing cues with
  | nil =>
    rw [nil_iff.mp h]
    rfl
  | cons p ps ih =>
    obtain ⟨part, rest, rfl, hpart, hrest⟩ := cons_iff.mp h
    have hhere : Callback.events (Cue.callbacks part) = p.toCome Time.start :=
      hpart.events (hp p List.mem_cons_self)
    rw [Cue.callbacks_append, Callback.events_append, hhere,
      Pattern.toCome_start (hp p List.mem_cons_self),
      ih (fun q hq => hp q (List.mem_cons_of_mem _ hq)) hrest, List.flatMap_cons]

theorem lastTime? {last : Pattern} (hp : ∀ p ∈ ps, p.IsPlayable) (hlast : ps.getLast? = some last)
    (h : PlayedInTurn metronome ps cues) : Callback.lastTime? (Cue.callbacks cues) =
      some (Time.barEnd last.endBar last.signature) := by
  induction ps generalizing cues with
  | nil => cases hlast
  | cons p ps ih =>
    obtain ⟨part, rest, rfl, hpart, hrest⟩ := cons_iff.mp h
    rw [Cue.callbacks_append, Callback.lastTime?_append]
    cases ps with
    | nil =>
      obtain rfl := Option.some.inj hlast
      rw [nil_iff.mp hrest]
      exact hpart.lastTime? (hp p List.mem_cons_self)
    | cons q qs =>
      rw [List.getLast?_cons_cons] at hlast
      rw [ih (fun q hq => hp q (List.mem_cons_of_mem _ hq)) hlast hrest, Option.some_or]

theorem isShort_iff (hp : ∀ p ∈ ps, p.IsPlayable)
    (hshort : ∀ p ∈ ps, Yaml.isShort p.signature.numerator = true ∧
      ∀ e ∈ p.events, (Callback.event e).IsShort)
    (h : PlayedInTurn metronome ps cues) :
    (∀ cb ∈ Cue.callbacks cues, cb.IsShort) ↔ ∀ p ∈ ps, Yaml.isShort p.endBar = true := by
  induction ps generalizing cues with
  | nil =>
    rw [nil_iff.mp h]
    simp [Cue.callbacks]
  | cons p ps ih =>
    obtain ⟨part, rest, rfl, hpart, hrest⟩ := cons_iff.mp h
    obtain ⟨hbeats, hevents⟩ := hshort p List.mem_cons_self
    rw [Cue.callbacks_append, List.forall_mem_append, List.forall_mem_cons,
      hpart.isShort_iff (hp p List.mem_cons_self) hbeats hevents,
      ih (fun q hq => hp q (List.mem_cons_of_mem _ hq))
        (fun q hq => hshort q (List.mem_cons_of_mem _ hq)) hrest]

end PlayedInTurn

/-- What is recorded of a composition that is played from its start to its end. -/
structure Composition.IsRecorded (c : Composition) (heard : List Callback) : Prop where
  events : Callback.events heard = c.patterns.flatMap (·.events)
  lastTime : ∀ last, c.patterns.getLast? = some last →
    Callback.lastTime? heard = some (Time.barEnd last.endBar last.signature)
  /-- if a timeline of it can be written, the recording can be as far as the clock can -/
  isShort_iff : (∀ p ∈ c.patterns, Yaml.isShort p.signature.numerator = true ∧
      ∀ e ∈ p.events, (Callback.event e).IsShort) →
    ((∀ cb ∈ heard, cb.IsShort) ↔ ∀ p ∈ c.patterns, Yaml.isShort p.endBar = true)

theorem PlayedInTurn.isRecorded {cues : List Cue} (hp : ∀ p ∈ c.patterns, p.IsPlayable)
    (h : PlayedInTurn metronome c.patterns cues) : c.IsRecorded (Cue.callbacks
      (.callback (.ready c.name) :: cues ++ [.callback (.completed c.name)])) := by
  have hheard : Cue.callbacks (.callback (.ready c.name) :: cues ++ [.callback (.completed c.name)]) =
      [.ready c.name] ++ Cue.callbacks cues ++ [.completed c.name] := by
    rw [Cue.callbacks_append, Cue.callbacks_callback]
    rfl
  rw [hheard]
  refine ⟨?_, fun last hlast => ?_, fun hshort => ?_⟩
  · rw [Callback.events_append, Callback.events_append, h.events hp]
    exact List.append_nil _
  · rw [Callback.lastTime?_append, Callback.lastTime?_append, h.lastTime? hp hlast]
    rfl
  · rw [List.forall_mem_append, List.forall_mem_append, List.forall_mem_singleton,
      List.forall_mem_singleton, h.isShort_iff hp hshort]
    exact ⟨fun hall => hall.1.2,
      fun hall => ⟨⟨Callback.isShort_of_nil rfl, hall⟩, Callback.isShort_of_nil rfl⟩⟩

/-- With nothing asked for, a composition in order is played from its first pattern to its end, if the
times at which its patterns end can be written. -/
theorem Composition.play_spec (hnonempty : c.patterns ≠ [])
    (hp : ∀ p ∈ c.patterns, p.IsPlayable ∧ p.HasTempo) (metronome : Bool) :
    ∃ cues error?, c.play metronome Time.start none = (cues, error?) ∧
      (error? = none ↔ ∀ p ∈ c.patterns, p.IsLogged Time.start) ∧
      (error? = none → c.IsRecorded (Cue.callbacks cues)) := by
  have hfirst : 0 < c.patterns.length := List.length_pos_iff.mpr hnonempty
  have hplayable : ∀ p ∈ c.patterns, p.IsPlayable := fun p hmem => (hp p hmem).1
  obtain ⟨player, hstart, hmetronome, hindex, htime, hstop⟩ :=
    Player.new?_start? (c := c) metronome ⟨0, hfirst⟩ Time.start
  have hdrop : c.patterns.drop player.index = c.patterns := by
    rw [hindex]
    rfl
  obtain ⟨session, cues, ending, hrun, hcues, hperforms⟩ := Session.run_performs
    Host.silent_neverStops ({ player, host := () } : Session c Unit)
    (fun p hmem => hplayable p (List.mem_of_mem_drop hmem)) (by rw [htime]) hstop
  rw [htime, Composition.itinerary_start, hdrop] at hperforms
  obtain ⟨fresh, hnew, hmoved⟩ := Option.bind_eq_some_iff.mp hstart
  have hfrom : fresh.startFrom Time.start (.index 0) = .ok player := by
    replace hmoved : fresh.start? Time.start 0 = some player := hmoved
    simp only [Player.startFrom, hmoved]
  have hplay : c.play metronome Time.start none = (session.cues, ending.error?) := by
    unfold Composition.play
    simp only [hnew, Option.getD_none, hfrom, hrun]
  have hfinished : ending.error? = none ↔ ending = .finished := by
    cases ending <;> simp [Session.Ending.error?]
  refine ⟨session.cues, _, hplay, ?_, fun hnone => ?_⟩
  · rw [hfinished, hperforms.finished_iff, List.forall_mem_map]
    exact forall₂_congr fun p hmem => and_iff_right (hp p hmem).2
  · obtain rfl := hfinished.mp hnone
    obtain ⟨parts, rfl, hparts⟩ := hperforms.parts
    rw [List.forall₂_map_left_iff] at hparts
    rw [hcues]
    exact PlayedInTurn.isRecorded hplayable ⟨parts, rfl, hparts⟩

end Cadence
