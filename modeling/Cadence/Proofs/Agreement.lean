import Cadence.Proofs.Playback.Outcome
import Cadence.Proofs.Score.NoteTrack

/-!
# What is played and what is written

A player counts pulses and a score counts ticks. Both put every note of a pattern at the same place,
sixty ticks to a pulse. They agree on the length of a pattern too, unless its last event is on the
last interval of a bar: the player then goes on for one more bar, the score does not.
-/

namespace Cadence

open Score

variable {p : Pattern} {s : Signature} {t : Time} {e : Event} {metronome : Bool}

/-! ## Pulses among the cues -/

namespace Cue

def isInterval : Cue → Bool
  | .callback (.interval _) => true
  | _ => false

/-- The number of intervals that cues tell, one for each pulse. -/
def intervals (cues : List Cue) : Nat := cues.countP isInterval

/-- The sounds of the instrument, each with the number of the pulse on which it comes, once a number
of pulses have begun. The instrument plays after the interval of a pulse. -/
def sounds (begun : Nat) : List Cue → List (Nat × Int)
  | [] => []
  | .callback (.interval _) :: rest => sounds (begun + 1) rest
  | .play index :: rest => (begun - 1, index) :: sounds begun rest
  | _ :: rest => sounds begun rest

theorem intervals_append (as bs : List Cue) :
    intervals (as ++ bs) = intervals as + intervals bs := List.countP_append

theorem sounds_append (begun : Nat) (as bs : List Cue) :
    sounds begun (as ++ bs) = sounds begun as ++ sounds (begun + intervals as) bs := by
  induction as generalizing begun with
  | nil => rfl
  | cons a as ih =>
    cases a with
    | callback c =>
      cases c with
      | interval t =>
        have hcount : begun + intervals (.callback (.interval t) :: as) =
            begun + 1 + intervals as := by
          simp [intervals, isInterval, List.countP_cons]
          omega
        rw [hcount]
        exact ih (begun + 1)
      | _ => exact ih begun
    | play index => exact congrArg _ (ih begun)
    | click index => exact ih begun

theorem clockCues_spec (metronome : Bool) (begun : Nat) (t : Time) :
    sounds begun (t.clockCues metronome) = [] ∧ intervals (t.clockCues metronome) = 1 := by
  unfold Time.clockCues clickCues
  split_ifs <;> exact ⟨rfl, rfl⟩

theorem eventCues_spec (begun : Nat) (e : Event) :
    sounds (begun + 1) e.cues = e.pitches.map (fun pitch => (begun, pitch - lowestNote)) ∧
      intervals e.cues = 0 := by
  have hplays (pitches : List Int) :
      sounds (begun + 1) (pitches.map fun pitch => .play (pitch - lowestNote)) =
          pitches.map (fun pitch => (begun, pitch - lowestNote)) ∧
        intervals (pitches.map fun pitch => .play (pitch - lowestNote)) = 0 := by
    induction pitches with
    | nil => exact ⟨rfl, rfl⟩
    | cons pitch pitches ih => exact ⟨congrArg _ ih.1, ih.2⟩
  exact hplays e.pitches

/-- On one pulse the event that is due plays, and nothing else does. -/
theorem pulseCues_spec (begun : Nat) (p : Pattern) (t : Time) :
    sounds begun (p.pulseCues metronome t) = (p.due? t).toList.flatMap (fun e =>
        e.pitches.map fun pitch => (begun, pitch - lowestNote)) ∧
      intervals (p.pulseCues metronome t) = 1 := by
  obtain ⟨hsilent, hone⟩ := clockCues_spec metronome begun t
  rw [Pattern.pulseCues, sounds_append, intervals_append, hsilent, hone, List.nil_append]
  cases p.due? t with
  | none => exact ⟨rfl, rfl⟩
  | some e =>
    obtain ⟨hplays, hnone⟩ := eventCues_spec begun e
    simp only [Option.toList_some, List.flatMap_singleton]
    exact ⟨hplays, by rw [hnone]⟩

end Cue

/-! ## Onsets -/

/-- The pitches of an event, each at the tick of its time. -/
def Event.onsets (s : Signature) (e : Event) : List (Int × Int) :=
  e.pitches.map fun pitch => (e.time.ticks s, pitch)

/-- A sound as a note: sixty ticks for each pulse before it, its index counted from the lowest
note. -/
def onsetOf (sound : Nat × Int) : Int × Int := (60 * sound.1, sound.2 + 24)

/-- The note that a message begins at a tick, if it begins one. -/
def onset? : Int × Message → Option (Int × Int)
  | (tick, .note pitch 64) => some (tick, pitch)
  | _ => none

/-- The notes that a track begins, each at the tick that its deltas add up to. -/
def onsets (track : Track) : List (Int × Int) := (placed 0 track).filterMap onset?

namespace Pattern

theorem time_of_due {e : Event} (h : p.due? t = some e) : e.time = t := by
  simpa using List.find?_some h

theorem onsets_pulse {begun : Nat} (ht : t.ticks p.signature = 60 * begun) :
    (Cue.sounds begun (p.pulseCues metronome t)).map onsetOf =
      (p.due? t).toList.flatMap (Event.onsets p.signature) := by
  rw [(Cue.pulseCues_spec begun p t).1]
  cases hdue : p.due? t with
  | none => rfl
  | some e =>
    simp [Event.onsets, onsetOf, lowestNote, time_of_due hdue, ht]

/-- Pulses play the events that are due on them, each at its tick. Sixty ticks for each pulse begun
are the ticks of the clock, and each step of the clock keeps it so. -/
theorem onsets_pulses (hs : 0 < p.signature.numerator) {n begun : Nat}
    (hreach : t.IsReachable p.signature) (ht : t.ticks p.signature = 60 * begun) :
    (Cue.sounds begun (p.pulses metronome t n)).map onsetOf =
      ((t.shown p.signature n).flatMap fun u => (p.due? u).toList).flatMap
        (Event.onsets p.signature) := by
  induction n generalizing t begun with
  | zero =>
    rw [pulses, Time.shown_zero, List.flatMap_singleton, List.flatMap_singleton, onsets_pulse ht]
  | succ n ih =>
    have hnext : (t.advance p.signature).ticks p.signature = 60 * (begun + 1 : Nat) := by
      rw [Time.ticks_advance hreach, ht]
      omega
    rw [pulses_succ, Cue.sounds_append, (Cue.pulseCues_spec begun p t).2, List.map_append,
      onsets_pulse ht, ih (Time.advance_reachable hs hreach) hnext, Time.shown_succ,
      List.flatMap_cons, List.flatMap_append]

end Pattern

theorem onsets_notes (c : Sounding) :
    c.notes.filterMap onset? = c.pitches.map fun pitch => (c.begins, pitch) := by
  have hons : (c.ons.map (c.begins, ·)).filterMap onset? =
      c.pitches.map fun pitch => (c.begins, pitch) := by
    rw [Sounding.ons, List.map_map, List.filterMap_map]
    exact congrFun (List.filterMap_eq_map (f := fun pitch => (c.begins, pitch))) c.pitches
  have hoffs : (c.offs.map (c.ends, ·)).filterMap onset? = [] := by
    rw [Sounding.offs, List.map_map, List.filterMap_map]
    exact List.filterMap_eq_nil_iff.mpr fun _ _ => rfl
  rw [Sounding.notes, List.filterMap_append, hons, hoffs, List.append_nil]

theorem onsets_soundings (s : Signature) (events : List Event) :
    (soundings s events).flatMap (fun c => c.pitches.map fun pitch => (c.begins, pitch)) =
      events.flatMap (Event.onsets s) := by
  induction events with
  | nil => rfl
  | cons event rest ih =>
    rw [soundings_cons, List.flatMap_cons]
    by_cases hsilent : event.pitches = []
    · rw [if_pos hsilent, ih, Event.onsets, hsilent]
      rfl
    · rw [if_neg hsilent, List.flatMap_cons, ih]
      rfl

/-- A score begins the notes of all events, each at its tick. -/
theorem onsets_noteTrack (p : Pattern) :
    onsets (noteTrack p) = p.events.flatMap (Event.onsets p.signature) := by
  rw [onsets, placed_noteTrack, List.filterMap_append, List.filterMap_cons, List.filterMap_flatMap]
  simp only [onset?, onsets_notes, List.filterMap_nil, List.filterMap_cons, List.append_nil]
  exact onsets_soundings p.signature p.events

/-- Whatever is played comes on the pulse that the score has it at, in the same order. A pattern is
reached if all before it end at times that can be written. -/
theorem playing_agrees_with_the_score {c : Composition} {σ α : Type} [Add α] [LT α] [DecidableLT α]
    (host : Host σ α) (hh : host.NeverStops) (state : σ) (metronome : Bool)
    (i : Fin c.patterns.length) (hc : c.PlayableFrom i) :
    ∃ cues ending, c.Plays host state metronome i Time.start cues ending ∧
      (ending = .finished ↔ c.IsLoggedFrom i Time.start) ∧
      ∀ (j : Nat) (p : Pattern), c.patterns[i + j]? = some p →
        (∀ q ∈ (c.patterns.drop i).take j, q.IsLogged Time.start) → p.name.isWhole = true →
        (∀ e ∈ p.events, ∀ pitch ∈ e.pitches, 0 ≤ pitch ∧ pitch ≤ 127) →
        ∃ track, chordTrack p = .ok track ∧
          (Cue.sounds 0 (Cue.during j cues)).map onsetOf = onsets track := by
  obtain ⟨cues, ending, hplays, hfinished, hpulses⟩ :=
    Composition.exists_plays_pulses hh state metronome i hc
  refine ⟨cues, ending, hplays, hfinished, fun j p hj hbefore hname hpitch =>
    ⟨noteTrack p, chordTrack_eq hname hpitch, ?_⟩⟩
  obtain ⟨n, hend, hduring⟩ := hpulses j p hj hbefore
  have hp : p.IsPlayable := (hc.get hj).1
  have hstart := Time.start_reachable hp.beats
  have hzero : Time.start.ticks p.signature = 60 * (0 : Nat) := Time.ticks_start _
  rw [hduring, onsets_noteTrack, ← Pattern.toCome_start hp, ← Pattern.due_shown hp hend]
  exact Pattern.onsets_pulses hp.beats hstart hzero

/-- Silent events and a pitch that comes twice. -/
theorem sample_playing_agrees_with_the_score :
    Composition.PlayableFrom ⟨"Sample", [samplePattern]⟩ 0 ∧
      (∀ e ∈ samplePattern.events, ∀ pitch ∈ e.pitches, 0 ≤ pitch ∧ pitch ≤ 127) ∧
      ∃ cues ending track,
        Composition.Plays ⟨"Sample", [samplePattern]⟩ Host.silent () true 0 Time.start cues
          ending ∧
        chordTrack samplePattern = .ok track ∧
        (Cue.sounds 0 (Cue.during 0 cues)).map onsetOf = onsets track ∧
        onsets track = [(0, 48), (0, 48), (0, 52), (1680, 50)] := by
  have hplayable : Composition.PlayableFrom ⟨"Sample", [samplePattern]⟩ 0 := by decide +kernel
  have hpitch : ∀ e ∈ samplePattern.events, ∀ pitch ∈ e.pitches, 0 ≤ pitch ∧ pitch ≤ 127 := by
    decide
  obtain ⟨cues, ending, hplays, -, hagree⟩ := playing_agrees_with_the_score Host.silent
    Host.silent_neverStops () true
    (⟨0, by decide⟩ : Fin (Composition.mk "Sample" [samplePattern]).patterns.length) hplayable
  obtain ⟨track, htrack, honsets⟩ := hagree 0 samplePattern rfl (fun _ hq => by cases hq) rfl hpitch
  obtain rfl := Except.ok.inj htrack
  exact ⟨hplayable, hpitch, cues, ending, _, hplays, htrack, honsets, rfl⟩

/-- At a tempo that is too slow or too fast for a timer nothing is played, but the score has the
note. -/
theorem still_composition_makes_no_sound :
    [0, (Double.limit : Int)].Forall fun bpm => ∃ p track,
      (Composition.atTempo bpm).patterns = [p] ∧ p.IsPlayable ∧ ∃ cues ending,
        (Composition.atTempo bpm).Plays Host.silent () true 0 Time.start cues ending ∧
        Cue.sounds 0 (Cue.during 0 cues) = [] ∧
        chordTrack p = .ok track ∧ onsets track = [(0, 48)] := by
  refine List.forall_iff_forall_mem.mpr fun bpm hbpm => ?_
  have htempo : ¬((Composition.atTempo bpm).patternAt ⟨0, Nat.one_pos⟩).HasTempo := by
    rcases List.mem_pair.mp hbpm with rfl | rfl
    · exact fun h => absurd h.1 (lt_irrefl _)
    · exact fun h => absurd h.2 (lt_irrefl _)
  obtain ⟨player, hstart, hrun⟩ := run_noTempo (c := Composition.atTempo bpm)
    Host.silent_neverStops () true ⟨0, Nat.one_pos⟩ (Composition.atTempo_isPlayable bpm)
    (by decide : Time.start.IsShort) htempo
  refine ⟨_, _, rfl, Composition.atTempo_isPlayable bpm _ List.mem_cons_self, _, _,
    ⟨player, hstart, fun polls hpolls => hrun polls hpolls⟩, rfl, rfl, rfl⟩

/-! ## Lengths -/

namespace Pattern

/-- The bar with whose last interval a pattern ends: that of its last event, or the one after if the
last event is on the last interval itself. -/
def lastBar (p : Pattern) (e : Event) : Nat :=
  if e.time.IsBarEnd p.signature then e.time.bar + 1 else e.time.bar

theorem isOver_barEnd (hp : p.IsPlayable) (hlast : p.events.getLast? = some e) (b : Nat) :
    p.IsOver (Time.barEnd b p.signature) ↔ p.lastBar e ≤ b := by
  have hmem : e ∈ p.events := List.mem_of_getLast? hlast
  have hafter : (∀ a ∈ p.events, a.time < Time.barEnd b p.signature) ↔
      e.time < Time.barEnd b p.signature :=
    ⟨fun h => h e hmem, fun h a ha => lt_of_le_of_lt (hp.rising.le_last hlast ha) h⟩
  rw [IsOver, hafter, Time.lt_barEnd_iff (hp.reachable e hmem), lastBar]
  have hend := Time.isBarEnd_barEnd hp.beats b
  split_ifs with hboundary
  · simp only [hend, hboundary, not_true_eq_false, and_false, or_false, true_and]
    omega
  · simp only [hend, hboundary, not_false_eq_true, and_true, true_and]
    omega

/-- From the start a pattern is played to the end of the first bar with which it is over. -/
theorem EndsAfter.eq_of_isOver {n bar : Nat} (hp : p.IsPlayable) (hbar : 1 ≤ bar)
    (hover : ∀ b, 1 ≤ b → (p.IsOver (Time.barEnd b p.signature) ↔ bar ≤ b))
    (h : p.EndsAfter Time.start n) :
    Time.start.advanceBy p.signature n = Time.barEnd bar p.signature := by
  obtain ⟨m, hm⟩ := Time.exists_advanceBy (Time.barEnd_reachable hp.beats hbar)
  have hoverThere : p.IsOver (Time.start.advanceBy p.signature m) := by
    rw [hm]
    exact (hover bar hbar).mpr (le_refl _)
  rcases Nat.lt_trichotomy n m with hlt | rfl | hgt
  -- an earlier end would be the end of an earlier bar
  · have hreach := Time.advanceBy_reachable hp.beats (Time.start_reachable hp.beats) n
    have hb := h.1.1.eq_barEnd
    have hle : bar ≤ (Time.start.advanceBy p.signature n).bar := (hover _ hreach.1).mp (hb ▸ h.1)
    have hearlier := Time.advanceBy_lt hlt Time.start p.signature
    rw [hb, hm] at hearlier
    rcases Nat.lt_or_eq_of_le hle with hless | hsame
    · exact absurd (Time.barEnd_lt hless p.signature) (not_lt_of_gt hearlier)
    · rw [← hsame] at hearlier
      exact absurd hearlier (lt_irrefl _)
  · exact hm
  · exact absurd hoverThere (h.2 m hgt)

theorem lastBar_pos (hp : p.IsPlayable) (hlast : p.events.getLast? = some e) : 1 ≤ p.lastBar e := by
  have := (hp.reachable e (List.mem_of_getLast? hlast)).1
  rw [lastBar]
  split_ifs <;> omega

/-- From the start a pattern is played to the end of its last bar. -/
theorem EndsAfter.eq_barEnd {n : Nat} (hp : p.IsPlayable) (hlast : p.events.getLast? = some e)
    (h : p.EndsAfter Time.start n) :
    Time.start.advanceBy p.signature n = Time.barEnd (p.lastBar e) p.signature :=
  h.eq_of_isOver hp (lastBar_pos hp hlast) fun b _ => isOver_barEnd hp hlast b

/-- The bar with whose last interval a pattern ends that is played from the start: the first one, if
it has no event. -/
def endBar (p : Pattern) : Nat :=
  match p.events.getLast? with
  | some e => p.lastBar e
  | none => 1

theorem EndsAfter.eq_endBar {n : Nat} (hp : p.IsPlayable) (h : p.EndsAfter Time.start n) :
    Time.start.advanceBy p.signature n = Time.barEnd p.endBar p.signature := by
  cases hlast : p.events.getLast? with
  | some e =>
    rw [endBar, hlast]
    exact h.eq_barEnd hp hlast
  | none =>
    have hnil : p.events = [] := List.getLast?_eq_none_iff.mp hlast
    rw [endBar, hlast]
    refine h.eq_of_isOver hp (le_refl 1) fun b hb => ⟨fun _ => hb, fun _ => ?_⟩
    exact ⟨Time.isBarEnd_barEnd hp.beats b, by simp [hnil]⟩

theorem intervals_pulses (p : Pattern) (metronome : Bool) (t : Time) (n : Nat) :
    Cue.intervals (p.pulses metronome t n) = n + 1 := by
  induction n generalizing t with
  | zero =>
    rw [pulses, Time.shown_zero, List.flatMap_singleton]
    exact (Cue.pulseCues_spec 0 p t).2
  | succ n ih =>
    rw [pulses_succ, Cue.intervals_append, ih, (Cue.pulseCues_spec 0 p t).2, Nat.add_comm]

theorem last_time_pulse (p : Pattern) (metronome : Bool) (t : Time) :
    (Cue.times (p.pulseCues metronome t)).getLast? = some t := by
  have hevent : Cue.times ((p.due? t).toList.flatMap Event.cues) = [] := by
    refine List.filterMap_eq_nil_iff.mpr fun cue hcue => ?_
    obtain ⟨e, -, hmem⟩ := List.mem_flatMap.mp hcue
    exact (Cue.of_mem_eventCues hmem).1
  rw [pulseCues, Cue.times_append, hevent, List.append_nil]
  unfold Time.clockCues clickCues
  split_ifs <;> rfl

theorem last_time_pulses (p : Pattern) (metronome : Bool) (t : Time) (n : Nat) :
    (Cue.times (p.pulses metronome t n)).getLast? = some (t.advanceBy p.signature n) := by
  induction n generalizing t with
  | zero =>
    rw [pulses, Time.shown_zero, List.flatMap_singleton]
    exact last_time_pulse p metronome t
  | succ n ih =>
    rw [pulses_succ, Cue.times_append, List.getLast?_append, ih, Option.some_or, Time.advanceBy]

/-- The ticks of all pulses add up to whole bars. -/
theorem EndsAfter.ticks {n : Nat} (hp : p.IsPlayable) (hlast : p.events.getLast? = some e)
    (h : p.EndsAfter Time.start n) :
    (60 * (n + 1 : Nat) : Int) = p.lastBar e * p.signature.ticksPerBar := by
  have hticks := Time.ticks_advanceBy hp.beats (Time.start_reachable hp.beats) n
  rw [h.eq_barEnd hp hlast, Time.ticks_start] at hticks
  rw [← Time.ticks_barEnd hp.beats, hticks]
  omega

end Pattern

/-- The ticks of a whole track. -/
def Score.total (track : Track) : Int := (track.map (·.delta)).sum

theorem reached_eq_total (now : Int) (track : Track) : reached now track = now + total track := by
  induction track generalizing now with
  | nil => simp [reached, total]
  | cons timed rest ih =>
    rw [reached, ih, total, total, List.map_cons, List.sum_cons, Int.add_assoc]

theorem total_noteTrack (p : Pattern) : total (noteTrack p) = lastTick (chordsOf p) := by
  have hsound : ∀ c ∈ chordsOf p, c.pitches ≠ [] := fun c hc => pitches_of_mem_soundings hc
  have hchords := (placed_chordsTrack 0 hsound).2
  rw [chordsOf] at hchords
  rw [← Int.zero_add (total _), ← reached_eq_total, noteTrack, noteMessages_eq, List.cons_append,
    reached, reached_append, Int.add_zero, hchords, reached, Int.add_zero]
  rfl

/-- The last chord is that of a last event with pitches, and it sounds until its bar is over. -/
theorem lastTick_soundings (before : List Event) (h : e.pitches ≠ []) :
    lastTick (soundings s (before ++ [e])) = e.time.nextBar.ticks s := by
  have hlast : (soundings s (before ++ [e])).getLast?.map (·.ends) =
      some (e.time.nextBar.ticks s) := by
    induction before with
    | nil =>
      rw [List.nil_append, soundings_cons, if_neg h]
      rfl
    | cons event rest ih =>
      rw [List.cons_append, soundings_cons]
      split_ifs
      · exact ih
      · obtain ⟨c, hc, hends⟩ := Option.map_eq_some_iff.mp ih
        rw [List.getLast?_cons, hc]
        exact congrArg some hends
  rw [lastTick, hlast, Option.getD_some]

theorem total_of_last (hlast : p.events.getLast? = some e) (h : e.pitches ≠ []) :
    total (noteTrack p) = e.time.bar * p.signature.ticksPerBar := by
  obtain ⟨before, hevents⟩ := List.getLast?_eq_some_iff.mp hlast
  rw [total_noteTrack, chordsOf, hevents, lastTick_soundings before h, Time.ticks_nextBar]

/-- A pattern is played for as long as the score writes it, to the last interval of a bar, if its
last event comes before the last interval of its own bar. On that interval it comes too late for the
player, which plays one more bar. -/
theorem playing_ends_with_the_score {c : Composition} {σ α : Type} [Add α] [LT α] [DecidableLT α]
    (host : Host σ α) (hh : host.NeverStops) (state : σ) (metronome : Bool)
    (i : Fin c.patterns.length) (hc : c.PlayableFrom i) :
    ∃ cues ending, c.Plays host state metronome i Time.start cues ending ∧
      (ending = .finished ↔ c.IsLoggedFrom i Time.start) ∧
      ∀ (j : Nat) (p : Pattern) (e : Event) (track : Track), c.patterns[i + j]? = some p →
        (∀ q ∈ (c.patterns.drop i).take j, q.IsLogged Time.start) →
        p.events.getLast? = some e → e.pitches ≠ [] → chordTrack p = .ok track →
        (60 * Cue.intervals (Cue.during j cues) : Int) = total track +
            (if e.time.IsBarEnd p.signature then p.signature.ticksPerBar else 0) ∧
          (Cue.times (Cue.during j cues)).getLast? =
            some (Time.barEnd (p.lastBar e) p.signature) := by
  obtain ⟨cues, ending, hplays, hfinished, hpulses⟩ :=
    Composition.exists_plays_pulses hh state metronome i hc
  refine ⟨cues, ending, hplays, hfinished, fun j p e track hj hbefore hlast hsounds htrack => ?_⟩
  obtain ⟨n, hend, hduring⟩ := hpulses j p hj hbefore
  have hp : p.IsPlayable := (hc.get hj).1
  obtain ⟨rfl, -⟩ := pitches_of_chordTrack htrack
  rw [hduring, Pattern.intervals_pulses, hend.ticks hp hlast, total_of_last hlast hsounds,
    Pattern.last_time_pulses, hend.eq_barEnd hp hlast, Pattern.lastBar]
  refine ⟨?_, rfl⟩
  split_ifs
  · push_cast
    ring
  · ring

/-- Its event comes before the last interval of a bar. -/
def promptPattern : Pattern := ⟨"Prompt", 120, ⟨4, 4⟩, [⟨⟨1, 4, 7⟩, [48]⟩]⟩

/-- Its event comes on the last interval of a bar. -/
def latePattern : Pattern := ⟨"Late", 120, ⟨4, 4⟩, [⟨⟨1, 4, 8⟩, [48]⟩]⟩

/-- Both scores are a bar long, but the second pattern is played for two. -/
theorem late_pattern_is_played_for_another_bar :
    Composition.PlayableFrom ⟨"Two", [promptPattern, latePattern]⟩ 0 ∧
      ∃ cues prompt late,
        Composition.Plays ⟨"Two", [promptPattern, latePattern]⟩ Host.silent () true 0 Time.start
          cues .finished ∧
        chordTrack promptPattern = .ok prompt ∧ total prompt = 1920 ∧
        Cue.intervals (Cue.during 0 cues) = 32 ∧
        (Cue.times (Cue.during 0 cues)).getLast? = some ⟨1, 4, 8⟩ ∧
        chordTrack latePattern = .ok late ∧ total late = 1920 ∧
        Cue.intervals (Cue.during 1 cues) = 64 ∧
        (Cue.times (Cue.during 1 cues)).getLast? = some ⟨2, 4, 8⟩ := by
  have hplayable : Composition.PlayableFrom ⟨"Two", [promptPattern, latePattern]⟩ 0 := by decide +kernel
  have hlogged : promptPattern.IsLogged Time.start ∧ latePattern.IsLogged Time.start :=
    ⟨(Pattern.isLogged_iff (n := 31) (by decide +kernel)).mpr (by decide +kernel),
      (Pattern.isLogged_iff (n := 63) (by decide +kernel)).mpr (by decide +kernel)⟩
  obtain ⟨cues, ending, hplays, hfinished, hlength⟩ := playing_ends_with_the_score Host.silent
    Host.silent_neverStops () true
    (⟨0, by decide⟩ : Fin (Composition.mk "Two" [promptPattern, latePattern]).patterns.length)
    hplayable
  obtain rfl := hfinished.mpr fun visit hvisit => by
    rcases List.mem_pair.mp hvisit with rfl | rfl
    · exact hlogged.1
    · exact hlogged.2
  obtain ⟨hprompt, hfirst⟩ := hlength 0 promptPattern _ _ rfl (fun _ hq => by cases hq) rfl
    (by decide) rfl
  obtain ⟨hlate, hsecond⟩ := hlength 1 latePattern _ _ rfl
    (fun q hq => by rw [List.mem_singleton.mp hq]; exact hlogged.1) rfl (by decide) rfl
  have htotal : total (noteTrack promptPattern) = 1920 := rfl
  have htotal' : total (noteTrack latePattern) = 1920 := rfl
  refine ⟨hplayable, cues, _, _, hplays, rfl, htotal, ?_, hfirst, rfl, htotal', ?_, hsecond⟩
  · rw [htotal, if_neg (by decide)] at hprompt
    omega
  · rw [htotal', if_pos (by decide)] at hlate
    simp only [latePattern, Signature.ticksPerBar, ticksPerBeat] at hlate
    omega

end Cadence
