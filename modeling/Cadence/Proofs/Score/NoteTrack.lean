import Mathlib.Data.List.Basic
import Cadence.Proofs.Score.Spec

/-!
# The track of the chords

Silent events have no messages, but they cut the chord before them. Once they are out of the way the
track is one chord after another, and everything else is read off the chords.
-/

namespace Cadence.Score

variable {s : Signature} {events : List Event}

/-! ## One chord after another -/

theorem cutOff_cons_zero (event : Event) (rest : List Event) :
    cutOff (event :: rest) 0 event = soundsUntil event rest := by
  cases rest <;> rfl

theorem soundings_cons (s : Signature) (event : Event) (rest : List Event) :
    soundings s (event :: rest) =
      if event.pitches = [] then soundings s rest
      else ⟨event.pitches, event.time.ticks s, (soundsUntil event rest).ticks s⟩ ::
        soundings s rest := by
  rw [soundings, List.mapIdx_cons, cutOff_cons_zero]
  by_cases hsilent : event.pitches = []
  · rw [List.filter_cons_of_neg (by simp [hsilent]), if_pos hsilent]
    rfl
  · rw [List.filter_cons_of_pos (by simp [hsilent]), if_neg hsilent]
    rfl

/-- The messages of chords after a number of ticks. -/
def chordsTrack (now : Int) : List Sounding → Track
  | [] => []
  | c :: cs => chordMessages (c.begins - now) onVelocity c.pitches ++
      chordMessages (c.ends - c.begins) offVelocity c.pitches ++ chordsTrack c.ends cs

/-- Silent events leave no trace but the end of a chord. -/
theorem noteMessages_eq (now : Int) (events : List Event) :
    noteMessages s now events = chordsTrack now (soundings s events) := by
  induction events generalizing now with
  | nil => rfl
  | cons event rest ih =>
    rw [noteMessages, soundings_cons]
    by_cases hsilent : event.pitches = []
    · rw [if_pos (by simp [hsilent]), if_pos hsilent, ih]
    · rw [if_neg (by simp [hsilent]), if_neg hsilent]
      simp only [ih, chordsTrack]

theorem pitches_of_mem_soundings {c : Sounding} (h : c ∈ soundings s events) : c.pitches ≠ [] := by
  simpa using (List.mem_filter.mp h).2

/-! ## Ticks add up -/

/-- The tick that a track comes to. -/
def reached (now : Int) : Track → Int
  | [] => now
  | timed :: rest => reached (now + timed.delta) rest

theorem placed_append (now : Int) (a b : Track) :
    placed now (a ++ b) = placed now a ++ placed (reached now a) b := by
  induction a generalizing now with
  | nil => rfl
  | cons timed a ih => rw [List.cons_append, placed, ih, placed, reached, List.cons_append]

theorem reached_append (now : Int) (a b : Track) :
    reached now (a ++ b) = reached (reached now a) b := by
  induction a generalizing now with
  | nil => rfl
  | cons timed a ih => rw [List.cons_append, reached, ih, reached]

theorem placed_still (now : Int) (ms : List Message) :
    placed now (ms.map (⟨0, ·⟩)) = ms.map (now, ·) ∧ reached now (ms.map (⟨0, ·⟩)) = now := by
  induction ms with
  | nil => exact ⟨rfl, rfl⟩
  | cons m ms ih =>
    rw [List.map_cons, List.map_cons, placed, reached, Int.add_zero, ih.1]
    exact ⟨rfl, ih.2⟩

theorem placed_chordMessages (now tick : Int) (velocity : Nat) {pitches : List Int}
    (h : pitches ≠ []) :
    placed now (chordMessages (tick - now) velocity pitches) =
        (pitches.map (.note · velocity)).map (tick, ·) ∧
      reached now (chordMessages (tick - now) velocity pitches) = tick := by
  cases pitches with
  | nil => exact absurd rfl h
  | cons p ps =>
    have hnow : now + (tick - now) = tick := by omega
    obtain ⟨hplaced, hreached⟩ := placed_still tick (ps.map (.note · velocity))
    rw [List.map_map] at hplaced hreached
    rw [chordMessages, placed, reached, hnow]
    exact ⟨congrArg _ hplaced, hreached⟩

theorem placed_chordsTrack (now : Int) {cs : List Sounding} (h : ∀ c ∈ cs, c.pitches ≠ []) :
    placed now (chordsTrack now cs) = cs.flatMap Sounding.notes ∧
      reached now (chordsTrack now cs) = (cs.getLast?.map (·.ends)).getD now := by
  induction cs generalizing now with
  | nil => exact ⟨rfl, rfl⟩
  | cons c cs ih =>
    have hc := h c List.mem_cons_self
    obtain ⟨hon, hons⟩ := placed_chordMessages now c.begins onVelocity hc
    obtain ⟨hoff, hoffs⟩ := placed_chordMessages c.begins c.ends offVelocity hc
    obtain ⟨hrest, hend⟩ := ih c.ends fun d hd => h d (List.mem_cons_of_mem _ hd)
    rw [chordsTrack, placed_append, placed_append]
    simp only [reached_append, hons, hoffs, hon, hoff, hrest, hend, List.flatMap_cons]
    refine ⟨rfl, ?_⟩
    cases cs with
    | nil => rfl
    | cons d ds => rw [List.getLast?_cons_cons]; rfl

/-- Read by adding up its ticks, a track is its chords between its name and its end. -/
theorem placed_noteTrack (p : Pattern) :
    placed 0 (noteTrack p) = (0, .trackName p.name.text) :: (chordsOf p).flatMap Sounding.notes ++
      [(lastTick (chordsOf p), .endOfTrack)] := by
  have hsound : ∀ c ∈ chordsOf p, c.pitches ≠ [] := fun c hc => pitches_of_mem_soundings hc
  obtain ⟨hplaced, hreached⟩ := placed_chordsTrack 0 hsound
  rw [chordsOf] at hplaced hreached
  rw [noteTrack, noteMessages_eq, List.cons_append, placed, placed_append, Int.add_zero, hplaced,
    hreached, placed, Int.add_zero]
  rfl

/-! ## Ticks of the chords -/

theorem soundsUntil_reachable {event : Event} {rest : List Event} (hs : 0 < s.numerator)
    (hreach : ∀ e ∈ event :: rest, e.time.IsReachable s) :
    (soundsUntil event rest).IsReachable s := by
  cases rest with
  | nil => exact Time.barStart_reachable hs (by omega)
  | cons next rest => exact hreach next (List.mem_cons_of_mem _ List.mem_cons_self)

theorem lt_soundsUntil {event : Event} {rest : List Event} (h : Rising (event :: rest)) :
    event.time < soundsUntil event rest := by
  cases rest with
  | nil => exact Time.lt_nextBar event.time
  | cons next rest => exact (List.pairwise_cons.mp h).1 next List.mem_cons_self

theorem soundsUntil_le {event later : Event} {rest : List Event} (h : Rising (event :: rest))
    (hlater : later ∈ rest) : soundsUntil event rest ≤ later.time := by
  cases rest with
  | nil => cases hlater
  | cons next rest =>
    rcases List.mem_cons.mp hlater with rfl | hlater
    · exact le_refl _
    · exact le_of_lt ((List.pairwise_cons.mp (List.pairwise_cons.mp h).2).1 later hlater)

theorem exists_event_of_mem_soundings {c : Sounding} (h : c ∈ soundings s events) :
    ∃ event ∈ events, c.begins = event.time.ticks s := by
  obtain ⟨index, hindex, rfl⟩ := List.mem_mapIdx.mp (List.mem_filter.mp h).1
  exact ⟨events[index], List.getElem_mem hindex, rfl⟩

/-- A chord lasts an interval at least, and it ends before the next one begins. -/
theorem soundings_ordered (hs : 0 < s.numerator) (hrising : Rising events)
    (hreach : ∀ e ∈ events, e.time.IsReachable s) :
    (∀ c ∈ soundings s events, 0 ≤ c.begins ∧ c.begins + 60 ≤ c.ends) ∧
      (soundings s events).Pairwise fun a b => a.ends ≤ b.begins := by
  induction events with
  | nil => exact ⟨by simp [soundings], .nil⟩
  | cons event rest ih =>
    obtain ⟨hlast, hrest⟩ := ih (List.pairwise_cons.mp hrising).2
      fun e he => hreach e (List.mem_cons_of_mem _ he)
    rw [soundings_cons]
    split_ifs
    · exact ⟨hlast, hrest⟩
    · have hhere := hreach event List.mem_cons_self
      have hend := soundsUntil_reachable hs hreach
      refine ⟨List.forall_mem_cons.mpr ⟨⟨Time.ticks_nonneg hhere, ?_⟩, hlast⟩,
        List.pairwise_cons.mpr ⟨fun c hc => ?_, hrest⟩⟩
      · exact Time.ticks_add_le hhere hend (lt_soundsUntil hrising)
      · obtain ⟨later, hlater, hbegins⟩ := exists_event_of_mem_soundings hc
        rw [hbegins]
        exact Time.ticks_le hend (hreach later (List.mem_cons_of_mem _ hlater))
          (soundsUntil_le hrising hlater)

theorem soundsAt_unique {cs : List Sounding} (hlast : ∀ c ∈ cs, c.begins ≤ c.ends)
    (h : cs.Pairwise fun a b => a.ends ≤ b.begins) (tick : Int) :
    (cs.filter (·.SoundsAt tick)).length ≤ 1 := by
  induction cs with
  | nil => simp
  | cons c cs ih =>
    obtain ⟨hc, hcs⟩ := List.pairwise_cons.mp h
    by_cases hsounds : c.SoundsAt tick
    · have hnone : cs.filter (·.SoundsAt tick) = [] := by
        refine List.filter_eq_nil_iff.mpr fun d hd hcon => ?_
        have hafter := hc d hd
        obtain ⟨hbegun, -⟩ : d.SoundsAt tick := by simpa using hcon
        obtain ⟨-, hnot⟩ := hsounds
        omega
      rw [List.filter_cons_of_pos (by simpa using hsounds), hnone]
      rfl
    · rw [List.filter_cons_of_neg (by simpa using hsounds)]
      exact ih (fun d hd => hlast d (List.mem_cons_of_mem _ hd)) hcs

theorem chordMessages_delta_nonneg {delta : Int} (h : 0 ≤ delta) (velocity : Nat)
    (pitches : List Int) : ∀ timed ∈ chordMessages delta velocity pitches, 0 ≤ timed.delta := by
  cases pitches with
  | nil => simp [chordMessages]
  | cons p ps => simp [chordMessages, h]

theorem chordsTrack_delta_nonneg {now : Int} {cs : List Sounding} (hnow : ∀ c ∈ cs, now ≤ c.begins)
    (hlast : ∀ c ∈ cs, c.begins ≤ c.ends) (h : cs.Pairwise fun a b => a.ends ≤ b.begins) :
    ∀ timed ∈ chordsTrack now cs, 0 ≤ timed.delta := by
  induction cs generalizing now with
  | nil => simp [chordsTrack]
  | cons c cs ih =>
    obtain ⟨hc, hcs⟩ := List.pairwise_cons.mp h
    have hbegins := hnow c List.mem_cons_self
    have hends := hlast c List.mem_cons_self
    intro timed htimed
    rw [chordsTrack, List.mem_append, List.mem_append] at htimed
    rcases htimed with (hon | hoff) | hrest
    · exact chordMessages_delta_nonneg (by omega) _ _ timed hon
    · exact chordMessages_delta_nonneg (by omega) _ _ timed hoff
    · exact ih hc (fun d hd => hlast d (List.mem_cons_of_mem _ hd)) hcs timed hrest

/-! ## Notes are ended -/

theorem balance_append (pitch : Int) (as bs : List Message) :
    balance pitch (as ++ bs) = balance pitch as + balance pitch bs := by
  simp only [balance, List.count_append]
  omega

theorem count_notes (pitch : Int) (velocity other : Nat) (pitches : List Int) :
    (pitches.map (Message.note · velocity)).count (.note pitch other) =
      if velocity = other then pitches.count pitch else 0 := by
  induction pitches with
  | nil => simp
  | cons p ps ih =>
    rw [List.map_cons, List.count_cons, ih, List.count_cons]
    by_cases hv : velocity = other <;> by_cases hp : p = pitch <;> simp [hv, hp]

theorem prefix_of_append {as bs part : List Message} (h : part <+: as ++ bs) :
    part <+: as ∨ ∃ rest, rest <+: bs ∧ part = as ++ rest := by
  rcases List.prefix_or_prefix_of_prefix h (List.prefix_append as bs) with hfirst | ⟨rest, rfl⟩
  · exact Or.inl hfirst
  · exact Or.inr ⟨rest, (List.prefix_append_right_inj as).mp h, rfl⟩

theorem settles_nil : Settles [] where
  nonneg pitch part h := by
    rw [List.prefix_nil.mp h]
    rfl
  zero _ := rfl

theorem Settles.append {as bs : List Message} (ha : Settles as) (hb : Settles bs) :
    Settles (as ++ bs) where
  nonneg pitch part h := by
    rcases prefix_of_append h with h | ⟨rest, hrest, rfl⟩
    · exact ha.nonneg pitch part h
    · rw [balance_append, ha.zero, Int.zero_add]
      exact hb.nonneg pitch rest hrest
  zero pitch := by rw [balance_append, ha.zero, hb.zero, Int.zero_add]

/-- A chord ends what it begins, also a pitch that it has more than once. -/
theorem Sounding.settles (c : Sounding) : Settles (c.ons ++ c.offs) where
  nonneg pitch part h := by
    rcases prefix_of_append h with h | ⟨rest, hrest, rfl⟩
    -- nothing has ended yet
    · have hoff := h.sublist.count_le (.note pitch 0)
      rw [Sounding.ons, count_notes, if_neg (by decide)] at hoff
      rw [balance]
      omega
    · have hoff := hrest.sublist.count_le (.note pitch 0)
      rw [Sounding.offs, count_notes, if_pos rfl] at hoff
      rw [balance_append, balance, balance, Sounding.ons, count_notes, count_notes, if_pos rfl,
        if_neg (by decide)]
      omega
  zero pitch := by
    rw [balance_append, balance, balance, Sounding.ons, Sounding.offs, count_notes, count_notes,
      count_notes, count_notes]
    simp

theorem settles_singleton {m : Message} (h : ∀ pitch velocity, m ≠ .note pitch velocity) :
    Settles [m] := by
  have hzero : ∀ pitch, balance pitch [m] = 0 := by
    intro pitch
    rw [balance, List.count_singleton, List.count_singleton]
    simp [h]
  refine ⟨fun pitch part hpart => ?_, hzero⟩
  rcases List.prefix_cons_iff.mp hpart with rfl | ⟨rest, rfl, hrest⟩
  · exact le_refl _
  · rw [List.prefix_nil.mp hrest, hzero]

theorem settles_chords (cs : List Sounding) : Settles (cs.flatMap fun c => c.ons ++ c.offs) := by
  induction cs with
  | nil => exact settles_nil
  | cons c cs ih =>
    rw [List.flatMap_cons]
    exact c.settles.append ih

theorem map_placed (now : Int) (track : Track) :
    (placed now track).map (·.2) = track.map (·.message) := by
  induction track generalizing now with
  | nil => rfl
  | cons timed rest ih => rw [placed, List.map_cons, ih, List.map_cons]

theorem messages_noteTrack (p : Pattern) :
    (noteTrack p).map (·.message) = .trackName p.name.text ::
      ((chordsOf p).flatMap fun c => c.ons ++ c.offs) ++ [.endOfTrack] := by
  rw [← map_placed 0, placed_noteTrack]
  simp [Sounding.notes, List.map_flatMap, Function.comp_def]

/-! ## The track -/

theorem chordTrack_of_whole {p : Pattern} (h : p.name.isWhole = true) : chordTrack p =
    if (badPitch? p.events).isSome then .error .noteRange else .ok (noteTrack p) := by
  rw [chordTrack, ← Name.whole_text h]

theorem isWhole_of_chordTrack {p : Pattern} {track : Track} (h : chordTrack p = .ok track) :
    p.name.isWhole = true := by
  rw [chordTrack] at h
  split at h
  · cases h
  · next hname => rw [hname, Name.isWhole_whole]

theorem chordTrack_eq {p : Pattern} (hname : p.name.isWhole = true)
    (h : ∀ e ∈ p.events, ∀ pitch ∈ e.pitches, 0 ≤ pitch ∧ pitch ≤ 127) :
    chordTrack p = .ok (noteTrack p) := by
  have hnone : badPitch? p.events = none := by
    refine List.find?_eq_none.mpr fun pitch hpitch => ?_
    obtain ⟨e, he, hmem⟩ := List.mem_flatMap.mp hpitch
    have hrange := h e he pitch hmem
    rw [Bool.or_eq_true, decide_eq_true_eq, decide_eq_true_eq]
    omega
  rw [chordTrack_of_whole hname, hnone]
  rfl

theorem pitches_of_chordTrack {p : Pattern} {track : Track} (h : chordTrack p = .ok track) :
    track = noteTrack p ∧ ∀ e ∈ p.events, ∀ pitch ∈ e.pitches, 0 ≤ pitch ∧ pitch ≤ 127 := by
  rw [chordTrack_of_whole (isWhole_of_chordTrack h)] at h
  split at h
  · cases h
  · next hnone =>
    refine ⟨(Except.ok.inj h).symm, ?_⟩
    intro e he pitch hpitch
    have hall : badPitch? p.events = none := by simpa using hnone
    have hgood := List.find?_eq_none.mp hall pitch (List.mem_flatMap.mpr ⟨e, he, hpitch⟩)
    simp only [Bool.or_eq_true, decide_eq_true_eq] at hgood
    omega

/-- The track of a pattern in order is its chords, each ended before the next begins. -/
theorem track_plays_chords_in_turn (p : Pattern) (hname : p.name.isWhole = true) (hp : p.IsPlayable)
    (hpitch : ∀ e ∈ p.events, ∀ pitch ∈ e.pitches, 0 ≤ pitch ∧ pitch ≤ 127) :
    ∃ track, chordTrack p = .ok track ∧
      placed 0 track = (0, .trackName p.name.text) :: (chordsOf p).flatMap Sounding.notes ++
        [(lastTick (chordsOf p), .endOfTrack)] ∧
      (∀ timed ∈ track, 0 ≤ timed.delta) ∧
      (∀ c ∈ chordsOf p, c.begins + 60 ≤ c.ends) ∧
      (∀ tick, ((chordsOf p).filter (·.SoundsAt tick)).length ≤ 1) ∧
      (∀ before c d after, chordsOf p = before ++ c :: d :: after → ∃ head tail,
        track.map (·.message) = head ++ c.ons ++ c.offs ++ d.ons ++ d.offs ++ tail ∧
          Settles head ∧ Settles (head ++ c.ons ++ c.offs)) ∧
      Settles (track.map (·.message)) := by
  obtain ⟨hlasts, hturn⟩ := soundings_ordered hp.beats hp.rising hp.reachable
  have hlast : ∀ c ∈ chordsOf p, c.begins ≤ c.ends := by
    intro c hc
    have := (hlasts c hc).2
    omega
  have hnamed : Settles [.trackName p.name.text] := settles_singleton (by simp)
  have hend : Settles [.endOfTrack] := settles_singleton (by simp)
  refine ⟨noteTrack p, chordTrack_eq hname hpitch, placed_noteTrack p, ?_, fun c hc => (hlasts c hc).2,
    soundsAt_unique hlast hturn, ?_, ?_⟩
  · intro timed htimed
    rw [noteTrack, noteMessages_eq, List.mem_append, List.mem_cons, List.mem_singleton] at htimed
    rcases htimed with (rfl | hchords) | rfl
    · exact le_refl _
    · exact chordsTrack_delta_nonneg (fun c hc => (hlasts c hc).1) hlast hturn timed hchords
    · exact le_refl _
  · intro before c d after hsplit
    have hhead := hnamed.append (settles_chords before)
    refine ⟨[.trackName p.name.text] ++ before.flatMap fun c => c.ons ++ c.offs,
      (after.flatMap fun c => c.ons ++ c.offs) ++ [.endOfTrack], ?_, hhead, ?_⟩
    · rw [messages_noteTrack, hsplit]
      simp
    · rw [List.append_assoc]
      exact hhead.append c.settles
  · rw [messages_noteTrack]
    exact (hnamed.append (settles_chords _)).append hend

/-- A silent event cuts a chord that has a pitch twice. -/
def samplePattern : Pattern :=
  ⟨"A", 120, ⟨3, 4⟩, [⟨⟨1, 1, 1⟩, [48, 48, 52]⟩, ⟨⟨1, 2, 1⟩, []⟩, ⟨⟨2, 1, 5⟩, [50]⟩]⟩

theorem sample_track_plays_chords_in_turn :
    samplePattern.name.isWhole = true ∧ samplePattern.IsPlayable ∧
    ∃ track, chordTrack samplePattern = .ok track ∧
      placed 0 track =
        [(0, .trackName "A"), (0, .note 48 64), (0, .note 48 64), (0, .note 52 64),
          (480, .note 48 0), (480, .note 48 0), (480, .note 52 0), (1680, .note 50 64),
          (2880, .note 50 0), (2880, .endOfTrack)] ∧
      Settles (track.map (·.message)) := by
  have hp : samplePattern.IsPlayable := ⟨by decide, by decide, by decide⟩
  obtain ⟨track, htrack, hplaced, -, -, -, -, hsettles⟩ :=
    track_plays_chords_in_turn samplePattern rfl hp (by decide)
  exact ⟨rfl, hp, track, htrack, hplaced, hsettles⟩

/-- A pattern in order, with a pitch above all notes. -/
def shrillPattern : Pattern := ⟨"A", 120, ⟨4, 4⟩, [⟨⟨1, 1, 1⟩, [128]⟩]⟩

/-- A pattern in order, with half of a character as its name. -/
def brokenPattern : Pattern := ⟨.broken ⟨"", 0, []⟩, 120, ⟨4, 4⟩, [⟨⟨1, 1, 1⟩, [48]⟩]⟩

theorem shrill_pattern_has_no_track :
    shrillPattern.IsPlayable ∧ chordTrack shrillPattern = .error .noteRange ∧
      brokenPattern.IsPlayable ∧ chordTrack brokenPattern = .error (.brokenName ⟨"", 0, []⟩) :=
  ⟨⟨by decide, by decide, by decide⟩, rfl, ⟨by decide, by decide, by decide⟩, rfl⟩

end Cadence.Score
