import Cadence.Proofs.Compile.Mirror
import Cadence.Proofs.Playback.Run

/-!
# Playing to the end

A composition in order is played to its end, from any pattern and from any time. A run that ends is
the same however many more polls it may use, so the bound on polls is not part of what happens.
-/

namespace Cadence

variable {c : Composition} {σ α : Type} [Add α] [LT α] [DecidableLT α] {host : Host σ α}

/-! ## More polls -/

namespace Session

theorem pollWhilePlaying_mono {polls more : Nat} (hle : polls ≤ more) (timer : Timer α)
    (s : Session c σ) {s' : Session c σ} {stop : Time}
    (h : pollWhilePlaying host polls timer s = (s', some stop)) :
    pollWhilePlaying host more timer s = (s', some stop) := by
  induction polls generalizing more timer s with
  | zero =>
    rw [pollWhilePlaying] at h
    by_cases hplays : s.player.isPlaying = true
    · rw [if_pos hplays] at h
      cases h
    · rw [if_neg hplays] at h
      cases more with
      | zero => rw [pollWhilePlaying, if_neg hplays, h]
      | succ more => rw [pollWhilePlaying, if_neg hplays, h]
  | succ polls ih =>
    obtain ⟨more, rfl⟩ := Nat.exists_eq_add_of_le' (Nat.lt_of_lt_of_le (Nat.succ_pos polls) hle)
    rw [pollWhilePlaying] at h ⊢
    by_cases hplays : s.player.isPlaying = true
    · rw [if_pos hplays] at h ⊢
      cases hpoll : timer.poll (host.now s.host) with
      | mk time? timer' =>
        rw [hpoll] at h
        cases time? with
        | none => exact ih (by omega) timer' _ h
        | some t => exact ih (by omega) timer' _ h
    · rwa [if_neg hplays] at h ⊢

variable {ending : Ending}

theorem playPattern_mono {polls more : Nat} (hle : polls ≤ more) (pace : Int → Pace α)
    (i : Fin c.patterns.length) (t : Time) (s : Session c σ) {s' : Session c σ}
    (h : playPattern host pace polls i t s = (s', ending)) (hends : ending ≠ .unfinished) :
    playPattern host pace more i t s = (s', ending) := by
  cases hlong : t.tooLong? with
  | some e =>
    rw [playPattern_unlogged hlong] at h ⊢
    exact h
  | none =>
    have hshort := Time.tooLong?_eq_none.mp hlong
    by_cases htempo : (c.patternAt i).HasTempo
    · rw [playPattern_eq hshort htempo] at h ⊢
      cases hrun : pollWhilePlaying host polls ((c.patternAt i).timer (pace (c.patternAt i).bpm) t)
          (begun host s i t) with
      | mk ended stop? =>
        rw [hrun] at h
        cases stop? with
        | none => exact absurd (congrArg Prod.snd h).symm hends
        | some stop => rwa [pollWhilePlaying_mono hle _ _ hrun]
    · rw [playPattern_noTempo hshort htempo] at h ⊢
      exact h

theorem playPatterns_mono {polls more : Nat} (hle : polls ≤ more) (pace : Int → Pace α)
    (is : List (Fin c.patterns.length)) (t : Time) (s : Session c σ) {s' : Session c σ}
    (h : playPatterns host pace polls is t s = (s', ending)) (hends : ending ≠ .unfinished) :
    playPatterns host pace more is t s = (s', ending) := by
  induction is generalizing t s with
  | nil => exact h
  | cons i is ih =>
    rw [playPatterns] at h ⊢
    by_cases hstop : s.player.stopRequested = true
    · rwa [if_pos hstop] at h ⊢
    · rw [if_neg hstop] at h ⊢
      cases hrun : playPattern host pace polls i t s with
      | mk ended first =>
        rw [hrun] at h
        cases first with
        | finished =>
          rw [playPattern_mono hle pace i t s hrun (by simp)]
          exact ih Time.start ended h
        | unfinished => exact absurd (congrArg Prod.snd h).symm hends
        | badTempo e | tooLong e => rwa [playPattern_mono hle pace i t s hrun (by simp)]

/-- A run that comes to an end is the same with more polls. -/
theorem run_mono {polls more : Nat} (hle : polls ≤ more) (pace : Int → Pace α) (s : Session c σ)
    {s' : Session c σ} (h : run host pace polls s = (s', ending)) (hends : ending ≠ .unfinished) :
    run host pace more s = (s', ending) := by
  rw [run] at h ⊢
  cases hrun : playPatterns host pace polls
      ((List.finRange c.patterns.length).drop (s.tell host (.ready c.name)).player.index)
      (s.tell host (.ready c.name)).player.startTime (s.tell host (.ready c.name)) with
  | mk ended last =>
    simp only [hrun] at h
    cases last with
    | unfinished => exact absurd (congrArg Prod.snd h).symm hends
    | finished | badTempo e | tooLong e =>
      simpa only [playPatterns_mono hle pace _ _ _ hrun (by simp)] using h

end Session

/-! ## To the end -/

theorem events_of_parts {visits : List (Pattern × Time)} {parts : List (List Cue)} {metronome : Bool}
    (hp : ∀ visit ∈ visits, visit.1.IsPlayable)
    (h : List.Forall₂ (fun visit part => visit.1.Played metronome visit.2 part) visits parts) :
    parts.map Cue.events = visits.map fun visit => visit.1.toCome visit.2 := by
  induction h with
  | nil => rfl
  | cons hplayed _ ih =>
    rw [List.map_cons, List.map_cons, hplayed.events (hp _ List.mem_cons_self),
      ih fun visit hvisit => hp visit (List.mem_cons_of_mem _ hvisit)]

/-- A compiled composition can be played from any of its patterns on. -/
theorem Document.compile_hasTempo {d : Document} {picks : Picks} {drawn : Nat}
    (h : (d.compile picks drawn).1 = .ok c) : ∀ p ∈ c.patterns, p.IsPlayable ∧ p.HasTempo := by
  intro p hp
  obtain ⟨entry, k, before, hmirror⟩ := mirrored_of_mem h hp
  have hlimit : 255 < Double.limit := by decide +kernel
  have htempo := hmirror.tempoRange
  exact ⟨compile_playable h p hp, by omega, by omega⟩

theorem Player.new?_start? (metronome : Bool) (i : Fin c.patterns.length) (t : Time) :
    ∃ player : Player c, (Player.new? c metronome).bind (·.start? t i) = some player ∧
      player.metronome = metronome ∧ player.index = i ∧ player.startTime = t ∧
      player.stopRequested = false := by
  have hi : 0 ≤ (i : Int) ∧ (i : Int).toNat < c.patterns.length := by
    rw [Int.toNat_natCast]
    exact ⟨Int.natCast_nonneg _, i.isLt⟩
  rw [new?, dif_pos i.pos, Option.bind_some, start?, dif_pos hi]
  exact ⟨_, rfl, rfl, Fin.ext (Int.toNat_natCast i), rfl, rfl⟩

/-- The events that a run fires: those that were to come in the first pattern, and all the others. -/
theorem Composition.toCome_itinerary (i : Fin c.patterns.length) (t : Time)
    (hp : ∀ p ∈ c.patterns.drop i, p.IsPlayable) :
    ((c.itinerary i t).map fun visit => visit.1.toCome visit.2) =
      (c.patternAt i).events.filter (t ≤ ·.time) :: (c.patterns.drop (i + 1)).map (·.events) := by
  rw [List.drop_eq_getElem_cons i.isLt] at hp
  rw [itinerary, List.drop_eq_getElem_cons i.isLt, inTurn, List.map_cons, List.map_map]
  refine congrArg₂ List.cons rfl (List.map_congr_left fun p hmem => ?_)
  exact Pattern.toCome_start (hp p (List.mem_cons_of_mem _ hmem))

/-- Every compiled composition is played to its end, and so is every other one in order with tempos
that timers keep, if the times at which its patterns begin and end can be written. In the first pattern
the events from the start time on fire, in the others all events, each on the pulse at its time, and a
pattern ends with the first bar that has them all before its last interval. -/
theorem run_plays_to_the_end (host : Host σ α) (hh : host.NeverStops) (state : σ) (metronome : Bool)
    (i : Fin c.patterns.length) (t : Time)
    (hc : c.PlayableFrom i ∨ ∃ (d : Document) (picks : Picks) (drawn : Nat),
      (d.compile picks drawn).1 = .ok c)
    (hlogged : c.IsLoggedFrom i t) :
    ∃ (player : Player c) (session : Session c σ) (parts : List (List Cue)),
      (Player.new? c metronome).bind (·.start? t i) = some player ∧
      (∀ polls, c.pollBound t ≤ polls →
        Session.run host (fun _ => .free) polls { player, host := state } = (session, .finished)) ∧
      session.cues = .callback (.ready c.name) :: parts.flatten ++ [.callback (.completed c.name)] ∧
      List.Forall₂ (fun visit part => visit.1.Played metronome visit.2 part) (c.itinerary i t) parts ∧
      parts.map Cue.events =
        (c.patternAt i).events.filter (t ≤ ·.time) :: (c.patterns.drop (i + 1)).map (·.events) := by
  have hplayable : c.PlayableFrom i := by
    rcases hc with h | ⟨d, picks, drawn, h⟩
    · exact h
    · exact fun p hp => Document.compile_hasTempo h p (List.mem_of_mem_drop hp)
  have hp : ∀ p ∈ c.patterns.drop i, p.IsPlayable := fun p hmem => (hplayable p hmem).1
  obtain ⟨player, hstart, rfl, rfl, rfl, hstop⟩ := Player.new?_start? metronome i t
  obtain ⟨session, parts, hrun, hcues, hparts⟩ := Session.run_spec hh
    ({ player, host := state } : Session c σ) hplayable hlogged le_rfl hstop
  refine ⟨player, session, parts, hstart, ?_, hcues, hparts, ?_⟩
  · intro polls hle
    exact Session.run_mono hle _ _ hrun (by simp)
  · rw [events_of_parts (fun visit hvisit => hp _ (Composition.mem_itinerary hvisit)) hparts]
    exact Composition.toCome_itinerary player.index player.startTime hp

theorem Host.silent_neverStops : Host.silent.NeverStops := ⟨fun _ _ => rfl, fun _ _ => rfl⟩

/-- Played from a time that the clock never shows, the first pattern ends with its first bar. -/
theorem sample_isLogged : sampleComposition.IsLoggedFrom 0 ⟨1, 2, 20⟩ := by
  intro visit hvisit
  rcases List.mem_pair.mp hvisit with rfl | rfl
  · exact (Pattern.isLogged_iff (n := 16) (by decide +kernel)).mpr (by decide +kernel)
  · exact (Pattern.isLogged_iff (n := 63) (by decide +kernel)).mpr (by decide +kernel)

/-- Also from a time that the clock never shows. -/
theorem sample_plays_to_the_end :
    ¬Time.IsReachable ⟨1, 2, 20⟩ ⟨4, 4⟩ ∧ sampleComposition.IsLoggedFrom 0 ⟨1, 2, 20⟩ ∧
      ∃ (player : Player sampleComposition) (session : Session sampleComposition Unit)
        (parts : List (List Cue)),
        (Player.new? sampleComposition true).bind (·.start? ⟨1, 2, 20⟩ 0) = some player ∧
        (∀ polls, sampleComposition.pollBound ⟨1, 2, 20⟩ ≤ polls →
          Session.run Host.silent (fun _ => .free) polls { player, host := () } =
            (session, .finished)) ∧
        parts.map Cue.events =
          [[⟨⟨1, 3, 1⟩, [107, 107, 107, 107, 107, 107]⟩], [⟨⟨2, 1, 1⟩, [24, 24]⟩]] := by
  obtain ⟨player, session, parts, hstart, hrun, _, _, hevents⟩ :=
    run_plays_to_the_end Host.silent Host.silent_neverStops () true
      (⟨0, by decide⟩ : Fin sampleComposition.patterns.length) ⟨1, 2, 20⟩
      (.inr ⟨sampleDocument, id, 0, rfl⟩) sample_isLogged
  exact ⟨by decide, sample_isLogged, player, session, parts, hstart, hrun, hevents⟩

/-! ## Runs that do not begin -/

/-- From a time that cannot be written not even the first pattern begins. -/
theorem run_unlogged (hh : host.NeverStops) (state : σ) (metronome : Bool)
    (i : Fin c.patterns.length) {t : Time} (hp : ∀ p ∈ c.patterns.drop i, p.IsPlayable)
    (hlong : ¬t.IsShort) :
    ∃ player : Player c, (Player.new? c metronome).bind (·.start? t i) = some player ∧
      ∀ polls, c.pollBound t ≤ polls → ∃ session e,
        Session.run host (fun _ => .free) polls { player, host := state } = (session, .tooLong e) ∧
          session.cues = [.callback (.ready c.name)] := by
  obtain ⟨player, hstart, rfl, rfl, rfl, hstop⟩ := Player.new?_start? metronome i t
  obtain ⟨e, he⟩ := exists_tooLong hlong
  have hperforms : Performs player.metronome (c.itinerary player.index player.startTime) []
      (.tooLong e) := by
    rw [Composition.itinerary_eq_cons]
    exact .last (.unlogged he) (by simp)
  refine ⟨player, hstart, fun polls hpolls => ?_⟩
  obtain ⟨session, hrun, hcues⟩ := Session.run_of_performs hh ⟨player, state, []⟩ hp hpolls hstop
    hperforms
  exact ⟨session, e, hrun, hcues⟩

/-- Without a tempo that a timer keeps the first pattern begins, and that is all. -/
theorem run_noTempo (hh : host.NeverStops) (state : σ) (metronome : Bool)
    (i : Fin c.patterns.length) {t : Time} (hp : ∀ p ∈ c.patterns.drop i, p.IsPlayable)
    (hshort : t.IsShort) (htempo : ¬(c.patternAt i).HasTempo) :
    ∃ player : Player c, (Player.new? c metronome).bind (·.start? t i) = some player ∧
      ∀ polls, c.pollBound t ≤ polls → ∃ session,
        Session.run host (fun _ => .free) polls { player, host := state } =
            (session, .badTempo (c.patternAt i).badTempo) ∧
          session.cues = [.callback (.ready c.name), .callback (.patternBegin (c.patternAt i))] := by
  obtain ⟨player, hstart, rfl, rfl, rfl, hstop⟩ := Player.new?_start? metronome i t
  have hperforms : Performs player.metronome (c.itinerary player.index player.startTime)
      [.callback (.patternBegin (c.patternAt player.index))]
      (.badTempo (c.patternAt player.index).badTempo) := by
    rw [Composition.itinerary_eq_cons]
    exact .last (.noTempo hshort htempo) (by simp)
  refine ⟨player, hstart, fun polls hpolls => ?_⟩
  obtain ⟨session, hrun, hcues⟩ := Session.run_of_performs hh ⟨player, state, []⟩ hp hpolls hstop
    hperforms
  exact ⟨session, hrun, hcues⟩

/-- One bar of one pattern, at a tempo. -/
def Composition.atTempo (bpm : Int) : Composition :=
  ⟨"Still", [⟨"A", bpm, ⟨4, 4⟩, [⟨⟨1, 1, 1⟩, [48]⟩]⟩]⟩

theorem Composition.atTempo_isPlayable (bpm : Int) :
    ∀ p ∈ (atTempo bpm).patterns, p.IsPlayable := by
  intro p hp
  obtain rfl := List.mem_singleton.mp hp
  have hplayable : Pattern.IsPlayable ⟨"A", 120, ⟨4, 4⟩, [⟨⟨1, 1, 1⟩, [48]⟩]⟩ := by decide
  exact ⟨hplayable.beats, hplayable.rising, hplayable.reachable⟩

/-- A time in a bar that cannot be written. -/
def Time.beyond : Time := ⟨10 ^ Yaml.Meaning.digitLimit, 1, 1⟩

theorem Time.beyond_not_isShort : ¬beyond.IsShort := by
  intro h
  have hbar := (isShort_iff _).mp (h _ List.mem_cons_self)
  exact absurd hbar (lt_irrefl _)

/-- No event fires at a tempo that is too slow or too fast for a timer, and none from a time that
cannot be written. -/
theorem still_composition_is_not_played :
    (∀ bpm : Int, ∀ p ∈ (Composition.atTempo bpm).patterns, p.IsPlayable) ∧
      (∀ bpm ∈ [0, (Double.limit : Int)], ∃ player : Player (Composition.atTempo bpm),
        (Player.new? (Composition.atTempo bpm) false).bind (·.start? Time.start 0) = some player ∧
        ∀ polls, (Composition.atTempo bpm).pollBound Time.start ≤ polls → ∃ session e,
          Session.run Host.silent (fun _ => .free) polls { player, host := () } =
            (session, .badTempo e) ∧ Cue.events session.cues = []) ∧
      ∃ player : Player (Composition.atTempo 120),
        (Player.new? (Composition.atTempo 120) false).bind (·.start? Time.beyond 0) = some player ∧
        ∀ polls, (Composition.atTempo 120).pollBound Time.beyond ≤ polls → ∃ session e,
          Session.run Host.silent (fun _ => .free) polls { player, host := () } =
            (session, .tooLong e) ∧ Cue.events session.cues = [] := by
  refine ⟨Composition.atTempo_isPlayable, fun bpm hbpm => ?_, ?_⟩
  · have htempo : ¬((Composition.atTempo bpm).patternAt ⟨0, Nat.one_pos⟩).HasTempo := by
      rcases List.mem_pair.mp hbpm with rfl | rfl
      · exact fun h => absurd h.1 (lt_irrefl _)
      · exact fun h => absurd h.2 (lt_irrefl _)
    obtain ⟨player, hstart, hrun⟩ := run_noTempo (c := Composition.atTempo bpm)
      Host.silent_neverStops () false ⟨0, Nat.one_pos⟩ (Composition.atTempo_isPlayable bpm)
      (by decide : Time.start.IsShort) htempo
    refine ⟨player, hstart, fun polls hpolls => ?_⟩
    obtain ⟨session, hended, hcues⟩ := hrun polls hpolls
    exact ⟨session, _, hended, by rw [hcues]; rfl⟩
  · obtain ⟨player, hstart, hrun⟩ := run_unlogged (c := Composition.atTempo 120)
      Host.silent_neverStops () false ⟨0, Nat.one_pos⟩ (Composition.atTempo_isPlayable 120)
      Time.beyond_not_isShort
    refine ⟨player, hstart, fun polls hpolls => ?_⟩
    obtain ⟨session, e, hended, hcues⟩ := hrun polls hpolls
    exact ⟨session, e, hended, by rw [hcues]; rfl⟩

end Cadence
