import Mathlib.Data.List.Basic
import Cadence.Proofs.Playback.Spec

/-!
# A player that nobody stops

One lemma for each thing that a session does, from a callback to a whole run. Between pulses the
cursor stands where the search for the next time would put it.
-/

namespace Cadence

variable {c : Composition} {σ α : Type} {host : Host σ α}

/-- A host that never asks the player to stop. -/
structure Host.NeverStops (host : Host σ α) : Prop where
  hear : ∀ state cb, (host.hear state cb).2 = false
  polled : ∀ state fired, (host.polled state fired).2 = false

/-! ## The timer -/

namespace Timer

theorem pulse_pace (timer : Timer α) : timer.pulse.pace = timer.pace := by
  unfold pulse
  split <;> rfl

theorem pulse_signature (timer : Timer α) : timer.pulse.signature = timer.signature := by
  unfold pulse
  split <;> rfl

/-- Each pulse after the first shows the next time. -/
theorem pulse_pulse_time (timer : Timer α) :
    timer.pulse.pulse.time = timer.pulse.time.advance timer.signature := by
  cases hstarted : timer.started <;> simp [pulse, step, hstarted]

theorem poll_free [Add α] [LT α] [DecidableLT α] {timer : Timer α} (hpace : timer.pace = .free)
    (now : α) : timer.poll now = (some timer.pulse.time, timer.pulse) := by
  simp [poll, claim, hpace]

/-- A poll shows the time that is due or nothing, and after it the next time is due or the same. -/
theorem poll_spec [Add α] [LT α] [DecidableLT α] (timer : Timer α) (now : α) :
    (timer.poll now).2.pace = timer.pace ∧ (timer.poll now).2.signature = timer.signature ∧
      ((timer.poll now).1 = none ∧ timer.pace ≠ .free ∧
          (timer.poll now).2.pulse.time = timer.pulse.time ∨
        (timer.poll now).1 = some timer.pulse.time ∧
          (timer.poll now).2.time = timer.pulse.time ∧
          (timer.poll now).2.pulse.time = timer.pulse.time.advance timer.signature) := by
  -- a claim moves the deadline only
  have hclaim : ∀ (pace : Pace α) (deadline? : Option α),
      ({ timer with pace, deadline? } : Timer α).pulse.time = timer.pulse.time := by
    intro pace deadline?
    cases hstarted : timer.started <;> simp [pulse, step, hstarted]
  cases hpace : timer.pace with
  | free =>
    rw [poll_free hpace]
    exact ⟨by rw [pulse_pace, hpace], pulse_signature timer,
      .inr ⟨rfl, rfl, pulse_pulse_time timer⟩⟩
  | every period =>
    by_cases hearly : now < timer.deadline?.getD now
    · simp [poll, claim, hpace, hearly, hclaim]
    · have hpoll : timer.poll now = (some timer.pulse.time,
          ({ timer with
            pace := .every period
            deadline? := some (timer.deadline?.getD now + period) } : Timer α).pulse) := by
        simp [poll, claim, hpace, hearly, hclaim]
      rw [hpoll]
      refine ⟨pulse_pace _, pulse_signature _, .inr ⟨rfl, hclaim _ _, ?_⟩⟩
      rw [pulse_pulse_time, hclaim]

end Timer

/-- A timer on doubles is made for every tempo that it keeps. -/
theorem Pattern.newTimer (p : Pattern) (pace : Int → Pace α) :
    Timer.new p.signature p.bpm (Pace.onDoubles? pace p.bpm) =
      if p.HasTempo then .ok ⟨p.signature, p.bpm, pace p.bpm, Time.start, false, none⟩
      else .error p.badTempo := by
  unfold Timer.new Pace.onDoubles? HasTempo badTempo
  by_cases hpos : p.bpm ≤ 0
  · simp [hpos, not_lt.mpr hpos]
  · by_cases hlarge : p.bpm < Double.limit <;> simp [hpos, not_le.mp hpos, hlarge]

/-- The timer of a pattern, set to a time. -/
def Pattern.timer (p : Pattern) (pace : Pace α) (t : Time) : Timer α :=
  Timer.seek ⟨p.signature, p.bpm, pace, Time.start, false, none⟩ t

namespace Session

/-! ## One callback -/

theorem tell_cues (host : Host σ α) (s : Session c σ) (cb : Callback) :
    (s.tell host cb).cues = s.cues ++ [.callback cb] := by
  simp [tell, cues]

theorem tell_player (hh : host.NeverStops) (s : Session c σ) (cb : Callback) :
    (s.tell host cb).player = s.player := by
  simp [tell, hh.hear]

theorem endPoll_cues (s : Session c σ) (fired : Bool) : (s.endPoll host fired).cues = s.cues := rfl

theorem endPoll_player (hh : host.NeverStops) (s : Session c σ) (fired : Bool) :
    (s.endPoll host fired).player = s.player := by
  simp [endPoll, hh.polled]

theorem clickIf_player (s : Session c σ) (condition : Bool) (index : Nat) :
    (s.clickIf condition index).player = s.player := by
  unfold clickIf
  split <;> rfl

theorem clickIf_cues (s : Session c σ) (condition : Bool) (index : Nat) :
    (s.clickIf condition index).cues =
      s.cues ++ if condition then clickCues s.player.metronome index else [] := by
  unfold clickIf clickCues
  cases condition <;> cases s.player.metronome <;> simp [cues]

theorem onBar_spec (hh : host.NeverStops) (s : Session c σ) (t : Time)
    (hplay : s.player.isPlaying = true) :
    (s.onBar host t).player = s.player ∧
      (s.onBar host t).cues = s.cues ++ .callback (.bar t) :: clickCues s.player.metronome barClick := by
  rw [onBar, if_pos hplay, clickIf_player, clickIf_cues, tell_player hh, tell_cues]
  simp

theorem onBeat_spec (hh : host.NeverStops) (s : Session c σ) (t : Time)
    (hplay : s.player.isPlaying = true) :
    (s.onBeat host t).player = s.player ∧
      (s.onBeat host t).cues = s.cues ++ .callback (.beat t) ::
        if t.beat = 1 then [] else clickCues s.player.metronome beatClick := by
  rw [onBeat, if_pos hplay, clickIf_player, clickIf_cues, tell_player hh, tell_cues]
  by_cases hbeat : t.beat = 1 <;> simp [hbeat]

theorem fire_spec (hh : host.NeverStops) (s : Session c σ) (e : Event) :
    (s.fire host e).player = { s.player with cursor := s.player.cursor + 1 } ∧
      (s.fire host e).cues = s.cues ++ e.cues := by
  constructor
  · simp only [fire, tell_player hh]
  · have htold := tell_cues host s (.event e)
    simp only [cues] at htold
    simp [fire, cues, Event.cues, htold]

/-- What a pulse does to a player: its events up to this time are over. -/
def played (p : Player c) (t : Time) : Player c :=
  { p with
    isPlaying := !decide (p.pattern.IsOver t)
    cursor := p.pattern.indexFrom (t.advance p.pattern.signature) }

theorem played_eq_self {p : Player c} {t : Time} (hplay : p.isPlaying = true)
    (hover : ¬p.pattern.IsOver t)
    (hcursor : p.pattern.indexFrom (t.advance p.pattern.signature) = p.cursor) : played p t = p := by
  rw [played, hcursor, decide_eq_false hover, Bool.not_false, ← hplay]

theorem onInterval_spec (hh : host.NeverStops) (s : Session c σ) (t : Time)
    (hp : s.player.pattern.IsPlayable) (hplay : s.player.isPlaying = true)
    (hcursor : s.player.cursor = s.player.pattern.indexFrom t) :
    (s.onInterval host t).player = played s.player t ∧
      (s.onInterval host t).cues = s.cues ++ .callback (.interval t) ::
        (s.player.pattern.due? t).toList.flatMap Event.cues := by
  have hnext := Pattern.indexFrom_advance hp t
  rw [onInterval, hcursor, getElem?_indexFrom hp.rising]
  cases hl : s.player.pattern.toCome t with
  | nil =>
    have hnone := Pattern.due?_eq_none_of_toCome hl
    have hover : s.player.pattern.IsOver t ↔ t.IsBarEnd s.player.pattern.signature := by
      rw [Pattern.IsOver, and_iff_left (Pattern.toCome_eq_nil_iff.mp hl)]
    have hsame : s.player.pattern.indexFrom (t.advance s.player.pattern.signature) =
        s.player.cursor := by
      rw [hnext, hnone, hcursor]
      rfl
    simp only [List.head?_nil, Option.isNone_none, Bool.true_and, decide_eq_true_eq]
    rw [tell_player hh, tell_cues, hnone]
    by_cases hend : t.IsBarEnd s.player.pattern.signature
    · simp [hend, played, hover, hsame, mapPlayer, cues]
    · rw [played_eq_self hplay (by rwa [hover]) hsame]
      simp [hend]
  | cons e rest =>
    have hover : ¬s.player.pattern.IsOver t := by
      rintro ⟨-, hall⟩
      rw [Pattern.toCome_eq_nil_iff.mpr hall] at hl
      cases hl
    have hdue := Pattern.due?_eq_of_head? hp (by rw [hl]; rfl : _ = some e)
    simp only [List.head?_cons, Option.isNone_some, Bool.false_and, Bool.false_eq_true, if_false]
    by_cases he : e.time = t
    · obtain ⟨hplayer, hcues⟩ := fire_spec hh (s.tell host (.interval t)) e
      rw [if_pos he] at hdue ⊢
      rw [hplayer, hcues, tell_player hh, tell_cues, hdue]
      simp [played, hover, hnext, hdue, hcursor, hplay]
    · rw [if_neg he] at hdue ⊢
      rw [hdue, ← hcursor] at hnext
      rw [tell_player hh, tell_cues, hdue, played_eq_self hplay hover hnext]
      simp

/-! ## One pulse -/

theorem pulse_spec (hh : host.NeverStops) (s : Session c σ) (t : Time)
    (hp : s.player.pattern.IsPlayable) (hplay : s.player.isPlaying = true)
    (hcursor : s.player.cursor = s.player.pattern.indexFrom t) :
    (s.pulse host t).player = played s.player t ∧
      (s.pulse host t).cues = s.cues ++ s.player.pattern.pulseCues s.player.metronome t := by
  have hinterval : ∀ s' : Session c σ, s'.player = s.player →
      (s'.onInterval host t).player = played s.player t ∧
        (s'.onInterval host t).cues = s'.cues ++ .callback (.interval t) ::
          (s.player.pattern.due? t).toList.flatMap Event.cues := by
    intro s' hs'
    rw [← hs'] at hp hplay hcursor ⊢
    exact onInterval_spec hh s' t hp hplay hcursor
  -- a bar begins, or only a beat, or only an interval
  rw [pulse, Time.boundaries]
  by_cases hint : t.interval = 1
  · by_cases hbeat : t.beat = 1
    · obtain ⟨hbar, hbarCues⟩ := onBar_spec hh s t hplay
      obtain ⟨hbt, hbtCues⟩ := onBeat_spec hh (s.onBar host t) t (by rw [hbar]; exact hplay)
      obtain ⟨hplayer, hcues⟩ := hinterval ((s.onBar host t).onBeat host t) (by rw [hbt, hbar])
      simp only [hint, hbeat, if_true, List.cons_append, List.nil_append, List.foldl_cons,
        List.foldl_nil, onBoundary]
      rw [hplayer, hcues, hbtCues, hbarCues]
      simp [Pattern.pulseCues, Time.clockCues, hint, hbeat]
    · obtain ⟨hbt, hbtCues⟩ := onBeat_spec hh s t hplay
      obtain ⟨hplayer, hcues⟩ := hinterval (s.onBeat host t) hbt
      simp only [hint, hbeat, if_true, if_false, List.cons_append, List.nil_append, List.foldl_cons,
        List.foldl_nil, onBoundary]
      rw [hplayer, hcues, hbtCues]
      simp [Pattern.pulseCues, Time.clockCues, hint, hbeat]
  · obtain ⟨hplayer, hcues⟩ := hinterval s rfl
    simp only [hint, if_false, List.nil_append, List.foldl_cons, List.foldl_nil, onBoundary]
    rw [hplayer, hcues]
    simp [Pattern.pulseCues, Time.clockCues, hint]

/-- Between two polls of a pattern a time is due: the timer shows it next, and the cursor is where the
search for it would put it. -/
structure IsDue (timer : Timer α) (p : Player c) (t : Time) : Prop where
  isPlayable : p.pattern.IsPlayable
  signature : timer.signature = p.pattern.signature
  time : timer.pulse.time = t
  isPlaying : p.isPlaying = true
  cursor : p.cursor = p.pattern.indexFrom t

section

variable {timer timer' : Timer α} {p : Player c} {t : Time}

theorem IsDue.stay (h : IsDue timer p t) (hsame : timer'.signature = timer.signature)
    (hstays : timer'.pulse.time = timer.pulse.time) : IsDue timer' p t :=
  ⟨h.isPlayable, hsame.trans h.signature, hstays.trans h.time, h.isPlaying, h.cursor⟩

theorem IsDue.advance (h : IsDue timer p t) (hnot : ¬p.pattern.IsOver t)
    (hsame : timer'.signature = timer.signature)
    (hnext : timer'.pulse.time = timer.pulse.time.advance timer.signature) :
    IsDue timer' (played p t) (t.advance p.pattern.signature) :=
  ⟨h.isPlayable, hsame.trans h.signature, by rw [hnext, h.time, h.signature],
    by simp [played, hnot], rfl⟩

end

/-! ## Pulses until a pattern is over -/

variable [Add α] [LT α] [DecidableLT α]

theorem pollWhilePlaying_quiet {s : Session c σ} (h : s.player.isPlaying = false) (polls : Nat)
    (timer : Timer α) : pollWhilePlaying host polls timer s = (s, some timer.time) := by
  cases polls <;> simp [pollWhilePlaying, h]

/-- The polls show the times of the clock in turn, up to the one at which the pattern is over. They may
be used up before; with a pulse at every poll there are then no more polls than times. -/
theorem pollWhilePlaying_shows (hh : host.NeverStops) (polls : Nat) {timer : Timer α}
    {s : Session c σ} {n : Nat} {t : Time} (hdue : IsDue timer s.player t)
    (hend : s.player.pattern.EndsAfter t n) :
    ∃ s' stop? m, pollWhilePlaying host polls timer s = (s', stop?) ∧
      s'.player.metronome = s.player.metronome ∧
      s'.player.stopRequested = s.player.stopRequested ∧
      s'.cues = s.cues ++ ((t.shown s.player.pattern.signature n).take m).flatMap
        (s.player.pattern.pulseCues s.player.metronome) ∧
      (stop? = some (t.advanceBy s.player.pattern.signature n) ∧ m = n + 1 ∨
        stop? = none ∧ m ≤ n ∧ (timer.pace = .free → polls ≤ n)) := by
  induction polls generalizing timer s n t with
  | zero =>
    refine ⟨s, none, 0, ?_, rfl, rfl, ?_, .inr ⟨rfl, Nat.zero_le n, fun _ => Nat.zero_le n⟩⟩
    · rw [pollWhilePlaying, if_pos hdue.isPlaying]
    · rw [List.take_zero, List.flatMap_nil, List.append_nil]
  | succ polls ih =>
    obtain ⟨hpace, hsame, hpoll⟩ := timer.poll_spec (host.now s.host)
    rw [pollWhilePlaying, if_pos hdue.isPlaying]
    generalize timer.poll (host.now s.host) = polled at hpace hsame hpoll
    obtain ⟨time?, timer'⟩ := polled
    rcases hpoll with ⟨rfl, hwaits, hstays⟩ | ⟨rfl, hshows, hnext⟩
    · -- nothing is due, and nothing is changed
      have hplayer := endPoll_player hh s false
      have hdue' := hdue.stay hsame hstays
      rw [← hplayer] at hdue' hend
      obtain ⟨s', stop?, m, hrun, hmet, hstop, hcues, hends⟩ := ih hdue' hend
      rw [hplayer] at hmet hstop hcues hends
      exact ⟨s', stop?, m, hrun, hmet, hstop, hcues, hends.imp_right fun ⟨hcut, hm, _⟩ =>
        ⟨hcut, hm, fun hfree => absurd hfree hwaits⟩⟩
    · obtain ⟨hplayer, hcues⟩ := pulse_spec hh s t hdue.isPlayable hdue.isPlaying hdue.cursor
      have hafter : ((s.pulse host t).endPoll host true).player = played s.player t := by
        rw [endPoll_player hh, hplayer]
      have hpattern : (played s.player t).pattern = s.player.pattern := rfl
      rw [hdue.time]
      cases n with
      | zero =>
        have hover := Pattern.endsAfter_zero.mp hend
        have hquiet : ((s.pulse host t).endPoll host true).player.isPlaying = false := by
          rw [hafter]
          simp [played, hover]
        have hrun : pollWhilePlaying host polls timer' _ = _ :=
          pollWhilePlaying_quiet hquiet polls timer'
        rw [hshows.trans hdue.time] at hrun
        refine ⟨_, some t, 1, hrun, ?_, ?_, ?_, .inl ⟨rfl, rfl⟩⟩
        · rw [hafter]
          rfl
        · rw [hafter]
          rfl
        · rw [endPoll_cues, hcues, Time.shown_zero, List.take_one, List.head?_cons,
            Option.toList_some, List.flatMap_singleton]
      | succ n =>
        obtain ⟨hnot, hrest⟩ := Pattern.endsAfter_succ.mp hend
        have hdue' := hdue.advance hnot hsame hnext
        rw [← hafter] at hdue'
        obtain ⟨s', stop?, m, hrun, hmet, hstop, hcues', hends⟩ := ih (n := n) hdue'
          (by rw [hafter]; exact hrest)
        rw [hafter] at hmet hstop
        rw [hafter, hpattern] at hcues' hends
        refine ⟨s', stop?, m + 1, hrun, hmet, hstop, ?_, ?_⟩
        · rw [hcues', endPoll_cues, hcues, Time.shown_succ, List.take_succ_cons, List.flatMap_cons,
            List.append_assoc]
          rfl
        · rcases hends with ⟨hlast, hm⟩ | ⟨hcut, hm, hfree⟩
          · exact .inl ⟨hlast, by omega⟩
          · refine .inr ⟨hcut, by omega, fun h => ?_⟩
            have := hfree (hpace.trans h)
            omega

end Session

/-! ## Enough polls -/

theorem le_foldl_max (xs : List Nat) (a : Nat) : ∀ x ∈ a :: xs, x ≤ xs.foldl max a :=
  (List.max?_eq_some_iff.mp List.max?_cons').2

/-- Played from anywhere, a pattern is over before its polls are used up. -/
theorem Pattern.exists_endsAfter {p : Pattern} (hp : p.IsPlayable) (t : Time) :
    ∃ n, n < p.pollBound t ∧ p.EndsAfter t n := by
  have hbars := le_foldl_max (p.events.map (·.time.bar)) t.bar
  obtain ⟨n, hn, hend, hlast⟩ := Time.exists_barEnd hp.beats t
    ((p.events.map (·.time.bar)).foldl max t.bar - t.bar)
  have hover : p.IsOver (t.advanceBy p.signature n) := by
    refine ⟨hend, fun e he => ?_⟩
    have hstart := hbars _ List.mem_cons_self
    have hle := hbars _ (List.mem_cons_of_mem _ (List.mem_map_of_mem he))
    rw [Time.lt_iff, hlast]
    omega
  have hex : ∃ n, p.IsOver (t.advanceBy p.signature n) := ⟨n, hover⟩
  refine ⟨Nat.find hex, lt_of_le_of_lt (Nat.find_min' hex hover) hn, Nat.find_spec hex, ?_⟩
  intro m hm
  exact Nat.find_min hex hm

/-- The polls that a composition gets are enough for each of its patterns. -/
theorem Composition.pollBound_le {p : Pattern} (hp : p ∈ c.patterns) (t : Time) :
    p.pollBound t ≤ c.pollBound t ∧ p.pollBound Time.start ≤ c.pollBound t := by
  have hmax := le_foldl_max (c.patterns.map fun p => max (p.pollBound t) (p.pollBound Time.start)) 0
    (max (p.pollBound t) (p.pollBound Time.start))
    (List.mem_cons_of_mem _ (List.mem_map_of_mem hp))
  rw [Composition.pollBound]
  omega

/-! ## Patterns in turn -/

namespace Session

/-- A session at the first poll of a pattern. -/
def begun (host : Host σ α) (s : Session c σ) (i : Fin c.patterns.length) (t : Time) : Session c σ :=
  (((s.mapPlayer ({ · with index := i })).tell host (.patternBegin (c.patternAt i))).mapPlayer
    ({ · with isPlaying := true })).mapPlayer ({ · with cursor := (c.patternAt i).indexFrom t })

theorem begun_player (hh : host.NeverStops) (s : Session c σ) (i : Fin c.patterns.length)
    (t : Time) : (begun host s i t).player =
      { s.player with index := i, isPlaying := true, cursor := (c.patternAt i).indexFrom t } := by
  simp only [begun, mapPlayer, tell_player hh]

theorem begun_cues (s : Session c σ) (i : Fin c.patterns.length) (t : Time) :
    (begun host s i t).cues = s.cues ++ [.callback (.patternBegin (c.patternAt i))] :=
  tell_cues host (s.mapPlayer ({ · with index := i })) (.patternBegin (c.patternAt i))

theorem isDue_begun (hh : host.NeverStops) {i : Fin c.patterns.length}
    (hp : (c.patternAt i).IsPlayable) (pace : Pace α) (s : Session c σ) (t : Time) :
    IsDue ((c.patternAt i).timer pace t) (begun host s i t).player t := by
  rw [begun_player hh]
  exact ⟨hp, rfl, rfl, rfl, rfl⟩

variable [Add α] [LT α] [DecidableLT α]

/-- A time that can be logged and a tempo that a timer keeps lead to the first poll. -/
theorem playPattern_eq {i : Fin c.patterns.length} {t : Time} (hshort : t.IsShort)
    (htempo : (c.patternAt i).HasTempo) (pace : Int → Pace α) (polls : Nat) (s : Session c σ) :
    playPattern host pace polls i t s =
      match pollWhilePlaying host polls ((c.patternAt i).timer (pace (c.patternAt i).bpm) t)
        (begun host s i t) with
      | (s', none) => (s', .unfinished)
      | (s', some stop) => (s'.tell host (.patternEnd (c.patternAt i)), .ofStop stop) := by
  simp only [playPattern, Time.tooLong?_eq_none.mpr hshort, Pattern.newTimer, if_pos htempo]
  rfl

/-- A time that cannot be logged is not even told to the host. -/
theorem playPattern_unlogged {t : Time} {e : Yaml.TooLong} (hlong : t.tooLong? = some e)
    (pace : Int → Pace α) (polls : Nat) (i : Fin c.patterns.length) (s : Session c σ) :
    playPattern host pace polls i t s = (s.mapPlayer ({ · with index := i }), .tooLong e) := by
  simp only [playPattern, hlong]

/-- Without a tempo that a timer keeps a pattern begins, and that is all. -/
theorem playPattern_noTempo {i : Fin c.patterns.length} {t : Time} (hshort : t.IsShort)
    (htempo : ¬(c.patternAt i).HasTempo) (pace : Int → Pace α) (polls : Nat) (s : Session c σ) :
    playPattern host pace polls i t s =
      (((s.mapPlayer ({ · with index := i })).tell host (.patternBegin (c.patternAt i))).mapPlayer
        ({ · with isPlaying := true }), .badTempo (c.patternAt i).badTempo) := by
  simp only [playPattern, Time.tooLong?_eq_none.mpr hshort, Pattern.newTimer, if_neg htempo]

/-- A pattern is performed, or the polls are used up before it is over. -/
theorem playPattern_shows (hh : host.NeverStops) (pace : Int → Pace α) (polls : Nat)
    {i : Fin c.patterns.length} (t : Time) (s : Session c σ) (hp : (c.patternAt i).IsPlayable) :
    ∃ s' part ending, playPattern host pace polls i t s = (s', ending) ∧
      s'.player.metronome = s.player.metronome ∧
      s'.player.stopRequested = s.player.stopRequested ∧ s'.cues = s.cues ++ part ∧
      ((c.patternAt i).Performed s.player.metronome t part ending ∨
        ending = .unfinished ∧ t.IsShort ∧ (c.patternAt i).HasTempo ∧
          ∃ n, (c.patternAt i).EndsAfter t n ∧ (pace (c.patternAt i).bpm = .free → polls ≤ n) ∧
            ∃ m ≤ n, part = .callback (.patternBegin (c.patternAt i)) ::
              ((t.shown (c.patternAt i).signature n).take m).flatMap
                ((c.patternAt i).pulseCues s.player.metronome)) := by
  cases hlong : t.tooLong? with
  | some e =>
    exact ⟨_, [], _, playPattern_unlogged hlong _ _ _ s, rfl, rfl, (List.append_nil _).symm,
      .inl (.unlogged hlong)⟩
  | none =>
    have hshort := Time.tooLong?_eq_none.mp hlong
    by_cases htempo : (c.patternAt i).HasTempo
    · obtain ⟨n, -, hend⟩ := Pattern.exists_endsAfter hp t
      have hplayer := begun_player hh s i t
      have hpattern : (begun host s i t).player.pattern = c.patternAt i := by
        rw [hplayer]
        rfl
      obtain ⟨s', stop?, m, hrun, hmet, hstop, hcues, hends⟩ := pollWhilePlaying_shows hh polls
        (isDue_begun hh hp (pace (c.patternAt i).bpm) s t) (n := n) (by rw [hpattern]; exact hend)
      rw [hplayer] at hmet hstop
      rw [begun_cues, hpattern, hplayer, List.append_assoc] at hcues
      rw [hpattern] at hends
      rw [playPattern_eq hshort htempo, hrun]
      rcases hends with ⟨rfl, rfl⟩ | ⟨rfl, hm, hfree⟩
      · refine ⟨_, _, _, rfl, ?_, ?_, ?_, .inl (.played hshort htempo hend)⟩
        · rw [tell_player hh, hmet]
        · rw [tell_player hh, hstop]
        · have hall : (t.shown (c.patternAt i).signature n).length = n + 1 := by
            simp [Time.shown]
          rw [tell_cues, hcues, ← hall, List.take_length]
          simp
      · exact ⟨s', _, .unfinished, rfl, hmet, hstop, hcues,
          .inr ⟨rfl, hshort, htempo, n, hend, hfree, m, hm, rfl⟩⟩
    · refine ⟨_, _, _, playPattern_noTempo hshort htempo _ _ s, ?_, ?_, ?_,
        .inl (.noTempo hshort htempo)⟩
      · rw [mapPlayer, tell_player hh]
        rfl
      · rw [mapPlayer, tell_player hh]
        rfl
      · exact tell_cues host (s.mapPlayer ({ · with index := i })) _

theorem playPattern_performs (hh : host.NeverStops) {polls : Nat} {i : Fin c.patterns.length}
    {t : Time} (s : Session c σ) (hp : (c.patternAt i).IsPlayable)
    (hpolls : (c.patternAt i).pollBound t ≤ polls) :
    ∃ s' part ending, playPattern host (fun _ => .free) polls i t s = (s', ending) ∧
      s'.player.metronome = s.player.metronome ∧
      s'.player.stopRequested = s.player.stopRequested ∧ s'.cues = s.cues ++ part ∧
      (c.patternAt i).Performed s.player.metronome t part ending := by
  obtain ⟨s', part, ending, hrun, hmet, hstop, hcues, hpart | ⟨-, -, -, n, hend, hfew, -⟩⟩ :=
    playPattern_shows hh (fun _ => .free) polls t s hp
  · exact ⟨s', part, ending, hrun, hmet, hstop, hcues, hpart⟩
  · -- the polls are more than the times that are shown
    obtain ⟨m, hm, hend'⟩ := Pattern.exists_endsAfter hp t
    obtain rfl := hend.unique hend'
    exact absurd (hfew rfl) (Nat.not_le.mpr (lt_of_lt_of_le hm hpolls))

theorem playPatterns_spec (hh : host.NeverStops) (polls : Nat) (is : List (Fin c.patterns.length))
    (t : Time) (s : Session c σ) (hp : ∀ i ∈ is, (c.patternAt i).IsPlayable)
    (hpolls : ∀ i ∈ is, (c.patternAt i).pollBound t ≤ polls)
    (hlater : ∀ i ∈ is, (c.patternAt i).pollBound Time.start ≤ polls)
    (hstop : s.player.stopRequested = false) :
    ∃ s' cues ending, playPatterns host (fun _ => .free) polls is t s = (s', ending) ∧
      s'.cues = s.cues ++ cues ∧
      Performs s.player.metronome (inTurn t (is.map c.patternAt)) cues ending := by
  induction is generalizing t s with
  | nil => exact ⟨s, [], .finished, rfl, by simp, .done⟩
  | cons i is ih =>
    rw [playPatterns, if_neg (by simp [hstop])]
    obtain ⟨s₁, part, ending, hrun, hmet, hkept, hcues, hpart⟩ := playPattern_performs hh s
      (hp i List.mem_cons_self) (hpolls i List.mem_cons_self)
    rw [hrun]
    by_cases hfinished : ending = .finished
    · subst hfinished
      obtain ⟨s₂, cues, ending, hrest, hcues₂, hperforms⟩ := ih Time.start s₁
        (fun j hj => hp j (List.mem_cons_of_mem _ hj))
        (fun j hj => hlater j (List.mem_cons_of_mem _ hj))
        (fun j hj => hlater j (List.mem_cons_of_mem _ hj)) (by rw [hkept, hstop])
      rw [hmet, inTurn_start] at hperforms
      refine ⟨s₂, part ++ cues, ending, hrest, ?_, .next hpart hperforms⟩
      rw [hcues₂, hcues, List.append_assoc]
    · refine ⟨s₁, part, ending, ?_, hcues, .last hpart hfinished⟩
      cases ending with
      | finished => exact absurd rfl hfinished
      | unfinished | badTempo e | tooLong e => rfl

/-! ## A run -/

theorem map_drop_finRange (c : Composition) (n : Nat) :
    ((List.finRange c.patterns.length).drop n).map c.patternAt = c.patterns.drop n := by
  rw [List.map_drop]
  exact congrArg (List.drop n) (List.map_getElem_finRange c.patterns)

/-- A run performs the patterns from where the player stands on. -/
theorem run_performs (hh : host.NeverStops) {polls : Nat} (s : Session c σ)
    (hp : ∀ p ∈ c.patterns.drop s.player.index, p.IsPlayable)
    (hpolls : c.pollBound s.player.startTime ≤ polls) (hstop : s.player.stopRequested = false) :
    ∃ s' cues ending, run host (fun _ => .free) polls s = (s', ending) ∧
      s'.cues = s.cues ++ .callback (.ready c.name) :: cues ++ c.closing ending ∧
      Performs s.player.metronome (c.itinerary s.player.index s.player.startTime) cues ending := by
  have hready := tell_player hh s (.ready c.name)
  have hmem : ∀ i ∈ (List.finRange c.patterns.length).drop s.player.index,
      c.patternAt i ∈ c.patterns.drop s.player.index := by
    intro i hi
    rw [← map_drop_finRange]
    exact List.mem_map_of_mem hi
  have hbound : ∀ i : Fin c.patterns.length, c.patternAt i ∈ c.patterns := fun i =>
    List.getElem_mem i.isLt
  obtain ⟨s', cues, ending, hrun, hcues, hperforms⟩ := playPatterns_spec hh polls
    ((List.finRange c.patterns.length).drop s.player.index) s.player.startTime
    (s.tell host (.ready c.name)) (fun i hi => hp _ (hmem i hi))
    (fun i _ => le_trans (Composition.pollBound_le (hbound i) _).1 hpolls)
    (fun i _ => le_trans (Composition.pollBound_le (hbound i) _).2 hpolls) (by rw [hready, hstop])
  rw [map_drop_finRange, hready] at hperforms
  rw [tell_cues] at hcues
  rw [run, hready, hrun]
  cases ending with
  | finished =>
    refine ⟨_, cues, _, rfl, ?_, hperforms⟩
    rw [tell_cues, hcues]
    simp [Composition.closing]
  | unfinished | badTempo e | tooLong e =>
    exact ⟨s', cues, _, rfl, by simp [hcues, Composition.closing], hperforms⟩

/-- What the patterns perform is what a run comes to. -/
theorem run_of_performs (hh : host.NeverStops) {polls : Nat} (s : Session c σ)
    (hp : ∀ p ∈ c.patterns.drop s.player.index, p.IsPlayable)
    (hpolls : c.pollBound s.player.startTime ≤ polls) (hstop : s.player.stopRequested = false)
    {cues : List Cue} {ending : Ending}
    (hperforms : Performs s.player.metronome
      (c.itinerary s.player.index s.player.startTime) cues ending) :
    ∃ s', run host (fun _ => .free) polls s = (s', ending) ∧
      s'.cues = s.cues ++ .callback (.ready c.name) :: cues ++ c.closing ending := by
  obtain ⟨s', cues', ending', hrun, hcues, hperforms'⟩ := run_performs hh s hp hpolls hstop
  obtain ⟨rfl, rfl⟩ := hperforms.unique hperforms'
  exact ⟨s', hrun, hcues⟩

/-- With tempos that timers keep and times that can be written, a run plays each pattern to its end. -/
theorem run_spec (hh : host.NeverStops) {polls : Nat} (s : Session c σ)
    (hc : c.PlayableFrom s.player.index)
    (hlogged : c.IsLoggedFrom s.player.index s.player.startTime)
    (hpolls : c.pollBound s.player.startTime ≤ polls) (hstop : s.player.stopRequested = false) :
    ∃ s' parts, run host (fun _ => .free) polls s = (s', .finished) ∧
      s'.cues = s.cues ++ .callback (.ready c.name) :: parts.flatten ++
        [.callback (.completed c.name)] ∧
      List.Forall₂ (fun visit part => visit.1.Played s.player.metronome visit.2 part)
        (c.itinerary s.player.index s.player.startTime) parts := by
  obtain ⟨s', cues, ending, hrun, hcues, hperforms⟩ := run_performs hh s
    (fun p hp => (hc p hp).1) hpolls hstop
  obtain rfl := hperforms.finished_iff.mpr fun visit hvisit =>
    ⟨(hc _ (Composition.mem_itinerary hvisit)).2, hlogged visit hvisit⟩
  obtain ⟨parts, rfl, hparts⟩ := hperforms.parts
  exact ⟨s', parts, hrun, hcues, hparts⟩

end Session

end Cadence
