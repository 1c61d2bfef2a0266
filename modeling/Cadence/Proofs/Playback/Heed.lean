import Cadence.Proofs.Playback.Outcome

/-!
# A player that heeds its host

A host may stop the player in any callback, and decide it on everything that it has heard. A pulse is
told to its end even then, apart from a beat after the bar; no other pulse and no other pattern
follows. The timer may be any: a poll that fires nothing changes nothing.
-/

namespace Cadence

/-- A host that decides in every callback whether to stop, on all that it has heard, this callback
last, and that does not stop between callbacks. -/
structure Host.Decides {σ α : Type} (host : Host σ α) (heard : σ → List Callback)
    (stops : List Callback → Bool) : Prop where
  hears : ∀ state cb, heard (host.hear state cb).1 = heard state ++ [cb]
  decides : ∀ state cb, (host.hear state cb).2 = stops (heard state ++ [cb])
  waits : ∀ state fired, heard (host.polled state fired).1 = heard state ∧
    (host.polled state fired).2 = false

/-- Whether a host stops in one of some callbacks, after it has heard others. -/
def stopsIn (stops : List Callback → Bool) : List Callback → List Callback → Bool
  | _, [] => false
  | past, cb :: rest => stops (past ++ [cb]) || stopsIn stops (past ++ [cb]) rest

variable {c : Composition} {σ α : Type} {host : Host σ α} {heard : σ → List Callback}
  {stops : List Callback → Bool} {past : List Callback} {metronome : Bool}

theorem stopsIn_append (past as bs : List Callback) :
    stopsIn stops past (as ++ bs) = (stopsIn stops past as || stopsIn stops (past ++ as) bs) := by
  induction as generalizing past with
  | nil => simp [stopsIn]
  | cons cb as ih => simp [stopsIn, ih, Bool.or_assoc]

theorem stopsIn_of_stop {before after : List Callback} {cb : Callback}
    (h : stops (past ++ before ++ [cb]) = true) :
    stopsIn stops past (before ++ cb :: after) = true := by
  rw [stopsIn_append, stopsIn, h]
  simp

namespace Cue

@[simp] theorem callbacks_append (as bs : List Cue) :
    callbacks (as ++ bs) = callbacks as ++ callbacks bs := List.filterMap_append

@[simp] theorem callbacks_callback (cb : Callback) (rest : List Cue) :
    callbacks (.callback cb :: rest) = cb :: callbacks rest := rfl

@[simp] theorem callbacks_nil : callbacks [] = [] := rfl

/-- Cues without a beat. -/
def hush (t : Time) (cues : List Cue) : List Cue := cues.filter (· ≠ .callback (.beat t))

end Cue

theorem clickCues_silent (metronome : Bool) (index : Nat) :
    Cue.callbacks (clickCues metronome index) = [] ∧
      ∀ t, Cue.hush t (clickCues metronome index) = clickCues metronome index := by
  unfold clickCues
  cases metronome <;> simp [Cue.callbacks, Cue.callback?, Cue.hush]

theorem hush_due (p : Pattern) (t : Time) :
    Cue.hush t ((p.due? t).toList.flatMap Event.cues) = (p.due? t).toList.flatMap Event.cues := by
  rw [Cue.hush, List.filter_eq_self]
  intro cue hcue
  obtain ⟨e, -, hmem⟩ := List.mem_flatMap.mp hcue
  obtain ⟨hnone, -⟩ := Cue.of_mem_eventCues hmem
  suffices cue ≠ .callback (.beat t) by simpa
  rintro rfl
  cases hnone

/-- Without its beat a pulse that begins a bar goes on with the interval. -/
theorem hush_pulseCues {p : Pattern} {t : Time} (hint : t.interval = 1) (hbeat : t.beat = 1) :
    Cue.hush t (p.pulseCues metronome t) =
      .callback (.bar t) :: clickCues metronome barClick ++
        .callback (.interval t) :: (p.due? t).toList.flatMap Event.cues := by
  have hdue := hush_due p t
  have hclick := (clickCues_silent metronome barClick).2 t
  simp only [Cue.hush, ne_eq, decide_not] at hdue hclick
  simp [Pattern.pulseCues, Time.clockCues, Cue.hush, hint, hbeat, List.filter_append, hdue, hclick]

/-- A pulse as it is told: after a stop in its bar there is no beat. -/
def Pattern.pulseHeard (p : Pattern) (metronome : Bool) (stops : List Callback → Bool)
    (past : List Callback) (t : Time) : List Cue :=
  if (t.interval = 1 ∧ t.beat = 1) ∧ stops (past ++ [.bar t]) = true then
    Cue.hush t (p.pulseCues metronome t)
  else p.pulseCues metronome t

/-! ## One pulse -/

/-- A player that was asked to stop, or was not. -/
def Player.heed (p : Player c) (stopped : Bool) : Player c :=
  { p with isPlaying := p.isPlaying && !stopped, stopRequested := p.stopRequested || stopped }

theorem Player.heed_heed (p : Player c) (a b : Bool) : (p.heed a).heed b = p.heed (a || b) := by
  simp [heed, Bool.and_assoc, Bool.or_assoc]

theorem Player.heed_false (p : Player c) : p.heed false = p := by
  simp [heed]

/-- A player with one more event over. -/
def Player.further (p : Player c) : Player c := { p with cursor := p.cursor + 1 }

namespace Session

/-- A session in which cues are added, and in which the player would be another if nobody stopped
it. -/
structure Hears (heard : σ → List Callback) (stops : List Callback → Bool) (s s' : Session c σ)
    (part : List Cue) (player : Player c) : Prop where
  cues : s'.cues = s.cues ++ part
  history : heard s'.host = heard s.host ++ Cue.callbacks part
  player : s'.player = player.heed (stopsIn stops (heard s.host) (Cue.callbacks part))

theorem Hears.trans {s s₁ s₂ : Session c σ} {as bs : List Cue} {p : Player c}
    {f : Player c → Player c} (hf : ∀ b, f (p.heed b) = (f p).heed b)
    (ha : Hears heard stops s s₁ as p) (hb : Hears heard stops s₁ s₂ bs (f s₁.player)) :
    Hears heard stops s s₂ (as ++ bs) (f p) where
  cues := by rw [hb.cues, ha.cues, List.append_assoc]
  history := by rw [hb.history, ha.history, Cue.callbacks_append, List.append_assoc]
  player := by
    rw [hb.player, ha.player, hf, Player.heed_heed, ha.history, Cue.callbacks_append, stopsIn_append]

theorem tell_hears (hd : host.Decides heard stops) (s : Session c σ) (cb : Callback) :
    Hears heard stops s (s.tell host cb) [.callback cb] s.player where
  cues := tell_cues _ s cb
  history := hd.hears s.host cb
  player := by
    have hasks := hd.decides s.host cb
    cases hstop : stops (heard s.host ++ [cb]) <;> rw [hstop] at hasks <;>
      simp [tell, hasks, Cue.callbacks, Cue.callback?, stopsIn, hstop, Player.heed, Player.stop]

theorem endPoll_hears (hd : host.Decides heard stops) (s : Session c σ) (fired : Bool) :
    Hears heard stops s (s.endPoll host fired) [] s.player where
  cues := by simp [endPoll_cues]
  history := by simp [endPoll, (hd.waits s.host fired).1]
  player := by simp [endPoll, (hd.waits s.host fired).2, stopsIn, Player.heed_false]

theorem clickIf_hears (heard : σ → List Callback) (stops : List Callback → Bool) (s : Session c σ)
    (condition : Bool) (index : Nat) :
    Hears heard stops s (s.clickIf condition index)
      (if condition then clickCues s.player.metronome index else []) s.player where
  cues := clickIf_cues s condition index
  history := by
    have hhost : (s.clickIf condition index).host = s.host := by
      unfold clickIf
      split <;> rfl
    rw [hhost]
    cases condition <;> simp [(clickCues_silent _ index).1]
  player := by
    rw [clickIf_player]
    cases condition <;> simp [(clickCues_silent _ index).1, stopsIn, Player.heed_false]

theorem onBar_hears (hd : host.Decides heard stops) (s : Session c σ) (t : Time)
    (hplay : s.player.isPlaying = true) :
    Hears heard stops s (s.onBar host t)
      (.callback (.bar t) :: clickCues s.player.metronome barClick) s.player := by
  have htold := tell_hears hd s (.bar t)
  have hclick := clickIf_hears heard stops (s.tell host (.bar t)) true barClick
  rw [onBar, if_pos hplay]
  simpa [htold.player, Player.heed] using htold.trans (f := id) (fun _ => rfl) hclick

theorem onBeat_hears (hd : host.Decides heard stops) (s : Session c σ) (t : Time)
    (hplay : s.player.isPlaying = true) :
    Hears heard stops s (s.onBeat host t) (.callback (.beat t) ::
      if t.beat = 1 then [] else clickCues s.player.metronome beatClick) s.player := by
  have htold := tell_hears hd s (.beat t)
  have hclick := clickIf_hears heard stops (s.tell host (.beat t)) (t.beat != 1) beatClick
  rw [onBeat, if_pos hplay]
  simpa [htold.player, Player.heed, bne] using htold.trans (f := id) (fun _ => rfl) hclick

theorem fire_hears (hd : host.Decides heard stops) (s : Session c σ) (e : Event) :
    Hears heard stops s (s.fire host e) e.cues s.player.further := by
  have hsilent : Cue.callbacks (e.pitches.map fun pitch => Cue.play (pitch - lowestNote)) = [] := by
    simp [Cue.callbacks, List.filterMap_map, Cue.callback?]
  have hsounds : Hears heard stops (s.tell host (.event e)) (s.fire host e)
      (e.pitches.map fun pitch => .play (pitch - lowestNote))
      (s.tell host (.event e)).player.further := by
    refine ⟨by simp [fire, cues], ?_, ?_⟩
    · rw [hsilent, List.append_nil]
      rfl
    · rw [hsilent, stopsIn, Player.heed_false]
      rfl
  exact (tell_hears hd s (.event e)).trans (fun _ => rfl) hsounds

end Session

/-- What a pulse does to a player that nobody stops: its events up to this time are over, and so may
be its pattern. -/
def Player.pass (t : Time) (p : Player c) : Player c :=
  { p with
    isPlaying := p.isPlaying && !decide (p.pattern.IsOver t)
    cursor := p.pattern.indexFrom (t.advance p.pattern.signature) }

theorem Player.pass_of_playing {p : Player c} {t : Time} (hplay : p.isPlaying = true) :
    p.pass t = Session.played p t := by
  simp [pass, Session.played, hplay]

theorem Player.pass_heed (t : Time) (p : Player c) (b : Bool) :
    (p.heed b).pass t = (p.pass t).heed b := by
  simp only [pass, heed, Bool.and_right_comm]
  rfl

theorem Player.pass_eq_self {t : Time} {p : Player c} (hover : ¬p.pattern.IsOver t)
    (hcursor : p.pattern.indexFrom (t.advance p.pattern.signature) = p.cursor) : p.pass t = p := by
  simp [pass, hover, hcursor]

namespace Session

theorem onInterval_hears (hd : host.Decides heard stops) (s : Session c σ) (t : Time)
    (hp : s.player.pattern.IsPlayable) (hcursor : s.player.cursor = s.player.pattern.indexFrom t) :
    Hears heard stops s (s.onInterval host t) (.callback (.interval t) ::
      (s.player.pattern.due? t).toList.flatMap Event.cues) (s.player.pass t) := by
  have hnext := Pattern.indexFrom_advance hp t
  rw [← hcursor] at hnext
  rw [onInterval, hcursor, getElem?_indexFrom hp.rising]
  cases hl : s.player.pattern.toCome t with
  | nil =>
    have hnone := Pattern.due?_eq_none_of_toCome hl
    have hover : s.player.pattern.IsOver t ↔ t.IsBarEnd s.player.pattern.signature := by
      rw [Pattern.IsOver, and_iff_left (Pattern.toCome_eq_nil_iff.mp hl)]
    rw [hnone] at hnext ⊢
    simp only [List.head?_nil, Option.isNone_none, Bool.true_and, decide_eq_true_eq, ← hover]
    by_cases hend : s.player.pattern.IsOver t
    · have hended : Hears heard stops s (s.mapPlayer ({ · with isPlaying := false })) []
          (s.player.pass t) := by
        refine ⟨by simp [cues, mapPlayer], by simp [mapPlayer], ?_⟩
        simp [mapPlayer, Player.pass, hend, hnext, stopsIn, Player.heed_false]
      rw [if_pos hend]
      exact hended.trans (f := id) (fun _ => rfl) (tell_hears hd _ _)
    · rw [if_neg hend, Player.pass_eq_self hend (by simpa using hnext)]
      exact tell_hears hd s _
  | cons e rest =>
    have hover : ¬s.player.pattern.IsOver t := by
      rintro ⟨-, hall⟩
      rw [Pattern.toCome_eq_nil_iff.mpr hall] at hl
      cases hl
    have hdue := Pattern.due?_eq_of_head? hp (by rw [hl]; rfl : _ = some e)
    simp only [List.head?_cons, Option.isNone_some, Bool.false_and, Bool.false_eq_true, if_false]
    by_cases he : e.time = t
    · rw [if_pos he] at hdue ⊢
      rw [hdue] at hnext ⊢
      have hpass : s.player.pass t = s.player.further := by
        simp [Player.pass, Player.further, hover, hnext]
      have hfired := fire_hears hd (s.tell host (.interval t)) e
      rw [hpass]
      simpa using (tell_hears hd s (.interval t)).trans (fun _ => rfl) hfired
    · rw [if_neg he] at hdue ⊢
      rw [hdue] at hnext ⊢
      rw [Player.pass_eq_self hover (by simpa using hnext)]
      exact tell_hears hd s _

/-- A pulse is told as far as the stops in it allow, and the player heeds them. -/
theorem pulse_hears (hd : host.Decides heard stops) (s : Session c σ) (t : Time)
    (hp : s.player.pattern.IsPlayable) (hplay : s.player.isPlaying = true)
    (hcursor : s.player.cursor = s.player.pattern.indexFrom t) :
    Hears heard stops s (s.pulse host t)
      (s.player.pattern.pulseHeard s.player.metronome stops (heard s.host) t)
      (s.player.pass t) := by
  -- whatever came before the interval, the player stands at the same place of the same pattern
  have hinterval : ∀ {s' : Session c σ} {part : List Cue},
      Hears heard stops s s' part s.player →
        Hears heard stops s (s'.onInterval host t) (part ++ .callback (.interval t) ::
          (s.player.pattern.due? t).toList.flatMap Event.cues) (s.player.pass t) := by
    intro s' part hs'
    have hpattern : s'.player.pattern = s.player.pattern := by
      rw [hs'.player]
      rfl
    refine hs'.trans (fun b => Player.pass_heed t s.player b) ?_
    have hlast := onInterval_hears hd s' t (by rw [hpattern]; exact hp)
      (by rw [hpattern, hs'.player]; exact hcursor)
    rwa [hpattern] at hlast
  rw [pulse, Time.boundaries, Pattern.pulseHeard]
  by_cases hint : t.interval = 1
  · by_cases hbeat : t.beat = 1
    · have hbar := onBar_hears hd s t hplay
      have hplaying : (s.onBar host t).player.isPlaying = !stops (heard s.host ++ [.bar t]) := by
        rw [hbar.player]
        simp [Player.heed, hplay, stopsIn, (clickCues_silent _ barClick).1]
      simp only [hint, hbeat, if_true, true_and, List.cons_append, List.nil_append, List.foldl_cons,
        List.foldl_nil, onBoundary]
      cases hstop : stops (heard s.host ++ [.bar t]) with
      | true =>
        have hquiet : (s.onBar host t).onBeat host t = s.onBar host t := by
          rw [onBeat, if_neg (by simp [hplaying, hstop])]
        rw [hquiet, if_pos rfl, hush_pulseCues hint hbeat]
        exact hinterval hbar
      | false =>
        have hbt := hbar.trans (f := id) (fun _ => rfl)
          (onBeat_hears hd (s.onBar host t) t (by simp [hplaying, hstop]))
        have hall := hinterval hbt
        simpa [Pattern.pulseCues, Time.clockCues, hint, hbeat] using hall
    · have hall := hinterval (onBeat_hears hd s t hplay)
      simpa [Pattern.pulseCues, Time.clockCues, hint, hbeat, onBoundary] using hall
  · have hnothing : Hears heard stops s s [] s.player :=
      ⟨by simp, by simp, by simp [stopsIn, Player.heed_false]⟩
    simpa [Pattern.pulseCues, Time.clockCues, hint, onBoundary] using hinterval hnothing

end Session

/-! ## A pattern -/

/-- The pulses of a pattern as a host hears them, the first at a time. On the last of them, whose time
the clock shows in the end, the pattern is over or the host stops. There is none if the polls are used
up before. -/
inductive Pattern.Heard (p : Pattern) (metronome : Bool) (stops : List Callback → Bool) :
    List Callback → Time → List Cue → Option Time → Prop where
  | cut {past : List Callback} {t : Time} : Heard p metronome stops past t [] none
  | last {past : List Callback} {t : Time}
      (hlast : p.IsOver t ∨
        stopsIn stops past (Cue.callbacks (p.pulseHeard metronome stops past t)) = true) :
      Heard p metronome stops past t (p.pulseHeard metronome stops past t) (some t)
  | next {past : List Callback} {t : Time} {rest : List Cue} {stop? : Option Time}
      (hnot : ¬p.IsOver t)
      (hsilent : stopsIn stops past (Cue.callbacks (p.pulseCues metronome t)) = false)
      (hrest : Heard p metronome stops (past ++ Cue.callbacks (p.pulseCues metronome t))
        (t.advance p.signature) rest stop?) :
      Heard p metronome stops past t (p.pulseCues metronome t ++ rest) stop?

/-- The last word of a pattern whose pulses came to an end. -/
def Pattern.closing (p : Pattern) : Option Time → List Cue
  | some _ => [.callback (.patternEnd p)]
  | none => []

/-- How a pattern ends whose last pulse was at a time, or that had too few polls. -/
def Session.Ending.ofStop? : Option Time → Session.Ending
  | some stop => .ofStop stop
  | none => .unfinished

/-- A pattern as a host hears it, from a time on, and how this ends. -/
inductive Pattern.Attended (p : Pattern) (metronome : Bool) (stops : List Callback → Bool)
    (past : List Callback) (t : Time) : List Cue → Session.Ending → Prop where
  | unlogged {e : Yaml.TooLong} (hlong : t.tooLong? = some e) :
      Attended p metronome stops past t [] (.tooLong e)
  | noTempo (hshort : t.IsShort) (htempo : ¬p.HasTempo) :
      Attended p metronome stops past t [.callback (.patternBegin p)] (.badTempo p.badTempo)
  | played {pulses : List Cue} {stop? : Option Time} (hshort : t.IsShort) (htempo : p.HasTempo)
      (hpulses : p.Heard metronome stops (past ++ [.patternBegin p]) t pulses stop?) :
      Attended p metronome stops past t
        (.callback (.patternBegin p) :: pulses ++ p.closing stop?) (.ofStop? stop?)

theorem Pattern.pulseHeard_of_silent {p : Pattern} {t : Time}
    (h : stopsIn stops past (Cue.callbacks (p.pulseHeard metronome stops past t)) = false) :
    p.pulseHeard metronome stops past t = p.pulseCues metronome t := by
  rw [pulseHeard, if_neg]
  rintro ⟨⟨hint, hbeat⟩, hstop⟩
  rw [pulseHeard, if_pos ⟨⟨hint, hbeat⟩, hstop⟩, hush_pulseCues hint hbeat] at h
  simp [stopsIn, hstop] at h

namespace Session

/-- A session in which cues are added and a wish to stop is kept. -/
structure Follows (heard : σ → List Callback) (stops : List Callback → Bool) (s s' : Session c σ)
    (part : List Cue) : Prop where
  cues : s'.cues = s.cues ++ part
  history : heard s'.host = heard s.host ++ Cue.callbacks part
  stopRequested : s'.player.stopRequested =
    (s.player.stopRequested || stopsIn stops (heard s.host) (Cue.callbacks part))
  metronome : s'.player.metronome = s.player.metronome

theorem Hears.follows {s s' : Session c σ} {part : List Cue} {p : Player c}
    (h : Hears heard stops s s' part p) (hstop : p.stopRequested = s.player.stopRequested)
    (hmet : p.metronome = s.player.metronome) : Follows heard stops s s' part where
  cues := h.cues
  history := h.history
  stopRequested := by rw [h.player, Player.heed, hstop]
  metronome := by rw [h.player, Player.heed, hmet]

theorem Follows.refl (s : Session c σ) : Follows heard stops s s [] where
  cues := (List.append_nil _).symm
  history := (List.append_nil _).symm
  stopRequested := (Bool.or_false _).symm
  metronome := rfl

theorem Follows.trans {s s₁ s₂ : Session c σ} {as bs : List Cue}
    (ha : Follows heard stops s s₁ as) (hb : Follows heard stops s₁ s₂ bs) :
    Follows heard stops s s₂ (as ++ bs) where
  cues := by rw [hb.cues, ha.cues, List.append_assoc]
  history := by rw [hb.history, ha.history, Cue.callbacks_append, List.append_assoc]
  stopRequested := by
    rw [hb.stopRequested, ha.stopRequested, ha.history, Cue.callbacks_append, stopsIn_append,
      Bool.or_assoc]
  metronome := by rw [hb.metronome, ha.metronome]

theorem tell_follows (hd : host.Decides heard stops) (s : Session c σ) (cb : Callback) :
    Follows heard stops s (s.tell host cb) [.callback cb] :=
  (tell_hears hd s cb).follows rfl rfl

theorem begun_follows (hd : host.Decides heard stops) (s : Session c σ) (i : Fin c.patterns.length)
    (t : Time) :
    Follows heard stops s (begun host s i t) [.callback (.patternBegin (c.patternAt i))] := by
  have htold := tell_follows hd (s.mapPlayer ({ · with index := i }))
    (.patternBegin (c.patternAt i))
  exact ⟨htold.cues, htold.history, htold.stopRequested, htold.metronome⟩

theorem begun_pattern (hd : host.Decides heard stops) (s : Session c σ) (i : Fin c.patterns.length)
    (t : Time) : (begun host s i t).player.pattern = c.patternAt i := by
  have htold := (tell_hears hd (s.mapPlayer ({ · with index := i }))
    (.patternBegin (c.patternAt i))).player
  exact congrArg (fun p : Player c => c.patternAt p.index) htold

variable [Add α] [LT α] [DecidableLT α]

theorem pollWhilePlaying_hears (hd : host.Decides heard stops) (polls : Nat) {timer : Timer α}
    {s : Session c σ} {t : Time} (hdue : IsDue timer s.player t) :
    ∃ s' part stop?, pollWhilePlaying host polls timer s = (s', stop?) ∧
      Follows heard stops s s' part ∧
      s.player.pattern.Heard s.player.metronome stops (heard s.host) t part stop? ∧
      ∀ n, timer.pace = .free → s.player.pattern.EndsAfter t n → n < polls →
        ∃ m, m ≤ n ∧ stop? = some (t.advanceBy s.player.pattern.signature m) := by
  induction polls generalizing timer s t with
  | zero =>
    refine ⟨s, [], none, by rw [pollWhilePlaying, if_pos hdue.isPlaying], .refl s, .cut, ?_⟩
    intro n _ _ hn
    exact absurd hn (Nat.not_lt_zero n)
  | succ polls ih =>
    obtain ⟨hpace, hsame, hpoll⟩ := timer.poll_spec (host.now s.host)
    rw [pollWhilePlaying, if_pos hdue.isPlaying]
    generalize timer.poll (host.now s.host) = polled at hpace hsame hpoll
    obtain ⟨time?, timer'⟩ := polled
    rcases hpoll with ⟨rfl, hwaits, hstays⟩ | ⟨rfl, hshows, hnext⟩
    · -- nothing is due: the host is told so, and that is all
      have hwaited := endPoll_hears hd s false
      have hplayer : (s.endPoll host false).player = s.player := by
        rw [hwaited.player]
        exact Player.heed_false _
      have hheard : heard (s.endPoll host false).host = heard s.host := by
        rw [hwaited.history]
        exact List.append_nil _
      have hdue' := hdue.stay hsame hstays
      rw [← hplayer] at hdue'
      obtain ⟨s', part, stop?, hrun, hfollows, hpart, -⟩ := ih hdue'
      rw [hplayer, hheard] at hpart
      refine ⟨s', part, stop?, hrun, ?_, hpart, fun _ hfree => absurd hfree hwaits⟩
      simpa using (hwaited.follows rfl rfl).trans hfollows
    · have hpulse : Hears heard stops s ((s.pulse host t).endPoll host true)
          (s.player.pattern.pulseHeard s.player.metronome stops (heard s.host) t)
          (s.player.pass t) := by
        simpa using (pulse_hears hd s t hdue.isPlayable hdue.isPlaying hdue.cursor).trans (f := id)
          (fun _ => rfl) (endPoll_hears hd _ true)
      simp only [hdue.time]
      by_cases hlast : s.player.pattern.IsOver t ∨ stopsIn stops (heard s.host) (Cue.callbacks
          (s.player.pattern.pulseHeard s.player.metronome stops (heard s.host) t)) = true
      · have hquiet : ((s.pulse host t).endPoll host true).player.isPlaying = false := by
          rw [hpulse.player]
          rcases hlast with hover | hstop
          · simp [Player.heed, Player.pass, hover]
          · simp [Player.heed, hstop]
        refine ⟨_, _, some t, ?_, hpulse.follows rfl rfl, .last hlast,
          fun n _ _ _ => ⟨0, Nat.zero_le n, rfl⟩⟩
        rw [pollWhilePlaying_quiet hquiet, hshows.trans hdue.time]
      · obtain ⟨hnot, hsilent⟩ := not_or.mp hlast
        rw [Bool.not_eq_true] at hsilent
        have hfull := Pattern.pulseHeard_of_silent hsilent
        have hplayer : ((s.pulse host t).endPoll host true).player = played s.player t := by
          rw [hpulse.player, hsilent, Player.heed_false, Player.pass_of_playing hdue.isPlaying]
        have hpattern : (played s.player t).pattern = s.player.pattern := rfl
        have hdue' := hdue.advance hnot hsame hnext
        rw [← hplayer] at hdue'
        obtain ⟨s', part, stop?, hrun, hfollows, hpart, hends⟩ := ih hdue'
        rw [hplayer, hpattern, hpulse.history, hfull] at hpart
        rw [hplayer, hpattern, hpace] at hends
        rw [hfull] at hsilent hpulse
        refine ⟨s', _, stop?, hrun, (hpulse.follows rfl rfl).trans hfollows,
          .next hnot hsilent hpart, ?_⟩
        intro n hfree hend hn
        cases n with
        | zero => exact absurd (Pattern.endsAfter_zero.mp hend) hnot
        | succ n =>
          obtain ⟨m, hm, hstop⟩ := hends n hfree (Pattern.endsAfter_succ.mp hend).2 (by omega)
          exact ⟨m + 1, Nat.succ_le_succ hm, hstop⟩

/-- A pattern from its beginning to its end. Whether the host stops while it begins makes no
difference to its pulses. -/
theorem playPattern_hears (hd : host.Decides heard stops) (pace : Int → Pace α) (polls : Nat)
    {i : Fin c.patterns.length} (t : Time) (s : Session c σ) (hp : (c.patternAt i).IsPlayable) :
    ∃ s' part ending, playPattern host pace polls i t s = (s', ending) ∧
      Follows heard stops s s' part ∧
      (c.patternAt i).Attended s.player.metronome stops (heard s.host) t part ending ∧
      ((∀ bpm, pace bpm = .free) → (c.patternAt i).pollBound t ≤ polls →
        ending ≠ .unfinished ∧
          ((c.patternAt i).HasTempo → (c.patternAt i).IsLogged t → ending = .finished)) := by
  cases hlong : t.tooLong? with
  | some e =>
    refine ⟨_, [], _, playPattern_unlogged hlong _ _ _ s, ?_, .unlogged hlong, fun _ _ => ?_⟩
    · exact ⟨(List.append_nil _).symm, (List.append_nil _).symm, (Bool.or_false _).symm, rfl⟩
    · exact ⟨by simp, fun _ hlogged => absurd hlogged.1 (Time.not_isShort hlong)⟩
  | none =>
    have hshort := Time.tooLong?_eq_none.mp hlong
    have hbegun := begun_follows hd s i t
    by_cases htempo : (c.patternAt i).HasTempo
    · have hpattern := begun_pattern hd s i t
      obtain ⟨s', pulses, stop?, hrun, hfollows, hpulses, hends⟩ := pollWhilePlaying_hears hd polls
        (show IsDue ((c.patternAt i).timer (pace (c.patternAt i).bpm) t) (begun host s i t).player t
          from ⟨by rw [hpattern]; exact hp, by rw [hpattern]; rfl, rfl, rfl, by rw [hpattern]; rfl⟩)
      rw [hpattern, hbegun.metronome, hbegun.history] at hpulses
      rw [hpattern] at hends
      have hplayed := hbegun.trans hfollows
      rw [playPattern_eq hshort htempo, hrun]
      have hfinishes : (∀ bpm, pace bpm = .free) → (c.patternAt i).pollBound t ≤ polls →
          .ofStop? stop? ≠ Session.Ending.unfinished ∧ ((c.patternAt i).HasTempo →
            (c.patternAt i).IsLogged t → .ofStop? stop? = Session.Ending.finished) := by
        intro hfree hpolls
        obtain ⟨n, hn, hend⟩ := Pattern.exists_endsAfter hp t
        obtain ⟨m, hm, rfl⟩ := hends n (hfree _) hend (lt_of_lt_of_le hn hpolls)
        exact ⟨Session.Ending.ofStop_ne_unfinished _, fun _ hlogged =>
          Session.Ending.ofStop_eq_finished.mpr (hlogged.shown hp.beats hend hm)⟩
      have hattended := Pattern.Attended.played hshort htempo hpulses
      cases stop? with
      | some stop =>
        exact ⟨_, _, _, rfl, hplayed.trans (tell_follows hd s' _), hattended, hfinishes⟩
      | none =>
        exact ⟨s', _, _, rfl, by simpa [Pattern.closing] using hplayed, hattended, hfinishes⟩
    · refine ⟨_, _, _, playPattern_noTempo hshort htempo _ _ s, ?_, .noTempo hshort htempo,
        fun _ _ => ⟨by simp, fun h => absurd h htempo⟩⟩
      exact ⟨hbegun.cues, hbegun.history, hbegun.stopRequested, hbegun.metronome⟩

end Session

/-! ## A run -/

/-- Patterns in turn as a host hears them, after other callbacks. Once it has stopped, no pattern
begins. -/
inductive Attends (metronome : Bool) (stops : List Callback → Bool) :
    List Callback → List (Pattern × Time) → List Cue → Session.Ending → Prop where
  | done {past : List Callback} : Attends metronome stops past [] [] .finished
  | quit {past : List Callback} {visits : List (Pattern × Time)} (hquit : stopsIn stops [] past = true) :
      Attends metronome stops past visits [] .finished
  | next {past : List Callback} {p : Pattern} {t : Time} {part rest : List Cue}
      {visits : List (Pattern × Time)} {ending : Session.Ending}
      (hkeep : stopsIn stops [] past = false)
      (hpart : p.Attended metronome stops past t part .finished)
      (hrest : Attends metronome stops (past ++ Cue.callbacks part) visits rest ending) :
      Attends metronome stops past ((p, t) :: visits) (part ++ rest) ending
  | last {past : List Callback} {p : Pattern} {t : Time} {part : List Cue}
      {visits : List (Pattern × Time)} {ending : Session.Ending}
      (hkeep : stopsIn stops [] past = false)
      (hpart : p.Attended metronome stops past t part ending) (hbroken : ending ≠ .finished) :
      Attends metronome stops past ((p, t) :: visits) part ending

namespace Session

variable [Add α] [LT α] [DecidableLT α]

theorem playPatterns_hears (hd : host.Decides heard stops) (pace : Int → Pace α) (polls : Nat)
    (is : List (Fin c.patterns.length)) (t : Time) (s : Session c σ)
    (hp : ∀ i ∈ is, (c.patternAt i).IsPlayable)
    (hstop : s.player.stopRequested = stopsIn stops [] (heard s.host)) :
    ∃ s' cues ending, playPatterns host pace polls is t s = (s', ending) ∧
      s'.cues = s.cues ++ cues ∧
      Attends s.player.metronome stops (heard s.host) (inTurn t (is.map c.patternAt)) cues ending ∧
      ((∀ bpm, pace bpm = .free) → (∀ i ∈ is, (c.patternAt i).pollBound t ≤ polls ∧
        (c.patternAt i).pollBound Time.start ≤ polls) → ending ≠ .unfinished ∧
          ((∀ visit ∈ inTurn t (is.map c.patternAt), visit.1.HasTempo ∧ visit.1.IsLogged visit.2) →
            ending = .finished)) := by
  -- before each pattern the player knows whether the host has stopped in anything that it heard
  induction is generalizing t s with
  | nil =>
    exact ⟨s, [], .finished, rfl, (List.append_nil _).symm, .done,
      fun _ _ => ⟨by simp, fun _ => rfl⟩⟩
  | cons i is ih =>
    rw [playPatterns]
    cases hquit : stopsIn stops [] (heard s.host) with
    | true =>
      rw [hquit] at hstop
      rw [if_pos hstop]
      exact ⟨s, [], .finished, rfl, (List.append_nil _).symm, .quit hquit,
        fun _ _ => ⟨by simp, fun _ => rfl⟩⟩
    | false =>
      rw [hquit] at hstop
      rw [if_neg (by rw [hstop]; exact Bool.false_ne_true)]
      obtain ⟨s₁, part, ending, hrun, hfollows, hpart, hends⟩ :=
        playPattern_hears hd pace polls t s (hp i List.mem_cons_self)
      rw [hrun]
      by_cases hfinished : ending = .finished
      · subst hfinished
        have hstop₁ : s₁.player.stopRequested = stopsIn stops [] (heard s₁.host) := by
          rw [hfollows.stopRequested, hfollows.history, stopsIn_append, hstop, hquit,
            List.nil_append]
        obtain ⟨s₂, rest, ending, hrun₂, hcues₂, hrest, hends₂⟩ := ih Time.start s₁
          (fun j hj => hp j (List.mem_cons_of_mem _ hj)) hstop₁
        rw [hfollows.metronome, hfollows.history, inTurn_start] at hrest
        rw [inTurn_start] at hends₂
        refine ⟨s₂, _, ending, hrun₂, ?_, .next hquit hpart hrest, ?_⟩
        · rw [hcues₂, hfollows.cues, List.append_assoc]
        · intro hfree hpolls
          obtain ⟨hends₂, hfinishes⟩ := hends₂ hfree fun j hj => by
            have hstart := (hpolls j (List.mem_cons_of_mem _ hj)).2
            exact ⟨hstart, hstart⟩
          exact ⟨hends₂, fun hall => hfinishes (List.forall_mem_cons.mp hall).2⟩
      · refine ⟨s₁, part, ending, ?_, hfollows.cues, .last hquit hpart hfinished, ?_⟩
        · cases ending with
          | finished => exact absurd rfl hfinished
          | unfinished | badTempo e | tooLong e => rfl
        · intro hfree hpolls
          obtain ⟨hne, hfinishes⟩ := hends hfree (hpolls i List.mem_cons_self).1
          refine ⟨hne, fun hall => ?_⟩
          obtain ⟨htempo, hlogged⟩ := (List.forall_mem_cons.mp hall).1
          exact hfinishes htempo hlogged

/-- A run whose host has heard nothing before, from where the player stands on. -/
theorem run_hears (hd : host.Decides heard stops) (pace : Int → Pace α) (polls : Nat)
    (s : Session c σ) (hp : ∀ p ∈ c.patterns.drop s.player.index, p.IsPlayable)
    (hnew : heard s.host = []) (hstop : s.player.stopRequested = false) :
    ∃ s' cues ending, run host pace polls s = (s', ending) ∧
      s'.cues = s.cues ++ .callback (.ready c.name) :: cues ++ c.closing ending ∧
      Attends s.player.metronome stops [.ready c.name]
        (c.itinerary s.player.index s.player.startTime) cues ending ∧
      ((∀ bpm, pace bpm = .free) → c.pollBound s.player.startTime ≤ polls → ending ≠ .unfinished ∧
        ((∀ visit ∈ c.itinerary s.player.index s.player.startTime,
          visit.1.HasTempo ∧ visit.1.IsLogged visit.2) → ending = .finished)) := by
  have hready := tell_hears hd s (.ready c.name)
  have hheard : heard (s.tell host (.ready c.name)).host = [.ready c.name] := by
    rw [hready.history, hnew]
    rfl
  have hasked : (s.tell host (.ready c.name)).player.stopRequested =
      stopsIn stops [] (heard (s.tell host (.ready c.name)).host) := by
    rw [hready.player, hheard, hnew, Player.heed, hstop, Bool.false_or]
    rfl
  have hindex : (s.tell host (.ready c.name)).player.index = s.player.index := by
    rw [hready.player]
    rfl
  have hstart : (s.tell host (.ready c.name)).player.startTime = s.player.startTime := by
    rw [hready.player]
    rfl
  have hmet : (s.tell host (.ready c.name)).player.metronome = s.player.metronome := by
    rw [hready.player]
    rfl
  have hmem : ∀ i ∈ (List.finRange c.patterns.length).drop s.player.index,
      c.patternAt i ∈ c.patterns.drop s.player.index := by
    intro i hi
    rw [← map_drop_finRange]
    exact List.mem_map_of_mem hi
  obtain ⟨s', cues, ending, hrun, hcues, hattends, hends⟩ := playPatterns_hears hd pace polls
    ((List.finRange c.patterns.length).drop s.player.index) s.player.startTime
    (s.tell host (.ready c.name)) (fun i hi => hp _ (hmem i hi)) hasked
  rw [map_drop_finRange] at hattends hends
  rw [hmet, hheard] at hattends
  have hfinishes := fun hfree (hpolls : c.pollBound s.player.startTime ≤ polls) =>
      hends hfree fun i _ => by
    obtain ⟨hfirst, hlater⟩ := Composition.pollBound_le (c := c) (p := c.patternAt i)
      (List.getElem_mem i.isLt) s.player.startTime
    exact ⟨le_trans hfirst hpolls, le_trans hlater hpolls⟩
  rw [run, hindex, hstart, hrun]
  rw [hready.cues] at hcues
  cases ending with
  | finished =>
    refine ⟨_, cues, .finished, rfl, ?_, hattends, hfinishes⟩
    rw [tell_cues, hcues]
    simp [Composition.closing]
  | unfinished | badTempo e | tooLong e =>
    exact ⟨s', cues, _, rfl, by simp [hcues, Composition.closing], hattends, hfinishes⟩

end Session

end Cadence
