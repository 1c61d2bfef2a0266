import Cadence.Proofs.Playback.Heed

/-!
# A player that is stopped

After a callback in which the host stops, the rest of its pulse is told, then the end of its pattern,
then that the run is completed, and nothing else. There is one exception. When a pattern begins the
player starts to play after the host was told so, and forgets a stop: this pattern is played on, and
only the patterns after it are skipped.
-/

namespace Cadence

variable {c : Composition} {σ α : Type} {host : Host σ α} {heard : σ → List Callback}
  {stops : List Callback → Bool} {past : List Callback} {metronome : Bool} {p : Pattern} {t : Time}
  {visits : List (Pattern × Time)} {ending : Session.Ending} {stop? : Option Time}

/-- A cue among others is one of the first of them or one of the others. -/
theorem append_eq_split {as bs before after : List Cue} {cue : Cue}
    (h : as ++ bs = before ++ cue :: after) :
    (∃ more, as = before ++ cue :: more ∧ after = more ++ bs) ∨
      ∃ more, before = as ++ more ∧ bs = more ++ cue :: after := by
  rcases List.append_eq_append_iff.mp h with ⟨more, hbefore, hbs⟩ | ⟨more, has, hafter⟩
  · exact .inr ⟨more, hbefore, hbs⟩
  · cases more with
    | nil => exact .inr ⟨[], by simpa using has.symm, hafter.symm⟩
    | cons a more =>
      obtain ⟨rfl, rfl⟩ := List.cons_eq_cons.mp hafter
      exact .inl ⟨more, has, rfl⟩

/-! ## The pattern in progress -/

namespace Cue

/-- The pattern in progress after one more cue. -/
def progress (now? : Option Pattern) : Cue → Option Pattern
  | .callback (.patternBegin p) => some p
  | .callback (.patternEnd _) => none
  | _ => now?

/-- The pattern that has begun and not ended. -/
def inProgress? (cues : List Cue) : Option Pattern := cues.foldl progress none

theorem progress_eq {cue : Cue} (h : cue.isBegin = false ∧ cue.isEnd = false)
    (now? : Option Pattern) : progress now? cue = now? := by
  obtain ⟨hbegin, hend⟩ := h
  unfold progress
  split
  · cases hbegin
  · cases hend
  · rfl

theorem inProgress?_begin {cues : List Cue}
    (h : ∀ cue ∈ cues, cue.isBegin = false ∧ cue.isEnd = false) :
    inProgress? (.callback (.patternBegin p) :: cues) = some p := by
  have hkept : cues.foldl progress (some p) = some p := by
    induction cues with
    | nil => rfl
    | cons cue cues ih =>
      rw [List.foldl_cons, progress_eq (h cue List.mem_cons_self)]
      exact ih fun cue hcue => h cue (List.mem_cons_of_mem _ hcue)
  exact hkept

theorem inProgress?_append {bs : List Cue} (h : inProgress? bs = some p) (as : List Cue) :
    inProgress? (as ++ bs) = some p := by
  rw [inProgress?, List.foldl_append]
  generalize as.foldl progress none = now?
  unfold inProgress? at h
  induction bs with
  | nil => cases h
  | cons b bs ih =>
    rw [List.foldl_cons] at h ⊢
    by_cases hkept : b.isBegin = false ∧ b.isEnd = false
    · rw [progress_eq hkept] at h ⊢
      exact ih h
    · -- what was in progress before is forgotten
      have hsame : progress now? b = progress none b := by
        unfold progress
        split
        · rfl
        · rfl
        · simp_all [isBegin, isEnd]
      rw [hsame]
      exact h

end Cue

/-! ## In a pattern -/

namespace Pattern

theorem of_mem_pulseHeard {cue : Cue} (h : cue ∈ p.pulseHeard metronome stops past t) :
    cue.isBegin = false ∧ cue.isEnd = false := by
  unfold pulseHeard at h
  split_ifs at h
  · exact (Cue.of_mem_pulseCues (List.mem_of_mem_filter h)).2
  · exact (Cue.of_mem_pulseCues h).2

/-- A pulse tells its time, the interval last. -/
theorem getLast?_times_pulseHeard (p : Pattern) (metronome : Bool) (stops : List Callback → Bool)
    (past : List Callback) (t : Time) :
    (Cue.times (p.pulseHeard metronome stops past t)).getLast? = some t := by
  have htold : ∀ cue ∈ p.pulseHeard metronome stops past t, cue ∈ p.pulseCues metronome t := by
    unfold pulseHeard
    split_ifs
    · exact fun _ => List.mem_of_mem_filter
    · exact fun _ => id
  have hinterval : .callback (.interval t) ∈ p.pulseHeard metronome stops past t := by
    have hfull : .callback (.interval t) ∈ p.pulseCues metronome t := by
      simp [pulseCues, Time.clockCues]
    unfold pulseHeard
    split_ifs
    · exact List.mem_filter.mpr ⟨hfull, by simp⟩
    · exact hfull
  have hmem : t ∈ Cue.times (p.pulseHeard metronome stops past t) :=
    List.mem_filterMap.mpr ⟨_, hinterval, rfl⟩
  have hne := List.ne_nil_of_mem hmem
  rw [List.getLast?_eq_some_getLast hne]
  obtain ⟨cue, hcue, htime⟩ := List.mem_filterMap.mp (List.getLast_mem hne)
  obtain ⟨hself | hnone, -⟩ := Cue.of_mem_pulseCues (htold cue hcue)
  · exact htime.symm.trans hself
  · rw [hnone] at htime
    cases htime

theorem Heard.of_mem {cues : List Cue} (h : p.Heard metronome stops past t cues stop?) :
    ∀ cue ∈ cues, cue.isBegin = false ∧ cue.isEnd = false := by
  induction h with
  | cut => exact fun _ hcue => by cases hcue
  | last _ => exact fun _ hcue => of_mem_pulseHeard hcue
  | next _ _ _ ih =>
    intro cue hcue
    rcases List.mem_append.mp hcue with hpulse | hrest
    · exact (Cue.of_mem_pulseCues hpulse).2
    · exact ih cue hrest

theorem Heard.getLast?_times {cues : List Cue} {u : Time}
    (h : p.Heard metronome stops past t cues (some u)) : (Cue.times cues).getLast? = some u := by
  generalize hstop : some u = stop? at h
  induction h with
  | cut => cases hstop
  | last _ =>
    obtain rfl := Option.some.inj hstop
    exact getLast?_times_pulseHeard _ _ _ _ _
  | next _ _ _ ih => rw [Cue.times_append, List.getLast?_append, ih hstop, ← hstop, Option.some_or]

/-- After a stop in a pulse the rest of this pulse is heard and no other. -/
theorem Heard.after_stop {cues before after : List Cue} {cb : Callback}
    (h : p.Heard metronome stops past t cues stop?) (hsplit : cues = before ++ .callback cb :: after)
    (hstop : stops (past ++ Cue.callbacks before ++ [cb]) = true) :
    ∃ u earlier told, stop? = some u ∧ before = earlier ++ told ∧
      p.pulseHeard metronome stops (past ++ Cue.callbacks earlier) u =
        told ++ .callback cb :: after := by
  induction h generalizing before with
  | cut => simp at hsplit
  | @last past t _ => exact ⟨t, [], before, rfl, rfl, by simpa using hsplit⟩
  | @next past t rest stop? _ hsilent _ ih =>
    rcases append_eq_split hsplit with ⟨more, hpulse, -⟩ | ⟨more, rfl, hrest⟩
    · -- a pulse with a stop in it is the last
      rw [hpulse, Cue.callbacks_append, Cue.callbacks_callback, stopsIn_of_stop hstop] at hsilent
      cases hsilent
    · rw [Cue.callbacks_append, ← List.append_assoc] at hstop
      obtain ⟨u, earlier, told, hlast, rfl, htold⟩ := ih hrest hstop
      refine ⟨u, p.pulseCues metronome t ++ earlier, told, hlast, by simp, ?_⟩
      rwa [Cue.callbacks_append, ← List.append_assoc]

/-- A pattern that is played to its end begins once. -/
theorem Attended.countP_begin {part : List Cue}
    (h : p.Attended metronome stops past t part .finished) : part.countP Cue.isBegin = 1 := by
  generalize hfinished : Session.Ending.finished = ending at h
  cases h with
  | unlogged _ | noTempo _ _ => cases hfinished
  | @played pulses stop? _ _ hpulses =>
    have hnone : pulses.countP Cue.isBegin = 0 := by
      refine List.countP_eq_zero.mpr fun cue hcue => ?_
      rw [(hpulses.of_mem cue hcue).1]
      exact Bool.false_ne_true
    cases stop? <;> simp [hnone, closing, Cue.isBegin, List.countP_cons]

end Pattern

/-! ## In a run -/

/-- What comes after a callback in which the host stops, in a run through some patterns after other
callbacks. A pattern ends at the time that was told last in it. -/
inductive Composition.AfterStop (c : Composition) (metronome : Bool) (stops : List Callback → Bool)
    (past : List Callback) (visits : List (Pattern × Time)) :
    List Cue → Callback → List Cue → Session.Ending → Prop where
  | inReady {before : List Cue} :
      AfterStop c metronome stops past visits before (.ready c.name)
        [.callback (.completed c.name)] .finished
  | inPulse {earlier told rest : List Cue} {cb : Callback} {p : Pattern} {u : Time}
      (hprogress : Cue.inProgress? (earlier ++ told) = some p)
      (hpulse : p.pulseHeard metronome stops (past ++ Cue.callbacks earlier) u =
        told ++ .callback cb :: rest) :
      AfterStop c metronome stops past visits (earlier ++ told) cb
        (rest ++ .callback (.patternEnd p) :: c.closing (.ofStop u)) (.ofStop u)
  | inEnd {before : List Cue} {p : Pattern} {u : Time}
      (hlast : (Cue.times before).getLast? = some u) :
      AfterStop c metronome stops past visits before (.patternEnd p) (c.closing (.ofStop u))
        (.ofStop u)
  | inCompleted {before : List Cue} :
      AfterStop c metronome stops past visits before (.completed c.name) [] .finished
  /-- the stop is forgotten, and the pattern is played on -/
  | inBegin {before rest : List Cue} {p : Pattern} {t : Time} {ending : Session.Ending}
      (hvisit : visits[before.countP Cue.isBegin]? = some (p, t))
      (hpart : p.Attended metronome stops (past ++ Cue.callbacks before) t
        (.callback (.patternBegin p) :: rest) ending) :
      AfterStop c metronome stops past visits before (.patternBegin p) (rest ++ c.closing ending)
        ending

theorem Attends.of_stop {cues : List Cue} (h : Attends metronome stops past visits cues ending)
    (hstop : stopsIn stops [] past = true) : cues = [] ∧ ending = .finished := by
  cases h with
  | done | quit _ => exact ⟨rfl, rfl⟩
  | next hkeep _ _ | last hkeep _ _ =>
    rw [hstop] at hkeep
    cases hkeep

/-- What comes after a stop does not depend on what was played before. -/
theorem Composition.AfterStop.later {before after : List Cue} {cb : Callback} (part : List Cue)
    (h : c.AfterStop metronome stops (past ++ Cue.callbacks part)
      (visits.drop (part.countP Cue.isBegin)) before cb after ending) :
    c.AfterStop metronome stops past visits (part ++ before) cb after ending := by
  cases h with
  | inReady => exact .inReady
  | inCompleted => exact .inCompleted
  | inEnd hlast =>
    refine .inEnd ?_
    rw [Cue.times_append, List.getLast?_append, hlast, Option.some_or]
  | inPulse hprogress hpulse =>
    rw [List.append_assoc, ← Cue.callbacks_append] at hpulse
    rw [← List.append_assoc]
    refine .inPulse ?_ hpulse
    rw [List.append_assoc]
    exact Cue.inProgress?_append hprogress part
  | inBegin hvisit hpart =>
    rw [List.append_assoc past, ← Cue.callbacks_append] at hpart
    refine .inBegin ?_ hpart
    rw [List.countP_append, ← List.getElem?_drop]
    exact hvisit

/-- A stop in a pattern, from its beginning to its end. -/
theorem Pattern.Attended.afterStop {part before after : List Cue} {cb : Callback}
    (h : p.Attended metronome stops past t part ending)
    (hsplit : part = before ++ .callback cb :: after)
    (hstop : stops (past ++ Cue.callbacks before ++ [cb]) = true) :
    c.AfterStop metronome stops past ((p, t) :: visits) before cb (after ++ c.closing ending)
      ending := by
  have hpart := h
  cases h with
  | unlogged _ => simp at hsplit
  | noTempo _ _ =>
    obtain ⟨rfl, rfl, rfl⟩ : before = [] ∧ cb = .patternBegin p ∧ after = [] := by
      simpa [List.singleton_eq_append_iff] using hsplit
    exact .inBegin rfl (by simpa using hpart)
  | @played pulses stop? hshort htempo hpulses =>
    rw [List.cons_append] at hsplit hpart
    cases before with
    | nil =>
      obtain ⟨rfl, rfl⟩ : .patternBegin p = cb ∧ pulses ++ p.closing stop? = after := by
        simpa using hsplit
      exact .inBegin rfl (by simpa using hpart)
    | cons first before =>
      obtain ⟨rfl, hrest⟩ := List.cons_eq_cons.mp hsplit
      rcases append_eq_split hrest with ⟨more, hmore, rfl⟩ | ⟨more, rfl, hclosing⟩
      · have hpast : past ++ Cue.callbacks (.callback (.patternBegin p) :: before) =
            past ++ [.patternBegin p] ++ Cue.callbacks before := by simp
        rw [hpast] at hstop
        obtain ⟨u, earlier, told, rfl, rfl, hpulse⟩ := hpulses.after_stop hmore hstop
        have hkept : ∀ cue ∈ earlier ++ told, cue.isBegin = false ∧ cue.isEnd = false := by
          intro cue hcue
          exact hpulses.of_mem cue (by rw [hmore]; exact List.mem_append_left _ hcue)
        have hleft : c.AfterStop metronome stops past ((p, t) :: visits)
            ((.callback (.patternBegin p) :: earlier) ++ told) cb
            (more ++ .callback (.patternEnd p) :: c.closing (.ofStop u)) (.ofStop u) :=
          .inPulse (Cue.inProgress?_begin hkept) (by simpa using hpulse)
        simpa [Pattern.closing, Session.Ending.ofStop?] using hleft
      · cases stop? with
        | none => simp [Pattern.closing] at hclosing
        | some u =>
          obtain ⟨rfl, hcb, rfl⟩ : more = [] ∧ cb = .patternEnd p ∧ after = [] := by
            simpa [Pattern.closing, List.singleton_eq_append_iff] using hclosing
          rw [hcb, List.append_nil, List.nil_append]
          exact .inEnd hpulses.getLast?_times

theorem Attends.after_stop {cues before after : List Cue} {cb : Callback}
    (h : Attends metronome stops past visits cues ending)
    (hsplit : cues ++ c.closing ending = before ++ .callback cb :: after)
    (hstop : stops (past ++ Cue.callbacks before ++ [cb]) = true) :
    c.AfterStop metronome stops past visits before cb after ending := by
  -- on the patterns: a stop in the first of them keeps the others from beginning
  induction h generalizing before with
  | done | quit _ =>
    obtain ⟨rfl, hcb, rfl⟩ : before = [] ∧ cb = .completed c.name ∧ after = [] := by
      simpa [Composition.closing, List.singleton_eq_append_iff] using hsplit
    rw [hcb]
    exact .inCompleted
  | @next past p t part rest visits ending _ hpart hrest ih =>
    rw [List.append_assoc] at hsplit
    rcases append_eq_split hsplit with ⟨more, hmore, rfl⟩ | ⟨more, rfl, hmore⟩
    · -- nothing but the end of the run comes after this pattern
      obtain ⟨rfl, rfl⟩ : rest = [] ∧ ending = .finished := by
        refine hrest.of_stop ?_
        rw [hmore, stopsIn_append, List.nil_append, Cue.callbacks_append, Cue.callbacks_callback,
          stopsIn_of_stop hstop, Bool.or_true]
      exact hpart.afterStop hmore hstop
    · rw [Cue.callbacks_append, ← List.append_assoc] at hstop
      refine .later _ ?_
      rw [hpart.countP_begin]
      exact ih hmore hstop
  | @last past p t part visits ending _ hpart hbroken =>
    have hnothing : c.closing ending = [] := Composition.closing.eq_2 c ending hbroken
    rw [hnothing, List.append_nil] at hsplit
    simpa [hnothing] using hpart.afterStop (c := c) hsplit hstop

/-- A host may stop in any callback of a run, whatever the tempo of its timers: the rest of the pulse
comes after it, the end of the pattern and the end of the run. A stop while a pattern begins leaves
this pattern as it is, and only skips the others. -/
theorem stop_ends_the_run [Add α] [LT α] [DecidableLT α] (hd : host.Decides heard stops) (state : σ)
    (hnew : heard state = []) (metronome : Bool) (i : Fin c.patterns.length) (t : Time)
    (hp : ∀ p ∈ c.patterns.drop i, p.IsPlayable) (pace : Int → Pace α) (polls : Nat) :
    ∃ (player : Player c) (session : Session c σ) (ending : Session.Ending),
      (Player.new? c metronome).bind (·.start? t i) = some player ∧
      Session.run host pace polls { player, host := state } = (session, ending) ∧
      (∀ before cb after, session.cues = before ++ .callback cb :: after →
        stops (Cue.callbacks before ++ [cb]) = true →
          c.AfterStop metronome stops [] (c.itinerary i t) before cb after ending) ∧
      ((∀ bpm, pace bpm = .free) → c.pollBound t ≤ polls → ending ≠ .unfinished ∧
        ((∀ visit ∈ c.itinerary i t, visit.1.HasTempo ∧ visit.1.IsLogged visit.2) →
          ending = .finished)) := by
  obtain ⟨player, hstart, rfl, rfl, rfl, hasked⟩ := Player.new?_start? metronome i t
  obtain ⟨session, cues, ending, hrun, hcues, hattends, hends⟩ := Session.run_hears hd pace polls
    ({ player, host := state } : Session c σ) hp hnew hasked
  refine ⟨player, session, ending, hstart, hrun, ?_, hends⟩
  intro before cb after hsplit hstop
  rw [hcues] at hsplit
  have hrest : .callback (.ready c.name) :: (cues ++ c.closing ending) =
      before ++ .callback cb :: after := by simpa [Session.cues] using hsplit
  cases before with
  | nil =>
    obtain ⟨rfl, rfl⟩ : .ready c.name = cb ∧ cues ++ c.closing ending = after := by
      simpa using hrest
    obtain ⟨rfl, rfl⟩ := hattends.of_stop (by simpa [stopsIn] using hstop)
    exact .inReady
  | cons first before =>
    obtain ⟨rfl, hbefore⟩ := List.cons_eq_cons.mp hrest
    have hleft := hattends.after_stop hbefore (by simpa using hstop)
    exact .later [.callback (.ready c.name)] hleft

/-- A host that remembers what it hears. -/
def Host.remembering (stops : List Callback → Bool) : Host (List Callback) Nat where
  now _ := 0
  hear past cb := (past ++ [cb], stops (past ++ [cb]))
  polled past _ := (past, false)

theorem Host.remembering_decides (stops : List Callback → Bool) :
    (Host.remembering stops).Decides id stops :=
  ⟨fun _ _ => rfl, fun _ _ => rfl, fun _ _ => ⟨rfl, rfl⟩⟩

/-- Two patterns of one bar. -/
def earlyComposition : Composition :=
  ⟨"Early", [⟨"A", 120, ⟨4, 4⟩, [⟨⟨1, 1, 1⟩, [48]⟩]⟩, ⟨"B", 120, ⟨4, 4⟩, [⟨⟨1, 1, 1⟩, [50]⟩]⟩]⟩

/-- A stop while the first pattern begins: it is played in full, and only the second is skipped. -/
theorem early_stop_is_forgotten :
    ∃ (player : Player earlyComposition) (session : Session earlyComposition (List Callback)),
      (Player.new? earlyComposition false).bind (·.start? Time.start 0) = some player ∧
      Session.run (Host.remembering (·.length = 2)) (fun _ => .free) 120 { player, host := [] } =
        (session, .finished) ∧
      ∃ a n, a ∈ earlyComposition.patterns ∧ a.EndsAfter Time.start n ∧
        session.cues = [.callback (.ready "Early"), .callback (.patternBegin a)] ++
          a.pulses false Time.start n ++
          [.callback (.patternEnd a), .callback (.completed "Early")] := by
  have hp : ∀ p ∈ earlyComposition.patterns.drop 0, p.IsPlayable := by decide
  obtain ⟨player, session, ending, hstart, hrun, -, hends⟩ := stop_ends_the_run
    (c := earlyComposition) (Host.remembering_decides (·.length = 2)) [] rfl false ⟨0, by decide⟩
    Time.start hp (fun _ => .free) 120
  have hlogged : ∀ visit ∈ earlyComposition.itinerary 0 Time.start,
      visit.1.HasTempo ∧ visit.1.IsLogged visit.2 := by
    intro visit hvisit
    rcases List.mem_pair.mp hvisit with rfl | rfl <;>
      exact ⟨by decide +kernel,
        (Pattern.isLogged_iff (n := 31) (by decide +kernel)).mpr (by decide +kernel)⟩
  obtain rfl := (hends (fun _ => rfl) (by decide)).2 hlogged
  refine ⟨player, session, hstart, hrun, ⟨"A", 120, ⟨4, 4⟩, [⟨⟨1, 1, 1⟩, [48]⟩]⟩, 31, by decide,
    by decide +kernel, ?_⟩
  obtain rfl := Option.some.inj hstart
  have hcues := congrArg (·.1.cues) hrun
  simp only at hcues
  rw [← hcues]
  decide +kernel

end Cadence
