import Cadence.Proofs.Playback.Heed

/-!
# Live and rendered

A run on a clock makes the pulses of the run in which every poll is a pulse, only later. A poll that
is not due changes nothing that a pulse reads, so wherever the polls stop, the cues so far are those
of the full run up to a place between two pulses.
-/

namespace Cadence

variable {c : Composition} {σ α : Type} {host : Host σ α} {metronome : Bool}

/-! ## Runs that are broken off -/

/-- Patterns in turn, broken off between two pulses: the cues before, those that the full run goes on
with, and the end that it comes to. -/
inductive BreaksOff (metronome : Bool) :
    List (Pattern × Time) → List Cue → List Cue → Session.Ending → Prop where
  | here {p : Pattern} {t : Time} {n m : Nat} {visits : List (Pattern × Time)} {rest : List Cue}
      {outcome : Session.Ending} (hshort : t.IsShort) (htempo : p.HasTempo) (hend : p.EndsAfter t n)
      (hm : m ≤ n) (hgoes : GoesOn metronome (t.advanceBy p.signature n) visits rest outcome) :
      BreaksOff metronome ((p, t) :: visits)
        (.callback (.patternBegin p) ::
          ((t.shown p.signature n).take m).flatMap (p.pulseCues metronome))
        (((t.shown p.signature n).drop m).flatMap (p.pulseCues metronome) ++
          .callback (.patternEnd p) :: rest) outcome
  | later {p : Pattern} {t : Time} {visits : List (Pattern × Time)} {part before after : List Cue}
      {outcome : Session.Ending} (hpart : p.Performed metronome t part .finished)
      (hrest : BreaksOff metronome visits before after outcome) :
      BreaksOff metronome ((p, t) :: visits) (part ++ before) after outcome

theorem BreaksOff.performs {visits : List (Pattern × Time)} {before after : List Cue}
    {outcome : Session.Ending} (h : BreaksOff metronome visits before after outcome) :
    Performs metronome visits (before ++ after) outcome := by
  induction h with
  | @here p t n m visits rest outcome hshort htempo hend _ hgoes =>
    refine (performs_cons_iff hshort htempo hend).mpr ⟨rest, ?_, hgoes⟩
    have hparts := List.take_append_drop m (t.shown p.signature n)
    rw [← congrArg (List.flatMap (p.pulseCues metronome)) hparts, List.flatMap_append]
    simp
  | later hpart _ ih =>
    rw [List.append_assoc]
    exact .next hpart ih

theorem Pattern.exists_performed {p : Pattern} (hp : p.IsPlayable) (metronome : Bool) (t : Time) :
    ∃ part ending, p.Performed metronome t part ending := by
  cases hlong : t.tooLong? with
  | some e => exact ⟨_, _, .unlogged hlong⟩
  | none =>
    have hshort := Time.tooLong?_eq_none.mp hlong
    by_cases htempo : p.HasTempo
    · obtain ⟨n, -, hend⟩ := Pattern.exists_endsAfter hp t
      exact ⟨_, _, .played hshort htempo hend⟩
    · exact ⟨_, _, .noTempo hshort htempo⟩

theorem exists_performs (metronome : Bool) {visits : List (Pattern × Time)}
    (hp : ∀ visit ∈ visits, visit.1.IsPlayable) :
    ∃ cues outcome, Performs metronome visits cues outcome := by
  induction visits with
  | nil => exact ⟨[], _, .done⟩
  | cons visit visits ih =>
    obtain ⟨hfirst, hlater⟩ := List.forall_mem_cons.mp hp
    obtain ⟨part, ending, hpart⟩ := Pattern.exists_performed hfirst metronome visit.2
    by_cases hfinished : ending = .finished
    · subst hfinished
      obtain ⟨cues, outcome, hcues⟩ := ih hlater
      exact ⟨_, _, .next hpart hcues⟩
    · exact ⟨_, _, .last hpart hfinished⟩

namespace Session

variable [Add α] [LT α] [DecidableLT α]

/-! ## Runs -/

/-- Plays patterns in turn, each with a number of polls of its own. -/
def playPatternsWithin (host : Host σ α) (pace : Int → Pace α)
    (polls : Fin c.patterns.length → Nat) :
    List (Fin c.patterns.length) → Time → Session c σ → Session c σ × Ending
  | [], _, s => (s, .finished)
  | index :: rest, start, s =>
    if s.player.stopRequested then (s, .finished)
    else match playPattern host pace (polls index) index start s with
      | (s, .finished) => playPatternsWithin host pace polls rest Time.start s
      | other => other

/-- A run that may be broken off at any poll of any pattern. -/
def runWithin (host : Host σ α) (pace : Int → Pace α) (polls : Fin c.patterns.length → Nat)
    (s : Session c σ) : Session c σ × Ending :=
  let s := s.tell host (.ready c.name)
  let rest := (List.finRange c.patterns.length).drop s.player.index
  match playPatternsWithin host pace polls rest s.player.startTime s with
  | (s, .finished) => (s.tell host (.completed c.name), .finished)
  | other => other

theorem playPatternsWithin_const (pace : Int → Pace α) (polls : Nat)
    (is : List (Fin c.patterns.length)) (t : Time) (s : Session c σ) :
    playPatternsWithin host pace (fun _ => polls) is t s = playPatterns host pace polls is t s := by
  induction is generalizing t s with
  | nil => rfl
  | cons i is ih =>
    rw [playPatternsWithin, playPatterns]
    obtain ⟨s', ending⟩ := playPattern host pace polls i t s
    cases ending with
    | finished => simp only [ih]
    | unfinished | badTempo e | tooLong e => rfl

theorem runWithin_const (pace : Int → Pace α) (polls : Nat) (s : Session c σ) :
    runWithin host pace (fun _ => polls) s = run host pace polls s :=
  congrArg (fun played : Session c σ × Ending =>
      match played with
      | (s, .finished) => (s.tell host (.completed c.name), Ending.finished)
      | other => other)
    (playPatternsWithin_const pace polls _ _ _)

theorem playPatternsWithin_live (hh : host.NeverStops) (pace : Int → Pace α)
    (polls : Fin c.patterns.length → Nat) (is : List (Fin c.patterns.length)) (t : Time)
    (s : Session c σ) (hp : ∀ i ∈ is, (c.patternAt i).IsPlayable)
    (hstop : s.player.stopRequested = false) :
    ∃ s' ending cues, playPatternsWithin host pace polls is t s = (s', ending) ∧
      s'.cues = s.cues ++ cues ∧
      (Performs s.player.metronome (inTurn t (is.map c.patternAt)) cues ending ∨
        ending = .unfinished ∧ ∃ after outcome,
          BreaksOff s.player.metronome (inTurn t (is.map c.patternAt)) cues after outcome) := by
  induction is generalizing t s with
  | nil => exact ⟨s, .finished, [], rfl, (List.append_nil _).symm, .inl .done⟩
  | cons i is ih =>
    obtain ⟨hfirst, hlater⟩ := List.forall_mem_cons.mp hp
    obtain ⟨s₁, part, ending, hrun, hmet, hkept, hcues, hends⟩ :=
      playPattern_shows hh pace (polls i) t s hfirst
    rw [playPatternsWithin, if_neg (by simp [hstop]), hrun]
    rcases hends with hpart | ⟨rfl, hshort, htempo, n, hend, -, m, hm, rfl⟩
    · by_cases hfinished : ending = .finished
      · subst hfinished
        obtain ⟨s₂, ending, cues, hrest, hcues₂, hends⟩ := ih Time.start s₁ hlater
          (by rw [hkept, hstop])
        rw [hmet, inTurn_start] at hends
        refine ⟨s₂, ending, part ++ cues, hrest, ?_, ?_⟩
        · rw [hcues₂, hcues, List.append_assoc]
        · rcases hends with hperforms | ⟨rfl, after, outcome, hbreaks⟩
          · exact .inl (.next hpart hperforms)
          · exact .inr ⟨rfl, after, outcome, .later hpart hbreaks⟩
      · refine ⟨s₁, ending, part, ?_, hcues, .inl (.last hpart hfinished)⟩
        cases ending with
        | finished => exact absurd rfl hfinished
        | unfinished | badTempo e | tooLong e => rfl
    · have hvisits : ∀ visit ∈ (is.map c.patternAt).map fun q => (q, Time.start),
          visit.1.IsPlayable := by
        intro visit hvisit
        simp only [List.mem_map, exists_exists_and_eq_and] at hvisit
        obtain ⟨j, hj, rfl⟩ := hvisit
        exact hlater j hj
      have hgoes : ∃ rest outcome, GoesOn s.player.metronome
          (t.advanceBy (c.patternAt i).signature n)
          ((is.map c.patternAt).map fun q => (q, Time.start)) rest outcome := by
        by_cases hstop : (t.advanceBy (c.patternAt i).signature n).IsShort
        · obtain ⟨rest, outcome, hperforms⟩ := exists_performs s.player.metronome hvisits
          exact ⟨rest, outcome, .inl ⟨hstop, hperforms⟩⟩
        · exact ⟨_, _, .inr ⟨hstop, rfl, rfl⟩⟩
      obtain ⟨rest, outcome, hgoes⟩ := hgoes
      exact ⟨s₁, .unfinished, _, rfl, hcues,
        .inr ⟨rfl, _, outcome, .here hshort htempo hend hm hgoes⟩⟩

theorem runWithin_live (hh : host.NeverStops) (pace : Int → Pace α)
    (polls : Fin c.patterns.length → Nat) (s : Session c σ)
    (hp : ∀ p ∈ c.patterns.drop s.player.index, p.IsPlayable)
    (hstop : s.player.stopRequested = false) :
    ∃ s' ending cues, runWithin host pace polls s = (s', ending) ∧
      s'.cues = s.cues ++ .callback (.ready c.name) :: cues ++ c.closing ending ∧
      (Performs s.player.metronome (c.itinerary s.player.index s.player.startTime) cues ending ∨
        ending = .unfinished ∧ ∃ after outcome, BreaksOff s.player.metronome
          (c.itinerary s.player.index s.player.startTime) cues after outcome) := by
  have hready := tell_player hh s (.ready c.name)
  have hmem : ∀ i ∈ (List.finRange c.patterns.length).drop s.player.index,
      (c.patternAt i).IsPlayable := by
    intro i hi
    apply hp
    rw [← map_drop_finRange]
    exact List.mem_map_of_mem hi
  obtain ⟨s', ending, cues, hrun, hcues, hends⟩ := playPatternsWithin_live hh pace polls
    ((List.finRange c.patterns.length).drop s.player.index) s.player.startTime
    (s.tell host (.ready c.name)) hmem (by rw [hready, hstop])
  rw [map_drop_finRange, hready] at hends
  rw [tell_cues] at hcues
  rw [runWithin, hready, hrun]
  cases ending with
  | finished =>
    refine ⟨_, .finished, cues, rfl, ?_, hends⟩
    rw [tell_cues, hcues]
    simp [Composition.closing]
  | unfinished | badTempo e | tooLong e =>
    exact ⟨s', _, cues, rfl, by simp [hcues, Composition.closing], hends⟩

end Session

/-! ## The full run -/

/-- There is one full run, and a run on any clock shows what it has shown so far: all of it if the
run ends, and then both end alike, or else up to a place between two pulses. -/
theorem live_run_shows_the_full_run (metronome : Bool) (i : Fin c.patterns.length) (t : Time)
    (hp : ∀ p ∈ c.patterns.drop i, p.IsPlayable) :
    ∃ full outcome, outcome ≠ .unfinished ∧ (outcome = .finished ↔
        ∀ visit ∈ c.itinerary i t, visit.1.HasTempo ∧ visit.1.IsLogged visit.2) ∧
      (∀ {σ α : Type} [Add α] [LT α] [DecidableLT α] (host : Host σ α) (state : σ),
        host.NeverStops → c.Plays host state metronome i t full outcome) ∧
      ∀ {σ α : Type} [Add α] [LT α] [DecidableLT α] (host : Host σ α) (state : σ),
        host.NeverStops → ∀ (pace : Int → Pace α) (polls : Fin c.patterns.length → Nat),
          ∃ (player : Player c) (session : Session c σ) (ending : Session.Ending),
            (Player.new? c metronome).bind (·.start? t i) = some player ∧
            Session.runWithin host pace polls { player, host := state } = (session, ending) ∧
            (ending = outcome ∧ session.cues = full ∨
              ending = .unfinished ∧ ∃ before after,
                BreaksOff metronome (c.itinerary i t) before after outcome ∧
                session.cues = .callback (.ready c.name) :: before ∧
                full = session.cues ++ after ++ c.closing outcome) := by
  obtain ⟨cues, outcome, hperforms⟩ := exists_performs metronome
    fun visit (hvisit : visit ∈ c.itinerary i t) => hp _ (Composition.mem_itinerary hvisit)
  refine ⟨.callback (.ready c.name) :: cues ++ c.closing outcome, outcome,
    hperforms.ne_unfinished, hperforms.finished_iff, ?_, ?_⟩
  · intro σ α _ _ _ host state hh
    obtain ⟨cues', ending, hperforms', hplays⟩ := Composition.exists_plays hh state metronome i t hp
    obtain ⟨rfl, rfl⟩ := hperforms.unique hperforms'
    exact hplays
  · intro σ α _ _ _ host state hh pace polls
    obtain ⟨player, hstart, rfl, rfl, rfl, hstop⟩ := Player.new?_start? metronome i t
    obtain ⟨session, ending, shown, hrun, hcues, hends⟩ := Session.runWithin_live hh pace polls
      ({ player, host := state } : Session c σ) hp hstop
    refine ⟨player, session, ending, hstart, hrun, ?_⟩
    rcases hends with hall | ⟨rfl, after, outcome', hbreaks⟩
    · obtain ⟨rfl, rfl⟩ := hperforms.unique hall
      exact .inl ⟨rfl, hcues⟩
    · obtain ⟨rfl, rfl⟩ := hperforms.unique hbreaks.performs
      have hshown : session.cues = .callback (.ready c.name) :: shown := by
        rw [hcues]
        simp [Session.cues, Composition.closing]
      refine .inr ⟨rfl, shown, after, hbreaks, hshown, ?_⟩
      rw [hshown]
      simp

/-- On a clock that stands still no pulse is due after the first one. -/
theorem sample_live_run_shows_the_full_run :
    (∀ p ∈ sampleComposition.patterns.drop 0, p.IsPlayable) ∧ Host.silent.NeverStops ∧
      ∃ (full before after : List Cue) (player : Player sampleComposition)
        (session : Session sampleComposition Unit),
        sampleComposition.Plays Host.silent () true 0 Time.start full .finished ∧
        (Player.new? sampleComposition true).bind (·.start? Time.start 0) = some player ∧
        Session.runWithin Host.silent (fun _ => .every 1) (fun _ => 3) { player, host := () } =
          (session, .unfinished) ∧
        BreaksOff true (sampleComposition.itinerary 0 Time.start) before after .finished ∧
        session.cues = .callback (.ready "Unnamed composition") :: before ∧
        full = session.cues ++ after ++ [.callback (.completed "Unnamed composition")] ∧
        Cue.events before = [⟨Time.start, [50, 55]⟩] := by
  have hplayable : ∀ p ∈ sampleComposition.patterns.drop 0, p.IsPlayable := by decide
  obtain ⟨full, outcome, -, hfinishes, hplays, hlive⟩ := live_run_shows_the_full_run true
    (⟨0, by decide⟩ : Fin sampleComposition.patterns.length) Time.start hplayable
  obtain rfl := hfinishes.mpr fun visit hvisit => by
    rcases List.mem_pair.mp hvisit with rfl | rfl
    · exact ⟨by decide +kernel,
        (Pattern.isLogged_iff (n := 31) (by decide +kernel)).mpr (by decide +kernel)⟩
    · exact ⟨by decide +kernel,
        (Pattern.isLogged_iff (n := 63) (by decide +kernel)).mpr (by decide +kernel)⟩
  obtain ⟨player, session, ending, hstart, hrun, hends⟩ := hlive Host.silent ()
    Host.silent_neverStops (fun _ => .every 1) (fun _ => 3)
  obtain rfl := Option.some.inj hstart
  have hending : ending = .unfinished := (congrArg Prod.snd hrun).symm.trans (by decide +kernel)
  have hevents : Cue.events session.cues = [⟨Time.start, [50, 55]⟩] :=
    (congrArg (fun ended => Cue.events ended.1.cues) hrun).symm.trans (by decide +kernel)
  rw [hending] at hrun
  rcases hends with ⟨hfinished, -⟩ | ⟨-, before, after, hbreaks, hshown, hfull⟩
  · rw [hending] at hfinished
    cases hfinished
  · refine ⟨hplayable, Host.silent_neverStops, full, before, after, _, session,
      hplays Host.silent () Host.silent_neverStops, rfl, hrun, hbreaks, hshown, hfull, ?_⟩
    rw [hshown] at hevents
    exact hevents

end Cadence
