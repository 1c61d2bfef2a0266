import Cadence.Proofs.Playback.Outcome

/-!
# Seeking

To start at a time in a pattern is to play everything from the beginning and to leave out what comes
before that time.
-/

namespace Cadence

variable {c : Composition} {σ α : Type} [Add α] [LT α] [DecidableLT α] {host : Host σ α}
  {metronome : Bool}

/-- A time that is told in a pattern is told on one of its pulses. From there on the cues are those
of the patterns in turn, the first of them from that time on. -/
theorem Performs.since {ps : List Pattern} {cues tail : List Cue} {ending : Session.Ending}
    (h : Performs metronome (ps.map fun p => (p, Time.start)) cues ending)
    (htail : ∀ cue ∈ tail, cue.isBegin = false ∧ cue.time? = none) {k : Nat} {p : Pattern}
    {t : Time} (hk : ps[k]? = some p) (ht : t ∈ Cue.times (Cue.during k (cues ++ tail)))
    (hshort : t.IsShort) :
    ∃ rest, Cue.since t (Cue.afterBegin k (cues ++ tail)) = rest ++ tail ∧
      Performs metronome ((p, t) :: (ps.drop (k + 1)).map fun p => (p, Time.start))
        (.callback (.patternBegin p) :: rest) ending := by
  rcases h.afterBegin htail k with
    ⟨q, u, n, later, hvisit, htempo, hend, hgoes, hafter⟩ | ⟨hnone, -⟩
  · rw [List.getElem?_map, hk, Option.map_some] at hvisit
    obtain ⟨rfl, rfl⟩ := Prod.mk.inj (Option.some.inj hvisit)
    rw [Cue.during_eq hafter] at ht
    obtain ⟨m, hm, hstop, hsince⟩ := Pattern.since_pulses metronome hend
      (Pattern.mem_shown_of_mem_times ht)
    refine ⟨p.pulses metronome t m ++ .callback (.patternEnd p) :: later, ?_, ?_⟩
    · rw [hafter, hsince]
      simp
    · rw [← hstop, ← List.map_drop] at hgoes
      exact (performs_cons_iff hshort htempo hm).mpr ⟨later, rfl, hgoes⟩
  · have := Cue.times_during_subset ht
    rw [hnone] at this
    cases this

/-- A run from a time that a full run tells in a pattern is the rest of the full run from that time
on, after the composition is ready and the pattern begins: the callbacks, the sounds of the
instrument and the clicks of the metronome alike. Both come to the same end. Only a time that cannot
be written is none to start from. -/
theorem seeking_is_skipping (host : Host σ α) (hh : host.NeverStops) (state : σ) (metronome : Bool)
    (c : Composition) (hne : 0 < c.patterns.length) (hp : ∀ p ∈ c.patterns, p.IsPlayable) :
    ∃ cues ending, c.Plays host state metronome 0 Time.start cues ending ∧
      (ending = .finished ↔ ∀ p ∈ c.patterns, p.HasTempo ∧ p.IsLogged Time.start) ∧
      ∀ (i : Fin c.patterns.length) (t : Time), t ∈ Cue.times (Cue.during i cues) → t.IsShort →
        ∃ skipped rest, cues = skipped ++ rest ∧ rest = Cue.since t (Cue.afterBegin i cues) ∧
          c.Plays host state metronome i t (.callback (.ready c.name) ::
            .callback (.patternBegin (c.patternAt i)) :: rest) ending ∧
          (ending = .finished → rest.getLast? = some (.callback (.completed c.name))) := by
  obtain ⟨cues, ending, hperforms, hplays⟩ := Composition.exists_plays hh state metronome
    (⟨0, hne⟩ : Fin c.patterns.length) Time.start hp
  rw [Composition.itinerary_start, List.drop_zero] at hperforms
  refine ⟨_, ending, hplays, ?_, fun i t ht hshort => ?_⟩
  · rw [hperforms.finished_iff]
    simp
  · rw [Cue.during, List.cons_append, Cue.afterBegin_ready] at ht
    obtain ⟨rest, hrest, hfrom⟩ := hperforms.since (fun _ => Composition.of_mem_closing)
      (List.getElem?_eq_getElem i.isLt) ht hshort
    obtain ⟨cues', ending', hperforms', hplays'⟩ := Composition.exists_plays hh state metronome i t
      fun p hmem => hp p (List.mem_of_mem_drop hmem)
    rw [Composition.itinerary_eq_cons] at hperforms'
    obtain ⟨rfl, rfl⟩ := hperforms'.unique hfrom
    obtain ⟨skipped, hskipped⟩ := (Cue.since_suffix t _).trans (Cue.afterBegin_suffix i
      (.callback (.ready c.name) :: cues ++ c.closing ending'))
    rw [List.cons_append, Cue.afterBegin_ready, hrest] at hskipped
    refine ⟨skipped, rest ++ c.closing ending', hskipped.symm, ?_, hplays', ?_⟩
    · rw [List.cons_append, Cue.afterBegin_ready, hrest]
    · rintro rfl
      simp [Composition.closing]

theorem sample_seeking_is_skipping :
    (∀ p ∈ sampleComposition.patterns, p.IsPlayable) ∧
      ∃ cues ending, sampleComposition.Plays Host.silent () true 0 Time.start cues ending ∧
        ⟨1, 2, 5⟩ ∈ Cue.times (Cue.during 1 cues) ∧ Time.IsShort ⟨1, 2, 5⟩ ∧
        ∃ skipped rest, cues = skipped ++ rest ∧
          sampleComposition.Plays Host.silent () true 1 ⟨1, 2, 5⟩
            (.callback (.ready "Unnamed composition") ::
              .callback (.patternBegin ⟨"Outro", 120, ⟨4, 4⟩, [⟨⟨2, 1, 1⟩, [24, 24]⟩]⟩) :: rest)
            ending := by
  have hp : ∀ p ∈ sampleComposition.patterns, p.IsPlayable := by decide
  obtain ⟨cues, ending, hplays, -, hseek⟩ := seeking_is_skipping Host.silent
    Host.silent_neverStops () true sampleComposition (by decide) hp
  have htold : ⟨1, 2, 5⟩ ∈ Cue.times (Cue.during 1 cues) := by
    obtain ⟨player, hstart, hrun⟩ := hplays
    obtain ⟨session, hsession, rfl⟩ := hrun _ (le_refl _)
    obtain rfl := Option.some.inj hstart
    obtain rfl : _ = session := congrArg Prod.fst hsession
    decide +kernel
  have hshort : Time.IsShort ⟨1, 2, 5⟩ := by decide
  obtain ⟨skipped, rest, hcues, -, hfrom, -⟩ := hseek ⟨1, by decide⟩ ⟨1, 2, 5⟩ htold hshort
  exact ⟨hp, cues, ending, hplays, htold, hshort, skipped, rest, hcues, hfrom⟩

/-- Patterns in order, the second without a tempo. -/
def haltingComposition : Composition :=
  ⟨"Halting", [⟨"A", 120, ⟨4, 4⟩, [⟨⟨1, 1, 1⟩, [48]⟩]⟩, ⟨"B", 0, ⟨4, 4⟩, [⟨⟨1, 1, 1⟩, [50]⟩]⟩]⟩

/-- The first pattern is played, but the run is never completed, so that no suffix of it is. -/
theorem halting_composition_is_not_completed :
    (∀ p ∈ haltingComposition.patterns, p.IsPlayable) ∧
      ∃ cues, haltingComposition.Plays Host.silent () false 0 Time.start cues
        (.badTempo (.notPositive 0)) ∧
        Time.start ∈ Cue.times (Cue.during 0 cues) ∧
        .callback (.completed "Halting") ∉ cues := by
  have hp : ∀ p ∈ haltingComposition.patterns, p.IsPlayable := by decide
  obtain ⟨cues, ending, hperforms, hplays⟩ := Composition.exists_plays Host.silent_neverStops ()
    false (⟨0, by decide⟩ : Fin haltingComposition.patterns.length) Time.start hp
  have hstop : Session.Ending.ofStop (Time.start.advanceBy ⟨4, 4⟩ 31) = .finished :=
    Session.Ending.ofStop_eq_finished.mpr (by decide +kernel)
  have hfirst : Pattern.Performed ⟨"A", 120, ⟨4, 4⟩, [⟨⟨1, 1, 1⟩, [48]⟩]⟩ false Time.start _ _ :=
    .played (n := 31) (by decide) (by decide +kernel) (by decide +kernel)
  rw [hstop] at hfirst
  have hsecond : Pattern.Performed ⟨"B", 0, ⟨4, 4⟩, [⟨⟨1, 1, 1⟩, [50]⟩]⟩ false Time.start _ _ :=
    .noTempo (by decide) (by decide)
  obtain ⟨rfl, rfl⟩ := hperforms.unique (.next hfirst (.last hsecond (by decide)))
  exact ⟨hp, _, hplays, by decide +kernel, by decide +kernel⟩

end Cadence
