import Cadence.Proofs.Playback.ToTheEnd

/-!
# The outcome of a run

Nothing but the patterns and the time a run starts at decides its cues. In them a pattern is found
again by counting the patterns that begin.
-/

namespace Cadence

variable {c : Composition} {σ α : Type} {host : Host σ α} {metronome : Bool}

variable [Add α] [LT α] [DecidableLT α]

/-- Started at a time in a pattern and then run, with every poll a pulse, a player comes to an end
with these cues, however many polls it may use. -/
def Composition.Plays (c : Composition) (host : Host σ α) (state : σ) (metronome : Bool)
    (index : Nat) (t : Time) (cues : List Cue) (ending : Session.Ending) : Prop :=
  ∃ player : Player c, (Player.new? c metronome).bind (·.start? t index) = some player ∧
    ∀ polls, c.pollBound t ≤ polls → ∃ session,
      Session.run host (fun _ => .free) polls { player, host := state } = (session, ending) ∧
        session.cues = cues

theorem Composition.exists_plays (hh : host.NeverStops) (state : σ) (metronome : Bool)
    (i : Fin c.patterns.length) (t : Time) (hp : ∀ p ∈ c.patterns.drop i, p.IsPlayable) :
    ∃ cues ending, Performs metronome (c.itinerary i t) cues ending ∧
      c.Plays host state metronome i t
        (.callback (.ready c.name) :: cues ++ c.closing ending) ending := by
  obtain ⟨player, hstart, rfl, rfl, rfl, hstop⟩ := Player.new?_start? metronome i t
  obtain ⟨_, cues, ending, -, -, hperforms⟩ := Session.run_performs hh
    ({ player, host := state } : Session c σ) hp (le_refl _) hstop
  exact ⟨cues, ending, hperforms, player, hstart, fun polls hpolls =>
    Session.run_of_performs hh _ hp hpolls hstop hperforms⟩

/-! ## A pattern among the cues -/

namespace Cue

/-- The time that a cue of the clock tells. -/
def time? : Cue → Option Time
  | .callback (.bar t) | .callback (.beat t) | .callback (.interval t) => some t
  | _ => none

def isBegin : Cue → Bool
  | .callback (.patternBegin _) => true
  | _ => false

def isEnd : Cue → Bool
  | .callback (.patternEnd _) => true
  | _ => false

/-- The cues after a pattern begins, the patterns counted from zero in the order in which they
begin. -/
def afterBegin : Nat → List Cue → List Cue
  | _, [] => []
  | 0, cue :: rest => if cue.isBegin then rest else afterBegin 0 rest
  | k + 1, cue :: rest => if cue.isBegin then afterBegin k rest else afterBegin (k + 1) rest

/-- The cues of a pattern between its beginning and its end. -/
def during (k : Nat) (cues : List Cue) : List Cue := (afterBegin k cues).takeWhile (!·.isEnd)

/-- The times that cues tell. -/
def times (cues : List Cue) : List Time := cues.filterMap time?

/-- The cues from the first one on at which the clock tells a time. -/
def since (t : Time) (cues : List Cue) : List Cue := cues.dropWhile (·.time? ≠ some t)

end Cue

namespace Cue

theorem afterBegin_zero (p : Pattern) (rest : List Cue) :
    afterBegin 0 (.callback (.patternBegin p) :: rest) = rest := rfl

theorem afterBegin_succ (k : Nat) (p : Pattern) (rest : List Cue) :
    afterBegin (k + 1) (.callback (.patternBegin p) :: rest) = afterBegin k rest := rfl

theorem afterBegin_append {as : List Cue} (h : ∀ cue ∈ as, cue.isBegin = false) (k : Nat)
    (bs : List Cue) : afterBegin k (as ++ bs) = afterBegin k bs := by
  induction as with
  | nil => rfl
  | cons a as ih =>
    have ha := h a List.mem_cons_self
    have hrest := ih fun cue hcue => h cue (List.mem_cons_of_mem _ hcue)
    cases k <;> simp [afterBegin, ha, hrest]

theorem afterBegin_none {cues : List Cue} (h : ∀ cue ∈ cues, cue.isBegin = false) (k : Nat) :
    afterBegin k cues = [] := by
  have happend := afterBegin_append h k []
  rw [List.append_nil] at happend
  rw [happend]
  cases k <;> rfl

theorem afterBegin_ready (k : Nat) (name : Name) (rest : List Cue) :
    afterBegin k (.callback (.ready name) :: rest) = afterBegin k rest := by
  cases k <;> rfl

theorem times_append (as bs : List Cue) : times (as ++ bs) = times as ++ times bs :=
  List.filterMap_append

theorem of_mem_eventCues {e : Event} {cue : Cue} (h : cue ∈ e.cues) :
    cue.time? = none ∧ cue.isBegin = false ∧ cue.isEnd = false := by
  rcases List.mem_cons.mp h with rfl | hsound
  · exact ⟨rfl, rfl, rfl⟩
  · obtain ⟨pitch, -, rfl⟩ := List.mem_map.mp hsound
    exact ⟨rfl, rfl, rfl⟩

/-- A pulse tells no other time than its own, and no pattern begins or ends on it. -/
theorem of_mem_pulseCues {p : Pattern} {u : Time} {cue : Cue} (h : cue ∈ p.pulseCues metronome u) :
    (cue.time? = some u ∨ cue.time? = none) ∧ cue.isBegin = false ∧ cue.isEnd = false := by
  rw [Pattern.pulseCues, List.mem_append, List.mem_flatMap] at h
  rcases h with hclock | ⟨e, -, hevent⟩
  · unfold Time.clockCues clickCues at hclock
    split_ifs at hclock <;> simp at hclock <;>
      rcases hclock with rfl | rfl | rfl | rfl | rfl <;> simp [time?, isBegin, isEnd]
  · obtain ⟨hnone, hkind⟩ := of_mem_eventCues hevent
    exact ⟨.inr hnone, hkind⟩

/-- A pulse begins with its time. -/
theorem since_pulseCues (p : Pattern) (u : Time) (rest : List Cue) :
    since u (p.pulseCues metronome u ++ rest) = p.pulseCues metronome u ++ rest := by
  unfold since Pattern.pulseCues Time.clockCues
  split_ifs <;> simp [time?]

theorem since_append {as : List Cue} {t : Time} (h : ∀ cue ∈ as, cue.time? ≠ some t)
    (bs : List Cue) : since t (as ++ bs) = since t bs := by
  refine List.dropWhile_append_of_pos fun cue hcue => ?_
  simpa using h cue hcue

end Cue

namespace Pattern

/-- The cues of pulses, the first at a time. -/
def pulses (p : Pattern) (metronome : Bool) (t : Time) (n : Nat) : List Cue :=
  (t.shown p.signature n).flatMap (p.pulseCues metronome)

variable {p : Pattern} {t u : Time} {n : Nat}

theorem pulses_succ : p.pulses metronome t (n + 1) =
    p.pulseCues metronome t ++ p.pulses metronome (t.advance p.signature) n := by
  rw [pulses, Time.shown_succ, List.flatMap_cons, pulses]

theorem of_mem_pulses {cue : Cue} (h : cue ∈ p.pulses metronome t n) :
    cue.isBegin = false ∧ cue.isEnd = false := by
  obtain ⟨u, -, hcue⟩ := List.mem_flatMap.mp h
  exact (Cue.of_mem_pulseCues hcue).2

/-- Pulses tell no time that the clock does not show. -/
theorem mem_shown_of_mem_times (h : u ∈ Cue.times (p.pulses metronome t n)) :
    u ∈ t.shown p.signature n := by
  obtain ⟨cue, hcue, htime⟩ := List.mem_filterMap.mp h
  obtain ⟨v, hv, hmem⟩ := List.mem_flatMap.mp hcue
  obtain ⟨hself | hnone, -⟩ := Cue.of_mem_pulseCues hmem
  · rw [hself] at htime
    rwa [← Option.some.inj htime]
  · rw [hnone] at htime
    cases htime

/-- From any time that is shown on, the pulses are those of a pattern played from there. The
induction is on the pulses: one that shows an earlier time has no cue at this one and is passed over. -/
theorem since_pulses (metronome : Bool) (hend : p.EndsAfter t n) (hu : u ∈ t.shown p.signature n) :
    ∃ m, p.EndsAfter u m ∧ u.advanceBy p.signature m = t.advanceBy p.signature n ∧ ∀ rest,
      Cue.since u (p.pulses metronome t n ++ rest) = p.pulses metronome u m ++ rest := by
  induction n generalizing t with
  | zero =>
    rw [Time.shown_zero, List.mem_singleton] at hu
    subst hu
    refine ⟨0, hend, rfl, fun rest => ?_⟩
    rw [pulses, Time.shown_zero, List.flatMap_singleton, Cue.since_pulseCues]
  | succ n ih =>
    rw [Time.shown_succ, List.mem_cons] at hu
    rcases hu with rfl | hu
    · refine ⟨n + 1, hend, rfl, fun rest => ?_⟩
      rw [pulses_succ, List.append_assoc, Cue.since_pulseCues]
    · obtain ⟨m, hm, hstop, hsince⟩ := ih (endsAfter_succ.mp hend).2 hu
      refine ⟨m, hm, hstop, fun rest => ?_⟩
      have hearlier : ∀ cue ∈ p.pulseCues metronome t, cue.time? ≠ some u := by
        intro cue hcue htime
        obtain ⟨k, -, rfl⟩ := List.mem_map.mp hu
        have hlt : t < (t.advance p.signature).advanceBy p.signature k :=
          Time.lt_advanceBy_succ t _ k
        obtain ⟨hself | hnone, -⟩ := Cue.of_mem_pulseCues hcue
        · rw [htime] at hself
          exact absurd (Option.some.inj hself) (ne_of_gt hlt)
        · rw [hnone] at htime
          cases htime
      rw [pulses_succ, List.append_assoc, Cue.since_append hearlier, hsince]

end Pattern

/-- After a pattern begins come its pulses and its end, and then the patterns after it. -/
theorem Pattern.afterBegin_pulses (p : Pattern) (metronome : Bool) (t : Time) (n : Nat)
    (rest : List Cue) :
    Cue.afterBegin 0 (.callback (.patternBegin p) :: p.pulses metronome t n ++
        .callback (.patternEnd p) :: rest) =
        p.pulses metronome t n ++ .callback (.patternEnd p) :: rest ∧
      ∀ k, Cue.afterBegin (k + 1) (.callback (.patternBegin p) :: p.pulses metronome t n ++
        .callback (.patternEnd p) :: rest) = Cue.afterBegin k rest := by
  refine ⟨rfl, fun k => ?_⟩
  have hpulses : ∀ cue ∈ p.pulses metronome t n, cue.isBegin = false :=
    fun cue hcue => (Pattern.of_mem_pulses hcue).1
  rw [List.cons_append, Cue.afterBegin_succ, Cue.afterBegin_append hpulses, ← List.singleton_append,
    Cue.afterBegin_append (by simp [Cue.isBegin])]

/-- A pattern that is visited is played: all patterns before it are played to their ends, it begins at a
time that can be written and its tempo is one that a timer keeps. -/
def IsReached (visits : List (Pattern × Time)) (k : Nat) : Prop :=
  (∀ visit ∈ visits.take k, visit.1.HasTempo ∧ visit.1.IsLogged visit.2) ∧
    ∃ visit, visits[k]? = some visit ∧ visit.1.HasTempo ∧ visit.2.IsShort

theorem isReached_zero {visit : Pattern × Time} {visits : List (Pattern × Time)} :
    IsReached (visit :: visits) 0 ↔ visit.1.HasTempo ∧ visit.2.IsShort := by
  simp [IsReached]

theorem isReached_succ {visit : Pattern × Time} {visits : List (Pattern × Time)} {k : Nat} :
    IsReached (visit :: visits) (k + 1) ↔
      (visit.1.HasTempo ∧ visit.1.IsLogged visit.2) ∧ IsReached visits k := by
  rw [IsReached, IsReached, List.take_succ_cons, List.forall_mem_cons, List.getElem?_cons_succ,
    and_assoc]

theorem IsReached.first {visit : Pattern × Time} {visits : List (Pattern × Time)} {k : Nat}
    (h : IsReached (visit :: visits) k) : visit.1.HasTempo ∧ visit.2.IsShort := by
  cases k with
  | zero => exact isReached_zero.mp h
  | succ k =>
    obtain ⟨htempo, hlogged⟩ := (isReached_succ.mp h).1
    exact ⟨htempo, hlogged.1⟩

/-- A pattern that is visited either is played to its end, and after it begins come its pulses, its
end and what goes on from there; or it is never told a time. -/
theorem Performs.afterBegin {visits : List (Pattern × Time)} {cues tail : List Cue}
    {ending : Session.Ending} (h : Performs metronome visits cues ending)
    (htail : ∀ cue ∈ tail, cue.isBegin = false ∧ cue.time? = none) (k : Nat) :
    (∃ p t n later, visits[k]? = some (p, t) ∧ p.HasTempo ∧ p.EndsAfter t n ∧
        GoesOn metronome (t.advanceBy p.signature n) (visits.drop (k + 1)) later ending ∧
        Cue.afterBegin k (cues ++ tail) =
          p.pulses metronome t n ++ .callback (.patternEnd p) :: (later ++ tail)) ∨
      Cue.times (Cue.afterBegin k (cues ++ tail)) = [] ∧ ¬IsReached visits k := by
  have hnone : ∀ k, Cue.afterBegin k tail = [] :=
    Cue.afterBegin_none fun cue hcue => (htail cue hcue).1
  induction visits generalizing cues k with
  | nil =>
    cases h
    right
    rw [List.nil_append, hnone]
    exact ⟨rfl, by simp [IsReached]⟩
  | cons visit visits ih =>
    obtain ⟨p, t⟩ := visit
    rcases h.cons_cases with ⟨hlong, rfl⟩ | ⟨hshort, hno, rfl⟩ |
      ⟨hshort, htempo, n, rest, hend, rfl, hgoes⟩
    · right
      rw [List.nil_append, hnone]
      exact ⟨rfl, fun hreached => hlong hreached.first.2⟩
    · refine .inr ⟨?_, fun hreached => hno hreached.first.1⟩
      rw [List.singleton_append]
      cases k with
      | zero =>
        rw [Cue.afterBegin_zero]
        exact List.filterMap_eq_nil_iff.mpr fun cue hcue => (htail cue hcue).2
      | succ k =>
        rw [Cue.afterBegin_succ, hnone]
        rfl
    · obtain ⟨hfirst, hlater⟩ := p.afterBegin_pulses metronome t n (rest ++ tail)
      have hcues : (.callback (.patternBegin p) :: (t.shown p.signature n).flatMap
          (p.pulseCues metronome) ++ .callback (.patternEnd p) :: rest) ++ tail =
            .callback (.patternBegin p) :: p.pulses metronome t n ++
              .callback (.patternEnd p) :: (rest ++ tail) := List.append_assoc _ _ _
      rw [hcues]
      cases k with
      | zero => exact .inl ⟨p, t, n, rest, rfl, htempo, hend, hgoes, hfirst⟩
      | succ k =>
        rw [hlater]
        rcases hgoes with ⟨hstop, hrest⟩ | ⟨hstop, rfl, rfl⟩
        · rcases ih hrest k with ⟨q, u, m, later, hq⟩ | ⟨htimes, hunreached⟩
          · exact .inl ⟨q, u, m, later, hq⟩
          · exact .inr ⟨htimes, fun hreached => hunreached (isReached_succ.mp hreached).2⟩
        · right
          rw [List.nil_append, hnone]
          refine ⟨rfl, fun hreached => hstop ?_⟩
          exact ((Pattern.isLogged_iff hend).mp (isReached_succ.mp hreached).1.2).2

theorem Composition.of_mem_closing {ending : Session.Ending} {cue : Cue}
    (h : cue ∈ c.closing ending) : cue.isBegin = false ∧ cue.time? = none := by
  cases ending with
  | finished =>
    obtain rfl := List.mem_singleton.mp h
    exact ⟨rfl, rfl⟩
  | unfinished | badTempo e | tooLong e => cases h

theorem Cue.afterBegin_suffix (k : Nat) (cues : List Cue) : afterBegin k cues <:+ cues := by
  fun_induction afterBegin k cues with
  | case1 => exact List.suffix_refl _
  | case2 cue rest _ => exact List.suffix_cons cue rest
  | case3 cue rest _ ih => exact ih.trans (List.suffix_cons cue rest)
  | case4 k cue rest _ ih => exact ih.trans (List.suffix_cons cue rest)
  | case5 k cue rest _ ih => exact ih.trans (List.suffix_cons cue rest)

theorem Cue.since_suffix (t : Time) (cues : List Cue) : since t cues <:+ cues :=
  List.dropWhile_suffix _

theorem Cue.during_eq {k : Nat} {cues rest : List Cue} {p : Pattern} {t : Time} {n : Nat}
    (h : afterBegin k cues = p.pulses metronome t n ++ .callback (.patternEnd p) :: rest) :
    during k cues = p.pulses metronome t n := by
  have hpulses : ∀ cue ∈ p.pulses metronome t n, (!cue.isEnd) = true := by
    intro cue hcue
    rw [(Pattern.of_mem_pulses hcue).2]
    rfl
  rw [during, h, List.takeWhile_append_of_pos hpulses, List.takeWhile_cons_of_neg (by simp [isEnd]),
    List.append_nil]

theorem Cue.times_during_subset {k : Nat} {cues : List Cue} {t : Time}
    (h : t ∈ times (during k cues)) : t ∈ times (afterBegin k cues) :=
  ((List.takeWhile_sublist _).filterMap _).subset h

/-- The patterns of a run that starts at the beginning of one of them. -/
theorem Composition.itinerary_start (c : Composition) (i : Nat) :
    c.itinerary i Time.start = (c.patterns.drop i).map fun p => (p, Time.start) :=
  inTurn_start _

theorem Composition.getElem?_itinerary_start {i j : Nat} {p : Pattern}
    (hj : c.patterns[i + j]? = some p) : (c.itinerary i Time.start)[j]? = some (p, Time.start) := by
  rw [itinerary_start, List.getElem?_map, List.getElem?_drop, hj, Option.map_some]

/-- From the start of a pattern on, a run comes to an end, and has each pattern among its cues that it
reaches, in turn and to its end. It is completed if all times can be written. -/
theorem Composition.exists_plays_pulses (hh : host.NeverStops) (state : σ) (metronome : Bool)
    (i : Fin c.patterns.length) (hc : c.PlayableFrom i) :
    ∃ cues ending, c.Plays host state metronome i Time.start cues ending ∧
      (ending = .finished ↔ c.IsLoggedFrom i Time.start) ∧
      ∀ (j : Nat) (p : Pattern), c.patterns[i + j]? = some p →
        (∀ q ∈ (c.patterns.drop i).take j, q.IsLogged Time.start) → ∃ n, p.EndsAfter Time.start n ∧
          Cue.during j cues = p.pulses metronome Time.start n := by
  obtain ⟨cues, ending, hperforms, hplays⟩ := exists_plays hh state metronome i Time.start
    fun p hmem => (hc p hmem).1
  refine ⟨_, ending, hplays, ?_, fun j p hj hbefore => ?_⟩
  · rw [hperforms.finished_iff]
    exact forall₂_congr fun visit hvisit => and_iff_right (hc _ (mem_itinerary hvisit)).2
  · have hvisit := getElem?_itinerary_start hj
    rcases hperforms.afterBegin (fun _ => of_mem_closing) j with
      ⟨q, t, n, later, hsame, -, hend, -, hafter⟩ | ⟨-, hunreached⟩
    · obtain ⟨rfl, rfl⟩ := Prod.mk.inj (Option.some.inj (hvisit.symm.trans hsame))
      refine ⟨n, hend, ?_⟩
      rw [Cue.during, List.cons_append, Cue.afterBegin_ready]
      exact Cue.during_eq hafter
    · have hstart : Time.start.IsShort := by decide
      refine absurd ⟨fun visit hmem => ?_, _, hvisit, (hc.get hj).2, hstart⟩ hunreached
      rw [itinerary_start, ← List.map_take] at hmem
      obtain ⟨q, hq, rfl⟩ := List.mem_map.mp hmem
      exact ⟨(hc q (List.mem_of_mem_take hq)).2, hbefore q hq⟩

end Cadence
