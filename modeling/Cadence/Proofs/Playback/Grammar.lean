import Mathlib.Data.List.Forall2
import Cadence.Proofs.Playback.Heed

/-!
# The grammar of a run

A run is ready, goes through its patterns, and is completed. Within a pattern each pulse tells the
clock and then at most one event, and the metronome follows what the clock tells. From the start to
the end of a bar this makes whole bars.
-/

namespace Cadence

variable {p : Pattern} {t : Time} {s : Signature}

/-! ## What is told -/

def Time.told (t : Time) : List Callback :=
  (if t.beat = 1 ∧ t.interval = 1 then [.bar t] else []) ++
    (if t.interval = 1 then [.beat t] else []) ++ [.interval t]

/-- What a pulse of a pattern tells: the clock, and the event at this time if there is one. -/
inductive Pattern.Tells (p : Pattern) (t : Time) : List Callback → Prop where
  | clock (h : ∀ e ∈ p.events, e.time ≠ t) : Tells p t t.told
  | event {e : Event} (he : e ∈ p.events) (ht : e.time = t) : Tells p t (t.told ++ [.event e])

namespace Callback

/-- The click that the metronome has for a callback. -/
def click? : Callback → Option Nat
  | bar _ => some 1
  | beat t => if t.beat = 1 then none else some 0
  | _ => none

def isBar : Callback → Bool
  | bar _ => true
  | _ => false

def isBeat : Callback → Bool
  | beat _ => true
  | _ => false

def isInterval : Callback → Bool
  | interval _ => true
  | _ => false

end Callback

namespace Cue

/-- Clicks are what the metronome has for the callbacks, in the same order. -/
def Clicked (cues : List Cue) : Prop := clicks cues = (callbacks cues).filterMap Callback.click?

theorem Clicked.append {as bs : List Cue} (ha : Clicked as) (hb : Clicked bs) :
    Clicked (as ++ bs) := by
  unfold Clicked at *
  rw [callbacks_append, List.filterMap_append, ← ha, ← hb]
  exact List.filterMap_append

theorem Clicked.flatMap {α : Type} {f : α → List Cue} (h : ∀ a, Clicked (f a)) (as : List α) :
    Clicked (as.flatMap f) := by
  induction as with
  | nil => rfl
  | cons a as ih => exact (h a).append ih

end Cue

/-- How many bars, beats and intervals are told, and the clicks of the metronome. -/
structure Cue.Tally (bars beats intervals : Nat) (clicks : List Nat) (cues : List Cue) : Prop where
  bars : (callbacks cues).countP Callback.isBar = bars
  beats : (callbacks cues).countP Callback.isBeat = beats
  intervals : (callbacks cues).countP Callback.isInterval = intervals
  clicks : Cue.clicks cues = clicks

/-- A pattern as it is heard from a time to its end, with the metronome on. -/
structure Pattern.IsHeard (p : Pattern) (t : Time) (cues : List Cue) : Prop where
  /-- one pulse at each time that the clock shows, and nothing between them -/
  pulses : ∃ n told, p.EndsAfter t n ∧ List.Forall₂ p.Tells (t.shown p.signature n) told ∧
    Cue.callbacks cues = .patternBegin p :: told.flatten ++ [.patternEnd p]
  clicked : Cue.Clicked cues
  /-- from the start of the clock it is heard in whole bars, each with one block of clicks -/
  wholeBars : t = Time.start → ∃ n b, p.EndsAfter t n ∧
    t.advanceBy p.signature n = Time.barEnd b p.signature ∧
    Cue.Tally b (p.signature.numerator.toNat * b) (8 * p.signature.numerator.toNat * b)
      (List.replicate b (1 :: List.replicate (p.signature.numerator.toNat - 1) 0)).flatten cues

/-! ## One pulse -/

theorem Pattern.tells_due (p : Pattern) (t : Time) :
    p.Tells t (t.told ++ (p.due? t).toList.map .event) := by
  cases hdue : p.due? t with
  | none =>
    rw [Option.toList_none, List.map_nil, List.append_nil]
    apply Tells.clock
    intro e he
    simpa using List.find?_eq_none.mp hdue e he
  | some e =>
    apply Tells.event (List.mem_of_find?_eq_some hdue)
    simpa using List.find?_some hdue

theorem callbacks_eventCues (e : Event) : Cue.callbacks e.cues = [.event e] := by
  unfold Event.cues
  simp [Cue.callbacks, Cue.callback?, List.filterMap_map]

theorem clicks_eventCues (e : Event) : Cue.clicks e.cues = [] := by
  unfold Event.cues
  simp [Cue.clicks, Cue.click?]

theorem callbacks_clockCues (metronome : Bool) (t : Time) :
    Cue.callbacks (t.clockCues metronome) = t.told := by
  unfold Time.clockCues Time.told clickCues
  by_cases hinterval : t.interval = 1 <;> by_cases hbeat : t.beat = 1 <;> cases metronome <;>
    simp only [hinterval, hbeat, and_self, and_false, false_and, if_true, if_false] <;> rfl

theorem clicked_clockCues (t : Time) : Cue.Clicked (t.clockCues true) := by
  unfold Cue.Clicked
  rw [callbacks_clockCues]
  unfold Time.clockCues Time.told clickCues
  by_cases hinterval : t.interval = 1 <;> by_cases hbeat : t.beat = 1 <;>
    simp [hinterval, hbeat, Cue.clicks, Cue.click?, Callback.click?, List.filterMap_cons, barClick,
      beatClick]

namespace Pattern

theorem callbacks_pulseCues (p : Pattern) (metronome : Bool) (t : Time) :
    Cue.callbacks (p.pulseCues metronome t) = t.told ++ (p.due? t).toList.map .event := by
  rw [pulseCues, Cue.callbacks_append, callbacks_clockCues]
  cases p.due? t with
  | none => rfl
  | some e => simp [callbacks_eventCues]

theorem clicked_pulseCues (p : Pattern) (t : Time) : Cue.Clicked (p.pulseCues true t) := by
  unfold pulseCues
  apply (clicked_clockCues t).append
  apply Cue.Clicked.flatMap
  intro e
  unfold Cue.Clicked
  rw [clicks_eventCues, callbacks_eventCues]
  rfl

theorem callbacks_pulses (p : Pattern) (metronome : Bool) (t : Time) (n : Nat) :
    Cue.callbacks (p.pulses metronome t n) =
      ((t.shown p.signature n).map fun u => u.told ++ (p.due? u).toList.map .event).flatten := by
  unfold pulses
  induction t.shown p.signature n with
  | nil => rfl
  | cons u us ih =>
    rw [List.flatMap_cons, Cue.callbacks_append, callbacks_pulseCues, ih]
    rfl

theorem tells_shown (p : Pattern) (times : List Time) :
    List.Forall₂ p.Tells times
      (times.map fun u => u.told ++ (p.due? u).toList.map .event) := by
  induction times with
  | nil => exact .nil
  | cons u us ih => exact .cons (p.tells_due u) ih

end Pattern

/-! ## Whole bars -/

namespace Time

def inBeat (bar beat : Nat) : List Time := (List.range 8).map fun k => ⟨bar, beat, k + 1⟩

def inBar (s : Signature) (bar : Nat) : List Time :=
  (List.range s.numerator.toNat).flatMap fun j => inBeat bar (j + 1)

theorem advanceBy_inBeat (s : Signature) (bar beat : Nat) {k : Nat} (hk : k < 8) :
    (⟨bar, beat, 1⟩ : Time).advanceBy s k = ⟨bar, beat, k + 1⟩ := by
  induction k with
  | zero => rfl
  | succ k ih =>
    rw [advanceBy_succ, ih (by omega)]
    unfold advance intervalsPerBeat
    rw [if_pos (Nat.succ_le_of_lt hk)]

theorem advanceBy_beats (bar : Nat) {j : Nat} (hj : (j : Int) < s.numerator) :
    (⟨bar, 1, 1⟩ : Time).advanceBy s (j * 8) = ⟨bar, j + 1, 1⟩ := by
  induction j with
  | zero => rfl
  | succ j ih =>
    have hlast : (⟨bar, 1, 1⟩ : Time).advanceBy s (j * 8 + 7) = ⟨bar, j + 1, 8⟩ := by
      rw [advanceBy_add, ih (by omega), advanceBy_inBeat s bar (j + 1) (by omega)]
    have hnext : (j + 1) * 8 = j * 8 + 7 + 1 := by omega
    rw [hnext, advanceBy_succ, hlast]
    unfold advance intervalsPerBeat
    rw [if_neg (by simp), if_pos (by push_cast at *; omega)]

theorem map_range_mul {β : Type} (f : Nat → β) (m k : Nat) :
    (List.range (m * k)).map f =
      (List.range m).flatMap fun i => (List.range k).map fun j => f (i * k + j) := by
  induction m with
  | zero => rw [Nat.zero_mul]; rfl
  | succ m ih =>
    rw [Nat.succ_mul, List.range_add, List.map_append, ih, List.range_succ, List.flatMap_append,
      List.map_map, List.flatMap_singleton]
    rfl

theorem map_advanceBy_bar (bar : Nat) :
    (List.range (s.numerator.toNat * 8)).map ((⟨bar, 1, 1⟩ : Time).advanceBy s) = inBar s bar := by
  rw [map_range_mul, inBar]
  apply List.flatMap_congr
  intro j hj
  rw [List.mem_range] at hj
  apply List.map_congr_left
  intro k hk
  rw [List.mem_range] at hk
  rw [advanceBy_add, advanceBy_beats bar (by omega), advanceBy_inBeat s bar (j + 1) hk]

/-- Up to the end of a bar the clock shows the times of all bars. -/
theorem shown_bars (hs : 0 < s.numerator) {n b : Nat}
    (hend : start.advanceBy s n = barEnd b s) :
    start.shown s n = (List.range b).flatMap fun i => inBar s (i + 1) := by
  have hsteps : n + 1 = b * (s.numerator.toNat * 8) := by
    have hticks := ticks_advanceBy hs (start_reachable hs) n
    have hbars := ticks_barEnd hs b
    rw [hend, ticks_start] at hticks
    rw [hticks] at hbars
    simp only [Signature.ticksPerBar, ticksPerBeat] at hbars
    have hbeats : (s.numerator.toNat : Int) = s.numerator := by omega
    zify
    rw [hbeats]
    linarith
  unfold shown
  rw [hsteps, map_range_mul]
  apply List.flatMap_congr
  intro i _
  rw [← map_advanceBy_bar]
  apply List.map_congr_left
  intro k _
  have hbar := advanceBy_bars hs 1 i
  unfold intervalsPerBeat at hbar
  rw [advanceBy_add, start, hbar, Nat.add_comm]

end Time

/-! ## Counting -/

namespace Cue

theorem Tally.append {b b' n n' i i' : Nat} {c c' : List Nat} {as bs : List Cue}
    (ha : Tally b n i c as) (hb : Tally b' n' i' c' bs) :
    Tally (b + b') (n + n') (i + i') (c ++ c') (as ++ bs) where
  bars := by rw [callbacks_append, List.countP_append, ha.bars, hb.bars]
  beats := by rw [callbacks_append, List.countP_append, ha.beats, hb.beats]
  intervals := by rw [callbacks_append, List.countP_append, ha.intervals, hb.intervals]
  clicks := by rw [← ha.clicks, ← hb.clicks]; exact List.filterMap_append

theorem Tally.flatMap {α : Type} {b n i : Nat} {c : List Nat} {f : α → List Cue} {as : List α}
    (h : ∀ a ∈ as, Tally b n i c (f a)) :
    Tally (as.length * b) (as.length * n) (as.length * i) (List.replicate as.length c).flatten
      (as.flatMap f) := by
  induction as with
  | nil =>
    simp only [List.length_nil, Nat.zero_mul]
    exact ⟨rfl, rfl, rfl, rfl⟩
  | cons a as ih =>
    have hrest := ih fun other hother => h other (List.mem_cons_of_mem _ hother)
    simp only [List.length_cons, Nat.succ_mul, Nat.add_comm _ b, Nat.add_comm _ n, Nat.add_comm _ i]
    exact (h a List.mem_cons_self).append hrest

theorem tally_eventCues (e : Event) : Tally 0 0 0 [] e.cues := by
  have hcalls := callbacks_eventCues e
  refine ⟨?_, ?_, ?_, clicks_eventCues e⟩ <;> rw [hcalls] <;> rfl

theorem tally_clockCues (t : Time) :
    Tally (if t.beat = 1 ∧ t.interval = 1 then 1 else 0) (if t.interval = 1 then 1 else 0) 1
      (if t.interval = 1 then [if t.beat = 1 then 1 else 0] else []) (t.clockCues true) := by
  unfold Time.clockCues clickCues
  by_cases hinterval : t.interval = 1 <;> by_cases hbeat : t.beat = 1 <;>
    simp only [hinterval, hbeat, and_self, and_false, false_and, if_true, if_false] <;>
    exact ⟨rfl, rfl, rfl, rfl⟩

/-- Events are told and sounded, but not counted. -/
theorem tally_pulseCues (p : Pattern) (t : Time) :
    Tally (if t.beat = 1 ∧ t.interval = 1 then 1 else 0) (if t.interval = 1 then 1 else 0) 1
      (if t.interval = 1 then [if t.beat = 1 then 1 else 0] else []) (p.pulseCues true t) := by
  unfold Pattern.pulseCues
  cases p.due? t with
  | none =>
    rw [Option.toList_none, List.flatMap_nil, List.append_nil]
    exact tally_clockCues t
  | some e =>
    rw [Option.toList_some, List.flatMap_singleton]
    simpa using (tally_clockCues t).append (tally_eventCues e)

theorem tally_inBeat (p : Pattern) (bar beat : Nat) :
    Tally (if beat = 1 then 1 else 0) 1 8 [if beat = 1 then 1 else 0]
      ((Time.inBeat bar beat).flatMap (p.pulseCues true)) := by
  have hbeat : Time.inBeat bar beat =
      ⟨bar, beat, 1⟩ :: (List.range 7).map fun k => ⟨bar, beat, k + 2⟩ := rfl
  have hfirst := tally_pulseCues p ⟨bar, beat, 1⟩
  have hlater : ∀ u ∈ (List.range 7).map fun k => (⟨bar, beat, k + 2⟩ : Time),
      Tally 0 0 1 [] (p.pulseCues true u) := by
    intro u hu
    obtain ⟨k, -, rfl⟩ := List.mem_map.mp hu
    simpa using tally_pulseCues p ⟨bar, beat, k + 2⟩
  rw [hbeat, List.flatMap_cons]
  simpa using hfirst.append (Tally.flatMap hlater)

/-- Only the first beat of a bar has the click and the callback of the bar. -/
theorem tally_inBar (p : Pattern) {s : Signature} (hs : 0 < s.numerator) (bar : Nat) :
    Tally 1 s.numerator.toNat (8 * s.numerator.toNat) (1 :: List.replicate (s.numerator.toNat - 1) 0)
      ((Time.inBar s bar).flatMap (p.pulseCues true)) := by
  obtain ⟨m, hm⟩ : ∃ m, s.numerator.toNat = m + 1 := ⟨s.numerator.toNat - 1, by omega⟩
  have hbar : Time.inBar s bar = Time.inBeat bar 1 ++
      (List.range m).flatMap fun j => Time.inBeat bar (j + 2) := by
    rw [Time.inBar, hm, List.range_succ_eq_map, List.flatMap_cons, List.flatMap_map]
  have hlater : ∀ j ∈ List.range m,
      Tally 0 1 8 [0] ((Time.inBeat bar (j + 2)).flatMap (p.pulseCues true)) := by
    intro j _
    simpa using tally_inBeat p bar (j + 2)
  have hall := (tally_inBeat p bar 1).append (Tally.flatMap hlater)
  rw [hbar, hm, List.flatMap_append, List.flatMap_assoc]
  simpa [Nat.mul_succ, Nat.add_comm, Nat.mul_comm] using hall

end Cue

/-- From the start to the end of a bar a pattern is heard in whole bars. -/
theorem Pattern.tally_pulses (p : Pattern) (hs : 0 < p.signature.numerator) {n b : Nat}
    (hend : Time.start.advanceBy p.signature n = Time.barEnd b p.signature) :
    Cue.Tally b (p.signature.numerator.toNat * b) (8 * p.signature.numerator.toNat * b)
      (List.replicate b (1 :: List.replicate (p.signature.numerator.toNat - 1) 0)).flatten
      (p.pulses true Time.start n) := by
  have hbar : ∀ i ∈ List.range b,
      Cue.Tally 1 p.signature.numerator.toNat (8 * p.signature.numerator.toNat)
        (1 :: List.replicate (p.signature.numerator.toNat - 1) 0)
        ((Time.inBar p.signature (i + 1)).flatMap (p.pulseCues true)) := by
    intro i _
    exact Cue.tally_inBar p hs (i + 1)
  unfold pulses
  rw [Time.shown_bars hs hend, List.flatMap_assoc]
  simpa [Nat.mul_comm] using Cue.Tally.flatMap hbar

/-! ## A run -/

theorem Cue.clicked_callback (cb : Callback) (h : cb.click? = none) : Clicked [.callback cb] := by
  unfold Clicked
  rw [callbacks_callback, List.filterMap_cons, h]
  rfl

theorem Pattern.Played.isHeard {part : List Cue} (hp : p.IsPlayable) (h : p.Played true t part) :
    p.IsHeard t part := by
  obtain ⟨n, hend, rfl⟩ := h
  refine ⟨⟨n, _, hend, p.tells_shown (t.shown p.signature n), ?_⟩, ?_, ?_⟩
  · rw [Cue.callbacks_append, Cue.callbacks_callback, ← callbacks_pulses p true]
    rfl
  · rw [← List.singleton_append]
    apply Cue.Clicked.append
    · apply (Cue.clicked_callback (.patternBegin p) rfl).append
      exact Cue.Clicked.flatMap p.clicked_pulseCues _
    · exact Cue.clicked_callback (.patternEnd p) rfl
  · rintro rfl
    refine ⟨n, _, hend, hend.1.1.eq_barEnd, ?_⟩
    have hbegin : Cue.Tally 0 0 0 [] [.callback (.patternBegin p)] := ⟨rfl, rfl, rfl, rfl⟩
    have hdone : Cue.Tally 0 0 0 [] [.callback (.patternEnd p)] := ⟨rfl, rfl, rfl, rfl⟩
    have hpulses := p.tally_pulses hp.beats hend.1.1.eq_barEnd
    simpa [pulses] using (hbegin.append hpulses).append hdone

theorem clicked_parts {visits : List (Pattern × Time)} {parts : List (List Cue)}
    (h : List.Forall₂ (fun visit part => visit.1.IsHeard visit.2 part) visits parts) :
    Cue.Clicked parts.flatten := by
  induction h with
  | nil => rfl
  | cons hpart _ ih => exact hpart.clicked.append ih

/-- With every poll a pulse, a run of patterns in order is ready, goes through the patterns in turn,
and is completed, if the times at which they begin and end can be written. Each is told from its
beginning to its end and clicked as it is told. -/
theorem run_is_told_in_order {c : Composition} {σ α : Type} [Add α] [LT α] [DecidableLT α]
    (host : Host σ α) (hh : host.NeverStops) (s : Session c σ) (hc : c.PlayableFrom s.player.index)
    (hlogged : c.IsLoggedFrom s.player.index s.player.startTime)
    (hclicks : s.player.metronome = true) (hstop : s.player.stopRequested = false) :
    ∃ (s' : Session c σ) (cues : List Cue) (parts : List (List Cue)),
      (∀ polls, c.pollBound s.player.startTime ≤ polls →
        Session.run host (fun _ => .free) polls s = (s', .finished)) ∧
      s'.cues = s.cues ++ cues ∧
      cues = .callback (.ready c.name) :: parts.flatten ++ [.callback (.completed c.name)] ∧
      List.Forall₂ (fun visit part => visit.1.IsHeard visit.2 part)
        (c.itinerary s.player.index s.player.startTime) parts ∧
      Cue.clicks cues = (Cue.callbacks cues).filterMap Callback.click? := by
  obtain ⟨s', parts, hrun, hcues, hparts⟩ := Session.run_spec hh s hc hlogged le_rfl hstop
  rw [hclicks] at hparts
  have hplayable : ∀ visit ∈ c.itinerary s.player.index s.player.startTime,
      visit.1.IsPlayable := fun visit hvisit => (hc _ (Composition.mem_itinerary hvisit)).1
  have hheard : List.Forall₂ (fun visit part => visit.1.IsHeard visit.2 part)
      (c.itinerary s.player.index s.player.startTime) parts := by
    refine List.Forall₂.imp ?_ ((List.forall₂_and_left _ _).mpr ⟨hplayable, hparts⟩)
    rintro visit part ⟨hp, hplayed⟩
    exact hplayed.isHeard hp
  refine ⟨s', _, parts, ?_, ?_, rfl, hheard, ?_⟩
  · intro polls hpolls
    exact Session.run_mono hpolls _ _ hrun (by simp)
  · rw [hcues, List.append_assoc]
  · rw [← List.singleton_append]
    apply Cue.Clicked.append _ (Cue.clicked_callback (.completed c.name) rfl)
    exact (Cue.clicked_callback (.ready c.name) rfl).append (clicked_parts hheard)

/-- The first pattern is entered on its third beat, the second one is two bars long. -/
theorem sample_is_told_in_order :
    ∃ (player : Player sampleComposition) (session : Session sampleComposition Unit)
      (first second : List Cue),
      (Player.new? sampleComposition true).bind (·.start? ⟨1, 3, 1⟩ 0) = some player ∧
      sampleComposition.PlayableFrom player.index ∧
      sampleComposition.IsLoggedFrom player.index ⟨1, 3, 1⟩ ∧ player.metronome = true ∧
      player.stopRequested = false ∧
      Session.run Host.silent (fun _ => .free) 160 { player, host := () } = (session, .finished) ∧
      session.cues = .callback (.ready "Unnamed composition") :: (first ++ second) ++
        [.callback (.completed "Unnamed composition")] ∧
      (sampleComposition.patternAt player.index).IsHeard ⟨1, 3, 1⟩ first ∧
      Cue.Tally 2 8 64 [1, 0, 0, 0, 1, 0, 0, 0] second := by
  obtain ⟨player, hstart, hmet, hindex, htime, hstop⟩ := Player.new?_start?
    (c := sampleComposition) true ⟨0, by decide⟩ ⟨1, 3, 1⟩
  have hplayable : sampleComposition.PlayableFrom player.index := by
    rw [hindex]
    decide +kernel
  have hlogged : sampleComposition.IsLoggedFrom player.index ⟨1, 3, 1⟩ := by
    rw [hindex]
    intro visit hvisit
    rcases List.mem_pair.mp hvisit with rfl | rfl
    · exact (Pattern.isLogged_iff (n := 15) (by decide +kernel)).mpr (by decide +kernel)
    · exact (Pattern.isLogged_iff (n := 63) (by decide +kernel)).mpr (by decide +kernel)
  obtain ⟨session, cues, parts, hrun, hcues, htold, hheard, -⟩ := run_is_told_in_order Host.silent
    Host.silent_neverStops ({ player, host := () } : Session sampleComposition Unit) hplayable
    (by rw [htime]; exact hlogged) hmet hstop
  have hvisits : sampleComposition.itinerary player.index player.startTime =
      [(sampleComposition.patternAt player.index, ⟨1, 3, 1⟩),
        (sampleComposition.patternAt ⟨1, by decide⟩, Time.start)] := by
    rw [hindex, htime]
    rfl
  rw [hvisits] at hheard
  obtain ⟨first, _, hfirst, hlater, rfl⟩ := List.forall₂_cons_left_iff.mp hheard
  obtain ⟨second, _, hsecond, hnone, rfl⟩ := List.forall₂_cons_left_iff.mp hlater
  obtain rfl := List.forall₂_nil_left_iff.mp hnone
  obtain ⟨n, b, hend, hlast, htally⟩ := hsecond.wholeBars rfl
  have hends : (sampleComposition.patternAt ⟨1, by decide⟩).EndsAfter Time.start 63 := by
    decide +kernel
  obtain rfl := hend.unique hends
  have hbar : Time.start.advanceBy ⟨4, 4⟩ 63 = ⟨2, 4, 8⟩ := by decide +kernel
  obtain rfl : 2 = b := congrArg Time.bar (hbar.symm.trans hlast)
  have hpolls : sampleComposition.pollBound ⟨1, 3, 1⟩ ≤ 160 := by decide
  refine ⟨player, session, first, second, hstart, hplayable, hlogged, hmet, hstop,
    hrun 160 (by rw [htime]; exact hpolls), ?_, hfirst, htally⟩
  rw [hcues, htold]
  simp [Session.cues, sampleComposition]

/-- A run of patterns in order is not completed from a time that cannot be written, nor at a tempo that
is too fast for a timer. -/
theorem hasty_run_is_not_completed :
    (∀ bpm : Int, ∀ p ∈ (Composition.atTempo bpm).patterns, p.IsPlayable) ∧
      (∃ player : Player (Composition.atTempo 120),
        (Player.new? (Composition.atTempo 120) true).bind (·.start? Time.beyond 0) = some player ∧
        ∀ polls, (Composition.atTempo 120).pollBound Time.beyond ≤ polls → ∃ session e,
          Session.run Host.silent (fun _ => .free) polls { player, host := () } =
            (session, .tooLong e) ∧ session.cues = [.callback (.ready "Still")]) ∧
      ∃ player : Player (Composition.atTempo Double.limit),
        (Player.new? (Composition.atTempo Double.limit) true).bind (·.start? Time.start 0) =
          some player ∧
        ∀ polls, (Composition.atTempo Double.limit).pollBound Time.start ≤ polls → ∃ session e,
          Session.run Host.silent (fun _ => .free) polls { player, host := () } =
            (session, .badTempo e) ∧ .callback (.completed "Still") ∉ session.cues := by
  refine ⟨Composition.atTempo_isPlayable, ?_, ?_⟩
  · exact run_unlogged (c := Composition.atTempo 120) Host.silent_neverStops () true
      ⟨0, Nat.one_pos⟩ (Composition.atTempo_isPlayable 120) Time.beyond_not_isShort
  · obtain ⟨player, hstart, hrun⟩ := run_noTempo (c := Composition.atTempo Double.limit)
      Host.silent_neverStops () true ⟨0, Nat.one_pos⟩ (Composition.atTempo_isPlayable Double.limit)
      (by decide : Time.start.IsShort) fun h => absurd h.2 (lt_irrefl _)
    refine ⟨player, hstart, fun polls hpolls => ?_⟩
    obtain ⟨session, hended, hcues⟩ := hrun polls hpolls
    refine ⟨session, _, hended, ?_⟩
    rw [hcues]
    simp

end Cadence
