import Cadence.Proofs.Export.Scores
import Cadence.Proofs.Score.Encodable

/-!
# How long a delta may be

A score file has four bytes for a delta, and the writer takes as many as the number needs. So it is
the chords that decide: what stands in the track are the silences between them and their lengths.
-/

namespace Cadence.Score

/-! ## Bytes of a number -/

/-- The longest delta of a score file, in four bytes of seven bits. -/
def longestDelta : Int := 0x0FFFFFFF

theorem length_varyingHead_le_iff (n k : Nat) : (varyingHead n).length ≤ k ↔ n < 128 ^ k := by
  induction k generalizing n with
  | zero =>
    rw [varyingHead]
    split <;> simp_all
  | succ k ih =>
    rw [varyingHead]
    split
    · next hzero => simp [hzero]
    · have hquotient : n / 128 < 128 ^ k ↔ n < 128 ^ (k + 1) := by
        rw [Nat.div_lt_iff_lt_mul (by decide), Nat.pow_succ]
      rw [List.length_append, List.length_singleton, Nat.add_le_add_iff_right, ih, hquotient]

theorem length_varying_le_iff (n k : Nat) : (varying n).length ≤ k + 1 ↔ n < 128 ^ (k + 1) := by
  rw [varying, List.length_append, List.length_singleton, Nat.add_le_add_iff_right,
    length_varyingHead_le_iff, Nat.div_lt_iff_lt_mul (by decide), Nat.pow_succ]

theorem length_varying_delta {delta : Int} (h : 0 ≤ delta) :
    (varying delta.toNat).length ≤ 4 ↔ delta ≤ longestDelta := by
  rw [length_varying_le_iff, longestDelta]
  omega

/-! ## Deltas of chords -/

/-- The silence before each chord and the length of it, in turn. -/
def spans (now : Int) : List Sounding → List Int
  | [] => []
  | c :: cs => (c.begins - now) :: (c.ends - c.begins) :: spans c.ends cs

theorem chordMessages_delta_le_iff {delta limit : Int} (hlimit : 0 ≤ limit) (velocity : Nat)
    {pitches : List Int} (h : pitches ≠ []) :
    (∀ timed ∈ chordMessages delta velocity pitches, timed.delta ≤ limit) ↔ delta ≤ limit := by
  cases pitches with
  | nil => exact absurd rfl h
  | cons p ps => simp [chordMessages, hlimit]

theorem chordsTrack_delta_le_iff {limit now : Int} {cs : List Sounding} (hlimit : 0 ≤ limit)
    (h : ∀ c ∈ cs, c.pitches ≠ []) :
    (∀ timed ∈ chordsTrack now cs, timed.delta ≤ limit) ↔ ∀ span ∈ spans now cs, span ≤ limit := by
  induction cs generalizing now with
  | nil => simp [chordsTrack, spans]
  | cons c cs ih =>
    have hpitches := h c List.mem_cons_self
    rw [chordsTrack, spans, List.forall_mem_append, List.forall_mem_append, List.forall_mem_cons,
      List.forall_mem_cons, chordMessages_delta_le_iff hlimit _ hpitches,
      chordMessages_delta_le_iff hlimit _ hpitches, ih fun d hd => h d (List.mem_cons_of_mem _ hd),
      and_assoc]

theorem noteTrack_delta_le_iff {limit : Int} (hlimit : 0 ≤ limit) (p : Pattern) :
    (∀ timed ∈ noteTrack p, timed.delta ≤ limit) ↔
      ∀ span ∈ spans 0 (chordsOf p), span ≤ limit := by
  have hchords : ∀ c ∈ chordsOf p, c.pitches ≠ [] := fun c hc => pitches_of_mem_soundings hc
  rw [← chordsTrack_delta_le_iff hlimit hchords, chordsOf, ← noteMessages_eq, noteTrack,
    List.forall_mem_append, List.forall_mem_cons, List.forall_mem_singleton]
  simp [hlimit]

/-! ## Bars that are few enough -/

theorem spans_le {now last : Int} {cs : List Sounding} (hnow : 0 ≤ now)
    (hchords : ∀ c ∈ cs, 0 ≤ c.begins ∧ c.begins + 60 ≤ c.ends) (hlast : ∀ c ∈ cs, c.ends ≤ last) :
    ∀ span ∈ spans now cs, span ≤ last := by
  induction cs generalizing now with
  | nil => simp [spans]
  | cons c cs ih =>
    obtain ⟨hbegins, hends⟩ := hchords c List.mem_cons_self
    have hfirst := hlast c List.mem_cons_self
    have hrest := ih (show 0 ≤ c.ends by omega) (fun d hd => hchords d (List.mem_cons_of_mem _ hd))
      fun d hd => hlast d (List.mem_cons_of_mem _ hd)
    rw [spans, List.forall_mem_cons, List.forall_mem_cons]
    exact ⟨by omega, by omega, hrest⟩

variable {s : Signature} {events : List Event} {last : Event}

theorem cutOff_le_nextBar (hs : 0 < s.numerator) (hrising : Rising events)
    (hreach : ∀ e ∈ events, e.time.IsReachable s) (hlast : events.getLast? = some last)
    {index : Nat} (hindex : index < events.length) :
    (cutOff events index events[index]).IsReachable s ∧
      cutOff events index events[index] ≤ last.time.nextBar := by
  rw [cutOff]
  cases hnext : events[index + 1]? with
  | some next =>
    have hmem := List.mem_of_getElem? hnext
    exact ⟨hreach next hmem, (hrising.le_last hlast hmem).trans (Time.lt_nextBar last.time).le⟩
  | none =>
    -- nothing comes after the event, so it is the last one
    have hfinal : index = events.length - 1 := by
      rw [List.getElem?_eq_none_iff] at hnext
      omega
    have hsame : events[index] = last := by
      rw [List.getLast?_eq_getElem?, ← hfinal, List.getElem?_eq_getElem hindex] at hlast
      exact Option.some.inj hlast
    rw [hsame]
    exact ⟨Time.barStart_reachable hs (by omega), le_refl _⟩

/-- No chord sounds beyond the bar of the last event. -/
theorem soundings_ends_le (hs : 0 < s.numerator) (hrising : Rising events)
    (hreach : ∀ e ∈ events, e.time.IsReachable s) (hlast : events.getLast? = some last) :
    ∀ c ∈ soundings s events, c.ends ≤ last.time.bar * s.ticksPerBar := by
  intro c hc
  obtain ⟨index, hindex, rfl⟩ := List.mem_mapIdx.mp (List.mem_filter.mp hc).1
  obtain ⟨hcut, hle⟩ := cutOff_le_nextBar hs hrising hreach hlast hindex
  rw [← Time.ticks_nextBar]
  exact Time.ticks_le hcut (Time.barStart_reachable hs (by omega)) hle

theorem spans_le_of_bars {p : Pattern} {limit : Int} (hp : p.IsPlayable)
    (hbars : ∀ last, p.events.getLast? = some last →
      last.time.bar * p.signature.ticksPerBar ≤ limit) :
    ∀ span ∈ spans 0 (chordsOf p), span ≤ limit := by
  obtain ⟨hchords, -⟩ := soundings_ordered hp.beats hp.rising hp.reachable
  cases hlast : p.events.getLast? with
  | none =>
    rw [chordsOf, List.getLast?_eq_none_iff.mp hlast]
    simp [soundings, spans]
  | some last =>
    have hends := soundings_ends_le hp.beats hp.rising hp.reachable hlast
    exact spans_le (le_refl 0) hchords fun c hc => (hends c hc).trans (hbars last hlast)

/-! ## The tracks of a composition -/

/-- Where every pattern has a score, its deltas fit their four bytes as long as the silences and the
chords of the pattern do, and they do when its last bar comes early enough. -/
theorem deltas_fit_iff_spans_fit (d : Document) (picks : Picks) (drawn : Nat) (c : Composition)
    (h : (d.compile picks drawn).1 = .ok c) (files : List (Name × List UInt8))
    (hfiles : encodeAll c = .ok files) (p : Pattern) (hp : p ∈ c.patterns) :
    ∃ ts, tracks p = .ok ts ∧
      (∀ track ∈ ts, ∀ timed ∈ track, 0 ≤ timed.delta ∧
        ((varying timed.delta.toNat).length ≤ 4 ↔ timed.delta ≤ longestDelta)) ∧
      ((∀ track ∈ ts, ∀ timed ∈ track, timed.delta ≤ longestDelta) ↔
        ∀ span ∈ spans 0 (chordsOf p), span ≤ longestDelta) ∧
      ((∀ last, p.events.getLast? = some last →
          last.time.bar * p.signature.ticksPerBar ≤ longestDelta) →
        ∀ track ∈ ts, ∀ timed ∈ track, timed.delta ≤ longestDelta) := by
  have hplayable := Document.compile_playable h p hp
  obtain ⟨file, hfile⟩ := encode_of_mem hfiles hp
  obtain ⟨ts, htracks, -⟩ := tracks_of_encode hfile
  obtain ⟨tempo, -, -, -, -, rfl⟩ := tracks_eq_ok htracks
  have htempo : ∀ timed ∈ tempoTrack tempo p.signature, timed.delta ≤ longestDelta := by
    simp [tempoTrack, longestDelta]
  have hfits : (∀ track ∈ [tempoTrack tempo p.signature, noteTrack p], ∀ timed ∈ track,
      timed.delta ≤ longestDelta) ↔ ∀ span ∈ spans 0 (chordsOf p), span ≤ longestDelta := by
    rw [List.forall_mem_cons, List.forall_mem_singleton,
      ← noteTrack_delta_le_iff (by decide : 0 ≤ longestDelta)]
    exact and_iff_right htempo
  refine ⟨_, htracks, ?_, hfits, fun hbars => hfits.mpr (spans_le_of_bars hplayable hbars)⟩
  have hfour : ∀ timed : Timed, 0 ≤ timed.delta → 0 ≤ timed.delta ∧
      ((varying timed.delta.toNat).length ≤ 4 ↔ timed.delta ≤ longestDelta) :=
    fun timed hdelta => ⟨hdelta, length_varying_delta hdelta⟩
  rw [List.forall_mem_cons, List.forall_mem_singleton]
  exact ⟨fun timed ht => hfour timed (tempoTrack_delta_nonneg _ _ timed ht),
    fun timed ht => hfour timed (noteTrack_delta_nonneg hplayable timed ht)⟩

/-- One chord in the last bar of all whose deltas fit, and one two bars later. -/
def farDocument : Document where
  patterns? := some
    [{ name? := some "Near", events? := some [⟨139810, 1, 1, "MAJOR", 0⟩] },
      { name? := some "Far", events? := some [⟨139812, 1, 1, "MAJOR", 0⟩] }]

/-- What it compiles to. -/
def farComposition : Composition where
  name := "Unnamed composition"
  patterns :=
    [⟨"Near", 120, ⟨4, 4⟩, [⟨⟨139810, 1, 1⟩, [48, 52, 55]⟩]⟩,
      ⟨"Far", 120, ⟨4, 4⟩, [⟨⟨139812, 1, 1⟩, [48, 52, 55]⟩]⟩]

theorem far_chord_takes_five_bytes :
    (farDocument.compile id 0).1 = .ok farComposition ∧
      (∃ files, encodeAll farComposition = .ok files) ∧
      ∀ p ∈ farComposition.patterns, ∃ ts, tracks p = .ok ts ∧
        ((∀ track ∈ ts, ∀ timed ∈ track, (varying timed.delta.toNat).length ≤ 4) ↔
          p.name = "Near") := by
  have hrun : (farDocument.compile id 0).1 = .ok farComposition := by decide +kernel
  obtain ⟨files, hfiles⟩ := exists_of_isOk
    (by decide +kernel : (encodeAll farComposition).isOk = true)
  refine ⟨hrun, ⟨files, hfiles⟩, fun p hp => ?_⟩
  obtain ⟨ts, htracks, hbytes, hfits, -⟩ :=
    deltas_fit_iff_spans_fit farDocument id 0 farComposition hrun files hfiles p hp
  have hspans : (∀ span ∈ spans 0 (chordsOf p), span ≤ longestDelta) ↔ p.name = "Near" := by
    simp only [farComposition, List.mem_cons, List.not_mem_nil, or_false] at hp
    rcases hp with rfl | rfl <;> decide
  refine ⟨ts, htracks, Iff.trans ?_ (hfits.trans hspans)⟩
  exact forall₂_congr fun track htrack =>
    forall₂_congr fun timed htimed => (hbytes track htrack timed htimed).2

end Cadence.Score
