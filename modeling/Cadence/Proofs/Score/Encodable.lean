import Cadence.Proofs.Compile.Mirror
import Cadence.Proofs.Score.RoundTrip

/-!
# What compiles has a score

Each check of the writer is one that compiling has made already, but for three: a slow tempo has more
microseconds in a beat than its field can hold, a bar may have more beats than fit a byte, and a name
may have half of a character in it.
-/

namespace Cadence

/-! ## Pitches of compiled events -/

variable {picks : Picks}

theorem EventEntry.Mirrors.bounded {customs : CustomChords} {key : Key} {drawn : Nat}
    {e : EventEntry} {event : Event} (h : e.Mirrors customs picks key drawn event) {pitch : Int}
    (hpitch : pitch ∈ event.pitches) : 24 ≤ pitch ∧ pitch ≤ 107 := by
  obtain ⟨i, hi, rfl⟩ := List.mem_iff_getElem.mp hpitch
  have hstack : i < (e.stack customs picks drawn).length := h.length ▸ hi
  have hheld := h.pitch i _ (List.getElem?_eq_getElem hstack)
  rw [List.getElem?_eq_getElem hi, Option.some.injEq] at hheld
  rw [hheld]
  omega

theorem PatternEntry.Mirrors.bounded {d : Document} {k drawn : Nat} {p : PatternEntry} {q : Pattern}
    (h : p.Mirrors d picks k drawn q) :
    ∀ event ∈ q.events, ∀ pitch ∈ event.pitches, 24 ≤ pitch ∧ pitch ≤ 107 := by
  intro event hevent pitch hpitch
  obtain ⟨j, hj, rfl⟩ := List.mem_iff_getElem.mp hevent
  have hentry : j < p.entries.length := h.length ▸ hj
  exact (h.events j _ _ (List.getElem?_eq_getElem hentry) (List.getElem?_eq_getElem hj)).bounded
    hpitch

namespace Score

/-! ## The tempo -/

theorem div_le_roundHalfEven (num den : Nat) : num / den ≤ Double.roundHalfEven num den := by
  unfold Double.roundHalfEven
  grind

theorem roundHalfEven_le (num den : Nat) : Double.roundHalfEven num den ≤ num / den + 1 := by
  unfold Double.roundHalfEven
  grind

/-- Twenty million microseconds are too many for a beat, fifteen million and one are not. -/
theorem tempo_out_of_range_iff {bpm : Int} (h : 0 < bpm) :
    ∃ tempo, tempoOf? bpm = some tempo ∧ (tempo < 0 ∨ 16777215 < tempo ↔ bpm ≤ 3) := by
  have hlow := div_le_roundHalfEven 60000000 bpm.natAbs
  have hhigh := roundHalfEven_le 60000000 bpm.natAbs
  refine ⟨Double.roundHalfEven 60000000 bpm.natAbs, ?_, fun hlong => ?_, fun hslow => ?_⟩
  · rw [tempoOf?, if_neg (by omega)]
    exact congrArg some (if_neg (by omega))
  · by_contra hfast
    have hquotient : 60000000 / bpm.natAbs ≤ 60000000 / 4 :=
      Nat.div_le_div_left (by omega) (by omega)
    omega
  · have hquotient : 60000000 / 3 ≤ 60000000 / bpm.natAbs :=
      Nat.div_le_div_left (by omega) (by omega)
    omega

/-! ## The bytes of a track -/

theorem plainBody_of_nonneg {track : Track} (h : ∀ timed ∈ track, 0 ≤ timed.delta) :
    ∃ body, plainBody track = .ok body := by
  induction track with
  | nil => exact ⟨[], rfl⟩
  | cons timed rest ih =>
    obtain ⟨tail, htail⟩ := ih fun other hother => h other (List.mem_cons_of_mem _ hother)
    have hdelta : ¬timed.delta < 0 := not_lt.mpr (h timed List.mem_cons_self)
    rw [plainBody, if_neg hdelta, htail]
    exact ⟨_, rfl⟩

theorem noteTrack_delta_nonneg {p : Pattern} (hp : p.IsPlayable) :
    ∀ timed ∈ noteTrack p, 0 ≤ timed.delta := by
  obtain ⟨hlasts, hturn⟩ := soundings_ordered hp.beats hp.rising hp.reachable
  intro timed htimed
  rw [noteTrack, noteMessages_eq, List.mem_append, List.mem_cons, List.mem_singleton] at htimed
  rcases htimed with (rfl | hchords) | rfl
  · exact le_refl _
  · refine chordsTrack_delta_nonneg (fun c hc => (hlasts c hc).1) (fun c hc => ?_) hturn timed hchords
    have hlast := (hlasts c hc).2
    omega
  · exact le_refl _

theorem tempoTrack_delta_nonneg (tempo : Int) (s : Signature) :
    ∀ timed ∈ tempoTrack tempo s, 0 ≤ timed.delta := by
  simp [tempoTrack]

theorem fitsChunk_of_length {track : Track} {n : Nat}
    (h : (plainBody track).map List.length = .ok n) (hn : n < 2 ^ 32) : FitsChunk track := by
  intro body hbody
  rw [hbody] at h
  rwa [Except.ok.inj h]

/-- Two tracks in order whose lengths fit are written. -/
theorem write_of_nonneg {a b : Track} (ha : ∀ timed ∈ a, 0 ≤ timed.delta)
    (hb : ∀ timed ∈ b, 0 ≤ timed.delta) (hfirst : FitsChunk a) (hsecond : FitsChunk b) :
    ∃ file, write .plain ticksPerBeat [a, b] = .ok file := by
  obtain ⟨first, hone⟩ := plainBody_of_nonneg ha
  obtain ⟨second, htwo⟩ := plainBody_of_nonneg hb
  exact ⟨_, write_of_bodies .plain hone (hfirst _ hone) htwo (hsecond _ htwo)⟩

/-! ## The score of a pattern -/

variable {p : Pattern}

theorem exists_of_isOk {ε α : Type} {result : Except ε α} (h : result.isOk = true) :
    ∃ a, result = .ok a := by
  cases result with
  | error e => cases h
  | ok a => exact ⟨a, rfl⟩

theorem encode_of_slow (hbpm : 0 < p.bpm) (hslow : p.bpm ≤ 3) :
    encode p = .error .tempoRange := by
  obtain ⟨tempo, htempo, hrange⟩ := tempo_out_of_range_iff hbpm
  have htracks : tracks p = .error .tempoRange := by
    simp only [tracks, htempo, if_pos (hrange.mpr hslow)]
  rw [encode, htracks]
  rfl

theorem encode_of_wide (hbpm : 3 < p.bpm) (hwide : 255 < p.signature.numerator) :
    encode p = .error .numeratorRange := by
  obtain ⟨tempo, htempo, hrange⟩ := tempo_out_of_range_iff (show 0 < p.bpm by omega)
  have htracks : tracks p = .error .numeratorRange := by
    simp only [tracks, htempo, if_neg (mt hrange.mp (not_le.mpr hbpm))]
    exact if_pos (.inr hwide)
  rw [encode, htracks]
  rfl

theorem encode_of_broken (hbpm : 3 < p.bpm) (hbeats : 0 < p.signature.numerator)
    (hnarrow : p.signature.numerator ≤ 255) {b : Broken} (hname : p.name = .broken b) :
    encode p = .error (.brokenName b) := by
  obtain ⟨tempo, htempo, hrange⟩ := tempo_out_of_range_iff (show 0 < p.bpm by omega)
  have hnumerator : ¬(p.signature.numerator < 0 ∨ 255 < p.signature.numerator) := by omega
  have htracks : tracks p = .error (.brokenName b) := by
    simp only [tracks, htempo, if_neg (mt hrange.mp (not_le.mpr hbpm)), if_neg hnumerator,
      chordTrack, hname]
    rfl
  rw [encode, htracks]
  rfl

/-- With tempo, numerator and name in order nothing fails in a pattern in order. -/
theorem encode_of_fits (hp : p.IsPlayable) (hbpm : 3 < p.bpm) (hnarrow : p.signature.numerator ≤ 255)
    (hname : p.name.isWhole = true)
    (hpitch : ∀ e ∈ p.events, ∀ pitch ∈ e.pitches, 0 ≤ pitch ∧ pitch ≤ 127)
    (hsize : FitsChunk (noteTrack p)) : ∃ file, encode p = .ok file := by
  obtain ⟨tempo, htempo, hrange⟩ := tempo_out_of_range_iff (show 0 < p.bpm by omega)
  have hbeats := hp.beats
  have htracks : tracks p = .ok [tempoTrack tempo p.signature, noteTrack p] := by
    simp only [tracks, htempo, if_neg (mt hrange.mp (not_le.mpr hbpm)), chordTrack_eq hname hpitch]
    exact if_neg (by omega)
  have htempoSize : FitsChunk (tempoTrack tempo p.signature) := by
    intro body hbody
    rw [length_tempoTrack hbody]
    omega
  rw [encode, htracks]
  exact write_of_nonneg (tempoTrack_delta_nonneg tempo p.signature) (noteTrack_delta_nonneg hp)
    htempoSize hsize

/-- What keeps a pattern that compiles from having a score, in the order in which it is looked at. -/
def flaw? (p : Pattern) : Option EncodeError :=
  if p.bpm ≤ 3 then some .tempoRange
  else if 255 < p.signature.numerator then some .numeratorRange
  else match p.name with
    | .whole _ => none
    | .broken name => some (.brokenName name)

theorem flaw?_eq_none_iff :
    flaw? p = none ↔ 3 < p.bpm ∧ p.signature.numerator ≤ 255 ∧ p.name.isWhole = true := by
  unfold flaw?
  split_ifs with hslow hwide
  · simp [hslow]
  · simp [hwide]
  · cases hname : p.name with
    | whole s => simpa using ⟨not_le.mp hslow, not_lt.mp hwide⟩
    | broken b => simp [Name.isWhole]

theorem isBadValue_of_flaw {e : EncodeError} (h : flaw? p = some e) : e.isBadValue := by
  unfold flaw? at h
  split_ifs at h
  · cases h
    rfl
  · cases h
    rfl
  · split at h <;> cases h
    rfl

theorem encode_of_flaw (hbpm : 0 < p.bpm) (hbeats : 0 < p.signature.numerator) {e : EncodeError}
    (h : flaw? p = some e) : encode p = .error e := by
  unfold flaw? at h
  split_ifs at h with hslow hwide
  · cases h
    exact encode_of_slow hbpm hslow
  · cases h
    exact encode_of_wide (not_le.mp hslow) hwide
  · cases hname : p.name with
    | whole s => simp [hname] at h
    | broken b =>
      simp only [hname, Option.some.injEq] at h
      rw [← h]
      exact encode_of_broken (not_le.mp hslow) hbeats (not_lt.mp hwide) hname

/-- A pattern that compiles, and whose track fits its chunk, has a score unless its tempo is three
beats a minute at most, its bars have more than 255 beats or its name has half of a character in it.
The error is then that of the first of these, and one of a bad value. -/
theorem compiled_pattern_has_score_iff (d : Document) (picks : Picks) (drawn : Nat) (c : Composition)
    (h : (d.compile picks drawn).1 = .ok c) (p : Pattern) (hp : p ∈ c.patterns)
    (hsize : ∀ track, chordTrack p = .ok track → FitsChunk track) :
    ((∃ e, encode p = .error e) ↔
        p.bpm ≤ 3 ∨ 255 < p.signature.numerator ∨ p.name.isWhole = false) ∧
      ∀ e, encode p = .error e → e.isBadValue ∧ flaw? p = some e := by
  obtain ⟨entry, k, before, hmirror⟩ := Document.mirrored_of_mem h hp
  have hplayable := Document.compile_playable h p hp
  have hpitch : ∀ e ∈ p.events, ∀ pitch ∈ e.pitches, 0 ≤ pitch ∧ pitch ≤ 127 := by
    intro e he pitch hmem
    have hheld := hmirror.bounded e he pitch hmem
    omega
  cases hflaw : flaw? p with
  | none =>
    obtain ⟨hfast, hnarrow, hname⟩ := flaw?_eq_none_iff.mp hflaw
    obtain ⟨file, hfile⟩ := encode_of_fits hplayable hfast hnarrow hname hpitch
      (hsize _ (chordTrack_eq hname hpitch))
    rw [hfile]
    simp [hname, not_le.mpr hfast, not_lt.mpr hnarrow]
  | some e =>
    rw [encode_of_flaw hmirror.tempoRange.1 hplayable.beats hflaw]
    have hsome : ¬flaw? p = none := by simp [hflaw]
    rw [flaw?_eq_none_iff, not_and_or, not_and_or, not_lt, not_le, Bool.not_eq_true] at hsome
    simpa [hsome] using isBadValue_of_flaw hflaw

/-- A name that ends in half of a character. -/
def halfName : Broken := ⟨"bad", ⟨0, by decide⟩, []⟩

/-- A pattern that is too slow, one with too many beats in a bar, one with half of a character in
its name, and one with nothing wrong. -/
def unwritableDocument : Document where
  patterns? := some
    [{ master? := some { tempo? := some ⟨3, by decide, by decide⟩ }
       events? := some [⟨1, 1, 1, "MAJOR", 0⟩] },
      { master? := some { signature? := some ⟨256, 4⟩ }, events? := some [⟨1, 1, 1, "MAJOR", 0⟩] },
      { name? := some (.broken halfName), events? := some [⟨1, 1, 1, "MAJOR", 0⟩] },
      { events? := some [⟨1, 1, 1, "MAJOR", 999⟩] }]

/-- What it compiles to. -/
def unwritableComposition : Composition where
  name := "Unnamed composition"
  patterns :=
    [⟨"unnamed_pattern_0", 3, ⟨4, 4⟩, [⟨⟨1, 1, 1⟩, [48, 52, 55]⟩]⟩,
      ⟨"unnamed_pattern_1", 120, ⟨256, 4⟩, [⟨⟨1, 1, 1⟩, [48, 52, 55]⟩]⟩,
      ⟨.broken halfName, 120, ⟨4, 4⟩, [⟨⟨1, 1, 1⟩, [48, 52, 55]⟩]⟩,
      ⟨"unnamed_pattern_3", 120, ⟨4, 4⟩, [⟨⟨1, 1, 1⟩, [107, 107, 107]⟩]⟩]

theorem one_pattern_of_four_has_a_score :
    (unwritableDocument.compile id 0).1 = .ok unwritableComposition ∧
      (∀ p ∈ unwritableComposition.patterns, ∀ track, chordTrack p = .ok track → FitsChunk track) ∧
      ∀ p ∈ unwritableComposition.patterns,
        (∃ e, encode p = .error e) ↔ p.name ≠ "unnamed_pattern_3" := by
  have hrun : (unwritableDocument.compile id 0).1 = .ok unwritableComposition := by decide +kernel
  have hsize : ∀ p ∈ unwritableComposition.patterns, ∀ track, chordTrack p = .ok track →
      FitsChunk track := by
    simp only [unwritableComposition, List.forall_mem_cons]
    refine ⟨fun track h => ?_, fun track h => ?_, fun track h => ?_, fun track h => ?_, by simp⟩
    · cases h
      exact fitsChunk_of_length (n := 50) (by decide +kernel) (by decide)
    · cases h
      exact fitsChunk_of_length (n := 51) (by decide +kernel) (by decide)
    · cases h
    · cases h
      exact fitsChunk_of_length (n := 50) (by decide +kernel) (by decide)
  refine ⟨hrun, hsize, fun p hp => ?_⟩
  have hscore := (compiled_pattern_has_score_iff unwritableDocument id 0 unwritableComposition hrun p
    hp (hsize p hp)).1
  have hfields : p.bpm ≤ 3 ∨ 255 < p.signature.numerator ∨ p.name.isWhole = false ↔
      p.name ≠ "unnamed_pattern_3" := by
    simp only [unwritableComposition, List.mem_cons, List.not_mem_nil, or_false] at hp
    rcases hp with rfl | rfl | rfl | rfl <;> decide
  exact hscore.trans hfields

def halfNamed : Pattern := ⟨.broken halfName, 120, ⟨4, 4⟩, [⟨⟨1, 1, 1⟩, [48, 52, 55]⟩]⟩

/-- It compiles at a common tempo, in common time and with no note out of range, but has no score. -/
theorem half_a_character_has_no_score :
    (Document.compile
        { patterns? := some
            [{ name? := some (.broken halfName), events? := some [⟨1, 1, 1, "MAJOR", 0⟩] }] }
        id).1 = .ok ⟨"Unnamed composition", [halfNamed]⟩ ∧
      ¬(halfNamed.bpm ≤ 3 ∨ 255 < halfNamed.signature.numerator) ∧
      encode halfNamed = .error (.brokenName halfName) := by
  refine ⟨by decide +kernel, by decide, ?_⟩
  exact encode_of_flaw (by decide) (by decide) rfl

end Score

end Cadence
