import Mathlib.Algebra.Order.Field.Rat
import Mathlib.Tactic.NormNum
import Cadence.Proofs.Score.Encodable

/-!
# Scores at other resolutions

A resolution goes into the header and nowhere else, while the tracks always count 480 ticks in a
beat. So a file at another resolution has the same ticks, and its notes stand at other beats.
-/

namespace Cadence.Score

/-! ## Notes in beats -/

/-- A note of a file, with the beats before it. One that ends has velocity zero. -/
structure BeatNote where
  beats : ℚ
  pitch : Int
  velocity : Nat
  deriving DecidableEq

/-- The notes of a track after a number of ticks. -/
def heard (division now : Nat) : List FileEvent → List BeatNote
  | [] => []
  | ⟨delta, .channelEvent _ pitch velocity⟩ :: rest =>
    ⟨(now + delta : Nat) / division, pitch.toNat, velocity.toNat⟩ ::
      heard division (now + delta) rest
  | ⟨delta, .metaEvent _ _⟩ :: rest => heard division (now + delta) rest

/-- The notes of all tracks of a file, by its own division. -/
def ScoreFile.notes (f : ScoreFile) : List BeatNote := f.tracks.flatMap (heard f.division 0)

/-- The notes of a chord, where a beat has this number of ticks. -/
def Sounding.inBeats (division : Int) (c : Sounding) : List BeatNote :=
  c.pitches.map (⟨c.begins / division, ·, 64⟩) ++ c.pitches.map (⟨c.ends / division, ·, 0⟩)

def notesOf (division : Int) (p : Pattern) : List BeatNote :=
  (chordsOf p).flatMap (Sounding.inBeats division)

def noteAt? (division : Int) : Int × Message → Option BeatNote
  | (tick, .note pitch velocity) => some ⟨tick / division, pitch, velocity⟩
  | _ => none

theorem heard_cons_note {division now : Nat} {event : FileEvent} {rest : List FileEvent}
    {status pitch velocity : UInt8} (h : event.record = .channelEvent status pitch velocity) :
    heard division now (event :: rest) =
      ⟨(now + event.delta : Nat) / division, pitch.toNat, velocity.toNat⟩ ::
        heard division (now + event.delta) rest := by
  obtain ⟨delta, record⟩ := event
  obtain rfl := h
  rfl

/-- What is heard from the events of a file is what the ticks of the track say. -/
theorem heard_events (division now : Nat) {track : Track} (hdelta : ∀ timed ∈ track, 0 ≤ timed.delta)
    (hfits : ∀ timed ∈ track, timed.message.FitsData) :
    heard division now (track.map Timed.event) =
      (placed now track).filterMap (noteAt? division) := by
  induction track generalizing now with
  | nil => rfl
  | cons timed rest ih =>
    have hhere := hdelta timed List.mem_cons_self
    have hfit := hfits timed List.mem_cons_self
    have htick : ((now + timed.event.delta : Nat) : Int) = now + timed.delta := by
      have hsame : (timed.event.delta : Int) = timed.delta := Int.toNat_of_nonneg hhere
      rw [Int.natCast_add, hsame]
    have hrest := ih (now + timed.event.delta) (fun t ht => hdelta t (List.mem_cons_of_mem _ ht))
      fun t ht => hfits t (List.mem_cons_of_mem _ ht)
    rw [List.map_cons, placed, ← htick, List.filterMap_cons, ← hrest]
    cases hmessage : timed.message with
    | note pitch velocity =>
      obtain ⟨first, second, hnote, -, hrecord⟩ :=
        sameNote_event ⟨pitch, velocity, hmessage, hfit pitch velocity hmessage⟩ hhere
      obtain ⟨rfl, rfl⟩ := Message.note.inj (hmessage.symm.trans hnote)
      rw [heard_cons_note hrecord, noteAt?, Int.cast_natCast, Int.cast_natCast]
    | tempo _ | signature _ _ | trackName _ | endOfTrack =>
      rw [Timed.event, hmessage]
      rfl

theorem filterMap_notes (division : Int) (c : Sounding) :
    c.notes.filterMap (noteAt? division) = c.inBeats division := by
  simp [Sounding.notes, Sounding.ons, Sounding.offs, Sounding.inBeats, noteAt?, Function.comp_def]

theorem heard_noteTrack {p : Pattern} (division : Nat)
    (hdelta : ∀ timed ∈ noteTrack p, 0 ≤ timed.delta)
    (hfits : ∀ timed ∈ noteTrack p, timed.message.FitsData) :
    heard division 0 ((noteTrack p).map Timed.event) = notesOf division p := by
  rw [heard_events division 0 hdelta hfits, Int.natCast_zero, placed_noteTrack, List.filterMap_append,
    List.filterMap_cons_none rfl, List.filterMap_flatMap]
  simp [filterMap_notes, notesOf, noteAt?]

theorem inBeats_inj {r r' : Int} {c : Sounding} (hr : 0 < r) (hr' : 0 < r') (hends : 0 < c.ends)
    (hpitches : c.pitches ≠ []) (h : c.inBeats r = c.inBeats r') : r = r' := by
  obtain ⟨-, hoffs⟩ := List.append_inj h (by simp)
  obtain ⟨pitch, hmem⟩ := List.exists_mem_of_ne_nil _ hpitches
  have hbeats : (c.ends : ℚ) / r = c.ends / r' :=
    (BeatNote.mk.inj (List.map_inj_left.mp hoffs pitch hmem)).1
  have hne : (c.ends : ℚ) ≠ 0 := by exact_mod_cast hends.ne'
  rw [div_eq_div_iff (by exact_mod_cast hr.ne') (by exact_mod_cast hr'.ne')] at hbeats
  exact_mod_cast (mul_left_cancel₀ hne hbeats).symm

/-- Two resolutions agree on the notes of a pattern only if it has none. -/
theorem notesOf_eq_iff {r r' : Int} {p : Pattern} (hr : 0 < r) (hr' : 0 < r') (hp : p.IsPlayable) :
    notesOf r p = notesOf r' p ↔ r = r' ∨ chordsOf p = [] := by
  obtain ⟨hchords, -⟩ := soundings_ordered hp.beats hp.rising hp.reachable
  have hsound : ∀ c ∈ chordsOf p, c.pitches ≠ [] := fun c hc => pitches_of_mem_soundings hc
  rw [notesOf, notesOf]
  constructor
  · intro hsame
    cases hcs : chordsOf p with
    | nil => exact .inr rfl
    | cons c cs =>
      -- the first chord may begin with the pattern, but it ends later: its end tells them apart
      have hmem : c ∈ chordsOf p := hcs ▸ List.mem_cons_self
      have hlast := hchords c hmem
      rw [hcs, List.flatMap_cons, List.flatMap_cons] at hsame
      obtain ⟨hfirst, -⟩ := List.append_inj hsame (by simp [Sounding.inBeats])
      exact .inl (inBeats_inj hr hr' (by omega) (hsound c hmem) hfirst)
  · rintro (rfl | hnone)
    · rfl
    · rw [hnone]
      rfl

/-! ## Another number in the header -/

/-- A file with another resolution, in the last two bytes of its header. -/
def withResolution (resolution : Int) (file : List UInt8) : List UInt8 :=
  file.take 12 ++ fixed 2 resolution.toNat ++ file.drop 14

theorem withResolution_header (resolution : Int) (count old : Nat) (rest : List UInt8) :
    withResolution resolution
        (chunk headerLetters (fixed 2 1 ++ fixed 2 count ++ fixed 2 old) ++ rest) =
      chunk headerLetters (fixed 2 1 ++ fixed 2 count ++ fixed 2 resolution.toNat) ++ rest := by
  rfl

theorem headerField_eq {r : Int} (hr : 0 ≤ r) (hfits : r ≤ 65535) :
    (r.emod 65536).toNat = r.toNat :=
  congrArg Int.toNat (Int.emod_eq_of_lt hr (by omega))

theorem write_resolution {r : Int} (hr : 0 ≤ r) (hfits : r ≤ 65535) (ts : List Track) :
    write .plain r ts = (write .plain ticksPerBeat ts).map (withResolution r) := by
  have hfield := headerField_eq hr hfits
  rw [write, write, if_neg (by simp [Layout.fits, hr, hfits]), if_neg (by decide), hfield]
  cases ts.mapM Layout.plain.trackChunk with
  | error e => rfl
  | ok chunks => exact congrArg Except.ok (withResolution_header r _ _ _).symm

theorem encode_resolution {r : Int} (hr : 0 ≤ r) (hfits : r ≤ 65535) (p : Pattern) :
    encode p .plain r = (encode p).map (withResolution r) := by
  rw [encode, encode]
  cases tracks p with
  | error e => rfl
  | ok ts => exact write_resolution hr hfits ts

/-! ## The score of a pattern at a resolution -/

/-- A file is read back with its resolution, and with the ticks that it has at any other. -/
theorem readFile_encode {p : Pattern} {r : Int} {file : List UInt8} (hr : 0 ≤ r) (hfits : r ≤ 65535)
    (h : encode p .plain r = .ok file) :
    ∃ ts f, tracks p = .ok ts ∧ readFile file = some f ∧ (f.division : Int) = r ∧
      f.tracks = ts.map (·.map Timed.event) ∧ f.notes = notesOf r p := by
  obtain ⟨ts, hts, hwrite⟩ := tracks_of_encode h
  obtain ⟨tempo, -, -, -, hchords, rfl⟩ := tracks_eq_ok hts
  obtain ⟨first, second, ⟨hfirst, hone⟩, ⟨hsecond, htwo⟩, rfl⟩ := write_eq_ok hwrite
  obtain ⟨-, hpitch⟩ := pitches_of_chordTrack hchords
  obtain ⟨hreadFirst, -⟩ := readEvents_plainBody hfirst (fitsData_tempoTrack tempo p.signature)
  obtain ⟨hreadSecond, hdeltas⟩ := readEvents_plainBody hsecond (fitsData_noteTrack hpitch)
  have hdivision : (r.toNat : Int) = r := Int.toNat_of_nonneg hr
  rw [headerField_eq hr hfits]
  have hread := readFile_division (show r.toNat < 65536 by omega) hone htwo hreadFirst hreadSecond
  refine ⟨_, _, hts, hread, hdivision, rfl, ?_⟩
  rw [ScoreFile.notes, List.flatMap_cons, List.flatMap_singleton,
    heard_noteTrack _ hdeltas (fitsData_noteTrack hpitch), hdivision]
  rfl

/-- A score at another resolution has the ticks of the standard one and says in its header that there
are more or fewer of them in a beat. So its notes keep their beats only if there are none, or if the
resolution is the standard one. -/
theorem resolution_moves_the_notes (d : Document) (picks : Picks) (drawn : Nat) (c : Composition)
    (h : (d.compile picks drawn).1 = .ok c) (p : Pattern) (hp : p ∈ c.patterns) (r : Int)
    (hpos : 0 < r) (hfits : r ≤ 65535) :
    encode p .plain r = (encode p).map (withResolution r) ∧
      ∀ standard, encode p = .ok standard → ∃ f g, readFile standard = some f ∧
        readFile (withResolution r standard) = some g ∧
        (f.division : Int) = ticksPerBeat ∧ (g.division : Int) = r ∧ g.tracks = f.tracks ∧
        f.notes = notesOf ticksPerBeat p ∧ g.notes = notesOf r p ∧
        (g.notes = f.notes ↔ r = ticksPerBeat ∨ chordsOf p = []) := by
  have hplayable := Document.compile_playable h p hp
  have hrescaled := encode_resolution hpos.le hfits p
  refine ⟨hrescaled, fun standard hstandard => ?_⟩
  rw [hstandard] at hrescaled
  obtain ⟨ts, f, hts, hread, hdivision, htracks, hnotes⟩ :=
    readFile_encode (by decide) (by decide) hstandard
  obtain ⟨ts', g, hts', hread', hdivision', htracks', hnotes'⟩ :=
    readFile_encode hpos.le hfits hrescaled
  obtain rfl := Except.ok.inj (hts.symm.trans hts')
  have hsame := htracks'.trans htracks.symm
  refine ⟨f, g, hread, hread', hdivision, hdivision', hsame, hnotes, hnotes', ?_⟩
  rw [hnotes, hnotes']
  exact notesOf_eq_iff hpos (by decide) hplayable

/-- One note, from the second beat of a bar to its end. -/
def beatDocument : Document where
  chords? := some [("One", [0])]
  patterns? := some [{ name? := some "A", events? := some [⟨1, 2, 1, "One", 0⟩] }]

def beatPattern : Pattern := ⟨"A", 120, ⟨4, 4⟩, [⟨⟨1, 2, 1⟩, [48]⟩]⟩

/-- At twice the resolution the note begins on the off-beat and ends in the middle of the bar. -/
theorem doubled_resolution_halves_the_beats :
    (beatDocument.compile id 0).1 = .ok ⟨"Unnamed composition", [beatPattern]⟩ ∧
      (0 : Int) < 960 ∧ (960 : Int) ≤ 65535 ∧ ∃ standard f g, encode beatPattern = .ok standard ∧
        encode beatPattern .plain 960 = .ok (withResolution 960 standard) ∧
        readFile standard = some f ∧ readFile (withResolution 960 standard) = some g ∧
        f.notes = [⟨1, 48, 64⟩, ⟨4, 48, 0⟩] ∧ g.notes = [⟨1 / 2, 48, 64⟩, ⟨2, 48, 0⟩] ∧
        g.notes ≠ f.notes := by
  have hrun : (beatDocument.compile id 0).1 = .ok ⟨"Unnamed composition", [beatPattern]⟩ := by
    decide +kernel
  obtain ⟨standard, hstandard⟩ := exists_of_isOk
    (by decide +kernel : (encode beatPattern).isOk = true)
  obtain ⟨hrescaled, hread⟩ := resolution_moves_the_notes beatDocument id 0 _ hrun beatPattern
    List.mem_cons_self 960 (by decide) (by decide)
  obtain ⟨f, g, hf, hg, -, -, -, hnotes, hnotes', hsame⟩ := hread standard hstandard
  have hchords : chordsOf beatPattern = [⟨[48], 480, 1920⟩] := rfl
  rw [hstandard] at hrescaled
  refine ⟨hrun, by decide, by decide, standard, f, g, hstandard, hrescaled, hf, hg, ?_, ?_, ?_⟩
  · rw [hnotes, notesOf, hchords]
    norm_num [Sounding.inBeats, ticksPerBeat]
  · rw [hnotes', notesOf, hchords]
    norm_num [Sounding.inBeats]
  · rw [Ne, hsame, hchords]
    decide

end Cadence.Score
