import Mathlib.Data.List.Forall2
import Cadence.Proofs.Score.NoteTrack
import Cadence.Proofs.Score.Reader

/-!
# Scores are read back

Each part of a file is read back from what was written for it and leaves the bytes after it alone, so
a whole file is read from its parts.
-/

namespace Cadence.Score

/-! ## Numbers -/

theorem number_append_byte (bytes : List UInt8) (b : UInt8) :
    number (bytes ++ [b]) = 256 * number bytes + b.toNat := by
  simp [number]

theorem length_fixed (width n : Nat) : (fixed width n).length = width := by
  induction width generalizing n with
  | zero => rfl
  | succ w ih => simp [fixed, ih]

theorem number_fixed {width n : Nat} (h : n < 256 ^ width) : number (fixed width n) = n := by
  induction width generalizing n with
  | zero =>
    obtain rfl : n = 0 := by simpa using h
    rfl
  | succ w ih =>
    have hhead : n / 256 < 256 ^ w := by
      rw [Nat.pow_succ] at h
      omega
    rw [fixed, number_append_byte, ih hhead, UInt8.toNat_ofNat']
    omega

theorem cut?_append {n : Nat} {piece : List UInt8} (rest : List UInt8) (h : piece.length = n) :
    cut? n (piece ++ rest) = some (piece, rest) := by
  subst h
  rw [cut?, if_pos (by simp), List.take_left, List.drop_left]

theorem readVarying_last {b : UInt8} (h : b.toNat < 128) (sofar : Nat) (rest : List UInt8) :
    readVarying sofar (b :: rest) = some (128 * sofar + b.toNat, rest) := by
  rw [readVarying, if_pos h]

theorem readVarying_more {b : UInt8} (h : ¬b.toNat < 128) (sofar : Nat) (rest : List UInt8) :
    readVarying sofar (b :: rest) = readVarying (128 * sofar + (b.toNat - 128)) rest := by
  rw [readVarying, if_neg h]

/-- After the head of a number the digits so far are the number. -/
theorem readVarying_head (n : Nat) (rest : List UInt8) :
    readVarying 0 (varyingHead n ++ rest) = readVarying n rest := by
  induction n using Nat.strongRecOn generalizing rest with
  | ind n ih =>
    rw [varyingHead]
    split
    · next hzero => rw [hzero, List.nil_append]
    · next hpos =>
      have hbyte : (UInt8.ofNat (128 + n % 128)).toNat = 128 + n % 128 := by
        rw [UInt8.toNat_ofNat']
        omega
      have hdigits : 128 * (n / 128) + (128 + n % 128 - 128) = n := by omega
      rw [List.append_assoc, ih (n / 128) (by omega), List.singleton_append,
        readVarying_more (by omega), hbyte, hdigits]

theorem readVarying_varying (n : Nat) (rest : List UInt8) :
    readVarying 0 (varying n ++ rest) = some (n, rest) := by
  have hbyte : (UInt8.ofNat (n % 128)).toNat = n % 128 := by
    rw [UInt8.toNat_ofNat']
    omega
  have hdigits : 128 * (n / 128) + n % 128 = n := by omega
  rw [varying, List.append_assoc, readVarying_head, List.singleton_append,
    readVarying_last (by omega), hbyte, hdigits]

/-! ## Events -/

/-- What a message says in a file. -/
def Message.record : Message → Record
  | tempo n => .metaEvent 0x51 (fixed 3 n.toNat)
  | signature n power =>
    .metaEvent 0x58 [UInt8.ofNat n.toNat, UInt8.ofNat power, 8, 24]
  | trackName name => .metaEvent 0x03 name.toUTF8.toList
  | note pitch velocity => .channelEvent 0x90 (UInt8.ofNat pitch.toNat) (UInt8.ofNat velocity)
  | endOfTrack => .metaEvent 0x2f []

def Timed.event (timed : Timed) : FileEvent := ⟨timed.delta.toNat, timed.message.record⟩

/-- The pitch and the velocity of a note fit a data byte. -/
def Message.FitsData (m : Message) : Prop :=
  ∀ pitch velocity, m = .note pitch velocity → (0 ≤ pitch ∧ pitch ≤ 127) ∧ velocity < 128

theorem readRecord_metaBytes (type : UInt8) (data rest : List UInt8) :
    readRecord (metaBytes type data ++ rest) = some (.metaEvent type data, rest) := by
  simp only [metaBytes, List.cons_append, List.append_assoc, readRecord, if_true,
    readVarying_varying, cut?_append rest rfl, Option.bind_eq_bind, Option.bind_some]
  rfl

theorem readRecord_note {pitch : Int} {velocity : Nat} (hlow : 0 ≤ pitch) (hhigh : pitch ≤ 127)
    (hvelocity : velocity < 128) (rest : List UInt8) :
    readRecord ((Message.note pitch velocity).bytes ++ rest) =
      some ((Message.note pitch velocity).record, rest) := by
  have hfirst : (UInt8.ofNat pitch.toNat).toNat < 128 := by
    rw [UInt8.toNat_ofNat']
    omega
  have hsecond : (UInt8.ofNat velocity).toNat < 128 := by
    rw [UInt8.toNat_ofNat']
    omega
  have hstatus : hasTwoData 0x90 = true := by decide
  have hnot : ¬(0x90 : UInt8) = 0xff := by decide
  simp only [Message.bytes, noteStatus, List.cons_append, List.nil_append, readRecord, if_neg hnot,
    hstatus, hfirst, hsecond, decide_true, Bool.and_self, if_true]
  rfl

theorem readRecord_bytes {m : Message} (h : m.FitsData) (rest : List UInt8) :
    readRecord (m.bytes ++ rest) = some (m.record, rest) := by
  cases m with
  | note pitch velocity =>
    obtain ⟨⟨hlow, hhigh⟩, hvelocity⟩ := h pitch velocity rfl
    exact readRecord_note hlow hhigh hvelocity rest
  | tempo n | signature n power | trackName name | endOfTrack => exact readRecord_metaBytes _ _ rest

theorem readEvent_timed {timed : Timed} (h : timed.message.FitsData) (rest : List UInt8) :
    readEvent (varying timed.delta.toNat ++ timed.message.bytes ++ rest) =
      some (timed.event, rest) := by
  simp only [readEvent, List.append_assoc, readVarying_varying, readRecord_bytes h,
    Option.bind_eq_bind, Option.bind_some]
  rfl

theorem readEvents_cons {bytes rest : List UInt8} {event : FileEvent}
    (h : readEvent bytes = some (event, rest)) :
    readEvents bytes = (readEvents rest).map (event :: ·) := by
  have hne : bytes ≠ [] := by
    rintro rfl
    cases h
  rw [readEvents, if_neg hne]
  split
  · next event' rest' h' =>
    rw [h] at h'
    obtain ⟨rfl, rfl⟩ := Prod.mk.inj (Option.some.inj h')
    rfl
  · next h' =>
    rw [h] at h'
    cases h'

/-- A track that can be written has no negative delta, and it is read back event by event. -/
theorem readEvents_plainBody {track : Track} {body : List UInt8} (h : plainBody track = .ok body)
    (hfits : ∀ timed ∈ track, timed.message.FitsData) :
    readEvents body = some (track.map Timed.event) ∧ ∀ timed ∈ track, 0 ≤ timed.delta := by
  induction track generalizing body with
  | nil =>
    obtain rfl := Except.ok.inj h
    rw [readEvents, if_pos rfl]
    simp
  | cons timed track ih =>
    rw [plainBody] at h
    split at h
    · cases h
    · next hdelta =>
      cases hrest : plainBody track with
      | error e =>
        rw [hrest] at h
        cases h
      | ok tail =>
        rw [hrest] at h
        obtain rfl := Except.ok.inj h
        obtain ⟨hread, hdeltas⟩ := ih hrest fun t ht => hfits t (List.mem_cons_of_mem _ ht)
        rw [readEvents_cons (readEvent_timed (hfits timed List.mem_cons_self) tail), hread]
        refine ⟨rfl, ?_⟩
        intro t ht
        rcases List.mem_cons.mp ht with rfl | ht
        · omega
        · exact hdeltas t ht

/-! ## Chunks -/

theorem readChunk_chunk {letters : String} {letterBytes body : List UInt8}
    (hletters : letters.toList.map (UInt8.ofNat ∘ Char.toNat) = letterBytes)
    (hfour : letterBytes.length = 4) (hbody : body.length < 2 ^ 32) (rest : List UInt8) :
    readChunk letters (chunk letterBytes body ++ rest) = some (body, rest) := by
  simp only [readChunk, chunk, List.append_assoc, cut?_append _ hfour,
    cut?_append _ (length_fixed 4 body.length), Option.bind_eq_bind, Option.bind_some, hletters,
    if_true, number_fixed (show body.length < 256 ^ 4 from hbody), cut?_append rest rfl]

section

variable {readBody : List UInt8 → Option (List FileEvent)} {first second : List UInt8}
  {firstEvents secondEvents : List FileEvent}

theorem readTracksBy_succ {count : Nat} {body rest end' : List UInt8} {events : List FileEvent}
    {others : List (List FileEvent)} (hbody : body.length < 2 ^ 32)
    (hevents : readBody body = some events)
    (hothers : readTracksBy readBody count rest = some (others, end')) :
    readTracksBy readBody (count + 1) (chunk trackLetters body ++ rest) =
      some (events :: others, end') := by
  have hchunk : readChunk "MTrk" (chunk trackLetters body ++ rest) = some (body, rest) :=
    readChunk_chunk rfl rfl hbody rest
  simp only [readTracksBy, hchunk, hevents, hothers, Option.bind_eq_bind, Option.bind_some]
  rfl

theorem readHeader_fixed {division : Nat} (h : division < 65536) :
    readHeader (fixed 2 1 ++ fixed 2 2 ++ fixed 2 division) = some (1, 2, division) := by
  have hfield : number (fixed 2 division) = division := number_fixed h
  simp only [fixed, List.nil_append, List.cons_append] at hfield
  simp only [fixed, List.nil_append, List.cons_append, readHeader, hfield]
  rfl

/-- In whatever way bodies are read, a file of two tracks is read by its chunks. -/
theorem readFileBy_division {division : Nat} (hdivision : division < 65536)
    (hfirst : first.length < 2 ^ 32) (hsecond : second.length < 2 ^ 32)
    (hread : readBody first = some firstEvents) (hread' : readBody second = some secondEvents) :
    readFileBy readBody (chunk headerLetters (fixed 2 1 ++ fixed 2 2 ++ fixed 2 division) ++
        (chunk trackLetters first ++ chunk trackLetters second)) =
      some { format := 1, division, tracks := [firstEvents, secondEvents] } := by
  have hheader : ∀ rest, readChunk "MThd" (chunk headerLetters
      (fixed 2 1 ++ fixed 2 2 ++ fixed 2 division) ++ rest) =
        some (fixed 2 1 ++ fixed 2 2 ++ fixed 2 division, rest) :=
    readChunk_chunk rfl rfl (by simp [length_fixed])
  have hnone : readTracksBy readBody 0 [] = some ([], []) := rfl
  have htracks := readTracksBy_succ hfirst hread (readTracksBy_succ hsecond hread' hnone)
  rw [List.append_nil] at htracks
  simp only [readFileBy, hheader, readHeader_fixed hdivision, htracks, Option.bind_eq_bind,
    Option.bind_some, if_true]

theorem readFile_division {division : Nat} (hdivision : division < 65536)
    (hfirst : first.length < 2 ^ 32) (hsecond : second.length < 2 ^ 32)
    (hread : readEvents first = some firstEvents) (hread' : readEvents second = some secondEvents) :
    readFile (chunk headerLetters (fixed 2 1 ++ fixed 2 2 ++ fixed 2 division) ++
        (chunk trackLetters first ++ chunk trackLetters second)) =
      some { format := 1, division, tracks := [firstEvents, secondEvents] } := by
  rw [← readFileBy_readEvents]
  exact readFileBy_division hdivision hfirst hsecond hread hread'

/-- The files of the resolution that every score has. -/
theorem readFile_chunks (hfirst : first.length < 2 ^ 32) (hsecond : second.length < 2 ^ 32)
    (hread : readEvents first = some firstEvents) (hread' : readEvents second = some secondEvents) :
    readFile (chunk headerLetters (fixed 2 1 ++ fixed 2 2 ++ fixed 2 480) ++
        (chunk trackLetters first ++ chunk trackLetters second)) =
      some { format := 1, division := 480, tracks := [firstEvents, secondEvents] } :=
  readFile_division (by decide) hfirst hsecond hread hread'

end

/-! ## What is written -/

/-- A pattern that has tracks has a tempo, a numerator and notes that fit their fields. -/
theorem tracks_eq_ok {p : Pattern} {ts : List Track} (h : tracks p = .ok ts) :
    ∃ tempo, tempoOf? p.bpm = some tempo ∧ (0 ≤ tempo ∧ tempo ≤ 16777215) ∧
      (0 ≤ p.signature.numerator ∧ p.signature.numerator ≤ 255) ∧
      chordTrack p = .ok (noteTrack p) ∧ ts = [tempoTrack tempo p.signature, noteTrack p] := by
  rw [tracks] at h
  split at h
  · cases h
  · next tempo htempo =>
    split at h
    · cases h
    · split at h
      · cases h
      · cases hchords : chordTrack p with
        | error e =>
          rw [hchords] at h
          cases h
        | ok track =>
          rw [hchords] at h
          obtain ⟨rfl, -⟩ := pitches_of_chordTrack hchords
          exact ⟨tempo, htempo, by omega, by omega, rfl, (Except.ok.inj h).symm⟩

theorem Layout.trackChunk_of_body {layout : Layout} {track : Track} {body : List UInt8}
    (h : layout.body track = .ok body) (hlength : body.length < 2 ^ 32) :
    layout.trackChunk track = .ok (chunk trackLetters body) := by
  rw [trackChunk, h]
  exact if_pos hlength

theorem trackChunk_eq_ok {track : Track} {bytes : List UInt8}
    (h : Layout.plain.trackChunk track = .ok bytes) :
    ∃ body, plainBody track = .ok body ∧ body.length < 2 ^ 32 ∧ bytes = chunk trackLetters body := by
  rw [Layout.trackChunk, Layout.body] at h
  cases hbody : plainBody track with
  | error e =>
    rw [hbody] at h
    cases h
  | ok body =>
    simp only [hbody] at h
    split at h
    · next hlength => exact ⟨body, rfl, hlength, (Except.ok.inj h).symm⟩
    · cases h

/-- The file of two tracks with these bodies, at the resolution that every score has. -/
def fileOf (first second : List UInt8) : List UInt8 :=
  chunk headerLetters (fixed 2 1 ++ fixed 2 2 ++ fixed 2 480) ++
    (chunk trackLetters first ++ chunk trackLetters second)

theorem length_fileOf (first second : List UInt8) :
    (fileOf first second).length = first.length + second.length + 30 := by
  simp [fileOf, chunk, headerLetters, trackLetters, length_fixed]
  omega

theorem write_of_bodies (layout : Layout) {a b : Track} {first second : List UInt8}
    (hfirst : layout.body a = .ok first) (hone : first.length < 2 ^ 32)
    (hsecond : layout.body b = .ok second) (htwo : second.length < 2 ^ 32) :
    write layout ticksPerBeat [a, b] = .ok (fileOf first second) := by
  have hfits : layout.fits ticksPerBeat = true := by cases layout <;> rfl
  rw [write, hfits, if_neg (by decide)]
  simp only [List.mapM_cons, List.mapM_nil, Layout.trackChunk_of_body hfirst hone,
    Layout.trackChunk_of_body hsecond htwo, bind, Except.bind, pure, Except.pure, List.flatten_cons,
    List.flatten_nil, List.append_nil]
  rfl

/-- A file of two tracks is its header, with the resolution in it, and their chunks. -/
theorem write_eq_ok {resolution : Int} {a b : Track} {file : List UInt8}
    (h : write .plain resolution [a, b] = .ok file) :
    ∃ first second, (plainBody a = .ok first ∧ first.length < 2 ^ 32) ∧
      (plainBody b = .ok second ∧ second.length < 2 ^ 32) ∧
      file = chunk headerLetters
          (fixed 2 1 ++ fixed 2 2 ++ fixed 2 (resolution.emod 65536).toNat) ++
        (chunk trackLetters first ++ chunk trackLetters second) := by
  rw [write] at h
  split at h
  · cases h
  cases hfirst : Layout.plain.trackChunk a with
  | error e =>
    simp only [List.mapM_cons, hfirst] at h
    cases h
  | ok one =>
    cases hsecond : Layout.plain.trackChunk b with
    | error e =>
      simp only [List.mapM_cons, hfirst, hsecond] at h
      cases h
    | ok two =>
      simp only [List.mapM_cons, List.mapM_nil, hfirst, hsecond] at h
      obtain ⟨first, hbody, hlength, rfl⟩ := trackChunk_eq_ok hfirst
      obtain ⟨second, hbody', hlength', rfl⟩ := trackChunk_eq_ok hsecond
      refine ⟨first, second, ⟨hbody, hlength⟩, ⟨hbody', hlength'⟩, ?_⟩
      rw [← Except.ok.inj h, List.flatten_cons, List.flatten_singleton]
      rfl

/-- The same at the resolution that every score has. -/
theorem write_pair {a b : Track} {file : List UInt8}
    (h : write .plain ticksPerBeat [a, b] = .ok file) :
    ∃ first second, plainBody a = .ok first ∧ plainBody b = .ok second ∧
      file = chunk headerLetters (fixed 2 1 ++ fixed 2 2 ++ fixed 2 480) ++
        (chunk trackLetters first ++ chunk trackLetters second) := by
  obtain ⟨first, second, ⟨hfirst, -⟩, ⟨hsecond, -⟩, hfile⟩ := write_eq_ok h
  exact ⟨first, second, hfirst, hsecond, hfile⟩

theorem tracks_of_encode {p : Pattern} {layout : Layout} {resolution : Int} {file : List UInt8}
    (h : encode p layout resolution = .ok file) :
    ∃ ts, tracks p = .ok ts ∧ write layout resolution ts = .ok file := by
  rw [encode] at h
  cases hts : tracks p with
  | error e =>
    rw [hts] at h
    cases h
  | ok ts =>
    rw [hts] at h
    exact ⟨ts, rfl, h⟩

/-- A score is the file of its two tracks. -/
theorem encode_eq_ok {p : Pattern} {file : List UInt8} (h : encode p = .ok file) :
    ∃ tempo, tempoOf? p.bpm = some tempo ∧ (0 ≤ tempo ∧ tempo ≤ 16777215) ∧
      (0 ≤ p.signature.numerator ∧ p.signature.numerator ≤ 255) ∧
      chordTrack p = .ok (noteTrack p) ∧
      write .plain ticksPerBeat [tempoTrack tempo p.signature, noteTrack p] = .ok file := by
  obtain ⟨ts, hts, hwrite⟩ := tracks_of_encode h
  obtain ⟨tempo, htempo, hrange, hnumerator, hchords, rfl⟩ := tracks_eq_ok hts
  exact ⟨tempo, htempo, hrange, hnumerator, hchords, hwrite⟩

theorem varying_of_lt {n : Nat} (h : n < 128) : varying n = [UInt8.ofNat n] := by
  rw [varying, Nat.div_eq_of_lt h, varyingHead, if_pos rfl, List.nil_append, Nat.mod_eq_of_lt h]

theorem length_tempoTrack {tempo : Int} {s : Signature} {body : List UInt8}
    (h : plainBody (tempoTrack tempo s) = .ok body) : body.length = 19 := by
  have hzero : varying 0 = [0] := varying_of_lt (by omega)
  have hthree : varying 3 = [3] := varying_of_lt (by omega)
  have hfour : varying 4 = [4] := varying_of_lt (by omega)
  simp only [tempoTrack, plainBody, Message.bytes, metaBytes, length_fixed, List.length_cons,
    List.length_nil, Int.toNat_zero, hzero, hthree, hfour, lt_irrefl, if_false, Except.map] at h
  rw [← Except.ok.inj h]
  simp [length_fixed]

theorem message_of_mem_chordMessages {delta : Int} {velocity : Nat} {pitches : List Int}
    {timed : Timed} (h : timed ∈ chordMessages delta velocity pitches) :
    ∃ pitch ∈ pitches, timed.message = .note pitch velocity := by
  cases pitches with
  | nil => cases h
  | cons p ps =>
    rcases List.mem_cons.mp h with rfl | h
    · exact ⟨p, List.mem_cons_self, rfl⟩
    · obtain ⟨q, hq, rfl⟩ := List.mem_map.mp h
      exact ⟨q, List.mem_cons_of_mem _ hq, rfl⟩

/-- All messages of events are notes, each at a pitch of an event. -/
theorem message_of_mem_noteMessages {s : Signature} {now : Int} {events : List Event} {timed : Timed}
    (h : timed ∈ noteMessages s now events) :
    ∃ e ∈ events, ∃ pitch ∈ e.pitches, timed.message = .note pitch onVelocity ∨
      timed.message = .note pitch offVelocity := by
  induction events generalizing now with
  | nil => cases h
  | cons event rest ih =>
    rw [noteMessages] at h
    split at h
    · obtain ⟨e, he, hpitch⟩ := ih h
      exact ⟨e, List.mem_cons_of_mem _ he, hpitch⟩
    · rw [List.mem_append, List.mem_append] at h
      rcases h with (hon | hoff) | hrest
      · obtain ⟨pitch, hpitch, hmessage⟩ := message_of_mem_chordMessages hon
        exact ⟨event, List.mem_cons_self, pitch, hpitch, .inl hmessage⟩
      · obtain ⟨pitch, hpitch, hmessage⟩ := message_of_mem_chordMessages hoff
        exact ⟨event, List.mem_cons_self, pitch, hpitch, .inr hmessage⟩
      · obtain ⟨e, he, hpitch⟩ := ih hrest
        exact ⟨e, List.mem_cons_of_mem _ he, hpitch⟩

/-- A message is a note that fits its data bytes. -/
def Message.IsNote (m : Message) : Prop :=
  ∃ pitch velocity, m = .note pitch velocity ∧ (0 ≤ pitch ∧ pitch ≤ 127) ∧ velocity < 128

theorem Message.IsNote.fitsData {m : Message} (h : m.IsNote) : m.FitsData := by
  obtain ⟨pitch, velocity, rfl, hpitch, hvelocity⟩ := h
  rintro _ _ ⟨⟩
  exact ⟨hpitch, hvelocity⟩

theorem fitsData_tempoTrack (tempo : Int) (s : Signature) :
    ∀ timed ∈ tempoTrack tempo s, timed.message.FitsData := by
  intro timed h
  rcases List.mem_cons.mp h with rfl | h
  · rintro _ _ ⟨⟩
  · rcases List.mem_cons.mp h with rfl | h
    · rintro _ _ ⟨⟩
    · obtain rfl := List.mem_singleton.mp h
      rintro _ _ ⟨⟩

theorem isNote_of_mem_noteMessages {s : Signature} {now : Int} {events : List Event}
    (hpitch : ∀ e ∈ events, ∀ pitch ∈ e.pitches, 0 ≤ pitch ∧ pitch ≤ 127) :
    ∀ timed ∈ noteMessages s now events, timed.message.IsNote := by
  intro timed h
  obtain ⟨e, he, pitch, hmem, hmessage | hmessage⟩ := message_of_mem_noteMessages h
  · exact ⟨pitch, onVelocity, hmessage, hpitch e he pitch hmem, by decide⟩
  · exact ⟨pitch, offVelocity, hmessage, hpitch e he pitch hmem, by decide⟩

theorem fitsData_noteTrack {p : Pattern}
    (hpitch : ∀ e ∈ p.events, ∀ pitch ∈ e.pitches, 0 ≤ pitch ∧ pitch ≤ 127) :
    ∀ timed ∈ noteTrack p, timed.message.FitsData := by
  intro timed h
  rw [noteTrack, List.mem_append, List.mem_cons, List.mem_singleton] at h
  rcases h with (rfl | hnote) | rfl
  · rintro _ _ ⟨⟩
  · exact (isNote_of_mem_noteMessages hpitch timed hnote).fitsData
  · rintro _ _ ⟨⟩

/-! ## The score of a pattern -/

/-- The binary logarithm of the denominators that are supported, zero for the others. -/
def denominatorLog (s : Signature) : Nat :=
  if s.denominator ∈ [2, 4, 8, 16, 32, 64] then s.denominator.toNat.log2 else 0

theorem power_eq (s : Signature) : s.power = denominatorLog s := by
  have hall : ∀ d ∈ [2, 4, 8, 16, 32, 64], (⟨1, d⟩ : Signature).power = d.toNat.log2 := by decide
  by_cases h : s.denominator ∈ [2, 4, 8, 16, 32, 64]
  · rw [denominatorLog, if_pos h]
    exact hall s.denominator h
  · have hnone : s.power? = none := by
      rw [Signature.power?, List.lookup_eq_none_iff]
      simpa using h
    rw [denominatorLog, if_neg h, Signature.power, hnone]
    rfl

theorem denominatorLog_lt (s : Signature) : denominatorLog s < 256 := by
  have hall : ∀ d ∈ [2, 4, 8, 16, 32, 64], (Int.toNat d).log2 < 256 := by decide
  rw [denominatorLog]
  split
  · next h => exact hall s.denominator h
  · omega

/-- The length of a track's chunk fits the field that carries it. -/
def FitsChunk (track : Track) : Prop := ∀ body, plainBody track = .ok body → body.length < 2 ^ 32

/-- A note of a track and a note of a file, on the first channel. -/
def SameNote (timed : Timed) (event : FileEvent) : Prop :=
  ∃ pitch velocity : UInt8, timed.message = .note pitch.toNat velocity.toNat ∧
    timed.delta = event.delta ∧ event.record = .channelEvent 0x90 pitch velocity

theorem sameNote_event {timed : Timed} (h : timed.message.IsNote) (hdelta : 0 ≤ timed.delta) :
    SameNote timed timed.event := by
  obtain ⟨pitch, velocity, hmessage, ⟨hlow, hhigh⟩, hvelocity⟩ := h
  have hp : ((UInt8.ofNat pitch.toNat).toNat : Int) = pitch := by
    rw [UInt8.toNat_ofNat']
    omega
  have hv : (UInt8.ofNat velocity).toNat = velocity := by
    rw [UInt8.toNat_ofNat']
    omega
  refine ⟨UInt8.ofNat pitch.toNat, UInt8.ofNat velocity, ?_, ?_, ?_⟩
  · rw [hmessage, hp, hv]
  · simp only [Timed.event]
    omega
  · simp only [Timed.event, hmessage, Message.record]

/-- A score is read back, with nothing left over: its tempo and its signature, then its name and its
notes as they are in the track of its chords. -/
theorem reading_undoes_writing (p : Pattern) (file : List UInt8) (h : encode p = .ok file)
    (hsize : FitsChunk (noteTrack p)) :
    ∃ tempo tempoData signatureData notes noteEvents,
      tempoOf? p.bpm = some tempo ∧ tempoData.length = 3 ∧ (number tempoData : Int) = tempo ∧
      signatureData.map (fun b => (b.toNat : Int)) =
        [p.signature.numerator, denominatorLog p.signature, 8, 24] ∧
      p.name.isWhole = true ∧
      chordTrack p = .ok (⟨0, .trackName p.name.text⟩ :: notes ++ [⟨0, .endOfTrack⟩]) ∧
      List.Forall₂ SameNote notes noteEvents ∧
      readFile file = some
        { format := 1
          division := 480
          tracks :=
            [[⟨0, .metaEvent 0x51 tempoData⟩, ⟨0, .metaEvent 0x58 signatureData⟩,
                ⟨0, .metaEvent 0x2f []⟩],
              ⟨0, .metaEvent 0x03 p.name.text.toUTF8.toList⟩ :: noteEvents ++
                [⟨0, .metaEvent 0x2f []⟩]] } := by
  obtain ⟨tempo, htempo, hrange, hnumerator, hchords, hwrite⟩ := encode_eq_ok h
  obtain ⟨first, second, hfirst, hsecond, rfl⟩ := write_pair hwrite
  obtain ⟨-, hpitch⟩ := pitches_of_chordTrack hchords
  have hnotes : ∀ timed ∈ noteMessages p.signature 0 p.events, timed.message.IsNote :=
    isNote_of_mem_noteMessages hpitch
  obtain ⟨hreadFirst, -⟩ := readEvents_plainBody hfirst (fitsData_tempoTrack tempo p.signature)
  obtain ⟨hreadSecond, hdeltas⟩ := readEvents_plainBody hsecond (fitsData_noteTrack hpitch)
  have hlength := length_tempoTrack hfirst
  have hread := readFile_chunks (by omega) (hsize second hsecond) hreadFirst hreadSecond
  refine ⟨tempo, fixed 3 tempo.toNat, [UInt8.ofNat p.signature.numerator.toNat,
    UInt8.ofNat p.signature.power, 8, 24], noteMessages p.signature 0 p.events,
    (noteMessages p.signature 0 p.events).map Timed.event, htempo, length_fixed 3 _, ?_, ?_,
    isWhole_of_chordTrack hchords, hchords, ?_, ?_⟩
  · rw [number_fixed (by omega)]
    omega
  · have hlog := denominatorLog_lt p.signature
    rw [power_eq]
    simp only [List.map_cons, List.map_nil, UInt8.toNat_ofNat', List.cons.injEq, and_true]
    refine ⟨by omega, by omega, rfl, rfl⟩
  · rw [List.forall₂_map_right_iff, List.forall₂_same]
    intro timed h
    exact sameNote_event (hnotes timed h) (hdeltas timed (by simp [noteTrack, h]))
  · rw [hread]
    simp [noteTrack, tempoTrack, Timed.event, Message.record]

/-- A name that is not ASCII, a pitch twice in a chord, and a delta of three bytes. -/
def longPattern : Pattern :=
  ⟨"Ré", 120, ⟨7, 8⟩, [⟨⟨1, 1, 3⟩, [48, 48]⟩, ⟨⟨40, 1, 1⟩, []⟩]⟩

def longFile : List UInt8 :=
  [0x4d, 0x54, 0x68, 0x64, 0, 0, 0, 6, 0, 1, 0, 2, 0x01, 0xe0,
    0x4d, 0x54, 0x72, 0x6b, 0, 0, 0, 19,
    0, 0xff, 0x51, 3, 0x07, 0xa1, 0x20, 0, 0xff, 0x58, 4, 7, 3, 8, 24, 0, 0xff, 0x2f, 0,
    0x4d, 0x54, 0x72, 0x6b, 0, 0, 0, 29,
    0, 0xff, 0x03, 3, 0x52, 0xc3, 0xa9, 0x78, 0x90, 48, 64, 0, 0x90, 48, 64,
    0x87, 0xfe, 0x68, 0x90, 48, 0, 0, 0x90, 48, 0, 0, 0xff, 0x2f, 0]

theorem long_file_is_read_back :
    encode longPattern = .ok longFile ∧ FitsChunk (noteTrack longPattern) ∧
      ∃ tempoData signatureData noteEvents,
        tempoData.length = 3 ∧ number tempoData = 500000 ∧
        signatureData.map (fun b => (b.toNat : Int)) = [7, 3, 8, 24] ∧
        List.Forall₂ SameNote
          [⟨120, .note 48 64⟩, ⟨0, .note 48 64⟩, ⟨130920, .note 48 0⟩, ⟨0, .note 48 0⟩] noteEvents ∧
        readFile longFile = some ⟨1, 480,
          [[⟨0, .metaEvent 0x51 tempoData⟩, ⟨0, .metaEvent 0x58 signatureData⟩,
              ⟨0, .metaEvent 0x2f []⟩],
            ⟨0, .metaEvent 0x03 [0x52, 0xc3, 0xa9]⟩ :: noteEvents ++ [⟨0, .metaEvent 0x2f []⟩]]⟩ := by
  have hfile : encode longPattern = .ok longFile := by decide +kernel
  have hsize : FitsChunk (noteTrack longPattern) := by
    intro body hbody
    have hplain : plainBody (noteTrack longPattern) = .ok (longFile.drop 49) := by decide +kernel
    rw [hplain] at hbody
    rw [← Except.ok.inj hbody]
    decide
  obtain ⟨tempo, tempoData, signatureData, notes, noteEvents, htempo, hlength, hnumber, hsignature,
    -, htrack, hsame, hread⟩ := reading_undoes_writing longPattern longFile hfile hsize
  have hnotes : notes = noteMessages longPattern.signature 0 longPattern.events := by
    have htracks := Except.ok.inj ((chordTrack_eq (p := longPattern) rfl (by decide)).symm.trans htrack)
    simpa [noteTrack] using htracks.symm
  have htempo' : tempo = 500000 := by
    have hbeat : tempoOf? longPattern.bpm = some 500000 := by decide
    exact Option.some.inj (htempo.symm.trans hbeat)
  have hlog : denominatorLog longPattern.signature = 3 := by decide
  have hname : longPattern.name.text.toUTF8.toList = [0x52, 0xc3, 0xa9] := by decide +kernel
  have hmessages : noteMessages longPattern.signature 0 longPattern.events =
      [⟨120, .note 48 64⟩, ⟨0, .note 48 64⟩, ⟨130920, .note 48 0⟩, ⟨0, .note 48 0⟩] := by decide
  rw [hnotes, hmessages] at hsame
  rw [htempo'] at hnumber
  rw [hlog] at hsignature
  rw [hname] at hread
  exact ⟨hfile, hsize, tempoData, signatureData, noteEvents, hlength, by omega, hsignature, hsame,
    hread⟩

end Cadence.Score
