import Cadence.Proofs.Score.RoundTrip

/-!
# Scores without repeated status bytes

A note may leave out its status byte where the message before it was a note. A reader that remembers
the last status byte puts it back, so it reads a track in either layout, and the layouts of one pattern
carry the same score.
-/

namespace Cadence.Score

/-! ## A reader that remembers the status -/

/-- The status byte that an event leaves for the next one. One for no channel leaves none. -/
def Record.status? : Record → Option UInt8
  | metaEvent _ _ => none
  | channelEvent status _ _ => some status

/-- An event with the status byte that it has left out: it begins with a data byte, below 128. -/
def restoreStatus : Option UInt8 → List UInt8 → List UInt8
  | some status, b :: rest => if b.toNat < 128 then status :: b :: rest else b :: rest
  | _, bytes => bytes

/-- An event after one that left a status byte. -/
def readEventUnder (status? : Option UInt8) (bytes : List UInt8) : Option (FileEvent × List UInt8) := do
  let (delta, rest) ← readVarying 0 bytes
  let (record, rest) ← readRecord (restoreStatus status? rest)
  return (⟨delta, record⟩, rest)

theorem length_restoreStatus_le (status? : Option UInt8) (bytes : List UInt8) :
    (restoreStatus status? bytes).length ≤ bytes.length + 1 := by
  unfold restoreStatus
  split
  · split <;> simp
  · simp

theorem readEventUnder_lt {status? : Option UInt8} {bytes rest : List UInt8} {event : FileEvent}
    (h : readEventUnder status? bytes = some (event, rest)) : rest.length < bytes.length := by
  simp only [readEventUnder, Option.bind_eq_bind, Option.bind_eq_some_iff] at h
  obtain ⟨⟨delta, middle⟩, hdelta, ⟨record, tail⟩, hrecord, h⟩ := h
  obtain ⟨-, rfl⟩ := Prod.mk.inj (Option.some.inj h)
  have := readVarying_lt hdelta
  have := readRecord_lt hrecord
  have := length_restoreStatus_le status? middle
  dsimp only at *
  omega

/-- All events of a track after one that left a status byte. Nothing may be left over. -/
def readEventsUnder (status? : Option UInt8) (bytes : List UInt8) : Option (List FileEvent) :=
  if bytes = [] then some []
  else match h : readEventUnder status? bytes with
    | some (event, rest) =>
      have : rest.length < bytes.length := readEventUnder_lt h
      (readEventsUnder event.record.status? rest).map (event :: ·)
    | none => none
termination_by bytes.length

/-- Reads a file in which status bytes may be left out. -/
def readRunningFile (bytes : List UInt8) : Option ScoreFile := readFileBy (readEventsUnder none) bytes

theorem readEventsUnder_cons {status? : Option UInt8} {bytes rest : List UInt8} {event : FileEvent}
    (h : readEventUnder status? bytes = some (event, rest)) :
    readEventsUnder status? bytes =
      (readEventsUnder event.record.status? rest).map (event :: ·) := by
  have hne : bytes ≠ [] := by
    rintro rfl
    cases h
  rw [readEventsUnder, if_neg hne]
  split
  · next event' rest' h' =>
    rw [h] at h'
    obtain ⟨rfl, rfl⟩ := Prod.mk.inj (Option.some.inj h')
    rfl
  · next h' =>
    rw [h] at h'
    cases h'

/-! ## Tracks with every status byte -/

/-- What is read as an event begins with a status byte. -/
theorem le_of_readRecord {b : UInt8} {rest : List UInt8} {r : Record × List UInt8}
    (h : readRecord (b :: rest) = some r) : 128 ≤ b.toNat := by
  cases rest with
  | nil => cases h
  | cons first rest =>
    simp only [readRecord] at h
    split at h
    · next hmeta =>
      rw [hmeta]
      decide
    · split at h
      · split at h
        · next hbytes =>
          have hstatus : hasTwoData b = true := by simp_all
          simp only [hasTwoData, List.contains_eq_mem, decide_eq_true_eq, List.mem_cons,
            List.not_mem_nil, or_false] at hstatus
          omega
        · cases h
      · cases h

theorem restoreStatus_of_readRecord {bytes : List UInt8} {r : Record × List UInt8}
    (h : readRecord bytes = some r) (status? : Option UInt8) : restoreStatus status? bytes = bytes := by
  cases status? with
  | none => rfl
  | some status =>
    cases bytes with
    | nil => rfl
    | cons b rest => exact if_neg (not_lt.mpr (le_of_readRecord h))

theorem readEventUnder_of_readEvent {bytes : List UInt8} {r : FileEvent × List UInt8}
    (h : readEvent bytes = some r) (status? : Option UInt8) : readEventUnder status? bytes = some r := by
  simp only [readEvent, Option.bind_eq_bind, Option.bind_eq_some_iff] at h
  obtain ⟨⟨delta, middle⟩, hdelta, ⟨record, tail⟩, hrecord, h⟩ := h
  simp only [readEventUnder, hdelta, Option.bind_eq_bind, Option.bind_some,
    restoreStatus_of_readRecord hrecord, hrecord]
  exact h

/-- A track that is read without any memory is read the same with it. -/
theorem readEventsUnder_of_readEvents {bytes : List UInt8} {events : List FileEvent}
    (h : readEvents bytes = some events) (status? : Option UInt8) :
    readEventsUnder status? bytes = some events := by
  -- the cases are those of the reader without memory; what the other one remembers never matters
  induction bytes using readEvents.induct generalizing events status? with
  | case1 =>
    rw [readEvents, if_pos rfl] at h
    rwa [readEventsUnder, if_pos rfl]
  | case2 bytes hne event rest hevent hlt ih =>
    rw [readEvents_cons hevent, Option.map_eq_some_iff] at h
    obtain ⟨others, hothers, rfl⟩ := h
    rw [readEventsUnder_cons (readEventUnder_of_readEvent hevent status?), ih hothers]
    rfl
  | case3 bytes hne hnone =>
    rw [readEvents, if_neg hne] at h
    split at h
    · next hsome => rw [hnone] at hsome; cases hsome
    · cases h

/-! ## Tracks without repeated status bytes -/

/-- The status byte that a note leaves, and that anything else takes away. -/
def statusAfter (afterNote : Bool) : Option UInt8 := if afterNote then some noteStatus else none

theorem status?_record (m : Message) : m.record.status? = statusAfter m.isNote := by
  cases m <;> rfl

theorem restoreStatus_written {m : Message} (h : m.FitsData) (afterNote : Bool) (rest : List UInt8) :
    restoreStatus (statusAfter afterNote)
        (m.bytes.drop (if afterNote && m.isNote then 1 else 0) ++ rest) = m.bytes ++ rest := by
  cases hleft : afterNote && m.isNote with
  | false => exact restoreStatus_of_readRecord (readRecord_bytes h rest) _
  | true =>
    obtain ⟨rfl, hnote⟩ := (Bool.and_eq_true _ _).mp hleft
    cases m with
    | note pitch velocity =>
      obtain ⟨⟨hlow, hhigh⟩, -⟩ := h pitch velocity rfl
      have hdata : (UInt8.ofNat pitch.toNat).toNat < 128 := by
        rw [UInt8.toNat_ofNat']
        omega
      exact if_pos hdata
    | tempo _ | signature _ _ | trackName _ | endOfTrack => cases hnote

theorem readEventUnder_written {timed : Timed} (h : timed.message.FitsData) (afterNote : Bool)
    (rest : List UInt8) :
    readEventUnder (statusAfter afterNote) (varying timed.delta.toNat ++
        timed.message.bytes.drop (if afterNote && timed.message.isNote then 1 else 0) ++ rest) =
      some (timed.event, rest) := by
  simp only [readEventUnder, List.append_assoc, readVarying_varying, restoreStatus_written h,
    readRecord_bytes h, Option.bind_eq_bind, Option.bind_some]
  rfl

/-- The same events are read from a track whose notes leave out what they can. -/
theorem readEventsUnder_runningBody {track : Track} {afterNote : Bool} {body : List UInt8}
    (h : runningBody afterNote track = .ok body) (hfits : ∀ timed ∈ track, timed.message.FitsData) :
    readEventsUnder (statusAfter afterNote) body = some (track.map Timed.event) := by
  induction track generalizing afterNote body with
  | nil =>
    obtain rfl := Except.ok.inj h
    rw [readEventsUnder, if_pos rfl]
    rfl
  | cons timed track ih =>
    rw [runningBody] at h
    split at h
    · cases h
    · cases hrest : runningBody timed.message.isNote track with
      | error e =>
        rw [hrest] at h
        cases h
      | ok tail =>
        rw [hrest] at h
        obtain rfl := Except.ok.inj h
        have hhere := readEventUnder_written (hfits timed List.mem_cons_self) afterNote tail
        rw [readEventsUnder_cons hhere, Timed.event, status?_record,
          ih hrest fun t ht => hfits t (List.mem_cons_of_mem _ ht)]
        rfl

/-! ## Lengths -/

/-- The status bytes that are left out: one for each note after a note. -/
def leftOut (afterNote : Bool) : Track → Nat
  | [] => 0
  | timed :: rest =>
    (if afterNote && timed.message.isNote then 1 else 0) + leftOut timed.message.isNote rest

/-- What can be written with every status byte can be written without, and is shorter by those. -/
theorem runningBody_of_plainBody {track : Track} {body : List UInt8} (h : plainBody track = .ok body)
    (afterNote : Bool) : ∃ compact, runningBody afterNote track = .ok compact ∧
      compact.length + leftOut afterNote track = body.length := by
  induction track generalizing afterNote body with
  | nil =>
    obtain rfl := Except.ok.inj h
    exact ⟨[], rfl, rfl⟩
  | cons timed track ih =>
    rw [plainBody] at h
    split at h
    · cases h
    · next hdelta =>
      cases hrest : plainBody track with
      | error e =>
        rw [hrest] at h
        cases h
      | ok tail =>
        rw [hrest] at h
        obtain rfl := Except.ok.inj h
        obtain ⟨compact, hcompact, hlength⟩ := ih hrest timed.message.isNote
        have hbytes : 1 ≤ timed.message.bytes.length := by
          cases timed.message <;> exact Nat.succ_pos _
        rw [runningBody, if_neg hdelta, hcompact]
        refine ⟨_, rfl, ?_⟩
        simp only [leftOut, List.length_append, List.length_drop]
        split <;> omega

/-- How many messages of a track are notes. -/
def noteCount (track : Track) : Nat := track.countP (·.message.isNote)

/-- Between messages that are none, all notes but the first leave out their status byte. -/
theorem leftOut_notes {first last : Timed} {notes : Track} (hfirst : first.message.isNote = false)
    (hnotes : ∀ timed ∈ notes, timed.message.isNote = true) (hlast : last.message.isNote = false) :
    leftOut false (first :: notes ++ [last]) = noteCount (first :: notes ++ [last]) - 1 := by
  have hafter : leftOut true (notes ++ [last]) = notes.length := by
    induction notes with
    | nil => simp [leftOut, hlast]
    | cons timed notes ih =>
      have hhere := hnotes timed List.mem_cons_self
      have hrest := ih fun t ht => hnotes t (List.mem_cons_of_mem _ ht)
      simp [leftOut, hhere, hrest, Nat.add_comm]
  have hcount : noteCount (first :: notes ++ [last]) = notes.length := by
    simp [noteCount, hfirst, hlast, List.countP_eq_length.mpr hnotes]
  rw [hcount]
  cases notes with
  | nil => simp [leftOut, hfirst, hlast]
  | cons timed notes =>
    have hhere := hnotes timed List.mem_cons_self
    simp [leftOut, hfirst, hhere] at hafter ⊢
    omega

theorem leftOut_tempoTrack (tempo : Int) (s : Signature) : leftOut false (tempoTrack tempo s) = 0 := rfl

theorem leftOut_noteTrack (p : Pattern) :
    leftOut false (noteTrack p) = noteCount (noteTrack p) - 1 := by
  refine leftOut_notes rfl (fun timed htimed => ?_) rfl
  obtain ⟨e, -, pitch, -, hmessage | hmessage⟩ := message_of_mem_noteMessages htimed
  all_goals
    rw [hmessage]
    rfl

/-! ## The score of a pattern -/

theorem readRunningFile_fileOf {first second : List UInt8} {firstEvents secondEvents : List FileEvent}
    (hone : first.length < 2 ^ 32) (htwo : second.length < 2 ^ 32)
    (hfirst : readEventsUnder none first = some firstEvents)
    (hsecond : readEventsUnder none second = some secondEvents) :
    readRunningFile (fileOf first second) =
      some { format := 1, division := 480, tracks := [firstEvents, secondEvents] } :=
  readFileBy_division (by decide) hone htwo hfirst hsecond

/-- Both layouts of a pattern are read as the same score, that of its tracks. Without repeated status
bytes the file is shorter by one byte for each note but the first. -/
theorem layouts_carry_the_same_score (p : Pattern) (plain : List UInt8) (h : encode p = .ok plain) :
    ∃ ts compact, tracks p = .ok ts ∧ encode p .running = .ok compact ∧
      readRunningFile plain =
        some { format := 1, division := 480, tracks := ts.map (·.map Timed.event) } ∧
      readRunningFile compact = readRunningFile plain ∧
      (noteCount ts.flatten = 0 → compact.length = plain.length) ∧
      (1 ≤ noteCount ts.flatten → compact.length + (noteCount ts.flatten - 1) = plain.length) := by
  obtain ⟨ts, hts, hwrite⟩ := tracks_of_encode h
  obtain ⟨tempo, -, -, -, hchords, rfl⟩ := tracks_eq_ok hts
  obtain ⟨-, hpitch⟩ := pitches_of_chordTrack hchords
  obtain ⟨first, second, ⟨hfirst, hone⟩, ⟨hsecond, htwo⟩, hplain⟩ := write_eq_ok hwrite
  obtain rfl : plain = fileOf first second := hplain
  have htempoFits := fitsData_tempoTrack tempo p.signature
  have hnoteFits := fitsData_noteTrack hpitch
  obtain ⟨hreadFirst, -⟩ := readEvents_plainBody hfirst htempoFits
  obtain ⟨hreadSecond, -⟩ := readEvents_plainBody hsecond hnoteFits
  obtain ⟨first', hfirst', hlength⟩ := runningBody_of_plainBody hfirst false
  obtain ⟨second', hsecond', hlength'⟩ := runningBody_of_plainBody hsecond false
  rw [leftOut_tempoTrack] at hlength
  rw [leftOut_noteTrack] at hlength'
  have hcompact : encode p .running = .ok (fileOf first' second') := by
    rw [encode, hts]
    exact write_of_bodies .running hfirst' (by omega) hsecond' (by omega)
  have hread := readRunningFile_fileOf hone htwo (readEventsUnder_of_readEvents hreadFirst none)
    (readEventsUnder_of_readEvents hreadSecond none)
  have hread' := readRunningFile_fileOf (by omega) (by omega)
    (readEventsUnder_runningBody hfirst' htempoFits) (readEventsUnder_runningBody hsecond' hnoteFits)
  have hnotes : noteCount [tempoTrack tempo p.signature, noteTrack p].flatten =
      noteCount (noteTrack p) := by
    simp [noteCount, tempoTrack, Message.isNote]
  refine ⟨_, _, hts, hcompact, hread, hread'.trans hread.symm, ?_⟩
  rw [hnotes, length_fileOf, length_fileOf]
  omega

/-- The file of a pattern with two chords of two notes each. -/
def compactFile : List UInt8 :=
  [0x4d, 0x54, 0x68, 0x64, 0, 0, 0, 6, 0, 1, 0, 2, 0x01, 0xe0,
    0x4d, 0x54, 0x72, 0x6b, 0, 0, 0, 19,
    0, 0xff, 0x51, 3, 0x07, 0xa1, 0x20, 0, 0xff, 0x58, 4, 7, 3, 8, 24, 0, 0xff, 0x2f, 0,
    0x4d, 0x54, 0x72, 0x6b, 0, 0, 0, 26,
    0, 0xff, 0x03, 3, 0x52, 0xc3, 0xa9, 0x78, 0x90, 48, 64, 0, 48, 64,
    0x87, 0xfe, 0x68, 48, 0, 0, 48, 0, 0, 0xff, 0x2f, 0]

theorem long_file_without_repeated_status :
    encode longPattern = .ok longFile ∧ encode longPattern .running = .ok compactFile ∧
      readRunningFile compactFile = readRunningFile longFile ∧
      compactFile.length + 3 = longFile.length := by
  have hfile : encode longPattern = .ok longFile := by decide +kernel
  have hrunning : encode longPattern .running = .ok compactFile := by decide +kernel
  obtain ⟨ts, compact, hts, hcompact, -, hsame, -, hshorter⟩ :=
    layouts_carry_the_same_score longPattern longFile hfile
  obtain rfl := Except.ok.inj (hrunning.symm.trans hcompact)
  have hcount : noteCount ts.flatten = 4 := by
    have htracks : tracks longPattern =
        .ok [tempoTrack 500000 longPattern.signature, noteTrack longPattern] := by decide +kernel
    obtain rfl := Except.ok.inj (htracks.symm.trans hts)
    decide
  rw [hcount] at hshorter
  exact ⟨hfile, hrunning, hsame, hshorter (by decide)⟩

end Cadence.Score
