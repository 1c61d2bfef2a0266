/-!
# A reader of score files

It knows the format of a file and nothing of patterns: a header chunk, then as many track chunks as
the header says, then nothing. `RoundTrip.lean` shows that it reads back what is written.
-/

namespace Cadence.Score

/-- What an event of a file says. -/
inductive Record where
  /-- a type and its data, for no channel -/
  | metaEvent (type : UInt8) (data : List UInt8)
  /-- a status byte with its two data bytes -/
  | channelEvent (status first second : UInt8)
  deriving Repr, DecidableEq

structure FileEvent where
  delta : Nat
  record : Record
  deriving Repr, DecidableEq

structure ScoreFile where
  format : Nat
  division : Nat
  tracks : List (List FileEvent)
  deriving Repr, DecidableEq

/-! ## Numbers and pieces -/

/-- The number that bytes spell, the highest first. -/
def number (bytes : List UInt8) : Nat := bytes.foldl (fun n b => 256 * n + b.toNat) 0

/-- The first bytes and those after them, if there are enough. -/
def cut? (n : Nat) (bytes : List UInt8) : Option (List UInt8 × List UInt8) :=
  if n ≤ bytes.length then some (bytes.take n, bytes.drop n) else none

/-- A number in base 128 that goes on from the digits so far, up to the first byte below 128. -/
def readVarying (sofar : Nat) : List UInt8 → Option (Nat × List UInt8)
  | [] => none
  | b :: rest =>
    if b.toNat < 128 then some (128 * sofar + b.toNat, rest)
    else readVarying (128 * sofar + (b.toNat - 128)) rest

theorem cut?_le {n : Nat} {bytes piece rest : List UInt8} (h : cut? n bytes = some (piece, rest)) :
    rest.length ≤ bytes.length := by
  unfold cut? at h
  split at h
  · obtain ⟨-, rfl⟩ := Prod.mk.inj (Option.some.inj h)
    simp
  · cases h

theorem readVarying_lt {sofar n : Nat} {bytes rest : List UInt8}
    (h : readVarying sofar bytes = some (n, rest)) : rest.length < bytes.length := by
  induction bytes generalizing sofar with
  | nil => cases h
  | cons b bytes ih =>
    rw [readVarying] at h
    split at h
    · obtain ⟨-, rfl⟩ := Prod.mk.inj (Option.some.inj h)
      simp
    · have := ih h
      simp only [List.length_cons]
      omega

/-! ## Events -/

/-- The status bytes that two data bytes follow. -/
def hasTwoData (status : UInt8) : Bool := [8, 9, 10, 11, 14].contains (status.toNat / 16)

def readRecord : List UInt8 → Option (Record × List UInt8)
  | status :: first :: bytes =>
    if status = 0xff then do
      let (length, rest) ← readVarying 0 bytes
      let (data, rest) ← cut? length rest
      return (.metaEvent first data, rest)
    else match bytes with
      | second :: rest =>
        if hasTwoData status && first.toNat < 128 && second.toNat < 128 then
          some (.channelEvent status first second, rest)
        else none
      | [] => none
  | _ => none

def readEvent (bytes : List UInt8) : Option (FileEvent × List UInt8) := do
  let (delta, rest) ← readVarying 0 bytes
  let (record, rest) ← readRecord rest
  return (⟨delta, record⟩, rest)

/-- A status byte and a data byte at least are read. -/
theorem readRecord_lt {bytes rest : List UInt8} {record : Record}
    (h : readRecord bytes = some (record, rest)) : rest.length + 1 < bytes.length := by
  unfold readRecord at h
  split at h
  · split at h
    · simp only [Option.bind_eq_bind, Option.bind_eq_some_iff] at h
      obtain ⟨⟨length, middle⟩, hlength, ⟨data, tail⟩, hdata, h⟩ := h
      obtain ⟨-, rfl⟩ := Prod.mk.inj (Option.some.inj h)
      have := readVarying_lt hlength
      have := cut?_le hdata
      simp only [List.length_cons] at *
      omega
    · split at h
      · split at h
        · obtain ⟨-, rfl⟩ := Prod.mk.inj (Option.some.inj h)
          simp only [List.length_cons]
          omega
        · cases h
      · cases h
  · cases h

theorem readEvent_lt {bytes rest : List UInt8} {event : FileEvent}
    (h : readEvent bytes = some (event, rest)) : rest.length < bytes.length := by
  simp only [readEvent, Option.bind_eq_bind, Option.bind_eq_some_iff] at h
  obtain ⟨⟨delta, middle⟩, hdelta, ⟨record, tail⟩, hrecord, h⟩ := h
  obtain ⟨-, rfl⟩ := Prod.mk.inj (Option.some.inj h)
  have := readVarying_lt hdelta
  have := readRecord_lt hrecord
  dsimp only at *
  omega

/-- All events of a track. Nothing may be left over. -/
def readEvents (bytes : List UInt8) : Option (List FileEvent) :=
  if bytes = [] then some []
  else match h : readEvent bytes with
    | some (event, rest) =>
      have : rest.length < bytes.length := readEvent_lt h
      (readEvents rest).map (event :: ·)
    | none => none
termination_by bytes.length

/-! ## Chunks -/

/-- The body of a chunk that begins with these letters. -/
def readChunk (letters : String) (bytes : List UInt8) : Option (List UInt8 × List UInt8) := do
  let (found, rest) ← cut? 4 bytes
  let (length, rest) ← cut? 4 rest
  if found = letters.toList.map (UInt8.ofNat ∘ Char.toNat) then cut? (number length) rest else none

/-- Track chunks, and what comes after them. -/
def readTracks : Nat → List UInt8 → Option (List (List FileEvent) × List UInt8)
  | 0, bytes => some ([], bytes)
  | count + 1, bytes => do
    let (body, rest) ← readChunk "MTrk" bytes
    let events ← readEvents body
    let (others, rest) ← readTracks count rest
    return (events :: others, rest)

/-- Format, number of tracks and division, two bytes each. -/
def readHeader : List UInt8 → Option (Nat × Nat × Nat)
  | [f, g, t, u, d, e] => some (number [f, g], number [t, u], number [d, e])
  | _ => none

def readFile (bytes : List UInt8) : Option ScoreFile := do
  let (header, rest) ← readChunk "MThd" bytes
  let (format, count, division) ← readHeader header
  let (tracks, rest) ← readTracks count rest
  if rest = [] then some { format, division, tracks } else none

/-! ## Tracks in another form -/

/-- Track chunks whose bodies are read in some way, and what comes after them. -/
def readTracksBy (readBody : List UInt8 → Option (List FileEvent)) :
    Nat → List UInt8 → Option (List (List FileEvent) × List UInt8)
  | 0, bytes => some ([], bytes)
  | count + 1, bytes => do
    let (body, rest) ← readChunk "MTrk" bytes
    let events ← readBody body
    let (others, rest) ← readTracksBy readBody count rest
    return (events :: others, rest)

/-- A file whose tracks are read in some way. -/
def readFileBy (readBody : List UInt8 → Option (List FileEvent)) (bytes : List UInt8) :
    Option ScoreFile := do
  let (header, rest) ← readChunk "MThd" bytes
  let (format, count, division) ← readHeader header
  let (tracks, rest) ← readTracksBy readBody count rest
  if rest = [] then some { format, division, tracks } else none

theorem readTracksBy_readEvents (count : Nat) (bytes : List UInt8) :
    readTracksBy readEvents count bytes = readTracks count bytes := by
  induction count generalizing bytes with
  | zero => rfl
  | succ count ih => simp only [readTracksBy, readTracks, ih]

theorem readFileBy_readEvents (bytes : List UInt8) : readFileBy readEvents bytes = readFile bytes := by
  simp only [readFileBy, readFile, readTracksBy_readEvents]

end Cadence.Score
