import Cadence.Proofs.Compile.Defects

/-!
# What compiling gives

A compiled composition mirrors its document. The events added so far are those of the entries read,
each with the picks that the entries before it left over, and they stay playable.
-/

namespace Cadence

variable {customs : CustomChords} {picks : Picks}

/-! ## One event -/

theorem EventEntry.resolve_drawn (e : EventEntry) (drawn : Nat) :
    (Chord.resolve customs picks e.chord drawn).2 = drawn + e.draws customs := by
  rw [Chord.resolve, EventEntry.draws]
  by_cases hcustom : e.chord.strip = "?"
  · cases customs <;> simp [hcustom]
  · by_cases hany : e.chord.strip = "??" <;> simp [hcustom, hany]

/-- The transpositions add up before the pitch is held in its range. -/
theorem soundingPitches_eq (intervals : List Int) (key : Key) (transpose : Int) :
    soundingPitches intervals key transpose =
      intervals.map fun interval => max 24 (min 107 (48 + interval + key.semitones + transpose)) := by
  rw [soundingPitches, Voicing.pitches]
  refine List.map_congr_left fun interval _ => ?_
  simp only [noteAt, lowestNote, highestNote, Voicing.inKey, Voicing.transpose,
    Voicing.transposeOctave, playbackLift]
  omega

theorem EventEntry.sound_eq (e : EventEntry) (key : Key) (drawn : Nat) :
    e.sound key customs picks drawn =
      (⟨e.time, soundingPitches (e.stack customs picks drawn) key e.transpose⟩,
        (Chord.resolve customs picks e.chord drawn).2) := by
  rw [sound, stack]

theorem EventEntry.sound_mirrors (e : EventEntry) (key : Key) (drawn : Nat) :
    e.Mirrors customs picks key drawn (e.sound key customs picks drawn).1 := by
  rw [sound_eq]
  refine ⟨rfl, ?_, fun i interval hi => ?_⟩
  · rw [soundingPitches_eq, List.length_map]
  · rw [soundingPitches_eq, List.getElem?_map, hi]
    rfl

/-! ## Events in turn -/

@[simp]
theorem drawnBy_nil : drawnBy customs [] = 0 := rfl

@[simp]
theorem drawnBy_cons (e : EventEntry) (es : List EventEntry) :
    drawnBy customs (e :: es) = e.draws customs + drawnBy customs es := by
  simp [drawnBy]

@[simp]
theorem drawnBy_append (es es' : List EventEntry) :
    drawnBy customs (es ++ es') = drawnBy customs es + drawnBy customs es' := by
  simp [drawnBy]

/-- The events that sound when entries are read in turn. -/
def soundEach (customs : CustomChords) (picks : Picks) (key : Key) (drawn : Nat)
    (es : List EventEntry) : List Event :=
  es.mapIdx fun j e => (e.sound key customs picks (drawn + drawnBy customs (es.take j))).1

theorem soundEach_cons (key : Key) (drawn : Nat) (e : EventEntry) (es : List EventEntry) :
    soundEach customs picks key drawn (e :: es) = (e.sound key customs picks drawn).1 ::
      soundEach customs picks key (drawn + e.draws customs) es := by
  simp [soundEach, List.mapIdx_cons, Nat.add_assoc]

theorem compileEvents_spec (key : Key) (p : Pattern) (es : List EventEntry) (drawn : Nat)
    {q : Pattern} {m : Nat} (h : compileEvents key customs picks p es drawn = (.ok q, m)) :
    q = { p with events := p.events ++ soundEach customs picks key drawn es } ∧
      m = drawn + drawnBy customs es := by
  induction es generalizing p drawn with
  | nil =>
    cases h
    simp [soundEach]
  | cons e es ih =>
    cases hdefect : e.defect? p with
    | some x =>
      rw [compileEvents_error key hdefect] at h
      cases h
    | none =>
      rw [compileEvents_ok key hdefect] at h
      obtain ⟨rfl, rfl⟩ := ih _ _ h
      have hdrawn : (e.sound key customs picks drawn).2 = drawn + e.draws customs := by
        rw [e.sound_eq, e.resolve_drawn]
      rw [hdrawn, soundEach_cons, drawnBy_cons, Pattern.append]
      simp [Nat.add_assoc]

/-- An event without a defect leaves its pattern playable. -/
theorem Pattern.IsPlayable.append {p : Pattern} (hp : p.IsPlayable) {e : EventEntry} {event : Event}
    (htime : event.time = e.time) (h : e.defect? p = none) : (p.append event).IsPlayable where
  beats := hp.beats
  rising := by
    refine rising_snoc_iff.mpr ⟨hp.rising, hp.rising.forall_lt_iff.mp ?_⟩
    intro last hlast
    rw [htime]
    exact last?_lt_of_no_defect h hlast
  reachable := by
    intro a ha
    rcases List.mem_append.mp ha with ha | ha
    · exact hp.reachable a ha
    · have hreach : e.time.IsReachable p.signature := reachable_of_no_defect h
      rwa [List.mem_singleton.mp ha, htime]

theorem compileEvents_playable (key : Key) (p : Pattern) (es : List EventEntry) (drawn : Nat)
    {q : Pattern} {m : Nat} (h : compileEvents key customs picks p es drawn = (.ok q, m))
    (hp : p.IsPlayable) : q.IsPlayable := by
  induction es generalizing p drawn with
  | nil =>
    cases h
    exact hp
  | cons e es ih =>
    cases hdefect : e.defect? p with
    | some x =>
      rw [compileEvents_error key hdefect] at h
      cases h
    | none =>
      rw [compileEvents_ok key hdefect] at h
      exact ih _ _ h (hp.append rfl hdefect)

/-! ## Patterns in turn -/

theorem nonempty?_getD (name? : Option Name) (name : Name) :
    (Setting.nonempty? name?).getD name = match name? with
      | none | some "" => name
      | some name => name := by
  cases name? with
  | none => rfl
  | some given =>
    cases given with
    | whole s =>
      by_cases h : s = ""
      · subst h
        rfl
      · simp [Setting.nonempty?, Option.filter, h]
    | broken b => rfl

theorem Compiled.logged_ok {s : Signature} {r : Compiled Pattern} {q : Pattern} {m : Nat}
    (h : r.logged s = (.ok q, m)) :
    r = (.ok q, m) ∧ ∀ n ∈ s.numbers, Yaml.isShort n = true := by
  obtain ⟨_ | p, drawn⟩ := r
  · cases h
  · cases hlong : Yaml.tooLong? s.numbers with
    | some e =>
      rw [logged_of_long hlong] at h
      cases h
    | none =>
      rw [logged_of_short hlong] at h
      exact ⟨h, tooLong?_eq_none_iff.mp hlong⟩

/-- A pattern that compiles has a valid signature that can be written and a list of events. -/
theorem PatternEntry.compile_ok {p : PatternEntry} {master? : Option Master} {name : String}
    {drawn : Nat} {q : Pattern} {m : Nat}
    (h : p.compile master? customs name picks drawn = (.ok q, m)) :
    (Setting.merge master? p.master?).signature.IsValid ∧
      (∀ n ∈ (Setting.merge master? p.master?).signature.numbers, Yaml.isShort n = true) ∧
      p.events? = some p.entries ∧ compileEvents (Setting.merge master? p.master?).parsedKey
        customs picks (p.opened master? name) p.entries drawn = (.ok q, m) := by
  by_cases hs : (Setting.merge master? p.master?).signature.IsValid
  · rw [compile_of_valid hs] at h
    cases hes : p.events? with
    | none =>
      rw [hes] at h
      cases h
    | some es =>
      rw [hes] at h
      have hentries : p.entries = es := by rw [PatternEntry.entries, hes]; rfl
      obtain ⟨hrun, hshort⟩ := Compiled.logged_ok h
      rw [hentries]
      exact ⟨hs, hshort, rfl, hrun⟩
  · rw [compile_of_not_valid hs] at h
    cases h

theorem PatternEntry.compile_playable {p : PatternEntry} {master? : Option Master} {name : String}
    {drawn : Nat} {q : Pattern} {m : Nat}
    (h : p.compile master? customs name picks drawn = (.ok q, m)) : q.IsPlayable := by
  obtain ⟨hs, -, -, hrun⟩ := compile_ok h
  exact compileEvents_playable _ _ _ _ hrun ⟨hs.1, .nil, by simp [opened]⟩

theorem PatternEntry.compile_mirrors {d : Document} {p : PatternEntry} {k drawn : Nat} {q : Pattern}
    {m : Nat} (h : p.compile d.master? d.customs (defaultPatternName k) picks drawn = (.ok q, m)) :
    p.Mirrors d picks k drawn q ∧ m = drawn + drawnBy d.customs p.entries := by
  obtain ⟨hs, hshort, hes, hrun⟩ := compile_ok h
  have hplayable := compile_playable h
  obtain ⟨hq, hm⟩ := compileEvents_spec _ _ _ _ hrun
  have hevents : q.events = soundEach d.customs picks
      (Setting.merge d.master? p.master?).parsedKey drawn p.entries := by rw [hq]; rfl
  have hbpm : q.bpm = (Setting.merge d.master? p.master?).tempo.bpm := by rw [hq]; rfl
  have hsignature : q.signature = (Setting.merge d.master? p.master?).signature := by rw [hq]; rfl
  refine ⟨⟨?_, hbpm, ?_, hsignature, ?_, ?_, ?_, ?_, ?_, hplayable.rising,
    hplayable.reachable⟩, hm⟩
  · rw [hq]
    exact nonempty?_getD _ _
  · have hpos := (Setting.merge d.master? p.master?).tempo.pos
    have hle := (Setting.merge d.master? p.master?).tempo.le
    omega
  · rwa [hsignature]
  · rwa [hsignature]
  · rw [hes]
    rfl
  · rw [hevents, soundEach, List.length_mapIdx]
  · intro j e event he hevent
    rw [hevents, soundEach, List.getElem?_mapIdx, he] at hevent
    cases hevent
    exact e.sound_mirrors _ _

/-- Compiling goes on with the pattern after the first one only if that one has no defect. -/
theorem compilePatterns_cons_ok {master? : Option Master} {c : Composition} {p : PatternEntry}
    {ps : List PatternEntry} {drawn : Nat} {c' : Composition} {m : Nat}
    (h : compilePatterns master? customs picks c (p :: ps) drawn = (.ok c', m)) :
    ∃ q n, p.compile master? customs (defaultPatternName c.patterns.length) picks drawn = (.ok q, n) ∧
      compilePatterns master? customs picks (c.add q) ps n = (.ok c', m) := by
  rw [compilePatterns] at h
  cases hrun : p.compile master? customs (defaultPatternName c.patterns.length) picks drawn with
  | mk result n =>
    rw [hrun] at h
    cases result with
    | error x => cases h
    | ok q => exact ⟨q, n, rfl, h⟩

theorem compilePatterns_spec (d : Document) (c : Composition) (ps : List PatternEntry) (drawn : Nat)
    {c' : Composition} {m : Nat}
    (h : compilePatterns d.master? d.customs picks c ps drawn = (.ok c', m)) :
    ∃ qs, c'.patterns = c.patterns ++ qs ∧ qs.length = ps.length ∧
      ∀ (k : Nat) (p : PatternEntry) (q : Pattern), ps[k]? = some p → qs[k]? = some q →
        p.Mirrors d picks (c.patterns.length + k)
          (drawn + drawnBy d.customs ((ps.take k).flatMap (·.entries))) q := by
  induction ps generalizing c drawn with
  | nil =>
    cases h
    exact ⟨[], by simp, rfl, by simp⟩
  | cons p ps ih =>
    obtain ⟨q, n, hrun, hrest⟩ := compilePatterns_cons_ok h
    obtain ⟨hmirror, rfl⟩ := PatternEntry.compile_mirrors hrun
    obtain ⟨qs, hqs, hlength, hall⟩ := ih _ _ hrest
    refine ⟨q :: qs, by rw [hqs]; simp [Composition.add], by simp [hlength], ?_⟩
    intro k p' q' hp' hq'
    cases k with
    | zero =>
      cases hp'
      cases hq'
      exact hmirror
    | succ k =>
      have hthis := hall k p' q' hp' hq'
      simp only [Composition.add, List.length_append, List.length_singleton] at hthis
      rwa [List.take_succ_cons, List.flatMap_cons, drawnBy_append, ← Nat.add_assoc,
        ← Nat.add_assoc, Nat.add_right_comm _ k 1]

/-! ## The whole document -/

theorem Document.compile_ok {d : Document} {drawn : Nat} {c : Composition}
    (h : (d.compile picks drawn).1 = .ok c) :
    ∃ ps m, d.patterns? = some ps ∧ compilePatterns d.master? d.customs picks
      ⟨(Setting.nonempty? d.name?).getD defaultCompositionName, []⟩ ps drawn = (.ok c, m) := by
  cases hps : d.patterns? with
  | none =>
    rw [Document.compile, hps] at h
    cases h
  | some ps =>
    cases ps with
    | nil =>
      rw [Document.compile, hps] at h
      cases h
    | cons p ps =>
      rw [d.compile_cons hps] at h
      exact ⟨p :: ps, _, rfl, Prod.ext h rfl⟩

/-- Every pattern of a compiled composition mirrors an entry. -/
theorem Document.mirrored_of_mem {d : Document} {drawn : Nat} {c : Composition}
    (h : (d.compile picks drawn).1 = .ok c) {q : Pattern} (hq : q ∈ c.patterns) :
    ∃ p k before, PatternEntry.Mirrors d picks k before p q := by
  obtain ⟨ps, m, _, hrun⟩ := compile_ok h
  obtain ⟨qs, hqs, hlength, hall⟩ := compilePatterns_spec d _ ps drawn hrun
  rw [hqs, List.nil_append] at hq
  obtain ⟨k, hk, rfl⟩ := List.mem_iff_getElem.mp hq
  exact ⟨ps[k], _, _,
    hall k ps[k] qs[k] (List.getElem?_eq_getElem _) (List.getElem?_eq_getElem hk)⟩

/-- A compiled composition has its events in order. -/
theorem Document.compile_playable {d : Document} {drawn : Nat} {c : Composition}
    (h : (d.compile picks drawn).1 = .ok c) : ∀ q ∈ c.patterns, q.IsPlayable := by
  intro q hq
  obtain ⟨p, k, before, hmirror⟩ := mirrored_of_mem h hq
  exact ⟨hmirror.valid.1, hmirror.rising, hmirror.reachable⟩

/-- A composition that a document compiles to has a pattern for each of its patterns, in their order,
and each of them mirrors its entry. -/
theorem compiled_mirrors_document (d : Document) (picks : Picks) (drawn : Nat) (c : Composition)
    (h : (d.compile picks drawn).1 = .ok c) :
    ∃ ps, d.patterns? = some ps ∧ c.patterns.length = ps.length ∧
      ∀ (k : Nat) (p : PatternEntry) (q : Pattern), ps[k]? = some p → c.patterns[k]? = some q →
        p.Mirrors d picks k (drawn + drawnBy d.customs ((ps.take k).flatMap (·.entries))) q := by
  obtain ⟨ps, m, hps, hrun⟩ := Document.compile_ok h
  obtain ⟨qs, hqs, hlength, hall⟩ := compilePatterns_spec d _ ps drawn hrun
  rw [hqs, List.nil_append]
  refine ⟨ps, hps, hlength, fun k p q hp hq => ?_⟩
  have hthis := hall k p q hp hq
  rwa [List.length_nil, Nat.zero_add] at hthis

/-- Two patterns in D, with random chords and with pitches past both ends of the range. -/
def sampleDocument : Document where
  master? := some { key? := some "D" }
  chords? := some [("Sus", [0, 5])]
  patterns? := some
    [{ events? := some [⟨1, 1, 1, "?", 0⟩, ⟨1, 3, 1, "??", 99⟩] },
      { name? := some "Outro", events? := some [⟨2, 1, 1, "Sus", -99⟩] }]

/-- What it compiles to when each pick is its own number. -/
def sampleComposition : Composition where
  name := "Unnamed composition"
  patterns :=
    [⟨"unnamed_pattern_0", 120, ⟨4, 4⟩,
        [⟨⟨1, 1, 1⟩, [50, 55]⟩, ⟨⟨1, 3, 1⟩, [107, 107, 107, 107, 107, 107]⟩]⟩,
      ⟨"Outro", 120, ⟨4, 4⟩, [⟨⟨2, 1, 1⟩, [24, 24]⟩]⟩]

theorem compiled_mirrors_sample :
    (sampleDocument.compile id 0).1 = .ok sampleComposition ∧
      ∃ ps, sampleDocument.patterns? = some ps ∧ sampleComposition.patterns.length = ps.length ∧
        ∀ (k : Nat) (p : PatternEntry) (q : Pattern), ps[k]? = some p →
          sampleComposition.patterns[k]? = some q → p.Mirrors sampleDocument id k
            (0 + drawnBy sampleDocument.customs ((ps.take k).flatMap (·.entries))) q := by
  have hrun : (sampleDocument.compile id 0).1 = .ok sampleComposition := rfl
  exact ⟨hrun, compiled_mirrors_document sampleDocument id 0 sampleComposition hrun⟩

end Cadence
