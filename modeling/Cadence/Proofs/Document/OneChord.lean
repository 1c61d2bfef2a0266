import Cadence.Proofs.Document.RoundTrip
import Cadence.Proofs.Tools

/-!
# A chord on its own

A chord that is asked for by itself sounds as it does in a composition with nothing else in it: with
the same picks, and unknown exactly where the composition is silent.
-/

namespace Cadence

open Value

variable {token key : Name} {transpose : Int} {customs : CustomChords} {picks : Picks}

/-! ## The document of one chord -/

def chordsValue (customs : CustomChords) : Value := .list (customs.map Document.chordValue)

/-- Plain data with a key, custom chords and one event, at the start of the first bar. -/
def oneChordValue (token key : Name) (transpose : Int) (customs : CustomChords) : Value :=
  .map [("master", .map [("key", ofName key)]), ("chords", chordsValue customs),
    ("patterns", .list [.map [("pattern",
      .list [.list [.int 1, .int 1, .int 1, ofName token, .int transpose]])]])]

def oneChordDocument (token key : Name) (transpose : Int) (customs : CustomChords) : Document where
  master? := some { key? := some key }
  chords? := some customs
  patterns? := some [{ events? := some [⟨1, 1, 1, token, transpose⟩] }]

theorem ofValue_oneChordValue : Document.ofValue (oneChordValue token key transpose customs) =
    .ok (oneChordDocument token key transpose customs) :=
  (oneChordDocument token key transpose customs).ofValue_toValue

/-- An empty key is C in a document, as any other that spells no key. -/
theorem parsedKey_merge (key : Name) :
    (Setting.merge (some { key? := some key }) none).parsedKey = Key.parse key := by
  by_cases h : key = ""
  · subst h
    decide
  · simp [Setting.parsedKey, Setting.merge, Setting.nonempty?, Option.filter, h]

/-- The event that the document compiles to. -/
def oneChordEvent (token key : Name) (transpose : Int) (customs : CustomChords) (picks : Picks) :
    Event :=
  ⟨⟨1, 1, 1⟩, soundingPitches (Chord.resolve customs picks token 0).1 (Key.parse key) transpose⟩

theorem compile_oneChordDocument :
    ((oneChordDocument token key transpose customs).compile picks).1 =
      .ok ⟨defaultCompositionName, [⟨defaultPatternName 0, 120, Signature.common,
        [oneChordEvent token key transpose customs picks]⟩]⟩ := by
  have hshort : Yaml.tooLong? Signature.common.numbers = none := by decide
  have hentry (name : String) : PatternEntry.compile { events? := some [⟨1, 1, 1, token, transpose⟩] }
      (some { key? := some key }) customs name picks 0 =
        (.ok ⟨name, 120, Signature.common, [oneChordEvent token key transpose customs picks]⟩,
          (Chord.resolve customs picks token 0).2) := by
    have hvalid : (Setting.merge (some { key? := some key }) none).signature.IsValid := by
      have hcommon : Signature.common.IsValid := by decide
      exact hcommon
    have hrun : compileEvents (Setting.merge (some { key? := some key }) none).parsedKey customs picks
        (PatternEntry.opened { events? := some [⟨1, 1, 1, token, transpose⟩] }
          (some { key? := some key }) name) [⟨1, 1, 1, token, transpose⟩] 0 =
          (.ok ⟨name, 120, Signature.common, [oneChordEvent token key transpose customs picks]⟩,
            (Chord.resolve customs picks token 0).2) := by
      rw [oneChordEvent, ← parsedKey_merge]
      rfl
    have hsignature : (Setting.merge (some { key? := some key }) none).signature =
        Signature.common := rfl
    rw [PatternEntry.compile_of_valid hvalid]
    simp only [hrun, Compiled.logged, hsignature, hshort]
  simp only [Document.compile, oneChordDocument, compilePatterns, Document.customs, Option.getD_some,
    hentry]
  rfl

theorem pitches_eq_nil_iff (key : Name) (transpose : Int) :
    (oneChordEvent token key transpose customs picks).pitches = [] ↔
      (Chord.resolve customs picks token 0).1 = [] := by
  rw [oneChordEvent, soundingPitches_eq, List.map_eq_nil_iff]

/-! ## The request -/

theorem mapM_map {α : Type} (toValue : α → Value) {read : Value → Except Error α}
    (h : ∀ a, read (toValue a) = .ok a) (as : List α) : (as.map toValue).mapM read = .ok as := by
  induction as with
  | nil => rfl
  | cons a as ih =>
    rw [List.map_cons, List.mapM_cons, h, ih]
    rfl

theorem looseChord_chordValue (chord : Name × List Int) :
    (Document.chordValue chord).looseChord = .ok chord := by
  have hints : (chord.2.map Value.int).mapM looseInt = .ok chord.2 :=
    mapM_map .int (fun _ => rfl) chord.2
  simp only [Document.chordValue, looseChord, parts?, ints, hints, asName_ofName]
  rfl

theorem looseChords_chordsValue : (chordsValue customs).looseChords = .ok customs := by
  unfold looseChords chordsValue
  cases customs with
  | nil => rfl
  | cons chord customs =>
    rw [if_neg (by simp [isGiven])]
    exact mapM_map Document.chordValue looseChord_chordValue (chord :: customs)

theorem message_unknownChord (token : Name) :
    (Error.unknownChord token).message = "Unknown chord: " ++ token :=
  Name.append_empty _

theorem message_tooLong_ne (e : Yaml.TooLong) (token : Name) :
    (Error.tooLong e).message ≠ "Unknown chord: " ++ token := by
  have hmessage : (Error.tooLong e).message = .whole e.message := Name.append_empty _
  rw [hmessage]
  cases token with
  | whole token =>
    have hfirst : e.message.toList.head? = some 'E' := by
      unfold Yaml.TooLong.message
      generalize Nat.repr Yaml.Meaning.digitLimit = digits
      simp only [String.toList_append, List.append_assoc, List.head?_append]
      rfl
    intro hsame
    rw [Name.whole_append, Name.whole.injEq] at hsame
    rw [hsame, String.toList_append, List.head?_append] at hfirst
    cases hfirst
  | broken token => exact Name.noConfusion

def chordRequest (token key : Name) (transpose : Int) (customs : CustomChords) : Tool :=
  .resolve token key transpose (chordsValue customs)

section Reply

variable (t : Tree) (output : Path) (key : Name) (transpose : Int)

theorem reply_of_empty (h : (Chord.resolve customs picks token 0).1 = []) :
    let reply := ((chordRequest token key transpose customs).reply t output picks).1
    reply.IsFailure ∧ reply.field "message" = .ofName ("Unknown chord: " ++ token) := by
  intro reply
  have hrun : (chordRequest token key transpose customs).run t output picks =
      (.error (.unknownChord token), t) := by
    simp only [chordRequest, Tool.run, Tool.resolveChord, looseChords_chordsValue, bind, Except.bind, h]
    rfl
  have hreply : reply = (chordRequest token key transpose customs).failure (.unknownChord token)
      (some ("Unknown chord: " ++ token)) := by
    simp only [reply, Tool.reply_of_error hrun, message_unknownChord]
  refine ⟨hreply ▸ Tool.isFailure_failure _ _ _, ?_⟩
  rw [hreply, Tool.field_failure _ _ _ (by decide)]
  simp [Tool.failureFields, Error.kind?, Error.data, field, lookup]

theorem reply_of_nonempty (h : (Chord.resolve customs picks token 0).1 ≠ [])
    (hshort : ∀ n ∈ (Chord.resolve customs picks token 0).1, Yaml.isShort n = true) :
    let reply := ((chordRequest token key transpose customs).reply t output picks).1
    reply.IsSuccess ∧ reply.field "pitches" =
      ints (oneChordEvent token key transpose customs picks).pitches := by
  have hsome : (Chord.resolve customs picks token 0).1.isEmpty = false := by simpa using h
  have hnone := tooLong?_eq_none_iff.mpr hshort
  simp only [chordRequest, Tool.reply, Tool.run, Tool.resolveChord, looseChords_chordsValue, bind,
    Except.bind, pure, Except.pure, hsome, hnone]
  constructor
  · simp [IsSuccess, Tool.success, field, lookup, List.lookup_cons]
  · simp [Tool.success, field, lookup, List.lookup_cons, oneChordEvent]

/-- Intervals that cannot be written are refused, but not as an unknown chord. -/
theorem reply_of_long (h : (Chord.resolve customs picks token 0).1 ≠ [])
    (hlong : ¬∀ n ∈ (Chord.resolve customs picks token 0).1, Yaml.isShort n = true) :
    let reply := ((chordRequest token key transpose customs).reply t output picks).1
    reply.IsFailure ∧ reply.field "message" ≠ .ofName ("Unknown chord: " ++ token) := by
  intro reply
  obtain ⟨e, he⟩ := exists_tooLong hlong
  have hsome : (Chord.resolve customs picks token 0).1.isEmpty = false := by simpa using h
  have hrun : (chordRequest token key transpose customs).run t output picks =
      (.error (.tooLong e), t) := by
    simp only [chordRequest, Tool.run, Tool.resolveChord, looseChords_chordsValue, bind, Except.bind,
      hsome, he]
    rfl
  have hreply : reply = (chordRequest token key transpose customs).failure (.tooLong e)
      (some (Error.tooLong e).message) := by
    simp only [reply, Tool.reply_of_error hrun]
  refine ⟨hreply ▸ Tool.isFailure_failure _ _ _, ?_⟩
  rw [hreply, Tool.field_failure _ _ _ (by decide)]
  simpa [Tool.failureFields, Error.kind?, Error.data, field, lookup] using
    message_tooLong_ne e token

end Reply

theorem ints_inj {ms ns : List Int} : ints ms = ints ns ↔ ms = ns := by
  rw [ints, ints, list.injEq]
  exact (List.map_injective_iff.mpr fun _ _ h => int.inj h).eq_iff

/-- A chord by itself succeeds with the pitches of the event that its document compiles to, if there are
any and its intervals can be written, and is unknown if there are none. -/
theorem chord_sounds_as_in_a_composition (t : Tree) (output : Path) (token key : Name)
    (transpose : Int) (customs : CustomChords) (picks : Picks) :
    let reply := ((chordRequest token key transpose customs).reply t output picks).1
    ∃ d c p event, Document.ofValue (oneChordValue token key transpose customs) = .ok d ∧
      (d.compile picks).1 = .ok c ∧ c.patterns = [p] ∧ p.events = [event] ∧
      (∀ pitches, reply.IsSuccess ∧ reply.field "pitches" = ints pitches ↔
        event.pitches = pitches ∧ pitches ≠ [] ∧
          ∀ n ∈ (Chord.resolve customs picks token 0).1, Yaml.isShort n = true) ∧
      (reply.IsFailure ∧ reply.field "message" = .ofName ("Unknown chord: " ++ token) ↔
        event.pitches = []) := by
  intro reply
  refine ⟨_, _, _, _, ofValue_oneChordValue, compile_oneChordDocument, rfl, rfl, ?_⟩
  -- both resolve the token with the first pick, and the key and the transposition keep the count
  by_cases hnone : (Chord.resolve customs picks token 0).1 = []
  · have hpitches := (pitches_eq_nil_iff key transpose).mpr hnone
    have hunknown : reply.IsFailure ∧ reply.field "message" = .ofName ("Unknown chord: " ++ token) :=
      reply_of_empty t output key transpose hnone
    refine ⟨fun pitches => ⟨fun h => absurd h.1 hunknown.1.not_isSuccess, ?_⟩,
      ⟨fun _ => hpitches, fun _ => hunknown⟩⟩
    rintro ⟨rfl, hsome, -⟩
    exact absurd hpitches hsome
  · have hpitches : (oneChordEvent token key transpose customs picks).pitches ≠ [] :=
      fun h => hnone ((pitches_eq_nil_iff key transpose).mp h)
    by_cases hshort : ∀ n ∈ (Chord.resolve customs picks token 0).1, Yaml.isShort n = true
    · obtain ⟨hsuccess, hfield⟩ : reply.IsSuccess ∧ reply.field "pitches" =
          ints (oneChordEvent token key transpose customs picks).pitches :=
        reply_of_nonempty t output key transpose hnone hshort
      rw [hfield]
      refine ⟨fun pitches => ?_,
        ⟨fun h => absurd hsuccess h.1.not_isSuccess, fun h => absurd h hpitches⟩⟩
      rw [ints_inj]
      exact ⟨fun h => ⟨h.2, h.2 ▸ hpitches, hshort⟩, fun h => ⟨hsuccess, h.1⟩⟩
    · obtain ⟨hfailure, hmessage⟩ : reply.IsFailure ∧
          reply.field "message" ≠ .ofName ("Unknown chord: " ++ token) :=
        reply_of_long t output key transpose hnone hshort
      exact ⟨fun pitches => ⟨fun h => absurd h.1 hfailure.not_isSuccess, fun h => absurd h.2.2 hshort⟩,
        ⟨fun h => absurd h.2 hmessage, fun h => absurd h hpitches⟩⟩

theorem resolve_custom (n : Int) : (Chord.resolve [("x", [n])] id "x" 0).1 = [n] := rfl

/-- An interval above the keyboard sounds as its highest note. -/
theorem pitches_of_high {n : Int} (h : 59 ≤ n) :
    (oneChordEvent "x" "C" 0 [("x", [n])] id).pitches = [107] := by
  have hkey : (Key.parse "C").semitones = 0 := by decide
  rw [oneChordEvent, resolve_custom, soundingPitches_eq, hkey, List.map_singleton]
  have hnote : max 24 (min 107 (48 + n + (0 : Nat) + 0)) = 107 := by omega
  exact congrArg (fun pitch => [pitch]) hnote

/-- An interval that cannot be written: its pitch can, so a composition sounds it, but a request for it
fails. -/
theorem long_interval_is_not_shown :
    let customs : CustomChords := [("x", [10 ^ Yaml.Meaning.digitLimit])]
    let reply := ((chordRequest "x" "C" 0 customs).reply {} {} id).1
    (reply.IsFailure ∧ reply.field "message" ≠ .text ("Unknown chord: " ++ "x")) ∧
      ∃ d c p event, Document.ofValue (oneChordValue "x" "C" 0 customs) = .ok d ∧
        (d.compile id).1 = .ok c ∧ c.patterns = [p] ∧ p.events = [event] ∧ event.pitches = [107] := by
  intro customs reply
  have hresolve := resolve_custom (10 ^ Yaml.Meaning.digitLimit)
  have hlong : ¬∀ n ∈ (Chord.resolve customs id "x" 0).1, Yaml.isShort n = true := by
    have hten : (10 : Int).natAbs = 10 := rfl
    rw [hresolve, List.forall_mem_singleton, isShort_iff, Int.natAbs_pow, hten]
    exact lt_irrefl _
  have hhigh : (59 : Int) ≤ 10 ^ Yaml.Meaning.digitLimit :=
    le_trans (by decide : (59 : Int) ≤ 10 ^ 2) (pow_le_pow_right₀ (by decide) (by decide))
  have hsome : (Chord.resolve customs id "x" 0).1 ≠ [] := hresolve ▸ List.cons_ne_nil _ _
  exact ⟨reply_of_long {} {} "C" 0 hsome hlong, _, _, _, _, ofValue_oneChordValue,
    compile_oneChordDocument, rfl, rfl, pitches_of_high hhigh⟩

end Cadence
