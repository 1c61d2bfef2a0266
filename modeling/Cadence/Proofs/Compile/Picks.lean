import Cadence.Proofs.Compile.Mirror

/-!
# Picks in document order

Only events with a random chord draw picks. They draw one each, in the order of the document, up to the
first defect, so the pick of an event is numbered by the random events before it.
-/

namespace Cadence

variable {customs : CustomChords} {picks : Picks} {d : Document}

/-! ## Random events -/

/-- An event has a random chord: any chord, or one of the custom chords if there are some. -/
def EventEntry.IsRandom (customs : CustomChords) (e : EventEntry) : Prop :=
  e.chord.strip = "??" ∨ e.chord.strip = "?" ∧ customs ≠ []

instance (customs : CustomChords) (e : EventEntry) : Decidable (e.IsRandom customs) :=
  inferInstanceAs (Decidable (_ ∨ _ ∧ _))

/-- What a random event chooses from: the custom chords for `?`, the table and then the custom chords
for `??`. -/
def EventEntry.candidates (customs : CustomChords) (e : EventEntry) : List (List Int) :=
  if e.chord.strip = "?" then customs.map (·.2) else Chord.table.map (·.2) ++ customs.map (·.2)

/-- The events of a document, pattern after pattern. -/
def Document.entries (d : Document) : List EventEntry := (d.patterns?.getD []).flatMap (·.entries)

def Document.randomCount (d : Document) : Nat := d.entries.countP (·.IsRandom d.customs)

/-- An event sounds the candidate that a pick selects if its chord is random, and the chord of its name
if not, whatever the pick. -/
structure EventEntry.SoundsAs (customs : CustomChords) (key : Key) (pick : Nat) (e : EventEntry)
    (event : Event) : Prop where
  random : e.IsRandom customs → ∃ chord,
    (e.candidates customs)[pick % (e.candidates customs).length]? = some chord ∧
      event.pitches = soundingPitches chord key e.transpose
  fixed : ¬e.IsRandom customs →
    event.pitches = soundingPitches (Chord.named customs (e.chord.strip)) key e.transpose

/-- The event at an index of a pattern. -/
def Composition.event? (c : Composition) (k j : Nat) : Option Event :=
  c.patterns[k]?.bind (·.events[j]?)

/-- An event of a document, at an index of the pattern at an index. -/
structure Document.HasEvent (d : Document) (k j : Nat) (p : PatternEntry) (e : EventEntry) : Prop where
  pattern : (d.patterns?.getD [])[k]? = some p
  event : p.entries[j]? = some e

/-! ## One chord -/

theorem EventEntry.candidates_ne_nil {e : EventEntry} (h : e.IsRandom customs) :
    e.candidates customs ≠ [] := by
  unfold candidates
  split
  · next htoken =>
    have hcustoms : customs ≠ [] := by
      rcases h with hany | ⟨-, hsome⟩
      · rw [htoken] at hany
        exact absurd hany (by decide)
      · exact hsome
    simpa using hcustoms
  · simp [Chord.table, Chord.builtIn]

theorem EventEntry.stack_of_random {e : EventEntry} (h : e.IsRandom customs) (drawn : Nat) :
    (e.candidates customs)[picks drawn % (e.candidates customs).length]? =
      some (e.stack customs picks drawn) := by
  have hstack : e.stack customs picks drawn = Chord.pick (e.candidates customs) (picks drawn) := by
    rw [stack, Chord.resolve, candidates]
    by_cases hcustom : e.chord.strip = "?"
    · have hcustoms : customs.isEmpty = false := by
        rcases h with hany | ⟨-, hsome⟩
        · rw [hcustom] at hany
          exact absurd hany (by decide)
        · simpa using hsome
      simp [hcustom, hcustoms]
    · have hany : e.chord.strip = "??" := h.resolve_right fun h => hcustom h.1
      simp [hany, Chord.anyCandidates]
  have hlt : picks drawn % (e.candidates customs).length < (e.candidates customs).length :=
    Nat.mod_lt _ (List.length_pos_iff.mpr (candidates_ne_nil h))
  rw [hstack, Chord.pick, List.getD_eq_getElem?_getD, List.getElem?_eq_getElem hlt]
  rfl

/-- Without custom chords `?` is a name like others, and no chord has it. -/
theorem EventEntry.stack_of_fixed {e : EventEntry} (h : ¬e.IsRandom customs) (drawn : Nat) :
    e.stack customs picks drawn = Chord.named customs (e.chord.strip) := by
  have hany : e.chord.strip ≠ "??" := fun hany => h (.inl hany)
  rw [stack, Chord.resolve]
  by_cases hcustom : e.chord.strip = "?"
  · obtain rfl : customs = [] := by
      by_contra hsome
      exact h (.inr ⟨hcustom, hsome⟩)
    have hnone : Chord.named [] "?" = [] := by decide
    simp [hcustom, hnone]
  · simp [hcustom, hany]

theorem EventEntry.Mirrors.pitches_eq {key : Key} {drawn : Nat} {e : EventEntry} {event : Event}
    (h : e.Mirrors customs picks key drawn event) :
    event.pitches = soundingPitches (e.stack customs picks drawn) key e.transpose := by
  rw [soundingPitches_eq]
  refine List.ext_getElem? fun i => ?_
  rw [List.getElem?_map]
  cases hi : (e.stack customs picks drawn)[i]? with
  | none =>
    rw [List.getElem?_eq_none_iff, ← h.length] at hi
    exact List.getElem?_eq_none_iff.mpr hi
  | some interval => exact h.pitch i interval hi

theorem EventEntry.Mirrors.soundsAs {key : Key} {drawn : Nat} {e : EventEntry} {event : Event}
    (h : e.Mirrors customs picks key drawn event) : e.SoundsAs customs key (picks drawn) event where
  random hrandom := ⟨_, stack_of_random hrandom drawn, h.pitches_eq⟩
  fixed hfixed := by rw [h.pitches_eq, stack_of_fixed hfixed]

/-! ## Counting -/

theorem EventEntry.draws_eq (e : EventEntry) :
    e.draws customs = if e.IsRandom customs then 1 else 0 := rfl

theorem drawnBy_eq (es : List EventEntry) :
    drawnBy customs es = es.countP (·.IsRandom customs) := by
  induction es with
  | nil => rfl
  | cons e es ih =>
    rw [drawnBy_cons, ih, List.countP_cons, Nat.add_comm]
    simp only [EventEntry.draws_eq, decide_eq_true_eq]

theorem entries_cut (p : PatternEntry) (j : Nat) : (p.cut j).entries = p.entries.take j := by
  unfold PatternEntry.entries PatternEntry.cut
  cases p.events? <;> simp

/-- What is drawn before an event: by the patterns before its own, and by the events before it there. -/
theorem Document.randomCount_cut {ps : List PatternEntry} {p : PatternEntry} {k : Nat} (j : Nat)
    (hps : d.patterns? = some ps) (hp : ps[k]? = some p) :
    (d.cut k j).randomCount =
      drawnBy d.customs ((ps.take k).flatMap (·.entries)) + drawnBy d.customs (p.entries.take j) := by
  have hentries : (d.cut k j).entries =
      (ps.take k).flatMap (·.entries) ++ p.entries.take j := by
    simp [Document.entries, Document.cut, hps, cutPatterns, hp, entries_cut]
  rw [← drawnBy_append, drawnBy_eq, ← hentries]
  rfl

theorem compilePatterns_drawn {c c' : Composition} {ps : List PatternEntry} {drawn m : Nat}
    (h : compilePatterns d.master? d.customs picks c ps drawn = (.ok c', m)) :
    m = drawn + drawnBy d.customs (ps.flatMap (·.entries)) := by
  induction ps generalizing c drawn with
  | nil =>
    cases h
    rfl
  | cons p ps ih =>
    obtain ⟨q, n, hrun, hrest⟩ := compilePatterns_cons_ok h
    obtain ⟨-, rfl⟩ := PatternEntry.compile_mirrors hrun
    rw [ih hrest, List.flatMap_cons, drawnBy_append, Nat.add_assoc]

theorem Document.compile_drawn {c : Composition} {drawn : Nat}
    (h : (d.compile picks drawn).1 = .ok c) :
    (d.compile picks drawn).2 = drawn + d.randomCount := by
  obtain ⟨ps, m, hps, hrun⟩ := Document.compile_ok h
  have hcount : d.randomCount = drawnBy d.customs (ps.flatMap (·.entries)) := by
    rw [drawnBy_eq, randomCount, entries, hps]
    rfl
  rw [hcount, ← compilePatterns_drawn hrun]
  cases ps with
  | nil =>
    rw [Document.compile, hps] at h
    cases h
  | cons p ps => rw [d.compile_cons hps, hrun]

theorem PatternEntry.compile_cut_ok {p : PatternEntry} {master? : Option Master} {name : String}
    {drawn : Nat} {q : Pattern} {m : Nat}
    (h : p.compile master? customs name picks drawn = (.ok q, m)) (j : Nat) :
    ∃ q' m', (p.cut j).compile master? customs name picks drawn = (.ok q', m') := by
  obtain ⟨hs, hshort, hes, hrun⟩ := compile_ok h
  have hcut : (p.cut j).events? = some (p.entries.take j) := by rw [cut, hes]; rfl
  rw [compile_of_valid (p := p.cut j) hs, hcut]
  dsimp only
  cases hpart : compileEvents (Setting.merge master? p.master?).parsedKey customs picks
      (p.opened master? name) (p.entries.take j) drawn with
  | mk result n =>
    cases result with
    | ok q' => exact ⟨q', n, congrArg (Compiled.logged _) hpart |>.trans
        (Compiled.logged_of_short (tooLong?_eq_none_iff.mpr hshort) q' n)⟩
    | error x =>
      rw [compileEvents_take _ _ _ _ _ hpart] at hrun
      cases hrun

theorem compilePatterns_cut_ok {master? : Option Master} {c c' : Composition} {ps : List PatternEntry}
    {drawn m : Nat} (h : compilePatterns master? customs picks c ps drawn = (.ok c', m))
    (k j : Nat) :
    ∃ c' m', compilePatterns master? customs picks c (cutPatterns ps k j) drawn = (.ok c', m') := by
  induction ps generalizing c k drawn with
  | nil => exact ⟨c, drawn, by rw [cutPatterns_nil, compilePatterns]⟩
  | cons p ps ih =>
    obtain ⟨q, n, hrun, hrest⟩ := compilePatterns_cons_ok h
    cases k with
    | zero =>
      obtain ⟨q', n', hcut⟩ := PatternEntry.compile_cut_ok hrun j
      exact ⟨c.add q', n', by rw [cutPatterns_zero, compilePatterns, hcut]; rfl⟩
    | succ k =>
      obtain ⟨c', m', hcut⟩ := ih hrest k
      exact ⟨c', m', by rw [cutPatterns_succ, compilePatterns, hrun]; exact hcut⟩

/-- What compiles still does when its end is cut off. -/
theorem Document.compile_cut_ok {c : Composition} {drawn : Nat}
    (h : (d.compile picks drawn).1 = .ok c) (k j : Nat) :
    ∃ c', ((d.cut k j).compile picks drawn).1 = .ok c' := by
  obtain ⟨ps, m, hps, hrun⟩ := Document.compile_ok h
  have hcut : (d.cut k j).patterns? = some (cutPatterns ps k j) := by rw [cut, hps]; rfl
  cases ps with
  | nil =>
    rw [Document.compile, hps] at h
    cases h
  | cons p ps =>
    obtain ⟨c', m', hcutRun⟩ := compilePatterns_cut_ok hrun k j
    obtain ⟨r, rs, hrs⟩ : ∃ r rs, cutPatterns (p :: ps) k j = r :: rs := by
      cases k <;> simp
    rw [hrs] at hcut hcutRun
    rw [Document.compile_cons _ hcut]
    exact ⟨c', congrArg Prod.fst hcutRun⟩

/-! ## The events of a composition -/

theorem Document.compile_event {c : Composition} {drawn k j : Nat} {p : PatternEntry} {e : EventEntry}
    (h : (d.compile picks drawn).1 = .ok c) (hevent : d.HasEvent k j p e) :
    ∃ event, c.event? k j = some event ∧ e.Mirrors d.customs picks
      (Setting.merge d.master? p.master?).parsedKey (drawn + (d.cut k j).randomCount) event := by
  obtain ⟨ps, m, hps, hrun⟩ := Document.compile_ok h
  obtain ⟨qs, hqs, hlength, hall⟩ := compilePatterns_spec d _ ps drawn hrun
  rw [List.nil_append] at hqs
  have hp : ps[k]? = some p := by simpa [hps] using hevent.pattern
  have hk : k < qs.length := hlength ▸ (List.getElem?_eq_some_iff.mp hp).1
  have hq : qs[k]? = some qs[k] := List.getElem?_eq_getElem hk
  have hmirror := hall k p qs[k] hp hq
  have hj : j < qs[k].events.length :=
    hmirror.length ▸ (List.getElem?_eq_some_iff.mp hevent.event).1
  have hfound : qs[k].events[j]? = some qs[k].events[j] := List.getElem?_eq_getElem hj
  refine ⟨qs[k].events[j], by simp [Composition.event?, hqs, hq, hfound], ?_⟩
  rw [Document.randomCount_cut j hps hp, ← Nat.add_assoc]
  exact hmirror.events j e _ hevent.event hfound

/-- An event that is not random is the same with all picks. -/
theorem EventEntry.Mirrors.eq_of_fixed {picks' : Picks} {key : Key} {drawn drawn' : Nat} {e : EventEntry}
    {event event' : Event} (hfixed : ¬e.IsRandom customs)
    (h : e.Mirrors customs picks key drawn event) (h' : e.Mirrors customs picks' key drawn' event') :
    event' = event := by
  have htime : event'.time = event.time := h'.time.trans h.time.symm
  have hpitches : event'.pitches = event.pitches :=
    (h'.soundsAs.fixed hfixed).trans (h.soundsAs.fixed hfixed).symm
  cases event
  cases event'
  rw [Event.mk.injEq]
  exact ⟨htime, hpitches⟩

/-- No picks make a document fail, or keep it from failing. -/
theorem Document.compile_ok_of_ok {c : Composition} {drawn : Nat}
    (h : (d.compile picks drawn).1 = .ok c) (picks' : Picks) (drawn' : Nat) :
    ∃ c', (d.compile picks' drawn').1 = .ok c' := by
  rw [d.compile_eq_ok_iff drawn']
  exact (d.compile_eq_ok_iff drawn).mp ⟨c, h⟩

/-! ## Up to the first defect -/

/-- The event with the first defect draws nothing. -/
theorem compileEvents_fails (key : Key) (before : List EventEntry) {rest : List EventEntry} {p : Pattern}
    {i : Nat} {x : Defect} (drawn : Nat) (hread : AreRead p before)
    (hx : EventDefect p.signature (before ++ rest) (before.length + i) x)
    (hfirst : ∀ n < before.length + i, ∀ y, ¬EventDefect p.signature (before ++ rest) n y) :
    compileEvents key customs picks p rest drawn =
      (.error x.raised, drawn + drawnBy customs (rest.take i)) := by
  -- the index of the defect counts from the start of the pattern, so what is read is carried along
  induction rest generalizing before p drawn i with
  | nil =>
    have hlt := hx.entry
    rw [List.append_nil] at hlt
    omega
  | cons e rest ih =>
    cases i with
    | zero => exact compileEvents_error key ((defect?_eq_some_iff hread).mpr hx) rest drawn
    | succ i =>
      have hfine : e.defect? p = none := by
        rw [Option.eq_none_iff_forall_ne_some]
        intro y hy
        exact hfirst before.length (by omega) y ((defect?_eq_some_iff hread).mp hy)
      have hnext : AreRead (p.append (e.sound key customs picks drawn).1) (before ++ [e]) := by
        rw [AreRead, Pattern.append, List.map_append, List.map_append, hread]
        rfl
      have hlength : (before ++ [e]).length + i = before.length + (i + 1) := by
        rw [List.length_append, List.length_singleton]
        omega
      rw [List.append_cons, ← hlength] at hx
      rw [List.append_cons, ← hlength] at hfirst
      rw [compileEvents_ok key hfine, ih _ _ hnext hx hfirst, e.sound_eq, e.resolve_drawn,
        List.take_succ_cons, drawnBy_cons, Nat.add_assoc]

theorem PatternEntry.compile_fails {p : PatternEntry} {master? : Option Master} {j : Nat} {x : Defect}
    (h : p.FailsAfter master? j x) (name : String) (drawn : Nat) :
    p.compile master? customs name picks drawn =
      (.error x, drawn + drawnBy customs (p.entries.take (j - 1))) := by
  cases h with
  | signature hs => exact compile_of_not_valid hs name drawn
  | noEvents hs hes =>
    rw [compile_of_valid hs, hes]
    rfl
  | @event es j x hs hes hx hfirst =>
    have hentries : p.entries = es := by rw [PatternEntry.entries, hes]; rfl
    rw [compile_of_valid hs, hes, hentries, Nat.add_sub_cancel]
    have hrun := @compileEvents_fails customs picks
      (Setting.merge master? p.master?).parsedKey [] es (p.opened master? name) j x drawn rfl
      (by simpa [opened] using hx) (by simpa [opened] using hfirst)
    dsimp only
    rw [hrun]
    rfl
  | @log es e hs hes hfine hlong =>
    -- all events are read before the signature is written, so all their picks are drawn
    have hentries : p.entries = es := by rw [PatternEntry.entries, hes]; rfl
    rw [compile_of_valid hs, hes, hentries, Nat.add_sub_cancel, List.take_length]
    dsimp only
    rcases @compileEvents_total customs picks
      (Setting.merge master? p.master?).parsedKey [] es (p.opened master? name) drawn rfl
      (by simp) with ⟨q, m, hrun, -⟩ | ⟨i, y, _, _, hdefect, _⟩
    · obtain ⟨-, rfl⟩ := compileEvents_spec _ _ _ _ hrun
      rw [hrun, Compiled.logged_of_long hlong]
    · exact absurd hdefect (hfine i y)

theorem compilePatterns_fails {c : Composition} {ps : List PatternEntry} {p : PatternEntry} {k j : Nat}
    {x : Defect} (drawn : Nat) (hp : ps[k]? = some p) (h : p.FailsAfter d.master? j x)
    (hfirst : ∀ i q, i < k → ps[i]? = some q → q.IsSound d.master?) :
    compilePatterns d.master? d.customs picks c ps drawn = (.error x, drawn +
      (drawnBy d.customs ((ps.take k).flatMap (·.entries)) +
        drawnBy d.customs (p.entries.take (j - 1)))) := by
  induction ps generalizing k c drawn with
  | nil => cases hp
  | cons q ps ih =>
    cases k with
    | zero =>
      obtain rfl := Option.some.inj hp
      rw [compilePatterns, PatternEntry.compile_fails h]
      simp
    | succ k =>
      rcases q.compile_total d.master? (defaultPatternName c.patterns.length) drawn with
        ⟨pattern, m, hrun, -⟩ | ⟨n, y, m, -, hfail⟩
      · obtain ⟨-, rfl⟩ := PatternEntry.compile_mirrors hrun
        have hrest := ih (c := c.add pattern) (drawn + drawnBy d.customs q.entries) hp
          fun i r hi hr => hfirst (i + 1) r (by omega) hr
        rw [compilePatterns, hrun]
        simp only [hrest, List.take_succ_cons, List.flatMap_cons, drawnBy_append, Nat.add_assoc]
      · exact absurd hfail (hfirst 0 q (by omega) rfl n y)

theorem Document.compile_fails {k j : Nat} {x : Defect} (h : d.FailsAfter k j x) (picks : Picks)
    (drawn : Nat) :
    d.compile picks drawn = (.error x, drawn + (d.cut k (j - 1)).randomCount) := by
  cases h with
  | noPatterns hps =>
    simp [Document.compile, hps, randomCount, entries, cut]
  | emptyPatterns hps =>
    simp [Document.compile, hps, randomCount, entries, cut]
  | @pattern ps p k j x hps hp h hfirst =>
    rw [Document.randomCount_cut (j - 1) hps hp]
    cases ps with
    | nil => cases hp
    | cons q ps =>
      rw [d.compile_cons hps]
      exact compilePatterns_fails drawn hp h hfirst

/-- The first event of a pattern cannot come too early. -/
theorem not_eventDefect_zero {s : Signature} {e : EventEntry} {es : List EventEntry}
    (h : e.time.IsReachable s) (x : Defect) : ¬EventDefect s (e :: es) 0 x := by
  intro hx
  cases hx with
  | unreachable he hreach =>
    cases he
    exact hreach h
  | repeated _ hj _ _ => exact absurd hj (lt_irrefl 0)
  | earlier _ _ hj _ _ => exact absurd hj (lt_irrefl 0)

theorem PatternEntry.isSound_of_compile {p : PatternEntry} {master? : Option Master} {name : String}
    {drawn m : Nat} {q : Pattern} (h : p.compile master? customs name picks drawn = (.ok q, m)) :
    p.IsSound master? := by
  rcases @PatternEntry.compile_total customs picks p master? name drawn with
    ⟨_, _, _, hsound⟩ | ⟨j, x, n, hrun, -⟩
  · exact hsound
  · rw [h] at hrun
    cases hrun

/-! ## The picks of a document -/

/-- The random events of a document take the picks one by one in document order: each of them sounds the
candidate that its own pick selects, and the others are the same with all picks. A document with a
defect draws what the random events before that defect draw. -/
theorem random_events_take_the_picks_in_turn (d : Document) (picks : Picks) (drawn : Nat) :
    (∀ c, (d.compile picks drawn).1 = .ok c →
      (d.compile picks drawn).2 = drawn + d.randomCount ∧
      (∀ k j p e, d.HasEvent k j p e →
        ((d.cut k j).compile picks drawn).2 = drawn + (d.cut k j).randomCount ∧
        ∃ event, c.event? k j = some event ∧
          e.SoundsAs d.customs (Setting.merge d.master? p.master?).parsedKey
            (picks (drawn + (d.cut k j).randomCount)) event) ∧
      ∀ (picks' : Picks) (drawn' : Nat), ∃ c', (d.compile picks' drawn').1 = .ok c' ∧
        ∀ k j p e, d.HasEvent k j p e → ¬e.IsRandom d.customs → c'.event? k j = c.event? k j) ∧
    (∀ x, (d.compile picks drawn).1 = .error x → ∃ k j, d.FailsAfter k j x) ∧
    ∀ k j x, d.FailsAfter k j x →
      d.compile picks drawn = (.error x, drawn + (d.cut k (j - 1)).randomCount) := by
  refine ⟨fun c hc => ⟨Document.compile_drawn hc, ?_, ?_⟩,
    fun x hx => (d.compile_eq_error_iff drawn x).mp hx,
    fun k j x h => Document.compile_fails h picks drawn⟩
  · intro k j p e hevent
    obtain ⟨c', hcut⟩ := Document.compile_cut_ok hc k j
    obtain ⟨event, hfound, hmirror⟩ := Document.compile_event hc hevent
    exact ⟨Document.compile_drawn hcut, event, hfound, hmirror.soundsAs⟩
  · intro picks' drawn'
    obtain ⟨c', hc'⟩ := Document.compile_ok_of_ok hc picks' drawn'
    refine ⟨c', hc', fun k j p e hevent hfixed => ?_⟩
    obtain ⟨event, hfound, hmirror⟩ := Document.compile_event hc hevent
    obtain ⟨event', hfound', hmirror'⟩ := Document.compile_event hc' hevent
    rw [hfound, hfound', hmirror.eq_of_fixed hfixed hmirror']

/-- A padded random chord, an unknown one and a random one, then a repeated time at a random chord. -/
def stutteringDocument : Document where
  chords? := some [("Sus", [0, 5])]
  patterns? := some
    [{ events? := some [⟨1, 1, 1, " ? ", 0⟩, ⟨1, 2, 1, "sus", 0⟩, ⟨1, 3, 1, "??", 0⟩] },
      { events? := some [⟨1, 1, 1, "??", 0⟩, ⟨1, 1, 1, "?", 0⟩] }]

theorem stutteringDocument_fails :
    stutteringDocument.FailsAfter 1 2 (.unreachable ⟨1, 1, 1⟩ 1 "?") := by
  have hrepeated : EventDefect Signature.common [⟨1, 1, 1, "??", 0⟩, ⟨1, 1, 1, "?", 0⟩] 1
      (.unreachable ⟨1, 1, 1⟩ 1 "?") :=
    @EventDefect.repeated _ _ _ ⟨1, 1, 1, "?", 0⟩ ⟨1, 1, 1, "??", 0⟩ rfl (by decide) rfl rfl
  have hraised : (Defect.unreachable ⟨1, 1, 1⟩ 1 "?").raised = .unreachable ⟨1, 1, 1⟩ 1 "?" := rfl
  rw [← hraised]
  refine .pattern rfl rfl (.event (by decide) rfl hrepeated fun i hi y => ?_) fun i q hi hq => ?_
  · obtain rfl := Nat.lt_one_iff.mp hi
    exact not_eventDefect_zero (by decide) y
  · obtain rfl := Nat.lt_one_iff.mp hi
    obtain rfl := Option.some.inj hq
    exact PatternEntry.isSound_of_compile
      (show PatternEntry.compile _ none [] "" id 0 = (.ok _, _) from rfl)

theorem picks_of_a_sample_and_of_a_stutter :
    (sampleDocument.compile id 0).1 = .ok sampleComposition ∧
      (sampleDocument.compile id 0).2 = 2 ∧
      (∃ event, sampleComposition.event? 0 1 = some event ∧
        EventEntry.SoundsAs [("Sus", [0, 5])] .d (id 1) ⟨1, 3, 1, "??", 99⟩ event) ∧
      stutteringDocument.FailsAfter 1 2 (.unreachable ⟨1, 1, 1⟩ 1 "?") ∧
      stutteringDocument.compile id 0 = (.error (.unreachable ⟨1, 1, 1⟩ 1 "?"), 3) := by
  have hrun : (sampleDocument.compile id 0).1 = .ok sampleComposition := rfl
  have hfail := stutteringDocument_fails
  obtain ⟨hsample, -, -⟩ := random_events_take_the_picks_in_turn sampleDocument id 0
  obtain ⟨hdrawn, hevents, -⟩ := hsample sampleComposition hrun
  obtain ⟨-, hsecond⟩ := hevents 0 1 _ ⟨1, 3, 1, "??", 99⟩ ⟨rfl, rfl⟩
  have hstutter := (random_events_take_the_picks_in_turn stutteringDocument id 0).2.2 1 2 _ hfail
  exact ⟨hrun, hdrawn, hsecond, hfail, hstutter⟩

end Cadence
