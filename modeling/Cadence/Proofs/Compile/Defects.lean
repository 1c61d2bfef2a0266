import Cadence.Proofs.Compile.Spec
import Cadence.Proofs.Timeline.Building
import Cadence.Proofs.Yaml.Spelling

/-!
# The first defect decides

Compiling fails exactly where the document has its first defect, and what comes after it is never
looked at. Events are added one by one, so the events accepted so far carry the invariant: their times
are those of the entries read.
-/

namespace Cadence

variable {s : Signature} {es : List EventEntry} {customs : CustomChords} {picks : Picks}

/-! ## Defects of an event -/

theorem EventDefect.entry {j : Nat} {x : Defect} (h : EventDefect s es j x) : j < es.length := by
  cases h with
  | unreachable he _ => exact (List.getElem?_eq_some_iff.mp he).1
  | repeated he _ _ _ => exact (List.getElem?_eq_some_iff.mp he).1
  | earlier he _ _ _ _ => exact (List.getElem?_eq_some_iff.mp he).1

/-- The entry before the one at an index is the last of those before it. -/
theorem getElem?_pred {before rest : List EventEntry} {last : EventEntry} :
    (0 < before.length ∧ (before ++ rest)[before.length - 1]? = some last) ↔
      before.getLast? = some last := by
  rw [List.getLast?_eq_getElem?]
  constructor
  · rintro ⟨hpos, h⟩
    rwa [List.getElem?_append_left (by omega)] at h
  · intro h
    have hlt := (List.getElem?_eq_some_iff.mp h).1
    exact ⟨by omega, by rwa [List.getElem?_append_left hlt]⟩

theorem eventDefect_iff {before rest : List EventEntry} {e : EventEntry} {x : Defect} :
    EventDefect s (before ++ e :: rest) before.length x ↔
      ((¬e.time.IsReachable s ∨ before.getLast?.map (·.time) = some e.time) ∧
        x = .unreachable e.time before.length e.chord) ∨
      (e.time.IsReachable s ∧ (∃ t, before.getLast?.map (·.time) = some t ∧ e.time < t) ∧
        x = .timeReverse e.time before.length e.chord) := by
  have hhere : (before ++ e :: rest)[before.length]? = some e := by simp
  constructor
  · intro h
    cases h with
    | unreachable he h =>
      obtain rfl := Option.some.inj (hhere.symm.trans he)
      exact Or.inl ⟨Or.inl h, rfl⟩
    | repeated he hj hlast h =>
      obtain rfl := Option.some.inj (hhere.symm.trans he)
      exact Or.inl ⟨Or.inr (by rw [getElem?_pred.mp ⟨hj, hlast⟩, h]; rfl), rfl⟩
    | earlier he hreach hj hlast h =>
      obtain rfl := Option.some.inj (hhere.symm.trans he)
      exact Or.inr ⟨hreach, ⟨_, by rw [getElem?_pred.mp ⟨hj, hlast⟩]; rfl, h⟩, rfl⟩
  · rintro (⟨h | h, rfl⟩ | ⟨hreach, ⟨t, ht, h⟩, rfl⟩)
    · exact .unreachable hhere h
    · obtain ⟨last, hlast, heq⟩ := Option.map_eq_some_iff.mp h
      obtain ⟨hj, hpred⟩ := getElem?_pred.mpr hlast
      exact .repeated hhere hj hpred heq.symm
    · obtain ⟨last, hlast, rfl⟩ := Option.map_eq_some_iff.mp ht
      obtain ⟨hj, hpred⟩ := getElem?_pred.mpr hlast
      exact .earlier hhere hreach hj hpred h

/-- The events of a pattern are those of the entries read. -/
def AreRead (p : Pattern) (before : List EventEntry) : Prop :=
  p.events.map (·.time) = before.map (·.time)

theorem AreRead.length {p : Pattern} {before : List EventEntry} (h : AreRead p before) :
    p.events.length = before.length := by
  simpa using congrArg List.length h

theorem AreRead.last? {p : Pattern} {before : List EventEntry} (h : AreRead p before) :
    p.last?.map (·.time) = before.getLast?.map (·.time) := by
  rw [Pattern.last?, ← List.getLast?_map, h, List.getLast?_map]

/-- After the events of the entries before it, an entry is checked for its own defects. -/
theorem defect?_eq_some_iff {p : Pattern} {before rest : List EventEntry} {e : EventEntry} {x : Defect}
    (hread : AreRead p before) :
    e.defect? p = some x ↔ EventDefect p.signature (before ++ e :: rest) before.length x := by
  rw [eventDefect_iff, ← hread.last?, EventEntry.defect?, hread.length]
  by_cases hreach : e.time.IsReachable p.signature
  · cases hlast : p.last? with
    | none => simp [hreach]
    | some last =>
      rcases lt_trichotomy e.time last.time with hlt | heq | hgt
      · simp [hreach, hlt, hlt.ne, hlt.ne', @eq_comm _ _ x]
      · rw [heq] at hreach ⊢
        simp [hreach, @eq_comm _ _ x]
      · simp [hreach, hgt.ne, hgt.ne', not_lt.mpr hgt.le]
  · simp [hreach, @eq_comm _ _ x]

/-- An entry without a defect comes after the events of the pattern. -/
theorem last?_lt_of_no_defect {p : Pattern} {e : EventEntry} {last : Event} (h : e.defect? p = none)
    (hlast : p.last? = some last) : last.time < e.time := by
  rw [EventEntry.defect?, hlast] at h
  rcases lt_trichotomy e.time last.time with hlt | heq | hgt
  · by_cases hreach : e.time.IsReachable p.signature <;> simp [hreach, hlt, hlt.ne] at h
  · simp [heq] at h
  · exact hgt

theorem reachable_of_no_defect {p : Pattern} {e : EventEntry} (h : e.defect? p = none) :
    e.time.IsReachable p.signature := by
  by_contra hreach
  simp [EventEntry.defect?, hreach] at h

/-- So its pattern takes it. -/
theorem add_of_no_defect {p : Pattern} {e : EventEntry} {event : Event} (htime : event.time = e.time)
    (h : e.defect? p = none) : p.add event = .ok (p.append event) := by
  rcases p.add_cases event with ⟨last, hlast, hle, -⟩ | ⟨-, hadd⟩
  · rw [htime] at hle
    exact absurd (last?_lt_of_no_defect h hlast) (not_lt.mpr hle)
  · exact hadd

/-! ## Events in turn -/

theorem compileEvents_error {p : Pattern} {e : EventEntry} {x : Defect} (key : Key)
    (h : e.defect? p = some x) (es : List EventEntry) (drawn : Nat) :
    compileEvents key customs picks p (e :: es) drawn = (.error x.raised, drawn) := by
  rw [compileEvents, h]

/-- Neither guard of a pattern stops an entry without a defect. -/
theorem compileEvents_ok {p : Pattern} {e : EventEntry} (key : Key) (h : e.defect? p = none)
    (es : List EventEntry) (drawn : Nat) :
    compileEvents key customs picks p (e :: es) drawn =
      compileEvents key customs picks (p.append (e.sound key customs picks drawn).1) es
        (e.sound key customs picks drawn).2 := by
  have hadd : p.add (e.sound key customs picks drawn).1 = .ok (p.append _) := add_of_no_defect rfl h
  rw [compileEvents, h]
  simp only [hadd]

/-- The first event with a defect decides, and it is found at its own index. -/
theorem compileEvents_total (key : Key) (before rest : List EventEntry) (p : Pattern) (drawn : Nat)
    (hread : AreRead p before)
    (hfine : ∀ i < before.length, ∀ y, ¬EventDefect p.signature (before ++ rest) i y) :
    (∃ q m, compileEvents key customs picks p rest drawn = (.ok q, m) ∧
      ∀ i y, ¬EventDefect p.signature (before ++ rest) i y) ∨
    (∃ j x m, compileEvents key customs picks p rest drawn = (.error x.raised, m) ∧
      EventDefect p.signature (before ++ rest) j x ∧
      ∀ i < j, ∀ y, ¬EventDefect p.signature (before ++ rest) i y) := by
  induction rest generalizing before p drawn with
  | nil =>
    refine Or.inl ⟨p, drawn, rfl, fun i y hdefect => ?_⟩
    have hlt := hdefect.entry
    rw [List.append_nil] at hlt
    exact hfine i hlt y hdefect
  | cons e rest ih =>
    cases hdefect : e.defect? p with
    | some x =>
      exact Or.inr ⟨before.length, x, drawn, compileEvents_error key hdefect rest drawn,
        (defect?_eq_some_iff hread).mp hdefect, hfine⟩
    | none =>
      have hhere : ∀ y, ¬EventDefect p.signature (before ++ e :: rest) before.length y := by
        intro y hy
        rw [← defect?_eq_some_iff hread, hdefect] at hy
        cases hy
      have hnext : AreRead (p.append (e.sound key customs picks drawn).1) (before ++ [e]) := by
        rw [AreRead, Pattern.append, List.map_append, List.map_append, hread]
        rfl
      rw [compileEvents_ok key hdefect]
      rw [List.append_cons] at hfine hhere ⊢
      refine ih (before ++ [e]) _ _ hnext fun i hi y => ?_
      rw [List.length_append, List.length_singleton] at hi
      rcases Nat.lt_or_eq_of_le (Nat.le_of_lt_succ hi) with hlt | rfl
      · exact hfine i hlt y
      · exact hhere y

/-! ## Patterns in turn -/

/-- A pattern before its events are added. -/
def PatternEntry.opened (p : PatternEntry) (master? : Option Master) (name : String) : Pattern where
  name := (Setting.nonempty? p.name?).getD name
  bpm := (Setting.merge master? p.master?).tempo.bpm
  signature := (Setting.merge master? p.master?).signature

theorem Compiled.logged_of_long {e : Yaml.TooLong} (h : Yaml.tooLong? s.numbers = some e) (p : Pattern)
    (drawn : Nat) : Compiled.logged s (.ok p, drawn) = (.error (.tooLong e), drawn) := by
  simp only [Compiled.logged, h]

theorem Compiled.logged_of_short (h : Yaml.tooLong? s.numbers = none) (p : Pattern) (drawn : Nat) :
    Compiled.logged s (.ok p, drawn) = (.ok p, drawn) := by
  simp only [Compiled.logged, h]

theorem PatternEntry.compile_of_not_valid {p : PatternEntry} {master? : Option Master}
    (hs : ¬(Setting.merge master? p.master?).signature.IsValid) (name : String) (drawn : Nat) :
    p.compile master? customs name picks drawn =
      (.error (Defect.badSignature (Setting.merge master? p.master?).signature).raised, drawn) := by
  simp only [compile, hs, not_false_eq_true, if_true]

theorem PatternEntry.compile_of_valid {p : PatternEntry} {master? : Option Master}
    (hs : (Setting.merge master? p.master?).signature.IsValid) (name : String) (drawn : Nat) :
    p.compile master? customs name picks drawn = match p.events? with
      | none => (.error .noPatterns, drawn)
      | some es => (compileEvents (Setting.merge master? p.master?).parsedKey customs picks
          (p.opened master? name) es drawn).logged (Setting.merge master? p.master?).signature := by
  simp only [compile, hs, not_true_eq_false, if_false]
  rfl

theorem PatternEntry.compile_total (p : PatternEntry) (master? : Option Master) (name : String)
    (drawn : Nat) :
    (∃ q m, p.compile master? customs name picks drawn = (.ok q, m) ∧ p.IsSound master?) ∨
      (∃ j x m, p.compile master? customs name picks drawn = (.error x, m) ∧
        p.FailsAfter master? j x) := by
  by_cases hs : (Setting.merge master? p.master?).signature.IsValid
  · rw [compile_of_valid hs]
    cases hes : p.events? with
    | none => exact Or.inr ⟨0, _, drawn, rfl, .noEvents hs hes⟩
    | some es =>
      rcases compileEvents_total (Setting.merge master? p.master?).parsedKey [] es
        (p.opened master? name) drawn rfl (by simp) with
        ⟨q, m, hrun, hfine⟩ | ⟨j, x, m, hrun, hx, hfirst⟩
      · dsimp only
        rw [hrun]
        cases hlong : Yaml.tooLong? (Setting.merge master? p.master?).signature.numbers with
        | some e =>
          exact Or.inr ⟨es.length + 1, .tooLong e, m, Compiled.logged_of_long hlong q m,
            .log hs hes hfine hlong⟩
        | none =>
          refine Or.inl ⟨q, m, Compiled.logged_of_short hlong q m, fun j x hfail => ?_⟩
          cases hfail with
          | signature h => exact h hs
          | noEvents _ h => rw [hes] at h; cases h
          | event _ hes' h _ =>
            obtain rfl := Option.some.inj (hes.symm.trans hes')
            exact hfine _ _ h
          | log _ _ _ h => rw [hlong] at h; cases h
      · dsimp only
        rw [hrun]
        exact Or.inr ⟨j + 1, _, m, rfl, .event hs hes hx hfirst⟩
  · exact Or.inr ⟨0, _, drawn, compile_of_not_valid hs name drawn, .signature hs⟩

theorem compilePatterns_total (master? : Option Master) (ps : List PatternEntry) (c : Composition)
    (drawn : Nat) :
    (∃ c' m, compilePatterns master? customs picks c ps drawn = (.ok c', m) ∧
      ∀ p ∈ ps, p.IsSound master?) ∨
    (∃ (k : Nat) (p : PatternEntry) (j : Nat) (x : Defect) (m : Nat),
      compilePatterns master? customs picks c ps drawn = (.error x, m) ∧
      ps[k]? = some p ∧ p.FailsAfter master? j x ∧
      ∀ (i : Nat) (q : PatternEntry), i < k → ps[i]? = some q → q.IsSound master?) := by
  induction ps generalizing c drawn with
  | nil => exact Or.inl ⟨c, drawn, rfl, by simp⟩
  | cons p ps ih =>
    rw [compilePatterns]
    rcases p.compile_total master? (defaultPatternName c.patterns.length) drawn with
      ⟨q, m, hrun, hsound⟩ | ⟨j, x, m, hrun, hfail⟩
    · rw [hrun]
      rcases ih (c.add q) m with ⟨c', m', hrest, hall⟩ | ⟨k, p', j, x, m', hrest, hp', hfail, hfirst⟩
      · exact Or.inl ⟨c', m', hrest, List.forall_mem_cons.mpr ⟨hsound, hall⟩⟩
      · refine Or.inr ⟨k + 1, p', j, x, m', hrest, hp', hfail, ?_⟩
        intro i r hi hr
        cases i with
        | zero =>
          obtain rfl := Option.some.inj hr
          exact hsound
        | succ i => exact hfirst i r (by omega) hr
    · rw [hrun]
      exact Or.inr ⟨0, p, j, x, m, rfl, rfl, hfail, by simp⟩

theorem Document.compile_total (d : Document) (picks : Picks) (drawn : Nat) :
    (∃ c m, d.compile picks drawn = (.ok c, m) ∧ ∀ k j x, ¬d.FailsAfter k j x) ∨
      (∃ k j x m, d.compile picks drawn = (.error x, m) ∧ d.FailsAfter k j x) := by
  rw [Document.compile]
  cases hps : d.patterns? with
  | none => exact Or.inr ⟨0, 0, _, drawn, rfl, .noPatterns hps⟩
  | some ps =>
    cases ps with
    | nil => exact Or.inr ⟨0, 0, _, drawn, rfl, .emptyPatterns hps⟩
    | cons p ps =>
      rcases compilePatterns_total d.master? (p :: ps)
        ⟨(Setting.nonempty? d.name?).getD defaultCompositionName, []⟩ drawn with
        ⟨c, m, hrun, hall⟩ | ⟨k, q, j, x, m, hrun, hq, hfail, hfirst⟩
      · refine Or.inl ⟨c, m, hrun, fun k j x hfail => ?_⟩
        cases hfail with
        | noPatterns h => rw [hps] at h; cases h
        | emptyPatterns h => rw [hps] at h; cases h
        | pattern hps' hq hfail _ =>
          obtain rfl := Option.some.inj (hps.symm.trans hps')
          exact hall _ (List.mem_of_getElem? hq) _ _ hfail
      · exact Or.inr ⟨k, j, x, m, hrun, .pattern hps hq hfail hfirst⟩

/-! ## There is one first defect -/

theorem EventDefect.unique {j : Nat} {x y : Defect} (hx : EventDefect s es j x)
    (hy : EventDefect s es j y) : x = y := by
  cases hx <;> cases hy <;> simp_all

theorem PatternEntry.FailsAfter.unique {p : PatternEntry} {master? : Option Master} {j k : Nat}
    {x y : Defect} (hx : p.FailsAfter master? j x) (hy : p.FailsAfter master? k y) : x = y := by
  cases hx with
  | signature hx =>
    cases hy with
    | signature _ => rfl
    | noEvents hs _ | event hs _ _ _ | log hs _ _ _ => exact absurd hs hx
  | noEvents hs hx =>
    cases hy with
    | signature hy => exact absurd hs hy
    | noEvents _ _ => rfl
    | event _ hes _ _ | log _ hes _ _ => rw [hx] at hes; cases hes
  | @event es i x hs hes hx hxfirst =>
    cases hy with
    | signature hy => exact absurd hs hy
    | noEvents _ hy => rw [hes] at hy; cases hy
    | @event es' i' y _ hes' hy hyfirst =>
      obtain rfl := Option.some.inj (hes.symm.trans hes')
      rcases lt_trichotomy i i' with hlt | rfl | hgt
      · exact absurd hx (hyfirst i hlt x)
      · rw [hx.unique hy]
      · exact absurd hy (hxfirst i' hgt y)
    | log _ hes' hfine _ =>
      obtain rfl := Option.some.inj (hes.symm.trans hes')
      exact absurd hx (hfine i x)
  | log hs hes hfine hx =>
    cases hy with
    | signature hy => exact absurd hs hy
    | noEvents _ hy => rw [hes] at hy; cases hy
    | @event _ i y _ hes' hy _ =>
      obtain rfl := Option.some.inj (hes.symm.trans hes')
      exact absurd hy (hfine i y)
    | log _ _ _ hy =>
      obtain rfl := Option.some.inj (hx.symm.trans hy)
      rfl

theorem Document.FailsAfter.unique {d : Document} {k k' j j' : Nat} {x y : Defect}
    (hx : d.FailsAfter k j x) (hy : d.FailsAfter k' j' y) : x = y := by
  cases hx with
  | noPatterns hx =>
    cases hy with
    | noPatterns _ => rfl
    | emptyPatterns hy => rw [hx] at hy; cases hy
    | pattern hps _ _ _ => rw [hx] at hps; cases hps
  | emptyPatterns hx =>
    cases hy with
    | noPatterns hy => rw [hx] at hy; cases hy
    | emptyPatterns _ => rfl
    | pattern hps hp _ _ =>
      obtain rfl := Option.some.inj (hx.symm.trans hps)
      cases hp
  | @pattern ps p _ _ _ hps hp hx hxfirst =>
    cases hy with
    | noPatterns hy => rw [hps] at hy; cases hy
    | emptyPatterns hy =>
      obtain rfl := Option.some.inj (hps.symm.trans hy)
      cases hp
    | @pattern ps' q _ _ _ hps' hq hy hyfirst =>
      obtain rfl := Option.some.inj (hps.symm.trans hps')
      rcases lt_trichotomy k k' with hlt | rfl | hgt
      · exact absurd hx (hyfirst k p hlt hp j x)
      · obtain rfl := Option.some.inj (hp.symm.trans hq)
        exact hx.unique hy
      · exact absurd hy (hxfirst k' q hgt hq j' y)

theorem Document.compile_eq_error_iff (d : Document) (drawn : Nat) (x : Defect) :
    (d.compile picks drawn).1 = .error x ↔ ∃ k j, d.FailsAfter k j x := by
  rcases d.compile_total picks drawn with ⟨c, m, hrun, hfine⟩ | ⟨k, j, y, m, hrun, hfail⟩
  · rw [hrun]
    constructor
    · intro h
      cases h
    · rintro ⟨k, j, hx⟩
      exact absurd hx (hfine k j x)
  · rw [hrun]
    constructor
    · intro h
      cases h
      exact ⟨k, j, hfail⟩
    · rintro ⟨k', j', hx⟩
      rw [hx.unique hfail]

theorem Document.compile_eq_ok_iff (d : Document) (drawn : Nat) :
    (∃ c, (d.compile picks drawn).1 = .ok c) ↔ ∀ k j x, ¬d.FailsAfter k j x := by
  rcases d.compile_total picks drawn with ⟨c, m, hrun, hfine⟩ | ⟨k, j, y, m, hrun, hfail⟩
  · rw [hrun]
    exact ⟨fun _ => hfine, fun _ => ⟨c, rfl⟩⟩
  · rw [hrun]
    constructor
    · rintro ⟨c, h⟩
      cases h
    · intro h
      exact absurd hfail (h k j y)

/-! ## Nothing after the first defect is read -/

theorem compileEvents_take (key : Key) (p : Pattern) (es : List EventEntry) (j drawn : Nat) {x : Defect}
    {m : Nat} (h : compileEvents key customs picks p (es.take j) drawn = (.error x, m)) :
    compileEvents key customs picks p es drawn = (.error x, m) := by
  induction es generalizing p j drawn with
  | nil => rwa [List.take_nil] at h
  | cons e es ih =>
    cases j with
    | zero => cases h
    | succ j =>
      rw [List.take_succ_cons] at h
      cases hdefect : e.defect? p with
      | some y =>
        rw [compileEvents_error key hdefect] at h ⊢
        exact h
      | none =>
        rw [compileEvents_ok key hdefect] at h ⊢
        exact ih _ j _ h

theorem PatternEntry.FailsAfter.of_events {p : PatternEntry} {master? : Option Master} {j : Nat}
    {x : Defect} (h : p.FailsAfter master? j x)
    (hs : (Setting.merge master? p.master?).signature.IsValid) (hes : p.events? = some es) :
    (∃ i y, EventDefect (Setting.merge master? p.master?).signature es i y) ∨ es.length < j := by
  cases h with
  | signature h => exact absurd hs h
  | noEvents _ h => rw [hes] at h; cases h
  | event _ hes' h _ =>
    obtain rfl := Option.some.inj (hes.symm.trans hes')
    exact .inl ⟨_, _, h⟩
  | log _ hes' _ _ =>
    obtain rfl := Option.some.inj (hes.symm.trans hes')
    exact .inr (Nat.lt_add_one _)

/-- A pattern of which the events read so far fail compiles like these. -/
theorem PatternEntry.compile_cut {p : PatternEntry} {master? : Option Master} {j : Nat} {x : Defect}
    (h : (p.cut j).FailsAfter master? j x) (name : String) (drawn : Nat) :
    p.compile master? customs name picks drawn =
      (p.cut j).compile master? customs name picks drawn := by
  by_cases hs : (Setting.merge master? p.master?).signature.IsValid
  · rw [compile_of_valid hs, compile_of_valid (p := p.cut j) hs]
    cases hes : p.events? with
    | none =>
      have hcut : (p.cut j).events? = none := by rw [cut, hes]; rfl
      rw [hcut]
    | some es =>
      have hcut : (p.cut j).events? = some (es.take j) := by rw [cut, hes]; rfl
      rw [hcut]
      dsimp only
      refine congrArg (Compiled.logged _) ?_
      rcases h.of_events hs hcut with ⟨i, y, hdefect⟩ | hall
      · rcases @compileEvents_total customs picks
          (Setting.merge master? p.master?).parsedKey [] (es.take j) (p.opened master? name) drawn rfl
          (by simp) with ⟨_, _, _, hfine⟩ | ⟨_, _, _, hrun, _⟩
        · exact absurd hdefect (hfine i y)
        · exact (compileEvents_take _ _ es j drawn hrun).trans hrun.symm
      · rw [List.length_take] at hall
        rw [List.take_of_length_le (by omega)]
        rfl
  · rw [compile_of_not_valid hs, compile_of_not_valid (p := p.cut j) hs]
    rfl

@[simp]
theorem cutPatterns_nil (k j : Nat) : cutPatterns [] k j = [] := by simp [cutPatterns]

@[simp]
theorem cutPatterns_zero (p : PatternEntry) (ps : List PatternEntry) (j : Nat) :
    cutPatterns (p :: ps) 0 j = [p.cut j] := rfl

@[simp]
theorem cutPatterns_succ (p : PatternEntry) (ps : List PatternEntry) (k j : Nat) :
    cutPatterns (p :: ps) (k + 1) j = p :: cutPatterns ps k j := rfl

theorem compilePatterns_cut (master? : Option Master) (c : Composition) {ps : List PatternEntry}
    {p : PatternEntry} {k j : Nat} {x : Defect} (drawn : Nat) (hp : ps[k]? = some p)
    (h : (p.cut j).FailsAfter master? j x) :
    compilePatterns master? customs picks c ps drawn =
      compilePatterns master? customs picks c (cutPatterns ps k j) drawn := by
  induction ps generalizing c k drawn with
  | nil => cases hp
  | cons q ps ih =>
    cases k with
    | zero =>
      obtain rfl := Option.some.inj hp
      rw [cutPatterns_zero, compilePatterns, compilePatterns, PatternEntry.compile_cut h]
      rcases @PatternEntry.compile_total customs picks (q.cut j) master?
        (defaultPatternName c.patterns.length) drawn with ⟨_, _, _, hsound⟩ | ⟨_, _, _, hrun, _⟩
      · exact absurd h (hsound j x)
      · rw [hrun]
    | succ k =>
      rw [cutPatterns_succ, compilePatterns, compilePatterns]
      cases hrun : q.compile master? customs (defaultPatternName c.patterns.length) picks drawn with
      | mk result n =>
        cases result with
        | error y => rfl
        | ok r => exact ih (c.add r) n hp

/-- A document with patterns compiles them in turn. -/
theorem Document.compile_cons (d : Document) {p : PatternEntry} {ps : List PatternEntry}
    (hps : d.patterns? = some (p :: ps)) (drawn : Nat) :
    d.compile picks drawn = compilePatterns d.master? d.customs picks
      ⟨(Setting.nonempty? d.name?).getD defaultCompositionName, []⟩ (p :: ps) drawn := by
  rw [Document.compile, hps]

/-! ## What is left still fails -/

theorem EventDefect.take {j : Nat} {x : Defect} (h : EventDefect s es j x) :
    EventDefect s (es.take (j + 1)) j x := by
  cases h with
  | unreachable he h => exact .unreachable (by rwa [List.getElem?_take_of_lt (by omega)]) h
  | repeated he hj hlast h =>
    exact .repeated (by rwa [List.getElem?_take_of_lt (by omega)]) hj
      (by rwa [List.getElem?_take_of_lt (by omega)]) h
  | earlier he hreach hj hlast h =>
    exact .earlier (by rwa [List.getElem?_take_of_lt (by omega)]) hreach hj
      (by rwa [List.getElem?_take_of_lt (by omega)]) h

theorem EventDefect.of_take {i j : Nat} {x : Defect} (h : EventDefect s (es.take j) i x) :
    EventDefect s es i x := by
  have read {n : Nat} {e : EventEntry} (he : (es.take j)[n]? = some e) : es[n]? = some e := by
    rw [List.getElem?_take] at he
    split at he
    · exact he
    · cases he
  cases h with
  | unreachable he h => exact .unreachable (read he) h
  | repeated he hj hlast h => exact .repeated (read he) hj (read hlast) h
  | earlier he hreach hj hlast h => exact .earlier (read he) hreach hj (read hlast) h

theorem PatternEntry.FailsAfter.cut {p : PatternEntry} {master? : Option Master} {j : Nat} {x : Defect}
    (h : p.FailsAfter master? j x) : (p.cut j).FailsAfter master? j x := by
  cases h with
  | signature h => exact .signature h
  | noEvents hs h => exact .noEvents hs (by rw [PatternEntry.cut, h]; rfl)
  | @event es j x hs hes h hfirst =>
    exact .event hs (by rw [PatternEntry.cut, hes]; rfl) h.take fun i hi y hy => hfirst i hi y hy.of_take
  | @log es e hs hes hfine hlong =>
    have hall : es.take (es.length + 1) = es := List.take_of_length_le (Nat.le_succ _)
    exact .log hs (by rw [PatternEntry.cut, hes, Option.map_some, hall]) hfine hlong

theorem getElem?_cutPatterns_of_lt {ps : List PatternEntry} {i k : Nat} (j : Nat) (hi : i < k)
    (hk : k < ps.length) : (cutPatterns ps k j)[i]? = ps[i]? := by
  rw [cutPatterns, List.getElem?_append_left (by rw [List.length_take]; omega),
    List.getElem?_take_of_lt hi]

theorem getElem?_cutPatterns {ps : List PatternEntry} {p : PatternEntry} {k : Nat} (j : Nat)
    (hp : ps[k]? = some p) : (cutPatterns ps k j)[k]? = some (p.cut j) := by
  have hk := (List.getElem?_eq_some_iff.mp hp).1
  rw [cutPatterns, hp, List.getElem?_append_right (by rw [List.length_take]; omega), List.length_take,
    Nat.min_eq_left hk.le, Nat.sub_self]
  rfl

theorem Document.FailsAfter.cut {d : Document} {k j : Nat} {x : Defect} (h : d.FailsAfter k j x) :
    (d.cut k j).FailsAfter k j x := by
  cases h with
  | noPatterns h => exact .noPatterns (by rw [Document.cut, h]; rfl)
  | emptyPatterns h => exact .emptyPatterns (by rw [Document.cut, h]; rfl)
  | @pattern ps p k j x hps hp h hfirst =>
    have hk := (List.getElem?_eq_some_iff.mp hp).1
    refine .pattern (by rw [Document.cut, hps]; rfl) (getElem?_cutPatterns j hp) h.cut fun i q hi hq => ?_
    rw [getElem?_cutPatterns_of_lt j hi hk] at hq
    exact hfirst i q hi hq

theorem getElem?_of_cutPatterns {ps : List PatternEntry} {q : PatternEntry} {k j : Nat}
    (h : (cutPatterns ps k j)[k]? = some q) : ∃ p, ps[k]? = some p ∧ q = p.cut j := by
  cases hp : ps[k]? with
  | none =>
    have hlength : ps.length ≤ k := List.getElem?_eq_none_iff.mp hp
    rw [cutPatterns, hp, Option.map_none, Option.toList_none, List.append_nil,
      List.take_of_length_le hlength, hp] at h
    cases h
  | some p =>
    rw [getElem?_cutPatterns j hp] at h
    exact ⟨p, rfl, (Option.some.inj h).symm⟩

theorem Document.FailsAfter.of_patterns {d : Document} {ps : List PatternEntry} {k j : Nat}
    {x : Defect} (h : d.FailsAfter k j x) (hps : d.patterns? = some ps) (hne : ps ≠ []) :
    ∃ p, ps[k]? = some p ∧ p.FailsAfter d.master? j x := by
  cases h with
  | noPatterns h => rw [hps] at h; cases h
  | emptyPatterns h =>
    rw [hps] at h
    exact absurd (Option.some.inj h) hne
  | pattern hps' hp h _ =>
    obtain rfl := Option.some.inj (hps.symm.trans hps')
    exact ⟨_, hp, h⟩

/-- A document that fails in the part of it that is read compiles like this part. -/
theorem Document.compile_cut {d : Document} {k j : Nat} {x : Defect} (drawn : Nat)
    (h : (d.cut k j).FailsAfter k j x) :
    d.compile picks drawn = (d.cut k j).compile picks drawn := by
  cases hps : d.patterns? with
  | none =>
    have hcut : (d.cut k j).patterns? = none := by rw [cut, hps]; rfl
    rw [compile, compile, hps, hcut]
  | some ps =>
    have hcut : (d.cut k j).patterns? = some (cutPatterns ps k j) := by rw [cut, hps]; rfl
    cases ps with
    | nil => rw [compile, compile, hps, hcut, cutPatterns_nil]
    | cons p ps =>
      obtain ⟨r, rs, hrs⟩ : ∃ r rs, cutPatterns (p :: ps) k j = r :: rs := by
        cases k <;> simp
      obtain ⟨q, hq, hfail⟩ := h.of_patterns hcut (by simp [hrs])
      obtain ⟨entry, hentry, rfl⟩ := getElem?_of_cutPatterns hq
      rw [hrs] at hcut
      rw [compile_cons _ hps, compile_cons _ hcut, ← hrs]
      exact compilePatterns_cut _ _ drawn hentry hfail

/-- A document that is the same up to its first defect compiles to the same. -/
theorem Document.compile_eq_of_cut {d d' : Document} {k j : Nat} {x : Defect} (drawn : Nat)
    (hfail : d.FailsAfter k j x) (hcut : d'.cut k j = d.cut k j) :
    d'.compile picks drawn = d.compile picks drawn := by
  have hcutFails := hfail.cut
  rw [compile_cut drawn hcutFails, ← hcut]
  rw [← hcut] at hcutFails
  exact compile_cut drawn hcutFails

/-! ## The first defect decides -/

theorem Defect.raised_eq (d : Defect) :
    d.raised = d ∧ (∀ n ∈ d.numbers, Yaml.isShort n = true) ∨
      ∃ e, d.raised = .tooLong e ∧ Yaml.tooLong? d.numbers = some e := by
  rw [raised]
  cases h : Yaml.tooLong? d.numbers with
  | none => exact .inl ⟨rfl, tooLong?_eq_none_iff.mp h⟩
  | some e => exact .inr ⟨e, rfl, rfl⟩

theorem Defect.raised_ne_notAfter {d : Defect} {refusal : NotAfter} (h : d ≠ .notAfter refusal) :
    d.raised ≠ .notAfter refusal := by
  rcases d.raised_eq with ⟨hself, -⟩ | ⟨e, hlong, -⟩
  · rwa [hself]
  · rw [hlong]
    simp

/-- No defect of a document is an event that its pattern does not take. -/
theorem Document.FailsAfter.ne_notAfter {d : Document} {k j : Nat} {refusal : NotAfter} :
    ¬d.FailsAfter k j (.notAfter refusal) := by
  intro h
  cases h with
  | pattern _ _ h _ =>
    generalize hraised : Defect.notAfter refusal = x at h
    cases h with
    | signature _ => exact Defect.raised_ne_notAfter (by simp) hraised.symm
    | event _ _ h _ => exact Defect.raised_ne_notAfter (by cases h <;> simp) hraised.symm
    | noEvents _ _ | log _ _ _ _ => cases hraised

/-- Compiling fails with the first defect and with nothing else, it succeeds if there is none, and a
document that is the same up to its first defect compiles to the same. -/
theorem compile_fails_at_the_first_defect (d : Document) (picks : Picks) (drawn : Nat) :
    (∀ x, (d.compile picks drawn).1 = .error x ↔ ∃ k j, d.FailsAfter k j x) ∧
    ((∃ c, (d.compile picks drawn).1 = .ok c) ↔ ∀ k j x, ¬d.FailsAfter k j x) ∧
    (∀ refusal, (d.compile picks drawn).1 ≠ .error (.notAfter refusal)) ∧
    (∀ e : EventEntry, Time.ofFields e.bar e.beat e.interval = .ok e.time) ∧
    ∀ k j x, d.FailsAfter k j x → ∀ d' : Document, d'.cut k j = d.cut k j →
      d'.compile picks drawn = d.compile picks drawn := by
  refine ⟨d.compile_eq_error_iff drawn, d.compile_eq_ok_iff drawn, ?_, ?_, ?_⟩
  · intro refusal h
    obtain ⟨k, j, hfail⟩ := (d.compile_eq_error_iff drawn _).mp h
    exact hfail.ne_notAfter
  · intro e
    have hnat : ¬((e.bar : Int) < 0 ∨ (e.beat : Int) < 0 ∨ (e.interval : Int) < 0) := by omega
    simp [Time.ofFields, EventEntry.time, hnat]
  · intro k j x hfail d' hcut
    exact Document.compile_eq_of_cut drawn hfail hcut

/-- An event that is too early, and more defects after it. -/
def reversedDocument : Document where
  patterns? := some
    [{ events? := some [⟨1, 2, 1, "C", 0⟩, ⟨1, 1, 1, "Am", 0⟩, ⟨0, 0, 0, "?", 0⟩] }, {}]

theorem reversed_document_fails_at_its_second_event :
    reversedDocument.FailsAfter 0 2 (.timeReverse ⟨1, 1, 1⟩ 1 "Am") ∧
      (reversedDocument.compile id 0).1 = .error (.timeReverse ⟨1, 1, 1⟩ 1 "Am") := by
  have hfail : reversedDocument.FailsAfter 0 2 (.timeReverse ⟨1, 1, 1⟩ 1 "Am") := by
    have hsecond : EventDefect Signature.common
        [⟨1, 2, 1, "C", 0⟩, ⟨1, 1, 1, "Am", 0⟩, ⟨0, 0, 0, "?", 0⟩] 1
        (.timeReverse ⟨1, 1, 1⟩ 1 "Am") :=
      @EventDefect.earlier _ _ _ ⟨1, 1, 1, "Am", 0⟩ ⟨1, 2, 1, "C", 0⟩ rfl (by decide) (by decide) rfl
        (by decide)
    have hraised : (Defect.timeReverse ⟨1, 1, 1⟩ 1 "Am").raised = .timeReverse ⟨1, 1, 1⟩ 1 "Am" := rfl
    rw [← hraised]
    refine .pattern rfl rfl (.event (by decide) rfl hsecond fun i hi y hdefect => ?_) (by simp)
    obtain rfl := Nat.lt_one_iff.mp hi
    cases hdefect with
    | unreachable he h =>
      cases he
      exact h (by decide)
    | repeated _ hj _ _ => exact absurd hj (by decide)
    | earlier _ _ hj _ _ => exact absurd hj (by decide)
  exact ⟨hfail, ((compile_fails_at_the_first_defect reversedDocument id 0).1 _).mpr ⟨0, 2, hfail⟩⟩

/-- One silent pattern under a signature. -/
def signedDocument (s : Signature) : Document where
  patterns? := some [{ master? := some { signature? := some s }, events? := some [] }]

theorem compile_signedDocument {s : Signature} {e : Yaml.TooLong}
    (hlong : Yaml.tooLong? s.numbers = some e) (picks : Picks) :
    ((signedDocument s).compile picks).1 = .error (.tooLong e) := by
  have hentry : ∃ j, PatternEntry.FailsAfter
      { master? := some { signature? := some s }, events? := some [] } none j (.tooLong e) := by
    by_cases hs : s.IsValid
    · exact ⟨1, @PatternEntry.FailsAfter.log _ _ [] _ hs rfl (fun i y hy => by cases hy <;> simp_all)
        hlong⟩
    · have hraised : (Defect.badSignature s).raised = .tooLong e := by
        rw [Defect.raised, Defect.numbers, hlong]
      exact ⟨0, hraised ▸ .signature hs⟩
  obtain ⟨j, hj⟩ := hentry
  exact ((signedDocument s).compile_eq_error_iff 0 _).mpr
    ⟨0, j, .pattern rfl rfl hj fun i q hi _ => absurd hi (Nat.not_lt_zero i)⟩

/-- Of a signature with a number that cannot be written nothing but this number is raised, although a
valid one is no defect and an invalid one has an error of its own. -/
theorem long_signature_is_raised_as_a_number :
    let valid : Signature := ⟨10 ^ Yaml.Meaning.digitLimit, 4⟩
    let invalid : Signature := ⟨10 ^ Yaml.Meaning.digitLimit, 5⟩
    (valid.IsValid ∧ ∃ e, ((signedDocument valid).compile id).1 = .error (.tooLong e)) ∧
      ¬invalid.IsValid ∧ ∃ e, ((signedDocument invalid).compile id).1 = .error (.tooLong e) := by
  intro valid invalid
  have hlong (s : Signature) (hs : s.numerator = 10 ^ Yaml.Meaning.digitLimit) :
      ∃ e, ((signedDocument s).compile id).1 = .error (.tooLong e) := by
    have hnumbers : ¬∀ n ∈ s.numbers, Yaml.isShort n = true := by
      intro h
      have hten : (10 : Int).natAbs = 10 := rfl
      have hshort := h _ List.mem_cons_self
      rw [hs, isShort_iff, Int.natAbs_pow, hten] at hshort
      exact absurd hshort (lt_irrefl _)
    obtain ⟨e, he⟩ := exists_tooLong hnumbers
    exact ⟨e, compile_signedDocument he id⟩
  have hpos : (0 : Int) < 10 ^ Yaml.Meaning.digitLimit := pow_pos (by decide) _
  have hinvalid : ¬invalid.IsValid := by
    rintro ⟨-, hpower⟩
    cases hpower
  exact ⟨⟨⟨hpos, rfl⟩, hlong valid rfl⟩, hinvalid, hlong invalid rfl⟩

end Cadence
