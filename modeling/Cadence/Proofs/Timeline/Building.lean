import Mathlib.Data.List.Perm.Basic
import Cadence.Proofs.Timeline

/-!
# Building a timeline

An event is only compared with the last one. In a pattern in order this is enough: what is later than
the last event is later than all. So events given in any order make the one pattern that has them in
order, or none if two of them share a time, and the order outlives every call that follows.
-/

namespace Cadence

/-! ## One event -/

theorem rising_snoc_iff {events : List Event} {e : Event} :
    Rising (events ++ [e]) ↔ Rising events ∧ ∀ a ∈ events, a.time < e.time := by
  unfold Rising
  simp [List.pairwise_append]

/-- The last event stands for all of them. -/
theorem Rising.forall_lt_iff {events : List Event} (h : Rising events) {t : Time} :
    (∀ last, events.getLast? = some last → last.time < t) ↔ ∀ a ∈ events, a.time < t := by
  constructor
  · intro hlast a ha
    obtain ⟨last, hl⟩ : ∃ last, events.getLast? = some last :=
      ⟨_, List.getLast?_eq_some_getLast (List.ne_nil_of_mem ha)⟩
    exact lt_of_le_of_lt (h.le_last hl ha) (hlast last hl)
  · intro hall last hl
    exact hall last (List.mem_of_getLast? hl)

namespace Pattern

variable {p q : Pattern} {e : Event}

/-- A pattern with one more event. -/
def append (p : Pattern) (event : Event) : Pattern := { p with events := p.events ++ [event] }

/-- The two things that adding an event can do. -/
theorem add_cases (p : Pattern) (e : Event) :
    (∃ last, p.last? = some last ∧ e.time ≤ last.time ∧
        p.add e = .error ⟨e.time, last.time, p.name⟩) ∨
      (∀ last, p.last? = some last → last.time < e.time) ∧ p.add e = .ok (p.append e) := by
  unfold add
  cases hlast : p.last? with
  | none =>
    rw [last?, List.getLast?_eq_none_iff] at hlast
    simp [append, hlast]
  | some last =>
    by_cases hle : e.time ≤ last.time
    · simp [hle]
    · simp [hle, append, not_le.mp hle]

/-- In a pattern in order, an event is taken if it is later than all others, and then at the end. -/
theorem add_eq_ok_iff (h : Rising p.events) :
    p.add e = .ok q ↔ (∀ a ∈ p.events, a.time < e.time) ∧ q = p.append e := by
  rw [← h.forall_lt_iff]
  rcases add_cases p e with ⟨last, hlast, hle, hadd⟩ | ⟨hlater, hadd⟩
  · have hnot : ¬∀ last, p.events.getLast? = some last → last.time < e.time :=
      fun hall => not_lt.mpr hle (hall last hlast)
    simp [hadd, hnot]
  · rw [hadd, Except.ok.injEq, eq_comm (a := p.append e)]
    exact (and_iff_right hlater).symm

/-! ## Events in turn -/

/-- Adding events in turn succeeds if they go on in order, and then they follow the others. -/
theorem foldlM_add_eq_ok_iff (es : List Event) (h : Rising p.events) :
    es.foldlM add p = .ok q ↔
      Rising (p.events ++ es) ∧ q = { p with events := p.events ++ es } := by
  induction es generalizing p with
  | nil =>
    simp only [List.foldlM_nil, List.append_nil, h, true_and]
    exact ⟨fun hq => (Except.ok.inj hq).symm, fun hq => hq ▸ rfl⟩
  | cons e es ih =>
    rw [List.foldlM_cons, List.append_cons]
    cases hadd : p.add e with
    | ok r =>
      obtain ⟨hlater, rfl⟩ := (add_eq_ok_iff h).mp hadd
      exact ih (rising_snoc_iff.mpr ⟨h, hlater⟩)
    | error x =>
      have hnot : ¬Rising ((p.events ++ [e]) ++ es) := by
        intro hall
        have hlater := (rising_snoc_iff.mp (List.pairwise_append.mp hall).1).2
        rw [(add_eq_ok_iff (q := p.append e) h).mpr ⟨hlater, rfl⟩] at hadd
        cases hadd
      simp only [hnot, false_and, iff_false]
      exact fun hok => nomatch hok

end Pattern

/-! ## Events in any order -/

theorem Event.sortByTime_perm (events : List Event) : (sortByTime events).Perm events :=
  List.mergeSort_perm events _

theorem Event.sortByTime_pairwise (events : List Event) :
    (sortByTime events).Pairwise fun a b => a.time ≤ b.time := by
  unfold sortByTime
  apply List.Pairwise.imp (fun h => of_decide_eq_true h)
  apply List.pairwise_mergeSort
  · intro a b c hab hbc
    simp only [decide_eq_true_eq] at *
    exact le_trans hab hbc
  · intro a b
    simpa using le_total a.time b.time

theorem Rising.nodup_times {events : List Event} (h : Rising events) :
    (events.map (·.time)).Nodup := by
  rw [List.Nodup, List.pairwise_map]
  exact h.imp ne_of_lt

/-- Sorting puts events in strict order if no two of them share a time. -/
theorem rising_sortByTime_iff (events : List Event) :
    Rising (Event.sortByTime events) ↔ (events.map (·.time)).Nodup := by
  rw [← ((Event.sortByTime_perm events).map (·.time)).nodup_iff]
  constructor
  · exact Rising.nodup_times
  · intro hnodup
    rw [List.Nodup, List.pairwise_map] at hnodup
    exact (Event.sortByTime_pairwise events).imp₂ (fun _ _ hle hne => lt_of_le_of_ne hle hne) hnodup

/-- Events can be put in strict order in one way only. -/
theorem Rising.eq_of_perm {events others : List Event} (h : Rising events) (ho : Rising others)
    (hperm : others.Perm events) : others = events :=
  hperm.eq_of_pairwise (fun _ _ _ _ hab hba => absurd hab (not_lt.mpr (le_of_lt hba))) ho h

namespace Pattern

variable {p : Pattern} {name : String} {bpm : Int} {signature : Signature} {events : List Event}

/-- What events are built into is the pattern that has just them, in order. -/
theorem ofEvents_eq_ok_iff :
    ofEvents name bpm signature events = .ok p ↔
      ∃ es, es.Perm events ∧ Rising es ∧ p = ⟨name, bpm, signature, es⟩ := by
  have hempty : Rising (⟨name, bpm, signature, []⟩ : Pattern).events := List.Pairwise.nil
  unfold ofEvents
  rw [foldlM_add_eq_ok_iff _ hempty]
  constructor
  · rintro ⟨hrise, rfl⟩
    exact ⟨_, Event.sortByTime_perm events, hrise, rfl⟩
  · rintro ⟨es, hperm, hrise, rfl⟩
    have hsorted : Rising (Event.sortByTime events) :=
      (rising_sortByTime_iff events).mpr ((hperm.map _).nodup_iff.mp hrise.nodup_times)
    rw [hrise.eq_of_perm hsorted ((Event.sortByTime_perm events).trans hperm.symm)]
    exact ⟨hrise, rfl⟩

theorem exists_ofEvents_iff :
    (∃ p, ofEvents name bpm signature events = .ok p) ↔ (events.map (·.time)).Nodup := by
  constructor
  · rintro ⟨p, hp⟩
    obtain ⟨es, hperm, hrise, -⟩ := ofEvents_eq_ok_iff.mp hp
    exact (hperm.map _).nodup_iff.mp hrise.nodup_times
  · intro hnodup
    exact ⟨_, ofEvents_eq_ok_iff.mpr
      ⟨_, Event.sortByTime_perm events, (rising_sortByTime_iff events).mpr hnodup, rfl⟩⟩

/-! ## Calls -/

/-- One call that adds an event: its result, and the pattern that it leaves. -/
def call (p : Pattern) (e : Event) : Except NotAfter Unit × Pattern := (addInPlace e).run.run p

/-- What calls in turn leave of a pattern. One that fails does not stop the next. -/
def afterCalls (p : Pattern) (calls : List Event) : Pattern :=
  calls.foldl (fun p e => (p.call e).2) p

theorem run_get_bind (f : Pattern → ExceptT NotAfter (StateM Pattern) Unit) (p : Pattern) :
    (get >>= f).run.run p = (f p).run.run p := rfl

/-- A call that fails has looked at the last event before it changes anything. -/
theorem call_eq (p : Pattern) (e : Event) :
    p.call e = match p.add e with
      | .ok q => (.ok (), q)
      | .error x => (.error x, p) := by
  unfold call addInPlace add
  rw [run_get_bind]
  cases hlast : p.last? with
  | none =>
    rw [last?, List.getLast?_eq_none_iff] at hlast
    rw [hlast]
    rfl
  | some last =>
    by_cases hle : e.time ≤ last.time
    · simp only [hle, if_true]
      rfl
    · simp only [hle, if_false]
      rfl

theorem call_cases (h : Rising p.events) (e : Event) :
    (∀ a ∈ p.events, a.time < e.time) ∧ p.call e = (.ok (), p.append e) ∨
      ∃ last, p.last? = some last ∧ e.time ≤ last.time ∧
        p.call e = (.error ⟨e.time, last.time, p.name⟩, p) := by
  rw [call_eq]
  rcases add_cases p e with ⟨last, hlast, hle, hadd⟩ | ⟨hlater, hadd⟩
  · exact Or.inr ⟨last, hlast, hle, by rw [hadd]⟩
  · exact Or.inl ⟨h.forall_lt_iff.mp hlater, by rw [hadd]⟩

theorem call_eq_ok_iff (h : Rising p.events) :
    (p.call e).1 = .ok () ↔ ∀ a ∈ p.events, a.time < e.time := by
  rcases call_cases h e with ⟨hlater, hcall⟩ | ⟨last, hlast, hle, hcall⟩
  · rw [hcall]
    exact iff_of_true rfl hlater
  · have hnot : ¬∀ a ∈ p.events, a.time < e.time :=
      fun hall => not_lt.mpr hle (hall last (List.mem_of_getLast? hlast))
    simp [hcall, hnot]

theorem call_rising (h : Rising p.events) (e : Event) : Rising (p.call e).2.events := by
  rcases call_cases h e with ⟨hlater, hcall⟩ | ⟨last, -, -, hcall⟩ <;> rw [hcall]
  · exact rising_snoc_iff.mpr ⟨h, hlater⟩
  · exact h

theorem afterCalls_rising (h : Rising p.events) (calls : List Event) :
    Rising (p.afterCalls calls).events := by
  unfold afterCalls
  induction calls generalizing p with
  | nil => exact h
  | cons e calls ih => exact ih (call_rising h e)

/-- A pattern is built from events, in whatever order they are given, just if no two of them share a
time, and it holds them in the order of their times. Whatever calls follow, it stays in order: a call
is taken just if its event is later than all others, and one that is not taken changes nothing. -/
theorem events_are_kept_in_order (name : String) (bpm : Int) (signature : Signature)
    (events : List Event) :
    ((∃ p, ofEvents name bpm signature events = .ok p) ↔ (events.map (·.time)).Nodup) ∧
      ∀ p, ofEvents name bpm signature events = .ok p →
        p.name = name ∧ p.bpm = bpm ∧ p.signature = signature ∧
          p.events.Perm events ∧ Rising p.events ∧
          (∀ others : List Event, others.Perm events → ofEvents name bpm signature others = .ok p) ∧
          ∀ (calls : List Event) (e : Event), Rising (p.afterCalls calls).events ∧
            (((p.afterCalls calls).call e).1 = .ok () ↔
              ∀ a ∈ (p.afterCalls calls).events, a.time < e.time) ∧
            (((p.afterCalls calls).call e).1 = .ok () →
              ((p.afterCalls calls).call e).2 = (p.afterCalls calls).append e) ∧
            ∀ x, ((p.afterCalls calls).call e).1 = .error x →
              ((p.afterCalls calls).call e).2 = p.afterCalls calls := by
  refine ⟨exists_ofEvents_iff, ?_⟩
  intro p hp
  obtain ⟨es, hperm, hrise, rfl⟩ := ofEvents_eq_ok_iff.mp hp
  refine ⟨rfl, rfl, rfl, hperm, hrise, ?_, ?_⟩
  · intro others hothers
    exact ofEvents_eq_ok_iff.mpr ⟨es, hperm.trans hothers.symm, hrise, rfl⟩
  · intro calls e
    have hnow := afterCalls_rising (p := ⟨name, bpm, signature, es⟩) hrise calls
    refine ⟨hnow, call_eq_ok_iff hnow, ?_, ?_⟩
    · intro hok
      rcases call_cases hnow e with ⟨-, hcall⟩ | ⟨last, -, -, hcall⟩ <;> rw [hcall] at hok ⊢
      cases hok
    · intro x hx
      rcases call_cases hnow e with ⟨-, hcall⟩ | ⟨last, -, -, hcall⟩ <;> rw [hcall] at hx ⊢
      cases hx

/-- Three events in no order, one of them silent. -/
def shuffledEvents : List Event := [⟨⟨2, 1, 1⟩, [48]⟩, ⟨⟨1, 1, 1⟩, [50]⟩, ⟨⟨1, 3, 1⟩, []⟩]

/-- What they are built into. -/
def orderedPattern : Pattern :=
  ⟨"A", 120, ⟨4, 4⟩, [⟨⟨1, 1, 1⟩, [50]⟩, ⟨⟨1, 3, 1⟩, []⟩, ⟨⟨2, 1, 1⟩, [48]⟩]⟩

theorem ofEvents_shuffled : ofEvents "A" 120 ⟨4, 4⟩ shuffledEvents = .ok orderedPattern :=
  ofEvents_eq_ok_iff.mpr ⟨_, by decide, by decide, rfl⟩

/-- Given backwards they make the same pattern. Of four calls, one at a time that is there and one
before the end are not taken, and leave no trace. -/
theorem shuffled_events_are_kept_in_order :
    ofEvents "A" 120 ⟨4, 4⟩ shuffledEvents = .ok orderedPattern ∧
      ofEvents "A" 120 ⟨4, 4⟩ shuffledEvents.reverse = .ok orderedPattern ∧
      ¬(∃ p, ofEvents "A" 120 ⟨4, 4⟩ (⟨⟨1, 3, 1⟩, [9]⟩ :: shuffledEvents) = .ok p) ∧
      (orderedPattern.call ⟨⟨2, 1, 1⟩, []⟩).1 = .error ⟨⟨2, 1, 1⟩, ⟨2, 1, 1⟩, "A"⟩ ∧
      (orderedPattern.call ⟨⟨2, 1, 1⟩, []⟩).2 = orderedPattern ∧
      (orderedPattern.afterCalls
          [⟨⟨2, 1, 1⟩, []⟩, ⟨⟨2, 1, 2⟩, []⟩, ⟨⟨1, 9, 9⟩, []⟩, ⟨⟨3, 0, 0⟩, []⟩]).events =
        orderedPattern.events ++ [⟨⟨2, 1, 2⟩, []⟩, ⟨⟨3, 0, 0⟩, []⟩] := by
  obtain ⟨-, hall⟩ := events_are_kept_in_order "A" 120 ⟨4, 4⟩ shuffledEvents
  obtain ⟨-, -, -, -, -, hothers, hcalls⟩ := hall _ ofEvents_shuffled
  have hshared := (events_are_kept_in_order "A" 120 ⟨4, 4⟩ (⟨⟨1, 3, 1⟩, [9]⟩ :: shuffledEvents)).1
  have hrefused : (orderedPattern.call ⟨⟨2, 1, 1⟩, []⟩).1 = .error ⟨⟨2, 1, 1⟩, ⟨2, 1, 1⟩, "A"⟩ := by
    decide
  refine ⟨ofEvents_shuffled, hothers _ (List.reverse_perm _), ?_, hrefused, ?_, by decide⟩
  · rw [hshared]
    decide
  · exact (hcalls [] ⟨⟨2, 1, 1⟩, []⟩).2.2.2 _ hrefused

end Pattern

end Cadence
