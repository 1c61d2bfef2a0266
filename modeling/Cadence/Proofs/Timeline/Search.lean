import Cadence.Proofs.Compile.Mirror

/-!
# The search counts

In a pattern that was built, the index that the search finds is a number of events: those that are
earlier. So a later time is never found before an earlier one, and an event is found at its own index.
-/

namespace Cadence

/-- The ways to a pattern in order: from events in any order, from an entry of a document, or as a part
of what a document compiles to. -/
inductive Pattern.IsBuilt : Pattern → Prop where
  | ofEvents {name : String} {bpm : Int} {signature : Signature} {events : List Event} {p : Pattern}
      (h : Pattern.ofEvents name bpm signature events = .ok p) : IsBuilt p
  | ofEntry {entry : PatternEntry} {master? : Option Master} {customs : CustomChords}
      {name : String} {picks : Picks} {drawn : Nat} {p : Pattern}
      (h : (entry.compile master? customs name picks drawn).1 = .ok p) : IsBuilt p
  | ofDocument {d : Document} {picks : Picks} {drawn : Nat} {c : Composition} {p : Pattern}
      (h : (d.compile picks drawn).1 = .ok c) (hp : p ∈ c.patterns) : IsBuilt p

theorem Pattern.IsBuilt.rising {p : Pattern} (h : p.IsBuilt) : Rising p.events := by
  cases h with
  | ofEvents h =>
    obtain ⟨es, -, hrise, rfl⟩ := Pattern.ofEvents_eq_ok_iff.mp h
    exact hrise
  | ofEntry h => exact (PatternEntry.compile_playable (Prod.ext h rfl)).rising
  | ofDocument h hp => exact (Document.compile_playable h p hp).rising

namespace Parts

variable {events : List Event} {t : Time} {k : Nat}

/-- An index that parts events is the number of those that are earlier. -/
theorem eq_countP (h : Parts events t k) : k = events.countP (·.time < t) := by
  have hlater : events.length - k = events.countP (t ≤ ·.time) := by
    rw [← List.length_drop, h.drop_eq, List.countP_eq_length_filter]
  have hsplit := List.length_eq_countP_add_countP (fun e : Event => decide (e.time < t)) (l := events)
  simp only [decide_eq_true_eq, not_lt] at hsplit
  have hle := h.le
  omega

/-- An event parts those before it from itself and those after it. -/
theorem of_event (h : Rising events) {i : Nat} (hi : i < events.length) :
    Parts events events[i].time i where
  le := le_of_lt hi
  before j hj hji := h.getElem_lt hi hji
  after j hj hij := by
    rcases Nat.lt_or_eq_of_le hij with hlt | rfl
    · exact le_of_lt (h.getElem_lt hj hlt)
    · exact le_refl _

end Parts

theorem countP_earlier_mono (events : List Event) {t u : Time} (h : t ≤ u) :
    events.countP (·.time < t) ≤ events.countP (·.time < u) := by
  apply List.countP_mono_left
  intro e _ he
  simp only [decide_eq_true_eq] at *
  exact lt_of_lt_of_le he h

/-- The search for a time counts the events before it. They are the first ones of the pattern, no later
time has fewer of them, and the time of an event has as many as come before that event. -/
theorem search_counts_what_is_earlier (p : Pattern) (h : p.IsBuilt) (t : Time) :
    p.indexFrom t = p.events.countP (·.time < t) ∧
      p.indexFrom t ≤ p.events.length ∧
      (∀ i (hi : i < p.events.length), i < p.indexFrom t → p.events[i].time < t) ∧
      (∀ i (hi : i < p.events.length), p.indexFrom t ≤ i → t ≤ p.events[i].time) ∧
      (∀ u, t ≤ u → p.indexFrom t ≤ p.indexFrom u) ∧
      ∀ i (hi : i < p.events.length), p.events[i].time = t → p.indexFrom t = i := by
  have hcount (u : Time) : p.indexFrom u = p.events.countP (·.time < u) :=
    (indexFrom_parts h.rising u).eq_countP
  obtain ⟨hle, hbefore, hafter⟩ := indexFrom_parts h.rising t
  refine ⟨hcount t, hle, hbefore, hafter, ?_, ?_⟩
  · intro u htu
    rw [hcount t, hcount u]
    exact countP_earlier_mono p.events htu
  · rintro i hi rfl
    rw [hcount]
    exact (Parts.of_event h.rising hi).eq_countP.symm

/-- In a pattern of the sample, an event that is sought by its own time is found, and one interval later
it is passed. In the ordered pattern no event is before the first time there is. -/
theorem sample_search_counts :
    (sampleDocument.compile id 0).1 = .ok sampleComposition ∧
      sampleComposition.patterns[0].indexFrom ⟨1, 3, 1⟩ = 1 ∧
      sampleComposition.patterns[0].indexFrom ⟨1, 3, 2⟩ = 2 ∧
      Pattern.ofEvents "A" 120 ⟨4, 4⟩ Pattern.shuffledEvents = .ok Pattern.orderedPattern ∧
      Pattern.orderedPattern.indexFrom ⟨0, 0, 0⟩ = 0 := by
  have hrun : (sampleDocument.compile id 0).1 = .ok sampleComposition := rfl
  have hbuilt : sampleComposition.patterns[0].IsBuilt := .ofDocument hrun (List.getElem_mem _)
  obtain ⟨-, -, -, -, -, hown⟩ := search_counts_what_is_earlier _ hbuilt ⟨1, 3, 1⟩
  obtain ⟨hpassed, -⟩ := search_counts_what_is_earlier _ hbuilt ⟨1, 3, 2⟩
  obtain ⟨hnone, -⟩ := search_counts_what_is_earlier _ (.ofEvents Pattern.ofEvents_shuffled) ⟨0, 0, 0⟩
  refine ⟨hrun, hown 1 (by decide) rfl, ?_, Pattern.ofEvents_shuffled, ?_⟩
  · rw [hpassed]
    decide
  · rw [hnone]
    decide

end Cadence
