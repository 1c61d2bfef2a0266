import Cadence.Proofs.Clock
import Cadence.Timeline

/-!
# Timelines in order

A pattern that can be played has rising times that the clock can show. The search for a time then
finds the events that are still to come, and one step of the clock takes off the event that is due.
-/

namespace Cadence

/-- Events at strictly rising times. -/
def Rising (events : List Event) : Prop := events.Pairwise fun a b => a.time < b.time

instance (events : List Event) : Decidable (Rising events) :=
  inferInstanceAs (Decidable (events.Pairwise _))

namespace Pattern

/-- What a player relies on. -/
structure IsPlayable (p : Pattern) : Prop where
  beats : 0 < p.signature.numerator
  rising : Rising p.events
  reachable : ∀ e ∈ p.events, e.time.IsReachable p.signature

instance (p : Pattern) : Decidable p.IsPlayable :=
  decidable_of_iff (0 < p.signature.numerator ∧ Rising p.events ∧
      ∀ e ∈ p.events, e.time.IsReachable p.signature)
    ⟨fun ⟨beats, rising, reachable⟩ => ⟨beats, rising, reachable⟩,
      fun h => ⟨h.beats, h.rising, h.reachable⟩⟩

/-- The events at a time or later. -/
def toCome (p : Pattern) (t : Time) : List Event := p.events.filter (t ≤ ·.time)

/-- The event at a time, if there is one. -/
def due? (p : Pattern) (t : Time) : Option Event := p.events.find? (·.time = t)

end Pattern

/-! ## The search -/

/-- An index parts events at a time: those before it are earlier and the others are not. -/
structure Parts (events : List Event) (t : Time) (k : Nat) : Prop where
  le : k ≤ events.length
  before : ∀ i (hi : i < events.length), i < k → events[i].time < t
  after : ∀ i (hi : i < events.length), k ≤ i → t ≤ events[i].time

theorem Rising.getElem_lt {events : List Event} (h : Rising events) {i j : Nat}
    (hj : j < events.length) (hij : i < j) : events[i].time < events[j].time :=
  List.pairwise_iff_getElem.mp h i j (by omega) hj hij

theorem Rising.le_last {events : List Event} {a last : Event} (h : Rising events)
    (hlast : events.getLast? = some last) (ha : a ∈ events) : a.time ≤ last.time := by
  obtain ⟨before, rfl⟩ := List.getLast?_eq_some_iff.mp hlast
  rcases List.mem_append.mp ha with ha | ha
  · exact le_of_lt ((List.pairwise_append.mp h).2.2 a ha last (List.mem_singleton_self last))
  · rw [List.mem_singleton.mp ha]

/-- The range that is left always holds the index that parts the events. -/
theorem searchBetween_parts {events : List Event} (h : Rising events) (t : Time) (lo hi : Nat)
    (hle : lo ≤ hi) (hlen : hi ≤ events.length)
    (hlow : ∀ i (hi : i < events.length), i < lo → events[i].time < t)
    (hhigh : ∀ i (hi' : i < events.length), hi ≤ i → t ≤ events[i].time) :
    Parts events t (Pattern.searchBetween events t lo hi) := by
  fun_induction Pattern.searchBetween events t lo hi with
  | case1 lo hi hlt e he hbefore ih =>
    obtain ⟨hm, rfl⟩ := List.getElem?_eq_some_iff.mp he
    refine ih (by omega) hlen ?_ hhigh
    intro i hi him
    rcases Nat.lt_or_eq_of_le (Nat.le_of_lt_succ him) with hlt | rfl
    · exact lt_trans (h.getElem_lt hm hlt) hbefore
    · exact hbefore
  | case2 lo hi hlt e he hnot ih =>
    obtain ⟨hm, rfl⟩ := List.getElem?_eq_some_iff.mp he
    refine ih (by omega) (by omega) hlow ?_
    intro i hi him
    rcases Nat.lt_or_eq_of_le him with hlt | rfl
    · exact le_of_lt (lt_of_le_of_lt (not_lt.mp hnot) (h.getElem_lt hi hlt))
    · exact not_lt.mp hnot
  | case3 lo hi hlt hnone =>
    rw [List.getElem?_eq_none_iff] at hnone
    omega
  | case4 lo hi hge =>
    obtain rfl : lo = hi := by omega
    exact ⟨hlen, hlow, hhigh⟩

theorem indexFrom_parts {p : Pattern} (h : Rising p.events) (t : Time) :
    Parts p.events t (p.indexFrom t) :=
  searchBetween_parts h t 0 p.events.length (by omega) (le_refl _) (by omega) (by omega)

theorem Parts.drop_eq {events : List Event} {t : Time} {k : Nat} (h : Parts events t k) :
    events.drop k = events.filter (t ≤ ·.time) := by
  have htake : (events.take k).filter (t ≤ ·.time) = [] := by
    rw [List.filter_eq_nil_iff]
    intro e he
    obtain ⟨i, hi, rfl⟩ := List.mem_take_iff_getElem.mp he
    have := h.before i (by omega) (by omega)
    simpa using this
  have hdrop : (events.drop k).filter (t ≤ ·.time) = events.drop k := by
    rw [List.filter_eq_self]
    intro e he
    obtain ⟨i, hi, rfl⟩ := List.mem_drop_iff_getElem.mp he
    simpa using h.after (k + i) (by omega) (by omega)
  conv_rhs => rw [← List.take_append_drop k events, List.filter_append, htake, hdrop, List.nil_append]

/-- The search finds where the events to come begin. -/
theorem drop_indexFrom {p : Pattern} (h : Rising p.events) (t : Time) :
    p.events.drop (p.indexFrom t) = p.toCome t := (indexFrom_parts h t).drop_eq

theorem getElem?_indexFrom {p : Pattern} (h : Rising p.events) (t : Time) :
    p.events[p.indexFrom t]? = (p.toCome t).head? := by
  rw [← drop_indexFrom h, List.head?_drop]

theorem indexFrom_add_toCome {p : Pattern} (h : Rising p.events) (t : Time) :
    p.indexFrom t + (p.toCome t).length = p.events.length := by
  have hle := (indexFrom_parts h t).le
  rw [← drop_indexFrom h, List.length_drop]
  omega

/-! ## Events to come -/

namespace Pattern

variable {p : Pattern} {t : Time}

theorem toCome_eq_nil_iff : p.toCome t = [] ↔ ∀ e ∈ p.events, e.time < t := by
  simp [toCome, List.filter_eq_nil_iff]

theorem due?_eq_find?_toCome (p : Pattern) (t : Time) :
    p.due? t = (p.toCome t).find? (·.time = t) := by
  rw [due?, toCome, List.find?_filter]
  congr 1
  funext e
  by_cases h : e.time = t <;> simp [h]

theorem toCome_of_le {u : Time} (h : t ≤ u) :
    p.toCome u = (p.toCome t).filter (u ≤ ·.time) := by
  rw [toCome, toCome, List.filter_filter]
  apply List.filter_congr
  intro e _
  by_cases hu : u ≤ e.time
  · simp [hu, le_trans h hu]
  · simp [hu]

theorem le_of_mem_toCome {e : Event} (he : e ∈ p.toCome t) : t ≤ e.time := by
  simpa using (List.mem_filter.mp he).2

theorem toCome_rising (h : Rising p.events) (t : Time) : Rising (p.toCome t) := h.filter _

/-- One step of the clock takes off the event that is due and no other. -/
theorem toCome_step (hp : p.IsPlayable) (t : Time) :
    p.toCome t = (p.due? t).toList ++ p.toCome (t.advance p.signature) := by
  have hstep : ∀ e ∈ p.toCome t, (t.advance p.signature ≤ e.time ↔ t < e.time) := fun e he =>
    Time.advance_le_iff (hp.reachable e (List.mem_filter.mp he).1)
  have hrise := toCome_rising hp.rising t
  rw [due?_eq_find?_toCome, toCome_of_le (le_of_lt (Time.lt_advance t p.signature))]
  cases hl : p.toCome t with
  | nil => rfl
  | cons e rest =>
    rw [hl] at hstep hrise
    obtain ⟨hlater, -⟩ := List.pairwise_cons.mp hrise
    have hle : t ≤ e.time := le_of_mem_toCome (p := p) (by rw [hl]; exact List.mem_cons_self)
    have hrest : rest.filter (t.advance p.signature ≤ ·.time) = rest := by
      rw [List.filter_eq_self]
      intro r hr
      simpa [hstep r (List.mem_cons_of_mem _ hr)] using lt_of_le_of_lt hle (hlater r hr)
    rcases eq_or_lt_of_le hle with rfl | hlt
    · have hno : ¬e.time.advance p.signature ≤ e.time := not_le.mpr (Time.lt_advance _ _)
      simp [hrest, hno]
    · have hnone : rest.find? (·.time = t) = none := by
        rw [List.find?_eq_none]
        intro r hr
        simpa using ne_of_gt (lt_trans hlt (hlater r hr))
      have hyes : t.advance p.signature ≤ e.time := (hstep e List.mem_cons_self).mpr hlt
      simp [ne_of_gt hlt, hrest, hnone, hyes]

/-- The first event to come is due or later. -/
theorem due?_eq_of_head? {e : Event} (hp : p.IsPlayable) (h : (p.toCome t).head? = some e) :
    p.due? t = if e.time = t then some e else none := by
  obtain ⟨rest, hl⟩ := List.head?_eq_some_iff.mp h
  have hrise := toCome_rising hp.rising t
  rw [due?_eq_find?_toCome, hl, List.find?_cons]
  rw [hl] at hrise
  by_cases he : e.time = t
  · simp [he]
  · have hle : t ≤ e.time := le_of_mem_toCome (p := p) (by rw [hl]; exact List.mem_cons_self)
    simp only [he, decide_false, if_false, List.find?_eq_none]
    intro r hr
    simpa using ne_of_gt (lt_of_le_of_lt hle ((List.pairwise_cons.mp hrise).1 r hr))

theorem due?_eq_none_of_toCome (h : p.toCome t = []) : p.due? t = none := by
  rw [due?_eq_find?_toCome, h, List.find?_nil]

/-- The search index after one step of the clock. -/
theorem indexFrom_advance (hp : p.IsPlayable) (t : Time) :
    p.indexFrom (t.advance p.signature) = p.indexFrom t + (p.due? t).toList.length := by
  have hnow := indexFrom_add_toCome hp.rising t
  have hnext := indexFrom_add_toCome hp.rising (t.advance p.signature)
  rw [toCome_step hp t, List.length_append] at hnow
  omega

theorem toCome_start (hp : p.IsPlayable) : p.toCome Time.start = p.events := by
  rw [toCome, List.filter_eq_self]
  intro e he
  simpa using Time.start_le (hp.reachable e he)

end Pattern

end Cadence
