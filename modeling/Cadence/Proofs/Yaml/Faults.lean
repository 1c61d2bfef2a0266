import Cadence.Yaml.Reader
import Cadence.Proofs.Yaml.Grammar

/-!
# Faults of nodes

A node that can be put together may still ask for a value that does not exist. It is always one of its
scalars that asks, and what counts is the first fault of the shallowest level.
-/

namespace Cadence.Yaml

/-! ## The fault that is reported -/

namespace Faults

variable {faults : Faults} {level : Nat} {problem : Problem}

/-- No fault is at a shallower level, and none before it is at the same. -/
def FirstIs (faults : Faults) (level : Nat) (problem : Problem) : Prop :=
  ∃ before after, faults = before ++ (level, problem) :: after ∧
    (∀ fault ∈ before, level < fault.1) ∧ ∀ fault ∈ after, level ≤ fault.1

/-- The better of a fault and the best one before it. -/
def better (best? : Option (Nat × Problem)) (fault : Nat × Problem) : Option (Nat × Problem) :=
  match best? with
  | none => some fault
  | some best => if fault.1 < best.1 then some fault else some best

theorem first?_eq (faults : Faults) : faults.first? = (faults.foldl better none).map (·.2) := rfl

theorem foldl_better_of_le {best : Nat × Problem} (h : ∀ fault ∈ faults, best.1 ≤ fault.1) :
    faults.foldl better (some best) = some best := by
  induction faults with
  | nil => rfl
  | cons fault faults ih =>
    have hnot : ¬fault.1 < best.1 := Nat.not_lt.mpr (h fault List.mem_cons_self)
    rw [List.foldl_cons, better, if_neg hnot]
    exact ih fun f hf => h f (List.mem_cons_of_mem _ hf)

theorem foldl_better_mem {best? : Option (Nat × Problem)} {found : Nat × Problem}
    (h : faults.foldl better best? = some found) : best? = some found ∨ found ∈ faults := by
  induction faults generalizing best? with
  | nil => exact .inl h
  | cons fault faults ih =>
    rcases ih h with hbest | hmem
    · unfold better at hbest
      split at hbest
      · exact .inr (List.mem_cons.mpr (.inl (Option.some.inj hbest).symm))
      · split at hbest
        · exact .inr (List.mem_cons.mpr (.inl (Option.some.inj hbest).symm))
        · exact .inl hbest
    · exact .inr (List.mem_cons_of_mem _ hmem)

theorem FirstIs.le (h : faults.FirstIs level problem) : ∀ fault ∈ faults, level ≤ fault.1 := by
  obtain ⟨before, after, rfl, hbefore, hafter⟩ := h
  intro fault hfault
  rcases List.mem_append.mp hfault with hmem | hmem
  · exact Nat.le_of_lt (hbefore fault hmem)
  · rcases List.mem_cons.mp hmem with rfl | hmem
    · exact Nat.le_refl _
    · exact hafter fault hmem

theorem exists_firstIs (hne : faults ≠ []) : ∃ level problem, faults.FirstIs level problem := by
  induction faults with
  | nil => exact absurd rfl hne
  | cons fault faults ih =>
    by_cases hnone : faults = []
    · exact ⟨fault.1, fault.2, [], faults, rfl, by simp, by simp [hnone]⟩
    · obtain ⟨level, problem, hfirst⟩ := ih hnone
      by_cases hlt : level < fault.1
      · obtain ⟨before, after, rfl, hbefore, hafter⟩ := hfirst
        refine ⟨level, problem, fault :: before, after, rfl, ?_, hafter⟩
        intro f hf
        rcases List.mem_cons.mp hf with rfl | hf
        · exact hlt
        · exact hbefore f hf
      · refine ⟨fault.1, fault.2, [], faults, rfl, by simp, fun other hother => ?_⟩
        exact Nat.le_trans (Nat.not_lt.mp hlt) (hfirst.le other hother)

theorem FirstIs.first? (h : faults.FirstIs level problem) : faults.first? = some problem := by
  obtain ⟨before, after, rfl, hbefore, hafter⟩ := h
  have hhere : better (before.foldl better none) (level, problem) = some (level, problem) := by
    cases hbest : before.foldl better none with
    | none => rfl
    | some best =>
      rcases foldl_better_mem hbest with hnone | hmem
      · cases hnone
      · rw [better, if_pos (hbefore best hmem)]
  rw [first?_eq, List.foldl_append, List.foldl_cons, hhere, foldl_better_of_le hafter]
  rfl

theorem first?_eq_some_iff : faults.first? = some problem ↔ ∃ level, faults.FirstIs level problem := by
  constructor
  · intro h
    have hne : faults ≠ [] := by
      rintro rfl
      cases h
    obtain ⟨level, found, hfirst⟩ := exists_firstIs hne
    rw [hfirst.first?] at h
    obtain rfl := Option.some.inj h
    exact ⟨level, hfirst⟩
  · rintro ⟨level, h⟩
    exact h.first?

theorem FirstIs.mem (h : faults.FirstIs level problem) : (level, problem) ∈ faults := by
  obtain ⟨before, after, rfl, -, -⟩ := h
  simp

end Faults

/-! ## What scalars ask for -/

/-- One node in another. -/
inductive Node.Within (inner : Node) : Node → Prop where
  | self : Within inner inner
  | item {tag : Tag} {items : List Node} {node : Node} (hitem : node ∈ items)
      (h : Within inner node) : Within inner (.list tag items)
  | key {tag : Tag} {entries : List (Node × Node)} {entry : Node × Node} (hentry : entry ∈ entries)
      (h : Within inner entry.1) : Within inner (.map tag entries)
  | value {tag : Tag} {entries : List (Node × Node)} {entry : Node × Node} (hentry : entry ∈ entries)
      (h : Within inner entry.2) : Within inner (.map tag entries)

/-- A scalar in a node asks for a value that does not exist. -/
def Node.Asks (node : Node) (e : Problem) : Prop :=
  ∃ tag isPlain content, (Node.scalar tag isPlain content).Within node ∧
    scalarValue tag isPlain content = .error (.impossible content.chars) ∧
    e = .impossible content.chars

theorem valueOf_error {content : Content} {m : Meaning} {e : Problem}
    (h : valueOf content m = .error e) (he : e.isForeign = true) :
    e = .impossible content.chars := by
  cases m <;> cases h
  · rfl
  · cases he
  · cases he

theorem scalarValue_error {tag : Tag} {isPlain : Bool} {content : Content} {e : Problem}
    (h : scalarValue tag isPlain content = .error e) (he : e.isForeign = true) :
    e = .impossible content.chars := by
  unfold scalarValue at h
  cases hwanted : tag.wanted with
  | any | bool | int | float | timestamp =>
    rw [hwanted] at h
    exact valueOf_error h he
  | bytes =>
    rw [hwanted] at h
    dsimp only at h
    split at h
    · cases h
    · cases h
      cases he
  | null | text | list | map | set | pairs | merge | default | unknown uri =>
    rw [hwanted] at h
    cases h
    try cases he

namespace Node

variable {tag : Tag} {isPlain : Bool} {content : Content} {e : Problem} {level : Nat}
  {f : Nat × Problem}

theorem asks_of_scalarValue (h : scalarValue tag isPlain content = .error e)
    (he : e.isForeign = true) : (scalar tag isPlain content).Asks e := by
  have hcontent := scalarValue_error h he
  exact ⟨tag, isPlain, content, .self, by rw [h, hcontent], hcontent⟩

theorem Asks.item {items : List Node} {node : Node} (h : node.Asks e) (hitem : node ∈ items) :
    (list tag items).Asks e := by
  obtain ⟨tag, isPlain, content, hwithin, hvalue⟩ := h
  exact ⟨tag, isPlain, content, .item hitem hwithin, hvalue⟩

/-- A key or a value asks for a value that does not exist. -/
def EntryAsks (e : Problem) (entry : Node × Node) : Prop := entry.1.Asks e ∨ entry.2.Asks e

theorem Asks.entry {entries : List (Node × Node)} {entry : Node × Node} (h : EntryAsks e entry)
    (hentry : entry ∈ entries) : (map tag entries).Asks e := by
  rcases h with ⟨tag, isPlain, content, hwithin, hvalue⟩ | ⟨tag, isPlain, content, hwithin, hvalue⟩
  · exact ⟨tag, isPlain, content, .key hentry hwithin, hvalue⟩
  · exact ⟨tag, isPlain, content, .value hentry hwithin, hvalue⟩

theorem keyName?_asks {key : Node} (h : key.keyName? = .error e) (he : e.isForeign = true) :
    key.Asks e := by
  unfold keyName? at h
  split at h
  · split at h
    · cases h
    · split at h
      · cases h
      · cases h
      · next hvalue =>
        obtain rfl := Except.error.inj h
        exact asks_of_scalarValue hvalue he
  · obtain rfl := Except.error.inj h
    cases he

theorem tagFaults_possible {own : Wanted} (h : f ∈ tagFaults level tag own) :
    f.2.isForeign = false := by
  unfold tagFaults at h
  split at h
  · cases h
  · split at h
    · rw [List.mem_singleton.mp h]
      rfl
    · split at h
      · rw [List.mem_singleton.mp h]
        rfl
      · rw [List.mem_singleton.mp h]
        rfl

end Node

/-- Faults of which the impossible ones have a property. -/
def Faults.From (faults : Faults) (asks : Problem → Prop) : Prop :=
  ∀ f ∈ faults, f.2.isForeign = true → asks f.2

/-- All faults of entries, so far as they are impossible, have a property. -/
structure Entries.From (es : Entries) (asks : Problem → Prop) : Prop where
  merge : Faults.From es.mergeFaults asks
  merged : Faults.From es.mergedFaults asks
  own : Faults.From es.ownFaults asks

section

variable {asks asks' : Problem → Prop} {es others : Entries} {found more : Faults} {level : Nat}

theorem Faults.From.append (h : found.From asks) (h' : more.From asks) :
    Faults.From (found ++ more) asks := by
  intro f hf
  rcases List.mem_append.mp hf with hf | hf
  · exact h f hf
  · exact h' f hf

theorem Faults.From.imp (h : found.From asks) (himp : ∀ e, asks e → asks' e) : found.From asks' :=
  fun f hf he => himp _ (h f hf he)

theorem Faults.From.cons_malformed {e : Problem} (he : e.isForeign = false) (h : found.From asks) :
    Faults.From ((level, e) :: found) asks := by
  intro f hf himpossible
  rcases List.mem_cons.mp hf with rfl | hf
  · rw [he] at himpossible
    cases himpossible
  · exact h f hf himpossible

theorem Entries.From.imp (h : es.From asks) (himp : ∀ e, asks e → asks' e) : es.From asks' :=
  ⟨h.merge.imp himp, h.merged.imp himp, h.own.imp himp⟩

theorem Entries.From.faults (h : es.From asks) : Faults.From es.faults asks := h.merged.append h.own

theorem Entries.From.mergeIn (h : es.From asks) (h' : others.From asks) :
    (es.mergeIn others).From asks :=
  ⟨h'.merge.append h.merge, h'.faults.append h.merged, h.own⟩

theorem Entries.From.put {key : Except Problem (Option String)} (h : es.From asks) (level : Nat)
    (v : Value) (hkey : ∀ e, key = .error e → e.isForeign = true → asks e) (hvalue : found.From asks) :
    (es.put level key v found).From asks := by
  unfold Entries.put
  split
  · exact ⟨h.merge, h.merged, hvalue.append h.own⟩
  · exact ⟨h.merge, h.merged, hvalue.append h.own⟩
  · next problem =>
    refine ⟨h.merge, h.merged, ?_⟩
    intro f hf he
    rcases List.mem_cons.mp hf with rfl | hf
    · exact hkey _ rfl he
    · exact (hvalue.append h.own) f hf he

end

mutual

/-- The impossible faults of a node are those that its scalars ask for. -/
theorem Node.value_from (level : Nat) : ∀ node : Node, Faults.From (node.value level).2 node.Asks
  | .scalar tag isPlain content => by
    intro f hf he
    rw [Node.value] at hf
    split at hf
    · cases hf
    · next hvalue =>
      rw [List.mem_singleton.mp hf] at he ⊢
      exact Node.asks_of_scalarValue hvalue he
  | .list tag items => by
    have hitem : ∀ e, (∃ node ∈ items, node.Asks e) → (Node.list tag items).Asks e :=
      fun e ⟨node, hnode, hasks⟩ => hasks.item hnode
    rw [Node.value]
    split
    · exact (pairsOf_from (level + 1) items).imp hitem
    · refine Faults.From.append ?_ ((valuesOf_from (level + 1) items).imp hitem)
      intro f hf he
      rw [Node.tagFaults_possible hf] at he
      cases he
  | .map tag entries => by
    have hentries : (entriesOf (level + 1) entries).From (Node.map tag entries).Asks :=
      (entriesOf_from (level + 1) entries).imp fun e ⟨entry, hentry, he⟩ => .entry he hentry
    have hfaults := hentries.merge.append hentries.faults
    rw [Node.value]
    split
    · exact hfaults
    · refine Faults.From.append ?_ hfaults
      intro f hf he
      rw [Node.tagFaults_possible hf] at he
      cases he

theorem valuesOf_from (level : Nat) : ∀ nodes : List Node,
    Faults.From (valuesOf level nodes).2 fun e => ∃ node ∈ nodes, node.Asks e
  | [] => by
    intro f hf
    rw [valuesOf] at hf
    cases hf
  | node :: nodes => by
    have hfirst := Node.value_from level node
    have hrest := valuesOf_from level nodes
    rw [valuesOf]
    exact (hfirst.imp fun e he => ⟨node, List.mem_cons_self, he⟩).append
      (hrest.imp fun e ⟨other, hother, he⟩ => ⟨other, List.mem_cons_of_mem _ hother, he⟩)

theorem pairOf_from (level : Nat) : ∀ entries : List (Node × Node),
    Faults.From (pairOf level entries).2 fun e => ∃ entry ∈ entries, Node.EntryAsks e entry
  | [(key, value)] => by
    rw [pairOf]
    exact ((Node.value_from level key).imp fun e he => ⟨_, List.mem_cons_self, .inl he⟩).append
      ((Node.value_from level value).imp fun e he => ⟨_, List.mem_cons_self, .inr he⟩)
  | [] => by
    rw [pairOf]
    · exact .cons_malformed rfl (by simp [Faults.From])
    · simp
  | _ :: _ :: _ => by
    rw [pairOf]
    · exact .cons_malformed rfl (by simp [Faults.From])
    · simp

theorem pairsOf_from (level : Nat) : ∀ nodes : List Node,
    Faults.From (pairsOf level nodes).2 fun e => ∃ node ∈ nodes, node.Asks e
  | [] => by
    intro f hf
    rw [pairsOf] at hf
    cases hf
  | node :: nodes => by
    have hrest : Faults.From (pairsOf level nodes).2 fun e => ∃ other ∈ node :: nodes, other.Asks e :=
      (pairsOf_from level nodes).imp fun e ⟨other, hother, he⟩ =>
        ⟨other, List.mem_cons_of_mem _ hother, he⟩
    cases node with
    | map tag entries =>
      rw [pairsOf]
      exact ((pairOf_from level entries).imp fun e ⟨entry, hentry, he⟩ =>
        ⟨_, List.mem_cons_self, .entry he hentry⟩).append hrest
    | list tag items | scalar tag isPlain content =>
      rw [pairsOf]
      · exact .cons_malformed rfl hrest
      · simp

theorem entriesOf_from (level : Nat) : ∀ entries : List (Node × Node),
    (entriesOf level entries).From fun e => ∃ entry ∈ entries, Node.EntryAsks e entry
  | [] => by
    rw [entriesOf]
    exact ⟨by simp [Faults.From], by simp [Faults.From], by simp [Faults.From]⟩
  | (key, value) :: rest => by
    let asks (e : Problem) : Prop := ∃ entry ∈ (key, value) :: rest, Node.EntryAsks e entry
    have hhere : ∀ e, value.Asks e → asks e := fun e he => ⟨(key, value), List.mem_cons_self, .inr he⟩
    have hrest : (entriesOf level rest).From asks := (entriesOf_from level rest).imp
      fun e ⟨entry, hentry, he⟩ => ⟨entry, List.mem_cons_of_mem _ hentry, he⟩
    have hput := hrest.put level (value.value level).1 (fun e hkey he =>
      ⟨(key, value), List.mem_cons_self, .inl (Node.keyName?_asks hkey he)⟩)
      ((Node.value_from level value).imp hhere)
    cases value with
    | map tag entries =>
      have hmerged : (entriesOf level entries).From asks := (entriesOf_from level entries).imp
        fun e ⟨entry, hentry, he⟩ => hhere e (.entry he hentry)
      rw [entriesOf]
      split
      · exact hrest.mergeIn hmerged
      · exact hput
    | list tag items =>
      have hmerged : (mergedOf level items).From asks := (mergedOf_from level items).imp
        fun e ⟨node, hnode, he⟩ => hhere e (he.item hnode)
      rw [entriesOf]
      split
      · exact hrest.mergeIn hmerged
      · exact hput
    | scalar tag isPlain content =>
      rw [entriesOf]
      split
      · exact ⟨.cons_malformed rfl hrest.merge, hrest.merged, hrest.own⟩
      · exact hput

theorem mergedOf_from (level : Nat) : ∀ nodes : List Node,
    (mergedOf level nodes).From fun e => ∃ node ∈ nodes, node.Asks e
  | [] => by
    rw [mergedOf]
    exact ⟨by simp [Faults.From], by simp [Faults.From], by simp [Faults.From]⟩
  | node :: nodes => by
    let asks (e : Problem) : Prop := ∃ other ∈ node :: nodes, other.Asks e
    have hrest : (mergedOf level nodes).From asks := (mergedOf_from level nodes).imp
      fun e ⟨other, hother, he⟩ => ⟨other, List.mem_cons_of_mem _ hother, he⟩
    cases node with
    | map tag entries =>
      have hentries : (entriesOf level entries).From asks := (entriesOf_from level entries).imp
        fun e ⟨entry, hentry, he⟩ => ⟨_, List.mem_cons_self, .entry he hentry⟩
      rw [mergedOf]
      exact ⟨hentries.merge.append hrest.merge, hrest.merged.append hentries.faults,
        by simp [Faults.From]⟩
    | list tag items | scalar tag isPlain content =>
      rw [mergedOf]
      · exact ⟨.cons_malformed rfl hrest.merge, hrest.merged, hrest.own⟩
      · simp

end

end Cadence.Yaml
