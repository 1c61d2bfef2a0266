import Mathlib
import Cadence.Proofs.Yaml.Problems
import Cadence.Yaml.Node

/-!
# Where problems of the grammar come from

The grammar asks for nothing that does not exist. It passes on what a broken token says, and a reader
sees no tokens but those that it is given.
-/

namespace Cadence.Yaml

namespace Pending

/-- An impossible value is reported only if a broken token says so. -/
def PassesOn (tokens : List Token) (e : Problem) : Prop :=
  e.isForeign = true → .broken e ∈ tokens

/-- A result that uses nothing but some tokens. -/
abbrev Uses {α : Type} (tokens : List Token) (x : Except Problem (α × Pending)) : Prop :=
  Ends x (PassesOn tokens) fun read => read.2.tokens ⊆ tokens

variable {α : Type} {tokens : List Token} {p : Pending} {fuel : Nat}

theorem passesOn_of_malformed {e : Problem} (h : e.isForeign = false) : PassesOn tokens e := by
  intro himpossible
  rw [h] at himpossible
  cases himpossible

theorem PassesOn.of_subset {tokens' : List Token} {e : Problem} (h : PassesOn tokens e)
    (hsub : tokens ⊆ tokens') : PassesOn tokens' e :=
  fun himpossible => hsub (h himpossible)

theorem Uses.of_subset {x : Except Problem (α × Pending)} (h : Uses p.tokens x)
    (hsub : p.tokens ⊆ tokens) : Uses tokens x :=
  h.imp (fun _ he => he.of_subset hsub) fun _ hread => List.Subset.trans hread hsub

/-- What is found at a token is a fault of its own, or what the broken token says. -/
theorem orBroken_passesOn {e : Problem} (h : e.isForeign = false) :
    PassesOn p.tokens (p.orBroken e) := by
  unfold orBroken
  split
  · next htokens =>
    rw [htokens]
    exact fun _ => List.mem_cons_self
  · exact passesOn_of_malformed h

theorem Uses.problem {holds : α → Prop} (hsub : p.tokens ⊆ tokens) :
    Ends (.error p.problem) (PassesOn tokens) holds :=
  (orBroken_passesOn rfl).of_subset hsub

theorem drop_subset (p : Pending) : p.drop.tokens ⊆ p.tokens :=
  fun _ htoken => List.mem_of_mem_tail htoken

@[simp] theorem name_tokens (p : Pending) (anchor? : Option (List Char)) (node : Node) :
    (p.name anchor? node).tokens = p.tokens := by
  cases anchor? <;> rfl

/-- A tag has no fault but a handle that stands for nothing. -/
theorem tag_ends (p : Pending) (handle? : Option (List Char)) (suffix : List Char) :
    Ends (p.tag handle? suffix) (fun e => e.isForeign = false) fun _ => True := by
  unfold tag
  split
  · trivial
  · split
    · trivial
    · exact (rfl : Problem.isForeign .tag = false)

theorem tag_passesOn (p : Pending) (handle? : Option (List Char)) (suffix : List Char) :
    Ends (p.tag handle? suffix) (PassesOn tokens) fun _ => True :=
  (tag_ends p handle? suffix).imp (fun _ => passesOn_of_malformed) fun _ h => h

theorem properties_uses (p : Pending) : Uses p.tokens p.properties := by
  unfold properties
  split
  · next htokens =>
    rw [htokens]
    exact (tag_passesOn p _ _).bind fun _ _ =>
      List.subset_cons_of_subset _ (List.subset_cons_self _ _)
  · next htokens =>
    rw [htokens]
    exact List.subset_cons_self _ _
  · next htokens =>
    rw [htokens]
    exact (tag_passesOn p _ _).bind fun _ _ =>
      List.subset_cons_of_subset _ (List.subset_cons_self _ _)
  · next htokens =>
    -- the handle is looked up last, so a text that breaks off after the tag says so first
    rw [htokens]
    refine ((tag_ends p _ _).mapError fun _ he => ?_).bind fun _ _ => List.subset_cons_self _ _
    exact (orBroken_passesOn he).of_subset (List.subset_cons_self _ _)
  · exact List.Subset.refl _

theorem named_ends (p : Pending) (name : List Char) :
    Ends (p.named name) (PassesOn tokens) fun _ => True := by
  unfold named
  split
  · trivial
  · exact passesOn_of_malformed rfl

theorem orEmpty_uses (anchor? : Option (List Char)) (tag? : Option Tag) (p : Pending) :
    Uses p.tokens (orEmpty anchor? tag? p) := by
  unfold orEmpty
  split
  · show (p.name anchor? _).tokens ⊆ p.tokens
    rw [name_tokens]
    exact List.Subset.refl _
  · exact Uses.problem (List.Subset.refl _)

/-- Every reader uses nothing but the tokens that it is given, when it goes so deep. -/
structure AllUse (fuel : Nat) : Prop where
  node : ∀ place p, Uses p.tokens (node place fuel p)
  nodeOr : ∀ stops place p, Uses p.tokens (nodeOr stops place fuel p)
  blockItems : ∀ p, Uses p.tokens (blockItems fuel p)
  bareItems : ∀ p, Uses p.tokens (bareItems fuel p)
  blockEntries : ∀ p, Uses p.tokens (blockEntries fuel p)
  valueOr : ∀ stops place p, Uses p.tokens (valueOr stops place fuel p)
  flowItems : ∀ first p, Uses p.tokens (flowItems first fuel p)
  flowEntries : ∀ first p, Uses p.tokens (flowEntries first fuel p)

/-- A collection is named after it was read. -/
theorem Uses.named {β : Type} {found : Except Problem (β × Pending)} (h : Uses tokens found)
    (anchor? : Option (List Char)) (node : β → Node) :
    Uses tokens (do let (b, p) ← found; return (node b, p.name anchor? (node b))) := by
  refine h.bind ?_
  rintro ⟨b, q⟩ hq
  show (q.name anchor? (node b)).tokens ⊆ tokens
  rwa [name_tokens]

/-- A name that was given before is a problem, but not an impossible one. -/
theorem Uses.guard {x : Except Problem (α × Pending)} (hx : Uses tokens x)
    (anchor? : Option (List Char)) (hsub : p.tokens ⊆ tokens) :
    Uses tokens (match anchor? with
      | some anchor =>
        if (p.anchors.lookup anchor).isSome then .error (p.orBroken (.repeatedAnchor anchor)) else x
      | _ => x) := by
  split
  · exact .ite ((orBroken_passesOn rfl).of_subset hsub) hx
  · exact hx

theorem AllUse.node_succ (h : AllUse fuel) (place : Place) (p : Pending) :
    Uses p.tokens (Pending.node place (fuel + 1) p) := by
  rw [Pending.node]
  split
  · next htokens =>
    rw [htokens]
    exact (named_ends p _).bind fun _ _ => List.subset_cons_self _ _
  · refine (properties_uses p).bind ?_
    rintro ⟨⟨anchor?, tag?⟩, p'⟩ hp'
    refine Uses.of_subset ?_ hp'
    dsimp only
    have hname (node : Node) : (p'.name anchor? node).tokens ⊆ p'.tokens := by simp
    have hdrop (node : Node) : (p'.name anchor? node).drop.tokens ⊆ p'.tokens :=
      List.Subset.trans (drop_subset _) (hname node)
    refine Uses.guard ?_ anchor? (List.Subset.refl _)
    split
    · exact ((h.bareItems _).of_subset (hname _)).named anchor? _
    · next htokens =>
      rw [htokens]
      show (Pending.name _ anchor? _).tokens ⊆ _
      rw [name_tokens]
      exact List.subset_cons_self _ _
    · exact ((h.flowItems _ _).of_subset (hdrop _)).named anchor? _
    · exact ((h.flowEntries _ _).of_subset (hdrop _)).named anchor? _
    · exact orEmpty_uses _ _ _
    · exact ((h.blockItems _).of_subset (hdrop _)).named anchor? _
    · exact ((h.blockEntries _).of_subset (hdrop _)).named anchor? _
    · exact orEmpty_uses _ _ _

theorem AllUse.nodeOr_succ (h : AllUse fuel) (stops : List Token) (place : Place) (p : Pending) :
    Uses p.tokens (Pending.nodeOr stops place (fuel + 1) p) := by
  rw [Pending.nodeOr]
  split
  · exact List.Subset.refl _
  · exact h.node place p

/-- After one reader another goes on with what is left. -/
theorem Uses.then {β : Type} {x : Except Problem (α × Pending)}
    {next : α × Pending → Except Problem (β × Pending)} (hx : Uses tokens x)
    (hnext : ∀ a q, Uses q.tokens (next (a, q))) : Uses tokens (x >>= next) := by
  refine hx.bind ?_
  rintro ⟨a, q⟩ hq
  exact (hnext a q).of_subset hq

theorem Uses.pure (a : α) (p : Pending) : Uses p.tokens (pure (a, p)) := List.Subset.refl _

theorem AllUse.blockItems_succ (h : AllUse fuel) (p : Pending) :
    Uses p.tokens (Pending.blockItems (fuel + 1) p) := by
  rw [Pending.blockItems]
  split
  · refine Uses.then ((h.nodeOr _ _ _).of_subset (drop_subset p)) fun item q => ?_
    exact (h.blockItems q).then fun items q => .pure _ q
  · exact drop_subset p
  · exact Uses.problem (List.Subset.refl _)

theorem AllUse.bareItems_succ (h : AllUse fuel) (p : Pending) :
    Uses p.tokens (Pending.bareItems (fuel + 1) p) := by
  rw [Pending.bareItems]
  split
  · refine Uses.then ((h.nodeOr _ _ _).of_subset (drop_subset p)) fun item q => ?_
    exact (h.bareItems q).then fun items q => .pure _ q
  · exact List.Subset.refl _

theorem AllUse.blockEntries_succ (h : AllUse fuel) (p : Pending) :
    Uses p.tokens (Pending.blockEntries (fuel + 1) p) := by
  rw [Pending.blockEntries]
  split
  · refine Uses.then ((h.nodeOr _ _ _).of_subset (drop_subset p)) fun key q => ?_
    refine (h.valueOr _ _ q).then fun value q => ?_
    exact (h.blockEntries q).then fun entries q => .pure _ q
  · exact drop_subset p
  · exact Uses.problem (List.Subset.refl _)

theorem AllUse.valueOr_succ (h : AllUse fuel) (stops : List Token) (place : Place) (p : Pending) :
    Uses p.tokens (Pending.valueOr stops place (fuel + 1) p) := by
  rw [Pending.valueOr]
  split
  · exact (h.nodeOr _ _ _).of_subset (drop_subset p)
  · exact List.Subset.refl _

theorem skipComma_subset (first : Bool) (p : Pending) :
    (if first then p else p.drop).tokens ⊆ p.tokens := by
  split
  · exact List.Subset.refl _
  · exact drop_subset p

theorem AllUse.flowItems_succ (h : AllUse fuel) (first : Bool) (p : Pending) :
    Uses p.tokens (Pending.flowItems first (fuel + 1) p) := by
  rw [Pending.flowItems]
  refine .ite (drop_subset p) (.ite (Uses.problem (List.Subset.refl _)) ?_)
  refine Uses.of_subset ?_ (skipComma_subset first p)
  dsimp only
  generalize (if first then p else p.drop) = p
  split
  · exact drop_subset p
  · refine Uses.then ((h.nodeOr _ _ _).of_subset (drop_subset p)) fun key q => ?_
    refine (h.valueOr _ _ q).then fun value q => ?_
    exact (h.flowItems _ q).then fun items q => .pure _ q
  · refine (h.node _ p).then fun item q => ?_
    exact (h.flowItems _ q).then fun items q => .pure _ q

theorem AllUse.flowEntries_succ (h : AllUse fuel) (first : Bool) (p : Pending) :
    Uses p.tokens (Pending.flowEntries first (fuel + 1) p) := by
  rw [Pending.flowEntries]
  refine .ite (drop_subset p) (.ite (Uses.problem (List.Subset.refl _)) ?_)
  refine Uses.of_subset ?_ (skipComma_subset first p)
  dsimp only
  generalize (if first then p else p.drop) = p
  split
  · exact drop_subset p
  · refine Uses.then ((h.nodeOr _ _ _).of_subset (drop_subset p)) fun key q => ?_
    refine (h.valueOr _ _ q).then fun value q => ?_
    exact (h.flowEntries _ q).then fun entries q => .pure _ q
  · refine (h.node _ p).then fun key q => ?_
    exact (h.flowEntries _ q).then fun entries q => .pure _ q

theorem allUse (fuel : Nat) : AllUse fuel := by
  induction fuel with
  | zero =>
    have hproblem {α : Type} (p : Pending) :
        Uses p.tokens (.error p.problem : Except Problem (α × Pending)) :=
      Uses.problem (List.Subset.refl _)
    constructor
    all_goals
      intros
      apply hproblem
  | succ fuel ih =>
    exact ⟨ih.node_succ, ih.nodeOr_succ, ih.blockItems_succ, ih.bareItems_succ, ih.blockEntries_succ,
      ih.valueOr_succ, ih.flowItems_succ, ih.flowEntries_succ⟩

/-! ### Documents -/

theorem directives_ends (versioned : Bool) (own : List (List Char × List Char)) (tokens : List Token) :
    Ends (directives versioned own tokens) (PassesOn tokens)
      fun (read : List (List Char × List Char) × List Token) => read.2 ⊆ tokens := by
  have hlater {token : Token} {tokens : List Token}
      {x : Except Problem (List (List Char × List Char) × List Token)}
      (h : Ends x (PassesOn tokens) fun read => read.2 ⊆ tokens) :
      Ends x (PassesOn (token :: tokens)) fun read => read.2 ⊆ token :: tokens :=
    h.imp (fun _ he => he.of_subset (List.subset_cons_self _ _)) fun _ hread =>
      List.Subset.trans hread (List.subset_cons_self _ _)
  fun_induction directives versioned own tokens
  case case2 ih => exact hlater ih
  case case4 ih => exact hlater ih
  case case5 ih => exact hlater ih
  case case6 => exact List.Subset.refl _
  all_goals exact passesOn_of_malformed rfl

theorem finish_ends (hsub : p.tokens ⊆ tokens) :
    Ends p.finish (PassesOn tokens) fun _ => True := by
  have hleft : p.tokens.dropWhile (· == .documentEnd) ⊆ tokens :=
    List.Subset.trans (List.dropWhile_sublist _).subset hsub
  unfold finish
  split
  · trivial
  · refine ((directives_ends false [] _).imp (fun _ he => he.of_subset hleft) fun _ h => h).bind ?_
    rintro ⟨handles, rest⟩ hrest
    exact (orBroken_passesOn rfl).of_subset (List.Subset.trans hrest hleft)

theorem document_ends (hsub : p.tokens ⊆ tokens) :
    Ends (do
      let (node, p) ← p.node .block p.fuel
      p.finish
      return some node) (PassesOn tokens) fun (_ : Option Node) => True := by
  refine (((allUse p.fuel).node .block p).of_subset hsub).bind ?_
  rintro ⟨node, q⟩ hq
  exact (finish_ends hq).bind fun _ _ => trivial

end Pending

/-- The grammar reports an impossible value only if a broken token says so. -/
theorem Node.ofTokens?_ends (tokens : List Token) :
    Ends (Node.ofTokens? tokens) (Pending.PassesOn tokens) fun _ => True := by
  unfold Node.ofTokens?
  split
  case h_1 => trivial
  case h_4 => exact Pending.document_ends (List.Subset.refl _)
  all_goals
    refine (Pending.directives_ends false [] _).bind ?_
    rintro ⟨handles, rest⟩ hrest
    dsimp only
    split
    · next later =>
      have hsub := List.Subset.trans (List.subset_cons_self _ later) hrest
      split
      case h_5 => exact Pending.document_ends hsub
      all_goals exact (Pending.finish_ends hsub).bind fun _ _ => trivial
    · exact Pending.Uses.problem hrest

end Cadence.Yaml
