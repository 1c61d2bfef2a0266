import Cadence.Yaml.Lexer
import Cadence.Yaml.Writer
import Cadence.Proofs.Yaml.Quoted

/-!
# Steps of the lexer

How the lexer goes on depends on the rest of the text and its column, on the collections that are open
and on whether a key may begin. What may turn out to be a key does not matter until its colon comes.
-/

namespace Cadence.Yaml

/-! ## Cursors -/

namespace Cursor

theorem next_of_clean {c : Cursor} {ch : Char} {rest : List Char} (h : c.rest = ch :: rest)
    (hclean : needsEscape ch = false) :
    c.next.rest = rest ∧ c.next.index = c.index + 1 ∧
      c.next.column = (if ch = '\n' then 0 else c.column + 1) ∧
      (ch ≠ '\n' → c.next.line = c.line) := by
  have hmark : ch ≠ byteOrderMark := by
    rintro rfl
    cases hclean
  unfold next
  rw [h]
  dsimp only
  by_cases hline : ch = '\n'
  · have hbreak : isBreak '\n' = true := rfl
    subst hline
    rw [if_pos hbreak]
    exact ⟨rfl, rfl, rfl, fun h => absurd rfl h⟩
  · rw [isBreak_of_clean hclean hline, if_neg Bool.false_ne_true, if_neg hmark, if_neg hline]
    exact ⟨rfl, rfl, rfl, fun _ => rfl⟩

theorem forward_of_clean {c : Cursor} {text rest : List Char} (h : c.rest = text ++ rest)
    (hclean : IsClean text) :
    (c.forward text.length).rest = rest ∧ (c.forward text.length).index = c.index + text.length ∧
      (c.forward text.length).column = columnAfter c.column text ∧
      ('\n' ∉ text → (c.forward text.length).line = c.line) := by
  induction text generalizing c with
  | nil => exact ⟨h, rfl, rfl, fun _ => rfl⟩
  | cons ch text ih =>
    obtain ⟨hrest, hindex, hcolumn, hline⟩ := next_of_clean h hclean.head
    obtain ⟨hrest', hindex', hcolumn', hline'⟩ := ih hrest hclean.tail
    refine ⟨hrest', ?_, ?_, ?_⟩
    · rw [List.length_cons, forward, hindex', hindex]
      omega
    · rw [List.length_cons, forward, hcolumn', hcolumn]
      rfl
    · intro hnone
      rw [List.mem_cons, not_or] at hnone
      rw [List.length_cons, forward, hline' hnone.2, hline (Ne.symm hnone.1)]

theorem moveTo_of_clean {c : Cursor} {text rest : List Char} (h : c.rest = text ++ rest)
    (hclean : IsClean text) :
    (c.moveTo rest).rest = rest ∧ (c.moveTo rest).index = c.index + text.length ∧
      (c.moveTo rest).column = columnAfter c.column text ∧
      ('\n' ∉ text → (c.moveTo rest).line = c.line) := by
  have hlength : c.rest.length - rest.length = text.length := by
    rw [h, List.length_append]
    omega
  unfold moveTo
  rw [hlength]
  exact forward_of_clean h hclean

end Cursor

/-! ## States -/

/-- What decides how the lexer goes on. -/
structure View where
  rest : List Char
  column : Nat
  indents : List Nat
  /-- how many brackets are open -/
  depth : Nat
  keyAllowed : Bool
  reversed : List Token

/-- No blank, line end or comment comes next. -/
def AtToken (rest : List Char) : Prop :=
  ∀ c ∈ rest.head?, needsEscape c = false ∧ c ≠ ' ' ∧ c ≠ '\n' ∧ c ≠ '#'

/-- No open collection ends in this column. -/
def View.IsClosed (v : View) : Prop := v.depth = 0 → ∀ i ∈ v.indents.head?, i ≤ v.column

namespace Lexer

variable {l l' l'' : Lexer}

def view (l : Lexer) : View :=
  ⟨l.cursor.rest, l.cursor.column, l.indents, l.outer.length, l.keyAllowed, l.reversed⟩

/-- Nothing has to turn out to be a key. -/
structure IsFree (l : Lexer) : Prop where
  inner : ∀ c ∈ l.candidate?, c.required = false
  outer : ∀ c? ∈ l.outer, ∀ c ∈ c?, c.required = false

/-- The beginning of a step: gaps are skipped, what is out of reach is no key, and collections end. -/
def settle (l : Lexer) : Except Problem Lexer := do
  let l ← l.skip.forgetStale
  return l.closeTo l.cursor.column

theorem step_eq (l : Lexer) : l.step = (do
    let l ← l.settle
    match l.cursor.rest with
    | [] => return (false, ← (l.closeTo (-1)).forget)
    | c :: cs => return (true, ← l.token c cs)) := by
  unfold step settle
  cases l.skip.forgetStale <;> rfl

theorem step_congr (h : l.settle = l'.settle) : l.step = l'.step := by
  rw [step_eq, step_eq, h]

inductive Steps : Nat → Lexer → Lexer → Prop where
  | refl (l : Lexer) : Steps 0 l l
  | step {n : Nat} {l l' l'' : Lexer} (h : l.step = .ok (true, l')) (rest : Steps n l' l'') :
    Steps (n + 1) l l''

theorem Steps.append {m n : Nat} (h : Steps m l l') (h' : Steps n l' l'') :
    Steps (n + m) l l'' := by
  induction h with
  | refl l => exact h'
  | step hstep _ ih => exact .step hstep (ih h')

theorem Steps.run {n : Nat} (h : Steps n l l') (fuel : Nat) :
    run (fuel + n) l = run fuel l' := by
  induction h with
  | refl l => rfl
  | @step n l l' l'' hstep _ ih => rw [← ih, ← Nat.add_assoc, Lexer.run, hstep]

end Lexer

/-- From all states with one view, if nothing has to be a key, steps lead to a state with another
view, as far as the gap in front of the next token and the ends of collections there are left open.
Every step takes a character. -/
def View.Leads (v w : View) : Prop :=
  ∀ l : Lexer, l.view = v → l.IsFree → ∃ (l' m : Lexer) (n : Nat), l'.view = w ∧ l'.IsFree ∧
    l.Steps n m ∧ m.settle = l'.settle ∧ n + w.rest.length ≤ v.rest.length

namespace View.Leads

variable {u v w : View}

theorem refl (v : View) : v.Leads v :=
  fun l hv hfree => ⟨l, l, 0, hv, hfree, .refl l, rfl, Nat.le_of_eq (Nat.zero_add _)⟩

theorem trans (h₁ : u.Leads v) (h₂ : v.Leads w) : u.Leads w := by
  intro l hl hfree
  obtain ⟨l₁, m₁, n₁, hv, hfree₁, hsteps₁, hsettle₁, hless₁⟩ := h₁ l hl hfree
  obtain ⟨l₂, m₂, n₂, hw, hfree₂, hsteps₂, hsettle₂, hless₂⟩ := h₂ l₁ hv hfree₁
  cases hsteps₂ with
  | refl =>
    -- Nothing but a gap or an end was added, which the next step settles.
    exact ⟨l₂, m₁, n₁, hw, hfree₂, hsteps₁, hsettle₁.trans hsettle₂, by omega⟩
  | @step n _ l' _ hstep hrest =>
    have hstep' : m₁.step = .ok (true, l') := (Lexer.step_congr hsettle₁).trans hstep
    exact ⟨l₂, m₂, n + 1 + n₁, hw, hfree₂, hsteps₁.append (.step hstep' hrest), hsettle₂, by omega⟩

end View.Leads

/-! ## Gaps -/

namespace Lexer

variable {l : Lexer} {c : Char} {cs : List Char}

theorem skip_eq (hmark : ¬(l.cursor.index = 0 ∧ l.cursor.rest.head? = some byteOrderMark)) :
    l.skip = { l.moveTo (skipGap false false l.cursor.rest).2 with
      keyAllowed := l.keyAllowed || ((skipGap false false l.cursor.rest).1 && !l.inFlow) } := by
  unfold skip
  rw [if_neg hmark]

theorem no_mark (h : ∀ c ∈ l.cursor.rest.head?, needsEscape c = false) :
    ¬(l.cursor.index = 0 ∧ l.cursor.rest.head? = some byteOrderMark) := by
  rintro ⟨-, hhead⟩
  cases h _ hhead

theorem skip_of_atToken (h : AtToken l.cursor.rest) : l.skip = l := by
  have hgap : skipGap false false l.cursor.rest = (false, l.cursor.rest) := by
    cases hrest : l.cursor.rest with
    | nil => rfl
    | cons c cs =>
      obtain ⟨hclean, hspace, hline, hcomment⟩ := h c (by rw [hrest]; rfl)
      simp [skipGap, isBreak_of_clean hclean hline, hspace, hcomment]
  have hstay : l.cursor.moveTo l.cursor.rest = l.cursor := by
    rw [Cursor.moveTo, Nat.sub_self]
    rfl
  rw [skip_eq (no_mark fun c hc => (h c hc).1), hgap]
  simp [moveTo, hstay]

theorem length_skipGap (inComment newLine : Bool) (cs : List Char) :
    (skipGap inComment newLine cs).2.length ≤ cs.length := by
  induction cs generalizing inComment newLine with
  | nil => exact Nat.le_refl 0
  | cons c cs ih =>
    rw [skipGap]
    split_ifs
    · exact Nat.le_succ_of_le (ih _ _)
    · exact Nat.le_succ_of_le (ih _ _)
    · exact Nat.le_succ_of_le (ih _ _)
    · exact Nat.le_refl _

theorem skipGap_newLine (inComment newLine : Bool) (cs : List Char) :
    skipGap inComment newLine cs =
      (newLine || (skipGap inComment false cs).1, (skipGap inComment false cs).2) := by
  induction cs generalizing inComment newLine with
  | nil => simp [skipGap]
  | cons c cs ih =>
    simp only [skipGap]
    split_ifs
    · rw [ih]
      simp
    · exact ih _ _
    · exact ih _ _
    · simp

/-- A gap is skipped character by character. -/
theorem skip_next (hrest : l.cursor.rest = c :: cs) (hgap : c = ' ' ∨ c = '\n') :
    l.skip = { l with
      cursor := l.cursor.next
      keyAllowed := l.keyAllowed || (c == '\n' && !l.inFlow) : Lexer }.skip := by
  have hclean : needsEscape c = false := by rcases hgap with rfl | rfl <;> rfl
  obtain ⟨hrest', hindex, -⟩ := Cursor.next_of_clean hrest hclean
  have hfirst : skipGap false false (c :: cs) =
      (c == '\n' || (skipGap false false cs).1, (skipGap false false cs).2) := by
    rcases hgap with rfl | rfl
    · simp [skipGap, isBreak]
    · rw [skipGap, if_pos (by rfl), skipGap_newLine]
      rfl
  have hmove : l.cursor.moveTo (skipGap false false cs).2 =
      l.cursor.next.moveTo (skipGap false false cs).2 := by
    have hless := length_skipGap false false cs
    rw [Cursor.moveTo, Cursor.moveTo, hrest, hrest', List.length_cons, Nat.succ_sub hless]
    rfl
  rw [skip_eq (no_mark (by rw [hrest]; simpa using hclean)), skip_eq (by simp [hindex])]
  simp only [hrest, hrest', hfirst, moveTo, hmove, inFlow]
  congr 1
  cases l.keyAllowed <;> cases c == '\n' <;> cases l.outer.isEmpty <;> simp

/-! ## Possible keys -/

theorem live?_free {c? : Option Candidate} (h : ∀ c ∈ c?, c.required = false) :
    ∃ d?, l.live? c? = .ok d? ∧ ∀ d ∈ d?, d.required = false := by
  cases c? with
  | none => exact ⟨none, rfl, h⟩
  | some c =>
    have hc := h c rfl
    simp only [live?, hc, Bool.false_eq_true, if_false]
    split_ifs with hreach
    · exact ⟨some c, rfl, h⟩
    · exact ⟨none, rfl, fun _ hd => by cases hd⟩

theorem outer_live {cs : List (Option Candidate)} (h : ∀ c? ∈ cs, ∀ c ∈ c?, c.required = false) :
    ∃ ds, cs.mapM l.live? = .ok ds ∧ ds.length = cs.length ∧
      ∀ d? ∈ ds, ∀ d ∈ d?, d.required = false := by
  induction cs with
  | nil => exact ⟨[], rfl, rfl, h⟩
  | cons c? cs ih =>
    obtain ⟨d?, hd?, hfree⟩ := live?_free (l := l) (h c? List.mem_cons_self)
    obtain ⟨ds, hds, hlength, hall⟩ := ih fun e? he? => h e? (List.mem_cons_of_mem _ he?)
    refine ⟨d? :: ds, ?_, by simp [hlength], ?_⟩
    · rw [List.mapM_cons, hd?, hds]
      rfl
    · intro e? he?
      rcases List.mem_cons.mp he? with rfl | h
      · exact hfree
      · exact hall e? h

/-- Nothing but possible keys is forgotten. -/
theorem forgetStale_ok {d? : Option Candidate} (hinner : l.live? l.candidate? = .ok d?)
    (houter : ∀ c? ∈ l.outer, ∀ c ∈ c?, c.required = false) :
    ∃ outer, l.forgetStale = .ok { l with candidate? := d?, outer } ∧
      outer.length = l.outer.length ∧ ∀ c? ∈ outer, ∀ c ∈ c?, c.required = false := by
  obtain ⟨outer, hds, hlength, hfree⟩ := outer_live (l := l) houter
  refine ⟨outer, ?_, hlength, hfree⟩
  unfold forgetStale
  rw [hinner, hds]
  rfl

theorem IsFree.forgetStale (h : l.IsFree) :
    ∃ l', l.forgetStale = .ok l' ∧ l'.view = l.view ∧ l'.IsFree := by
  obtain ⟨d?, hd?, hinner⟩ := live?_free (l := l) h.inner
  obtain ⟨outer, hok, hlength, houter⟩ := forgetStale_ok hd? h.outer
  refine ⟨_, hok, ?_, ⟨hinner, houter⟩⟩
  unfold view
  rw [hlength]

theorem IsFree.forget (h : l.IsFree) : l.forget = .ok { l with candidate? := none } := by
  unfold Lexer.forget
  have hnone : l.candidate?.any (·.required) = false := by
    cases hc : l.candidate? with
    | none => rfl
    | some c => exact h.inner c hc
  rw [hnone, if_neg Bool.false_ne_true]

/-! ## Ends of collections -/

theorem closeTo_of_closed (h : l.view.IsClosed) : l.closeTo l.cursor.column = l := by
  unfold closeTo inFlow
  cases houter : l.outer with
  | cons c? cs => rfl
  | nil =>
    have hnone : closeBlocks l.cursor.column l.indents l.reversed = (l.indents, l.reversed) := by
      cases hindents : l.indents with
      | nil => rfl
      | cons i is =>
        have hle : i ≤ l.cursor.column := h (by simp [view, houter]) i (by simp [view, hindents])
        rw [closeBlocks, if_neg (by omega)]
    rw [hnone]
    simp [← houter]

theorem closeTo_cons {i : Nat} {is : List Nat} (houter : l.outer = [])
    (hindents : l.indents = i :: is) (h : l.cursor.column < i) : l.closeTo l.cursor.column =
      closeTo { l with indents := is, reversed := .blockEnd :: l.reversed } l.cursor.column := by
  have hfirst : closeBlocks l.cursor.column (i :: is) l.reversed =
      closeBlocks l.cursor.column is (.blockEnd :: l.reversed) := by
    rw [closeBlocks, if_pos (by omega)]
  simp only [closeTo, inFlow, houter, hindents, hfirst]
  rfl

theorem settle_of_atToken (h : AtToken l.cursor.rest) :
    l.settle = (do let l ← l.forgetStale; return l.closeTo l.cursor.column) := by
  unfold settle
  rw [skip_of_atToken h]

/-- What is forgotten does not depend on what is open. -/
theorem forgetStale_indents (indents : List Nat) (reversed : List Token) :
    forgetStale { l with indents, reversed } =
      (do let l ← l.forgetStale; return { l with indents, reversed }) := by
  have hlive : live? { l with indents, reversed } = l.live? := by
    funext c?
    cases c? <;> rfl
  unfold forgetStale
  rw [hlive]
  cases l.live? l.candidate? with
  | error e => rfl
  | ok d? => cases l.outer.mapM l.live? <;> rfl

end Lexer

namespace View.Leads

variable {k d : Nat} {is : List Nat} {a : Bool} {r : List Token} {cs : List Char}

theorem gap {c : Char} (hgap : c = ' ' ∨ c = '\n') :
    Leads ⟨c :: cs, k, is, d, a, r⟩
      ⟨cs, if c = '\n' then 0 else k + 1, is, d, a || (c == '\n' && d == 0), r⟩ := by
  intro l hl hfree
  obtain ⟨hrest, hcolumn, hindents, hdepth, hallowed, hreversed⟩ := View.mk.inj hl
  have hclean : needsEscape c = false := by rcases hgap with rfl | rfl <;> rfl
  obtain ⟨hrest', -, hcolumn', -⟩ := Cursor.next_of_clean hrest hclean
  have hflow : l.inFlow = !(d == 0) := by
    unfold Lexer.inFlow
    rw [← hdepth]
    cases l.outer <;> rfl
  refine ⟨{ l with
      cursor := l.cursor.next
      keyAllowed := l.keyAllowed || (c == '\n' && !l.inFlow) }, l, 0, ?_,
    ⟨hfree.inner, hfree.outer⟩, .refl l, ?_, by simp⟩
  · simp [Lexer.view, hrest', hcolumn', hcolumn, hindents, hdepth, hallowed, hreversed, hflow]
  · unfold Lexer.settle
    rw [Lexer.skip_next hrest hgap]

theorem space : Leads ⟨' ' :: cs, k, is, d, a, r⟩ ⟨cs, k + 1, is, d, a, r⟩ := by
  have hgap := @gap k d is a r cs ' ' (Or.inl rfl)
  simpa using hgap

theorem spaces (n : Nat) :
    Leads ⟨List.replicate n ' ' ++ cs, k, is, d, a, r⟩ ⟨cs, k + n, is, d, a, r⟩ := by
  induction n generalizing k with
  | zero => exact refl _
  | succ n ih =>
    rw [← Nat.add_assoc, Nat.add_right_comm]
    exact space.trans ih

theorem newLine (n : Nat) :
    Leads ⟨Yaml.newLine n ++ cs, k, is, d, a, r⟩ ⟨cs, n, is, d, a || d == 0, r⟩ := by
  have hline : Leads ⟨'\n' :: (List.replicate n ' ' ++ cs), k, is, d, a, r⟩
      ⟨List.replicate n ' ' ++ cs, 0, is, d, a || d == 0, r⟩ := by
    simpa using gap (k := k) (d := d) (a := a) (r := r) (Or.inr rfl)
  have hindent := hline.trans (spaces n)
  rw [Nat.zero_add] at hindent
  exact hindent

/-- A collection ends before a token in an earlier column. -/
theorem close {i : Nat} (hrest : AtToken cs) (h : k < i) :
    Leads ⟨cs, k, i :: is, 0, a, r⟩ ⟨cs, k, is, 0, a, .blockEnd :: r⟩ := by
  intro l hl hfree
  obtain ⟨rfl, rfl, hindents, hdepth, hallowed, hreversed⟩ := View.mk.inj hl
  have houter : l.outer = [] := List.eq_nil_of_length_eq_zero hdepth
  obtain ⟨l', hok, hview, -⟩ := hfree.forgetStale
  obtain ⟨-, hcolumn', hindents', hdepth', -, hreversed'⟩ := View.mk.inj hview
  refine ⟨{ l with indents := is, reversed := .blockEnd :: r }, l, 0, ?_, ⟨hfree.inner, hfree.outer⟩,
    .refl l, ?_, by simp⟩
  · simp [Lexer.view, hdepth, hallowed]
  · have houter' : l'.outer = [] := List.eq_nil_of_length_eq_zero (hdepth'.trans hdepth)
    rw [Lexer.settle_of_atToken hrest, Lexer.settle_of_atToken (by exact hrest),
      Lexer.forgetStale_indents is (.blockEnd :: r), hok]
    change Except.ok _ = Except.ok _
    rw [Lexer.closeTo_cons houter' (hindents'.trans hindents) (by omega), hreversed', hreversed]

end View.Leads

/-! ## One token -/

namespace Lexer

variable {l l' : Lexer} {v w : View} {c : Char} {cs : List Char}

theorem settle_of_closed (hfree : l.IsFree) (hrest : AtToken l.cursor.rest)
    (hclosed : l.view.IsClosed) : ∃ l', l.settle = .ok l' ∧ l'.view = l.view ∧ l'.IsFree := by
  obtain ⟨l', hok, hview, hfree'⟩ := hfree.forgetStale
  refine ⟨l', ?_, hview, hfree'⟩
  rw [← hview] at hclosed
  rw [settle_of_atToken hrest, hok]
  exact congrArg Except.ok (closeTo_of_closed hclosed)

theorem step_of_settle {m : Lexer} (hsettle : l.settle = .ok m) (hrest : m.cursor.rest = c :: cs)
    (htoken : m.token c cs = .ok l') : l.step = .ok (true, l') := by
  rw [step_eq, hsettle]
  change (match m.cursor.rest with
    | [] => _
    | c :: cs => _) = _
  rw [hrest]
  dsimp only
  rw [htoken]
  rfl

theorem step_of_end {m : Lexer} (hsettle : l.settle = .ok m) (hrest : m.cursor.rest = [])
    (hforget : (m.closeTo (-1)).forget = .ok l') : l.step = .ok (false, l') := by
  rw [step_eq, hsettle]
  change (match m.cursor.rest with
    | [] => _
    | c :: cs => _) = _
  rw [hrest]
  dsimp only
  rw [hforget]
  rfl

end Lexer

theorem View.Leads.of_token {v w : View} {c : Char} {cs : List Char} (hrest : v.rest = c :: cs)
    (hstarts : AtToken v.rest) (hclosed : v.IsClosed) (hless : w.rest.length < v.rest.length)
    (h : ∀ l : Lexer, l.view = v → l.IsFree →
      ∃ l', l.token c cs = .ok l' ∧ l'.view = w ∧ l'.IsFree) : v.Leads w := by
  rintro l rfl hfree
  obtain ⟨m, hsettle, hview, hfree'⟩ := Lexer.settle_of_closed hfree hstarts hclosed
  obtain ⟨l', htoken, hw, hfree''⟩ := h m hview hfree'
  have hrest' : m.cursor.rest = c :: cs := (congrArg View.rest hview).trans hrest
  exact ⟨l', l', 1, hw, hfree'', .step (Lexer.step_of_settle hsettle hrest' htoken) (.refl l'), rfl,
    by omega⟩

/-! ## The end -/

namespace Lexer

theorem closeBlocks_all (is : List Nat) (r : List Token) :
    closeBlocks (-1) is r = ([], List.replicate is.length .blockEnd ++ r) := by
  induction is generalizing r with
  | nil => rfl
  | cons i is ih =>
    rw [closeBlocks, if_pos (by omega), ih, List.length_cons, List.replicate_succ',
      List.append_assoc]
    rfl

theorem run_of_leads {cs : List Char} {k : Nat} {is : List Nat} {a : Bool} {r : List Token}
    (h : View.Leads ⟨cs, 0, [], 0, true, []⟩ ⟨[], k, is, 0, a, r⟩)
    (hclosed : ∀ i ∈ is.head?, i ≤ k) :
    run (cs.length + 1) { cursor := { rest := cs } } =
      r.reverse ++ List.replicate is.length .blockEnd := by
  obtain ⟨l, m, n, hview, hfree, hsteps, hsettle, hless⟩ := h { cursor := { rest := cs } } rfl
    ⟨fun _ hc => (by cases hc), fun _ hc => (by cases hc)⟩
  obtain ⟨fuel, hfuel⟩ : ∃ fuel, cs.length = fuel + n := ⟨cs.length - n, by simp at hless; omega⟩
  obtain ⟨hrest, -⟩ := View.mk.inj hview
  obtain ⟨l', hl', hview', hfree'⟩ := settle_of_closed hfree
    (by rw [hrest]; exact fun _ hc => (by cases hc)) (by rw [hview]; exact fun _ => hclosed)
  obtain ⟨hrest', -, hindents, hdepth, -, hreversed⟩ := View.mk.inj (hview'.trans hview)
  have hflow : l'.inFlow = false := by
    unfold inFlow
    rw [List.eq_nil_of_length_eq_zero hdepth]
    rfl
  have hend : l'.closeTo (-1) = { l' with
      indents := [], reversed := List.replicate is.length .blockEnd ++ r } := by
    unfold closeTo
    rw [hflow, if_neg Bool.false_ne_true, hindents, hreversed, closeBlocks_all]
  have hforget := IsFree.forget (l := l'.closeTo (-1)) (by rw [hend]; exact ⟨hfree'.1, hfree'.2⟩)
  rw [hfuel, Nat.add_right_comm, hsteps.run, run,
    step_of_end (hsettle.trans hl') hrest' hforget, hend]
  simp [List.reverse_append]

end Lexer

end Cadence.Yaml
