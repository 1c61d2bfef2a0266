import Cadence.Proofs.Yaml.Blocks

/-!
# Written text is clean

Whatever a text holds, what is written for it is made of printable characters and line feeds. Such text
may be read, and its line ends stay as they are.
-/

namespace Cadence.Yaml

variable {n indent : Nat} {v : Value} {cs : List Char}

/-! ## Reading clean text -/

theorem isAllowed_of_clean {c : Char} (h : needsEscape c = false) : isAllowed c = true := by
  by_cases hline : c = '\n'
  · subst hline
    rfl
  · have hrange : 0x20 ≤ c.toNat ∧ c.toNat ≤ 0x7e := by
      simpa [needsEscape, hline] using h
    simp [isAllowed, hrange.1, hrange.2]

theorem uniformBreaks_of_clean (h : IsClean cs) : uniformBreaks cs = cs := by
  induction cs with
  | nil => rfl
  | cons c cs ih =>
    have hne : c ≠ '\r' ∧ c ≠ '\u0085' := by
      constructor <;>
      · rintro rfl
        cases h.head
    rw [uniformBreaks, if_neg (by simp [hne]), ih h.tail]
    rintro rest rfl -
    exact hne.1 rfl

/-! ## Scalars and brackets -/

theorem isClean_writeText (inFlow : Bool) (indent column : Nat) (cs : List Char) :
    IsClean (writeText inFlow indent column cs) := by
  unfold writeText
  cases hstyle : Style.of inFlow cs with
  | plain => exact isClean_writePlain (isSafe_of_plain hstyle).clean indent 0 column
  | single =>
    have hclean : IsClean cs := by
      unfold Style.of at hstyle
      split_ifs at hstyle with hescape
      rw [Bool.not_eq_true, Bool.or_eq_false_iff, List.any_eq_false] at hescape
      exact fun d hd => by simpa using hescape.1 d hd
    exact isClean_cons rfl (isClean_writeSingle hclean .nothing (column + 1) true)
  | double => exact isClean_cons rfl (isClean_writeDouble true true (column + 1) cs)

theorem isClean_writeScalar (hv : Writable n v) (inFlow : Bool) (indent column : Nat) :
    IsClean (writeScalar inFlow indent column v) := by
  cases hv with
  | text n s => exact isClean_writeText inFlow indent column s.toList
  | @int n i h => exact (isSafe_numeral inFlow i).clean
  | list h => exact isClean_nil
  | map hnames h => exact isClean_nil

theorem isClean_writeFlow {α : Type} {write : Nat → α → List Char} {as : List α}
    (h : ∀ e ∈ as, ∀ column, IsClean (write column e)) (first : Bool) (column : Nat) :
    IsClean (writeFlow indent write first column as) := by
  induction as generalizing first column with
  | nil => exact isClean_nil
  | cons e as ih =>
    obtain ⟨folded, column₁, column₂, hwrite⟩ :=
      writeFlow_cons indent write first column e as
    have hcomma : IsClean (if first then [] else [',']) := by
      split_ifs
      · exact isClean_nil
      · exact isClean_cons rfl isClean_nil
    have hgap : IsClean (if folded then newLine indent else if first then [] else [' ']) := by
      split_ifs
      · exact isClean_newLine indent
      · exact isClean_nil
      · exact isClean_cons rfl isClean_nil
    rw [hwrite]
    exact hcomma.append (hgap.append ((h e List.mem_cons_self column₁).append
      (ih (fun f hf => h f (List.mem_cons_of_mem e hf)) false column₂)))

theorem isClean_name {name : List Char} (h : IsName name) : IsClean name :=
  fun c hc => needsEscape_alphanum (h.word c hc)

theorem isClean_writeInline (hv : Writable n v) (indent column : Nat) :
    IsClean (writeInline indent column v) := by
  cases hv with
  | text n s => exact isClean_writeScalar (.text n s) false indent column
  | int n h => exact isClean_writeScalar (.int n h) false indent column
  | list h =>
    apply isClean_cons rfl
    apply IsClean.append _ (isClean_cons rfl isClean_nil)
    apply isClean_writeFlow
    intro e he column
    exact isClean_writeScalar (h e he) true (indent + 2) column
  | @map n es hnames h =>
    apply isClean_cons rfl
    apply IsClean.append _ (isClean_cons rfl isClean_nil)
    apply isClean_writeFlow
    intro e he column
    exact (isClean_name (hnames e he)).append (isClean_cons rfl (isClean_cons rfl
      (isClean_writeScalar (h e he) true (indent + 2) _)))

/-! ## Blocks -/

theorem isClean_writeItems {vs : List Value} (h : ∀ v ∈ vs, Writable n v)
    (hblocks : ∀ v ∈ vs, ∀ indent, IsClean (writeBlock indent v)) (indent : Nat) :
    IsClean (writeItems indent vs) := by
  induction vs with
  | nil => exact isClean_nil
  | cons v vs ih =>
    have hmore := ih (fun u hu => h u (List.mem_cons_of_mem v hu))
      fun u hu => hblocks u (List.mem_cons_of_mem v hu)
    rw [writeItems]
    apply isClean_cons rfl
    apply isClean_cons rfl
    apply IsClean.append
    · split_ifs
      · exact hblocks v List.mem_cons_self (indent + 2)
      · exact isClean_writeInline (h v List.mem_cons_self) (indent + 2) (indent + 2)
    · split_ifs
      · exact isClean_nil
      · exact (isClean_newLine indent).append hmore

theorem isClean_entryText (h : Writable n v) (hblock : ∀ indent, IsClean (writeBlock indent v))
    (indent width : Nat) : IsClean (entryText indent width v) := by
  have hinline : IsClean (' ' :: writeInline (indent + 2) (indent + width + 2) v) :=
    isClean_cons rfl (isClean_writeInline h (indent + 2) (indent + width + 2))
  unfold entryText
  split
  · split_ifs
    · exact (isClean_newLine indent).append (hblock indent)
    · exact hinline
  · split_ifs
    · exact (isClean_newLine (indent + 2)).append (hblock (indent + 2))
    · exact hinline

theorem isClean_writeEntries {es : List (String × Value)} (hnames : ∀ e ∈ es, IsName e.1.toList)
    (h : ∀ e ∈ es, Writable n e.2) (hblocks : ∀ e ∈ es, ∀ indent, IsClean (writeBlock indent e.2))
    (indent : Nat) : IsClean (writeEntries indent es) := by
  induction es with
  | nil => exact isClean_nil
  | cons e es ih =>
    obtain ⟨name, v⟩ := e
    have hmore := ih (fun f hf => hnames f (List.mem_cons_of_mem _ hf))
      (fun f hf => h f (List.mem_cons_of_mem _ hf)) fun f hf => hblocks f (List.mem_cons_of_mem _ hf)
    have hname := isClean_name (hnames (name, v) List.mem_cons_self)
    have htext := isClean_entryText (h (name, v) List.mem_cons_self)
      (hblocks (name, v) List.mem_cons_self) indent name.length
    rw [writeEntries_cons]
    apply hname.append (isClean_cons rfl (htext.append _))
    split_ifs
    · exact isClean_nil
    · exact (isClean_newLine indent).append hmore

theorem isClean_writeBlock (hv : Writable n v) (indent : Nat) : IsClean (writeBlock indent v) := by
  induction hv generalizing indent with
  | text n s => exact isClean_writeInline (.text n s) indent 0
  | int n h => exact isClean_writeInline (.int n h) indent 0
  | list h ih => exact isClean_writeItems h ih indent
  | map hnames h ih => exact isClean_writeEntries hnames h ih indent

theorem isClean_write (hv : Writable n v) : IsClean (write v).toList := by
  unfold write
  rw [String.toList_ofList]
  apply IsClean.append _ (isClean_cons rfl isClean_nil)
  split_ifs
  · exact isClean_writeBlock hv 0
  · exact isClean_writeInline hv 2 0

/-! ## The whole text -/

/-- A collection is written as its tokens. -/
theorem tokens_write (hv : Writable n v) (hcollection : isScalar v = false)
    (hwidth : 2 * n + 4 < lineWidth) : tokens (write v).toList = valueTokens false v := by
  unfold tokens
  rw [uniformBreaks_of_clean (isClean_write hv)]
  unfold write
  rw [String.toList_ofList]
  dsimp only
  cases hblock : isBlock v with
  | true =>
    have h := hv.showsBlock hblock 0 0 [] [] [] (by omega) (fun _ hj => (by cases hj)) .nothing
      (Nat.le_refl 0)
    rw [if_pos rfl]
    have hrun := Lexer.run_of_leads h (by simp [opened, isDeeper])
    rw [valueTokens_of_block hblock]
    simpa [opened, opening, isDeeper, newLine] using hrun
  | false =>
    obtain ⟨k, h⟩ : ∃ k, View.Leads ⟨writeInline 2 0 v ++ ['\n'], 0, [], 0, true, []⟩ _ :=
      View.Leads.collection hv hcollection hblock (by decide) (by decide) rfl 0
    have hline := h.trans (View.Leads.newLine 0)
    have hrun := Lexer.run_of_leads hline (fun _ hj => (by cases hj))
    rw [valueTokens_of_inline hblock]
    simpa using hrun

end Cadence.Yaml
