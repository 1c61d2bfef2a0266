import Mathlib.Data.List.Basic
import Cadence.Yaml.Plain
import Cadence.Proofs.Yaml.Spelling

/-!
# Plain text is read back

Text that is written without quotes reads as itself, with the line ends that fold it taken back to
spaces. It ends where the writer ended it: at a mark, or at a line that is indented less.
-/

namespace Cadence.Yaml

variable {inFlow : Bool} {c : Char} {cs rest sofar : List Char} {reach indent : Nat}

/-! ## Characters that are written -/

/-- Only characters that need no escape. -/
def IsClean (cs : List Char) : Prop := ∀ c ∈ cs, needsEscape c = false

theorem IsClean.head (h : IsClean (c :: cs)) : needsEscape c = false := h c List.mem_cons_self

theorem IsClean.tail (h : IsClean (c :: cs)) : IsClean cs :=
  fun d hd => h d (List.mem_cons_of_mem _ hd)

theorem IsClean.append {as bs : List Char} (ha : IsClean as) (hb : IsClean bs) :
    IsClean (as ++ bs) := by
  intro c hc
  rcases List.mem_append.mp hc with h | h
  · exact ha c h
  · exact hb c h

theorem isClean_nil : IsClean [] := fun _ h => absurd h List.not_mem_nil

theorem isClean_cons (hc : needsEscape c = false) (hcs : IsClean cs) : IsClean (c :: cs) := by
  intro d hd
  rcases List.mem_cons.mp hd with rfl | h
  · exact hc
  · exact hcs d h

theorem isClean_spaces (n : Nat) : IsClean (List.replicate n ' ') := by
  intro c hc
  rw [List.eq_of_mem_replicate hc]
  rfl

theorem isClean_newLine (indent : Nat) : IsClean (newLine indent) :=
  isClean_cons rfl (isClean_spaces indent)

theorem isBreak_of_clean (h : needsEscape c = false) (hline : c ≠ '\n') : isBreak c = false := by
  unfold isBreak
  rw [Bool.or_eq_false_iff, Bool.or_eq_false_iff]
  refine ⟨⟨by simpa using hline, ?_⟩, ?_⟩ <;>
  · rw [beq_eq_false_iff_ne]
    rintro rfl
    cases h

theorem isBlank_of_clean (h : needsEscape c = false) (hspace : c ≠ ' ') : isBlank c = false := by
  unfold isBlank
  rw [Bool.or_eq_false_iff]
  refine ⟨by simpa using hspace, ?_⟩
  rw [beq_eq_false_iff_ne]
  rintro rfl
  cases h

theorem atSeparator_newLine (h : 0 < indent) (cs : List Char) :
    atSeparator (List.replicate indent ' ' ++ cs) = false := by
  obtain ⟨n, rfl⟩ : ∃ n, indent = n + 1 := ⟨indent - 1, by omega⟩
  rfl

/-! ## Texts without quotes -/

/-- A text that can be written without quotes and read again. -/
structure IsSafe (inFlow : Bool) (cs : List Char) : Prop where
  clean : IsClean cs
  begins : beginsSafely inFlow cs = true
  goesOn : ∀ c ds, cs = c :: ds → goesOnSafely inFlow c ds = true

theorem isSafe_of_plain (h : Style.of inFlow cs = .plain) : IsSafe inFlow cs := by
  unfold Style.of at h
  split_ifs at h with hescape hplain
  rw [Bool.or_eq_true, not_or, List.any_eq_true] at hescape
  cases cs with
  | nil => cases hplain
  | cons c cs =>
    simp only [isPlainText, Bool.and_eq_true] at hplain
    refine ⟨?_, hplain.1.1, ?_⟩
    · intro d hd
      rw [← Bool.not_eq_true]
      exact fun hneeds => hescape.1 ⟨d, hd, hneeds⟩
    · intro d ds hds
      obtain ⟨rfl, rfl⟩ := List.cons.inj hds
      exact hplain.1.2

/-- What goes on in a text does so at each of its characters. -/
theorem goesOnSafely_cons {before : Char} (h : goesOnSafely inFlow before (c :: cs) = true) :
    c ≠ '\n' ∧ (before = ' ' → c ≠ '#') ∧ (c = ':' → inFlow = false ∧ atGap cs = false) ∧
      (inFlow = true → [',', '?', '[', ']', '{', '}'].contains c = false) ∧
      goesOnSafely inFlow c cs = true := by
  simp only [goesOnSafely, Bool.and_eq_true, Bool.not_eq_true', bne_iff_ne, ne_eq] at h
  obtain ⟨⟨⟨⟨hline, hcomment⟩, hcolon⟩, hmark⟩, hrest⟩ := h
  refine ⟨hline, ?_, ?_, ?_, hrest⟩
  · rintro rfl rfl
    simp at hcomment
  · rintro rfl
    simpa using hcolon
  · rintro rfl
    simpa using hmark

/-- What is written of a text after a colon in it is no gap. -/
theorem atGap_writePlain (h : atGap cs = false) (column : Nat) :
    atGap (writePlain indent 0 column cs ++ rest) = false := by
  cases cs with
  | nil => cases h
  | cons d ds =>
    have hd : d ≠ ' ' := by
      rintro rfl
      cases h
    rw [writePlain, if_neg hd, if_neg (by simp)]
    exact h

theorem endsPlain_of_safe (hclean : needsEscape c = false) (hspace : c ≠ ' ') (hline : c ≠ '\n')
    (hcolon : c = ':' → inFlow = false ∧ atGap cs = false)
    (hmark : inFlow = true → [',', '?', '[', ']', '{', '}'].contains c = false) (column : Nat) :
    endsPlain inFlow c (writePlain indent 0 column cs ++ rest) = false := by
  unfold endsPlain
  rw [isBlank_of_clean hclean hspace, isBreak_of_clean hclean hline]
  simp only [Bool.false_or, Bool.or_eq_false_iff, Bool.and_eq_false_iff]
  constructor
  · by_cases h : c = ':'
    · obtain ⟨hflow, hgap⟩ := hcolon h
      right
      rw [hflow]
      exact ⟨atGap_writePlain hgap column, Or.inl rfl⟩
    · left
      simpa using h
  · cases inFlow with
    | false => exact Or.inl rfl
    | true => exact Or.inr (hmark rfl)

/-! ## Reading blanks -/

theorem readPlain_spaces (count n : Nat) (newLine : Bool) (cs : List Char) :
    readPlain inFlow reach (.spaces count) sofar newLine (List.replicate n ' ' ++ cs) =
      readPlain inFlow reach (.spaces (count + n)) sofar newLine cs := by
  induction n generalizing count with
  | zero => rfl
  | succ n ih =>
    rw [List.replicate_succ, List.cons_append, readPlain, if_neg (by decide), if_pos rfl, ih]
    congr 2
    omega

theorem readPlain_indent (first : Char) (others : List Char) (column n : Nat) (newLine : Bool)
    (cs : List Char) :
    readPlain inFlow reach (.lines first others column) sofar newLine
        (List.replicate n ' ' ++ cs) =
      readPlain inFlow reach (.lines first others (column + n)) sofar newLine cs := by
  induction n generalizing column with
  | zero => rfl
  | succ n ih =>
    rw [List.replicate_succ, List.cons_append, readPlain, if_neg (by decide), if_pos rfl, ih]
    congr 2
    omega

theorem readPlain_newLine (h : 0 < indent) (newLine : Bool) (cs : List Char) :
    readPlain inFlow reach .word sofar newLine (Yaml.newLine indent ++ cs) =
      readPlain inFlow reach (.lines '\n' [] indent) sofar true cs := by
  have hline : isBreak '\n' = true := rfl
  unfold Yaml.newLine
  rw [List.cons_append, readPlain, if_pos hline, atSeparator_newLine h, if_neg Bool.false_ne_true,
    readPlain_indent, Nat.zero_add]

theorem readPlain_gap (hbreak : isBreak c = false) (hspace : c ≠ ' ') (n : Nat)
    (hcomment : 0 < n → c ≠ '#') (hends : endsPlain inFlow c cs = false) (newLine : Bool) :
    readPlain inFlow reach .word sofar newLine (List.replicate n ' ' ++ c :: cs) =
      readPlain inFlow reach .word (c :: (List.replicate n ' ' ++ sofar)) newLine cs := by
  cases n with
  | zero =>
    rw [List.replicate_zero, List.nil_append, readPlain, if_neg (by simp [hbreak]), if_neg hspace,
      if_neg (by simp [hends])]
    rfl
  | succ n =>
    have hc := hcomment (Nat.succ_pos n)
    rw [List.replicate_succ, List.cons_append, readPlain, if_neg (by decide), if_pos rfl,
      readPlain_spaces, readPlain, if_neg (by simp [hbreak]), if_neg hspace,
      if_neg (by simp [hc, hends]), Nat.add_comm 1 n]
    rfl

/-- A space that was written as a line end. -/
theorem readPlain_fold (hindent : 0 < indent) (hreach : inFlow = true ∨ reach ≤ indent)
    (hbreak : isBreak c = false) (hspace : c ≠ ' ') (hcomment : c ≠ '#')
    (hends : endsPlain inFlow c cs = false) (newLine : Bool) :
    readPlain inFlow reach .word sofar newLine (Yaml.newLine indent ++ c :: cs) =
      readPlain inFlow reach .word (c :: ' ' :: sofar) true cs := by
  have hdeep : (!inFlow && decide (indent < reach)) = false := by
    rcases hreach with rfl | hle
    · rfl
    · rw [decide_eq_false (Nat.not_lt.mpr hle), Bool.and_false]
  rw [readPlain_newLine hindent, readPlain, if_neg (by simp [hbreak]), if_neg hspace,
    if_neg (by simp [hcomment, hdeep, hends])]
  rfl

/-! ## Reading back -/

theorem readPlain_writePlain (hindent : 0 < indent) (hreach : inFlow = true ∨ reach ≤ indent)
    {before : Char} (spaces : Nat) (hsafe : goesOnSafely inFlow before cs = true)
    (hclean : IsClean cs) (hspaces : 0 < spaces ↔ before = ' ') (column : Nat) (newLine : Bool)
    (sofar rest : List Char) :
    ∃ newLine', readPlain inFlow reach .word sofar newLine
        (writePlain indent spaces column cs ++ rest) =
      readPlain inFlow reach .word (cs.reverse ++ (List.replicate spaces ' ' ++ sofar)) newLine'
        rest := by
  -- The writer holds spaces back until it knows what follows; the reader has not met them yet.
  induction cs generalizing before spaces column newLine sofar with
  | nil =>
    have hnone : spaces = 0 := by
      simp only [goesOnSafely, bne_iff_ne] at hsafe
      by_contra h
      exact hsafe (hspaces.mp (Nat.pos_of_ne_zero h))
    subst hnone
    exact ⟨newLine, rfl⟩
  | cons c cs ih =>
    obtain ⟨hline, hcomment, hcolon, hmark, hrest⟩ := goesOnSafely_cons hsafe
    by_cases hspace : c = ' '
    · subst hspace
      obtain ⟨newLine', h⟩ := ih (spaces + 1) hrest hclean.tail
        (by simp) column newLine sofar
      refine ⟨newLine', ?_⟩
      rw [writePlain, if_pos rfl, h, List.replicate_succ]
      simp
    · have hbreak := isBreak_of_clean hclean.head hline
      have hends : ∀ column, endsPlain inFlow c (writePlain indent 0 column cs ++ rest) = false :=
        endsPlain_of_safe hclean.head hspace hline hcolon hmark
      have hlater : 0 < 0 ↔ c = ' ' := by simp [hspace]
      rw [writePlain, if_neg hspace]
      split_ifs with hfold
      · obtain ⟨rfl, -⟩ := hfold
        obtain ⟨newLine', h⟩ := ih 0 hrest hclean.tail hlater (indent + 1) true (c :: ' ' :: sofar)
        refine ⟨newLine', ?_⟩
        rw [List.append_assoc, List.cons_append, readPlain_fold hindent hreach hbreak hspace
          (hcomment (hspaces.mp Nat.one_pos)) (hends _), h]
        simp
      · obtain ⟨newLine', h⟩ := ih 0 hrest hclean.tail hlater (column + spaces + 1) newLine
          (c :: (List.replicate spaces ' ' ++ sofar))
        refine ⟨newLine', ?_⟩
        rw [List.append_assoc, List.cons_append, readPlain_gap hbreak hspace spaces
          (fun h => hcomment (hspaces.mp h)) (hends _), h]
        simp

theorem beginsSafely_cons (h : beginsSafely inFlow (c :: cs) = true) :
    neverFirst.contains c = false ∧ c ≠ ' ' ∧ c ≠ '\n' ∧ (c = '-' → atGap cs = false) ∧
      (c = '?' ∨ c = ':' → inFlow = false ∧ atGap cs = false) ∧ atSeparator (c :: cs) = false := by
  unfold beginsSafely at h
  split at h
  · cases h
  · cases h
  · cases h
  · rename_i d ds hdash hdot heq
    obtain ⟨rfl, rfl⟩ := List.cons.inj heq
    simp only [Bool.and_eq_true, Bool.not_eq_true', bne_iff_ne, ne_eq] at h
    obtain ⟨⟨⟨⟨hnever, hspace⟩, hline⟩, hentry⟩, hmark⟩ := h
    refine ⟨hnever, hspace, hline, ?_, ?_, ?_⟩
    · rintro rfl
      simpa using hentry
    · rintro (rfl | rfl) <;> simpa using hmark
    · unfold atSeparator
      split
      · rename_i heq
        exact (hdash _ (List.cons.inj heq).1 (List.cons.inj heq).2).elim
      · rename_i heq
        exact (hdot _ (List.cons.inj heq).1 (List.cons.inj heq).2).elim
      · rfl

/-- A text that can go without quotes is read to its last character. -/
theorem IsSafe.read (h : IsSafe inFlow cs) (hindent : 0 < indent)
    (hreach : inFlow = true ∨ reach ≤ indent) (column : Nat) (rest : List Char) :
    ∃ newLine, readPlain inFlow reach .word [] false (writePlain indent 0 column cs ++ rest) =
      readPlain inFlow reach .word cs.reverse newLine rest := by
  cases cs with
  | nil => cases h.begins
  | cons c cs =>
    obtain ⟨hnever, hspace, hline, hentry, hmark, -⟩ := beginsSafely_cons h.begins
    have hgoes := h.goesOn c cs rfl
    have hends : endsPlain inFlow c (writePlain indent 0 (column + 1) cs ++ rest) = false := by
      apply endsPlain_of_safe h.clean.head hspace hline fun hcolon => hmark (Or.inr hcolon)
      rintro rfl
      rw [Bool.eq_false_iff, ne_eq, List.contains_iff_mem]
      intro hin
      -- The marks of a flow are never first, except for a question mark, which is in a flow.
      have hall : [',', '?', '[', ']', '{', '}'].all (fun d => d == '?' || neverFirst.contains d) =
          true := rfl
      have hask := List.all_eq_true.mp hall c hin
      rw [hnever, Bool.or_false, beq_iff_eq] at hask
      cases (hmark (Or.inl hask)).1
    obtain ⟨newLine, hread⟩ := readPlain_writePlain hindent hreach 0 hgoes h.clean.tail
      (by simp [hspace]) (column + 1) false [c] rest
    refine ⟨newLine, ?_⟩
    rw [writePlain, if_neg hspace, if_neg (by simp), List.append_assoc, List.cons_append,
      readPlain_gap (isBreak_of_clean h.clean.head hline) hspace 0 (by simp) hends]
    rw [List.replicate_zero, List.nil_append] at *
    rw [hread]
    simp

/-! ## Where a text ends -/

theorem readPlain_mark (hbreak : isBreak c = false) (hspace : c ≠ ' ')
    (hends : endsPlain inFlow c cs = true) (newLine : Bool) :
    readPlain inFlow reach .word sofar newLine (c :: cs) = ⟨sofar.reverse, newLine, c :: cs⟩ := by
  rw [readPlain, if_neg (by simp [hbreak]), if_neg hspace, if_pos hends]

/-- A line that is indented less ends a text, and so does the end of everything. -/
theorem readPlain_line {k : Nat} (hflow : inFlow = false)
    (hseparator : atSeparator (List.replicate k ' ' ++ rest) = false)
    (hrest : ∀ c cs, rest = c :: cs → isBreak c = false ∧ c ≠ ' ' ∧ k < reach) (newLine : Bool) :
    readPlain inFlow reach .word sofar newLine (Yaml.newLine k ++ rest) =
      ⟨sofar.reverse, true, rest⟩ := by
  have hline : isBreak '\n' = true := rfl
  subst hflow
  unfold Yaml.newLine
  rw [List.cons_append, readPlain, if_pos hline, hseparator, if_neg Bool.false_ne_true,
    readPlain_indent, Nat.zero_add]
  cases rest with
  | nil => rw [readPlain]
  | cons c cs =>
    obtain ⟨hbreak, hspace, hless⟩ := hrest c cs rfl
    rw [readPlain, if_neg (by simp [hbreak]), if_neg hspace, if_pos (by simp [hless])]

/-! ## Numbers and other words -/

/-- Nothing is folded in a word. -/
theorem writePlain_word (h : ' ' ∉ cs) (indent column : Nat) : writePlain indent 0 column cs = cs := by
  induction cs generalizing column with
  | nil => rfl
  | cons c cs ih =>
    rw [List.mem_cons, not_or] at h
    rw [writePlain, if_neg (Ne.symm h.1), if_neg (by simp), ih h.2]
    rfl

theorem isClean_writePlain (h : IsClean cs) (indent spaces column : Nat) :
    IsClean (writePlain indent spaces column cs) := by
  induction cs generalizing spaces column with
  | nil => exact isClean_spaces spaces
  | cons c cs ih =>
    rw [writePlain]
    split_ifs
    · exact ih h.tail (spaces + 1) column
    · exact (isClean_newLine indent).append (isClean_cons h.head (ih h.tail 0 (indent + 1)))
    · exact (isClean_spaces spaces).append (isClean_cons h.head (ih h.tail 0 _))

theorem needsEscape_alphanum (h : c.isAlphanum = true) : needsEscape c = false := by
  have hrange : 0x20 ≤ c.toNat ∧ c.toNat ≤ 0x7e := by
    have hranges : c.isAlphanum = (decide ('A'.val ≤ c.val ∧ c.val ≤ 'Z'.val) ||
        (decide ('a'.val ≤ c.val) && decide (c.val ≤ 'z'.val)) ||
        (decide ('0'.val ≤ c.val) && decide (c.val ≤ '9'.val))) := rfl
    simp only [hranges, Bool.or_eq_true, Bool.and_eq_true, decide_eq_true_eq,
      UInt32.le_iff_toNat_le] at h
    change ((65 ≤ c.toNat ∧ c.toNat ≤ 90) ∨ 97 ≤ c.toNat ∧ c.toNat ≤ 122) ∨
      48 ≤ c.toNat ∧ c.toNat ≤ 57 at h
    omega
  simp [needsEscape, hrange.1, hrange.2]

theorem contains_alphanum {marks : List Char} (hmarks : marks.any Char.isAlphanum = false)
    (h : c.isAlphanum = true) : marks.contains c = false := by
  rw [Bool.eq_false_iff, ne_eq, List.contains_iff_mem]
  intro hmem
  exact List.any_eq_false.mp hmarks c hmem h

theorem goesOnSafely_alphanum {before : Char} (h : ∀ d ∈ cs, d.isAlphanum = true)
    (hbefore : before ≠ ' ') : goesOnSafely inFlow before cs = true := by
  induction cs generalizing before with
  | nil => simpa [goesOnSafely] using hbefore
  | cons c cs ih =>
    have hc := h c List.mem_cons_self
    have hother : ∀ d : Char, d.isAlphanum = false → c ≠ d := by
      rintro d hd rfl
      rw [hc] at hd
      cases hd
    have hmarks : [',', '?', '[', ']', '{', '}'].contains c = false := contains_alphanum rfl hc
    unfold goesOnSafely
    rw [ih (fun d hd => h d (List.mem_cons_of_mem _ hd)) (hother ' ' rfl), hmarks]
    simp [hother '\n' rfl, hother '#' rfl, hother ':' rfl]

/-- A letter, a digit or a minus begins a text safely, if another follows the minus. -/
theorem beginsSafely_alphanum (hc : c.isAlphanum = true ∨ c = '-')
    (hminus : c = '-' → ∃ d ds, cs = d :: ds ∧ d.isAlphanum = true) :
    beginsSafely inFlow (c :: cs) = true := by
  have hother : ∀ d : Char, d.isAlphanum = false → d ≠ '-' → c ≠ d := by
    rintro d hd hdash rfl
    rcases hc with h | h
    · rw [hd] at h
      cases h
    · exact hdash h
  have hfirst : neverFirst.contains c = false := by
    rcases hc with h | rfl
    · exact contains_alphanum rfl h
    · rfl
  have hgap : c = '-' → atGap cs = false := by
    intro hdash
    obtain ⟨d, ds, rfl, hd⟩ := hminus hdash
    have hclean := needsEscape_alphanum hd
    have hline : d ≠ '\n' := by rintro rfl; cases hd
    have hspace : d ≠ ' ' := by rintro rfl; cases hd
    simp [atGap, isBlank_of_clean hclean hspace, isBreak_of_clean hclean hline]
  unfold beginsSafely
  split
  · rename_i heq
    cases heq
  · rename_i heq
    obtain ⟨hdash, hcs⟩ := List.cons.inj heq
    obtain ⟨d, ds, hds, hd⟩ := hminus hdash
    rw [hcs] at hds
    rw [← (List.cons.inj hds).1] at hd
    cases hd
  · rename_i heq
    exact absurd (List.cons.inj heq).1 (hother '.' rfl (by decide))
  · rename_i heq
    obtain ⟨rfl, rfl⟩ := List.cons.inj heq
    have hask := hother '?' rfl (by decide)
    have hcolon := hother ':' rfl (by decide)
    have hentry : (c == '-' && atGap cs) = false := by
      rw [Bool.and_eq_false_iff, beq_eq_false_iff_ne]
      by_cases hdash : c = '-'
      · exact Or.inr (hgap hdash)
      · exact Or.inl hdash
    rw [hfirst, hentry]
    simp [hother ' ' rfl (by decide), hother '\n' rfl (by decide), hask, hcolon]

theorem isSafe_word (inFlow : Bool) (hsome : cs ≠ []) (h : ∀ c ∈ cs, c.isAlphanum = true) :
    IsSafe inFlow cs := by
  refine ⟨fun c hc => needsEscape_alphanum (h c hc), ?_, ?_⟩
  · obtain ⟨c, ds, rfl⟩ := List.exists_cons_of_ne_nil hsome
    have hc := h c List.mem_cons_self
    apply beginsSafely_alphanum (Or.inl hc)
    rintro rfl
    cases hc
  · rintro c ds rfl
    apply goesOnSafely_alphanum fun d hd => h d (List.mem_cons_of_mem _ hd)
    rintro rfl
    cases h ' ' List.mem_cons_self

theorem isSafe_numeral (inFlow : Bool) (n : Int) : IsSafe inFlow (Text.numeral n) := by
  have hdigits : ∀ m, ∀ d ∈ Text.digits m, d.isAlphanum = true := by
    intro m d hd
    rw [Char.isAlphanum, Text.isDigit_of_mem_digits hd, Bool.or_true]
  cases n with
  | ofNat n => exact isSafe_word inFlow (Text.digits_ne_nil n) (hdigits n)
  | negSucc n =>
    have hall := hdigits (n + 1)
    refine ⟨isClean_cons rfl fun d hd => needsEscape_alphanum (hall d hd), ?_, ?_⟩
    · obtain ⟨c, cs, hcs⟩ := List.exists_cons_of_ne_nil (Text.digits_ne_nil (n + 1))
      apply beginsSafely_alphanum (Or.inr rfl)
      intro _
      exact ⟨c, cs, hcs, hall c (by rw [hcs]; exact List.mem_cons_self)⟩
    · intro c ds hds
      obtain ⟨rfl, rfl⟩ := List.cons.inj hds
      exact goesOnSafely_alphanum hall (by decide)

end Cadence.Yaml
