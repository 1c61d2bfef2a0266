import Mathlib.Data.List.TakeWhile
import Cadence.Notation
import Cadence.Proofs.Yaml.Spelling

/-!
# Times and signatures come back

What is written of a time or a signature is read as that time or that signature. A time may stand
between blanks, and ones at its end may be left out. Only a number that is too long has no text.
-/

namespace Cadence.Text

/-! ## Reading digits -/

theorem isDigit_code {c : Char} (h : c.isDigit = true) : 0x30 ≤ c.toNat ∧ c.toNat ≤ 0x39 := by
  simp only [Char.isDigit, ge_iff_le, Bool.and_eq_true, decide_eq_true_eq,
    UInt32.le_iff_toNat_le] at h
  exact h

theorem digitValue?_of_isDigit {c : Char} (h : c.isDigit = true) :
    digitValue? c = some (c.toNat - '0'.toNat) := by
  have hzeros : zeros = 0x30 :: zeros.tail := rfl
  obtain ⟨hlow, hhigh⟩ := isDigit_code h
  unfold digitValue?
  rw [hzeros, List.find?_cons_of_pos (by simp [hlow, hhigh])]
  rfl

theorem isDigit_ne {c d : Char} (h : c.isDigit = true) (hd : d.isDigit = false) : c ≠ d := by
  rintro rfl
  rw [h] at hd
  cases hd

/-- Plain digits after a number read so far. -/
theorem readDigits_eq {cs : List Char} (h : ∀ c ∈ cs, c.isDigit = true) (sofar : Nat) :
    readDigits digitValue? sofar cs = some (Nat.ofDigitChars 10 cs sofar) := by
  induction cs generalizing sofar with
  | nil => rfl
  | cons c cs ih =>
    rw [List.forall_mem_cons] at h
    have hstep : readDigits digitValue? sofar (c :: cs) =
        (digitValue? c).bind fun d => readDigits digitValue? (10 * sofar + d) cs := by
      rw [readDigits]
      intro _ _ hc
      exact absurd hc (isDigit_ne h.1 rfl)
    rw [hstep, digitValue?_of_isDigit h.1, Option.bind_some, ih h.2, Nat.ofDigitChars_cons]

theorem readNat_digits (n : Nat) : readNat digitValue? (digits n) = some n := by
  have hall : ∀ c ∈ digits n, c.isDigit = true := fun c => isDigit_of_mem_digits
  have hvalue : Nat.ofDigitChars 10 (digits n) 0 = n :=
    Nat.ofDigitChars_toDigits (by decide) (by decide)
  obtain ⟨c, cs, hcs⟩ := List.exists_cons_of_ne_nil (digits_ne_nil n)
  rw [hcs] at hall hvalue ⊢
  rw [List.forall_mem_cons] at hall
  rw [Nat.ofDigitChars_cons, Nat.mul_zero, Nat.zero_add] at hvalue
  rw [readNat, digitValue?_of_isDigit hall.1, Option.bind_some, readDigits_eq hall.2, hvalue]

/-! ## Reading numerals -/

theorem numeral_natCast (n : Nat) : numeral n = digits n := rfl

theorem readSigned_numeral (n : Int) : readSigned digitValue? (numeral n) = some n := by
  cases n with
  | ofNat n =>
    rw [numeral, readSigned, readNat_digits]
    · rfl
    · exact digits_ne_cons rfl n
    · exact digits_ne_cons rfl n
  | negSucc n =>
    rw [numeral, readSigned, readNat_digits]
    rfl

theorem dropSign_numeral (n : Int) : dropSign (numeral n) = digits n.natAbs := by
  cases n with
  | ofNat n =>
    rw [numeral, dropSign]
    · rfl
    · exact digits_ne_cons rfl n
    · exact digits_ne_cons rfl n
  | negSucc n => rfl

theorem leadingDigits_digits (n : Nat) :
    leadingDigits digitValue? (digits n) = (digits n).length := by
  have hrun : (digits n).takeWhile (fun c => c == '_' || (digitValue? c).isSome) = digits n := by
    rw [List.takeWhile_eq_self_iff]
    intro c hc
    rw [digitValue?_of_isDigit (isDigit_of_mem_digits hc), Option.isSome_some, Bool.or_true]
  unfold leadingDigits
  dsimp only
  rw [hrun, readNat_digits, Option.isSome_some, if_pos rfl, List.countP_eq_length]
  intro c hc
  rw [bne_iff_ne]
  exact isDigit_ne (isDigit_of_mem_digits hc) rfl

/-! ## Blanks around -/

variable {p : Char → Bool} {before cs after : List Char}

theorem dropWhile_padded (hbefore : ∀ c ∈ before, p c = true) (hcs : ∀ c ∈ cs, p c = false)
    (hsome : cs ≠ []) : (before ++ (cs ++ after)).dropWhile p = cs ++ after := by
  obtain ⟨c, others, rfl⟩ := List.exists_cons_of_ne_nil hsome
  rw [List.dropWhile_append_of_pos hbefore, List.cons_append, List.dropWhile_cons_of_neg]
  rw [hcs c List.mem_cons_self]
  exact Bool.false_ne_true

theorem trim_padded (hbefore : ∀ c ∈ before, p c = true) (hafter : ∀ c ∈ after, p c = true)
    (hcs : ∀ c ∈ cs, p c = false) (hsome : cs ≠ []) : trim p (before ++ (cs ++ after)) = cs := by
  have hback : (after.reverse ++ (cs.reverse ++ [])).dropWhile p = cs.reverse ++ [] := by
    apply dropWhile_padded
    · simpa using hafter
    · simpa using hcs
    · simpa using hsome
  rw [List.append_nil] at hback
  unfold trim
  rw [dropWhile_padded hbefore hcs hsome, List.reverse_append, hback, List.reverse_reverse]

theorem isBlank_of_isDigit {c : Char} (h : c.isDigit = true) : isBlank c = false := by
  obtain ⟨hlow, hhigh⟩ := isDigit_code h
  simp [isBlank, isSpace]
  omega

theorem trim_numeral (n : Int) : trim isSpace (numeral n) = numeral n := by
  have hcs : ∀ c ∈ numeral n, isSpace c = false := by
    intro c hc
    rcases isDigit_or_minus_of_mem_numeral hc with h | rfl
    · have hblank := isBlank_of_isDigit h
      rw [isBlank, Bool.or_eq_false_iff] at hblank
      exact hblank.1
    · rfl
  obtain ⟨c, cs, hnumeral, -⟩ := numeral_head n
  have hsome : numeral n ≠ [] := by
    rw [hnumeral]
    exact List.cons_ne_nil c cs
  have htrim : trim isSpace ([] ++ (numeral n ++ [])) = numeral n :=
    trim_padded (by simp) (by simp) hcs hsome
  rw [List.nil_append, List.append_nil] at htrim
  exact htrim

theorem digitCount_numeral (n : Int) : digitCount (numeral n) = (digits n.natAbs).length := by
  unfold digitCount
  rw [trim_numeral, dropSign_numeral, leadingDigits_digits]

end Cadence.Text

namespace Cadence

open Text

/-- A number is read from its numeral if that has not too many digits. -/
theorem readPart_numeral (n : Int) :
    readPart (numeral n) = if Yaml.isShort n = true then .ok n
      else .error (.tooLong (digits n.natAbs).length) := by
  have hlimit : Yaml.isShort n = true ↔ (digits n.natAbs).length ≤ digitLimit := by
    unfold Yaml.isShort
    exact decide_eq_true_iff
  unfold readPart readInt
  rw [digitCount_numeral, trim_numeral, readSigned_numeral]
  by_cases h : Yaml.isShort n = true
  · rw [if_pos h, if_neg (Nat.not_lt.mpr (hlimit.mp h))]
  · have hlong : digitLimit < (digits n.natAbs).length := by
      rw [← Nat.not_le, ← hlimit]
      exact h
    rw [if_neg h, if_pos hlong]
    dsimp only
    rw [if_pos hlong]

theorem readPart_digits {n : Nat} (h : Yaml.isShort n = true) :
    readPart (digits n) = .ok (n : Int) := by
  rw [← numeral_natCast, readPart_numeral, if_pos h]

theorem textShowing_eq_ok_iff {numbers : List Int} {shown text : String} :
    textShowing numbers shown = .ok text ↔
      (∀ n ∈ numbers, Yaml.isShort n = true) ∧ shown = text := by
  unfold textShowing
  by_cases h : ∀ n ∈ numbers, Yaml.isShort n = true
  · rw [tooLong?_eq_none_iff.mpr h]
    simpa using fun _ => h
  · obtain ⟨e, he⟩ := exists_tooLong h
    rw [he]
    simp [h]

/-! ## Times -/

namespace Time

variable {t u : Time} {text : String}

/-- A text is read as this time, and blanks around it make no difference. -/
def IsReadFrom (t : Time) (text : String) : Prop :=
  ∀ before after : String, (∀ c ∈ before.toList, isBlank c = true) →
    (∀ c ∈ after.toList, isBlank c = true) → parse (before ++ text ++ after) = .ok t

theorem ofFields_natCast (bar beat interval : Nat) :
    ofFields bar beat interval = .ok ⟨bar, beat, interval⟩ := by
  unfold ofFields
  rw [if_neg (by omega)]
  simp only [Int.toNat_natCast]

theorem digit_or_dot (n : Nat) : ∀ c ∈ digits n, c.isDigit = true ∨ c = '.' :=
  fun _ hc => .inl (isDigit_of_mem_digits hc)

theorem digit_or_dot_cons (n : Nat) {cs : List Char} (h : ∀ c ∈ cs, c.isDigit = true ∨ c = '.') :
    ∀ c ∈ digits n ++ '.' :: cs, c.isDigit = true ∨ c = '.' := by
  intro c hc
  rw [List.mem_append, List.mem_cons] at hc
  rcases hc with hdigit | rfl | hrest
  · exact digit_or_dot n c hdigit
  · exact .inr rfl
  · exact h c hrest

theorem chars_eq (t : Time) :
    t.chars = digits t.bar ++ '.' :: (digits t.beat ++ '.' :: digits t.interval) := by
  rw [chars, List.append_assoc, List.cons_append]

theorem trim_blanks {before after : String} {cs : List Char}
    (hbefore : ∀ c ∈ before.toList, isBlank c = true)
    (hafter : ∀ c ∈ after.toList, isBlank c = true)
    (hcs : ∀ c ∈ cs, c.isDigit = true ∨ c = '.') (hsome : cs ≠ []) :
    trim isBlank (before ++ String.ofList cs ++ after).toList = cs := by
  have hfull : ∀ c ∈ cs, isBlank c = false := by
    intro c hc
    rcases hcs c hc with h | rfl
    · exact isBlank_of_isDigit h
    · rfl
  rw [String.toList_append, String.toList_append, String.toList_ofList, List.append_assoc]
  exact trim_padded hbefore hafter hfull hsome

/-- A bar alone is where that bar begins. -/
theorem isReadFrom_bar {bar : Nat} (hbar : Yaml.isShort bar = true) :
    (⟨bar, 1, 1⟩ : Time).IsReadFrom (String.ofList (digits bar)) := by
  intro before after hbefore hafter
  unfold parse
  rw [trim_blanks hbefore hafter (digit_or_dot bar) (digits_ne_nil bar),
    splitAt_of_not_mem (not_mem_digits rfl bar)]
  dsimp only
  rw [readPart_digits hbar]
  exact ofFields_natCast bar 1 1

/-- A bar and a beat are where that beat begins. -/
theorem isReadFrom_beat {bar beat : Nat} (hbar : Yaml.isShort bar = true)
    (hbeat : Yaml.isShort beat = true) :
    (⟨bar, beat, 1⟩ : Time).IsReadFrom (String.ofList (digits bar ++ '.' :: digits beat)) := by
  intro before after hbefore hafter
  have hcs := digit_or_dot_cons bar (digit_or_dot beat)
  unfold parse
  rw [trim_blanks hbefore hafter hcs (by simp),
    splitAt_append (not_mem_digits rfl bar),
    splitAt_of_not_mem (not_mem_digits rfl beat)]
  dsimp only
  rw [readPart_digits hbar, readPart_digits hbeat]
  exact ofFields_natCast bar beat 1

theorem isReadFrom_text (h : ∀ n ∈ t.numbers, Yaml.isShort n = true) : t.IsReadFrom t.text := by
  obtain ⟨bar, beat, interval⟩ := t
  simp only [numbers, List.forall_mem_cons] at h
  obtain ⟨hbar, hbeat, hinterval, -⟩ := h
  intro before after hbefore hafter
  have hcs := digit_or_dot_cons bar (digit_or_dot_cons beat (digit_or_dot interval))
  unfold parse text
  rw [chars_eq, trim_blanks hbefore hafter hcs (by simp),
    splitAt_append (not_mem_digits rfl bar),
    splitAt_append (not_mem_digits rfl beat),
    splitAt_of_not_mem (not_mem_digits rfl interval)]
  dsimp only
  rw [readPart_digits hbar, readPart_digits hbeat, readPart_digits hinterval]
  exact ofFields_natCast bar beat interval

theorem IsReadFrom.parse_eq (h : t.IsReadFrom text) : parse text = .ok t := by
  have hbare := h "" "" (by simp) (by simp)
  rw [String.empty_append, String.append_empty] at hbare
  exact hbare

theorem write?_eq_ok_iff : t.write? = .ok text ↔
    (∀ n ∈ t.numbers, Yaml.isShort n = true) ∧ t.text = text :=
  textShowing_eq_ok_iff

/-- What is written is read as what it was written of. -/
theorem isReadFrom_of_write? (h : t.write? = .ok text) : t.IsReadFrom text := by
  obtain ⟨hshort, rfl⟩ := write?_eq_ok_iff.mp h
  exact isReadFrom_text hshort

theorem write?_injective (ht : t.write? = .ok text) (hu : u.write? = .ok text) : t = u := by
  have hread := (isReadFrom_of_write? ht).parse_eq
  rw [(isReadFrom_of_write? hu).parse_eq, Except.ok.injEq] at hread
  exact hread.symm

/-- An interval of one may be left out of the text. -/
theorem text_without_interval (h : t.write? = .ok text) (hinterval : t.interval = 1) :
    ∃ short, text = short ++ ".1" ∧ t.IsReadFrom short := by
  obtain ⟨hshort, rfl⟩ := write?_eq_ok_iff.mp h
  obtain ⟨bar, beat, interval⟩ := t
  obtain rfl : interval = 1 := hinterval
  simp only [numbers, List.forall_mem_cons] at hshort
  have hone : ".1" = String.ofList ('.' :: digits 1) := rfl
  refine ⟨_, ?_, isReadFrom_beat hshort.1 hshort.2.1⟩
  rw [hone, ← String.ofList_append, Time.text, chars]

/-- A beat of one may be left out as well, if the interval is. -/
theorem text_without_beat (h : t.write? = .ok text) (hbeat : t.beat = 1)
    (hinterval : t.interval = 1) : ∃ short, text = short ++ ".1.1" ∧ t.IsReadFrom short := by
  obtain ⟨hshort, rfl⟩ := write?_eq_ok_iff.mp h
  obtain ⟨bar, beat, interval⟩ := t
  obtain rfl : beat = 1 := hbeat
  obtain rfl : interval = 1 := hinterval
  simp only [numbers, List.forall_mem_cons] at hshort
  have hones : ".1.1" = String.ofList ('.' :: (digits 1 ++ '.' :: digits 1)) := rfl
  refine ⟨_, ?_, isReadFrom_bar hshort.1⟩
  rw [hones, ← String.ofList_append, Time.text, chars_eq]

end Time

/-! ## Signatures -/

namespace Signature

variable {s r : Signature} {text : String}

theorem write?_eq_ok_iff : s.write? = .ok text ↔
    (∀ n ∈ s.numbers, Yaml.isShort n = true) ∧ s.text = text :=
  textShowing_eq_ok_iff

theorem parse_of_write? (h : s.write? = .ok text) : parse text = .ok s := by
  obtain ⟨hshort, rfl⟩ := write?_eq_ok_iff.mp h
  obtain ⟨numerator, denominator⟩ := s
  simp only [numbers, List.forall_mem_cons] at hshort
  unfold parse Signature.text
  rw [String.toList_ofList, chars, splitAt_append (not_mem_numeral rfl (by decide) numerator),
    splitAt_of_not_mem (not_mem_numeral rfl (by decide) denominator)]
  dsimp only
  rw [readPart_numeral, readPart_numeral, if_pos hshort.1, if_pos hshort.2.1]
  rfl

theorem write?_injective (hs : s.write? = .ok text) (hr : r.write? = .ok text) : s = r := by
  have hread := parse_of_write? hs
  rw [parse_of_write? hr, Except.ok.injEq] at hread
  exact hread.symm

end Signature

/-! ## There and back -/

theorem short_iff {numbers : List Int} : (∀ n ∈ numbers, Yaml.isShort n = true) ↔
    ∀ n ∈ numbers, n.natAbs < 10 ^ digitLimit := by
  apply forall_congr'
  intro n
  rw [isShort_iff, Yaml.Meaning.digitLimit]

/-- What is written of a time is read as that time, between blanks and with ones left out at its end,
and what is written of a signature is read as that signature. Nothing else is written alike. A text is
there just if no number has too many digits. -/
theorem notation_comes_back :
    (∀ t : Time, (∀ n ∈ t.numbers, n.natAbs < 10 ^ digitLimit) ↔ t.write? = .ok t.text) ∧
      (∀ (t : Time) text, t.write? = .ok text →
        t.IsReadFrom text ∧
          (t.interval = 1 → ∃ short, text = short ++ ".1" ∧ t.IsReadFrom short) ∧
          (t.beat = 1 → t.interval = 1 → ∃ short, text = short ++ ".1.1" ∧ t.IsReadFrom short)) ∧
      (∀ s : Signature, (∀ n ∈ s.numbers, n.natAbs < 10 ^ digitLimit) ↔ s.write? = .ok s.text) ∧
      (∀ (s : Signature) text, s.write? = .ok text → Signature.parse text = .ok s) ∧
      (∀ (t u : Time) text, t.write? = .ok text → u.write? = .ok text → t = u) ∧
      ∀ (s r : Signature) text, s.write? = .ok text → r.write? = .ok text → s = r := by
  refine ⟨?_, ?_, ?_, ?_, ?_, ?_⟩
  · intro t
    rw [← short_iff, Time.write?_eq_ok_iff]
    simp only [and_true]
  · intro t text h
    exact ⟨Time.isReadFrom_of_write? h, Time.text_without_interval h, Time.text_without_beat h⟩
  · intro s
    rw [← short_iff, Signature.write?_eq_ok_iff]
    simp only [and_true]
  · intro s text
    exact Signature.parse_of_write?
  · intro t u text
    exact Time.write?_injective
  · intro s r text
    exact Signature.write?_injective

/-- Bar twelve may be given with the ones left out and with blanks around it, and a signature of less
than no beats comes back too. -/
theorem bar_and_odd_signature_come_back :
    (⟨12, 1, 1⟩ : Time).write? = .ok "12.1.1" ∧ Time.parse "\t12.1.1\n" = .ok ⟨12, 1, 1⟩ ∧
      Time.parse " 12 " = .ok ⟨12, 1, 1⟩ ∧
      (⟨-3, 0⟩ : Signature).write? = .ok "-3/0" ∧ Signature.parse "-3/0" = .ok ⟨-3, 0⟩ := by
  have htime : (⟨12, 1, 1⟩ : Time).write? = .ok "12.1.1" := rfl
  have hsignature : (⟨-3, 0⟩ : Signature).write? = .ok "-3/0" := rfl
  obtain ⟨-, hread, -, hreadSignature, -, -⟩ := notation_comes_back
  obtain ⟨hfull, -, hbar⟩ := hread _ _ htime
  obtain ⟨short, hshort, hbar⟩ := hbar rfl rfl
  obtain rfl : short = "12" := by
    rw [show "12.1.1" = "12" ++ ".1.1" from rfl] at hshort
    exact (String.append_left_inj _).mp hshort.symm
  refine ⟨htime, ?_, ?_, hsignature, hreadSignature _ _ hsignature⟩
  · exact hfull "\t" "\n" (List.all_eq_true.mp rfl) (List.all_eq_true.mp rfl)
  · exact hbar " " " " (List.all_eq_true.mp rfl) (List.all_eq_true.mp rfl)

/-- A bar of one digit too many has no text to be read. -/
theorem long_bar_has_no_text :
    ¬∃ text, (⟨10 ^ digitLimit, 1, 1⟩ : Time).write? = .ok text ∧
      Time.parse text = .ok ⟨10 ^ digitLimit, 1, 1⟩ := by
  rintro ⟨text, htext, -⟩
  obtain ⟨hshort, -⟩ := Time.write?_eq_ok_iff.mp htext
  have hless := short_iff.mp hshort _ List.mem_cons_self
  rw [Int.natAbs_natCast] at hless
  exact Nat.lt_irrefl _ hless

end Cadence
