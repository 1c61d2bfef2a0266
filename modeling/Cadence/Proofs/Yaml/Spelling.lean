import Mathlib.Data.Nat.Digits.Defs
import Cadence.Yaml.Writer

/-!
# What numbers spell

A number is written in decimal without leading zeros. Without quotes this reads as that number and as
nothing else, as long as it has not too many digits.
-/

namespace Cadence.Text

theorem isDigit_of_mem_digits {n : Nat} {c : Char} (h : c ∈ digits n) : c.isDigit = true :=
  Nat.isDigit_of_mem_toDigits (by decide) (by decide) h

theorem digits_ne_nil (n : Nat) : digits n ≠ [] := Nat.toDigits_ne_nil

theorem not_mem_digits {c : Char} (h : c.isDigit = false) (n : Nat) : c ∉ digits n := by
  intro hc
  rw [isDigit_of_mem_digits hc] at h
  cases h

theorem digits_ne_cons {c : Char} (h : c.isDigit = false) (n : Nat) (cs : List Char) :
    digits n ≠ c :: cs := by
  intro hdigits
  apply not_mem_digits h n
  rw [hdigits]
  exact List.mem_cons_self

theorem head?_digits {n : Nat} (hn : 0 < n) : (digits n).head? ≠ some '0' := by
  have hone : ∀ d < 10, 0 < d → [Nat.digitChar d].head? ≠ some '0' := by decide
  unfold digits
  induction n using Nat.strong_induction_on with
  | _ n ih =>
    rw [Nat.toDigits_eq_if (by decide)]
    split_ifs with hten
    · exact hone n hten hn
    · obtain ⟨c, cs, hcs⟩ := List.exists_cons_of_ne_nil (Nat.toDigits_ne_nil (n := n / 10) (b := 10))
      have hhead := ih (n / 10) (by omega) (by omega)
      rw [hcs] at hhead ⊢
      exact hhead

theorem numeral_head (n : Int) :
    ∃ c cs, numeral n = c :: cs ∧ (c.isDigit || c == '-') = true := by
  cases n with
  | ofNat n =>
    obtain ⟨c, cs, hcs⟩ := List.exists_cons_of_ne_nil (digits_ne_nil n)
    have hc : c ∈ digits n := by rw [hcs]; exact List.mem_cons_self
    refine ⟨c, cs, hcs, ?_⟩
    rw [isDigit_of_mem_digits hc]
    rfl
  | negSucc n => exact ⟨'-', digits (n + 1), rfl, rfl⟩

theorem isDigit_or_minus_of_mem_numeral {n : Int} {c : Char} (h : c ∈ numeral n) :
    c.isDigit = true ∨ c = '-' := by
  cases n with
  | ofNat n => exact Or.inl (isDigit_of_mem_digits h)
  | negSucc n =>
    rcases List.mem_cons.mp h with rfl | h
    · exact Or.inr rfl
    · exact Or.inl (isDigit_of_mem_digits h)

theorem not_mem_numeral {c : Char} (hdigit : c.isDigit = false) (hminus : c ≠ '-') (n : Int) :
    c ∉ numeral n := by
  intro hc
  rcases isDigit_or_minus_of_mem_numeral hc with h | rfl
  · rw [h] at hdigit
    cases hdigit
  · exact hminus rfl

end Cadence.Text

namespace Cadence.Yaml.Meaning

open Text

theorem filter_digits (n : Nat) : (digits n).filter (· != '_') = digits n := by
  rw [List.filter_eq_self]
  intro c hc
  rw [bne_iff_ne]
  rintro rfl
  exact not_mem_digits rfl n hc

theorem inBase_digits (n : Nat) : inBase 10 (digits n) = n := by
  have hfold : ∀ (cs : List Char) (a : Nat), (∀ c ∈ cs, c.isDigit = true) →
      cs.foldl (fun n c => 10 * n + inBase.hexDigit c) a = Nat.ofDigitChars 10 cs a := by
    intro cs
    induction cs with
    | nil => intro a _; rfl
    | cons c cs ih =>
      intro a h
      have hc : inBase.hexDigit c = c.toNat - '0'.toNat := by
        unfold inBase.hexDigit
        rw [if_pos (h c List.mem_cons_self)]
        rfl
      rw [List.foldl_cons, hc, Nat.ofDigitChars_cons]
      exact ih _ fun d hd => h d (List.mem_cons_of_mem _ hd)
  unfold inBase
  rw [filter_digits, hfold _ 0 fun c hc => isDigit_of_mem_digits hc]
  exact Nat.ofDigitChars_toDigits (by decide) (by decide)

theorem isNumber_digits (n : Nat) : isNumber (digits n) = true := by
  obtain ⟨c, cs, hcs⟩ := List.exists_cons_of_ne_nil (digits_ne_nil n)
  have hall : ∀ d ∈ c :: cs, d.isDigit = true := by
    rw [← hcs]
    intro d hd
    exact isDigit_of_mem_digits hd
  rw [hcs]
  change (c.isDigit && spells Char.isDigit cs) = true
  unfold spells
  rw [hall c List.mem_cons_self, Bool.true_and, List.all_eq_true]
  intro d hd
  rw [hall d (List.mem_cons_of_mem _ hd), Bool.true_or]

theorem unsign_digits (n : Nat) : unsign (digits n) = (false, digits n) := by
  rw [unsign]
  · exact digits_ne_cons rfl n
  · exact digits_ne_cons rfl n

/-- The digits of a number, with a sign before them or without one, are that number. -/
theorem int?_digits {cs : List Char} {negative : Bool} {n : Nat} (hn : 0 < n)
    (hshort : (digits n).length ≤ digitLimit) (h : unsign cs = (negative, digits n)) :
    int? cs = some (int (signed negative n)) := by
  have hhead := head?_digits hn
  have hsplit : splitAt ':' (digits n) = [digits n] := splitAt_of_not_mem (not_mem_digits rfl n)
  unfold int?
  rw [h]
  dsimp only
  split
  · rename_i hd
    exact absurd hd (digits_ne_nil n)
  · rename_i hd
    rw [hd] at hhead
    exact absurd rfl hhead
  · rename_i hd
    rw [hd] at hhead
    exact absurd rfl hhead
  · rename_i hd
    rw [hd] at hhead
    exact absurd rfl hhead
  · rename_i hd
    rw [hd] at hhead
    exact absurd rfl hhead
  · rw [hsplit]
    simp [isNumber_digits, filter_digits, inBase_digits, Nat.not_lt.mpr hshort]

theorem int?_numeral {n : Int} (h : isShort n = true) : int? (numeral n) = some (int n) := by
  unfold isShort at h
  rw [decide_eq_true_eq] at h
  cases n with
  | ofNat n =>
    rcases Nat.eq_zero_or_pos n with rfl | hn
    · rfl
    · exact int?_digits hn h (unsign_digits n)
  | negSucc n =>
    have hunsign : unsign (numeral (Int.negSucc n)) = (true, digits (n + 1)) := rfl
    exact int?_digits (Nat.succ_pos n) h hunsign

theorem float?_digits {cs : List Char} {negative : Bool} {n : Nat}
    (h : unsign cs = (negative, digits n)) : float? cs = none := by
  have hsplit : splitAt '.' (digits n) = [digits n] := splitAt_of_not_mem (not_mem_digits rfl n)
  obtain ⟨c, ds, hds⟩ := List.exists_cons_of_ne_nil (digits_ne_nil n)
  unfold float?
  rw [h]
  dsimp only
  rw [hsplit, hds]

theorem float?_numeral (n : Int) : float? (numeral n) = none := by
  cases n with
  | ofNat n => exact float?_digits (unsign_digits n)
  | negSucc n => exact float?_digits (n := n + 1) rfl

/-- What begins like a number is no word and no mark. -/
theorem ofPlain_of_head {c : Char} {cs : List Char} (hc : (c.isDigit || c == '-') = true) :
    ofPlain (c :: cs) =
      (((float? (c :: cs)).or (int? (c :: cs))).or (date? 2 (c :: cs))).getD text := by
  have hword : ∀ words : List String,
      (∀ w ∈ words, w.toList.head?.any (fun c => c.isDigit || c == '-') = false) →
        words.contains (String.ofList (c :: cs)) = false := by
    intro words hwords
    rw [Bool.eq_false_iff, ne_eq, List.contains_iff_mem]
    intro hmem
    have hhead := hwords _ hmem
    rw [String.toList_ofList, List.head?_cons, Option.any_some, hc] at hhead
    cases hhead
  have hmark : ∀ marks : List Char, marks.head?.any (fun c => c.isDigit || c == '-') = false →
      c :: cs ≠ marks := by
    rintro marks hmarks rfl
    rw [List.head?_cons, Option.any_some, hc] at hmarks
    cases hmarks
  unfold ofPlain
  simp only [hword nullWords (by decide), hword trueWords (by decide), hword falseWords (by decide),
    hmark ['<', '<'] rfl, hmark ['='] rfl, Bool.false_eq_true, if_false]

/-- A number without quotes is that number. -/
theorem ofPlain_numeral {n : Int} (h : isShort n = true) : ofPlain (numeral n) = int n := by
  obtain ⟨c, cs, hcs, hc⟩ := numeral_head n
  have hfloat := float?_numeral n
  have hint := int?_numeral h
  rw [hcs] at hfloat hint ⊢
  rw [ofPlain_of_head hc, hfloat, hint, Option.none_or, Option.some_or, Option.getD_some]

/-! ## Base sixteen -/

theorem isHex_ne {c : Char} (h : isHex c = true) : c ≠ '.' ∧ c ≠ '_' := by
  constructor <;> rintro rfl <;> cases h

/-- Digits in base sixteen are a number, however many there are. -/
theorem ofPlain_hex {ds : List Char} (hsome : ds ≠ []) (hds : ∀ d ∈ ds, isHex d = true) :
    ofPlain ('0' :: 'x' :: ds) = .int (inBase 16 ds : Nat) := by
  have hdot : '.' ∉ '0' :: 'x' :: ds := by
    intro hmem
    have hin : '.' ∈ ds := by simpa using hmem
    exact (isHex_ne (hds _ hin)).1 rfl
  have hfloat : float? ('0' :: 'x' :: ds) = none := by
    have hunsign : unsign ('0' :: 'x' :: ds) = (false, '0' :: 'x' :: ds) := rfl
    unfold float?
    rw [hunsign]
    dsimp only
    rw [Text.splitAt_of_not_mem hdot]
  have hspells : spells isHex ds = true := by
    rw [spells, List.all_eq_true]
    intro d hd
    rw [hds d hd, Bool.true_or]
  have hnumber : ds.all (· == '_') = false := by
    obtain ⟨d, others, rfl⟩ := List.exists_cons_of_ne_nil hsome
    have hne := (isHex_ne (hds d List.mem_cons_self)).2
    simp [hne]
  have hint : int? ('0' :: 'x' :: ds) = some (.int (inBase 16 ds : Nat)) := by
    have hbased : based false 16 ds = .int (inBase 16 ds : Nat) := by
      rw [based, hnumber]
      rfl
    show (if ds ≠ [] ∧ spells isHex ds then some (based false 16 ds) else none) = _
    rw [if_pos ⟨hsome, hspells⟩, hbased]
  rw [ofPlain_of_head (by decide), hfloat, hint]
  rfl

theorem inBase_power (base n : Nat) : inBase base ('1' :: List.replicate n '0') = base ^ n := by
  have hfold (a : Nat) : (List.replicate n '0').foldl
      (fun n c => base * n + inBase.hexDigit c) a = base ^ n * a := by
    induction n generalizing a with
    | zero => simp
    | succ n ih =>
      have hzero : inBase.hexDigit '0' = 0 := rfl
      rw [List.replicate_succ, List.foldl_cons, ih, hzero, Nat.add_zero, Nat.pow_succ, Nat.mul_assoc]
  have hone : inBase.hexDigit '1' = 1 := rfl
  have hplain : ('1' :: List.replicate n '0').filter (· != '_') = '1' :: List.replicate n '0' := by
    simp
  rw [inBase, hplain, List.foldl_cons, hfold, hone, Nat.mul_zero, Nat.zero_add, Nat.mul_one]

end Cadence.Yaml.Meaning

namespace Cadence

/-! ## Numbers that can be written -/

theorem isShort_iff (n : Int) :
    Yaml.isShort n = true ↔ n.natAbs < 10 ^ Yaml.Meaning.digitLimit := by
  unfold Yaml.isShort Text.digits
  rw [decide_eq_true_iff]
  exact Nat.length_toDigits_le_iff (by decide) (by decide)

theorem isShort_of_le {m n : Nat} (h : m ≤ n) (hn : Yaml.isShort n = true) :
    Yaml.isShort m = true := by
  rw [isShort_iff, Int.natAbs_natCast] at hn ⊢
  exact lt_of_le_of_lt h hn

theorem tooLong?_eq_none_iff {ns : List Int} :
    Yaml.tooLong? ns = none ↔ ∀ n ∈ ns, Yaml.isShort n = true := by
  simp [Yaml.tooLong?]

theorem exists_tooLong {ns : List Int} (h : ¬∀ n ∈ ns, Yaml.isShort n = true) :
    ∃ e, Yaml.tooLong? ns = some e :=
  Option.ne_none_iff_exists'.mp fun hnone => h (tooLong?_eq_none_iff.mp hnone)

end Cadence
