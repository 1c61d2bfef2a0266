import Cadence.Yaml.Quoted
import Cadence.Proofs.Yaml.Plain

/-!
# Quoted text is read back

Between single quotes blanks are held back until it is known what follows them. Between double quotes
everything that a line end could lose is behind a backslash.
-/

namespace Cadence.Yaml

variable {c : Char} {cs rest : List Char} {indent : Nat} {quotes : Quotes} {sofar : Content}

/-! ## Blanks in quotes -/

attribute [local simp] readQuoted

theorem replicate_append_cons (n : Nat) (c : Char) (cs : List Char) :
    List.replicate n c ++ c :: cs = List.replicate (n + 1) c ++ cs := by
  rw [List.append_cons, ← List.replicate_succ']

theorem Content.push_push (content : Content) (as bs : List Char) :
    (content.push as).push bs = content.push (as ++ bs) := by
  obtain ⟨chars, _ | ⟨first, after⟩⟩ := content <;> simp [push]

theorem Content.push_nil (content : Content) : content.push [] = content := by
  obtain ⟨chars, _ | ⟨first, after⟩⟩ := content <;> rfl

/-- The states in which text may go on. -/
inductive QuotedState.IsOpen : QuotedState → Prop where
  | text : IsOpen .text
  | blanks (reversed : List Char) : IsOpen (.blanks reversed)
  | lines (first? : Option Char) (others : List Char) : IsOpen (.lines first? others)

theorem readQuoted_spaces (k n : Nat) (cs : List Char) :
    readQuoted quotes (.blanks (List.replicate k ' ')) sofar (List.replicate n ' ' ++ cs) =
      readQuoted quotes (.blanks (List.replicate (k + n) ' ')) sofar cs := by
  induction n generalizing k with
  | zero => rfl
  | succ n ih =>
    have hbreak : isBreak ' ' = false := rfl
    have hblank : isBlank ' ' = true := rfl
    rw [List.replicate_succ, List.cons_append]
    simp only [readQuoted, hbreak, hblank, Bool.false_eq_true, if_false, if_true]
    rw [← List.replicate_succ, ih, Nat.add_assoc, Nat.add_comm 1 n]

theorem readQuoted_indent (first? : Option Char) (others : List Char) (n : Nat) (cs : List Char) :
    readQuoted quotes (.lines first? others) sofar (List.replicate n ' ' ++ cs) =
      readQuoted quotes (.lines first? others) sofar cs := by
  induction n with
  | zero => rfl
  | succ n ih =>
    have hbreak : isBreak ' ' = false := rfl
    have hblank : isBlank ' ' = true := rfl
    rw [List.replicate_succ, List.cons_append]
    simp only [readQuoted, hbreak, hblank, Bool.false_eq_true, if_false, if_true]
    exact ih

theorem readQuoted_line (h : atSeparator cs = false) :
    readQuoted quotes .text sofar ('\n' :: cs) =
      readQuoted quotes (.lines (some '\n') []) sofar cs := by
  have hbreak : isBreak '\n' = true := rfl
  simp [hbreak, h]

theorem readQuoted_moreLines (first? : Option Char) (others : List Char)
    (h : atSeparator cs = false) :
    readQuoted quotes (.lines first? others) sofar ('\n' :: cs) =
      readQuoted quotes (.lines first? (others ++ ['\n'])) sofar cs := by
  have hbreak : isBreak '\n' = true := rfl
  simp [hbreak, h]

theorem readQuoted_breaks (n : Nat) (others : List Char) (h : 0 < indent) (cs : List Char) :
    readQuoted quotes (.lines (some '\n') others) sofar
        (List.replicate n '\n' ++ (List.replicate indent ' ' ++ cs)) =
      readQuoted quotes (.lines (some '\n') (others ++ List.replicate n '\n')) sofar cs := by
  induction n generalizing others with
  | zero =>
    rw [List.replicate_zero, List.nil_append, List.append_nil]
    exact readQuoted_indent _ _ indent cs
  | succ n ih =>
    have hmore : atSeparator (List.replicate n '\n' ++ (List.replicate indent ' ' ++ cs)) = false := by
      cases n with
      | zero => exact atSeparator_newLine h cs
      | succ n => rfl
    rw [List.replicate_succ, List.cons_append, readQuoted_moreLines _ _ hmore, ih]
    simp

/-! ## Single quotes -/

theorem readQuoted_single {st : QuotedState} (hst : st.IsOpen) (hbreak : isBreak c = false)
    (hblank : isBlank c = false) (hquote : c ≠ '\'') (cs : List Char) :
    readQuoted .single st sofar (c :: cs) =
      readQuoted .single .text (sofar.push (st.pending ++ [c])) cs := by
  cases hst <;>
    simp [hbreak, hblank, hquote, Content.push_push]

theorem readQuoted_twoQuotes {st : QuotedState} (hst : st.IsOpen) (cs : List Char) :
    readQuoted .single st sofar ('\'' :: '\'' :: cs) =
      readQuoted .single .text (sofar.push (st.pending ++ ['\''])) cs := by
  have hbreak : isBreak '\'' = false := rfl
  have hblank : isBlank '\'' = false := rfl
  cases hst <;>
    simp [hbreak, hblank, Content.push_push]

theorem readQuoted_lastQuote {st : QuotedState} (hst : st.IsOpen)
    (hrest : rest.head? ≠ some '\'') :
    readQuoted .single st sofar ('\'' :: rest) = .ok ((sofar.push st.pending).done, rest) := by
  have hbreak : isBreak '\'' = false := rfl
  have hblank : isBlank '\'' = false := rfl
  cases rest with
  | nil => cases hst <;> simp [hbreak, hblank]
  | cons c cs =>
    have hc : c ≠ '\'' := by
      rintro rfl
      exact hrest rfl
    cases hst <;> simp [hbreak, hblank, hc]

namespace Held

def text : Held → List Char
  | nothing => []
  | spaces count _ => List.replicate count ' '
  | breaks count => List.replicate count '\n'

/-- Something is held back if anything is said to be. -/
def Fits : Held → Prop
  | nothing => True
  | spaces count _ => 0 < count
  | breaks count => 0 < count

/-- Written and read, blanks are what they were. -/
theorem read_write {held : Held} (quotes : Quotes) (sofar : Content) (hfits : held.Fits)
    (hindent : 0 < indent) (column : Nat) (atEnd : Bool) :
    ∃ st : QuotedState, st.IsOpen ∧ st.pending = held.text ∧ ∀ cs,
      readQuoted quotes .text sofar ((held.write indent column atEnd).1 ++ cs) =
        readQuoted quotes st sofar cs := by
  cases held with
  | nothing => exact ⟨.text, .text, rfl, fun cs => rfl⟩
  | spaces count atStart =>
    simp only [Held.write]
    split_ifs with hfold
    · obtain ⟨rfl, -⟩ := hfold
      refine ⟨.lines (some '\n') [], .lines _ _, rfl, ?_⟩
      intro cs
      change readQuoted quotes .text sofar ('\n' :: (List.replicate indent ' ' ++ cs)) = _
      rw [readQuoted_line (atSeparator_newLine hindent cs), readQuoted_indent]
    · refine ⟨.blanks (List.replicate count ' '), .blanks _, List.reverse_replicate, ?_⟩
      intro cs
      obtain ⟨n, rfl⟩ : ∃ n, count = n + 1 := ⟨count - 1, by have : 0 < count := hfits; omega⟩
      have hbreak : isBreak ' ' = false := rfl
      have hblank : isBlank ' ' = true := rfl
      have hone : [' '] = List.replicate 1 ' ' := rfl
      rw [List.replicate_succ, List.cons_append]
      simp only [readQuoted, hbreak, hblank, Bool.false_eq_true, if_false, if_true]
      rw [hone, readQuoted_spaces, Nat.add_comm]
      rfl
  | breaks count =>
    obtain ⟨n, rfl⟩ : ∃ n, count = n + 1 := ⟨count - 1, by have : 0 < count := hfits; omega⟩
    refine ⟨.lines (some '\n') (List.replicate (n + 1) '\n'), .lines _ _, ?_, ?_⟩
    · simp [QuotedState.pending, fold, Held.text]
    · intro cs
      have htext : (Held.write indent column atEnd (.breaks (n + 1))).1 ++ cs =
          '\n' :: (List.replicate (n + 1) '\n' ++ (List.replicate indent ' ' ++ cs)) := by
        simp only [Held.write, newLine, List.append_assoc, List.cons_append]
        rw [replicate_append_cons]
        rfl
      have hmore : atSeparator (List.replicate (n + 1) '\n' ++ (List.replicate indent ' ' ++ cs)) =
          false := rfl
      rw [htext, readQuoted_line hmore, readQuoted_breaks _ _ hindent, List.nil_append]

end Held

/-- Line ends do not stand next to spaces in what is left of a text. -/
theorem hasRaggedLine_append {as bs : List Char} (h : hasRaggedLine (as ++ bs) = false) :
    hasRaggedLine bs = false := by
  induction as with
  | nil => exact h
  | cons a as ih =>
    apply ih
    rw [List.cons_append] at h
    unfold hasRaggedLine at h
    split at h
    · cases h
    · cases h
    · rename_i heq
      rw [(List.cons.inj heq).2]
      exact h
    · rename_i heq
      cases heq

theorem hasRaggedLine_spaces {n : Nat} (h : 0 < n) (cs : List Char) :
    hasRaggedLine (List.replicate n ' ' ++ '\n' :: cs) = true := by
  induction n with
  | zero => cases h
  | succ n ih =>
    cases n with
    | zero => rfl
    | succ n => exact ih (Nat.succ_pos n)

theorem hasRaggedLine_breaks {n : Nat} (h : 0 < n) (cs : List Char) :
    hasRaggedLine (List.replicate n '\n' ++ ' ' :: cs) = true := by
  induction n with
  | zero => cases h
  | succ n ih =>
    cases n with
    | zero => rfl
    | succ n => exact ih (Nat.succ_pos n)

/-- A single quote is written twice. -/
def singleShown (c : Char) : List Char := if c = '\'' then ['\'', '\''] else [c]

theorem writeSingle_char (hspace : c ≠ ' ') (hline : c ≠ '\n') (held : Held) (column : Nat)
    (atStart : Bool) : writeSingle indent held column atStart (c :: cs) =
      (held.write indent column false).1 ++ (singleShown c ++ writeSingle indent .nothing
        ((held.write indent column false).2 + (singleShown c).length) false cs) := by
  cases held <;> simp [writeSingle, singleShown, hspace, hline]

theorem readQuoted_singleShown {st : QuotedState} (hst : st.IsOpen) (hbreak : isBreak c = false)
    (hblank : isBlank c = false) (cs : List Char) :
    readQuoted .single st sofar (singleShown c ++ cs) =
      readQuoted .single .text (sofar.push (st.pending ++ [c])) cs := by
  unfold singleShown
  split_ifs with hquote
  · subst hquote
    exact readQuoted_twoQuotes hst cs
  · exact readQuoted_single hst hbreak hblank hquote cs

theorem readQuoted_writeSingle (hindent : 0 < indent) (hclean : IsClean cs) (held : Held)
    (hfits : held.Fits) (hragged : hasRaggedLine (held.text ++ cs) = false) (column : Nat)
    (atStart : Bool) (sofar : Content) (hrest : rest.head? ≠ some '\'') :
    readQuoted .single .text sofar (writeSingle indent held column atStart cs ++ rest) =
      .ok ((sofar.push (held.text ++ cs)).done, rest) := by
  -- The reader has not met what is held back. Spaces and line ends are never held back together,
  -- since no line of the text is ragged.
  induction cs generalizing held column atStart sofar with
  | nil =>
    obtain ⟨st, hst, hpending, hread⟩ := Held.read_write .single sofar hfits hindent column true
    rw [writeSingle, List.append_assoc, hread, List.singleton_append,
      readQuoted_lastQuote hst hrest, hpending, List.append_nil]
  | cons c cs ih =>
    by_cases hspace : c = ' '
    · subst hspace
      cases held with
      | nothing => exact ih hclean.tail (.spaces 1 atStart) Nat.one_pos hragged column false sofar
      | spaces count first =>
        rw [Held.text, replicate_append_cons] at hragged ⊢
        have h := ih hclean.tail (.spaces (count + 1) first) (Nat.succ_pos count) hragged column
          false sofar
        simpa [writeSingle, Held.text] using h
      | breaks count =>
        rw [Held.text, hasRaggedLine_breaks hfits] at hragged
        cases hragged
    · by_cases hline : c = '\n'
      · subst hline
        cases held with
        | nothing => exact ih hclean.tail (.breaks 1) Nat.one_pos hragged column false sofar
        | spaces count first =>
          rw [Held.text, hasRaggedLine_spaces hfits] at hragged
          cases hragged
        | breaks count =>
          rw [Held.text, replicate_append_cons] at hragged ⊢
          have h := ih hclean.tail (.breaks (count + 1)) (Nat.succ_pos count) hragged column false
            sofar
          simpa [writeSingle, Held.text] using h
      · obtain ⟨st, hst, hpending, hread⟩ := Held.read_write .single sofar hfits hindent column
          false
        have hlater : hasRaggedLine cs = false := by
          rw [List.append_cons] at hragged
          exact hasRaggedLine_append hragged
        rw [writeSingle_char hspace hline, List.append_assoc, hread, List.append_assoc,
          readQuoted_singleShown hst (isBreak_of_clean hclean.head hline)
            (isBlank_of_clean hclean.head hspace),
          ih hclean.tail .nothing trivial hlater, hpending, Content.push_push]
        simp [Held.text]

/-! ## Escapes -/

theorem readQuoted_backslash {st : QuotedState} (hst : st.IsOpen) (cs : List Char) :
    readQuoted .double st sofar ('\\' :: cs) =
      readQuoted .double .escape (sofar.push st.pending) cs := by
  have hbreak : isBreak '\\' = false := rfl
  have hblank : isBlank '\\' = false := rfl
  cases hst <;> simp [hbreak, hblank]

/-- The number that hexadecimal digits add to. -/
def hexFold (n : Nat) (cs : List Char) : Nat :=
  cs.foldl (fun n c => 16 * n + (hexValue? c).getD 0) n

theorem readQuoted_code (hall : ∀ d ∈ c :: cs, (hexValue? d).isSome = true) (n : Nat)
    (rest : List Char) :
    readQuoted quotes (.code (c :: cs).length n) sofar (c :: cs ++ rest) =
      match sofar.pushCode (hexFold n (c :: cs)) with
      | .error p => .error p
      | .ok sofar => readQuoted quotes .text sofar rest := by
  induction cs generalizing c n with
  | nil =>
    obtain ⟨d, hd⟩ := Option.isSome_iff_exists.mp (hall c List.mem_cons_self)
    have hfold : hexFold n [c] = 16 * n + d := by
      simp only [hexFold, List.foldl_cons, List.foldl_nil, hd, Option.getD_some]
    rw [hfold, List.length_singleton, List.cons_append, List.nil_append, readQuoted, hd]
    cases hcode : sofar.pushCode (16 * n + d) <;> simp only [hcode, le_refl, if_true]
  | cons e cs ih =>
    obtain ⟨d, hd⟩ := Option.isSome_iff_exists.mp (hall c List.mem_cons_self)
    have hmore : ¬(e :: cs).length + 1 ≤ 1 := by simp
    have h := ih (fun f hf => hall f (List.mem_cons_of_mem _ hf)) (16 * n + d)
    rw [List.length_cons, List.cons_append, readQuoted, hd]
    dsimp only
    rw [if_neg hmore, Nat.add_sub_cancel, h]
    simp only [hexFold, List.foldl_cons, hd, Option.getD_some]

theorem hexValue?_digit : ∀ d < 16, hexValue? (Nat.digitChar d).toUpper = some d := by decide

/-- The digits of a number in base sixteen add up to it, also with zeros before them. -/
theorem hexFold_digits (n : Nat) :
    hexFold 0 ((Nat.toDigits 16 n).map Char.toUpper) = n ∧
      ∀ c ∈ (Nat.toDigits 16 n).map Char.toUpper, (hexValue? c).isSome = true := by
  induction n using Nat.strong_induction_on with
  | _ n ih =>
    have hlast := hexValue?_digit (n % 16) (Nat.mod_lt n (by decide))
    rw [Nat.toDigits_eq_if (by decide)]
    split_ifs with hsmall
    · rw [Nat.mod_eq_of_lt hsmall] at hlast
      constructor
      · simp [hexFold, hlast]
      · intro c hc
        obtain rfl := List.mem_singleton.mp hc
        rw [hlast]
        rfl
    · obtain ⟨hvalue, hall⟩ := ih (n / 16) (by omega)
      rw [List.map_append, List.map_singleton]
      constructor
      · unfold hexFold at *
        rw [List.foldl_append, hvalue, List.foldl_cons, List.foldl_nil, hlast, Option.getD_some]
        omega
      · intro c hc
        rcases List.mem_append.mp hc with h | h
        · exact hall c h
        · obtain rfl := List.mem_singleton.mp h
          rw [hlast]
          rfl

theorem hexFold_hex (width n : Nat) :
    hexFold 0 ((Text.hex width n).map Char.toUpper) = n ∧
      ∀ c ∈ (Text.hex width n).map Char.toUpper, (hexValue? c).isSome = true := by
  obtain ⟨hvalue, hall⟩ := hexFold_digits n
  have hzeros : ∀ k, hexFold 0 ((List.replicate k '0').map Char.toUpper) = 0 := by
    intro k
    induction k with
    | zero => rfl
    | succ k ih => exact ih
  unfold Text.hex
  rw [List.map_append]
  constructor
  · unfold hexFold at *
    rw [List.foldl_append, hzeros, hvalue]
  · intro c hc
    rcases List.mem_append.mp hc with h | h
    · obtain ⟨d, hd, rfl⟩ := List.mem_map.mp h
      rw [List.eq_of_mem_replicate hd]
      rfl
    · exact hall c h

theorem length_hex {width n : Nat} (hwidth : 0 < width) (h : n < 16 ^ width) :
    (Text.hex width n).length = width := by
  have hle := (Nat.length_toDigits_le_iff (by decide) hwidth).mpr h
  unfold Text.hex
  rw [List.length_append, List.length_replicate]
  omega

theorem pushCode_toNat (content : Content) (c : Char) :
    content.pushCode c.toNat = .ok (content.push [c]) := by
  have h : c.toNat.isValidChar := c.valid
  unfold Content.pushCode
  rw [dif_pos h]
  rfl

theorem readQuoted_hex {letter : Char} {width : Nat} (hletter : escapes.lookup letter = none)
    (hlength : codeLength? letter = some width) (hwidth : 0 < width) (h : c.toNat < 16 ^ width)
    (rest : List Char) :
    readQuoted quotes .escape sofar
        (letter :: ((Text.hex width c.toNat).map Char.toUpper ++ rest)) =
      readQuoted quotes .text (sofar.push [c]) rest := by
  obtain ⟨hvalue, hall⟩ := hexFold_hex width c.toNat
  have hlen : ((Text.hex width c.toNat).map Char.toUpper).length = width := by
    rw [List.length_map, length_hex hwidth h]
  rw [readQuoted, hletter, hlength]
  dsimp only
  cases hds : (Text.hex width c.toNat).map Char.toUpper with
  | nil =>
    rw [hds] at hlen
    exact absurd hlen (Nat.ne_of_lt hwidth)
  | cons d ds =>
    rw [hds] at hlen hvalue hall
    rw [← hlen, readQuoted_code hall, hvalue, pushCode_toNat]

theorem escapes_undo : ∀ p ∈ escapeLetters, escapes.lookup p.2 = some p.1 := by decide

/-- An escape stands for its character. -/
theorem readQuoted_escapeOf {st : QuotedState} (hst : st.IsOpen) (c : Char) (rest : List Char) :
    readQuoted .double st sofar (escapeOf c ++ rest) =
      readQuoted .double .text (sofar.push (st.pending ++ [c])) rest := by
  rw [← Content.push_push]
  unfold escapeOf
  cases hletter : escapeLetters.lookup c with
  | some letter =>
    have hmem : (c, letter) ∈ escapeLetters := by
      obtain ⟨as, bs, hsplit, -⟩ := List.lookup_eq_some_iff.mp hletter
      rw [hsplit]
      simp
    have hundo := escapes_undo _ hmem
    dsimp only at hundo ⊢
    rw [List.cons_append, readQuoted_backslash hst, List.singleton_append, readQuoted, hundo]
  | none =>
    have hmax : c.toNat < 16 ^ 8 := by
      have h : c.toNat.isValidChar := c.valid
      unfold Nat.isValidChar at h
      omega
    dsimp only
    split_ifs with hbyte hword
    · rw [List.cons_append, readQuoted_backslash hst, List.cons_append]
      exact readQuoted_hex rfl rfl (by decide) (by omega) rest
    · rw [List.cons_append, readQuoted_backslash hst, List.cons_append]
      exact readQuoted_hex rfl rfl (by decide) (by omega) rest
    · rw [List.cons_append, readQuoted_backslash hst, List.cons_append]
      exact readQuoted_hex rfl rfl (by decide) hmax rest

/-! ## Double quotes -/

theorem readQuoted_lastDouble {st : QuotedState} (hst : st.IsOpen) (rest : List Char) :
    readQuoted .double st sofar ('\x22' :: rest) = .ok ((sofar.push st.pending).done, rest) := by
  have hbreak : isBreak '\x22' = false := rfl
  have hblank : isBlank '\x22' = false := rfl
  cases hst <;> simp [hbreak, hblank]

theorem readQuoted_foldLine {st : QuotedState} (hst : st.IsOpen) (hindent : 0 < indent)
    (cs : List Char) :
    readQuoted .double st sofar ('\\' :: (newLine indent ++ cs)) =
      readQuoted .double (.lines none []) (sofar.push st.pending) cs := by
  have hletter : escapes.lookup '\n' = none := rfl
  have hcode : codeLength? '\n' = none := rfl
  have hbreak : isBreak '\n' = true := rfl
  unfold newLine
  rw [readQuoted_backslash hst, List.cons_append, readQuoted, hletter, hcode]
  dsimp only
  rw [if_pos hbreak, atSeparator_newLine hindent, if_neg Bool.false_ne_true, readQuoted_indent]

/-- Where the reader may stand while a text is still to be read. After an escaped line end a space
would be lost, unless it is escaped too. -/
inductive QuotedState.Continues : QuotedState → Nat → List Char → Prop where
  | text {column : Nat} {cs : List Char} : Continues .text column cs
  | blanks {reversed : List Char} {column : Nat} {cs : List Char} :
    Continues (.blanks reversed) column cs
  | line {column : Nat} {cs : List Char} (h : cs.head? ≠ some ' ') :
    Continues (.lines none []) column cs
  | escape {column : Nat} {cs : List Char} (h : column ≤ lineWidth) :
    Continues .escape column (' ' :: cs)

theorem readQuoted_foldBefore {st : QuotedState} (sofar : Content) (hst : st.IsOpen)
    (hindent : 0 < indent) (hwidth : indent < lineWidth) (c : Char) (cs : List Char) :
    ∃ st' : QuotedState, st'.Continues (foldBefore indent (.char c)).2 (c :: cs) ∧
      st'.pending = [] ∧
      ∀ more, readQuoted .double st sofar ((foldBefore indent (.char c)).1 ++ more) =
        readQuoted .double st' (sofar.push st.pending) more := by
  unfold foldBefore
  split_ifs with hspace
  · obtain rfl := Point.char.inj hspace
    refine ⟨.escape, .escape hwidth, rfl, ?_⟩
    intro more
    have hopen : (QuotedState.lines none []).IsOpen := .lines none []
    rw [List.append_assoc, List.cons_append, readQuoted_foldLine hst hindent,
      List.singleton_append, readQuoted_backslash hopen]
    exact congrArg (readQuoted .double .escape · more) (Content.push_nil _)
  · refine ⟨.lines none [], .line (by simpa using hspace), rfl, ?_⟩
    intro more
    rw [List.cons_append, readQuoted_foldLine hst hindent]

theorem readQuoted_itself {st : QuotedState} (sofar : Content) {column : Nat}
    (hst : st.Continues column (c :: cs)) (hitself : isEscaped c = false) :
    ∃ (st' : QuotedState) (given : List Char), (∀ column cs, st'.Continues column cs) ∧
      given ++ st'.pending = st.pending ++ [c] ∧ ∀ more,
        readQuoted .double st sofar (c :: more) = readQuoted .double st' (sofar.push given) more := by
  unfold isEscaped at hitself
  simp only [Bool.or_eq_false_iff, beq_eq_false_iff_ne, ne_eq] at hitself
  obtain ⟨⟨⟨hclean, hline⟩, hquote⟩, hslash⟩ := hitself
  have hbreak := isBreak_of_clean hclean hline
  by_cases hspace : c = ' '
  · subst hspace
    have hblank : isBlank ' ' = true := rfl
    cases hst with
    | text =>
      refine ⟨.blanks [' '], [], fun _ _ => .blanks, rfl, ?_⟩
      intro more
      simp [hbreak, hblank, Content.push_nil]
    | @blanks reversed =>
      refine ⟨.blanks (' ' :: reversed), [], fun _ _ => .blanks, ?_, ?_⟩
      · simp [QuotedState.pending]
      · intro more
        simp [hbreak, hblank, Content.push_nil]
    | line h => exact absurd rfl h
    | escape h =>
      refine ⟨.text, [' '], fun _ _ => .text, rfl, ?_⟩
      intro more
      have hletter : escapes.lookup ' ' = some ' ' := rfl
      simp [hletter]
  · have hblank := isBlank_of_clean hclean hspace
    refine ⟨.text, st.pending ++ [c], fun _ _ => .text, by simp [QuotedState.pending], ?_⟩
    intro more
    cases hst with
    | escape h => exact absurd rfl hspace
    | _ => simp [hbreak, hblank, hquote, hslash, Content.push_push]

theorem QuotedState.Continues.isOpen {st : QuotedState} {column : Nat} (h : st.Continues column cs)
    (hdeep : cs.head? = some ' ' → lineWidth < column) : st.IsOpen := by
  cases h with
  | text => exact .text
  | blanks => exact .blanks _
  | line => exact .lines none []
  | escape hle => exact absurd (hdeep rfl) (Nat.not_lt.mpr hle)

theorem readQuoted_writeDouble (hindent : 0 < indent) (hwidth : indent < lineWidth)
    {st : QuotedState} (atStart afterEscape : Bool) {column : Nat} (hst : st.Continues column cs)
    (sofar : Content) (rest : List Char) :
    readQuoted .double st sofar
        (writeDouble indent atStart afterEscape column (cs.map .char) ++ rest) =
      .ok ((sofar.push (st.pending ++ cs)).done, rest) := by
  -- The state is where the reader stands after what was written for the characters before. A line
  -- that was ended in between is dropped already.
  induction cs generalizing st atStart afterEscape column sofar with
  | nil =>
    have hopen := hst.isOpen (by simp)
    rw [List.map_nil, writeDouble, List.singleton_append, readQuoted_lastDouble hopen, List.append_nil]
  | cons c cs ih =>
    have hpush : ∀ given : List Char, given = st.pending ++ [c] →
        (sofar.push given).push cs = sofar.push (st.pending ++ c :: cs) := by
      rintro given rfl
      rw [Content.push_push, List.append_assoc, List.singleton_append]
    rw [List.map_cons, writeDouble, escape?]
    by_cases hescaped : isEscaped c
    · rw [if_pos hescaped]
      have hopen : st.IsOpen := by
        apply hst.isOpen
        intro hspace
        obtain rfl := Option.some.inj hspace
        cases hescaped
      have hrest : ∀ atStart afterEscape column,
          readQuoted .double .text (sofar.push (st.pending ++ [c]))
            (writeDouble indent atStart afterEscape column (cs.map .char) ++ rest) =
          .ok ((sofar.push (st.pending ++ c :: cs)).done, rest) := by
        intro atStart afterEscape column
        rw [ih atStart afterEscape .text, ← hpush _ rfl]
        rfl
      cases cs with
      | nil =>
        simp only [List.map_nil]
        rw [List.append_assoc, readQuoted_escapeOf hopen]
        exact hrest _ _ _
      | cons next more =>
        simp only [List.map_cons]
        split_ifs with hfold
        · obtain ⟨st', hst', hnone, hread⟩ := readQuoted_foldBefore
            (sofar.push (st.pending ++ [c])) .text hindent hwidth next more
          have hnothing : QuotedState.text.pending = [] := rfl
          rw [List.append_assoc, List.append_assoc, readQuoted_escapeOf hopen, hread,
            ← List.map_cons, ih false true hst', hnone, hnothing, Content.push_nil, List.nil_append,
            hpush _ rfl]
        · rw [List.append_assoc, readQuoted_escapeOf hopen]
          exact hrest _ _ _
    · rw [if_neg hescaped]
      dsimp only [Point.shown]
      split_ifs with hfold
      · obtain ⟨-, -, -, hwide⟩ := hfold
        obtain ⟨st₁, hst₁, hnone, hread₁⟩ := readQuoted_foldBefore sofar
          (hst.isOpen fun _ => hwide) hindent hwidth c cs
        obtain ⟨st₂, given, hst₂, hgiven, hread₂⟩ := readQuoted_itself
          (sofar.push st.pending) hst₁ (by simpa using hescaped)
        rw [List.append_assoc, List.append_assoc, List.singleton_append, hread₁, hread₂,
          ih false false (hst₂ _ _), ← Content.push_push, Content.push_push _ given, hgiven, hnone,
          List.nil_append, ← hpush _ rfl, ← Content.push_push]
      · obtain ⟨st', given, hst', hgiven, hread⟩ := readQuoted_itself sofar hst
          (by simpa using hescaped)
        rw [List.append_assoc, List.singleton_append, hread, ih false false (hst' _ _),
          ← Content.push_push, Content.push_push _ given, hgiven, hpush _ rfl]

/-! ## What is written in quotes -/

theorem isClean_held (held : Held) (indent column : Nat) (atEnd : Bool) :
    IsClean (held.write indent column atEnd).1 := by
  cases held with
  | nothing => exact isClean_nil
  | spaces count atStart =>
    rw [Held.write]
    split_ifs
    · exact isClean_newLine indent
    · exact isClean_spaces count
  | breaks count =>
    apply IsClean.append _ (isClean_newLine indent)
    intro c hc
    rw [List.eq_of_mem_replicate hc]
    rfl

theorem isClean_singleShown (h : needsEscape c = false) : IsClean (singleShown c) := by
  unfold singleShown
  split_ifs
  · exact isClean_cons rfl (isClean_cons rfl isClean_nil)
  · exact isClean_cons h isClean_nil

theorem isClean_writeSingle (h : IsClean cs) (held : Held) (column : Nat) (atStart : Bool) :
    IsClean (writeSingle indent held column atStart cs) := by
  induction cs generalizing held column atStart with
  | nil => exact (isClean_held held indent column true).append (isClean_cons rfl isClean_nil)
  | cons c cs ih =>
    by_cases hspace : c = ' '
    · subst hspace
      cases held with
      | spaces count first => exact ih h.tail _ _ _
      | _ =>
        simp only [writeSingle, if_true]
        exact (isClean_held _ indent column false).append (ih h.tail _ _ _)
    · by_cases hline : c = '\n'
      · subst hline
        cases held with
        | breaks count => exact ih h.tail _ _ _
        | _ =>
          simp only [writeSingle, hspace, if_false, if_true]
          exact (isClean_held _ indent column false).append (ih h.tail _ _ _)
      · rw [writeSingle_char hspace hline]
        exact (isClean_held held indent column false).append
          ((isClean_singleShown h.head).append (ih h.tail _ _ _))

theorem needsEscape_of_hexValue (h : (hexValue? c).isSome = true) : needsEscape c = false := by
  have hrange : 0x20 ≤ c.toNat ∧ c.toNat ≤ 0x7e := by
    unfold hexValue? at h
    simp only [Char.le_def, UInt32.le_iff_toNat_le] at h
    split_ifs at h with hdigit hlower hupper
    · change 48 ≤ c.toNat ∧ c.toNat ≤ 57 at hdigit
      omega
    · change 97 ≤ c.toNat ∧ c.toNat ≤ 102 at hlower
      omega
    · change 65 ≤ c.toNat ∧ c.toNat ≤ 70 at hupper
      omega
    · cases h
  simp [needsEscape, hrange.1, hrange.2]

theorem isClean_escapeOf (c : Char) : IsClean (escapeOf c) := by
  have hcode : ∀ letter width, needsEscape letter = false →
      IsClean ('\\' :: letter :: (Text.hex width c.toNat).map Char.toUpper) := by
    intro letter width hletter
    apply isClean_cons rfl
    apply isClean_cons hletter
    exact fun d hd => needsEscape_of_hexValue ((hexFold_hex width c.toNat).2 d hd)
  unfold escapeOf
  cases hletter : escapeLetters.lookup c with
  | some letter =>
    have hclean : ∀ p ∈ escapeLetters, needsEscape p.2 = false := by decide
    obtain ⟨as, bs, hsplit, -⟩ := List.lookup_eq_some_iff.mp hletter
    have hmem : (c, letter) ∈ escapeLetters := by
      rw [hsplit]
      simp
    exact isClean_cons rfl (isClean_cons (hclean _ hmem) isClean_nil)
  | none =>
    dsimp only
    split_ifs
    · exact hcode 'x' 2 rfl
    · exact hcode 'u' 4 rfl
    · exact hcode 'U' 8 rfl

theorem isClean_foldBefore (indent : Nat) (p : Point) : IsClean (foldBefore indent p).1 := by
  unfold foldBefore
  split_ifs
  · exact (isClean_cons rfl (isClean_newLine indent)).append
      (isClean_cons rfl isClean_nil)
  · exact isClean_cons rfl (isClean_newLine indent)

theorem isClean_writeDouble (atStart afterEscape : Bool) (column : Nat) (cs : List Char) :
    IsClean (writeDouble indent atStart afterEscape column (cs.map .char)) := by
  induction cs generalizing atStart afterEscape column with
  | nil => exact isClean_cons rfl isClean_nil
  | cons c cs ih =>
    have hitself : ¬isEscaped c = true → needsEscape c = false := by
      intro h
      simp only [isEscaped, Bool.not_eq_true, Bool.or_eq_false_iff] at h
      exact h.1.1.1
    rw [List.map_cons, writeDouble, escape?]
    by_cases hescaped : isEscaped c
    · rw [if_pos hescaped]
      dsimp only
      split
      · exact (isClean_escapeOf c).append (ih _ _ _)
      · split_ifs
        · exact ((isClean_escapeOf c).append (isClean_foldBefore indent _)).append (ih _ _ _)
        · exact (isClean_escapeOf c).append (ih _ _ _)
    · rw [if_neg hescaped]
      have hshown : IsClean (Point.char c).shown := isClean_cons (hitself hescaped) isClean_nil
      dsimp only
      split_ifs
      · exact ((isClean_foldBefore indent _).append hshown).append (ih _ _ _)
      · exact hshown.append (ih _ _ _)

end Cadence.Yaml
