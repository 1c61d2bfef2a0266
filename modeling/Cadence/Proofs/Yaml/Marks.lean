import Cadence.Proofs.Yaml.Steps

/-!
# Marks, keys and scalars

What one token of written text adds. A dash or a key may begin a collection; a scalar changes nothing
but the place in the text and whether a key can begin.
-/

namespace Cadence.Yaml

/-! ## Where collections begin -/

/-- A collection in this column would be deeper than the innermost one that is open. -/
def isDeeper (k : Nat) : List Nat → Bool
  | [] => true
  | i :: _ => i < k

/-- The open collections after one was begun in a column, if it is deeper and not in brackets. -/
def opened (depth k : Nat) (is : List Nat) : List Nat :=
  if depth = 0 ∧ isDeeper k is then k :: is else is

/-- The token that begins it. -/
def opening (token : Token) (depth k : Nat) (is : List Nat) : List Token :=
  if depth = 0 ∧ isDeeper k is then [token] else []

theorem isDeeper_self (k : Nat) (is : List Nat) : isDeeper k (k :: is) = false := by
  simp [isDeeper]

theorem opened_cons (depth k : Nat) (is : List Nat) : opened depth k (k :: is) = k :: is := by
  simp [opened, isDeeper_self]

theorem opening_cons (token : Token) (depth k : Nat) (is : List Nat) :
    opening token depth k (k :: is) = [] := by
  simp [opening, isDeeper_self]

theorem opened_of_le {k : Nat} {is : List Nat} (h : isDeeper k is = false) (depth : Nat) :
    opened depth k is = is := by
  simp [opened, h]

theorem opened_of_deeper {k : Nat} {is : List Nat} (h : isDeeper k is = true) :
    opened 0 k is = k :: is := by
  simp [opened, h]

theorem opening_of_deeper {k : Nat} {is : List Nat} (h : isDeeper k is = true) (token : Token) :
    opening token 0 k is = [token] := by
  simp [opening, h]

theorem le_of_deeper {k : Nat} {is : List Nat} (h : isDeeper k is = true) :
    ∀ i ∈ is.head?, i ≤ k := by
  cases is with
  | nil => exact fun _ hi => (by cases hi)
  | cons i is =>
    intro j hj
    obtain rfl := Option.some.inj hj
    exact Nat.le_of_lt (of_decide_eq_true h)

namespace Lexer

variable {l : Lexer} {depth : Nat} {c : Char} {cs : List Char}

theorem indent_lt_iff (l : Lexer) (k : Nat) : l.indent < k ↔ isDeeper k l.indents = true := by
  unfold indent
  cases l.indents with
  | nil =>
    simp only [isDeeper, iff_true]
    omega
  | cons i is => simp [isDeeper]

theorem inFlow_of_depth (h : l.outer.length = depth) : l.inFlow = !(depth == 0) := by
  unfold inFlow
  rw [← h]
  cases l.outer <;> rfl

/-- A token in brackets or deeper than all open collections may be a key but does not have to be. -/
theorem IsFree.remember (hfree : l.IsFree)
    (hdeep : l.outer.length = 0 → isDeeper l.cursor.column l.indents = true) :
    ∃ c?, l.remember = .ok { l with candidate? := c? } ∧ IsFree { l with candidate? := c? } := by
  unfold Lexer.remember
  split_ifs with hallowed
  · rw [hfree.forget]
    refine ⟨_, rfl, ?_, hfree.outer⟩
    intro c hc
    obtain rfl := Option.some.inj hc
    change (!l.inFlow && l.indent == l.cursor.column) = false
    rw [inFlow_of_depth rfl]
    by_cases houter : l.outer.length = 0
    · have hlt := (indent_lt_iff l l.cursor.column).mpr (hdeep houter)
      rw [Bool.and_eq_false_iff, beq_eq_false_iff_ne]
      exact Or.inr (Int.ne_of_lt hlt)
    · simp [houter]
  · exact ⟨l.candidate?, rfl, hfree.inner, hfree.outer⟩

end Lexer

/-! ## Marks -/

namespace View.Leads

variable {k depth : Nat} {is : List Nat} {a : Bool} {r : List Token} {c : Char} {cs rest : List Char}

/-- A mark is one character, which the cursor passes. What else it changes is up to the mark. -/
theorem of_mark {depth' : Nat} {is' : List Nat} {a' : Bool} {r' : List Token}
    (hstart : AtToken (c :: cs)) (hclosed : depth = 0 → ∀ i ∈ is.head?, i ≤ k)
    (h : ∀ l : Lexer, l.view = ⟨c :: cs, k, is, depth, a, r⟩ → l.IsFree →
      ∃ l', l.token c cs = .ok l' ∧
        l'.view = ⟨l.cursor.next.rest, l.cursor.next.column, is', depth', a', r'⟩ ∧ l'.IsFree) :
    Leads ⟨c :: cs, k, is, depth, a, r⟩ ⟨cs, k + 1, is', depth', a', r'⟩ := by
  obtain ⟨hclean, -, hline, -⟩ := hstart c rfl
  apply of_token rfl hstart (fun h => hclosed h) (by simp)
  intro l hl hfree
  obtain ⟨l', htoken, hview, hfree'⟩ := h l hl hfree
  obtain ⟨hrest, hcolumn, -⟩ := View.mk.inj hl
  obtain ⟨hrest', -, hcolumn', -⟩ := Cursor.next_of_clean hrest hclean
  refine ⟨l', htoken, ?_, hfree'⟩
  rw [hview, hrest', hcolumn', hcolumn, if_neg hline]

theorem entry (hclosed : ∀ i ∈ is.head?, i ≤ k) :
    Leads ⟨'-' :: ' ' :: cs, k, is, 0, true, r⟩
      ⟨' ' :: cs, k + 1, opened 0 k is, 0, true, .entry :: (opening .blockList 0 k is ++ r)⟩ := by
  apply of_mark (by simp [AtToken, needsEscape]) (fun _ => hclosed)
  intro l hl hfree
  obtain ⟨-, hcolumn, hindents, hdepth, hallowed, hreversed⟩ := View.mk.inj hl
  have hflow : l.inFlow = false := Lexer.inFlow_of_depth hdepth
  have htoken : l.token '-' (' ' :: cs) = l.entry := by
    simp [Lexer.token, atSeparator, atGap, isBlank]
  have hopen : l.openBlock .blockList = { l with
      indents := opened 0 k is, reversed := opening .blockList 0 k is ++ r } := by
    unfold Lexer.openBlock opened opening
    simp only [Lexer.indent_lt_iff, hcolumn, hindents, true_and]
    split_ifs
    · simp [Lexer.emit, hreversed]
    · rw [← hindents, ← hreversed]
      rfl
  have hforget := Lexer.IsFree.forget (l := l.openBlock .blockList)
    (by rw [hopen]; exact ⟨hfree.1, hfree.2⟩)
  refine ⟨{ l with
      cursor := l.cursor.next
      candidate? := none
      indents := opened 0 k is
      keyAllowed := true
      reversed := .entry :: (opening .blockList 0 k is ++ r) }, ?_, ?_, ?_⟩
  · rw [htoken, Lexer.entry, hflow, hallowed]
    simp only [Bool.not_true, Bool.and_false, Bool.false_eq_true, if_false]
    rw [hforget, hopen]
    rfl
  · rw [Lexer.view, hdepth]
  · exact ⟨fun _ hc => (by cases hc), hfree.2⟩

theorem comma : Leads ⟨',' :: cs, k, is, depth + 1, a, r⟩
    ⟨cs, k + 1, is, depth + 1, true, .comma :: r⟩ := by
  apply of_mark (by simp [AtToken, needsEscape]) (fun h => (by cases h))
  intro l hl hfree
  obtain ⟨-, -, hindents, hdepth, -, hreversed⟩ := View.mk.inj hl
  have htoken : l.token ',' cs = l.comma := by
    simp [Lexer.token, atSeparator]
  refine ⟨{ l with
      cursor := l.cursor.next
      candidate? := none
      keyAllowed := true
      reversed := .comma :: r }, ?_, ?_, ?_⟩
  · rw [htoken, Lexer.comma, hfree.forget, ← hreversed]
    rfl
  · rw [Lexer.view, hdepth, hindents]
  · exact ⟨fun _ hc => (by cases hc), hfree.2⟩

theorem openFlow {token : Token} (hc : (c = '[' ∧ token = .listOpen) ∨ (c = '{' ∧ token = .mapOpen))
    (hdeep : depth = 0 → isDeeper k is = true) :
    Leads ⟨c :: cs, k, is, depth, a, r⟩ ⟨cs, k + 1, is, depth + 1, true, token :: r⟩ := by
  have hstart : AtToken (c :: cs) := by
    rcases hc with ⟨rfl, -⟩ | ⟨rfl, -⟩ <;> simp [AtToken, needsEscape]
  apply of_mark hstart (fun h => le_of_deeper (hdeep h))
  intro l hl hfree
  obtain ⟨-, hcolumn, hindents, hdepth, -, hreversed⟩ := View.mk.inj hl
  have htoken : l.token c cs = l.openFlow token := by
    rcases hc with ⟨rfl, rfl⟩ | ⟨rfl, rfl⟩ <;> simp [Lexer.token, atSeparator]
  obtain ⟨c?, hremember, hfree'⟩ := hfree.remember (by rwa [hcolumn, hindents, hdepth])
  refine ⟨{ l with
      cursor := l.cursor.next
      outer := c? :: l.outer
      candidate? := none
      keyAllowed := true
      reversed := token :: r }, ?_, ?_, ?_⟩
  · rw [htoken, Lexer.openFlow, hremember, ← hreversed]
    rfl
  · rw [Lexer.view, List.length_cons, hdepth, hindents]
  · refine ⟨fun _ hd => (by cases hd), ?_⟩
    intro d? hd
    rcases List.mem_cons.mp hd with rfl | h
    · exact hfree'.1
    · exact hfree.2 d? h

theorem closeFlow {token : Token}
    (hc : (c = ']' ∧ token = .listClose) ∨ (c = '}' ∧ token = .mapClose)) :
    Leads ⟨c :: cs, k, is, depth + 1, a, r⟩ ⟨cs, k + 1, is, depth, false, token :: r⟩ := by
  have hstart : AtToken (c :: cs) := by
    rcases hc with ⟨rfl, -⟩ | ⟨rfl, -⟩ <;> simp [AtToken, needsEscape]
  apply of_mark hstart (fun h => (by cases h))
  intro l hl hfree
  obtain ⟨-, -, hindents, hdepth, -, hreversed⟩ := View.mk.inj hl
  have htoken : l.token c cs = l.closeFlow token := by
    rcases hc with ⟨rfl, rfl⟩ | ⟨rfl, rfl⟩ <;> simp [Lexer.token, atSeparator]
  obtain ⟨c?, outer, houter⟩ : ∃ c? outer, l.outer = c? :: outer :=
    List.exists_cons_of_ne_nil (List.ne_nil_of_length_eq_add_one hdepth)
  refine ⟨{ l with
      cursor := l.cursor.next
      outer
      candidate? := c?
      keyAllowed := false
      reversed := token :: r }, ?_, ?_, ?_⟩
  · rw [htoken, Lexer.closeFlow, hfree.forget, ← hreversed]
    dsimp only [bind, Except.bind]
    rw [houter]
    rfl
  · rw [houter] at hdepth
    rw [Lexer.view, Nat.succ.inj hdepth, hindents]
  · exact ⟨hfree.2 c? (by simp [houter]), fun d? hd => hfree.2 d? (by simp [houter, hd])⟩

/-! ## Scalars -/

theorem quoted {quotes : Quotes}
    (hc : (c = '\'' ∧ quotes = .single) ∨ (c = '\x22' ∧ quotes = .double))
    {text chars : List Char} (hclean : IsClean text)
    (hread : readQuoted quotes .text {} (text ++ rest) = .ok (⟨chars, none⟩, rest))
    (hdeep : depth = 0 → isDeeper k is = true) :
    Leads ⟨c :: text ++ rest, k, is, depth, a, r⟩
      ⟨rest, columnAfter k (c :: text), is, depth, false, .scalar false ⟨chars, none⟩ :: r⟩ := by
  have hstart : needsEscape c = false ∧ c ≠ ' ' ∧ c ≠ '\n' ∧ c ≠ '#' := by
    rcases hc with ⟨rfl, -⟩ | ⟨rfl, -⟩ <;> decide
  have hcons : c :: text ++ rest = c :: (text ++ rest) := rfl
  apply of_token hcons (by simpa [AtToken] using hstart) (fun h => le_of_deeper (hdeep h))
    (by simp only [List.length_append, List.length_cons]; omega)
  intro l hl hfree
  obtain ⟨hrest, hcolumn, hindents, hdepth, hallowed, hreversed⟩ := View.mk.inj hl
  obtain ⟨hrest', -, hcolumn', -⟩ := Cursor.moveTo_of_clean hrest (isClean_cons hstart.1 hclean)
  have htoken : l.token c (text ++ rest) = l.quoted quotes (text ++ rest) := by
    rcases hc with ⟨rfl, rfl⟩ | ⟨rfl, rfl⟩ <;> simp [Lexer.token, atSeparator]
  obtain ⟨c?, hremember, hfree'⟩ := hfree.remember (by rwa [hcolumn, hindents, hdepth])
  refine ⟨{ l with
      cursor := l.cursor.moveTo rest
      candidate? := c?
      keyAllowed := false
      reversed := .scalar false ⟨chars, none⟩ :: r }, ?_, ?_, ⟨hfree'.1, hfree'.2⟩⟩
  · rw [htoken, Lexer.quoted, hremember, hread, ← hreversed]
    rfl
  · simp [Lexer.view, hrest', hcolumn', hcolumn, hdepth, hindents]

end View.Leads

structure BeginsPlain (inFlow : Bool) (c : Char) (cs : List Char) : Prop where
  clean : needsEscape c = false
  space : c ≠ ' '
  line : c ≠ '\n'
  first : neverFirst.contains c = false
  entry : c = '-' → atGap cs = false
  mark : c = '?' ∨ c = ':' → inFlow = false ∧ atGap cs = false

theorem BeginsPlain.ne {inFlow : Bool} {c : Char} {cs : List Char} (h : BeginsPlain inFlow c cs) :
    ∀ d ∈ neverFirst, c ≠ d := by
  rintro d hd rfl
  have hin := List.contains_iff_mem.mpr hd
  rw [h.first] at hin
  cases hin

theorem BeginsPlain.atToken {inFlow : Bool} {c : Char} {cs : List Char}
    (h : BeginsPlain inFlow c cs) : AtToken (c :: cs) := by
  intro d hd
  obtain rfl := Option.some.inj hd
  exact ⟨h.clean, h.space, h.line, h.ne '#' (by decide)⟩

namespace Lexer

variable {l : Lexer} {c : Char} {cs : List Char}

theorem token_plain (h : BeginsPlain l.inFlow c cs)
    (hseparator : l.cursor.column = 0 → atSeparator (c :: cs) = false) : l.token c cs = l.plain := by
  have hne := h.ne
  simp only [neverFirst, List.forall_mem_cons] at hne
  have hbegins : beginsPlain l.inFlow (c :: cs) = true := by
    rw [beginsPlain]
    by_cases hdash : c = '-'
    · simp [hdash, h.entry hdash]
    · by_cases hmark : c = '?' ∨ c = ':'
      · obtain ⟨hflow, hgap⟩ := h.mark hmark
        rcases hmark with rfl | rfl <;> simp [hflow, hgap]
      · rw [not_or] at hmark
        have hnone : indicators.contains c = false := by
          simp [indicators, hne, hdash, hmark]
        rw [hnone, isBlank_of_clean h.clean h.space, isBreak_of_clean h.clean h.line]
        rfl
  have hsep : ¬(l.cursor.column = 0 ∧ atSeparator (c :: cs) = true) := by
    rintro ⟨hcolumn, hsep⟩
    rw [hseparator hcolumn] at hsep
    cases hsep
  have hentry : ¬(c = '-' ∧ atGap cs = true) := by
    rintro ⟨hdash, hgap⟩
    rw [h.entry hdash] at hgap
    cases hgap
  have hmark : c = '?' ∨ c = ':' → ¬((l.inFlow || atGap cs) = true) := by
    intro hmark
    obtain ⟨hflow, hgap⟩ := h.mark hmark
    simp [hflow, hgap]
  have hask : ¬(c = '?' ∧ (l.inFlow || atGap cs) = true) := fun h => hmark (Or.inl h.1) h.2
  have hcolon : ¬(c = ':' ∧ (l.inFlow || atGap cs) = true) := fun h => hmark (Or.inr h.1) h.2
  unfold token
  simp only [hne, hsep, hentry, hask, hcolon, hbegins, and_false, false_and, if_false, if_true]

/-- The column that the later lines of a scalar must reach. -/
def reach : List Nat → Nat
  | [] => 0
  | i :: _ => i + 1

theorem scalarIndent_eq (l : Lexer) : l.scalarIndent = reach l.indents := by
  unfold scalarIndent indent reach
  cases l.indents <;> rfl

end Lexer

namespace View.Leads

variable {k depth : Nat} {is : List Nat} {a : Bool} {r : List Token} {c : Char} {cs rest : List Char}

theorem plain {chars : List Char} {newLine : Bool}
    (hbegins : BeginsPlain (!(depth == 0)) c (cs ++ rest)) (hclean : IsClean cs)
    (hread : readPlain (!(depth == 0)) (Lexer.reach is) .word [] false (c :: cs ++ rest) =
      ⟨chars, newLine, rest⟩)
    (hseparator : k = 0 → atSeparator (c :: cs ++ rest) = false)
    (hdeep : depth = 0 → isDeeper k is = true) :
    Leads ⟨c :: cs ++ rest, k, is, depth, a, r⟩
      ⟨rest, columnAfter k (c :: cs), is, depth, newLine, .scalar true ⟨chars, none⟩ :: r⟩ := by
  have hcons : c :: cs ++ rest = c :: (cs ++ rest) := rfl
  apply of_token hcons hbegins.atToken (fun h => le_of_deeper (hdeep h))
    (by simp only [List.length_append, List.length_cons]; omega)
  intro l hl hfree
  obtain ⟨hrest, hcolumn, hindents, hdepth, hallowed, hreversed⟩ := View.mk.inj hl
  have hflow := Lexer.inFlow_of_depth hdepth
  obtain ⟨hrest', -, hcolumn', -⟩ :=
    Cursor.moveTo_of_clean hrest (isClean_cons hbegins.clean hclean)
  have htoken : l.token c (cs ++ rest) = l.plain :=
    Lexer.token_plain (by rwa [hflow]) (by rwa [hcolumn])
  obtain ⟨c?, hremember, hfree'⟩ := hfree.remember (by rwa [hcolumn, hindents, hdepth])
  refine ⟨{ l with
      cursor := l.cursor.moveTo rest
      candidate? := c?
      keyAllowed := newLine
      reversed := .scalar true ⟨chars, none⟩ :: r }, ?_, ?_, ⟨hfree'.1, hfree'.2⟩⟩
  · have hrun : readPlain l.inFlow l.scalarIndent .word [] false l.cursor.rest =
        ⟨chars, newLine, rest⟩ := by
      rw [hflow, Lexer.scalarIndent_eq, hindents, hrest, hread]
    rw [htoken, Lexer.plain, hremember, ← hreversed]
    change Except.ok { (Lexer.emit _ (.scalar true { chars :=
      (readPlain l.inFlow l.scalarIndent .word [] false l.cursor.rest).chars })).moveTo
      (readPlain l.inFlow l.scalarIndent .word [] false l.cursor.rest).rest with
        keyAllowed := (readPlain l.inFlow l.scalarIndent .word [] false l.cursor.rest).newLine } = _
    rw [hrun]
    rfl
  · simp [Lexer.view, hrest', hcolumn', hcolumn, hdepth, hindents]

end View.Leads

/-! ## Keys -/

theorem atSeparator_cons {c : Char} (hdash : c ≠ '-') (hdot : c ≠ '.') (cs : List Char) :
    atSeparator (c :: cs) = false := by
  unfold atSeparator
  split
  · rename_i heq
    exact absurd (List.cons.inj heq).1 hdash
  · rename_i heq
    exact absurd (List.cons.inj heq).1 hdot
  · rfl

theorem beginsPlain_word (inFlow : Bool) {c : Char} (h : c.isAlphanum = true) (cs : List Char) :
    BeginsPlain inFlow c cs ∧ atSeparator (c :: cs) = false := by
  have hne : ∀ d : Char, d.isAlphanum = false → c ≠ d := by
    rintro d hd rfl
    rw [h] at hd
    cases hd
  refine ⟨⟨needsEscape_alphanum h, hne ' ' rfl, hne '\n' rfl, ?_, ?_, ?_⟩, ?_⟩
  · exact contains_alphanum rfl h
  · exact fun hdash => absurd hdash (hne '-' rfl)
  · rintro (hask | hcolon)
    · exact absurd hask (hne '?' rfl)
    · exact absurd hcolon (hne ':' rfl)
  · exact atSeparator_cons (hne '-' rfl) (hne '.' rfl) cs

theorem readPlain_word (inFlow : Bool) {name : List Char} (hsome : name ≠ [])
    (hword : ∀ c ∈ name, c.isAlphanum = true) (reach : Nat) {cs : List Char}
    (hgap : atGap cs = true) : ∃ newLine,
      readPlain inFlow reach .word [] false (name ++ ':' :: cs) = ⟨name, newLine, ':' :: cs⟩ := by
  have hspace : ' ' ∉ name := fun hmem => (by cases hword ' ' hmem)
  have hends : endsPlain inFlow ':' cs = true := by simp [endsPlain, hgap]
  obtain ⟨newLine, hread⟩ := (isSafe_word inFlow hsome hword).read
    (Nat.succ_pos reach) (Or.inr (Nat.le_succ reach)) 0 (':' :: cs)
  refine ⟨newLine, ?_⟩
  rw [writePlain_word hspace] at hread
  rw [hread, readPlain_mark (by decide) (by decide) hends, List.reverse_reverse]

theorem columnAfter_line {cs : List Char} (h : '\n' ∉ cs) (k : Nat) :
    columnAfter k cs = k + cs.length := by
  induction cs generalizing k with
  | nil => rfl
  | cons c cs ih =>
    rw [List.mem_cons, not_or] at h
    have hstep : columnAfter k (c :: cs) = columnAfter (k + 1) cs := by
      rw [columnAfter, List.foldl_cons, if_neg (Ne.symm h.1)]
      rfl
    rw [hstep, ih h.2, List.length_cons]
    omega

namespace Lexer

variable {l : Lexer} {depth k : Nat} {is : List Nat} {r : List Token} {name cs : List Char}

/-- The name of an entry, which must be a key if it stands where the entries of a mapping begin. -/
theorem token_name {c : Char} {ds : List Char} (hfree : l.IsFree) (hallowed : l.keyAllowed = true)
    (hrest : l.cursor.rest = c :: ds ++ ':' :: cs) (hword : ∀ d ∈ c :: ds, d.isAlphanum = true)
    (hgap : atGap cs = true) : ∃ newLine required,
      l.token c (ds ++ ':' :: cs) = .ok { l with
        cursor := l.cursor.moveTo (':' :: cs)
        candidate? := some ⟨l.reversed.length, required, l.cursor.index, l.cursor.line,
          l.cursor.column⟩
        keyAllowed := newLine
        reversed := .scalar true ⟨c :: ds, none⟩ :: l.reversed } := by
  obtain ⟨hbegins, hseparator⟩ := beginsPlain_word l.inFlow
    (hword c List.mem_cons_self) (ds ++ ':' :: cs)
  obtain ⟨newLine, hread⟩ := readPlain_word l.inFlow (List.cons_ne_nil c ds) hword
    l.scalarIndent hgap
  refine ⟨newLine, !l.inFlow && l.indent == l.cursor.column, ?_⟩
  rw [token_plain hbegins fun _ => hseparator, plain, remember, if_pos hallowed, hfree.forget]
  rw [← hrest] at hread
  change Except.ok { (emit _ (.scalar true { chars :=
    (readPlain l.inFlow l.scalarIndent .word [] false l.cursor.rest).chars })).moveTo
    (readPlain l.inFlow l.scalarIndent .word [] false l.cursor.rest).rest with
      keyAllowed := (readPlain l.inFlow l.scalarIndent .word [] false l.cursor.rest).newLine } = _
  rw [hread]
  rfl

theorem insertAt_last (marks r : List Token) (token : Token) :
    insertAt r.length marks (token :: r) = token :: (marks ++ r) := by
  simp [insertAt]

theorem colon_ok {candidate : Candidate} {token : Token} (hcandidate : l.candidate? = some candidate)
    (hposition : candidate.position = r.length) (hreversed : l.reversed = token :: r)
    (hdepth : l.outer.length = depth) :
    l.colon = .ok { l with
      cursor := l.cursor.next
      candidate? := none
      keyAllowed := false
      indents := opened depth candidate.column l.indents
      reversed := .value :: token :: .key ::
        (opening .blockMap depth candidate.column l.indents ++ r) } := by
  have hopens : (!l.inFlow && decide (l.indent < candidate.column)) =
      decide (depth = 0 ∧ isDeeper candidate.column l.indents = true) := by
    rw [inFlow_of_depth hdepth, Bool.eq_iff_iff]
    simp [indent_lt_iff]
  unfold colon opened opening
  rw [hcandidate]
  dsimp only
  rw [hopens, hposition, hreversed]
  by_cases h : depth = 0 ∧ isDeeper candidate.column l.indents = true
  · simp only [h, and_self, decide_true, if_true, insertAt_last]
    rfl
  · simp only [h, decide_false, if_false, Bool.false_eq_true, insertAt_last]
    rfl

theorem step_colon {candidate : Candidate} {token : Token}
    (hcandidate : l.candidate? = some candidate) (hline : candidate.line = l.cursor.line)
    (hreach : l.cursor.index - candidate.index ≤ keyReach)
    (houter : ∀ c? ∈ l.outer, ∀ c ∈ c?, c.required = false) (hrest : l.cursor.rest = ':' :: cs)
    (hgap : atGap cs = true) (hposition : candidate.position = r.length)
    (hreversed : l.reversed = token :: r) (hclosed : l.view.IsClosed) :
    ∃ outer, outer.length = l.outer.length ∧ (∀ c? ∈ outer, ∀ c ∈ c?, c.required = false) ∧
      l.step = .ok (true, { l with
        cursor := l.cursor.next
        candidate? := none
        outer
        keyAllowed := false
        indents := opened l.outer.length candidate.column l.indents
        reversed := .value :: token :: .key ::
          (opening .blockMap l.outer.length candidate.column l.indents ++ r) }) := by
  have hlive : l.live? l.candidate? = .ok (some candidate) := by
    rw [hcandidate, live?, if_pos ⟨hline, hreach⟩]
  have hstart : AtToken l.cursor.rest := by
    rw [hrest]
    simp [AtToken, needsEscape]
  obtain ⟨outer, hforget, hlength, hfree⟩ := forgetStale_ok hlive houter
  refine ⟨outer, hlength, hfree, ?_⟩
  have hclosed' : View.IsClosed (view { l with candidate? := some candidate, outer }) := by
    intro hdepth
    exact hclosed (hlength.symm.trans hdepth)
  have hsettle : l.settle = .ok { l with candidate? := some candidate, outer } := by
    rw [settle_of_atToken hstart, hforget]
    exact congrArg Except.ok (closeTo_of_closed hclosed')
  apply step_of_settle hsettle hrest
  have htoken : Lexer.token { l with candidate? := some candidate, outer } ':' cs =
      colon { l with candidate? := some candidate, outer } := by
    simp [Lexer.token, atSeparator, hgap]
  rw [htoken]
  exact colon_ok rfl hposition hreversed hlength

end Lexer

theorem View.Leads.key {k depth : Nat} {is : List Nat} {r : List Token} {name cs : List Char}
    (hsome : name ≠ []) (hword : ∀ c ∈ name, c.isAlphanum = true) (hshort : name.length ≤ keyReach)
    (hgap : atGap cs = true) (hclosed : depth = 0 → ∀ i ∈ is.head?, i ≤ k) :
    Leads ⟨name ++ ':' :: cs, k, is, depth, true, r⟩
      ⟨cs, k + name.length + 1, opened depth k is, depth, false,
        .value :: .scalar true ⟨name, none⟩ :: .key :: (opening .blockMap depth k is ++ r)⟩ := by
  obtain ⟨c, ds, rfl⟩ := List.exists_cons_of_ne_nil hsome
  have hclean : IsClean (c :: ds) := fun d hd => needsEscape_alphanum (hword d hd)
  have hline : '\n' ∉ c :: ds := fun hmem => (by cases hword '\n' hmem)
  have hstart : AtToken (c :: ds ++ ':' :: cs) :=
    (beginsPlain_word false (hword c List.mem_cons_self) (ds ++ ':' :: cs)).1.atToken
  intro l hl hfree
  obtain ⟨m, hsettle, hm, hfreem⟩ := Lexer.settle_of_closed hfree
    (by change AtToken l.view.rest; rw [hl]; exact hstart) (by rw [hl]; exact hclosed)
  obtain ⟨hrest, hcolumn, hindents, hdepth, hallowed, hreversed⟩ := View.mk.inj (hm.trans hl)
  obtain ⟨newLine, required, hname⟩ := Lexer.token_name hfreem hallowed hrest hword hgap
  obtain ⟨hrest', hindex', hcolumn', hline'⟩ := Cursor.moveTo_of_clean hrest hclean
  rw [columnAfter_line hline] at hcolumn'
  obtain ⟨hrest'', -, hcolumn'', -⟩ := Cursor.next_of_clean hrest' rfl
  obtain ⟨outer, hlength, hfree', hcolon⟩ := Lexer.step_colon (l := { m with
      cursor := m.cursor.moveTo (':' :: cs)
      candidate? := some ⟨m.reversed.length, required, m.cursor.index, m.cursor.line,
        m.cursor.column⟩
      keyAllowed := newLine
      reversed := .scalar true ⟨c :: ds, none⟩ :: m.reversed }) rfl (hline' hline).symm
    (by change (m.cursor.moveTo (':' :: cs)).index - m.cursor.index ≤ keyReach; omega) hfreem.2
    hrest' hgap rfl rfl (by
      intro hnone i hi
      have hle := hclosed (hdepth.symm.trans hnone) i (by rwa [← hindents])
      change i ≤ (m.cursor.moveTo (':' :: cs)).column
      omega)
  refine ⟨_, _, 2, ?_, ⟨fun _ hc => (by cases hc), hfree'⟩,
    .step (Lexer.step_of_settle hsettle hrest hname) (.step hcolon (.refl _)), rfl, ?_⟩
  · simp [Lexer.view, hrest'', hcolumn'', hcolumn', hcolumn, hlength, hdepth, hindents, hreversed]
  · simp
    omega

end Cadence.Yaml
