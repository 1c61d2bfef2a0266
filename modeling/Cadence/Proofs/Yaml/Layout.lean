import Cadence.Proofs.Yaml.Marks

/-!
# What written values look like to the lexer

Every value that is written is a sequence of tokens. In a block they are the same whatever follows, as
long as it begins on a line that is not indented deeper.
-/

namespace Cadence.Yaml

/-! ## Values that can be written -/

/-- A key that needs no quotes. -/
structure IsName (name : List Char) : Prop where
  some : name ≠ []
  word : ∀ c ∈ name, c.isAlphanum = true
  short : name.length ≤ keyReach
  text : Meaning.ofPlain name = .text

instance (name : List Char) : Decidable (IsName name) :=
  decidable_of_iff (name ≠ [] ∧ name.all Char.isAlphanum = true ∧ name.length ≤ keyReach ∧
      Meaning.ofPlain name = .text)
    ⟨fun ⟨hsome, hword, hshort, htext⟩ => ⟨hsome, List.all_eq_true.mp hword, hshort, htext⟩,
      fun h => ⟨h.some, List.all_eq_true.mpr h.word, h.short, h.text⟩⟩

/-- Text, numbers that are short enough, and lists and mappings of such values, nested so deep. -/
inductive Writable : Nat → Value → Prop where
  | text (n : Nat) (s : String) : Writable n (.text s)
  | int (n : Nat) {i : Int} (h : isShort i = true) : Writable n (.int i)
  | list {n : Nat} {vs : List Value} (h : ∀ v ∈ vs, Writable n v) : Writable (n + 1) (.list vs)
  | map {n : Nat} {es : List (String × Value)} (hnames : ∀ e ∈ es, IsName e.1.toList)
    (h : ∀ e ∈ es, Writable n e.2) : Writable (n + 1) (.map es)

/-! ## Scalars -/

def scalarToken (inFlow : Bool) : Value → Token
  | .text s => .scalar (Style.of inFlow s.toList == .plain) ⟨s.toList, none⟩
  | .int n => .scalar true ⟨Text.numeral n, none⟩
  | _ => .scalar true {}

/-- What follows an item in brackets. -/
def EndsItem (rest : List Char) : Prop := ∃ c cs, rest = c :: cs ∧ (c = ',' ∨ c = ']' ∨ c = '}')

/-- What follows a line in a block: nothing, an entry or a name. -/
inductive BeginsLine : List Char → Prop where
  | nothing : BeginsLine []
  | entry (cs : List Char) : BeginsLine ('-' :: ' ' :: cs)
  | name {c : Char} (h : c.isAlphanum = true) (cs : List Char) : BeginsLine (c :: cs)

theorem BeginsLine.atToken {rest : List Char} (h : BeginsLine rest) : AtToken rest := by
  cases h with
  | nothing => exact fun _ hc => (by cases hc)
  | entry cs => simp [AtToken, needsEscape]
  | name h cs => exact (beginsPlain_word false h cs).1.atToken

theorem BeginsLine.atSeparator {rest : List Char} (h : BeginsLine rest) (k : Nat) :
    atSeparator (List.replicate k ' ' ++ rest) = false := by
  cases k with
  | succ k => rfl
  | zero =>
    cases h with
    | nothing => rfl
    | entry cs => rfl
    | name h cs => exact (beginsPlain_word false h cs).2

theorem columnAfter_append (k : Nat) (as bs : List Char) :
    columnAfter k (as ++ bs) = columnAfter (columnAfter k as) bs := by
  simp [columnAfter, List.foldl_append]

theorem columnAfter_newLine (k j : Nat) (as : List Char) :
    columnAfter k (as ++ newLine j) = j := by
  have hline : '\n' ∉ List.replicate j ' ' := by simp
  have hzero : columnAfter (columnAfter k as) (newLine j) = columnAfter 0 (List.replicate j ' ') := rfl
  rw [columnAfter_append, hzero, columnAfter_line hline, List.length_replicate, Nat.zero_add]

theorem IsSafe.beginsPlain {inFlow : Bool} {text : List Char} (h : IsSafe inFlow text)
    (indent column : Nat) (rest : List Char) : ∃ c cs, writePlain indent 0 column text = c :: cs ∧
      BeginsPlain inFlow c (cs ++ rest) ∧ IsClean cs := by
  cases text with
  | nil => cases h.begins
  | cons c cs =>
    obtain ⟨hnever, hspace, hline, hentry, hmark, -⟩ := beginsSafely_cons h.begins
    refine ⟨c, writePlain indent 0 (column + 1) cs, ?_, ⟨h.clean.head, hspace, hline, hnever, ?_, ?_⟩,
      isClean_writePlain h.clean.tail indent 0 (column + 1)⟩
    · rw [writePlain, if_neg hspace, if_neg (by simp)]
      rfl
    · exact fun hdash => atGap_writePlain (hentry hdash) (column + 1)
    · exact fun h => ⟨(hmark h).1, atGap_writePlain (hmark h).2 (column + 1)⟩

theorem writeText_quoted {inFlow : Bool} {cs : List Char} (h : Style.of inFlow cs ≠ .plain)
    {indent : Nat} (hindent : 0 < indent) (hwidth : indent < lineWidth) (column : Nat)
    {rest : List Char} (hrest : rest.head? ≠ some '\'') :
    ∃ c quotes text, writeText inFlow indent column cs = c :: text ∧
      ((c = '\'' ∧ quotes = .single) ∨ (c = '\x22' ∧ quotes = .double)) ∧ IsClean text ∧
      readQuoted quotes .text {} (text ++ rest) = .ok (⟨cs, none⟩, rest) := by
  have hdone : Content.done (Content.push {} cs) = ⟨cs, none⟩ := by
    simp [Content.push, Content.done]
  unfold writeText
  cases hstyle : Style.of inFlow cs with
  | plain => exact absurd hstyle h
  | single =>
    obtain ⟨hclean, hragged⟩ : IsClean cs ∧ hasRaggedLine cs = false := by
      unfold Style.of at hstyle
      split_ifs at hstyle with hescape
      rw [Bool.not_eq_true, Bool.or_eq_false_iff, List.any_eq_false] at hescape
      exact ⟨fun d hd => by simpa using hescape.1 d hd, hescape.2⟩
    refine ⟨'\'', .single, _, rfl, Or.inl ⟨rfl, rfl⟩, isClean_writeSingle hclean _ _ _, ?_⟩
    rw [readQuoted_writeSingle hindent hclean .nothing trivial hragged _ _ _ hrest, ← hdone]
    rfl
  | double =>
    refine ⟨'\x22', .double, _, rfl, Or.inr ⟨rfl, rfl⟩, isClean_writeDouble _ _ _ _, ?_⟩
    rw [readQuoted_writeDouble hindent hwidth true true .text, ← hdone]
    rfl

namespace View.Leads

variable {n d k indent : Nat} {is : List Nat} {a inFlow : Bool} {r : List Token} {v : Value}
  {cs rest : List Char}

theorem plain_inFlow (hsafe : IsSafe true cs) (hindent : 0 < indent) (hcolumn : 0 < k)
    (hrest : EndsItem rest) (column : Nat) : ∃ k' a',
      Leads ⟨writePlain indent 0 column cs ++ rest, k, is, d + 1, a, r⟩
        ⟨rest, k', is, d + 1, a', .scalar true ⟨cs, none⟩ :: r⟩ := by
  obtain ⟨c, ds, htext, hbegins, hclean⟩ := hsafe.beginsPlain indent column rest
  obtain ⟨newLine, hread⟩ : ∃ newLine, readPlain true (Lexer.reach is) .word [] false
      (writePlain indent 0 column cs ++ rest) = _ := hsafe.read hindent (Or.inl rfl) column rest
  have hend : readPlain true (Lexer.reach is) .word cs.reverse newLine rest =
      ⟨cs, newLine, rest⟩ := by
    obtain ⟨e, es, rfl, he⟩ := hrest
    have hmark : isBreak e = false ∧ e ≠ ' ' ∧ endsPlain true e es = true := by
      rcases he with rfl | rfl | rfl <;> simp [isBreak, endsPlain]
    rw [readPlain_mark hmark.1 hmark.2.1 hmark.2.2, List.reverse_reverse]
  rw [htext] at hread ⊢
  exact ⟨_, newLine, plain hbegins hclean (hread.trans hend)
    (fun hzero => absurd hzero (Nat.ne_of_gt hcolumn)) (fun hzero => (by cases hzero))⟩

theorem plain_inBlock {j : Nat} (hsafe : IsSafe false cs) (hindent : 0 < indent)
    (hreach : Lexer.reach is ≤ indent) (hcolumn : 0 < k) (hdeep : isDeeper k is = true)
    (hrest : BeginsLine rest) (hless : rest ≠ [] → j < Lexer.reach is) (column : Nat) :
    Leads ⟨writePlain indent 0 column cs ++ (Yaml.newLine j ++ rest), k, is, 0, a, r⟩
      ⟨rest, j, is, 0, true, .scalar true ⟨cs, none⟩ :: r⟩ := by
  obtain ⟨c, ds, htext, hbegins, hclean⟩ := hsafe.beginsPlain indent column (Yaml.newLine j ++ rest)
  obtain ⟨newLine, hread⟩ := hsafe.read hindent (Or.inr hreach) column (Yaml.newLine j ++ rest)
  have hend : readPlain false (Lexer.reach is) .word cs.reverse newLine (Yaml.newLine j ++ rest) =
      ⟨cs, true, rest⟩ := by
    rw [readPlain_line rfl (hrest.atSeparator j), List.reverse_reverse]
    rintro c cs rfl
    obtain ⟨hclean, hspace, hline, -⟩ := hrest.atToken c rfl
    exact ⟨isBreak_of_clean hclean hline, hspace, hless (List.cons_ne_nil c cs)⟩
  rw [htext] at hread ⊢
  rw [← List.append_assoc] at hread hbegins ⊢
  have h : Leads ⟨c :: (ds ++ Yaml.newLine j) ++ rest, k, is, 0, a, r⟩ _ :=
    plain hbegins (hclean.append (isClean_newLine j)) (hread.trans hend)
      (fun hzero => absurd hzero (Nat.ne_of_gt hcolumn)) (fun _ => hdeep)
  rw [← List.cons_append, columnAfter_newLine] at h
  exact h

theorem text_inFlow (s : String) (hindent : 0 < indent) (hwidth : indent < lineWidth)
    (hcolumn : 0 < k) (hrest : EndsItem rest) (column : Nat) : ∃ k' a',
      Leads ⟨writeText true indent column s.toList ++ rest, k, is, d + 1, a, r⟩
        ⟨rest, k', is, d + 1, a', scalarToken true (.text s) :: r⟩ := by
  by_cases hstyle : Style.of true s.toList = .plain
  · rw [writeText, scalarToken, hstyle]
    exact plain_inFlow (isSafe_of_plain hstyle) hindent hcolumn hrest column
  · have hquote : rest.head? ≠ some '\'' := by
      obtain ⟨e, es, rfl, he⟩ := hrest
      rcases he with rfl | rfl | rfl <;> simp
    obtain ⟨c, quotes, text, htext, hc, hclean, hread⟩ :=
      writeText_quoted hstyle hindent hwidth column hquote
    rw [htext, scalarToken, beq_false_of_ne hstyle]
    exact ⟨_, false, quoted hc hclean hread (fun hzero => (by cases hzero))⟩

theorem text_inBlock {j : Nat} (s : String) (hindent : 0 < indent) (hwidth : indent < lineWidth)
    (hreach : Lexer.reach is ≤ indent) (hcolumn : 0 < k) (hdeep : isDeeper k is = true)
    (hrest : BeginsLine rest) (hless : rest ≠ [] → j < Lexer.reach is) (column : Nat) :
    Leads ⟨writeText false indent column s.toList ++ (Yaml.newLine j ++ rest), k, is, 0, a, r⟩
      ⟨rest, j, is, 0, true, scalarToken false (.text s) :: r⟩ := by
  by_cases hstyle : Style.of false s.toList = .plain
  · rw [writeText, scalarToken, hstyle]
    exact plain_inBlock (isSafe_of_plain hstyle) hindent hreach hcolumn hdeep hrest hless column
  · have hquote : (Yaml.newLine j ++ rest).head? ≠ some '\'' := by simp [Yaml.newLine]
    obtain ⟨c, quotes, text, htext, hc, hclean, hread⟩ :=
      writeText_quoted hstyle hindent hwidth column hquote
    rw [htext, scalarToken, beq_false_of_ne hstyle]
    exact (quoted hc hclean hread (fun _ => hdeep)).trans (newLine j)

theorem scalar_inFlow (hv : Writable n v) (hscalar : isScalar v = true) (hindent : 0 < indent)
    (hwidth : indent < lineWidth) (hcolumn : 0 < k) (hrest : EndsItem rest) (column : Nat) :
    ∃ k' a', Leads ⟨writeScalar true indent column v ++ rest, k, is, d + 1, a, r⟩
      ⟨rest, k', is, d + 1, a', scalarToken true v :: r⟩ := by
  cases hv with
  | text n s => exact text_inFlow s hindent hwidth hcolumn hrest column
  | @int n i h =>
    have hplain : ∃ k' a',
        Leads ⟨writePlain indent 0 column (Text.numeral i) ++ rest, k, is, d + 1, a, r⟩ _ :=
      plain_inFlow (isSafe_numeral true i) hindent hcolumn hrest column
    rw [writePlain_word (Text.not_mem_numeral rfl (by decide) i)] at hplain
    exact hplain
  | list h => cases hscalar
  | map hnames h => cases hscalar

theorem scalar_inBlock {j : Nat} (hv : Writable n v) (hscalar : isScalar v = true)
    (hindent : 0 < indent) (hwidth : indent < lineWidth) (hreach : Lexer.reach is ≤ indent)
    (hcolumn : 0 < k) (hdeep : isDeeper k is = true) (hrest : BeginsLine rest)
    (hless : rest ≠ [] → j < Lexer.reach is) (column : Nat) :
    Leads ⟨writeScalar false indent column v ++ (Yaml.newLine j ++ rest), k, is, 0, a, r⟩
      ⟨rest, j, is, 0, true, scalarToken false v :: r⟩ := by
  cases hv with
  | text n s => exact text_inBlock s hindent hwidth hreach hcolumn hdeep hrest hless column
  | @int n i h =>
    have hplain := plain_inBlock (a := a) (r := r) (isSafe_numeral false i) hindent hreach hcolumn
      hdeep hrest hless column
    rw [writePlain_word (Text.not_mem_numeral rfl (by decide) i)] at hplain
    exact hplain
  | list h => cases hscalar
  | map hnames h => cases hscalar

end View.Leads

/-! ## Brackets -/

/-- The tokens of what stands in brackets, with commas between its items. -/
def flowTokens {α : Type} (show_ : α → List Token) : Bool → List α → List Token
  | _, [] => []
  | first, a :: as => (if first then [] else [.comma]) ++ show_ a ++ flowTokens show_ false as

def flowEntryTokens (e : String × Value) : List Token :=
  [.key, .scalar true ⟨e.1.toList, none⟩, .value, scalarToken true e.2]

/-- The tokens of a value that is no block. -/
def inlineTokens : Value → List Token
  | .list vs => .listOpen :: flowTokens (fun v => [scalarToken true v]) true vs ++ [.listClose]
  | .map es => .mapOpen :: flowTokens flowEntryTokens true es ++ [.mapClose]
  | v => [scalarToken false v]

inductive Brackets : Char → Char → Token → Token → Prop where
  | list : Brackets '[' ']' .listOpen .listClose
  | map : Brackets '{' '}' .mapOpen .mapClose

theorem writeFlow_cons {α : Type} (indent : Nat) (write : Nat → α → List Char) (first : Bool)
    (column : Nat) (e : α) (as : List α) : ∃ folded : Bool, ∃ column₁ column₂ : Nat,
      writeFlow indent write first column (e :: as) =
        (if first then [] else [',']) ++
          ((if folded then newLine indent else if first then [] else [' ']) ++
            (write column₁ e ++ writeFlow indent write false column₂ as)) := by
  let column₀ := column + (if first then [] else [',']).length
  let gap := if lineWidth < column₀ then newLine indent else if first then [] else [' ']
  let column₁ := columnAfter column₀ gap
  refine ⟨decide (lineWidth < column₀), column₁, columnAfter column₀ (gap ++ write column₁ e), ?_⟩
  rw [writeFlow]
  simp only [decide_eq_true_eq, List.append_assoc]
  rfl

namespace View.Leads

variable {n d k indent : Nat} {is : List Nat} {a : Bool} {r : List Token} {v : Value}
  {cs rest : List Char}

/-- A comma stands before all items but the first. -/
theorem flowComma (first : Bool) (hfirst : first = true → 0 < k ∧ a = true) : ∃ k', 0 < k' ∧ ∀ cs,
    Leads ⟨(if first then [] else [',']) ++ cs, k, is, d + 1, a, r⟩
      ⟨cs, k', is, d + 1, true, (if first then [] else [.comma]) ++ r⟩ := by
  cases first with
  | true =>
    obtain ⟨hcolumn, rfl⟩ := hfirst rfl
    exact ⟨k, hcolumn, fun cs => refl _⟩
  | false => exact ⟨k + 1, Nat.succ_pos k, fun cs => comma⟩

/-- A space or a line end stands before an item. -/
theorem flowGap (hindent : 0 < indent) (hcolumn : 0 < k) (folded first : Bool) : ∃ k', 0 < k' ∧ ∀ cs,
    Leads ⟨(if folded then Yaml.newLine indent else if first then [] else [' ']) ++ cs, k, is, d + 1,
      true, r⟩ ⟨cs, k', is, d + 1, true, r⟩ := by
  cases folded with
  | true => exact ⟨indent, hindent, fun cs => newLine indent⟩
  | false =>
    cases first with
    | true => exact ⟨k, hcolumn, fun cs => refl _⟩
    | false => exact ⟨k + 1, Nat.succ_pos k, fun cs => space⟩

/-- What is in brackets, if each of its items is what it shows wherever it stands. -/
theorem flow {α : Type} {write : Nat → α → List Char} {show_ : α → List Token} {as : List α}
    (hindent : 0 < indent) (hitems : ∀ e ∈ as, ∀ column k r rest, 0 < k → EndsItem rest →
      ∃ k' a', Leads ⟨write column e ++ rest, k, is, d + 1, true, r⟩
        ⟨rest, k', is, d + 1, a', (show_ e).reverse ++ r⟩)
    (hrest : EndsItem rest) (first : Bool) (hfirst : first = true → 0 < k ∧ a = true)
    (column : Nat) : ∃ k' a',
      Leads ⟨writeFlow indent write first column as ++ rest, k, is, d + 1, a, r⟩
        ⟨rest, k', is, d + 1, a', (flowTokens show_ first as).reverse ++ r⟩ := by
  induction as generalizing first k a r column with
  | nil => exact ⟨k, a, refl _⟩
  | cons e as ih =>
    obtain ⟨folded, column₁, column₂, hwrite⟩ := writeFlow_cons indent write first column e as
    have hnext : EndsItem (writeFlow indent write false column₂ as ++ rest) := by
      cases as with
      | nil => exact hrest
      | cons e as => exact ⟨',', _, rfl, Or.inl rfl⟩
    obtain ⟨k₁, hk₁, hcomma⟩ := flowComma first hfirst
    obtain ⟨k₂, hk₂, hgap⟩ := flowGap hindent hk₁ folded first
    obtain ⟨k₃, a₃, hitem⟩ := hitems e List.mem_cons_self column₁ k₂ _ _ hk₂ hnext
    obtain ⟨k₄, a₄, hmore⟩ := ih (fun f hf => hitems f (List.mem_cons_of_mem _ hf)) false
      (fun h => (by cases h)) column₂
    refine ⟨k₄, a₄, ?_⟩
    have h := (hcomma _).trans ((hgap _).trans (hitem.trans hmore))
    rw [hwrite, flowTokens]
    cases first <;> simpa using h

theorem brackets {α : Type} {write : Nat → α → List Char} {show_ : α → List Token} {as : List α}
    {left right : Char} {leftToken rightToken : Token}
    (hbrackets : Brackets left right leftToken rightToken) (hindent : 0 < indent)
    (hdeep : isDeeper k is = true)
    (hitems : ∀ e ∈ as, ∀ column k r rest, 0 < k → EndsItem rest →
      ∃ k' a', Leads ⟨write column e ++ rest, k, is, 1, true, r⟩
        ⟨rest, k', is, 1, a', (show_ e).reverse ++ r⟩) (column : Nat) :
    ∃ k', Leads ⟨left :: (writeFlow indent write true column as ++ right :: rest), k, is, 0, a, r⟩
      ⟨rest, k', is, 0, false,
        (leftToken :: flowTokens show_ true as ++ [rightToken]).reverse ++ r⟩ := by
  have hends : EndsItem (right :: rest) := by
    cases hbrackets with
    | list => exact ⟨']', rest, rfl, Or.inr (Or.inl rfl)⟩
    | map => exact ⟨'}', rest, rfl, Or.inr (Or.inr rfl)⟩
  have hopen :
      Leads ⟨left :: (writeFlow indent write true column as ++ right :: rest), k, is, 0, a, r⟩
        ⟨writeFlow indent write true column as ++ right :: rest, k + 1, is, 1, true,
          leftToken :: r⟩ := by
    apply openFlow _ fun _ => hdeep
    cases hbrackets with
    | list => exact Or.inl ⟨rfl, rfl⟩
    | map => exact Or.inr ⟨rfl, rfl⟩
  obtain ⟨k', a', hflow⟩ := flow (r := leftToken :: r) hindent hitems hends true
    (fun _ => ⟨Nat.succ_pos k, rfl⟩) column
  have hclose : Leads ⟨right :: rest, k', is, 1, a',
      (flowTokens show_ true as).reverse ++ leftToken :: r⟩ ⟨rest, k' + 1, is, 0, false,
      rightToken :: ((flowTokens show_ true as).reverse ++ leftToken :: r)⟩ := by
    apply closeFlow
    cases hbrackets with
    | list => exact Or.inl ⟨rfl, rfl⟩
    | map => exact Or.inr ⟨rfl, rfl⟩
  refine ⟨k' + 1, ?_⟩
  simpa using hopen.trans (hflow.trans hclose)

theorem collection (hv : Writable n v) (hcollection : isScalar v = false) (hblock : isBlock v = false)
    (hindent : 0 < indent) (hwidth : indent + 2 < lineWidth) (hdeep : isDeeper k is = true)
    (column : Nat) : ∃ k', Leads ⟨writeInline indent column v ++ rest, k, is, 0, a, r⟩
      ⟨rest, k', is, 0, false, (inlineTokens v).reverse ++ r⟩ := by
  cases hv with
  | text => cases hcollection
  | int => cases hcollection
  | @list n vs h =>
    rw [isBlock, Bool.not_eq_false', List.all_eq_true] at hblock
    have hitems : ∀ e ∈ vs, ∀ column k r rest, 0 < k → EndsItem rest → ∃ k' a',
        Leads ⟨writeScalar true (indent + 2) column e ++ rest, k, is, 1, true, r⟩
          ⟨rest, k', is, 1, a', [scalarToken true e].reverse ++ r⟩ :=
      fun e he column k r rest hk hrest =>
        scalar_inFlow (h e he) (hblock e he) (Nat.add_pos_left hindent 2) hwidth hk hrest column
    obtain ⟨k', hall⟩ := brackets (a := a) (r := r) .list hindent hdeep hitems (column + 1)
    exact ⟨k', by simpa [writeInline, inlineTokens] using hall⟩
  | @map n es hnames h =>
    rw [isBlock, Bool.not_eq_false', List.all_eq_true] at hblock
    have hitems : ∀ e ∈ es, ∀ column k r rest, 0 < k → EndsItem rest → ∃ k' a',
        Leads ⟨(e.1.toList ++ ':' :: ' ' ::
            writeScalar true (indent + 2) (column + e.1.length + 2) e.2) ++ rest, k, is, 1, true, r⟩
          ⟨rest, k', is, 1, a', (flowEntryTokens e).reverse ++ r⟩ := by
      intro e he column k r rest hk hrest
      have hname := hnames e he
      have hkey : Leads ⟨e.1.toList ++ ':' :: (' ' :: (writeScalar true (indent + 2)
          (column + e.1.length + 2) e.2 ++ rest)), k, is, 1, true, r⟩ _ :=
        key hname.some hname.word hname.short rfl (fun hzero => (by cases hzero))
      obtain ⟨k', a', hvalue⟩ := scalar_inFlow (h e he) (hblock e he) (Nat.add_pos_left hindent 2)
        hwidth (Nat.succ_pos _) hrest (column + e.1.length + 2)
      refine ⟨k', a', ?_⟩
      simpa [flowEntryTokens, opening, opened] using hkey.trans (space.trans hvalue)
    obtain ⟨k', hall⟩ := brackets (a := a) (r := r) .map hindent hdeep hitems (column + 1)
    exact ⟨k', by simpa [writeInline, inlineTokens] using hall⟩

/-- A value on one line of a block, up to the next line. -/
theorem inline {j : Nat} (hv : Writable n v) (hblock : isBlock v = false)
    (hindent : 0 < indent) (hwidth : indent + 2 < lineWidth) (hreach : Lexer.reach is ≤ indent)
    (hcolumn : 0 < k) (hdeep : isDeeper k is = true) (hrest : BeginsLine rest)
    (hless : rest ≠ [] → j < Lexer.reach is) (column : Nat) :
    Leads ⟨writeInline indent column v ++ (Yaml.newLine j ++ rest), k, is, 0, a, r⟩
      ⟨rest, j, is, 0, true, (inlineTokens v).reverse ++ r⟩ := by
  cases hscalar : isScalar v with
  | true =>
    have hshow : writeInline indent column v = writeScalar false indent column v ∧
        inlineTokens v = [scalarToken false v] := by
      cases v with
      | list => cases hscalar
      | map => cases hscalar
      | _ => exact ⟨rfl, rfl⟩
    rw [hshow.1, hshow.2]
    exact scalar_inBlock hv hscalar hindent (by omega) hreach hcolumn hdeep hrest hless column
  | false =>
    obtain ⟨k', h⟩ := collection hv hscalar hblock hindent hwidth hdeep column
    exact h.trans (newLine j)

end View.Leads

end Cadence.Yaml
