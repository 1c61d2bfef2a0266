import Cadence.Proofs.Document.RoundTrip

/-!
# A bar in any spelling

A text with one event is read in the same way however its bar is spelled, as long as the spelling stands
for a number. In base sixteen the digits are not counted, so the bar may be longer than any number that
can be written.
-/

namespace Cadence

open Yaml

namespace Yaml

/-! ## Words in brackets -/

namespace View.Leads

variable {d k : Nat} {is : List Nat} {a : Bool} {r : List Token} {word rest : List Char}

theorem word_inFlow (hsome : word ≠ []) (hword : ∀ c ∈ word, c.isAlphanum = true) (hcolumn : 0 < k)
    (hrest : EndsItem rest) : ∃ k' a', Leads ⟨word ++ rest, k, is, d + 1, a, r⟩
      ⟨rest, k', is, d + 1, a', .scalar true ⟨word, none⟩ :: r⟩ := by
  have hspace : ' ' ∉ word := fun hmem => (by cases hword ' ' hmem)
  have hplain : ∃ k' a', Leads ⟨writePlain 1 0 0 word ++ rest, k, is, d + 1, a, r⟩ _ :=
    plain_inFlow (isSafe_word true hsome hword) Nat.one_pos hcolumn hrest 0
  rwa [writePlain_word hspace] at hplain

/-- More words, each after a comma. -/
theorem words_inFlow {words : List (List Char)}
    (hwords : ∀ word ∈ words, word ≠ [] ∧ ∀ c ∈ word, c.isAlphanum = true) (hrest : EndsItem rest) :
    ∃ k' a', Leads ⟨words.flatMap (fun word => ',' :: ' ' :: word) ++ rest, k, is, d + 1, a, r⟩
      ⟨rest, k', is, d + 1, a',
        (words.flatMap fun word => [.comma, .scalar true ⟨word, none⟩]).reverse ++ r⟩ := by
  induction words generalizing k a r with
  | nil => exact ⟨k, a, refl _⟩
  | cons word words ih =>
    obtain ⟨hsome, hword⟩ := hwords word List.mem_cons_self
    have hnext : EndsItem (words.flatMap (fun word => ',' :: ' ' :: word) ++ rest) := by
      cases words with
      | nil => exact hrest
      | cons next words => exact ⟨',', _, rfl, .inl rfl⟩
    have hgap (cs : List Char) : Leads ⟨',' :: ' ' :: cs, k, is, d + 1, a, r⟩
        ⟨cs, k + 1 + 1, is, d + 1, true, .comma :: r⟩ := comma.trans space
    obtain ⟨k₁, a₁, hhere⟩ : ∃ k₁ a₁, Leads ⟨word ++ _, k + 1 + 1, is, d + 1, true, .comma :: r⟩
        ⟨_, k₁, is, d + 1, a₁, _⟩ := word_inFlow hsome hword (Nat.succ_pos (k + 1)) hnext
    obtain ⟨k', a', hmore⟩ := ih (k := k₁) (a := a₁) (r := .scalar true ⟨word, none⟩ :: .comma :: r)
      fun other hother => hwords other (List.mem_cons_of_mem _ hother)
    refine ⟨k', a', ?_⟩
    simpa using (hgap _).trans (hhere.trans hmore)

/-- A mapping opens with a key. -/
theorem openField {name : List Char} (hsome : name ≠ [])
    (hword : ∀ c ∈ name, c.isAlphanum = true) (hshort : name.length ≤ keyReach)
    (hdeep : d = 0 → isDeeper k is = true) :
    Leads ⟨'{' :: (name ++ ':' :: ' ' :: rest), k, is, d, a, r⟩
      ⟨rest, k + 1 + name.length + 1 + 1, is, d + 1, false,
        .value :: .scalar true ⟨name, none⟩ :: .key :: .mapOpen :: r⟩ :=
  (openFlow (.inr ⟨rfl, rfl⟩) hdeep).trans
    ((key hsome hword hshort rfl fun h => (by cases h)).trans space)

/-- A list opens in brackets. -/
theorem openList : Leads ⟨'[' :: rest, k, is, d + 1, a, r⟩
    ⟨rest, k + 1, is, d + 1 + 1, true, .listOpen :: r⟩ :=
  openFlow (.inl ⟨rfl, rfl⟩) fun h => (by cases h)

end View.Leads

end Yaml

/-! ## One event -/

/-- A text with one event, on the last interval of a bar that is spelled in some way:
`{patterns: [{pattern: [[digits, 4, 8, C, 0]]}]}`. -/
def barChars (digits : List Char) : List Char :=
  '{' :: ("patterns".toList ++ ':' :: ' ' :: '[' ::
    '{' :: ("pattern".toList ++ ':' :: ' ' :: '[' :: '[' ::
      (digits ++ ([['4'], ['8'], ['C'], ['0']].flatMap (fun word => ',' :: ' ' :: word) ++
        [']', ']', '}', ']', '}']))))

def barText (digits : List Char) : String := String.ofList (barChars digits)

def barTokens (digits : List Char) : List Token :=
  let name (s : String) : Token := .scalar true ⟨s.toList, none⟩
  [.mapOpen, .key, name "patterns", .value, .listOpen, .mapOpen, .key, name "pattern", .value,
    .listOpen, .listOpen, .scalar true ⟨digits, none⟩, .comma, name "4", .comma, name "8", .comma,
    name "C", .comma, name "0", .listClose, .listClose, .mapClose, .listClose, .mapClose]

section

variable {digits : List Char}

theorem isClean_barChars (hdigits : ∀ c ∈ digits, c.isAlphanum = true) :
    IsClean (barChars digits) := by
  have hclean : IsClean digits := fun c hc => needsEscape_alphanum (hdigits c hc)
  have hrest : (barChars []).all (!needsEscape ·) = true := by decide
  intro c hc
  have hmem : c ∈ digits ∨ c ∈ barChars [] := by
    simp only [barChars, List.mem_cons, List.mem_append] at hc ⊢
    grind
  rcases hmem with hc | hc
  · exact hclean c hc
  · simpa using List.all_eq_true.mp hrest c hc

theorem Yaml.View.Leads.oneBar (hsome : digits ≠ []) (hdigits : ∀ c ∈ digits, c.isAlphanum = true) :
    ∃ k a, Leads ⟨barChars digits, 0, [], 0, true, []⟩
      ⟨[], k, [], 0, a, (barTokens digits).reverse⟩ := by
  let words := [['4'], ['8'], ['C'], ['0']]
  have hopen (cs : List Char) : Leads ⟨'{' :: ("patterns".toList ++ ':' :: ' ' :: '[' :: '{' ::
      ("pattern".toList ++ ':' :: ' ' :: '[' :: '[' :: cs)), 0, [], 0, true, []⟩ _ :=
    (openField (by decide) (List.all_eq_true.mp rfl) (by decide) fun _ => rfl).trans <| openList.trans <|
      (openField (d := 2) (by decide) (List.all_eq_true.mp rfl) (by decide)
        fun h => (by cases h)).trans <| openList.trans openList
  have hclose (k : Nat) (a : Bool) (r : List Token) :
      Leads ⟨[']', ']', '}', ']', '}'], k, [], 5, a, r⟩ _ :=
    (closeFlow (.inl ⟨rfl, rfl⟩)).trans <| (closeFlow (.inl ⟨rfl, rfl⟩)).trans <|
      (closeFlow (.inr ⟨rfl, rfl⟩)).trans <| (closeFlow (.inl ⟨rfl, rfl⟩)).trans <|
        closeFlow (.inr ⟨rfl, rfl⟩)
  have hwords : ∀ word ∈ words, word ≠ [] ∧ ∀ c ∈ word, c.isAlphanum = true := by simp [words]
  obtain ⟨k₁, a₁, hbar⟩ : ∃ k₁ a₁, Leads
      ⟨digits ++ (words.flatMap (fun word => ',' :: ' ' :: word) ++ _), _, [], 5, true, _⟩
      ⟨_, k₁, [], 5, a₁, _⟩ :=
    word_inFlow hsome hdigits (Nat.succ_pos _) ⟨',', _, rfl, .inl rfl⟩
  obtain ⟨k₂, a₂, hmore⟩ : ∃ k₂ a₂, Leads
      ⟨words.flatMap (fun word => ',' :: ' ' :: word) ++ _, k₁, [], 5, a₁, _⟩
      ⟨_, k₂, [], 5, a₂, _⟩ :=
    words_inFlow hwords ⟨']', _, rfl, .inr (.inl rfl)⟩
  exact ⟨_, _, (hopen _).trans <| hbar.trans <| hmore.trans <| hclose k₂ a₂ _⟩

theorem tokens_barChars (hsome : digits ≠ []) (hdigits : ∀ c ∈ digits, c.isAlphanum = true) :
    tokens (barChars digits) = barTokens digits := by
  obtain ⟨k, a, hleads⟩ := View.Leads.oneBar hsome hdigits
  have hrun := Lexer.run_of_leads hleads (fun _ hj => (by cases hj))
  unfold tokens
  rw [uniformBreaks_of_clean (isClean_barChars hdigits)]
  simpa using hrun

def barNode (digits : List Char) : Node :=
  let event := .list .absent [.scalar .absent true ⟨digits, none⟩, nameNode "4", nameNode "8",
    nameNode "C", nameNode "0"]
  let pattern := .map .absent [(nameNode "pattern", .list .absent [event])]
  .map .absent [(nameNode "patterns", .list .absent [pattern])]

def barDocument (bar : Nat) : Document where
  patterns? := some [{ events? := some [⟨bar, 4, 8, "C", 0⟩] }]

theorem ofTokens?_barTokens (digits : List Char) :
    Node.ofTokens? (barTokens digits) = .ok (some (barNode digits)) := rfl

theorem value_barNode {bar : Nat} (hbar : Meaning.ofPlain digits = .int bar) :
    (barNode digits).value 0 = ((barDocument bar).toValue, []) := by
  have hbar : scalarValue .absent true ⟨digits, none⟩ = .ok (.int bar) := by
    simp [scalarValue, Tag.wanted, meaning, hbar, valueOf]
  have hbeat : scalarValue .absent true ⟨"4".toList, none⟩ = .ok (.int 4) := rfl
  have hinterval : scalarValue .absent true ⟨"8".toList, none⟩ = .ok (.int 8) := rfl
  have hzero : scalarValue .absent true ⟨"0".toList, none⟩ = .ok (.int 0) := rfl
  have hchord : scalarValue .absent true ⟨"C".toList, none⟩ = .ok (.text "C") := rfl
  simp only [barNode, Node.value, valuesOf, entriesOf, nameNode, hbar, hbeat, hinterval, hzero,
    hchord]
  rfl

/-- However a bar is spelled, the text has the document with this bar. -/
theorem ofText_barText {bar : Nat} (hdigits : ∀ c ∈ digits, c.isAlphanum = true)
    (hbar : Meaning.ofPlain digits = .int bar) :
    Document.ofText (barText digits) = .ok (barDocument bar) := by
  have hsome : digits ≠ [] := by
    rintro rfl
    cases hbar
  have hallowed : (barChars digits).find? (!isAllowed ·) = none := by
    rw [List.find?_eq_none]
    intro c hc
    simp [isAllowed_of_clean (isClean_barChars hdigits c hc)]
  have hread : read (barText digits) = .ok (barDocument bar).toValue := by
    simp only [Yaml.read, barText, String.toList_ofList, hallowed, tokens_barChars hsome hdigits,
      ofTokens?_barTokens, value_barNode hbar, bind, Except.bind]
    rfl
  rw [Document.ofText, hread]
  exact (barDocument bar).ofValue_toValue

end

/-! ## Decimal and base sixteen -/

theorem ofText_digits {bar : Nat} (h : isShort bar = true) :
    Document.ofText (barText (Text.digits bar)) = .ok (barDocument bar) := by
  refine ofText_barText (fun c hc => ?_) (Meaning.ofPlain_numeral h)
  rw [Char.isAlphanum, Text.isDigit_of_mem_digits hc, Bool.or_true]

/-- A one and zeros, in base sixteen. -/
def powerDigits (n : Nat) : List Char := '0' :: 'x' :: '1' :: List.replicate n '0'

theorem ofText_powerDigits (n : Nat) :
    Document.ofText (barText (powerDigits n)) = .ok (barDocument (16 ^ n)) := by
  have hzero : ∀ d ∈ List.replicate n '0', d = '0' := fun d hd => List.eq_of_mem_replicate hd
  have hhex : ∀ d ∈ '1' :: List.replicate n '0', Meaning.isHex d = true :=
    List.forall_mem_cons.mpr ⟨rfl, fun d hd => (by rw [hzero d hd]; rfl)⟩
  have hword : ∀ d ∈ powerDigits n, d.isAlphanum = true :=
    List.forall_mem_cons.mpr ⟨rfl, List.forall_mem_cons.mpr ⟨rfl,
      List.forall_mem_cons.mpr ⟨rfl, fun d hd => (by rw [hzero d hd]; rfl)⟩⟩⟩
  apply ofText_barText hword
  rw [powerDigits, Meaning.ofPlain_hex (List.cons_ne_nil _ _) hhex, Meaning.inBase_power]

end Cadence
