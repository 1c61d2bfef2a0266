import Cadence.Proofs.Yaml.Faults

/-!
# Texts that ask for the impossible

A well formed text asks for something that does not exist when an escape goes beyond the last character
or a version beyond the longest number, or when a scalar is spelled like a number or a date that there is
not, or is not of the type that its tag asks for.
-/

namespace Cadence.Yaml

/-! ## Scalars -/

/-- A scalar that stands for no value: what it spells does not exist, or is not of the type that its tag
asks for. -/
def HasNoValue (tag : Tag) (isPlain : Bool) (content : Content) : Prop :=
  match tag.wanted with
  | .any => meaning tag isPlain content = .impossible
  | .bool => content.as Meaning.asBool = .impossible
  | .int => content.as Meaning.asInt = .impossible
  | .float => content.as Meaning.asFloat = .impossible
  | .timestamp => content.as Meaning.asDate = .impossible
  | _ => False

theorem valueOf_impossible_iff {content : Content} {m : Meaning} :
    valueOf content m = .error (.impossible content.chars) ↔ m = .impossible := by
  cases m <;> simp [valueOf]

theorem scalarValue_impossible_iff {tag : Tag} {isPlain : Bool} {content : Content} :
    scalarValue tag isPlain content = .error (.impossible content.chars) ↔
      HasNoValue tag isPlain content := by
  unfold scalarValue HasNoValue
  cases tag.wanted with
  | any | bool | int | float | timestamp => exact valueOf_impossible_iff
  | bytes =>
    dsimp only
    split <;> simp
  | null | text | list | map | set | pairs | merge | default | unknown uri => simp

namespace Meaning

theorem splitAt_ne_nil (sep : Char) (cs : List Char) : Text.splitAt sep cs ≠ [] := by
  cases cs with
  | nil => simp [Text.splitAt]
  | cons c cs =>
    rw [Text.splitAt]
    split
    · simp
    · split <;> simp

/-- The parts of a text and the separators between them are the text. -/
theorem flatten_splitAt (sep : Char) (cs : List Char) :
    ((Text.splitAt sep cs).intersperse [sep]).flatten = cs := by
  induction cs with
  | nil => rfl
  | cons c cs ih =>
    rw [Text.splitAt]
    cases hparts : Text.splitAt sep cs with
    | nil => exact absurd hparts (splitAt_ne_nil sep cs)
    | cons part parts =>
      rw [hparts] at ih
      split
      · next hsep => simp [hsep, ih]
      · cases parts <;> simpa using ih

/-- A plain scalar that is spelled like a number or a date, and there is none such: a number in base two
or sixteen without digits, one in base ten with too many, one in base sixty whose first part counts for
more than any double, a day that no calendar has, or a time that no clock shows. -/
inductive NamesNothing (cs : List Char) : Prop where
  | noDigits {ds : List Char}
      (hbody : (unsign cs).2 = '0' :: 'b' :: ds ∨ (unsign cs).2 = '0' :: 'x' :: ds)
      (hds : ∀ d ∈ ds, d = '_')
  | manyDigits {first : List Char} {others : List (List Char)}
      (hbody : Text.splitAt ':' (unsign cs).2 = first :: others) (hfirst : isNumber first = true)
      (hmany : digitLimit < (first.filter (· != '_')).length)
  | manyParts {whole rest : List Char} (hbody : Text.splitAt '.' (unsign cs).2 = [whole, rest])
      (hmany : Double.limit ≤ 60 ^ ((Text.splitAt ':' whole).length - 1))
  | noDay {year month day rest : List Char} (hcs : cs = year ++ '-' :: (month ++ '-' :: (day ++ rest)))
      (hdigits : isDigits 4 4 year ∧ isDigits 1 2 month ∧ isDigits 1 2 day)
      (hday : isDay year month day = false)
  | noTime {year month day rest time : List Char}
      (hcs : cs = year ++ '-' :: (month ++ '-' :: (day ++ rest)))
      (hdigits : isDigits 4 4 year ∧ isDigits 1 2 month ∧ isDigits 1 2 day)
      (hrest : afterDate rest = some time) (htime : clock? time = some false)

theorem decimal?_ne_impossible {negative : Bool} {whole rest : List Char} :
    decimal? negative whole rest ≠ some .impossible := by
  intro h
  obtain ⟨e, -, hfloat⟩ := Option.map_eq_some_iff.mp h
  cases hfloat

/-- Parts in base sixty have a sum unless the first one counts for more than any double. -/
theorem sixtieths?_eq_none {unit : Nat} {sum : Double} {parts : List Double}
    (h : Double.sixtieths? unit sum parts = none) : Double.limit ≤ 60 ^ (parts.length - 1) * unit := by
  induction parts generalizing unit sum with
  | nil => cases h
  | cons x xs ih =>
    rw [Double.sixtieths?] at h
    split at h
    · next hlimit =>
      exact Nat.le_trans hlimit (Nat.le_mul_of_pos_left unit (Nat.pow_pos (by decide)))
    · cases xs with
      | nil => cases h
      | cons y ys =>
        calc Double.limit ≤ 60 ^ ((y :: ys).length - 1) * (60 * unit) := ih h
          _ = 60 ^ ((x :: y :: ys).length - 1) * unit := by
            simp only [List.length_cons, Nat.add_sub_cancel, Nat.pow_succ, Nat.mul_assoc]

theorem sixtieths_impossible {negative : Bool} {parts : List Double}
    (h : sixtieths negative parts = .impossible) : Double.limit ≤ 60 ^ (parts.length - 1) := by
  unfold sixtieths at h
  split at h
  · cases h
  · next hnone => simpa using sixtieths?_eq_none hnone

theorem float?_impossible {cs : List Char} (h : float? cs = some .impossible) : NamesNothing cs := by
  unfold float? at h
  rcases hbody : unsign cs with ⟨negative, body⟩
  rw [hbody] at h
  dsimp only at h
  split at h
  · split at h
    · cases h
    · split at h
      · cases h
      · split at h
        · cases h
        · split at h
          · exact absurd h decimal?_ne_impossible
          · cases h
  · next whole rest _ hparts =>
    split at h
    · next last first others hwhole =>
      split at h
      · refine .manyParts (by rw [hbody, hparts]) ?_
        have hlength := congrArg List.length hwhole
        have hlimit := sixtieths_impossible (Option.some.inj h)
        simp only [List.length_reverse, List.length_cons, List.length_map] at hlength hlimit
        rwa [hlength]
      · cases h
    · split at h
      · exact absurd h decimal?_ne_impossible
      · cases h
  · cases h

theorem based_impossible {negative : Bool} {base : Nat} {ds : List Char}
    (h : based negative base ds = .impossible) : ∀ d ∈ ds, d = '_' := by
  unfold based at h
  split at h
  · next hall => simpa using hall
  · cases h

theorem int?_impossible {cs : List Char} (h : int? cs = some .impossible) : NamesNothing cs := by
  unfold int? at h
  rcases hbody : unsign cs with ⟨negative, body⟩
  rw [hbody] at h
  dsimp only at h
  split at h
  · cases h
  · cases h
  · next ds =>
    split at h
    · exact .noDigits (.inl (by rw [hbody])) (based_impossible (Option.some.inj h))
    · cases h
  · next ds =>
    split at h
    · exact .noDigits (.inr (by rw [hbody])) (based_impossible (Option.some.inj h))
    · cases h
  · split at h
    · cases h
    · cases h
  · split at h
    · next first others hparts =>
      split at h
      · next hnumber =>
        split at h
        · next hmany => exact .manyDigits (by rw [hbody, hparts]) hnumber.1 hmany
        · cases h
      · cases h
    · cases h

theorem isDigits_of_least {least : Nat} {cs : List Char} (hleast : 1 ≤ least)
    (h : isDigits least 2 cs = true) : isDigits 1 2 cs = true := by
  simp only [isDigits, Bool.and_eq_true, decide_eq_true_eq] at h ⊢
  exact ⟨⟨by omega, h.1.2⟩, h.2⟩

theorem date?_impossible {least : Nat} {cs : List Char} (hleast : 1 ≤ least)
    (h : date? least cs = some .impossible) : NamesNothing cs := by
  unfold date? at h
  split at h
  · next year month first more hparts =>
    dsimp only at h
    -- the day stands before whatever comes after the second dash, a time with dashes of its own too
    have hcs := flatten_splitAt '-' cs
    rw [hparts] at hcs
    have hrejoined : cs =
        year ++ '-' :: (month ++ '-' :: ((first :: more).intersperse ['-']).flatten) := by
      rw [← hcs]
      simp
    generalize ((first :: more).intersperse ['-']).flatten = rest at h hrejoined
    rw [← List.takeWhile_append_dropWhile (p := Char.isDigit) (l := rest)] at hrejoined
    split at h
    · cases h
    · next hyear =>
      have hyear : isDigits 4 4 year = true := by simpa using hyear
      split at h
      · split at h
        · next hdigits =>
          rw [Bool.and_eq_true] at hdigits
          split at h
          · cases h
          · next hday =>
            exact .noDay hrejoined
              ⟨hyear, isDigits_of_least hleast hdigits.1, isDigits_of_least hleast hdigits.2⟩
              (by simpa using hday)
        · cases h
      · split at h
        · next hdigits =>
          rw [Bool.and_eq_true] at hdigits
          obtain ⟨fits, hfits, himpossible⟩ := Option.map_eq_some_iff.mp h
          obtain ⟨time, hafter, htime⟩ := Option.bind_eq_some_iff.mp hfits
          cases fits with
          | false => exact .noTime hrejoined ⟨hyear, hdigits⟩ hafter htime
          | true =>
            split at himpossible
            · cases himpossible
            · next hday => exact .noDay hrejoined ⟨hyear, hdigits⟩ (by simpa using hday)
        · cases h
  · cases h

/-- A plain scalar asks for something that does not exist only as a number or a date. -/
theorem ofPlain_impossible {cs : List Char} (h : ofPlain cs = .impossible) : NamesNothing cs := by
  have hfound : ((float? cs).or (int? cs)).or (date? 2 cs) = some .impossible := by
    unfold ofPlain at h
    dsimp only at h
    split at h
    · cases h
    · split at h
      · cases h
      · split at h
        · cases h
        · split at h
          · cases h
          · split at h
            · cases h
            · cases hfound : ((float? cs).or (int? cs)).or (date? 2 cs) with
              | none =>
                rw [hfound] at h
                cases h
              | some m =>
                rw [hfound] at h
                exact congrArg some h
  rcases Option.or_eq_some_iff.mp hfound with hnumber | ⟨-, hdate⟩
  · rcases Option.or_eq_some_iff.mp hnumber with hfloat | ⟨-, hint⟩
    · exact float?_impossible hfloat
    · exact int?_impossible hint
  · exact date?_impossible (by decide) hdate

end Meaning

/-- Where no type is asked for, only what is spelled like a number or a date has no value. -/
theorem HasNoValue.namesNothing {tag : Tag} {isPlain : Bool} {content : Content}
    (h : HasNoValue tag isPlain content) (hany : tag.wanted = .any) :
    Meaning.NamesNothing content.chars := by
  unfold HasNoValue at h
  rw [hany] at h
  dsimp only [meaning] at h
  split at h
  · exact Meaning.ofPlain_impossible h
  · cases h

/-! ## Texts -/

/-- A text of which the scanner or a scalar asks for something that does not exist, when nothing else is
wrong with it before, or less deep. -/
inductive AsksForTheImpossible (cs : List Char) : Prop where
  /-- a character or a version that goes too far -/
  | scanner {e : Problem} (hallowed : ∀ c ∈ cs, isAllowed c = true) (hbeyond : e.IsBeyond)
      (hbroken : Node.ofTokens? (tokens cs) = .error e)
  /-- a value that does not exist -/
  | scalar {node : Node} {tag : Tag} {isPlain : Bool} {content : Content} {level : Nat}
      (hallowed : ∀ c ∈ cs, isAllowed c = true)
      (hnode : Node.ofTokens? (tokens cs) = .ok (some node))
      (hwithin : (Node.scalar tag isPlain content).Within node)
      (hvalue : HasNoValue tag isPlain content)
      (hfirst : Faults.FirstIs (node.value 0).2 level (.impossible content.chars))

theorem read_of_not_allowed {text : String} (h : ¬∀ c ∈ text.toList, isAllowed c = true) :
    ∃ c, read text = .error (.character c) := by
  have hsome : (text.toList.find? (!isAllowed ·)).isSome = true := by
    rw [List.find?_isSome]
    simpa using h
  obtain ⟨c, hc⟩ := Option.isSome_iff_exists.mp hsome
  refine ⟨c, ?_⟩
  unfold read
  simp only [hc]
  rfl

theorem read_of_allowed {text : String} (h : ∀ c ∈ text.toList, isAllowed c = true) :
    read text = (do
      match ← Node.ofTokens? (tokens text.toList) with
      | none => return .null
      | some node =>
        match Faults.first? (node.value 0).2 with
        | none => return (node.value 0).1
        | some problem => .error problem) := by
  have hnone : text.toList.find? (!isAllowed ·) = none := by
    rw [List.find?_eq_none]
    simpa using h
  unfold read
  dsimp only
  split
  · next hsome =>
    rw [hnone] at hsome
    cases hsome
  · rfl

theorem asks_of_read {text : String} {e : Problem} (h : read text = .error e)
    (he : e.isForeign = true) : AsksForTheImpossible text.toList := by
  by_cases hallowed : ∀ c ∈ text.toList, isAllowed c = true
  · rw [read_of_allowed hallowed] at h
    have hends := Node.ofTokens?_ends (tokens text.toList)
    cases hparsed : Node.ofTokens? (tokens text.toList) with
    | error problem =>
      rw [hparsed] at h hends
      obtain rfl := Except.error.inj h
      -- the grammar only passes it on, so the lexer broke off for it
      exact .scanner hallowed (tokens_sound _ _ (hends he) _ rfl he) hparsed
    | ok node? =>
      rw [hparsed] at h
      cases node? with
      | none => cases h
      | some node =>
        cases hfirst : Faults.first? (node.value 0).2 with
        | none =>
          simp only [bind, Except.bind, hfirst] at h
          cases h
        | some problem =>
          simp only [bind, Except.bind, hfirst] at h
          obtain rfl := Except.error.inj h
          obtain ⟨level, hlevel⟩ := Faults.first?_eq_some_iff.mp hfirst
          obtain ⟨tag, isPlain, content, hwithin, hvalue, rfl⟩ :=
            Node.value_from 0 node _ hlevel.mem he
          exact .scalar hallowed hparsed hwithin (scalarValue_impossible_iff.mp hvalue) hlevel
  · obtain ⟨c, hc⟩ := read_of_not_allowed hallowed
    rw [hc] at h
    cases h
    cases he

theorem exists_read_of_asks {text : String} (h : AsksForTheImpossible text.toList) :
    ∃ e, read text = .error e ∧ e.isForeign = true := by
  cases h with
  | scanner hallowed hbeyond hbroken =>
    rw [read_of_allowed hallowed, hbroken]
    exact ⟨_, rfl, hbeyond.isForeign⟩
  | scalar hallowed hnode hwithin hvalue hfirst =>
    rw [read_of_allowed hallowed, hnode]
    simp only [bind, Except.bind, hfirst.first?]
    exact ⟨_, rfl, rfl⟩

theorem read_impossible_iff (text : String) :
    (∃ e, read text = .error e ∧ e.isForeign = true) ↔ AsksForTheImpossible text.toList := by
  constructor
  · rintro ⟨e, h, he⟩
    exact asks_of_read h he
  · exact exists_read_of_asks

end Cadence.Yaml
