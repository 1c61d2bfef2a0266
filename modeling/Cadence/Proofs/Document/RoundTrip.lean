import Cadence.Document.Reader
import Cadence.Proofs.Yaml.RoundTrip

/-!
# Documents are read back from their text

The canonical form of a document is the document again, whatever is set in it. Its text exists unless
a number in it is too long, and then it reads as the document.
-/

namespace Cadence

open Value

/-! ## The canonical form -/

section Fields

variable {α : Type} {name other : String} {toValue : α → Value} {a? : Option α}
  {es : List (String × Value)}

theorem lookup_append (es fs : List (String × Value)) (name : String) :
    lookup (es ++ fs) name = (lookup fs name).or (lookup es name) := by
  unfold lookup
  rw [List.reverse_append, List.lookup_append]

theorem lookup_fieldOf (name : String) (toValue : α → Value) (a? : Option α) :
    lookup (fieldOf name toValue a?) name = a?.map toValue := by
  cases a? with
  | none => rfl
  | some a => simp [fieldOf, lookup]

theorem lookup_fieldOf_ne (h : name ≠ other) (toValue : α → Value) (a? : Option α) :
    lookup (fieldOf other toValue a?) name = none := by
  cases a? with
  | none => rfl
  | some a =>
    have hne : (name == other) = false := beq_false_of_ne h
    simp [fieldOf, lookup, List.lookup_cons, hne]

/-- A field that is set to what passes its check. -/
theorem optionalField_of_lookup (toValue : α → Value) {check : Value → Checked α}
    (h : lookup es name = a?.map toValue) (hnull : ∀ a, toValue a ≠ .null)
    (hcheck : ∀ a, check (toValue a) = .ok a) : optionalField es name check = .ok a? := by
  unfold optionalField
  rw [h]
  cases a? with
  | none => rfl
  | some a =>
    dsimp only [Option.map_some]
    split
    · rename_i heq
      cases heq
    · rename_i heq
      exact absurd (Option.some.inj heq) (hnull a)
    · rename_i heq
      obtain rfl := Option.some.inj heq
      rw [hcheck]
      rfl

theorem items_map {check : Value → Checked α} (hcheck : ∀ a, check (toValue a) = .ok a) (as : List α)
    (first : Nat) : Checked.items check first (as.map toValue) = .ok as := by
  induction as generalizing first with
  | nil => rfl
  | cons a as ih =>
    rw [List.map_cons, Checked.items, hcheck, ih]
    rfl

theorem checkList_map (toValue : α → Value) {check : Value → Checked α}
    (hcheck : ∀ a, check (toValue a) = .ok a) (as : List α) :
    checkList check (.list (as.map toValue)) = .ok as :=
  items_map hcheck as 0

end Fields

@[simp] theorem ofName_ne_null (name : Name) : ofName name ≠ .null := by
  cases name <;> simp [ofName]

@[simp] theorem checkText_ofName (name : Name) : checkText (ofName name) = .ok name := by
  cases name <;> rfl

theorem checkTempo_bpm (t : Tempo) : checkTempo (.int t.bpm) = .ok t := by
  have hle : (t.bpm : Int) ≤ 255 := by exact_mod_cast t.le
  simp [checkTempo, checkInt, t.pos, hle]

theorem checkNat_int (n : Nat) : checkNat (.int n) = .ok n := by
  simp [checkNat, checkInt]

theorem Signature.check_ints (s : Signature) :
    Signature.check (ints [s.numerator, s.denominator]) = .ok s := rfl

theorem Master.check_toValue (m : Master) : Master.check m.toValue = .ok m := by
  obtain ⟨key?, tempo?, signature?⟩ := m
  unfold Master.check Master.toValue
  dsimp only
  generalize hes : fieldOf "key" ofName key? ++ fieldOf "time" (fun t => .int t.bpm) tempo? ++
    fieldOf "signature" (fun s => ints [s.numerator, s.denominator]) signature? = es
  have hkey : optionalField es "key" checkText = .ok key? :=
    optionalField_of_lookup ofName (by simp [← hes, lookup_append, lookup_fieldOf, lookup_fieldOf_ne])
      ofName_ne_null checkText_ofName
  have htempo : optionalField es "time" checkTempo = .ok tempo? :=
    optionalField_of_lookup _ (by simp [← hes, lookup_append, lookup_fieldOf, lookup_fieldOf_ne])
      (by simp) checkTempo_bpm
  have hsignature : optionalField es "signature" Signature.check = .ok signature? :=
    optionalField_of_lookup _ (by simp [← hes, lookup_append, lookup_fieldOf, lookup_fieldOf_ne])
      (by simp [ints]) Signature.check_ints
  rw [hkey, htempo, hsignature]
  rfl

theorem EventEntry.check_toValue (e : EventEntry) : EventEntry.check e.toValue = .ok e := by
  have hfields : EventEntry.check e.toValue = checkFields (fieldNames.zip
      [.int e.bar, .int e.beat, .int e.interval, ofName e.chord, .int e.transpose]) := rfl
  rw [hfields]
  simp [checkFields, fieldNames, requiredField, lookup, List.lookup_cons, checkNat_int, checkInt,
    Checked.under, Checked.both, Except.map]

theorem PatternEntry.check_toValue (p : PatternEntry) : PatternEntry.check p.toValue = .ok p := by
  obtain ⟨name?, master?, events?⟩ := p
  unfold PatternEntry.check PatternEntry.toValue
  dsimp only
  generalize hes : fieldOf "name" ofName name? ++ fieldOf "master" Master.toValue master? ++
    fieldOf "pattern" (fun es => .list (es.map EventEntry.toValue)) events? = es
  have hname : optionalField es "name" checkText = .ok name? :=
    optionalField_of_lookup ofName (by simp [← hes, lookup_append, lookup_fieldOf, lookup_fieldOf_ne])
      ofName_ne_null checkText_ofName
  have hmaster : optionalField es "master" Master.check = .ok master? :=
    optionalField_of_lookup Master.toValue
      (by simp [← hes, lookup_append, lookup_fieldOf, lookup_fieldOf_ne]) (by simp [Master.toValue])
      Master.check_toValue
  have hevents : optionalField es "pattern" (checkList EventEntry.check) = .ok events? :=
    optionalField_of_lookup _ (by simp [← hes, lookup_append, lookup_fieldOf, lookup_fieldOf_ne])
      (by simp) fun es => checkList_map _ EventEntry.check_toValue es
  rw [hname, hmaster, hevents]
  rfl

namespace Document

theorem checkPair_chordValue (chord : Name × List Int) :
    checkPair checkText (checkList checkInt) (chordValue chord) = .ok chord := by
  have hints : checkList checkInt (ints chord.2) = .ok chord.2 :=
    checkList_map .int (fun _ => rfl) chord.2
  simp [chordValue, checkPair, hints, Checked.under, Checked.both]

/-- The canonical form of a document is read as the document. -/
theorem ofValue_toValue (d : Document) : ofValue d.toValue = .ok d := by
  obtain ⟨name?, master?, chords?, patterns?⟩ := d
  unfold ofValue toValue Document.check
  dsimp only
  generalize hes : fieldOf "name" ofName name? ++ fieldOf "master" Master.toValue master? ++
    fieldOf "chords" (fun cs => .list (cs.map chordValue)) chords? ++
    fieldOf "patterns" (fun ps => .list (ps.map PatternEntry.toValue)) patterns? = es
  have hname : optionalField es "name" checkText = .ok name? :=
    optionalField_of_lookup ofName (by simp [← hes, lookup_append, lookup_fieldOf, lookup_fieldOf_ne])
      ofName_ne_null checkText_ofName
  have hmaster : optionalField es "master" Master.check = .ok master? :=
    optionalField_of_lookup Master.toValue
      (by simp [← hes, lookup_append, lookup_fieldOf, lookup_fieldOf_ne]) (by simp [Master.toValue])
      Master.check_toValue
  have hchords : optionalField es "chords" (checkList (checkPair checkText (checkList checkInt))) =
      .ok chords? :=
    optionalField_of_lookup _ (by simp [← hes, lookup_append, lookup_fieldOf, lookup_fieldOf_ne])
      (by simp) fun cs => checkList_map _ checkPair_chordValue cs
  have hpatterns : optionalField es "patterns" (checkList PatternEntry.check) = .ok patterns? :=
    optionalField_of_lookup _ (by simp [← hes, lookup_append, lookup_fieldOf, lookup_fieldOf_ne])
      (by simp) fun ps => checkList_map _ PatternEntry.check_toValue ps
  rw [hname, hmaster, hchords, hpatterns]
  rfl

end Document

/-! ## Numbers that can be written -/

def HasShortNumbers (v : Value) : Prop := ∀ n ∈ Yaml.numbers v, Yaml.isShort n = true

theorem hasShortNumbers_int {n : Int} : HasShortNumbers (.int n) ↔ Yaml.isShort n = true := by
  simp [HasShortNumbers, Yaml.numbers]

theorem hasShortNumbers_list {vs : List Value} :
    HasShortNumbers (.list vs) ↔ ∀ v ∈ vs, HasShortNumbers v := by
  unfold HasShortNumbers
  rw [Yaml.numbers]
  induction vs with
  | nil => simp [Yaml.itemNumbers]
  | cons v vs ih => rw [Yaml.itemNumbers, List.forall_mem_append, List.forall_mem_cons, ih]

theorem hasShortNumbers_map {es : List (String × Value)} :
    HasShortNumbers (.map es) ↔ ∀ e ∈ es, HasShortNumbers e.2 := by
  unfold HasShortNumbers
  rw [Yaml.numbers]
  induction es with
  | nil => simp [Yaml.entryNumbers]
  | cons e es ih => rw [Yaml.entryNumbers, List.forall_mem_append, List.forall_mem_cons, ih]

/-! ## Names made of characters -/

/-- The names in a document: those of its parts, its keys and its chords. -/
def Master.names (m : Master) : List Name := m.key?.toList

def PatternEntry.names (p : PatternEntry) : List Name :=
  p.name?.toList ++ p.master?.toList.flatMap Master.names ++
    p.events?.toList.flatMap fun es => es.map EventEntry.chord

def Document.names (d : Document) : List Name :=
  d.name?.toList ++ d.master?.toList.flatMap Master.names ++ d.customs.map (·.1) ++
    d.patterns?.toList.flatMap fun ps => ps.flatMap PatternEntry.names

/-- Names without halves of characters. -/
def AreWhole (names : List Name) : Prop := ∀ name ∈ names, name.isWhole = true

instance (names : List Name) : Decidable (AreWhole names) :=
  inferInstanceAs (Decidable (∀ name ∈ names, name.isWhole = true))

theorem areWhole_append {names others : List Name} :
    AreWhole (names ++ others) ↔ AreWhole names ∧ AreWhole others := List.forall_mem_append

theorem areWhole_toList {name? : Option Name} :
    AreWhole name?.toList ↔ ∀ name ∈ name?, name.isWhole = true := by
  simp [AreWhole]

theorem areWhole_flatMap {α : Type} {as : List α} {names : α → List Name} :
    AreWhole (as.flatMap names) ↔ ∀ a ∈ as, AreWhole (names a) := by
  simp only [AreWhole, List.mem_flatMap]
  exact ⟨fun h a ha name hname => h name ⟨a, ha, hname⟩, fun h name ⟨a, ha, hname⟩ => h a ha name hname⟩

/-! ## Documents can be written -/

def documentFields : List String :=
  ["name", "master", "chords", "patterns", "key", "time", "signature", "pattern"]

theorem isName_documentFields : ∀ name ∈ documentFields, Yaml.IsName name.toList := by
  have hall : documentFields.all (fun name => decide (Yaml.IsName name.toList)) = true := by decide
  intro name hname
  exact of_decide_eq_true (List.all_eq_true.mp hall name hname)

/-- A value that can be written, as far as its numbers can. -/
def IsPlain (n : Nat) (v : Value) : Prop := HasShortNumbers v → Yaml.Writable n v

section

variable {α : Type} {n : Nat} {toValue : α → Value}

theorem isPlain_name (n : Nat) {name : Name} (h : name.isWhole = true) : IsPlain n (ofName name) := by
  rw [← Name.whole_text h]
  exact fun _ => .text n name.text

theorem isPlain_int (n : Nat) (i : Int) : IsPlain n (.int i) :=
  fun h => .int n (hasShortNumbers_int.mp h)

theorem isPlain_list {vs : List Value} (h : ∀ v ∈ vs, IsPlain n v) : IsPlain (n + 1) (.list vs) := by
  intro hshort
  rw [hasShortNumbers_list] at hshort
  exact .list fun v hv => h v hv (hshort v hv)

theorem isPlain_list_map {as : List α} (h : ∀ a ∈ as, IsPlain n (toValue a)) :
    IsPlain (n + 1) (.list (as.map toValue)) := by
  apply isPlain_list
  intro v hv
  obtain ⟨a, ha, rfl⟩ := List.mem_map.mp hv
  exact h a ha

theorem isPlain_map {es : List (String × Value)}
    (h : ∀ e ∈ es, e.1 ∈ documentFields ∧ IsPlain n e.2) : IsPlain (n + 1) (.map es) := by
  intro hshort
  rw [hasShortNumbers_map] at hshort
  exact .map (fun e he => isName_documentFields e.1 (h e he).1)
    fun e he => (h e he).2 (hshort e he)

theorem isPlain_fieldOf {name : String} (hname : name ∈ documentFields)
    {a? : Option α} (h : ∀ a ∈ a?, IsPlain n (toValue a)) :
    ∀ e ∈ fieldOf name toValue a?, e.1 ∈ documentFields ∧ IsPlain n e.2 := by
  intro e he
  cases a? with
  | none => cases he
  | some a =>
    obtain rfl := List.mem_singleton.mp he
    exact ⟨hname, h a rfl⟩

end

theorem isPlain_ints (n : Nat) (ns : List Int) : IsPlain (n + 1) (ints ns) :=
  isPlain_list_map fun i _ => isPlain_int n i

theorem Master.isPlain_toValue (n : Nat) {m : Master} (h : AreWhole m.names) :
    IsPlain (n + 2) m.toValue := by
  have hkey := areWhole_toList.mp h
  apply isPlain_map
  simp only [List.forall_mem_append]
  exact ⟨⟨isPlain_fieldOf (by decide) fun key hmem => isPlain_name (n + 1) (hkey key hmem),
    isPlain_fieldOf (by decide) fun _ _ => isPlain_int (n + 1) _⟩,
    isPlain_fieldOf (by decide) fun _ _ => isPlain_ints n _⟩

theorem EventEntry.isPlain_toValue {e : EventEntry} (h : e.chord.isWhole = true) :
    IsPlain 1 e.toValue := by
  apply isPlain_list
  simp only [List.forall_mem_cons]
  exact ⟨isPlain_int 0 _, isPlain_int 0 _, isPlain_int 0 _, isPlain_name 0 h, isPlain_int 0 _,
    fun _ h => absurd h List.not_mem_nil⟩

theorem PatternEntry.isPlain_toValue {p : PatternEntry} (h : AreWhole p.names) :
    IsPlain 3 p.toValue := by
  simp only [names, areWhole_append, areWhole_toList, areWhole_flatMap, Option.mem_toList] at h
  obtain ⟨⟨hname, hmaster⟩, hevents⟩ := h
  apply isPlain_map
  simp only [List.forall_mem_append]
  exact ⟨⟨isPlain_fieldOf (by decide) fun name hmem => isPlain_name 2 (hname name hmem),
    isPlain_fieldOf (by decide) fun m hmem => Master.isPlain_toValue 0 (hmaster m hmem)⟩,
    isPlain_fieldOf (by decide) fun es hmem => isPlain_list_map fun e he =>
      EventEntry.isPlain_toValue (hevents es hmem _ (List.mem_map_of_mem he))⟩

namespace Document

theorem isPlain_chordValue {chord : Name × List Int} (h : chord.1.isWhole = true) :
    IsPlain 3 (chordValue chord) := by
  apply isPlain_list
  simp only [List.forall_mem_cons]
  exact ⟨isPlain_name 2 h, isPlain_ints 1 chord.2, fun _ h => absurd h List.not_mem_nil⟩

theorem isPlain_toValue {d : Document} (h : AreWhole d.names) : IsPlain 5 d.toValue := by
  simp only [names, areWhole_append, areWhole_toList, areWhole_flatMap, Option.mem_toList] at h
  obtain ⟨⟨⟨hname, hmaster⟩, hchords⟩, hpatterns⟩ := h
  apply isPlain_map
  simp only [List.forall_mem_append]
  refine ⟨⟨⟨isPlain_fieldOf (by decide) fun name hmem => isPlain_name 4 (hname name hmem),
    isPlain_fieldOf (by decide) fun m hmem => Master.isPlain_toValue 2 (hmaster m hmem)⟩,
    isPlain_fieldOf (by decide) fun cs hmem => isPlain_list_map fun chord hchord => ?_⟩,
    isPlain_fieldOf (by decide) fun ps hmem => isPlain_list_map fun p hp =>
      PatternEntry.isPlain_toValue (hpatterns ps hmem p hp)⟩
  refine isPlain_chordValue (hchords _ (List.mem_map_of_mem ?_))
  rwa [customs, Option.mem_def.mp hmem]

/-! ## Texts -/

/-- The text of a document, if its numbers can be written, reads as the document. -/
theorem ofText_write {d : Document} (hnames : AreWhole d.names) (h : HasShortNumbers d.toValue) :
    ofText (Yaml.write d.toValue) = .ok d := by
  have hread : Yaml.read (Yaml.write d.toValue) = .ok d.toValue :=
    Yaml.read_write (isPlain_toValue hnames h) rfl (by decide)
  unfold ofText
  rw [hread]
  exact d.ofValue_toValue

theorem toText_of_short {d : Document} (h : HasShortNumbers d.toValue) :
    d.toText = .ok (Yaml.write d.toValue) := by
  have hnone : (Yaml.numbers d.toValue).find? (!Yaml.isShort ·) = none := by
    rw [List.find?_eq_none]
    intro n hn
    simp [h n hn]
  unfold toText Yaml.write?
  rw [hnone]

theorem toText_of_long {d : Document} (h : ¬HasShortNumbers d.toValue) :
    ∃ n ∈ Yaml.numbers d.toValue, Yaml.isShort n = false ∧ d.toText = .error ⟨n⟩ := by
  unfold toText Yaml.write?
  cases hfind : (Yaml.numbers d.toValue).find? (!Yaml.isShort ·) with
  | none =>
    rw [List.find?_eq_none] at hfind
    exact absurd (fun n hn => by simpa using hfind n hn) h
  | some n =>
    have hlong := List.find?_some hfind
    exact ⟨n, List.mem_of_find?_eq_some hfind, by simpa using hlong, rfl⟩

/-- A document comes back from its text, whatever characters its names are made of and which of its
fields are set, if no number in it has more digits than are written. If one has, the document has no
text. -/
theorem comes_back_from_its_text (d : Document) :
    (AreWhole d.names → (∀ n ∈ Yaml.numbers d.toValue, n.natAbs < 10 ^ Yaml.Meaning.digitLimit) →
      ∃ text, d.toText = .ok text ∧ ofText text = .ok d) ∧
    ∀ n ∈ Yaml.numbers d.toValue, 10 ^ Yaml.Meaning.digitLimit ≤ n.natAbs →
      ∃ e, d.toText = .error e ∧ e.number ∈ Yaml.numbers d.toValue ∧
        10 ^ Yaml.Meaning.digitLimit ≤ e.number.natAbs := by
  constructor
  · intro hnames hall
    have hshort : HasShortNumbers d.toValue := fun n hn => (isShort_iff n).mpr (hall n hn)
    exact ⟨Yaml.write d.toValue, toText_of_short hshort, ofText_write hnames hshort⟩
  · intro n hn hlong
    have hlong' : ¬HasShortNumbers d.toValue := by
      intro hshort
      have hless := (isShort_iff n).mp (hshort n hn)
      omega
    obtain ⟨m, hm, hmlong, herror⟩ := toText_of_long hlong'
    refine ⟨⟨m⟩, herror, hm, ?_⟩
    rw [← Nat.not_lt, ← isShort_iff, hmlong]
    decide

/-- A document of names that are spelled like other things: a truth value, a number with a zero in
front, a mark, nothing at all, and two lines with blanks around them. -/
def oddNames : Document :=
  { name? := some "no"
    chords? := some [("012", [0, -12]), ("?", []), ("", [7])]
    patterns? := some [{ name? := some " a: \n\n #b " }, {}] }

theorem odd_names_come_back :
    ∃ text, oddNames.toText = .ok text ∧ ofText text = .ok oddNames := by
  have hnames : AreWhole oddNames.names := by decide
  refine (comes_back_from_its_text oddNames).1 hnames ?_
  have hall : (Yaml.numbers oddNames.toValue).all Yaml.isShort = true := by decide
  intro n hn
  exact (isShort_iff n).mp (List.all_eq_true.mp hall n hn)

/-- A document with a chord of one interval that is one digit too long. -/
def farChord : Document :=
  { chords? := some [("a", [((10 ^ Yaml.Meaning.digitLimit : Nat) : Int)])] }

/-- It can be read from plain data, but its text is not there to be read. -/
theorem far_chord_has_no_text :
    ofValue farChord.toValue = .ok farChord ∧
      ¬∃ text, farChord.toText = .ok text ∧ ofText text = .ok farChord := by
  refine ⟨farChord.ofValue_toValue, ?_⟩
  rintro ⟨text, htext, -⟩
  have hlong : ¬HasShortNumbers farChord.toValue := by
    intro hshort
    have hless := (isShort_iff _).mp (hshort _ (List.mem_singleton_self _))
    rw [Int.natAbs_natCast] at hless
    exact Nat.lt_irrefl _ hless
  obtain ⟨n, -, -, herror⟩ := toText_of_long hlong
  rw [herror] at htext
  cases htext

end Document

end Cadence
