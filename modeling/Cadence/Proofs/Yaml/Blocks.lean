import Cadence.Proofs.Yaml.Layout

/-!
# What written blocks look like to the lexer

A block shows its items or entries, whatever follows on a line that is not indented deeper. Its end
shows there too, unless the block is a list in the column of its key.
-/

namespace Cadence.Yaml

/-! ## Tokens -/

mutual

/-- The tokens of a value. A bare list has no beginning and no end of its own. -/
def valueTokens (bare : Bool) : Value → List Token
  | .list vs =>
    if isBlock (.list vs) then
      if bare then itemTokens vs else .blockList :: itemTokens vs ++ [.blockEnd]
    else inlineTokens (.list vs)
  | .map es =>
    if isBlock (.map es) then .blockMap :: entryTokens es ++ [.blockEnd] else inlineTokens (.map es)
  | v => inlineTokens v

def itemTokens : List Value → List Token
  | [] => []
  | v :: vs => .entry :: valueTokens false v ++ itemTokens vs

def entryTokens : List (String × Value) → List Token
  | [] => []
  | (name, v) :: es =>
    .key :: .scalar true ⟨name.toList, none⟩ :: .value :: valueTokens true v ++ entryTokens es

end

/-- The tokens inside of a block, and the one that begins it. -/
def blockTokens : Value → Token × List Token
  | .list vs => (.blockList, itemTokens vs)
  | .map es => (.blockMap, entryTokens es)
  | _ => (.blockEnd, [])

theorem valueTokens_of_inline {v : Value} (h : isBlock v = false) (bare : Bool) :
    valueTokens bare v = inlineTokens v := by
  cases v <;> simp_all [valueTokens]

theorem valueTokens_of_block {v : Value} (h : isBlock v = true) :
    valueTokens false v = (blockTokens v).1 :: (blockTokens v).2 ++ [.blockEnd] := by
  cases v <;> simp_all [valueTokens, blockTokens, isBlock]

/-- A block that begins in the innermost open column or deeper. -/
def ShowsBlock (n : Nat) (v : Value) : Prop :=
  isBlock v = true → ∀ (i k : Nat) (is : List Nat) (r : List Token) (rest : List Char),
    i + 2 * n + 2 < lineWidth → (∀ j ∈ is.head?, j ≤ i) → BeginsLine rest → k ≤ i →
    View.Leads ⟨writeBlock i v ++ (newLine k ++ rest), i, is, 0, true, r⟩
      ⟨rest, k, opened 0 i is, 0, true,
        (blockTokens v).2.reverse ++ (opening (blockTokens v).1 0 i is ++ r)⟩

/-- A collection that may begin in a column is open there afterwards. -/
theorem opened_eq {i : Nat} {is : List Nat} (h : ∀ j ∈ is.head?, j ≤ i) :
    ∃ js, opened 0 i is = i :: js := by
  cases hdeep : isDeeper i is with
  | true => exact ⟨is, opened_of_deeper hdeep⟩
  | false =>
    cases is with
    | nil => cases hdeep
    | cons j js =>
      have hle := h j rfl
      have hge : i ≤ j := by simpa [isDeeper] using hdeep
      obtain rfl : i = j := by omega
      exact ⟨js, opened_of_le hdeep 0⟩

namespace View.Leads

variable {n i k : Nat} {is : List Nat} {r : List Token} {v : Value} {rest : List Char}

theorem deeperBlock (hv : ShowsBlock n v) (hblock : isBlock v = true)
    (hwidth : i + 2 + 2 * n + 2 < lineWidth) (hrest : BeginsLine rest) (hk : k ≤ i) :
    Leads ⟨writeBlock (i + 2) v ++ (Yaml.newLine k ++ rest), i + 2, i :: is, 0, true, r⟩
      ⟨rest, k, i :: is, 0, true, (valueTokens false v).reverse ++ r⟩ := by
  have hdeep : isDeeper (i + 2) (i :: is) = true := by simp [isDeeper]
  have h := hv hblock (i + 2) k (i :: is) r rest hwidth (le_of_deeper hdeep) hrest (by omega)
  rw [opened_of_deeper hdeep, opening_of_deeper hdeep] at h
  have hend := h.trans (close hrest.atToken (by omega))
  rw [valueTokens_of_block hblock]
  simpa using hend

/-- The value of an item, after its dash. -/
theorem item (hwritable : Writable n v) (hv : ShowsBlock n v)
    (hwidth : i + 2 + 2 * n + 2 < lineWidth) (hrest : BeginsLine rest) (hk : k ≤ i) :
    Leads ⟨(if isBlock v then writeBlock (i + 2) v else writeInline (i + 2) (i + 2) v) ++
        (Yaml.newLine k ++ rest), i + 2, i :: is, 0, true, r⟩
      ⟨rest, k, i :: is, 0, true, (valueTokens false v).reverse ++ r⟩ := by
  cases hblock : isBlock v with
  | true => exact deeperBlock hv hblock hwidth hrest hk
  | false =>
    rw [valueTokens_of_inline hblock]
    exact inline hwritable hblock (by omega) (by omega) (Nat.le_succ (i + 1)) (by omega)
      (by simp [isDeeper]) hrest (fun _ => Nat.lt_succ_of_le hk) (i + 2)

theorem items {vs : List Value} (hsome : vs ≠ []) (hvs : ∀ v ∈ vs, Writable n v ∧ ShowsBlock n v)
    (hwidth : i + 2 + 2 * n + 2 < lineWidth) (hclosed : ∀ j ∈ is.head?, j ≤ i)
    (hrest : BeginsLine rest) (hk : k ≤ i) :
    Leads ⟨writeItems i vs ++ (Yaml.newLine k ++ rest), i, is, 0, true, r⟩
      ⟨rest, k, opened 0 i is, 0, true,
        (itemTokens vs).reverse ++ (opening .blockList 0 i is ++ r)⟩ := by
  -- Only the first item may open the list. The others find it open, in the same column.
  induction vs generalizing is r with
  | nil => exact absurd rfl hsome
  | cons v vs ih =>
    obtain ⟨hwritable, hshows⟩ := hvs v List.mem_cons_self
    obtain ⟨js, hopened⟩ := opened_eq hclosed
    rw [hopened]
    have hdash : ∀ cs, Leads ⟨'-' :: ' ' :: cs, i, is, 0, true, r⟩
        ⟨cs, i + 2, i :: js, 0, true, .entry :: (opening .blockList 0 i is ++ r)⟩ := by
      intro cs
      rw [← hopened]
      exact (entry hclosed).trans space
    cases vs with
    | nil =>
      have h := (hdash _).trans (item hwritable hshows hwidth hrest hk)
      simpa [writeItems, itemTokens] using h
    | cons w ws =>
      have hmore := @ih (i :: js) ((valueTokens false v).reverse ++
        (.entry :: (opening .blockList 0 i is ++ r))) (List.cons_ne_nil w ws)
        (fun u hu => hvs u (List.mem_cons_of_mem v hu)) (by simp)
      rw [opened_cons, opening_cons, List.nil_append] at hmore
      have hnext : BeginsLine (writeItems i (w :: ws) ++ (Yaml.newLine k ++ rest)) := .entry _
      have h := ((hdash _).trans (item hwritable hshows hwidth hnext (Nat.le_refl i))).trans hmore
      rw [writeItems, itemTokens]
      simpa using h

end View.Leads

/-- The value of an entry as it is written after the colon. -/
def entryText (indent width : Nat) (v : Value) : List Char :=
  match v with
  | .list _ =>
    if isBlock v then newLine indent ++ writeBlock indent v
    else ' ' :: writeInline (indent + 2) (indent + width + 2) v
  | _ =>
    if isBlock v then newLine (indent + 2) ++ writeBlock (indent + 2) v
    else ' ' :: writeInline (indent + 2) (indent + width + 2) v

theorem writeEntries_cons (indent : Nat) (name : String) (v : Value) (es : List (String × Value)) :
    writeEntries indent ((name, v) :: es) = name.toList ++ ':' :: (entryText indent name.length v ++
      (if es.isEmpty then [] else newLine indent ++ writeEntries indent es)) := by
  cases v <;> simp [writeEntries, entryText]

theorem atGap_entryText (indent width : Nat) (v : Value) (cs : List Char) :
    atGap (entryText indent width v ++ cs) = true := by
  unfold entryText
  split <;> split_ifs <;> rfl

namespace View.Leads

variable {n i k : Nat} {is : List Nat} {r : List Token} {v : Value} {rest : List Char}

/-- The value of an entry, after its colon. A block list may begin in the column of its key. -/
theorem entryValue (hwritable : Writable n v) (hv : ShowsBlock n v)
    (hwidth : i + 2 + 2 * n + 2 < lineWidth) (hrest : BeginsLine rest) (hk : k ≤ i) (width : Nat) :
    Leads ⟨entryText i width v ++ (Yaml.newLine k ++ rest), i + width + 1, i :: is, 0, false, r⟩
      ⟨rest, k, i :: is, 0, true, (valueTokens true v).reverse ++ r⟩ := by
  cases hblock : isBlock v with
  | false =>
    have htext : entryText i width v = ' ' :: writeInline (i + 2) (i + width + 2) v := by
      unfold entryText
      split <;> rw [hblock, if_neg Bool.false_ne_true]
    rw [htext, valueTokens_of_inline hblock]
    exact space.trans (inline hwritable hblock (by omega) (by omega) (Nat.le_succ (i + 1)) (by omega)
      (by simp [isDeeper]; omega) hrest (fun _ => Nat.lt_succ_of_le hk) (i + width + 2))
  | true =>
    cases v with
    | list vs =>
      have h := hv hblock i k (i :: is) r rest (by omega) (by simp) hrest hk
      rw [opened_cons, opening_cons, List.nil_append] at h
      have hline : Leads ⟨Yaml.newLine i ++ (writeBlock i (.list vs) ++ (Yaml.newLine k ++ rest)),
          i + width + 1, i :: is, 0, false, r⟩ _ := newLine i
      have hall := hline.trans h
      simpa [entryText, hblock, valueTokens, blockTokens] using hall
    | map es =>
      have h : Leads ⟨_, _, i :: is, 0, true, r⟩ _ := deeperBlock hv hblock hwidth hrest hk
      have hline : Leads ⟨Yaml.newLine (i + 2) ++ (writeBlock (i + 2) (.map es) ++
          (Yaml.newLine k ++ rest)), i + width + 1, i :: is, 0, false, r⟩ _ := newLine (i + 2)
      have hall := hline.trans h
      simpa [entryText, hblock, valueTokens] using hall
    | _ => cases hblock

theorem entries {es : List (String × Value)} (hsome : es ≠ [])
    (hnames : ∀ e ∈ es, IsName e.1.toList) (hes : ∀ e ∈ es, Writable n e.2 ∧ ShowsBlock n e.2)
    (hwidth : i + 2 + 2 * n + 2 < lineWidth) (hclosed : ∀ j ∈ is.head?, j ≤ i)
    (hrest : BeginsLine rest) (hk : k ≤ i) :
    Leads ⟨writeEntries i es ++ (Yaml.newLine k ++ rest), i, is, 0, true, r⟩
      ⟨rest, k, opened 0 i is, 0, true,
        (entryTokens es).reverse ++ (opening .blockMap 0 i is ++ r)⟩ := by
  -- As for items, but a key stands where they have a dash.
  induction es generalizing is r with
  | nil => exact absurd rfl hsome
  | cons e es ih =>
    obtain ⟨name, v⟩ := e
    obtain ⟨hwritable, hshows⟩ := hes (name, v) List.mem_cons_self
    have hname := hnames (name, v) List.mem_cons_self
    obtain ⟨js, hopened⟩ := opened_eq hclosed
    rw [hopened]
    have hkey : ∀ cs, Leads ⟨name.toList ++ ':' :: (entryText i name.length v ++ cs), i, is, 0, true, r⟩
        ⟨entryText i name.length v ++ cs, i + name.length + 1, i :: js, 0, false,
          .value :: .scalar true ⟨name.toList, none⟩ :: .key ::
            (opening .blockMap 0 i is ++ r)⟩ := by
      intro cs
      rw [← hopened]
      exact key hname.some hname.word hname.short (atGap_entryText i _ v cs) fun _ => hclosed
    rw [writeEntries_cons, entryTokens]
    cases es with
    | nil =>
      have h := (hkey _).trans (entryValue hwritable hshows hwidth hrest hk name.length)
      simpa [entryTokens] using h
    | cons f fs =>
      have hmore := @ih (i :: js) ((valueTokens true v).reverse ++ (.value ::
        .scalar true ⟨name.toList, none⟩ :: .key :: (opening .blockMap 0 i is ++ r)))
        (List.cons_ne_nil f fs) (fun g hg => hnames g (List.mem_cons_of_mem _ hg))
        (fun g hg => hes g (List.mem_cons_of_mem _ hg)) (by simp)
      rw [opened_cons, opening_cons, List.nil_append] at hmore
      have hnext : BeginsLine (writeEntries i (f :: fs) ++ (Yaml.newLine k ++ rest)) := by
        have hf := hnames f (List.mem_cons_of_mem _ List.mem_cons_self)
        obtain ⟨c, cs, hcs⟩ := List.exists_cons_of_ne_nil hf.some
        rw [writeEntries_cons, hcs]
        exact .name (hf.word c (by rw [hcs]; exact List.mem_cons_self)) _
      have h := ((hkey _).trans (entryValue hwritable hshows hwidth hnext (Nat.le_refl i)
        name.length)).trans hmore
      simpa using h

end View.Leads

theorem Writable.showsBlock {n : Nat} {v : Value} (h : Writable n v) : ShowsBlock n v := by
  induction h with
  | text n s => exact fun hblock => (by cases hblock)
  | int n h => exact fun hblock => (by cases hblock)
  | @list n vs h ih =>
    intro hblock i k is r rest hwidth hclosed hrest hk
    have hsome : vs ≠ [] := by
      rintro rfl
      cases hblock
    exact View.Leads.items hsome (fun v hv => ⟨h v hv, ih v hv⟩) (by omega) hclosed hrest hk
  | @map n es hnames h ih =>
    intro hblock i k is r rest hwidth hclosed hrest hk
    have hsome : es ≠ [] := by
      rintro rfl
      cases hblock
    exact View.Leads.entries hsome hnames (fun e he => ⟨h e he, ih e he⟩) (by omega) hclosed hrest hk

end Cadence.Yaml
