import Cadence.Yaml.Reader
import Cadence.Proofs.Yaml.Clean
import Cadence.Proofs.Yaml.Tree

/-!
# What is written is read back

The node of a written value has that value and no faults. So the text of a collection of texts and
short numbers reads as what it was written for.
-/

namespace Cadence.Yaml

variable {n : Nat} {v : Value}

/-! ## Scalars and keys -/

theorem ofPlain_of_plain {inFlow : Bool} {cs : List Char} (h : Style.of inFlow cs = .plain) :
    Meaning.ofPlain cs = .text := by
  unfold Style.of at h
  split_ifs at h with hescape hplain
  cases cs with
  | nil => cases hplain
  | cons c cs =>
    simp only [isPlainText, Bool.and_eq_true, beq_iff_eq] at hplain
    exact hplain.2

theorem value_scalarNode (hv : Writable n v) (hscalar : isScalar v = true) (inFlow : Bool)
    (level : Nat) : (scalarNode inFlow v).value level = (v, []) := by
  cases hv with
  | text n s =>
    have hmeaning : meaning .absent (Style.of inFlow s.toList == .plain) ⟨s.toList, none⟩ = .text := by
      cases hstyle : Style.of inFlow s.toList with
      | plain => exact ofPlain_of_plain hstyle
      | single => rfl
      | double => rfl
    have hvalue : scalarValue .absent (Style.of inFlow s.toList == .plain) ⟨s.toList, none⟩ =
        .ok (.text s) := by
      change valueOf _ (meaning _ _ _) = _
      simp only [hmeaning, valueOf, Content.value, String.ofList_toList]
    rw [scalarNode, Node.value, hvalue]
  | @int n i h =>
    have hvalue : scalarValue .absent true ⟨Text.numeral i, none⟩ = .ok (.int i) := by
      change valueOf _ (Meaning.ofPlain (Text.numeral i)) = _
      rw [Meaning.ofPlain_numeral h]
      rfl
    rw [scalarNode, Node.value, hvalue]
  | list => cases hscalar
  | map => cases hscalar

/-- A key names its entry and merges nothing. -/
theorem nameNode_reads {name : String} (h : IsName name.toList) :
    (nameNode name).isMerge = false ∧ (nameNode name).keyName? = .ok (some name) := by
  have hmeaning : meaning .absent true ⟨name.toList, none⟩ = .text := h.text
  have hvalue : scalarValue .absent true ⟨name.toList, none⟩ = .ok (.text name) := by
    change valueOf _ (meaning _ _ _) = _
    simp only [hmeaning, valueOf, Content.value, String.ofList_toList]
  constructor
  · simp [nameNode, Node.isMerge, Tag.wanted, hmeaning]
  · simp [nameNode, Node.keyName?, Tag.wanted, hmeaning, hvalue]

/-! ## Collections -/

theorem valuesOf_map {node : Value → Node} {vs : List Value}
    (h : ∀ v ∈ vs, ∀ level, (node v).value level = (v, [])) (level : Nat) :
    valuesOf level (vs.map node) = (vs, []) := by
  induction vs with
  | nil => rfl
  | cons v vs ih =>
    rw [List.map_cons, valuesOf, h v List.mem_cons_self,
      ih fun u hu => h u (List.mem_cons_of_mem v hu)]
    rfl

theorem entriesOf_map {node : Value → Node} {es : List (String × Value)}
    (hnames : ∀ e ∈ es, IsName e.1.toList)
    (h : ∀ e ∈ es, ∀ level, (node e.2).value level = (e.2, [])) (level : Nat) :
    entriesOf level (es.map fun e => (nameNode e.1, node e.2)) = { own := es } := by
  induction es with
  | nil => rfl
  | cons e es ih =>
    obtain ⟨hmerge, hname⟩ := nameNode_reads (hnames e List.mem_cons_self)
    rw [List.map_cons]
    unfold entriesOf
    rw [hmerge, if_neg Bool.false_ne_true, hname, h e List.mem_cons_self,
      ih (fun f hf => hnames f (List.mem_cons_of_mem e hf))
        fun f hf => h f (List.mem_cons_of_mem e hf)]
    rfl

theorem itemNodes_eq (vs : List Value) : itemNodes vs = vs.map valueNode := by
  induction vs with
  | nil => rfl
  | cons v vs ih => rw [itemNodes, ih, List.map_cons]

theorem entryNodes_eq (es : List (String × Value)) :
    entryNodes es = es.map fun e => (nameNode e.1, valueNode e.2) := by
  induction es with
  | nil => rfl
  | cons e es ih => rw [entryNodes, ih, List.map_cons]

theorem value_list {node : Value → Node} {vs : List Value}
    (h : ∀ v ∈ vs, ∀ level, (node v).value level = (v, [])) (level : Nat) :
    (Node.list .absent (vs.map node)).value level = (.list vs, []) := by
  rw [Node.value, valuesOf_map h]
  rfl

theorem value_map {node : Value → Node} {es : List (String × Value)}
    (hnames : ∀ e ∈ es, IsName e.1.toList)
    (h : ∀ e ∈ es, ∀ level, (node e.2).value level = (e.2, [])) (level : Nat) :
    (Node.map .absent (es.map fun e => (nameNode e.1, node e.2))).value level = (.map es, []) := by
  rw [Node.value, entriesOf_map hnames h]
  rfl

theorem value_valueNode (hv : Writable n v) (level : Nat) : (valueNode v).value level = (v, []) := by
  induction hv generalizing level with
  | text n s => exact value_scalarNode (.text n s) rfl false level
  | int n h => exact value_scalarNode (.int n h) rfl false level
  | @list n vs h ih =>
    cases hblock : isBlock (.list vs) with
    | true =>
      rw [valueNode, if_pos hblock, itemNodes_eq]
      exact value_list ih level
    | false =>
      rw [valueNode_of_inline hblock]
      rw [isBlock, Bool.not_eq_false', List.all_eq_true] at hblock
      exact value_list (fun v hv => value_scalarNode (h v hv) (hblock v hv) true) level
  | @map n es hnames h ih =>
    cases hblock : isBlock (.map es) with
    | true =>
      rw [valueNode, if_pos hblock, entryNodes_eq]
      exact value_map hnames ih level
    | false =>
      rw [valueNode_of_inline hblock]
      rw [isBlock, Bool.not_eq_false', List.all_eq_true] at hblock
      exact value_map hnames (fun e he => value_scalarNode (h e he) (hblock e he) true) level

/-! ## Texts -/

theorem valueTokens_begin (hcollection : isScalar v = false) : ∃ t ts,
    valueTokens false v = t :: ts ∧ t ∈ [.blockList, .blockMap, .listOpen, .mapOpen] := by
  cases hblock : isBlock v with
  | true =>
    rw [valueTokens_of_block hblock]
    cases v with
    | list => exact ⟨.blockList, _, rfl, by decide⟩
    | map => exact ⟨.blockMap, _, rfl, by decide⟩
    | _ => cases hblock
  | false =>
    rw [valueTokens_of_inline hblock]
    cases v with
    | list => exact ⟨.listOpen, _, rfl, by decide⟩
    | map => exact ⟨.mapOpen, _, rfl, by decide⟩
    | _ => cases hcollection

theorem ofTokens?_valueTokens (hv : Writable n v) (hcollection : isScalar v = false) :
    Node.ofTokens? (valueTokens false v) = .ok (some (valueNode v)) := by
  have hnode := hv.readsNode false (Pending.fuel ⟨valueTokens false v, Pending.standardHandles, []⟩) []
    Pending.standardHandles [] (by simp [Pending.fuel]) (by simp)
  rw [List.append_nil] at hnode
  have hdocument : Node.ofTokens? (valueTokens false v) =
      (Pending.node .block (Pending.fuel ⟨valueTokens false v, Pending.standardHandles, []⟩)
        ⟨valueTokens false v, Pending.standardHandles, []⟩ >>= fun read =>
          read.2.finish >>= fun _ => .ok (some read.1)) := by
    obtain ⟨t, ts, htokens, hmem⟩ := valueTokens_begin hcollection
    rw [htokens]
    simp only [List.mem_cons, List.not_mem_nil, or_false] at hmem
    rcases hmem with rfl | rfl | rfl | rfl <;> rfl
  rw [hdocument]
  rw [placeOf, if_neg Bool.false_ne_true] at hnode
  rw [hnode]
  rfl

/-- A collection of texts and short numbers is read back from its text, whatever is in the texts. -/
theorem read_write (hv : Writable n v) (hcollection : isScalar v = false)
    (hwidth : 2 * n + 4 < lineWidth) : read (write v) = .ok v := by
  have hallowed : (write v).toList.find? (!isAllowed ·) = none := by
    rw [List.find?_eq_none]
    intro c hc
    simp [isAllowed_of_clean (isClean_write hv c hc)]
  unfold read
  dsimp only
  rw [hallowed, tokens_write hv hcollection hwidth, ofTokens?_valueTokens hv hcollection]
  dsimp only [bind, Except.bind]
  rw [value_valueNode hv]
  rfl

end Cadence.Yaml
