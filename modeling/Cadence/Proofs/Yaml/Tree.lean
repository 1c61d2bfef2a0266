import Cadence.Yaml.Node
import Cadence.Proofs.Yaml.Blocks

/-!
# The node of a written value

The tokens of a value are read as one node, whatever follows them. The number of calls that are
allowed is three for each token, so it is never used up.
-/

namespace Cadence.Yaml

/-! ## Nodes -/

def nameNode (name : String) : Node := .scalar .absent true ⟨name.toList, none⟩

def scalarNode (inFlow : Bool) : Value → Node
  | .text s => .scalar .absent (Style.of inFlow s.toList == .plain) ⟨s.toList, none⟩
  | .int n => .scalar .absent true ⟨Text.numeral n, none⟩
  | _ => .empty

def inlineNode : Value → Node
  | .list vs => .list .absent (vs.map (scalarNode true))
  | .map es => .map .absent (es.map fun e => (nameNode e.1, scalarNode true e.2))
  | v => scalarNode false v

mutual

def valueNode : Value → Node
  | .list vs => if isBlock (.list vs) then .list .absent (itemNodes vs) else inlineNode (.list vs)
  | .map es => if isBlock (.map es) then .map .absent (entryNodes es) else inlineNode (.map es)
  | v => inlineNode v

def itemNodes : List Value → List Node
  | [] => []
  | v :: vs => valueNode v :: itemNodes vs

def entryNodes : List (String × Value) → List (Node × Node)
  | [] => []
  | (name, v) :: es => (nameNode name, valueNode v) :: entryNodes es

end

theorem valueNode_of_inline {v : Value} (h : isBlock v = false) : valueNode v = inlineNode v := by
  cases v <;> simp_all [valueNode]

/-! ## Single calls -/

namespace Pending

variable {place : Place} {fuel : Nat} {rest : List Token} {isPlain : Bool} {content : Content}
  {items : List Node} {entries : List (Node × Node)} {hs : List (List Char × List Char)}
  {as : List (List Char × Node)} {p : Pending}

theorem node_scalar : node place (fuel + 1) ⟨.scalar isPlain content :: rest, hs, as⟩ =
    .ok (.scalar .absent isPlain content, ⟨rest, hs, as⟩) := by
  cases place <;> rfl

theorem node_listOpen (h : flowItems true fuel ⟨rest, hs, as⟩ = .ok (items, p)) :
    node place (fuel + 1) ⟨.listOpen :: rest, hs, as⟩ = .ok (.list .absent items, p) := by
  cases place <;>
    simp [node, properties, name, drop, h, bind, Except.bind, pure, Except.pure]

theorem node_mapOpen (h : flowEntries true fuel ⟨rest, hs, as⟩ = .ok (entries, p)) :
    node place (fuel + 1) ⟨.mapOpen :: rest, hs, as⟩ = .ok (.map .absent entries, p) := by
  cases place <;>
    simp [node, properties, name, drop, h, bind, Except.bind, pure, Except.pure]

theorem node_blockList (hplace : place ≠ .flow)
    (h : blockItems fuel ⟨rest, hs, as⟩ = .ok (items, p)) :
    node place (fuel + 1) ⟨.blockList :: rest, hs, as⟩ = .ok (.list .absent items, p) := by
  cases place with
  | flow => exact absurd rfl hplace
  | _ => simp [node, properties, name, drop, h, bind, Except.bind, pure, Except.pure]

theorem node_blockMap (hplace : place ≠ .flow)
    (h : blockEntries fuel ⟨rest, hs, as⟩ = .ok (entries, p)) :
    node place (fuel + 1) ⟨.blockMap :: rest, hs, as⟩ = .ok (.map .absent entries, p) := by
  cases place with
  | flow => exact absurd rfl hplace
  | _ => simp [node, properties, name, drop, h, bind, Except.bind, pure, Except.pure]

theorem node_bare (h : bareItems fuel ⟨.entry :: rest, hs, as⟩ = .ok (items, p)) :
    node .blockValue (fuel + 1) ⟨.entry :: rest, hs, as⟩ = .ok (.list .absent items, p) := by
  simp [node, properties, name, h, bind, Except.bind, pure, Except.pure]

theorem flowItems_scalar (h : flowItems false (fuel + 1) ⟨rest, hs, as⟩ = .ok (items, p))
    (first : Bool) :
    flowItems first (fuel + 2)
        ⟨(if first then [] else [.comma]) ++ .scalar isPlain content :: rest, hs, as⟩ =
      .ok (.scalar .absent isPlain content :: items, p) := by
  rw [flowItems]
  cases first <;> simp [sees, drop, node_scalar, h, bind, Except.bind, pure, Except.pure]

theorem flowEntries_scalar (h : flowEntries false (fuel + 3) ⟨rest, hs, as⟩ = .ok (entries, p))
    (first : Bool) (name : String) :
    flowEntries first (fuel + 4) ⟨(if first then [] else [.comma]) ++ .key ::
        .scalar true ⟨name.toList, none⟩ :: .value :: .scalar isPlain content :: rest, hs, as⟩ =
      .ok ((nameNode name, .scalar .absent isPlain content) :: entries, p) := by
  rw [flowEntries]
  cases first <;>
    simp [sees, drop, nodeOr, valueOr, node_scalar, nameNode, h, bind, Except.bind, pure, Except.pure]

theorem blockItems_entry {tokens : List Token} {item : Node} {q : Pending}
    (hitem : nodeOr [.entry, .blockEnd] .block fuel ⟨tokens, hs, as⟩ = .ok (item, p))
    (h : blockItems fuel p = .ok (items, q)) :
    blockItems (fuel + 1) ⟨.entry :: tokens, hs, as⟩ = .ok (item :: items, q) := by
  rw [blockItems]
  simp [drop, hitem, h, bind, Except.bind, pure, Except.pure]

theorem bareItems_entry {tokens : List Token} {item : Node} {q : Pending}
    (hitem : nodeOr (.entry :: blockStops) .block fuel ⟨tokens, hs, as⟩ = .ok (item, p))
    (h : bareItems fuel p = .ok (items, q)) :
    bareItems (fuel + 1) ⟨.entry :: tokens, hs, as⟩ = .ok (item :: items, q) := by
  rw [bareItems]
  simp [drop, hitem, h, bind, Except.bind, pure, Except.pure]

theorem blockEntries_key {tokens : List Token} {name : String} {value : Node} {q : Pending}
    (hvalue : nodeOr blockStops .blockValue (fuel + 1) ⟨tokens, hs, as⟩ = .ok (value, p))
    (h : blockEntries (fuel + 2) p = .ok (entries, q)) :
    blockEntries (fuel + 3)
        ⟨.key :: .scalar true ⟨name.toList, none⟩ :: .value :: tokens, hs, as⟩ =
      .ok ((nameNode name, value) :: entries, q) := by
  have hkey : nodeOr blockStops .blockValue (fuel + 2)
      ⟨.scalar true ⟨name.toList, none⟩ :: .value :: tokens, hs, as⟩ =
      .ok (nameNode name, ⟨.value :: tokens, hs, as⟩) := rfl
  rw [blockEntries]
  simp [drop, hkey, valueOr, hvalue, h, bind, Except.bind, pure, Except.pure]

theorem nodeOr_eq {stops tokens : List Token} (h : ∀ t ∈ tokens.head?, t ∉ stops) :
    nodeOr stops place (fuel + 1) ⟨tokens, hs, as⟩ = node place fuel ⟨tokens, hs, as⟩ := by
  have hsees : sees ⟨tokens, hs, as⟩ stops = false := by
    cases tokens with
    | nil => rfl
    | cons t ts =>
      rw [Bool.eq_false_iff]
      intro hin
      exact h t rfl (List.contains_iff_mem.mp hin)
  rw [nodeOr, hsees, if_neg Bool.false_ne_true]

end Pending

/-! ## Brackets -/

theorem scalarToken_eq {n : Nat} {v : Value} (hv : Writable n v) (hscalar : isScalar v = true)
    (inFlow : Bool) : ∃ isPlain content, scalarToken inFlow v = .scalar isPlain content ∧
      scalarNode inFlow v = .scalar .absent isPlain content := by
  cases hv with
  | text => exact ⟨_, _, rfl, rfl⟩
  | int => exact ⟨_, _, rfl, rfl⟩
  | list => cases hscalar
  | map => cases hscalar

namespace Pending

variable {n fuel : Nat} {rest : List Token} {hs : List (List Char × List Char)}
  {as : List (List Char × Node)}

theorem flowItems_eq {vs : List Value} (hvs : ∀ v ∈ vs, Writable n v ∧ isScalar v = true)
    (first : Bool) (hfuel : vs.length + 2 ≤ fuel) :
    flowItems first fuel
        ⟨flowTokens (fun v => [scalarToken true v]) first vs ++ .listClose :: rest, hs, as⟩ =
      .ok (vs.map (scalarNode true), ⟨rest, hs, as⟩) := by
  induction vs generalizing first fuel with
  | nil =>
    obtain ⟨fuel, rfl⟩ : ∃ f, fuel = f + 1 := ⟨fuel - 1, by omega⟩
    cases first <;> rfl
  | cons v vs ih =>
    rw [List.length_cons] at hfuel
    obtain ⟨fuel, rfl⟩ : ∃ f, fuel = f + 2 := ⟨fuel - 2, by omega⟩
    obtain ⟨hv, hscalar⟩ := hvs v List.mem_cons_self
    obtain ⟨isPlain, content, htoken, hnode⟩ := scalarToken_eq hv hscalar true
    have hmore := @ih (fuel + 1) (fun u hu => hvs u (List.mem_cons_of_mem v hu)) false (by omega)
    rw [List.map_cons, hnode, flowTokens, htoken, List.append_assoc, List.append_assoc]
    exact flowItems_scalar hmore first

theorem flowEntries_eq {es : List (String × Value)}
    (hes : ∀ e ∈ es, Writable n e.2 ∧ isScalar e.2 = true) (first : Bool)
    (hfuel : es.length + 4 ≤ fuel) :
    flowEntries first fuel ⟨flowTokens flowEntryTokens first es ++ .mapClose :: rest, hs, as⟩ =
      .ok (es.map fun e => (nameNode e.1, scalarNode true e.2), ⟨rest, hs, as⟩) := by
  induction es generalizing first fuel with
  | nil =>
    obtain ⟨fuel, rfl⟩ : ∃ f, fuel = f + 1 := ⟨fuel - 1, by omega⟩
    cases first <;> rfl
  | cons e es ih =>
    rw [List.length_cons] at hfuel
    obtain ⟨fuel, rfl⟩ : ∃ f, fuel = f + 4 := ⟨fuel - 4, by omega⟩
    obtain ⟨hv, hscalar⟩ := hes e List.mem_cons_self
    obtain ⟨isPlain, content, htoken, hnode⟩ := scalarToken_eq hv hscalar true
    have hmore := @ih (fuel + 3) (fun f hf => hes f (List.mem_cons_of_mem e hf)) false (by omega)
    rw [List.map_cons, hnode, flowTokens, flowEntryTokens, htoken, List.append_assoc,
      List.append_assoc]
    exact flowEntries_scalar hmore first e.1

theorem length_flowTokens {α : Type} (show_ : α → List Token) (h : ∀ e, 0 < (show_ e).length)
    (first : Bool) (es : List α) : es.length ≤ (flowTokens show_ first es).length := by
  induction es generalizing first with
  | nil => exact Nat.le_refl 0
  | cons e es ih =>
    have hmore := ih false
    have hshow := h e
    rw [flowTokens, List.length_append, List.length_append, List.length_cons]
    omega

theorem node_inline {v : Value} (hv : Writable n v) (hblock : isBlock v = false) (place : Place)
    (hfuel : 3 * (inlineTokens v).length ≤ fuel) :
    node place fuel ⟨inlineTokens v ++ rest, hs, as⟩ = .ok (inlineNode v, ⟨rest, hs, as⟩) := by
  obtain ⟨fuel, rfl⟩ : ∃ f, fuel = f + 1 := by
    refine ⟨fuel - 1, ?_⟩
    have hpos : 0 < (inlineTokens v).length := by cases v <;> simp [inlineTokens]
    omega
  cases hv with
  | text => exact node_scalar
  | int => exact node_scalar
  | @list n vs h =>
    rw [isBlock, Bool.not_eq_false', List.all_eq_true] at hblock
    have hlength := length_flowTokens (fun v => [scalarToken true v]) (by simp) true vs
    simp only [inlineTokens, List.length_append, List.length_cons, List.length_nil] at hfuel
    have hitems := @flowItems_eq n fuel rest hs as vs (fun v hv => ⟨h v hv, hblock v hv⟩) true
      (by omega)
    have hnode : node place (fuel + 1) ⟨.listOpen :: _, hs, as⟩ = _ := node_listOpen hitems
    simpa [inlineTokens, inlineNode] using hnode
  | @map n es hnames h =>
    rw [isBlock, Bool.not_eq_false', List.all_eq_true] at hblock
    have hlength := length_flowTokens flowEntryTokens (by simp [flowEntryTokens]) true es
    simp only [inlineTokens, List.length_append, List.length_cons, List.length_nil] at hfuel
    have hentries := @flowEntries_eq n fuel rest hs as es (fun e he => ⟨h e he, hblock e he⟩) true
      (by omega)
    have hnode : node place (fuel + 1) ⟨.mapOpen :: _, hs, as⟩ = _ := node_mapOpen hentries
    simpa [inlineTokens, inlineNode] using hnode

end Pending

/-! ## Blocks -/

/-- No token of a collection around a value begins it. -/
theorem valueTokens_head {n : Nat} {v : Value} (hv : Writable n v) (bare : Bool) :
    ∃ t ts, valueTokens bare v = t :: ts ∧ t ∉ [.key, .value, .blockEnd] ∧
      (bare = false → t ≠ .entry) := by
  cases hblock : isBlock v with
  | false =>
    rw [valueTokens_of_inline hblock]
    cases hv with
    | text => exact ⟨_, _, rfl, by simp [scalarToken], by simp [scalarToken]⟩
    | int => exact ⟨_, _, rfl, by simp [scalarToken], by simp [scalarToken]⟩
    | list => exact ⟨_, _, rfl, by decide, by simp⟩
    | map => exact ⟨_, _, rfl, by decide, by simp⟩
  | true =>
    cases hv with
    | text => cases hblock
    | int => cases hblock
    | @list n vs h =>
      cases bare with
      | false => exact ⟨.blockList, _, by rw [valueTokens, if_pos hblock]; rfl, by decide, by simp⟩
      | true =>
        cases vs with
        | nil => cases hblock
        | cons v vs =>
          exact ⟨.entry, _, by rw [valueTokens, if_pos hblock]; rfl, by decide, by simp⟩
    | map hnames h => exact ⟨.blockMap, _, by rw [valueTokens, if_pos hblock]; rfl, by decide, by simp⟩

def placeOf (bare : Bool) : Place := if bare then .blockValue else .block

/-- The tokens of a value are read as its node, with fuel for three calls at each token. After a bare
list no entry may follow. -/
def ReadsNode (v : Value) : Prop :=
  ∀ (bare : Bool) (fuel : Nat) (rest : List Token) (hs : List (List Char × List Char))
    (as : List (List Char × Node)), 3 * (valueTokens bare v).length ≤ fuel →
    (bare = true → rest.head? ≠ some .entry) →
    Pending.node (placeOf bare) fuel ⟨valueTokens bare v ++ rest, hs, as⟩ =
      .ok (valueNode v, ⟨rest, hs, as⟩)

namespace Pending

variable {n fuel : Nat} {rest : List Token} {hs : List (List Char × List Char)}
  {as : List (List Char × Node)}

/-- A value after its mark, if the tokens that would leave it out do not begin it. -/
theorem nodeOr_value {v : Value} {stops : List Token} {bare : Bool} (hv : Writable n v)
    (hreads : ReadsNode v) (hstops : stops ⊆ .entry :: blockStops)
    (hentry : bare = true → .entry ∉ stops) (hfuel : 3 * (valueTokens bare v).length + 1 ≤ fuel)
    (hrest : bare = true → rest.head? ≠ some .entry) :
    nodeOr stops (placeOf bare) fuel ⟨valueTokens bare v ++ rest, hs, as⟩ =
      .ok (valueNode v, ⟨rest, hs, as⟩) := by
  obtain ⟨fuel, rfl⟩ : ∃ f, fuel = f + 1 := ⟨fuel - 1, by omega⟩
  rw [nodeOr_eq, hreads bare fuel rest hs as (by omega) hrest]
  obtain ⟨t, ts, htokens, hnone, hdash⟩ := valueTokens_head hv bare
  intro t' ht' hin
  rw [htokens] at ht'
  obtain rfl := Option.some.inj ht'
  rcases List.mem_cons.mp (hstops hin) with rfl | h
  · cases bare with
    | false => exact hdash rfl rfl
    | true => exact hentry rfl hin
  · exact hnone h

theorem blockItems_eq {vs : List Value} (hvs : ∀ v ∈ vs, Writable n v ∧ ReadsNode v)
    (hfuel : 3 * (itemTokens vs).length + 1 ≤ fuel) :
    blockItems fuel ⟨itemTokens vs ++ .blockEnd :: rest, hs, as⟩ =
      .ok (itemNodes vs, ⟨rest, hs, as⟩) := by
  obtain ⟨fuel, rfl⟩ : ∃ f, fuel = f + 1 := ⟨fuel - 1, by omega⟩
  induction vs generalizing fuel with
  | nil => rfl
  | cons v vs ih =>
    obtain ⟨hv, hreads⟩ := hvs v List.mem_cons_self
    simp only [itemTokens, List.length_append, List.length_cons] at hfuel
    obtain ⟨fuel, rfl⟩ : ∃ f, fuel = f + 1 := ⟨fuel - 1, by omega⟩
    have hitem : nodeOr [.entry, .blockEnd] (placeOf false) (fuel + 1)
        ⟨valueTokens false v ++ (itemTokens vs ++ .blockEnd :: rest), hs, as⟩ = _ :=
      nodeOr_value hv hreads (by decide) (by simp) (by omega) (by simp)
    have hmore := ih (fun u hu => hvs u (List.mem_cons_of_mem v hu)) fuel (by omega)
    rw [itemTokens, itemNodes, List.append_assoc]
    exact blockItems_entry hitem hmore

/-- The items of a bare list, up to a token that is no dash. -/
theorem bareItems_eq {vs : List Value} (hvs : ∀ v ∈ vs, Writable n v ∧ ReadsNode v)
    (hfuel : 3 * (itemTokens vs).length ≤ fuel + 1) (hpos : 0 < fuel)
    (hrest : rest.head? ≠ some .entry) :
    bareItems fuel ⟨itemTokens vs ++ rest, hs, as⟩ = .ok (itemNodes vs, ⟨rest, hs, as⟩) := by
  obtain ⟨fuel, rfl⟩ : ∃ f, fuel = f + 1 := ⟨fuel - 1, by omega⟩
  induction vs generalizing fuel with
  | nil =>
    cases rest with
    | nil => rfl
    | cons t ts =>
      cases t with
      | entry => exact absurd rfl hrest
      | _ => rfl
  | cons v vs ih =>
    obtain ⟨hv, hreads⟩ := hvs v List.mem_cons_self
    simp only [itemTokens, List.length_append, List.length_cons] at hfuel
    obtain ⟨fuel, rfl⟩ : ∃ f, fuel = f + 1 := ⟨fuel - 1, by omega⟩
    have hitem : nodeOr (.entry :: blockStops) (placeOf false) (fuel + 1)
        ⟨valueTokens false v ++ (itemTokens vs ++ rest), hs, as⟩ = _ :=
      nodeOr_value hv hreads (List.Subset.refl _) (by simp) (by omega) (by simp)
    have hmore := ih (fun u hu => hvs u (List.mem_cons_of_mem v hu)) fuel (by omega) (by omega)
    rw [itemTokens, itemNodes, List.append_assoc]
    exact bareItems_entry hitem hmore

theorem blockEntries_eq {es : List (String × Value)}
    (hes : ∀ e ∈ es, Writable n e.2 ∧ ReadsNode e.2)
    (hfuel : 3 * (entryTokens es).length + 1 ≤ fuel) :
    blockEntries fuel ⟨entryTokens es ++ .blockEnd :: rest, hs, as⟩ =
      .ok (entryNodes es, ⟨rest, hs, as⟩) := by
  obtain ⟨fuel, rfl⟩ : ∃ f, fuel = f + 1 := ⟨fuel - 1, by omega⟩
  induction es generalizing fuel with
  | nil => rfl
  | cons e es ih =>
    obtain ⟨name, v⟩ := e
    obtain ⟨hv, hreads⟩ := hes (name, v) List.mem_cons_self
    simp only [entryTokens, List.length_append, List.length_cons] at hfuel
    obtain ⟨fuel, rfl⟩ : ∃ f, fuel = f + 2 := ⟨fuel - 2, by omega⟩
    have hnext : (entryTokens es ++ .blockEnd :: rest).head? ≠ some .entry := by
      cases es with
      | nil => simp [entryTokens]
      | cons f fs => simp [entryTokens]
    have hvalue : nodeOr blockStops (placeOf true) (fuel + 1)
        ⟨valueTokens true v ++ (entryTokens es ++ .blockEnd :: rest), hs, as⟩ = _ :=
      nodeOr_value hv hreads (by decide) (by decide) (by omega) (fun _ => hnext)
    have hmore := ih (fun f hf => hes f (List.mem_cons_of_mem _ hf)) (fuel + 1) (by omega)
    simp only [entryTokens, entryNodes, List.cons_append, List.append_assoc]
    exact blockEntries_key hvalue hmore

end Pending

theorem Writable.readsNode {n : Nat} {v : Value} (hv : Writable n v) : ReadsNode v := by
  induction hv with
  | text n s =>
    intro bare fuel rest hs as hfuel _
    exact Pending.node_inline (.text n s) rfl (placeOf bare) hfuel
  | int n h =>
    intro bare fuel rest hs as hfuel _
    exact Pending.node_inline (.int n h) rfl (placeOf bare) hfuel
  | @list n vs h ih =>
    intro bare fuel rest hs as hfuel hrest
    cases hblock : isBlock (.list vs) with
    | false =>
      rw [valueTokens_of_inline hblock] at hfuel ⊢
      rw [valueNode_of_inline hblock]
      exact Pending.node_inline (.list h) hblock (placeOf bare) hfuel
    | true =>
      have hvs : ∀ v ∈ vs, Writable n v ∧ ReadsNode v := fun v hv => ⟨h v hv, ih v hv⟩
      rw [valueTokens, if_pos hblock] at hfuel ⊢
      rw [valueNode, if_pos hblock]
      cases bare with
      | false =>
        simp only [Bool.false_eq_true, if_false, List.length_append, List.length_cons,
          List.length_nil] at hfuel ⊢
        obtain ⟨fuel, rfl⟩ : ∃ f, fuel = f + 1 := ⟨fuel - 1, by omega⟩
        rw [List.append_assoc]
        exact Pending.node_blockList (by decide) (Pending.blockItems_eq hvs (by omega))
      | true =>
        -- A bare list has no token of its own: its first dash is what begins the value.
        cases vs with
        | nil => cases hblock
        | cons v vs =>
          simp only [if_true, itemTokens, List.length_append, List.length_cons] at hfuel ⊢
          obtain ⟨fuel, rfl⟩ : ∃ f, fuel = f + 1 := ⟨fuel - 1, by omega⟩
          apply Pending.node_bare
          have hitems : Pending.bareItems fuel ⟨itemTokens (v :: vs) ++ rest, hs, as⟩ = _ :=
            Pending.bareItems_eq hvs
              (by simp only [itemTokens, List.length_append, List.length_cons]; omega) (by omega)
              (hrest rfl)
          exact hitems
  | @map n es hnames h ih =>
    intro bare fuel rest hs as hfuel hrest
    cases hblock : isBlock (.map es) with
    | false =>
      rw [valueTokens_of_inline hblock] at hfuel ⊢
      rw [valueNode_of_inline hblock]
      exact Pending.node_inline (.map hnames h) hblock (placeOf bare) hfuel
    | true =>
      have hes : ∀ e ∈ es, Writable n e.2 ∧ ReadsNode e.2 := fun e he => ⟨h e he, ih e he⟩
      rw [valueTokens, if_pos hblock] at hfuel ⊢
      rw [valueNode, if_pos hblock]
      simp only [List.length_append, List.length_cons, List.length_nil] at hfuel
      obtain ⟨fuel, rfl⟩ : ∃ f, fuel = f + 1 := ⟨fuel - 1, by omega⟩
      simp only [List.cons_append, List.append_assoc, List.nil_append]
      apply Pending.node_blockMap _ (Pending.blockEntries_eq hes (by omega))
      cases bare <;> decide

end Cadence.Yaml
