import Mathlib.Data.List.Induction
import Cadence.Proofs.Files.Place

/-!
# Changes to a tree

Every operation says what is found at every place afterwards. In a tree that holds together nothing
stands below what is not a folder, and each operation keeps it so.
-/

namespace Cadence.Tree

variable {t t' : Tree} {p : Path} {place above q : Place} {entry : Entry} {name : String}

/-! ## What is found -/

@[simp] theorem find?_root (t : Tree) : t.find? [] = some .folder := rfl

theorem lookup_filter (keep : Place → Bool) (entries : List (Place × Entry)) (q : Place) :
    (entries.filter fun e => keep e.1).lookup q = if keep q then entries.lookup q else none := by
  induction entries with
  | nil => simp
  | cons e rest ih =>
    obtain ⟨other, entry⟩ := e
    by_cases hq : q = other
    · subst hq
      by_cases hkeep : keep q <;> simp [hkeep, ih]
    · have hne : (q == other) = false := by simpa using hq
      by_cases hkeep : keep other <;> simp [List.lookup_cons, hkeep, hne, ih]

theorem find?_put (hplace : place ≠ []) :
    (t.put place entry).find? q = if q = place then some entry else t.find? q := by
  unfold find? put
  have hrest := lookup_filter (· ≠ place) t.entries q
  by_cases hq : q = place
  · simp [hq, hplace]
  · have hne : (q == place) = false := by simpa using hq
    simp only [List.lookup_cons, hne, hrest]
    simp [hq]

theorem find?_clear : (t.clear place).find? q =
    if q ≠ [] ∧ place <+: q then none else t.find? q := by
  unfold find? clear
  have hrest := lookup_filter (fun e => !place.isPrefixOf e) t.entries q
  by_cases hq : q = []
  · simp [hq]
  · rw [if_neg hq, if_neg hq, hrest]
    simp only [← List.isPrefixOf_iff_prefix]
    cases place.isPrefixOf q <;> simp [hq]

theorem find?_clearBelow : (t.clearBelow place).find? q =
    if q ≠ place ∧ place <+: q then none else t.find? q := by
  unfold find? clearBelow
  have hrest := lookup_filter (fun e => !(place.isPrefixOf e && e != place)) t.entries q
  by_cases hq : q = []
  · subst hq
    by_cases hplace : place = [] <;> simp [hplace]
  · rw [if_neg hq, if_neg hq, hrest]
    simp only [← List.isPrefixOf_iff_prefix]
    by_cases hself : q = place <;> cases place.isPrefixOf q <;> simp [hself]

theorem find?_put_self (hplace : place ≠ []) : (t.put place entry).find? place = some entry := by
  rw [find?_put hplace, if_pos rfl]

theorem keeps_put (hplace : place ≠ []) (hnone : t.find? place = none) :
    t.Keeps (t.put place entry) := by
  intro q e hq
  rw [find?_put hplace, if_neg]
  · exact hq
  · rintro rfl
    rw [hnone] at hq
    cases hq

/-! ## Trees that hold together -/

/-- What stands anywhere stands in a folder. -/
def IsSound (t : Tree) : Prop :=
  ∀ place entry, t.find? place = some entry → t.find? place.dropLast = some .folder

theorem isSound_of_entries (h : ∀ e ∈ t.entries, t.find? e.1.dropLast = some .folder) : t.IsSound := by
  intro place entry hfound
  by_cases hplace : place = []
  · rw [hplace]
    rfl
  · obtain ⟨e, he, rfl⟩ := List.mem_map.mp (mem_places_of_find? hfound hplace)
    exact h e he

/-- Everything above something is a folder. -/
theorem IsSound.find?_above (hs : t.IsSound) {more : Place} (hmore : more ≠ [])
    (h : t.find? (place ++ more) = some entry) : t.find? place = some .folder := by
  induction more using List.reverseRecOn generalizing entry with
  | nil => exact absurd rfl hmore
  | append_singleton more name ih =>
    have hfolder := hs _ _ h
    rw [← List.append_assoc, List.dropLast_concat] at hfolder
    by_cases hnone : more = []
    · rwa [hnone, List.append_nil] at hfolder
    · exact ih hnone hfolder

theorem IsSound.nothing_below (hs : t.IsSound) (hnone : t.find? place = none) {more : Place}
    (hmore : more ≠ []) : t.find? (place ++ more) = none := by
  cases hfound : t.find? (place ++ more) with
  | none => rfl
  | some entry =>
    rw [hs.find?_above hmore hfound] at hnone
    cases hnone

theorem IsSound.put (hs : t.IsSound) (hplace : place ≠ [])
    (hfolder : t.find? place.dropLast = some .folder)
    (hkeeps : entry = .folder ∨ t.find? place ≠ some .folder) : (t.put place entry).IsSound := by
  intro q e hq
  have hne : place.dropLast ≠ place := by
    intro hsame
    have := congrArg List.length hsame
    rw [List.length_dropLast] at this
    have := List.length_pos_iff.mpr hplace
    omega
  rw [find?_put hplace] at hq ⊢
  by_cases habove : q.dropLast = place
  · rw [if_pos habove]
    have hother : q ≠ place := fun hsame => hne (by rwa [hsame] at habove)
    rw [if_neg hother] at hq
    rcases hkeeps with rfl | hnot
    · rfl
    · exact absurd (habove ▸ hs q e hq) hnot
  · rw [if_neg habove]
    by_cases hsame : q = place
    · rwa [hsame]
    · rw [if_neg hsame] at hq
      exact hs q e hq

theorem IsSound.clear (hs : t.IsSound) (place : Place) : (t.clear place).IsSound := by
  intro q e hq
  rw [find?_clear] at hq ⊢
  split at hq
  · cases hq
  · next hkept =>
    rw [if_neg]
    · exact hs q e hq
    · rintro ⟨hne, hbelow⟩
      refine hkept ⟨?_, hbelow.trans (List.dropLast_prefix q)⟩
      rintro rfl
      exact hne rfl

/-- A tree in which nothing changed but that some folders were made. -/
structure Grows (t t' : Tree) : Prop where
  working : t'.working = t.working
  found : ∀ q, t'.find? q = t.find? q ∨ t.find? q = none ∧ t'.find? q = some .folder

theorem Grows.refl (t : Tree) : t.Grows t := ⟨rfl, fun _ => .inl rfl⟩

theorem Grows.trans {t₁ t₂ : Tree} (h : t.Grows t₁) (h' : t₁.Grows t₂) : t.Grows t₂ where
  working := by rw [h'.working, h.working]
  found q := by
    rcases h.found q with hsame | ⟨hnone, hnew⟩
    · rw [← hsame]
      exact h'.found q
    · refine .inr ⟨hnone, ?_⟩
      rcases h'.found q with hsame | ⟨hnone', -⟩
      · rwa [hsame]
      · rw [hnew] at hnone'
        cases hnone'

theorem Grows.keeps (h : t.Grows t') : t.Keeps t' := by
  intro q e hq
  rcases h.found q with hsame | ⟨hnone, -⟩
  · rwa [hsame]
  · rw [hq] at hnone
    cases hnone

theorem Grows.sameLinks (h : t.Grows t') : t'.SameLinks t := by
  intro q target
  rcases h.found q with hsame | ⟨hnone, hnew⟩
  · rw [hsame]
  · simp [hnone, hnew]

theorem grows_put (hplace : place ≠ []) (hnone : t.find? place = none) :
    t.Grows (t.put place .folder) where
  working := rfl
  found q := by
    rw [find?_put hplace]
    by_cases hq : q = place
    · rw [if_pos hq, hq]
      exact .inr ⟨hnone, rfl⟩
    · rw [if_neg hq]
      exact .inl rfl

/-! ## Making folders -/

theorem findAt_child (hname : name ≠ "..") :
    t.findAt { p with names := p.names ++ [name] } place = t.find? place := by
  rw [findAt, startOf_child t p hname, if_neg (by simp)]

/-- A path that only goes up leads to a folder. -/
theorem findAt_up (hs : t.IsSound) (hup : p.names.getLast? = some "..")
    (h : t.placeOf false p = .ok place) : t.findAt p place = some .folder := by
  obtain ⟨-, hwalk⟩ := placeOf_eq_ok.mp h
  rw [findAt]
  by_cases hleft : (t.startOf p).2 = []
  · rw [if_pos hleft]
  · have hsuffix : (t.startOf p).2 <:+ p.names := by
      rw [startOf]
      split
      · exact List.suffix_refl _
      · exact List.drop_suffix _ _
    obtain ⟨before, hnames⟩ := hsuffix
    have hlast : (t.startOf p).2 = (t.startOf p).2.dropLast ++ [".."] := by
      rw [← hnames, List.getLast?_append_of_ne_nil _ hleft] at hup
      exact (List.dropLast_append_getLast? ".." hup).symm
    rw [hlast] at hwalk
    obtain ⟨k, middle, -, -, hend⟩ := leads_of_walk (List.cons_ne_nil _ _) hwalk
    obtain ⟨hfolder, hpasses⟩ := walk_cons_ok hend
    cases hpasses with
    | up _ hrest =>
      rw [walk] at hrest
      rw [if_neg hleft, ← Except.ok.inj hrest]
      exact hs _ _ hfolder
    | new hname _ _ _ _ | kept hname _ _ _ _ _ | follow hname _ _ _ _ _ | down hname _ _ _ _ =>
      exact absurd rfl hname

theorem makeFolder_eq (h : t.placeOf false p = .ok place) : t.makeFolder p =
    match t.findAt p place with
    | some _ => .error (.refused .taken p)
    | none => .ok (t.put place .folder) := by
  rw [makeFolder, h]
  rfl

theorem makeFolder_error {e : Failure} (h : t.placeOf false p = .error e) :
    t.makeFolder p = .error e := by
  rw [makeFolder, h]
  rfl

theorem makeFolder_ok (hs : t.IsSound) (h : t.makeFolder p = .ok t') :
    ∃ above name, p.names = p.parent.names ++ [name] ∧ name ≠ ".." ∧ t.LeadsTo p.parent above ∧
      t.find? above = some .folder ∧ t.find? (above ++ [name]) = none ∧
      t' = t.put (above ++ [name]) .folder ∧ t'.LeadsTo p (above ++ [name]) := by
  cases hplace : t.placeOf false p with
  | error e =>
    rw [makeFolder_error hplace] at h
    cases h
  | ok place =>
    rw [makeFolder_eq hplace] at h
    cases hat : t.findAt p place with
    | some entry =>
      rw [hat] at h
      cases h
    | none =>
      rw [hat] at h
      obtain rfl := Except.ok.inj h
      have hnames : p.names ≠ [] := by
        intro hempty
        have hleft : (t.startOf p).2 = [] := by
          unfold startOf
          rw [hempty]
          split <;> rfl
        rw [findAt, if_pos hleft] at hat
        cases hat
      obtain ⟨name, hlast⟩ : ∃ name, p.names.getLast? = some name :=
        ⟨_, List.getLast?_eq_getLast_of_ne_nil hnames⟩
      have hsplit : p.names = p.parent.names ++ [name] :=
        (List.dropLast_append_getLast? name hlast).symm
      have hname : name ≠ ".." := by
        rintro rfl
        rw [findAt_up hs hlast hplace] at hat
        cases hat
      have hchild : { p.parent with names := p.parent.names ++ [name] } = p := by
        rw [← hsplit]
        rfl
      obtain ⟨husable, -⟩ := placeOf_eq_ok.mp hplace
      rw [← hchild] at hplace hat
      rw [findAt_child hname] at hat
      obtain ⟨above, hleads, hfolder, hshort, hwhere⟩ := leadsTo_of_placeOf_child hname hplace
      obtain rfl : place = above ++ [name] := by simpa using hwhere
      refine ⟨above, name, hsplit, hname, hleads, hfolder, hat, rfl, ?_⟩
      have hput : above ++ [name] ≠ [] := by simp
      have hkeeps : t.Keeps (t.put (above ++ [name]) .folder) := keeps_put hput hat
      rw [← hchild]
      exact (hleads.keep hkeeps rfl).child (hkeeps _ _ hfolder) hname hshort
        (husable name (by rw [hsplit]; simp)) (find?_put_self hput) (by simp)

/-- Folders made on the way of a path, each where a first part of the path leads. -/
structure MadeFor (t t' : Tree) (p : Path) : Prop where
  grows : t.Grows t'
  sound : t'.IsSound
  onTheWay : ∀ q, t.find? q = none → t'.find? q = some .folder →
    ∃ n, t'.LeadsTo { p with names := p.names.take n } q

theorem MadeFor.refl (hs : t.IsSound) (p : Path) : t.MadeFor t p where
  grows := .refl t
  sound := hs
  onTheWay q hnone hnew := by
    rw [hnone] at hnew
    cases hnew

theorem MadeFor.of_parent (h : t.MadeFor t' p.parent) : t.MadeFor t' p where
  grows := h.grows
  sound := h.sound
  onTheWay q hnone hnew := by
    obtain ⟨n, hleads⟩ := h.onTheWay q hnone hnew
    refine ⟨min n (p.names.length - 1), ?_⟩
    rwa [← List.take_take, ← List.dropLast_eq_take]

theorem MadeFor.makeFolder {made : Tree} (h : t.MadeFor made p) (hmade : made.makeFolder p = .ok t') :
    t.MadeFor t' p := by
  obtain ⟨above, name, -, -, -, hfolder, hnone, rfl, hleads⟩ := makeFolder_ok h.sound hmade
  have hplace : above ++ [name] ≠ [] := by simp
  have hgrows := grows_put hplace hnone
  refine ⟨h.grows.trans hgrows, h.sound.put hplace (by simpa using hfolder) (.inl rfl), ?_⟩
  intro q hold hnew
  by_cases hq : q = above ++ [name]
  · refine ⟨p.names.length, ?_⟩
    rw [List.take_length, hq]
    exact hleads
  · rw [find?_put hplace, if_neg hq] at hnew
    obtain ⟨n, hway⟩ := h.onTheWay q hold hnew
    exact ⟨n, hway.keep hgrows.keeps rfl⟩

/-- All that the making of a folder and those above it can do. -/
theorem makeFolders_cases {mayExist : Bool} {result : Except Failure Unit}
    (h : t.makeFolders mayExist p = (result, t')) :
    ∃ made, (made = t ∨ (∃ q, t.makeFolder p = .error (.refused .missing q)) ∧ p.names ≠ [] ∧
        ∃ result', t.makeFolders true p.parent = (result', made)) ∧
      (t' = made ∧ (result = .ok () → mayExist = true ∧ made.isFolder p = true) ∨
        made.makeFolder p = .ok t' ∧ result = .ok ()) := by
  have hsettle : ∀ (made : Tree) (e : Failure),
      (if (e.isSystem && mayExist && made.isFolder p) = true then (.ok (), made)
        else (.error e, made)) = (result, t') →
          t' = made ∧ (result = .ok () → mayExist = true ∧ made.isFolder p = true) := by
    intro made e hsettled
    split at hsettled
    · next hmay =>
      cases hsettled
      simp only [Bool.and_eq_true] at hmay
      exact ⟨rfl, fun _ => ⟨hmay.1.2, hmay.2⟩⟩
    · cases hsettled
      exact ⟨rfl, fun hok => by cases hok⟩
  rw [makeFolders] at h
  cases hfirst : t.makeFolder p with
  | ok made =>
    simp only [hfirst] at h
    cases h
    exact ⟨t, .inl rfl, .inr ⟨hfirst, rfl⟩⟩
  | error e =>
    simp only [hfirst] at h
    split at h
    · next heq => cases heq
    · next q heq =>
      obtain rfl := Except.error.inj heq
      split at h
      · cases h
        exact ⟨t, .inl rfl, .inl ⟨rfl, fun hok => by cases hok⟩⟩
      · next hnames =>
        cases hparent : t.makeFolders true p.parent with
        | mk result' made =>
          rw [hparent] at h
          refine ⟨made, .inr ⟨⟨q, rfl⟩, hnames, result', rfl⟩, ?_⟩
          cases result' with
          | error e =>
            cases h
            exact .inl ⟨rfl, fun hok => by cases hok⟩
          | ok _ =>
            -- the folder again, now that those above it are there
            cases hsecond : made.makeFolder p with
            | ok t'' =>
              simp only [hsecond] at h
              cases h
              exact .inr ⟨rfl, rfl⟩
            | error e =>
              simp only [hsecond] at h
              split at h
              · next heq => cases heq
              · cases h
                exact .inl ⟨rfl, fun hok => by cases hok⟩
              · exact .inl (hsettle made _ h)
    · exact ⟨t, .inl rfl, .inl (hsettle t _ h)⟩

theorem makeFolders_madeFor {mayExist : Bool} {result : Except Failure Unit} (hs : t.IsSound)
    (h : t.makeFolders mayExist p = (result, t')) : t.MadeFor t' p := by
  induction hn : p.names.length using Nat.strongRecOn generalizing p mayExist result t' with
  | _ n ih =>
    obtain ⟨made, hmade, hlast⟩ := makeFolders_cases h
    have hbefore : t.MadeFor made p := by
      rcases hmade with rfl | ⟨-, hnames, result', hparent⟩
      · exact .refl hs p
      · have hshorter : p.parent.names.length < n := by
          have := List.length_pos_iff.mpr hnames
          rw [Path.parent, List.length_dropLast]
          omega
        exact (ih _ hshorter hparent rfl).of_parent
    rcases hlast with ⟨rfl, -⟩ | ⟨hlast, -⟩
    · exact hbefore
    · exact hbefore.makeFolder hlast

/-! ## Removing a folder -/

theorem clearBelow_keeps (t : Tree) (place : Place) : (t.clearBelow place).Keeps t := by
  intro q e hq
  rw [find?_clearBelow] at hq
  split at hq
  · cases hq
  · exact hq

theorem clear_clearBelow (t : Tree) (place : Place) :
    (t.clearBelow place).clear place = t.clear place := by
  simp only [clear, clearBelow, List.filter_filter]
  congr 1
  refine List.filter_congr fun e _ => ?_
  cases place.isPrefixOf e.1 <;> simp

/-- A folder below a path is removed with all that is below it, or only emptied when the way to it
leads through it. -/
theorem removeFolder_child {result : Except Failure Unit} (hname : name ≠ "..")
    (h : t.removeFolder { p with names := p.names ++ [name] } = (result, t')) :
    (t' = t ∧ ∃ e, result = .error e) ∨
      ∃ above, t.LeadsTo p above ∧ t.find? (above ++ [name]) = some .folder ∧
        (t' = t.clearBelow (above ++ [name]) ∧ (∃ e, result = .error e) ∨
          t' = t.clear (above ++ [name]) ∧ result = .ok () ∧
            (t.clearBelow (above ++ [name])).LeadsTo p above) := by
  unfold removeFolder at h
  cases hplace : t.placeOf false { p with names := p.names ++ [name] } with
  | error e =>
    simp only [hplace] at h
    cases h
    exact .inl ⟨rfl, e, rfl⟩
  | ok place =>
    obtain ⟨above, hleads, -, -, hwhere⟩ := leadsTo_of_placeOf_child hname hplace
    obtain rfl : place = above ++ [name] := by simpa using hwhere
    simp only [hplace] at h
    split at h
    · next hfound =>
      refine .inr ⟨above, hleads, hfound, ?_⟩
      split at h
      · next e _ =>
        cases h
        exact .inl ⟨rfl, e, rfl⟩
      · next place' hagain =>
        cases h
        obtain ⟨above', hleads', -, -, hwhere'⟩ := leadsTo_of_placeOf_child hname hagain
        obtain rfl := (hleads'.keep (clearBelow_keeps t _) rfl).unique hleads
        obtain rfl : place' = above' ++ [name] := by simpa using hwhere'
        exact .inr ⟨clear_clearBelow t _, rfl, hleads'⟩
    · cases h
      exact .inl ⟨rfl, _, rfl⟩
    · cases h
      exact .inl ⟨rfl, _, rfl⟩
    · cases h
      exact .inl ⟨rfl, _, rfl⟩

/-! ## Looking and writing -/

theorem look_eq (h : t.placeOf true p = .ok place) : t.look p =
    match t.findAt p place with
    | some entry => .ok entry
    | none => .error (.refused .missing p) := by
  rw [look, h]
  rfl

theorem leadsTo_of_look (h : t.look p = .ok entry) : ∃ place, t.LeadsTo p place := by
  cases hplace : t.placeOf true p with
  | error e =>
    rw [look, hplace] at h
    cases h
  | ok place =>
    obtain ⟨husable, hwalk⟩ := placeOf_eq_ok.mp hplace
    by_cases hleft : (t.startOf p).2 = []
    · exact ⟨_, husable, 0, Nat.zero_le _, by rw [hleft]; exact .arrive⟩
    · rcases leadsTo_of_placeOf hplace with hleads | hnone
      · exact ⟨place, hleads⟩
      · rw [look_eq hplace, findAt, if_neg hleft, hnone] at h
        cases h

theorem read_child {bytes : List UInt8} (hname : name ≠ "..")
    (h : t.LeadsTo { p with names := p.names ++ [name] } place)
    (hfound : t.find? place = some (.file bytes)) :
    t.read { p with names := p.names ++ [name] } = .ok bytes := by
  have hlook : t.look { p with names := p.names ++ [name] } = .ok (.file bytes) := by
    rw [look_eq h.placeOf, findAt_child hname, hfound]
  rw [read, hlook]
  rfl

theorem write_child {bytes : List UInt8} (hleads : t.LeadsTo p above) (hname : name ≠ "..")
    (hnone : t.find? (above ++ [name]) = none)
    (h : t.write { p with names := p.names ++ [name] } bytes = .ok t') :
    t' = t.put (above ++ [name]) (.file bytes) ∧
      t'.LeadsTo { p with names := p.names ++ [name] } (above ++ [name]) := by
  cases hplace : t.placeOf true { p with names := p.names ++ [name] } with
  | error e =>
    rw [write, hplace] at h
    cases h
  | ok place =>
    obtain ⟨above', hleads', hfolder, hshort, hwhere⟩ := leadsTo_of_placeOf_child hname hplace
    obtain rfl := hleads'.unique hleads
    obtain rfl : place = above' ++ [name] := by simpa [hnone] using hwhere
    obtain ⟨husable, -⟩ := placeOf_eq_ok.mp hplace
    have hwritten : t.write { p with names := p.names ++ [name] } bytes =
        .ok (t.put (above' ++ [name]) (.file bytes)) := by
      rw [write, hplace]
      simp only [bind, Except.bind, findAt_child hname, hnone]
      rfl
    rw [hwritten] at h
    obtain rfl := Except.ok.inj h
    refine ⟨rfl, ?_⟩
    have hplace : above' ++ [name] ≠ [] := by simp
    have hkeeps : t.Keeps (t.put (above' ++ [name]) (.file bytes)) := keeps_put hplace hnone
    exact (hleads.keep hkeeps rfl).child (hkeeps _ _ hfolder) hname hshort
      (husable name (by simp)) (find?_put_self hplace) (by simp)

end Cadence.Tree
