import Mathlib.Data.List.Perm.Subperm
import Cadence.Proofs.Files.Walk

/-!
# Places that paths lead to

A path leads to a place when a walk of it arrives at something. Resolving looks at links only, so it
finds the same place, also in any other tree with the same links: no link is walked through while it is
being followed, for then the walk would need more links than it has.
-/

namespace Cadence

/-! ## Names in a folder -/

namespace Path

variable {name : String}

/-- A path that a file system can have. -/
def IsUsable (p : Path) : Prop := ∀ name ∈ p.names, '\x00' ∉ name.toList

theorem isPlainName_iff : isPlainName name = true ↔
    name ≠ "" ∧ name ≠ "." ∧ name ≠ ".." ∧ ∀ c ∈ name.toList, c ≠ '/' ∧ c ≠ '\\' ∧ c ≠ '\x00' := by
  simp [isPlainName, isReserved, and_assoc]

theorem ofString_plain (h : isPlainName name = true) : ofString name = ⟨"", [name]⟩ := by
  obtain ⟨hempty, hdot, -, hchars⟩ := isPlainName_iff.mp h
  have habsent : '/' ∉ name.toList := fun hmem => (hchars _ hmem).1 rfl
  have hslashes : name.toList.takeWhile (· == '/') = [] := by
    cases hcs : name.toList with
    | nil => rfl
    | cons c cs =>
      rw [hcs] at habsent
      simp [Ne.symm (List.ne_of_not_mem_cons habsent)]
  have hkept : name.toList ≠ [] ∧ name.toList ≠ ['.'] := by
    refine ⟨by simpa using hempty, fun hone => hdot ?_⟩
    rw [← String.ofList_toList (s := name), hone]
  simp [ofString, hslashes, rootOf, Text.splitAt_of_not_mem habsent, hkept]

theorem child_plain (p : Path) (h : isPlainName name = true) :
    p.child name = { p with names := p.names ++ [name] } := by
  rw [child, ofString_plain h, join, if_neg (by simp [isAbsolute])]

end Path

namespace Tree

variable {t t' : Tree} {p : Path} {k : Nat} {here place above : Place} {name : String}
  {names : List String}

/-! ## Paths -/

/-- A path leads to a place, with no more links on the way than a walk may follow. -/
def LeadsTo (t : Tree) (p : Path) (place : Place) : Prop :=
  p.IsUsable ∧ ∃ k ≤ linkLimit, t.Leads k (t.startOf p).1 (t.startOf p).2 place

theorem LeadsTo.unique {place' : Place} (h : t.LeadsTo p place) (h' : t.LeadsTo p place') :
    place = place' := by
  obtain ⟨-, k, -, hleads⟩ := h
  obtain ⟨-, m, -, hleads'⟩ := h'
  exact (hleads.unique hleads').2

theorem startOf_congr (h : t'.working = t.working) (p : Path) : t'.startOf p = t.startOf p := by
  rw [startOf, startOf, h]

theorem LeadsTo.keep (h : t.LeadsTo p place) (hkeeps : t.Keeps t') (hworking : t'.working = t.working) :
    t'.LeadsTo p place := by
  obtain ⟨hnames, k, hk, hleads⟩ := h
  refine ⟨hnames, k, hk, ?_⟩
  rw [startOf_congr hworking]
  exact hleads.keep hkeeps

theorem placeOf_eq_ok {followLast : Bool} : t.placeOf followLast p = .ok place ↔
    p.IsUsable ∧ t.walk followLast linkLimit (t.startOf p).1 (t.startOf p).2 = .ok place := by
  unfold placeOf
  by_cases hnames : p.IsUsable
  · have hany : p.names.any (·.toList.contains '\x00') = false := by
      simpa [Path.IsUsable] using hnames
    rw [hany]
    cases t.walk followLast linkLimit (t.startOf p).1 (t.startOf p).2 <;> simp [hnames]
  · have hany : p.names.any (·.toList.contains '\x00') = true := by
      simpa [Path.IsUsable] using hnames
    rw [hany]
    simp [hnames]

theorem LeadsTo.placeOf (h : t.LeadsTo p place) : t.placeOf true p = .ok place := by
  obtain ⟨hnames, k, hk, hleads⟩ := h
  have hwalk : t.walk true linkLimit (t.startOf p).1 ((t.startOf p).2 ++ []) = _ :=
    hleads.walk hk [] (.inr rfl)
  rw [List.append_nil, Tree.walk] at hwalk
  exact placeOf_eq_ok.mpr ⟨hnames, hwalk⟩

theorem leadsTo_of_placeOf (h : t.placeOf true p = .ok place) :
    t.LeadsTo p place ∨ t.find? place = none := by
  obtain ⟨hnames, hwalk⟩ := placeOf_eq_ok.mp h
  exact (leads_of_walk_all hwalk).imp_left fun hleads => ⟨hnames, hleads⟩

/-! ## Children -/

theorem startOf_child (t : Tree) (p : Path) (hname : name ≠ "..") :
    t.startOf { p with names := p.names ++ [name] } =
      ((t.startOf p).1, (t.startOf p).2 ++ [name]) := by
  have hup : ((p.names ++ [name]).takeWhile (· = "..")).length =
      (p.names.takeWhile (· = "..")).length := by
    rw [List.takeWhile_append]
    split
    · next hall => simp [hname, hall]
    · rfl
  have hle : (p.names.takeWhile (· = "..")).length ≤ p.names.length :=
    (List.takeWhile_prefix _).length_le
  by_cases habs : p.isAbsolute
  · have habs' : ({ p with names := p.names ++ [name] } : Path).isAbsolute = true := habs
    rw [startOf, startOf, if_pos habs, if_pos habs']
  · have habs' : ¬({ p with names := p.names ++ [name] } : Path).isAbsolute = true := habs
    rw [startOf, startOf, if_neg habs, if_neg habs']
    simp only [hup, List.drop_append_of_le_length hle]

/-- A path with one more name leads into the folder that the path leads to, and on from there if a
link is followed. -/
theorem leadsTo_of_placeOf_child {followLast : Bool} (hname : name ≠ "..")
    (h : t.placeOf followLast { p with names := p.names ++ [name] } = .ok place) :
    ∃ above, t.LeadsTo p above ∧ t.find? above = some .folder ∧ name.utf8ByteSize ≤ nameLimit ∧
      (place = above ++ [name] ∨
        followLast = true ∧ ∃ target, t.find? (above ++ [name]) = some (.link target)) := by
  obtain ⟨hnames, hwalk⟩ := placeOf_eq_ok.mp h
  rw [startOf_child t p hname] at hwalk
  obtain ⟨k, above, hk, hleads, hlast⟩ := leads_of_walk (List.cons_ne_nil _ _) hwalk
  have husable : p.IsUsable := fun n hn => hnames n (List.mem_append_left _ hn)
  obtain ⟨hfolder, hpasses⟩ := walk_cons_ok hlast
  refine ⟨above, ⟨husable, k, hk, hleads⟩, hfolder, ?_⟩
  cases hpasses with
  | up hup _ => exact absurd hup hname
  | new _ hshort _ _ hplace => exact ⟨hshort, .inl hplace⟩
  | kept _ hshort _ _ _ hplace => exact ⟨hshort, .inl hplace⟩
  | @follow _ hshort target hlink hmore _ _ _ =>
    exact ⟨hshort, .inr ⟨by simpa using hmore, target, hlink⟩⟩
  | down _ hshort _ _ hrest =>
    rw [walk] at hrest
    exact ⟨hshort, .inl (Except.ok.inj hrest).symm⟩

theorem LeadsTo.placeOf_child (followLast : Bool) (h : t.LeadsTo p above)
    (hfolder : t.find? above = some .folder) (hname : name ≠ "..")
    (hshort : name.utf8ByteSize ≤ nameLimit) (husable : '\x00' ∉ name.toList)
    (hlast : followLast = false ∨ ∀ target, t.find? (above ++ [name]) ≠ some (.link target)) :
    t.placeOf followLast { p with names := p.names ++ [name] } = .ok (above ++ [name]) := by
  obtain ⟨hnames, k, hk, hleads⟩ := h
  refine placeOf_eq_ok.mpr ⟨?_, ?_⟩
  · intro n hn
    rcases List.mem_append.mp hn with hn | hn
    · exact hnames n hn
    · rwa [List.mem_singleton.mp hn]
  · rw [startOf_child t p hname, hleads.walk hk [name] (.inl (List.cons_ne_nil _ _)),
      walk_last hfolder hname hshort hlast]

theorem LeadsTo.of_child (hname : name ≠ "..")
    (h : t.LeadsTo { p with names := p.names ++ [name] } place) :
    ∃ above, t.LeadsTo p above ∧ t.find? above = some .folder ∧ name.utf8ByteSize ≤ nameLimit := by
  obtain ⟨hnames, k, hk, hleads⟩ := h
  rw [startOf_child t p hname] at hleads
  obtain ⟨m, n, above, hsum, hfirst, hlast⟩ := hleads.of_append
  refine ⟨above, ⟨fun n hn => hnames n (List.mem_append_left _ hn), m, by omega, hfirst⟩, ?_⟩
  cases hlast with
  | up _ _ => exact absurd rfl hname
  | down hhere _ hshort _ _ _ | follow hhere _ hshort _ _ _ => exact ⟨hhere, hshort⟩

theorem LeadsTo.child {entry : Entry} (h : t.LeadsTo p above)
    (hfolder : t.find? above = some .folder) (hname : name ≠ "..")
    (hshort : name.utf8ByteSize ≤ nameLimit) (husable : '\x00' ∉ name.toList)
    (hfound : t.find? (above ++ [name]) = some entry) (hkind : ∀ target, entry ≠ .link target) :
    t.LeadsTo { p with names := p.names ++ [name] } (above ++ [name]) := by
  have hplace := h.placeOf_child true hfolder hname hshort husable
    (.inr fun target hlink => hkind target (Option.some.inj (hfound.symm.trans hlink)))
  rcases leadsTo_of_placeOf hplace with hleads | hnone
  · exact hleads
  · rw [hfound] at hnone
    cases hnone

/-! ## Resolving -/

/-- A link and the links that are followed when its names are walked. -/
def Spends (t : Tree) (link : Place) (k : Nat) : Prop :=
  ∃ target place, t.find? link = some (.link target) ∧
    t.Leads k (linkStart link.dropLast target) (Path.ofString target).names place

theorem Spends.unique {link : Place} {m : Nat} (h : t.Spends link k) (h' : t.Spends link m) :
    k = m := by
  obtain ⟨target, place, hlink, hleads⟩ := h
  obtain ⟨target', place', hlink', hleads'⟩ := h'
  rw [hlink] at hlink'
  cases hlink'
  exact (hleads.unique hleads').1

/-- Two trees with the same links. -/
def SameLinks (t t' : Tree) : Prop :=
  ∀ place target, t.find? place = some (.link target) ↔ t'.find? place = some (.link target)

theorem resolveFrom_skip {following : List Place} {depth : Nat} {rest : List String}
    (hname : name ≠ "..") (hnone : ∀ target, t.find? (here ++ [name]) ≠ some (.link target)) :
    t.resolveFrom following depth here (name :: rest) =
      t.resolveFrom following depth (here ++ [name]) rest := by
  rw [resolveFrom, if_neg hname]
  cases hfound : t.find? (here ++ [name]) with
  | none => simp only [hfound]
  | some entry =>
    cases entry with
    | folder | file bytes => simp only [hfound]
    | link target => exact absurd hfound (hnone target)

theorem resolveFrom_follow {following : List Place} {deeper : Nat} {middle : Place}
    {rest : List String} {target : String} (hname : name ≠ "..")
    (hlink : t.find? (here ++ [name]) = some (.link target)) (hnew : here ++ [name] ∉ following)
    (hinner : t.resolveFrom ((here ++ [name]) :: following) deeper (linkStart here target)
      (Path.ofString target).names = .ok middle) :
    t.resolveFrom following (deeper + 1) here (name :: rest) =
      t.resolveFrom following (deeper + 1) middle rest := by
  rw [linkStart] at hinner
  have hcontains : following.contains (here ++ [name]) = false := by simpa using hnew
  rw [resolveFrom, if_neg hname]
  simp only [hlink, hcontains, hinner, Bool.false_eq_true, if_false]

theorem Leads.resolveFrom {places following : List Place} {depth : Nat}
    (h : t.Leads k here names place) (hlinks : t.SameLinks t')
    (hplaces : ∀ q target, t.find? q = some (.link target) → q ∈ places)
    (hfollowing : ∀ q ∈ following, ∃ m, t.Spends q m ∧ k ≤ m) (hdistinct : following.Nodup)
    (hdepth : places.length ≤ depth + following.length) :
    t'.resolveFrom following depth here names = .ok place := by
  -- The induction is on what leads to the place. A link that is being followed spends at least as
  -- many links as are left to follow, so none of them comes again; and those that are followed at once
  -- are different, so there are no more than there are links.
  induction h generalizing following depth with
  | arrive => rw [Tree.resolveFrom]
  | up _ _ ih =>
    rw [Tree.resolveFrom, if_pos rfl]
    exact ih hfollowing hdistinct hdepth
  | @down k here place name rest entry _ hname _ hfound hkind _ ih =>
    rw [resolveFrom_skip hname]
    · exact ih hfollowing hdistinct hdepth
    · intro target hlink
      rw [← hlinks, hfound] at hlink
      exact hkind target (Option.some.inj hlink)
  | @follow k m here middle place name target rest _ hname _ hlink htarget _ ihTarget ihRest =>
    have hspends : t.Spends (here ++ [name]) k :=
      ⟨target, middle, hlink, by rwa [List.dropLast_concat]⟩
    have hnew : here ++ [name] ∉ following := by
      intro hmem
      obtain ⟨l, hl, hle⟩ := hfollowing _ hmem
      have := hspends.unique hl
      omega
    have hroom : following.length + 1 ≤ places.length := by
      have hsubset : (here ++ [name]) :: following ⊆ places := by
        intro q hq
        rcases List.mem_cons.mp hq with rfl | hq
        · exact hplaces _ _ hlink
        · obtain ⟨_, ⟨_, _, hfollowed, _⟩, _⟩ := hfollowing q hq
          exact hplaces _ _ hfollowed
      exact (List.Nodup.subperm (List.nodup_cons.mpr ⟨hnew, hdistinct⟩) hsubset).length_le
    obtain ⟨deeper, rfl⟩ : ∃ deeper, depth = deeper + 1 := ⟨depth - 1, by omega⟩
    have hinner : t'.resolveFrom ((here ++ [name]) :: following) deeper (linkStart here target)
        (Path.ofString target).names = .ok middle := by
      refine ihTarget ?_ (List.nodup_cons.mpr ⟨hnew, hdistinct⟩) (by simp; omega)
      intro q hq
      rcases List.mem_cons.mp hq with rfl | hq
      · exact ⟨k, hspends, Nat.le_refl k⟩
      · obtain ⟨l, hl, hle⟩ := hfollowing q hq
        exact ⟨l, hl, by omega⟩
    rw [resolveFrom_follow hname ((hlinks _ _).mp hlink) hnew hinner]
    refine ihRest ?_ hdistinct hdepth
    intro q hq
    obtain ⟨l, hl, hle⟩ := hfollowing q hq
    exact ⟨l, hl, by omega⟩

theorem mem_places_of_find? {entry : Entry} (h : t.find? place = some entry) (hplace : place ≠ []) :
    place ∈ t.entries.map (·.1) := by
  rw [find?, if_neg hplace] at h
  obtain ⟨l₁, l₂, hentries, -⟩ := List.lookup_eq_some_iff.mp h
  rw [hentries]
  simp

/-- Resolving finds the place that a path leads to, also in another tree with the same links. -/
theorem LeadsTo.resolve (h : t.LeadsTo p place) (hlinks : t.SameLinks t')
    (hworking : t'.working = t.working) : t'.resolve p = .ok place := by
  obtain ⟨hnames, k, -, hleads⟩ := h
  have hplaces : ∀ q target, t.find? q = some (.link target) → q ∈ t'.entries.map (·.1) := by
    intro q target hlink
    refine mem_places_of_find? ((hlinks q target).mp hlink) ?_
    rintro rfl
    rw [find?, if_pos rfl] at hlink
    cases hlink
  have hresolved : t'.resolveFrom [] t'.entries.length (t.startOf p).1 (t.startOf p).2 =
      .ok place :=
    hleads.resolveFrom hlinks hplaces (by simp) List.nodup_nil (by simp)
  have hany : p.names.any (·.toList.contains '\x00') = false := by
    simpa [Path.IsUsable] using hnames
  rw [Tree.resolve, hany, startOf_congr hworking, hresolved]
  simp

end Tree

end Cadence
