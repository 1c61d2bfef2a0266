import Cadence.Export
import Cadence.Proofs.Files.Change

/-!
# The folder of a composition

The folder that an export removes, makes anew and writes into is one and the same: the one directly
below where the parent resolves to. Between removing and making nothing but the folder is gone, so a
path that leads to the parent before and after leads to the same place.
-/

namespace Cadence

open Cadence.Tree

variable {t t' : Tree} {parent : Path} {name : String}

/-! ## Making the folder anew -/

namespace Tree

theorem find?_clear_of_none {place : Place} (hs : t.IsSound)
    (hnone : t.find? place = none) (q : Place) : (t.clear place).find? q = t.find? q := by
  rw [find?_clear]
  split
  · next hbelow =>
    obtain ⟨more, rfl⟩ := hbelow.2
    by_cases hmore : more = []
    · rw [hmore, List.append_nil, hnone]
    · rw [hs.nothing_below hnone hmore]
  · rfl

/-- A folder that is made again after it was removed is where it was. -/
theorem leadsTo_above_of_clear {above above' : Place} {made : Tree}
    (hbefore : (t.clearBelow (above ++ [name])).LeadsTo parent above)
    (hfolder : t.find? (above ++ [name]) = some .folder)
    (hgrows : (t.clear (above ++ [name])).Grows made) (hafter : made.LeadsTo parent above') :
    above' = above := by
  have hplace : above ++ [name] ≠ [] := by simp
  -- neither tree keeps the other, so both ways are walked in a third one that has all of both
  have hkeepsBefore : (t.clearBelow (above ++ [name])).Keeps (made.put (above ++ [name]) .folder) := by
    intro q e hq
    rw [find?_put hplace]
    rw [find?_clearBelow] at hq
    split at hq
    · cases hq
    · next hkept =>
      by_cases hself : q = above ++ [name]
      · rw [if_pos hself, ← hfolder, ← hq, hself]
      · rw [if_neg hself]
        refine hgrows.keeps q e ?_
        rw [find?_clear, if_neg]
        · exact hq
        · exact fun hbelow => hkept ⟨hself, hbelow.2⟩
  have hkeepsAfter : made.Keeps (made.put (above ++ [name]) .folder) := by
    intro q e hq
    rw [find?_put hplace]
    by_cases hself : q = above ++ [name]
    · have hgone : (t.clear (above ++ [name])).find? q = none := by
        rw [hself, find?_clear, if_pos ⟨hplace, List.prefix_refl _⟩]
      rw [if_pos hself, ← hq]
      rcases hgrows.found q with hsame | ⟨-, hnew⟩
      · rw [hsame, hgone] at hq
        cases hq
      · rw [hnew]
    · rwa [if_neg hself]
  have hworking : made.working = t.working := hgrows.working
  exact (hafter.keep hkeepsAfter rfl).unique (hbefore.keep hkeepsBefore hworking)

theorem MadeFor.of_clear {place : Place} (hs : t.IsSound) (hnone : t.find? place = none)
    (h : t.MadeFor t' parent) : (t.clear place).MadeFor t' parent := by
  have hsame := find?_clear_of_none hs hnone
  refine ⟨⟨h.grows.working, fun q => ?_⟩, h.sound, fun q hq => ?_⟩
  · rw [hsame]
    exact h.grows.found q
  · rw [hsame] at hq
    exact h.onTheWay q hq

end Tree

namespace Composition

/-- A folder made below a parent: what is missing above it is made first. -/
theorem makeFolders_child {result : Except Failure Unit} (hs : t.IsSound)
    (h : t.makeFolders false { parent with names := parent.names ++ [name] } = (result, t')) :
    (∃ e, result = .error e) ∧ t.MadeFor t' parent ∨
      result = .ok () ∧ ∃ above made, t.MadeFor made parent ∧ made.LeadsTo parent above ∧
        made.find? above = some .folder ∧ made.find? (above ++ [name]) = none ∧
        t' = made.put (above ++ [name]) .folder ∧
        t'.LeadsTo { parent with names := parent.names ++ [name] } (above ++ [name]) := by
  obtain ⟨made, hmade, hlast⟩ := makeFolders_cases h
  have hparent : ({ parent with names := parent.names ++ [name] } : Path).parent = parent := by
    simp [Path.parent]
  have hbefore : t.MadeFor made parent := by
    rcases hmade with rfl | ⟨-, -, result', hfirst⟩
    · exact .refl hs parent
    · rw [hparent] at hfirst
      exact makeFolders_madeFor hs hfirst
  rcases hlast with ⟨rfl, hmay⟩ | ⟨hfolder, hok⟩
  · left
    cases result with
    | error e => exact ⟨⟨e, rfl⟩, hbefore⟩
    | ok _ => cases (hmay rfl).1
  · right
    obtain ⟨above, last, hnames, -, hleads, habove, hnone, rfl, hfinal⟩ :=
      makeFolder_ok hbefore.sound hfolder
    rw [hparent] at hnames hleads
    obtain rfl : name = last := by simpa using hnames
    exact ⟨hok, above, made, hbefore, hleads, habove, hnone, rfl, hfinal⟩

/-- All that the making anew of a folder can do: it fails before anything is removed, or after it, or
the folder is there and nothing is in it. -/
inductive Renewal (t : Tree) (parent : Path) (name : String) : Except Failure Unit → Tree → Prop where
  | kept {e : Failure} {t' : Tree} (hmade : t.MadeFor t' parent) :
      Renewal t parent name (.error e) t'
  | removed {e : Failure} {t' : Tree} {above : Place} (hresolve : t.resolve parent = .ok above)
      (hfolder : t.find? (above ++ [name]) = some .folder)
      (hleft : t' = t.clearBelow (above ++ [name]) ∨
        (t.clear (above ++ [name])).MadeFor t' parent) :
      Renewal t parent name (.error e) t'
  | renewed {made : Tree} {above : Place} (hresolve : t.resolve parent = .ok above)
      (hwas : t.find? (above ++ [name]) = none ∨ t.find? (above ++ [name]) = some .folder)
      (hmade : (t.clear (above ++ [name])).MadeFor made parent)
      (hleads : made.LeadsTo parent above) (habove : made.find? above = some .folder)
      (hnone : made.find? (above ++ [name]) = none)
      (hfolder : (made.put (above ++ [name]) .folder).LeadsTo
        { parent with names := parent.names ++ [name] } (above ++ [name])) :
      Renewal t parent name (.ok ()) (made.put (above ++ [name]) .folder)

theorem renewFolder_renewal {result : Except Failure Unit} (hs : t.IsSound) (hname : name ≠ "..")
    (h : renewFolder t { parent with names := parent.names ++ [name] } = (result, t')) :
    Renewal t parent name result t' := by
  have hresolves : ∀ {above}, t.LeadsTo parent above → t.resolve parent = .ok above :=
    fun hleads => hleads.resolve (fun _ _ => Iff.rfl) rfl
  unfold renewFolder clearFolder at h
  cases hhas : t.has { parent with names := parent.names ++ [name] } with
  | error e =>
    simp only [hhas] at h
    cases h
    exact .kept (.refl hs parent)
  | ok found =>
    cases found with
    | false =>
      simp only [hhas] at h
      rcases makeFolders_child hs h with ⟨⟨e, rfl⟩, hmade⟩ |
        ⟨rfl, above, made, hmade, hleads, habove, hnone, rfl, hfolder⟩
      · exact .kept hmade
      · have hbefore : t.find? (above ++ [name]) = none := by
          rcases hmade.grows.found (above ++ [name]) with hsame | ⟨hold, -⟩
          · rw [← hsame, hnone]
          · exact hold
        exact .renewed (hleads.resolve hmade.grows.sameLinks hmade.grows.working.symm)
          (.inl hbefore) (hmade.of_clear hs hbefore) hleads habove hnone hfolder
    | true =>
      simp only [hhas] at h
      cases hremove : t.removeFolder { parent with names := parent.names ++ [name] } with
      | mk removed cleared =>
        simp only [hremove] at h
        rcases removeFolder_child hname hremove with ⟨rfl, e, rfl⟩ |
          ⟨above, hleads, hfolder, ⟨rfl, e, rfl⟩ | ⟨rfl, rfl, hagain⟩⟩
        · cases h
          exact .kept (.refl hs parent)
        · cases h
          exact .removed (hresolves hleads) hfolder (.inl rfl)
        · rcases makeFolders_child (hs.clear _) h with ⟨⟨e, rfl⟩, hmade⟩ |
            ⟨rfl, above', made, hmade, hleads', habove, hnone, rfl, hfinal⟩
          · exact .removed (hresolves hleads) hfolder (.inr hmade)
          · obtain rfl := leadsTo_above_of_clear hagain hfolder hmade.grows hleads'
            exact .renewed (hresolves hleads) (.inr hfolder) hmade hleads' habove hnone hfinal

theorem makeFolders_new {above : Place} (hname : name ≠ "..") (husable : '\x00' ∉ name.toList)
    (hshort : name.utf8ByteSize ≤ nameLimit) (hleads : t.LeadsTo parent above)
    (habove : t.find? above = some .folder) (hnone : t.find? (above ++ [name]) = none) :
    t.makeFolders false { parent with names := parent.names ++ [name] } =
        (.ok (), t.put (above ++ [name]) .folder) ∧
      (t.put (above ++ [name]) .folder).LeadsTo { parent with names := parent.names ++ [name] }
        (above ++ [name]) := by
  have hplace : t.placeOf false { parent with names := parent.names ++ [name] } = .ok (above ++ [name]) :=
    hleads.placeOf_child false habove hname hshort husable (.inl rfl)
  have hmade : t.makeFolder { parent with names := parent.names ++ [name] } =
      .ok (t.put (above ++ [name]) .folder) := by
    rw [makeFolder_eq hplace, findAt_child hname, hnone]
  constructor
  · rw [makeFolders]
    simp only [hmade]
  · have hput : above ++ [name] ≠ [] := by simp
    have hkeeps : t.Keeps (t.put (above ++ [name]) .folder) := keeps_put hput hnone
    exact (hleads.keep hkeeps rfl).child (hkeeps _ _ habove) hname hshort husable
      (find?_put_self hput) (by simp)

theorem renewFolder_new {above : Place} (hname : name ≠ "..") (husable : '\x00' ∉ name.toList)
    (hshort : name.utf8ByteSize ≤ nameLimit) (hleads : t.LeadsTo parent above)
    (habove : t.find? above = some .folder) (hnone : t.find? (above ++ [name]) = none) :
    renewFolder t { parent with names := parent.names ++ [name] } =
      (.ok (), t.put (above ++ [name]) .folder) := by
  have hplace : t.placeOf true { parent with names := parent.names ++ [name] } = .ok (above ++ [name]) :=
    hleads.placeOf_child true habove hname hshort husable (.inr (by simp [hnone]))
  have hhas : t.has { parent with names := parent.names ++ [name] } = .ok false := by
    rw [has, look_eq hplace, findAt_child hname, hnone]
  unfold renewFolder clearFolder
  simp only [hhas, (makeFolders_new hname husable hshort hleads habove hnone).1]

section

variable {folder : Path} {place : Place} {first : Name} {bytes : List UInt8}
  {files : List (Name × List UInt8)}

/-- Files for a folder, under different plain names that are not taken in it. -/
structure AreNew (t : Tree) (place : Place) (files : List (Name × List UInt8)) : Prop where
  plain : ∀ f ∈ files, Path.isPlainName (f.1.text ++ ".mid" : String) = true
  distinct : (files.map (·.1.text)).Nodup
  absent : ∀ f ∈ files, t.find? (place ++ [f.1.text ++ ".mid"]) = none

theorem AreNew.in_new_folder (hs : t.IsSound) (hplace : place ≠ []) (hnone : t.find? place = none)
    (hplain : ∀ f ∈ files, Path.isPlainName (f.1.text ++ ".mid" : String) = true)
    (hdistinct : (files.map (·.1.text)).Nodup) : AreNew (t.put place .folder) place files where
  plain := hplain
  distinct := hdistinct
  absent f _ := by
    rw [find?_put hplace, if_neg (by simp)]
    exact hs.nothing_below hnone (List.cons_ne_nil _ _)

/-- Writing one file takes no name of the others. -/
theorem AreNew.rest (h : AreNew t place ((first, bytes) :: files)) :
    AreNew (t.put (place ++ [first.text ++ ".mid"]) (.file bytes)) place files where
  plain f hf := h.plain f (List.mem_cons_of_mem _ hf)
  distinct := (List.nodup_cons.mp h.distinct).2
  absent f hf := by
    have hother : place ++ [f.1.text ++ ".mid"] ≠ place ++ [first.text ++ ".mid"] := by
      intro hsame
      have hname : f.1.text = first.text := by simpa using hsame
      exact (List.nodup_cons.mp h.distinct).1 (List.mem_map.mpr ⟨f, hf, hname⟩)
    rw [find?_put (by simp), if_neg hother]
    exact h.absent f (List.mem_cons_of_mem _ hf)

theorem scorePath_eq (h : Path.isPlainName (first.text ++ ".mid" : String) = true) :
    scorePath folder first = { folder with names := folder.names ++ [first.text ++ ".mid"] } :=
  folder.child_plain h

theorem writeScores_spec {result : Except ExportError (List Path)} (hleads : t.LeadsTo folder place)
    (hnew : AreNew t place files) (h : writeScores folder t files = (result, t')) :
    t.Keeps t' ∧ t'.working = t.working ∧
      (∀ q, (∀ f ∈ files, q ≠ place ++ [f.1.text ++ ".mid"]) → t'.find? q = t.find? q) ∧
      ∀ paths, result = .ok paths → paths = files.map (fun f => scorePath folder f.1) ∧
        ∀ f ∈ files, t'.find? (place ++ [f.1.text ++ ".mid"]) = some (.file f.2) ∧
          t'.LeadsTo (scorePath folder f.1) (place ++ [f.1.text ++ ".mid"]) := by
  induction files generalizing t result with
  | nil =>
    cases h
    refine ⟨fun _ _ hq => hq, rfl, fun _ _ => rfl, fun paths hpaths => ?_⟩
    cases hpaths
    simp
  | cons f files ih =>
    obtain ⟨first, bytes⟩ := f
    have hfirst := hnew.plain (first, bytes) List.mem_cons_self
    have hnone := hnew.absent (first, bytes) List.mem_cons_self
    have hplace : place ++ [first.text ++ ".mid"] ≠ [] := by simp
    rw [writeScores] at h
    cases hwrite : t.write (scorePath folder first) bytes with
    | error failure =>
      simp only [hwrite] at h
      cases h
      exact ⟨fun _ _ hq => hq, rfl, fun _ _ => rfl, fun paths hpaths => by cases hpaths⟩
    | ok written =>
      simp only [hwrite] at h
      rw [scorePath_eq hfirst] at hwrite
      obtain ⟨rfl, hleadsTo⟩ := write_child hleads (Path.isPlainName_iff.mp hfirst).2.2.1 hnone hwrite
      have hkeeps : t.Keeps (t.put (place ++ [first.text ++ ".mid"]) (.file bytes)) :=
        keeps_put hplace hnone
      cases hrest : writeScores folder (t.put (place ++ [first.text ++ ".mid"]) (.file bytes)) files with
      | mk paths t'' =>
        rw [hrest] at h
        obtain ⟨rfl, rfl⟩ := Prod.mk.inj h
        obtain ⟨hkeeps', hworking, hframe, hwritten⟩ :=
          ih (hleads.keep hkeeps rfl) hnew.rest hrest
        refine ⟨fun q e hq => hkeeps' q e (hkeeps q e hq), hworking, ?_, ?_⟩
        · intro q hq
          rw [hframe q fun f hf => hq f (List.mem_cons_of_mem _ hf), find?_put hplace,
            if_neg (hq (first, bytes) List.mem_cons_self)]
        · intro all hall
          cases paths with
          | error e => cases hall
          | ok rest =>
            obtain rfl := Except.ok.inj hall
            obtain ⟨rfl, hfiles⟩ := hwritten rest rfl
            refine ⟨rfl, fun f hf => ?_⟩
            rcases List.mem_cons.mp hf with rfl | hf
            · rw [scorePath_eq hfirst]
              exact ⟨hkeeps' _ _ (find?_put_self hplace), hleadsTo.keep hkeeps' hworking⟩
            · exact hfiles f hf

/-- Nothing but the length of a name can keep new files from being written. -/
theorem writeScores_new (hleads : t.LeadsTo folder place) (hfolder : t.find? place = some .folder)
    (hnew : AreNew t place files)
    (hshort : ∀ f ∈ files, (f.1.text ++ ".mid").utf8ByteSize ≤ nameLimit) :
    ∃ paths t', writeScores folder t files = (.ok paths, t') := by
  induction files generalizing t with
  | nil => exact ⟨[], t, rfl⟩
  | cons f files ih =>
    obtain ⟨first, bytes⟩ := f
    have hfirst := hnew.plain (first, bytes) List.mem_cons_self
    have hnone := hnew.absent (first, bytes) List.mem_cons_self
    obtain ⟨-, -, hname, hchars⟩ := Path.isPlainName_iff.mp hfirst
    have hput : place ++ [first.text ++ ".mid"] ≠ [] := by simp
    have hkeeps : t.Keeps (t.put (place ++ [first.text ++ ".mid"]) (.file bytes)) := keeps_put hput hnone
    have hwrite : t.write (scorePath folder first) bytes =
        .ok (t.put (place ++ [first.text ++ ".mid"]) (.file bytes)) := by
      rw [scorePath_eq hfirst, write, hleads.placeOf_child true hfolder hname (hshort _ List.mem_cons_self)
        (fun hnul => (hchars _ hnul).2.2 rfl) (.inr (by simp [hnone]))]
      simp only [bind, Except.bind, findAt_child hname, hnone]
      rfl
    obtain ⟨paths, t', hrest⟩ := ih (hleads.keep hkeeps rfl) (hkeeps _ _ hfolder) hnew.rest
      fun f hf => hshort f (List.mem_cons_of_mem _ hf)
    refine ⟨scorePath folder first :: paths, t', ?_⟩
    rw [writeScores]
    simp only [hwrite, hrest]
    rfl

end

end Composition

end Cadence
