import Mathlib
import Cadence.Proofs.Export.Folder
import Cadence.Proofs.Export.Scores

/-!
# What an export changes

An export changes nothing but its own folder and missing folders on the way to it. What could be wrong
with names, scores and the place of the folder is found before anything changes.
-/

namespace Cadence

open Cadence.Tree

variable {t t' : Tree} {c : Composition} {parent : Path} {result : Except ExportError (List Path)}
  {files : List (Name × List UInt8)}

/-- A folder where nothing was, at a place that a first part of a path leads to. -/
def Tree.MadeOnTheWay (t t' : Tree) (p : Path) (q : Place) : Prop :=
  t.find? q = none ∧ t'.find? q = some .folder ∧
    ∃ n, t'.LeadsTo { p with names := p.names.take n } q

theorem Tree.MadeFor.found (h : t.MadeFor t' parent) (q : Place) :
    t'.find? q = t.find? q ∨ t.MadeOnTheWay t' parent q := by
  rcases h.grows.found q with hsame | ⟨hold, hnew⟩
  · exact .inl hsame
  · exact .inr ⟨hold, hnew, h.onTheWay q hold hnew⟩

theorem Tree.MadeOnTheWay.keep {made : Tree} {q : Place} (h : t.MadeOnTheWay made parent q)
    (hkeeps : made.Keeps t') (hworking : t'.working = made.working) :
    t.MadeOnTheWay t' parent q := by
  obtain ⟨hold, hnew, n, hleads⟩ := h
  exact ⟨hold, hkeeps _ _ hnew, n, hleads.keep hkeeps hworking⟩

theorem Path.isPlainName_mid {name : String} (h : isPlainName name = true) :
    isPlainName (name ++ ".mid" : String) = true := by
  obtain ⟨-, -, -, hchars⟩ := isPlainName_iff.mp h
  have hlong : 4 ≤ (name ++ ".mid").length := by
    rw [String.length_append]
    exact Nat.le_add_left _ _
  refine isPlainName_iff.mpr ⟨?_, ?_, ?_, ?_⟩
  · rintro hempty
    rw [hempty] at hlong
    exact absurd hlong (by decide)
  · rintro hdot
    rw [hdot] at hlong
    exact absurd hlong (by decide)
  · rintro hup
    rw [hup] at hlong
    exact absurd hlong (by decide)
  · intro ch hch
    rw [String.toList_append, List.mem_append] at hch
    rcases hch with hch | hch
    · exact hchars ch hch
    · have hmid : ".mid".toList = ['.', 'm', 'i', 'd'] := by decide
      rw [hmid] at hch
      simp only [List.mem_cons, List.not_mem_nil, or_false] at hch
      rcases hch with rfl | rfl | rfl | rfl <;> decide

namespace Composition

/-! ## What is checked first -/

theorem scores_ok (h : c.scores parent = .ok files) :
    (∀ named ∈ c.fileNames parent, Path.isPlainName named.1 = true) ∧
      Score.encodeAll c = .ok files := by
  unfold scores at h
  split at h
  · cases h
  · next hgood =>
    constructor
    · unfold badName? at hgood
      rw [Option.map_eq_none_iff, List.find?_eq_none] at hgood
      intro named hnamed
      simpa using hgood named hnamed
    · cases hfiles : Score.encodeAll c with
      | error e =>
        rw [hfiles] at h
        cases h
      | ok all =>
        rw [hfiles] at h
        exact congrArg Except.ok (Except.ok.inj h)

theorem exists_scores (hplain : ∀ named ∈ c.fileNames parent, Path.isPlainName named.1 = true)
    (hencoded : (Score.encodeAll c).isOk = true) : ∃ files, c.scores parent = .ok files := by
  have hgood : c.badName? parent = none := by
    unfold badName?
    rw [Option.map_eq_none_iff, List.find?_eq_none]
    intro named hnamed
    simpa using hplain named hnamed
  unfold scores
  rw [hgood]
  cases hfiles : Score.encodeAll c with
  | error e =>
    rw [hfiles] at hencoded
    cases hencoded
  | ok files => exact ⟨files, rfl⟩

theorem scores_name (hwhole : c.name.isWhole = true) (h : c.scores parent = .ok files) :
    Path.isPlainName c.name.text = true := by
  rw [Name.whole_text hwhole]
  exact (scores_ok h).1 _ List.mem_cons_self

/-- A pattern that is encoded has a name of characters, and it is the name of a file. -/
theorem scores_plain (h : c.scores parent = .ok files) {p : Pattern} (hp : p ∈ c.patterns) :
    Path.isPlainName (p.name.text ++ ".mid" : String) = true := by
  obtain ⟨hplain, hfiles⟩ := scores_ok h
  have hnamed : (p.name, scorePath (c.folder parent) p.name) ∈ c.fileNames parent :=
    List.mem_cons_of_mem _ (List.mem_map_of_mem hp)
  have hname := hplain _ hnamed
  dsimp only at hname
  rw [← Name.whole_text (Score.isWhole_of_mem hfiles hp)] at hname
  exact Path.isPlainName_mid hname

theorem scores_distinct (h : c.scores parent = .ok files) : (files.map (·.1.text)).Nodup := by
  have hfiles := (scores_ok h).2
  have hwhole : ∀ name ∈ files.map (·.1), name.isWhole = true := by
    intro name hname
    obtain ⟨f, hf, rfl⟩ := List.mem_map.mp hname
    obtain ⟨p, hp, hsame⟩ := Score.pattern_of_encodeAll hfiles hf
    exact hsame ▸ Score.isWhole_of_mem hfiles hp
  rw [show (·.1.text) = Name.text ∘ Prod.fst (β := List UInt8) from rfl, ← List.map_map]
  refine (Score.encodeAll_distinct hfiles).map_on fun name hname other hother hsame => ?_
  rw [← Name.whole_text (hwhole name hname), hsame, Name.whole_text (hwhole other hother)]

theorem scores_new {place : Place} (h : c.scores parent = .ok files) (hs : t.IsSound)
    (hplace : place ≠ []) (hnone : t.find? place = none) : AreNew (t.put place .folder) place files := by
  refine .in_new_folder hs hplace hnone (fun f hf => ?_) (scores_distinct h)
  obtain ⟨p, hp, hsame⟩ := Score.pattern_of_encodeAll (scores_ok h).2 hf
  exact hsame ▸ scores_plain h hp

theorem checkFolder_whole (h : c.checkFolder t parent = .ok ()) : c.name.isWhole = true := by
  unfold checkFolder at h
  cases hname : c.name with
  | whole s => rfl
  | broken b =>
    rw [hname] at h
    cases h

/-- An export fails before it changes anything, or when the folder is renewed, or it goes on to write
the files. -/
theorem exportTo_cases (h : c.exportTo t parent = (result, t')) :
    t' = t ∧ (∃ e, result = .error e) ∨
      ∃ files renewed made, c.scores parent = .ok files ∧ Path.isPlainName c.name.text = true ∧
        renewFolder t (c.folder parent) = (renewed, made) ∧
        ((∃ e, renewed = .error e) ∧ (∃ e, result = .error e) ∧ t' = made ∨
          renewed = .ok () ∧ writeScores (c.folder parent) made files = (result, t')) := by
  unfold exportTo at h
  cases hscores : c.scores parent with
  | error e =>
    simp only [hscores] at h
    cases h
    exact .inl ⟨rfl, e, rfl⟩
  | ok files =>
    simp only [hscores] at h
    cases hcheck : c.checkFolder t parent with
    | error e =>
      simp only [hcheck] at h
      cases h
      exact .inl ⟨rfl, e, rfl⟩
    | ok _ =>
      simp only [hcheck] at h
      have hname := scores_name (checkFolder_whole hcheck) hscores
      right
      cases hrenew : renewFolder t (c.folder parent) with
      | mk renewed made =>
        refine ⟨files, renewed, made, rfl, hname, rfl, ?_⟩
        simp only [hrenew] at h
        cases renewed with
        | error e =>
          cases h
          exact .inl ⟨⟨e, rfl⟩, ⟨_, rfl⟩, rfl⟩
        | ok _ => exact .inr ⟨rfl, h⟩

theorem folder_eq (h : Path.isPlainName c.name.text = true) :
    c.folder parent = { parent with names := parent.names ++ [c.name.text] } :=
  parent.child_plain h

/-- What an export that succeeds leaves: its folder is where its path says, with the files and nothing
else in it. -/
structure Exported (t' : Tree) (folder : Path) (place : Place) (files : List (Name × List UInt8)) :
    Prop where
  placeOf : t'.placeOf false folder = .ok place
  holds : ∀ q entry, t'.find? (place ++ q) = some entry ↔
    q = [] ∧ entry = .folder ∨ ∃ f ∈ files, q = [f.1.text ++ ".mid"] ∧ entry = .file f.2
  reads : ∀ f ∈ files, t'.read (scorePath folder f.1) = .ok f.2

theorem writeScores_exported {base : Tree} {above : Place} {name : String} {paths : List Path}
    (hname : name ≠ "..") (husable : '\x00' ∉ name.toList) (hs : base.IsSound)
    (hparent : base.LeadsTo parent above) (hnone : base.find? (above ++ [name]) = none)
    (hleads : (base.put (above ++ [name]) .folder).LeadsTo
      { parent with names := parent.names ++ [name] } (above ++ [name]))
    (hnew : AreNew (base.put (above ++ [name]) .folder) (above ++ [name]) files)
    (h : writeScores { parent with names := parent.names ++ [name] }
      (base.put (above ++ [name]) .folder) files = (.ok paths, t')) :
    paths = files.map (fun f => scorePath { parent with names := parent.names ++ [name] } f.1) ∧
      Exported t' { parent with names := parent.names ++ [name] } (above ++ [name]) files := by
  have hplace : above ++ [name] ≠ [] := by simp
  have hempty : ∀ q ≠ [], (base.put (above ++ [name]) .folder).find? (above ++ [name] ++ q) = none := by
    intro q hq
    rw [find?_put hplace, if_neg (by simpa using hq)]
    exact hs.nothing_below hnone hq
  obtain ⟨hkeeps, hworking, hframe, hwritten⟩ := writeScores_spec hleads hnew h
  obtain ⟨rfl, hfiles⟩ := hwritten paths rfl
  have hself : t'.find? (above ++ [name]) = some .folder := hkeeps _ _ (find?_put_self hplace)
  refine ⟨rfl, ?_, ?_, ?_⟩
  · obtain ⟨above', habove, hfolder, hshort⟩ := (hleads.keep hkeeps hworking).of_child hname
    obtain rfl := habove.unique
      ((hparent.keep (keeps_put hplace hnone) rfl).keep hkeeps hworking)
    exact habove.placeOf_child false hfolder hname hshort husable (.inl rfl)
  · intro q entry
    constructor
    · intro hfound
      by_cases hq : q = []
      · rw [hq, List.append_nil, hself] at hfound
        exact .inl ⟨hq, (Option.some.inj hfound).symm⟩
      · by_cases hfile : ∃ f ∈ files, q = [f.1.text ++ ".mid"]
        · obtain ⟨f, hf, rfl⟩ := hfile
          rw [(hfiles f hf).1] at hfound
          exact .inr ⟨f, hf, rfl, (Option.some.inj hfound).symm⟩
        · have hother : ∀ f ∈ files, above ++ [name] ++ q ≠ above ++ [name] ++ [f.1.text ++ ".mid"] :=
            fun f hf hsame => hfile ⟨f, hf, List.append_cancel_left hsame⟩
          rw [hframe _ hother, hempty q hq] at hfound
          cases hfound
    · rintro (⟨rfl, rfl⟩ | ⟨f, hf, rfl, rfl⟩)
      · rw [List.append_nil]
        exact hself
      · exact (hfiles f hf).1
  · intro f hf
    obtain ⟨hfound, hleadsTo⟩ := hfiles f hf
    have hplain := hnew.plain f hf
    rw [scorePath_eq hplain] at hleadsTo ⊢
    exact read_child (Path.isPlainName_iff.mp hplain).2.2.1 hleadsTo hfound

/-- An export that succeeds writes its folder anew, whatever was there. -/
theorem exportTo_exported {paths : List Path} (hs : t.IsSound)
    (h : c.exportTo t parent = (.ok paths, t')) :
    ∃ above files, t.resolve parent = .ok above ∧ Score.encodeAll c = .ok files ∧
      paths = files.map (fun f => scorePath (c.folder parent) f.1) ∧
      Exported t' (c.folder parent) (above ++ [c.name.text]) files := by
  rcases exportTo_cases h with ⟨-, e, he⟩ | ⟨files, renewed, made, hscores, hname, hrenew, hrest⟩
  · cases he
  · have hencoded := (scores_ok hscores).2
    obtain ⟨-, -, hup, hchars⟩ := Path.isPlainName_iff.mp hname
    rw [folder_eq hname] at hrenew hrest ⊢
    rcases hrest with ⟨-, ⟨e, he⟩, -⟩ | ⟨rfl, hwrite⟩
    · cases he
    · cases renewFolder_renewal hs hup hrenew with
      | @renewed base above hresolve _ hmade hleads _ hnone hfolder =>
        exact ⟨above, files, hresolve, hencoded, writeScores_exported hup
          (fun hnul => (hchars _ hnul).2.2 rfl) hmade.sound hleads hnone hfolder
          (scores_new hscores hmade.sound (by simp) hnone) hwrite⟩

/-- An export writes its files once its folder is made anew. -/
theorem exportTo_of_renewed {base : Tree} {above : Place} (hs : base.IsSound)
    (hwhole : c.name.isWhole = true) (hscores : c.scores parent = .ok files)
    (hshorts : ∀ p ∈ c.patterns, (p.name.text ++ ".mid").utf8ByteSize ≤ nameLimit)
    (hparent : t.resolve parent = .ok above)
    (hfolder : t.resolve (c.folder parent) = .ok (above ++ [c.name.text]))
    (hnone : base.find? (above ++ [c.name.text]) = none)
    (hleads : (base.put (above ++ [c.name.text]) .folder).LeadsTo (c.folder parent)
      (above ++ [c.name.text]))
    (hrenewed : renewFolder t (c.folder parent) = (.ok (), base.put (above ++ [c.name.text]) .folder)) :
    ∃ paths t', c.exportTo t parent = (.ok paths, t') := by
  have hput : above ++ [c.name.text] ≠ [] := by simp
  have hchecked : c.checkFolder t parent = .ok () := by
    unfold checkFolder
    rw [← Name.whole_text hwhole, hfolder, hparent]
    simp [Except.mapError, bind, Except.bind]
    rfl
  have hfiles : ∀ f ∈ files, (f.1.text ++ ".mid").utf8ByteSize ≤ nameLimit := by
    intro f hf
    obtain ⟨p, hp, hsame⟩ := Score.pattern_of_encodeAll (scores_ok hscores).2 hf
    exact hsame ▸ hshorts p hp
  obtain ⟨paths, t', hwritten⟩ := writeScores_new hleads (find?_put_self hput)
    (scores_new hscores hs hput hnone) hfiles
  refine ⟨paths, t', ?_⟩
  unfold exportTo
  simp only [hscores, hchecked, hrenewed, hwritten]

/-- An export into a folder that is there, under a name that is not taken, writes its files. -/
theorem exportTo_new {above : Place} (hs : t.IsSound) (hwhole : c.name.isWhole = true)
    (hscores : c.scores parent = .ok files) (hshort : c.name.text.utf8ByteSize ≤ nameLimit)
    (hshorts : ∀ p ∈ c.patterns, (p.name.text ++ ".mid").utf8ByteSize ≤ nameLimit)
    (hleads : t.LeadsTo parent above) (habove : t.find? above = some .folder)
    (hnone : t.find? (above ++ [c.name.text]) = none) :
    ∃ paths t', c.exportTo t parent = (.ok paths, t') := by
  have hname := scores_name hwhole hscores
  obtain ⟨-, -, hup, hchars⟩ := Path.isPlainName_iff.mp hname
  have husable : '\x00' ∉ c.name.text.toList := fun hnul => (hchars _ hnul).2.2 rfl
  have hfolder := (makeFolders_new hup husable hshort hleads habove hnone).2
  have hresolved := hfolder.resolve (grows_put (by simp) hnone).sameLinks rfl
  rw [← folder_eq hname] at hfolder hresolved
  refine exportTo_of_renewed hs hwhole hscores hshorts (hleads.resolve (fun _ _ => Iff.rfl) rfl) hresolved
    hnone hfolder ?_
  rw [folder_eq hname]
  exact renewFolder_new hup husable hshort hleads habove hnone

end Composition

end Cadence
