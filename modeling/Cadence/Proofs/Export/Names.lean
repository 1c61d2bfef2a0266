import Mathlib.Data.List.Forall2
import Mathlib.Data.List.Nodup
import Mathlib.Data.List.Perm.Subperm
import Cadence.Compile
import Cadence.Proofs.Export.Frame

/-!
# Patterns of one name

Files are named after patterns, so patterns of one name share a file: the last of them is in it. Every
pattern has a file of its own exactly when all names are different.
-/

namespace Cadence

open Cadence.Tree

variable {t t' : Tree} {c : Composition} {parent : Path} {paths : List Path}

/-! ## Names without repetition -/

section

variable {α : Type} [DecidableEq α] {l : List α}

theorem eraseDups_of_nodup (h : l.Nodup) : l.eraseDups = l := by
  induction l with
  | nil => rfl
  | cons a l ih =>
    obtain ⟨hnew, hrest⟩ := List.nodup_cons.mp h
    have hkept : l.filter (fun b => !b == a) = l := by
      rw [List.filter_eq_self]
      intro b hb
      have hne : b ≠ a := fun hsame => hnew (hsame ▸ hb)
      simpa using hne
    rw [List.eraseDups_cons, hkept, ih hrest]

/-- What is left of a list without repetitions is as long only if nothing was left out. -/
theorem nodup_of_eraseDups (hdistinct : l.eraseDups.Nodup) (hlength : l.eraseDups.length = l.length) :
    l.Nodup := by
  have hsubset : l.eraseDups ⊆ l := fun a ha => List.mem_eraseDups.mp ha
  have hperm := (List.subperm_of_subset hdistinct hsubset).perm_of_length_le (Nat.le_of_eq hlength.symm)
  exact hperm.nodup_iff.mp hdistinct

end

namespace Composition

/-! ## Names and paths -/

/-- The bytes at a path are the score of a pattern. -/
def HoldsScore (t : Tree) (path : Path) (p : Pattern) : Prop :=
  ∃ bytes, Score.encode p = .ok bytes ∧ t.read path = .ok bytes

/-- A name that a file of its own is named after. -/
def NamesFile (name : Name) : Prop :=
  name.isWhole = true ∧ Path.isPlainName (name.text ++ ".mid" : String) = true

theorem exportTo_namesFile (h : c.exportTo t parent = (.ok paths, t')) :
    ∀ p ∈ c.patterns, NamesFile p.name := by
  rcases exportTo_cases h with ⟨-, e, he⟩ | ⟨files, renewed, made, hscores, -⟩
  · cases he
  · exact fun p hp => ⟨Score.isWhole_of_mem (scores_ok hscores).2 hp, scores_plain hscores hp⟩

theorem NamesFile.scorePath_inj {folder : Path} {name other : Name} (hname : NamesFile name)
    (hother : NamesFile other) (h : scorePath folder name = scorePath folder other) : name = other := by
  rw [scorePath_eq hname.2, scorePath_eq hother.2] at h
  have htext : name.text = other.text := by simpa using h
  rw [← Name.whole_text hname.1, htext, Name.whole_text hother.1]

/-! ## Files and patterns -/

theorem exportTo_paths (hs : t.IsSound) (h : c.exportTo t parent = (.ok paths, t')) :
    paths = (c.patterns.map (·.name)).eraseDups.map (scorePath (c.folder parent)) := by
  obtain ⟨_, files, -, hencoded, hfiles, -⟩ := exportTo_exported hs h
  rw [hfiles, ← Score.encodeAll_names hencoded, List.map_map]
  rfl

theorem exportTo_distinct (hs : t.IsSound) (h : c.exportTo t parent = (.ok paths, t')) :
    (c.patterns.map (·.name)).eraseDups.Nodup := by
  obtain ⟨_, files, -, hencoded, -, -⟩ := exportTo_exported hs h
  rw [← Score.encodeAll_names hencoded]
  exact Score.encodeAll_distinct hencoded

theorem exportTo_holds_last (hs : t.IsSound) (h : c.exportTo t parent = (.ok paths, t'))
    {before after : List Pattern} {p : Pattern} (hsplit : c.patterns = before ++ p :: after)
    (hlast : ∀ q ∈ after, q.name ≠ p.name) :
    HoldsScore t' (scorePath (c.folder parent) p.name) p := by
  obtain ⟨_, files, -, hencoded, -, hexported⟩ := exportTo_exported hs h
  obtain ⟨bytes, hbytes, hfile⟩ := Score.encodeAll_last hencoded hsplit hlast
  have hread := hexported.reads (p.name, bytes) hfile
  exact ⟨bytes, hbytes, hread⟩

/-- Under different names every pattern is the last of its name. -/
theorem exportTo_holds_each (hs : t.IsSound) (h : c.exportTo t parent = (.ok paths, t'))
    (hnodup : (c.patterns.map (·.name)).Nodup) : List.Forall₂ (HoldsScore t') paths c.patterns := by
  rw [exportTo_paths hs h, eraseDups_of_nodup hnodup, List.map_map, List.forall₂_map_left_iff,
    List.forall₂_same]
  intro p hp
  obtain ⟨before, after, hsplit⟩ := List.append_of_mem hp
  rw [hsplit, List.map_append, List.map_cons] at hnodup
  obtain ⟨-, htail, -⟩ := List.nodup_append.mp hnodup
  exact exportTo_holds_last hs h hsplit fun q hq hsame =>
    (List.nodup_cons.mp htail).1 (hsame ▸ List.mem_map_of_mem hq)

/-- What an export that succeeds writes for the patterns: a file for every name, in the order in which
names come first, with the score of the last pattern of the name. No pattern is lost exactly when no
name comes twice. -/
theorem export_keeps_the_last_of_each_name (c : Composition) (parent : Path) (hs : t.IsSound)
    (h : c.exportTo t parent = (.ok paths, t')) :
    paths = (c.patterns.map (·.name)).eraseDups.map (scorePath (c.folder parent)) ∧
    paths.Nodup ∧
    (∀ before p after, c.patterns = before ++ p :: after → (∀ q ∈ after, q.name ≠ p.name) →
      HoldsScore t' (scorePath (c.folder parent) p.name) p) ∧
    (List.Forall₂ (HoldsScore t') paths c.patterns ↔ (c.patterns.map (·.name)).Nodup) := by
  have hpaths := exportTo_paths hs h
  have hdistinct := exportTo_distinct hs h
  have hfiles : ∀ name ∈ (c.patterns.map (·.name)).eraseDups, NamesFile name := by
    intro name hname
    obtain ⟨p, hp, rfl⟩ := List.mem_map.mp (List.mem_eraseDups.mp hname)
    exact exportTo_namesFile h p hp
  refine ⟨hpaths, ?_, fun before p after => exportTo_holds_last hs h, ?_, exportTo_holds_each hs h⟩
  · rw [hpaths]
    exact hdistinct.map_on fun name hname other hother hsame =>
      (hfiles name hname).scorePath_inj (hfiles other hother) hsame
  · intro heach
    have hlength := heach.length_eq
    rw [hpaths, List.length_map] at hlength
    refine nodup_of_eraseDups hdistinct (hlength.trans ?_)
    rw [List.length_map]

/-- Two patterns of one name. -/
def twins : Document where
  name? := some "song"
  patterns? := some
    [{ name? := some "A", events? := some [⟨1, 1, 1, "MAJOR", 0⟩] },
      { name? := some "A", events? := some [⟨1, 1, 1, "MINOR", 0⟩] }]

def majorTwin : Pattern := ⟨"A", 120, ⟨4, 4⟩, [⟨⟨1, 1, 1⟩, [48, 52, 55]⟩]⟩

def minorTwin : Pattern := ⟨"A", 120, ⟨4, 4⟩, [⟨⟨1, 1, 1⟩, [48, 51, 55]⟩]⟩

def twinComposition : Composition := ⟨"song", [majorTwin, minorTwin]⟩

/-- Of the two only the second is written. -/
theorem the_first_twin_is_lost : ∃ paths t',
    (twins.compile id).1 = .ok twinComposition ∧
      twinComposition.exportTo {} {} = (.ok paths, t') ∧
      paths = [⟨"", ["song", "A.mid"]⟩] ∧
      HoldsScore t' ⟨"", ["song", "A.mid"]⟩ minorTwin ∧
      ¬List.Forall₂ (HoldsScore t') paths twinComposition.patterns := by
  have hsound : Tree.IsSound {} := isSound_of_entries (by decide)
  have hleads : Tree.LeadsTo {} {} [] := ⟨by simp [Path.IsUsable], 0, Nat.zero_le _, .arrive⟩
  have hplain : Path.isPlainName "song" = true ∧ Path.isPlainName "A" = true ∧
      Path.isPlainName ("A" ++ ".mid" : String) = true := by decide
  have hencoded : (Score.encodeAll twinComposition).isOk = true := by cbv
  have hnames : ∀ named ∈ twinComposition.fileNames {}, Path.isPlainName named.1 = true := by
    simp [fileNames, twinComposition, majorTwin, minorTwin, hplain]
  obtain ⟨files, hfiles⟩ := exists_scores hnames hencoded
  obtain ⟨paths, t', h⟩ := exportTo_new hsound rfl hfiles (by decide) (by decide) hleads rfl rfl
  have hpath : scorePath (twinComposition.folder {}) "A" = ⟨"", ["song", "A.mid"]⟩ := by
    have hscore : scorePath (twinComposition.folder {}) (.whole "A") = _ := scorePath_eq hplain.2.2
    have hfolder : twinComposition.folder {} = _ := folder_eq (c := twinComposition) hplain.1
    rw [hscore, hfolder]
    rfl
  obtain ⟨hpaths, -, hlast, heach⟩ := export_keeps_the_last_of_each_name twinComposition {} hsound h
  refine ⟨paths, t', rfl, h, ?_, ?_, ?_⟩
  · rw [hpaths, ← hpath]
    rfl
  · have hsecond := hlast [majorTwin] minorTwin [] rfl (by simp)
    rwa [show minorTwin.name = "A" from rfl, hpath] at hsecond
  · rw [heach]
    decide

end Composition

end Cadence
