import Mathlib.Data.List.Basic
import Mathlib.Data.List.Forall2
import Mathlib.Data.List.Induction
import Cadence.Score

/-!
# Score files by name

The score files of a composition are gathered by the names of their patterns. Every name comes once,
where it comes first among the patterns, and with it stands the file of the pattern that has it last.
-/

namespace Cadence.Score

section

variable {α : Type} {name other : Name} {a : α} {named : List (Name × α)}

theorem map_put : (put name a named).map (·.1) =
    if name ∈ named.map (·.1) then named.map (·.1) else named.map (·.1) ++ [name] := by
  induction named with
  | nil => simp [put]
  | cons f rest ih =>
    obtain ⟨first, b⟩ := f
    by_cases hsame : first = name
    · simp [put, hsame]
    · have hne : ¬name = first := fun h => hsame h.symm
      rw [put, if_neg hsame, List.map_cons, ih]
      by_cases hmem : name ∈ rest.map (·.1)
      · rw [if_pos hmem, if_pos (by simp [hmem])]
        rfl
      · rw [if_neg hmem, if_neg (by simpa [hne] using hmem)]
        rfl

theorem lookup_put : (put name a named).lookup other =
    if other = name then some a else named.lookup other := by
  induction named with
  | nil =>
    by_cases h : other = name
    · simp [put, h]
    · have hne : (other == name) = false := by simpa using h
      simp [put, List.lookup_cons, hne, h]
  | cons f rest ih =>
    obtain ⟨first, b⟩ := f
    by_cases hsame : first = name
    · subst hsame
      by_cases h : other = first
      · simp [put, h]
      · have hne : (other == first) = false := by simpa using h
        simp [put, List.lookup_cons, hne, h]
    · rw [put, if_neg hsame, List.lookup_cons, List.lookup_cons, ih]
      by_cases h : other = first
      · simp [h, hsame]
      · have hne : (other == first) = false := by simpa using h
        simp [hne]

/-! ## Gathering by name -/

/-- Named things with each name once, and with the last thing of this name. -/
def gather (files : List (Name × α)) : List (Name × α) :=
  files.foldl (fun named file => put file.1 file.2 named) []

theorem gather_append (files : List (Name × α)) (file : Name × α) :
    gather (files ++ [file]) = put file.1 file.2 (gather files) := by
  rw [gather, List.foldl_append, List.foldl_cons, List.foldl_nil, gather]

theorem map_gather (files : List (Name × α)) :
    (gather files).map (·.1) = (files.map (·.1)).eraseDups := by
  induction files using List.reverseRecOn with
  | nil => rfl
  | append_singleton files file ih =>
    rw [gather_append, map_put, ih, List.map_append, List.eraseDups_append]
    by_cases hmem : file.1 ∈ files.map (·.1)
    · rw [if_pos (List.mem_eraseDups.mpr hmem)]
      have hnone : [file.1].removeAll (files.map (·.1)) = [] := by
        simpa [List.removeAll] using hmem
      simp [hnone]
    · rw [if_neg (by rwa [List.mem_eraseDups])]
      have hone : [file.1].removeAll (files.map (·.1)) = [file.1] := by
        simpa [List.removeAll] using hmem
      simp [hone, List.eraseDups_cons]

theorem nodup_gather (files : List (Name × α)) : ((gather files).map (·.1)).Nodup := by
  induction files using List.reverseRecOn with
  | nil => exact List.nodup_nil
  | append_singleton files file ih =>
    rw [gather_append, map_put]
    split
    · exact ih
    · next hnew =>
      refine List.nodup_append.mpr ⟨ih, by simp, fun n hn m hm hsame => hnew ?_⟩
      rwa [← List.mem_singleton.mp hm, ← hsame]

/-- The last thing of its name is the one that is kept. -/
theorem lookup_gather (before : List (Name × α)) {after : List (Name × α)} (file : Name × α)
    (hlast : ∀ f ∈ after, f.1 ≠ file.1) :
    (gather (before ++ file :: after)).lookup file.1 = some file.2 := by
  induction after using List.reverseRecOn with
  | nil => rw [gather_append, lookup_put, if_pos rfl]
  | append_singleton after f ih =>
    have hother := hlast f (by simp)
    rw [← List.cons_append, ← List.append_assoc, gather_append, lookup_put, if_neg (Ne.symm hother)]
    exact ih fun g hg => hlast g (List.mem_append_left _ hg)

end

/-! ## The files of a composition -/

variable {c : Composition} {files : List (Name × List UInt8)}

/-- The score file of a pattern, with its name. -/
def IsFileOf (p : Pattern) (file : Name × List UInt8) : Prop :=
  file.1 = p.name ∧ encode p = .ok file.2

theorem names_of_files {ps : List Pattern} {encoded : List (Name × List UInt8)}
    (h : List.Forall₂ IsFileOf ps encoded) : encoded.map (·.1) = ps.map (·.name) := by
  induction h with
  | nil => rfl
  | cons hfile _ ih => rw [List.map_cons, List.map_cons, hfile.1, ih]

theorem split_files {before after : List Pattern} {p : Pattern}
    {encoded : List (Name × List UInt8)}
    (h : List.Forall₂ IsFileOf (before ++ p :: after) encoded) :
    ∃ earlier file later, encoded = earlier ++ file :: later ∧ IsFileOf p file ∧
      List.Forall₂ IsFileOf after later := by
  induction before generalizing encoded with
  | nil =>
    cases h with
    | cons hfile hlater => exact ⟨[], _, _, rfl, hfile, hlater⟩
  | cons q before ih =>
    cases h with
    | cons _ hrest =>
      obtain ⟨earlier, file, later, rfl, hfile, hlater⟩ := ih hrest
      exact ⟨_ :: earlier, file, later, rfl, hfile, hlater⟩

/-- The files are encoded in the order of the patterns, and then gathered. -/
theorem encodeAll_ok (h : encodeAll c = .ok files) :
    ∃ encoded, List.Forall₂ IsFileOf c.patterns encoded ∧ files = gather encoded := by
  have hall : ∀ (ps : List Pattern) (encoded : List (Name × List UInt8)),
      (ps.mapM fun p => do return (p.name, ← encode p) : Except EncodeError _) = .ok encoded →
        List.Forall₂ IsFileOf ps encoded := by
    intro ps
    induction ps with
    | nil =>
      intro encoded hencoded
      cases hencoded
      exact .nil
    | cons p ps ih =>
      intro encoded hencoded
      rw [List.mapM_cons] at hencoded
      cases hfile : encode p with
      | error e =>
        rw [hfile] at hencoded
        cases hencoded
      | ok bytes =>
        cases hrest : (ps.mapM fun p => do return (p.name, ← encode p) : Except EncodeError _) with
        | error e =>
          rw [hfile, hrest] at hencoded
          cases hencoded
        | ok rest =>
          rw [hfile, hrest] at hencoded
          cases hencoded
          exact .cons ⟨rfl, hfile⟩ (ih rest hrest)
  unfold encodeAll at h
  cases hencoded : (c.patterns.mapM fun p => do return (p.name, ← encode p) :
      Except EncodeError _) with
  | error e =>
    rw [hencoded] at h
    cases h
  | ok encoded =>
    rw [hencoded] at h
    exact ⟨encoded, hall _ _ hencoded, (Except.ok.inj h).symm⟩

theorem encodeAll_distinct (h : encodeAll c = .ok files) : (files.map (·.1)).Nodup := by
  obtain ⟨encoded, -, rfl⟩ := encodeAll_ok h
  exact nodup_gather encoded

theorem encodeAll_names (h : encodeAll c = .ok files) :
    files.map (·.1) = (c.patterns.map (·.name)).eraseDups := by
  obtain ⟨encoded, hencoded, rfl⟩ := encodeAll_ok h
  rw [map_gather, names_of_files hencoded]

theorem pattern_of_encodeAll (h : encodeAll c = .ok files) {f : Name × List UInt8} (hf : f ∈ files) :
    ∃ p ∈ c.patterns, p.name = f.1 := by
  have hname : f.1 ∈ (c.patterns.map (·.name)).eraseDups := by
    rw [← encodeAll_names h]
    exact List.mem_map_of_mem hf
  exact List.mem_map.mp (List.mem_eraseDups.mp hname)

/-- Where all patterns are encoded, each one is. -/
theorem encode_of_mem (h : encodeAll c = .ok files) {p : Pattern} (hp : p ∈ c.patterns) :
    ∃ bytes, encode p = .ok bytes := by
  obtain ⟨encoded, hencoded, -⟩ := encodeAll_ok h
  obtain ⟨before, after, hsplit⟩ := List.append_of_mem hp
  rw [hsplit] at hencoded
  obtain ⟨-, file, -, -, hfile, -⟩ := split_files hencoded
  exact ⟨file.2, hfile.2⟩

theorem isWhole_of_encode {p : Pattern} {file : List UInt8} (h : encode p = .ok file) :
    p.name.isWhole = true := by
  unfold encode tracks at h
  cases hname : p.name with
  | whole s => rfl
  | broken b =>
    have hnone : chordTrack p = .error (.brokenName b) := by rw [chordTrack, hname]
    rw [hnone] at h
    split at h
    · cases h
    · split_ifs at h <;> cases h

theorem isWhole_of_mem (h : encodeAll c = .ok files) {p : Pattern} (hp : p ∈ c.patterns) :
    p.name.isWhole = true :=
  have ⟨_, hbytes⟩ := encode_of_mem h hp
  isWhole_of_encode hbytes

/-- The last pattern of its name has its score among the files. -/
theorem encodeAll_last (h : encodeAll c = .ok files) {before after : List Pattern} {p : Pattern}
    (hsplit : c.patterns = before ++ p :: after) (hlast : ∀ q ∈ after, q.name ≠ p.name) :
    ∃ bytes, encode p = .ok bytes ∧ (p.name, bytes) ∈ files := by
  obtain ⟨encoded, hencoded, rfl⟩ := encodeAll_ok h
  rw [hsplit] at hencoded
  obtain ⟨earlier, ⟨name, bytes⟩, later, rfl, ⟨hname, hbytes⟩, hlater⟩ := split_files hencoded
  have hothers : ∀ f ∈ later, f.1 ≠ name := by
    intro f hf
    have hmem : f.1 ∈ after.map (·.name) := by
      rw [← names_of_files hlater]
      exact List.mem_map_of_mem hf
    obtain ⟨q, hq, hsame⟩ := List.mem_map.mp hmem
    rw [← hsame, show name = p.name from hname]
    exact hlast q hq
  refine ⟨bytes, hbytes, ?_⟩
  obtain ⟨l₁, l₂, hfound, -⟩ := List.lookup_eq_some_iff.mp
    (lookup_gather earlier (name, bytes) hothers)
  rw [hfound, ← show name = p.name from hname]
  simp

end Cadence.Score
