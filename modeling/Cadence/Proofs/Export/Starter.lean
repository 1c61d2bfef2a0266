import Cadence.Proofs.Export.Frame
import Cadence.Tools

/-!
# Where the starter document is saved

The folder for output is made first, and then one file is written: the one that the name leads to from
there. Nothing keeps it inside the folder, neither from above nor from the root nor behind a link.
-/

namespace Cadence

open Cadence.Tree

variable {t t' : Tree} {output : Path} {picks : Picks} {saveAs : String}

/-! ## One file is written -/

def Document.starterBytes : List UInt8 := Document.starter.toUTF8.toList

namespace Tree

variable {p : Path} {here place : Place} {bytes : List UInt8} {names : List String}

theorem write_eq_ok : t.write p bytes = .ok t' ↔ ∃ place, t.placeOf true p = .ok place ∧
    t.findAt p place ≠ some .folder ∧ t' = t.put place (.file bytes) := by
  cases hplace : t.placeOf true p with
  | error e =>
    rw [write, hplace]
    simp [bind, Except.bind]
  | ok place =>
    rw [write, hplace]
    rcases hfound : t.findAt p place with _ | _ | _ | _ <;>
      simp [bind, Except.bind, hfound, pure, Except.pure, eq_comm]

theorem findAt_root (t : Tree) (p : Path) : t.findAt p [] = some .folder := by
  rw [findAt]
  split <;> rfl

/-- Nothing but the file changes when a file is written. -/
theorem find?_write (h : t.write p bytes = .ok t') :
    ∃ place, t.placeOf true p = .ok place ∧ t.findAt p place ≠ some .folder ∧
      t'.find? place = some (.file bytes) ∧ ∀ q ≠ place, t'.find? q = t.find? q := by
  obtain ⟨place, hplace, hkind, rfl⟩ := write_eq_ok.mp h
  have hput : place ≠ [] := by
    rintro rfl
    exact hkind (findAt_root t p)
  refine ⟨place, hplace, hkind, find?_put_self hput, fun q hq => ?_⟩
  rw [find?_put hput, if_neg hq]

/-! ## Names that stay in a folder -/

/-- Where there are no links, names that do not go up stay below where they start. -/
theorem walk_stays {followLast : Bool} {links : Nat} (hup : ".." ∉ names)
    (hlinks : ∀ more target, t.find? (here ++ more) ≠ some (.link target))
    (h : t.walk followLast links here names = .ok place) : place = here ++ names := by
  induction names generalizing here with
  | nil =>
    rw [walk] at h
    rw [List.append_nil, Except.ok.inj h]
  | cons name rest ih =>
    have hsplit : here ++ name :: rest = here ++ [name] ++ rest := by simp
    obtain ⟨-, hpasses⟩ := walk_cons_ok h
    cases hpasses with
    | up hname _ => exact absurd (hname ▸ List.mem_cons_self) hup
    | new _ _ _ hlast hplace => rw [hplace, hlast]
    | kept _ _ hlink _ _ _ | follow _ _ hlink _ _ _ => exact absurd hlink (hlinks _ _)
    | down _ _ _ _ hrest =>
      rw [hsplit]
      refine ih (fun hmem => hup (List.mem_cons_of_mem _ hmem)) (fun more target => ?_) hrest
      rw [List.append_assoc]
      exact hlinks _ _

theorem startOf_append (t : Tree) (p : Path) (hup : ".." ∉ names) :
    t.startOf { p with names := p.names ++ names } =
      ((t.startOf p).1, (t.startOf p).2 ++ names) := by
  induction names using List.reverseRecOn with
  | nil => simp
  | append_singleton names name ih =>
    obtain ⟨hinit, hname⟩ : ".." ∉ names ∧ name ≠ ".." := by
      simpa [eq_comm] using hup
    have hchild := startOf_child t { p with names := p.names ++ names } hname
    rw [ih hinit] at hchild
    simpa using hchild

theorem LeadsTo.placeOf_below {folder : Place} (h : t.LeadsTo p folder) (hup : ".." ∉ names)
    (hlinks : ∀ more target, t.find? (folder ++ more) ≠ some (.link target))
    (hplace : t.placeOf true { p with names := p.names ++ names } = .ok place) :
    place = folder ++ names := by
  obtain ⟨-, k, hk, hleads⟩ := h
  obtain ⟨-, hwalk⟩ := placeOf_eq_ok.mp hplace
  rw [startOf_append t p hup, hleads.walk hk names (.inr rfl)] at hwalk
  exact walk_stays hup hlinks hwalk

theorem leadsTo_of_makeFolders {mayExist : Bool} (hs : t.IsSound)
    (h : t.makeFolders mayExist p = (.ok (), t')) : ∃ folder, t'.LeadsTo p folder := by
  obtain ⟨made, hmade, ⟨rfl, hthere⟩ | ⟨hnew, -⟩⟩ := makeFolders_cases h
  · have hfolder := (hthere rfl).2
    rw [isFolder] at hfolder
    split at hfolder
    · next hlook => exact leadsTo_of_look hlook
    · cases hfolder
  · have hsound : made.IsSound := by
      rcases hmade with rfl | ⟨-, -, result, hparent⟩
      · exact hs
      · exact (makeFolders_madeFor hs hparent).sound
    obtain ⟨above, name, -, -, -, -, -, -, hleads⟩ := makeFolder_ok hsound hnew
    exact ⟨_, hleads⟩

theorem makeFolders_there {above : Place} {name : String} (hname : name ≠ "..")
    (husable : '\x00' ∉ name.toList) (hshort : name.utf8ByteSize ≤ nameLimit)
    (hleads : t.LeadsTo p above) (habove : t.find? above = some .folder)
    (hfound : t.find? (above ++ [name]) = some .folder) :
    t.makeFolders true { p with names := p.names ++ [name] } = (.ok (), t) := by
  have hplace := hleads.placeOf_child false habove hname hshort husable (.inl rfl)
  have hreached := (hleads.child habove hname hshort husable hfound (by simp)).placeOf
  have htaken : t.makeFolder { p with names := p.names ++ [name] } =
      .error (.refused .taken { p with names := p.names ++ [name] }) := by
    rw [makeFolder_eq hplace, findAt_child hname, hfound]
  have hfolder : t.isFolder { p with names := p.names ++ [name] } = true := by
    rw [isFolder, look_eq hreached, findAt_child hname, hfound]
  rw [makeFolders]
  simp only [htaken, hfolder, Failure.isSystem, Bool.and_self, if_true]

end Tree

/-! ## The reply -/

variable {result : Except Error Value}

/-- The name of nothing saves nothing. Else the folder for output is made, and then the document is
written; either may fail. -/
theorem starterReply_cases (h : Tool.starterReply t output saveAs = (result, t')) :
    (saveAs = "" ∧ t' = t ∧ ∃ v, result = .ok v) ∨
      saveAs ≠ "" ∧ ∃ made outcome, t.makeFolders true output = (outcome, made) ∧
        ((∃ e, result = .error e) ∧ t' = made ∨
          outcome = .ok () ∧ (∃ v, result = .ok v) ∧
            made.write (output.child saveAs) Document.starterBytes = .ok t') := by
  rw [Tool.starterReply] at h
  split at h
  · next hempty =>
    cases h
    exact .inl ⟨hempty, rfl, _, rfl⟩
  · next hname =>
    refine .inr ⟨hname, ?_⟩
    cases hmade : t.makeFolders true output with
    | mk outcome made =>
      refine ⟨made, outcome, rfl, ?_⟩
      rw [hmade] at h
      cases outcome with
      | error failure =>
        cases h
        exact .inl ⟨⟨_, rfl⟩, rfl⟩
      | ok _ =>
        simp only [Document.exportStarter] at h
        cases hwritten : made.write (output.child saveAs) Document.starterBytes with
        | error failure =>
          rw [Document.starterBytes] at hwritten
          simp only [hwritten] at h
          cases h
          exact .inl ⟨⟨_, rfl⟩, rfl⟩
        | ok written =>
          rw [Document.starterBytes] at hwritten
          simp only [hwritten] at h
          cases h
          exact .inr ⟨rfl, ⟨_, rfl⟩, rfl⟩

theorem run_starter_ok {made : Tree} (picks : Picks) (hname : saveAs ≠ "")
    (hmade : t.makeFolders true output = (.ok (), made))
    (hwritten : made.write (output.child saveAs) Document.starterBytes = .ok t') :
    ∃ v, (Tool.starter saveAs).run t output picks = (.ok v, t') := by
  rw [Document.starterBytes] at hwritten
  rw [Tool.run, Tool.starterReply, if_neg hname, hmade]
  simp only [Document.exportStarter, hwritten]
  exact ⟨_, rfl⟩

theorem child_of_relative (p : Path) (h : (Path.ofString saveAs).isAbsolute = false) :
    p.child saveAs = { p with names := p.names ++ (Path.ofString saveAs).names } := by
  rw [Path.child, Path.join, h]
  rfl

/-- The starter document is saved at the one place where its name leads from the folder for output,
and a request that fails leaves nothing but folders on the way to that folder. The place is in the
folder if the name is relative and does not go up, and no link stands in the folder. -/
theorem starter_is_saved_where_its_name_leads (hs : t.IsSound)
    (h : (Tool.starter saveAs).run t output picks = (result, t')) :
    (saveAs = "" → t' = t ∧ ∃ v, result = .ok v) ∧
    ((∃ e, result = .error e) → t.MadeFor t' output) ∧
    ((∃ v, result = .ok v) → saveAs ≠ "" → ∃ made folder place, t.MadeFor made output ∧
      made.LeadsTo output folder ∧ made.placeOf true (output.child saveAs) = .ok place ∧
      made.findAt (output.child saveAs) place ≠ some .folder ∧
      t'.find? place = some (.file Document.starterBytes) ∧
      (∀ q ≠ place, t'.find? q = made.find? q) ∧
      ((Path.ofString saveAs).isAbsolute = false → ".." ∉ (Path.ofString saveAs).names →
        (∀ more target, t.find? (folder ++ more) ≠ some (.link target)) →
        place = folder ++ (Path.ofString saveAs).names)) := by
  rcases starterReply_cases h with ⟨hempty, rfl, v, rfl⟩ | ⟨hname, made, outcome, hmade, hdone⟩
  · refine ⟨fun _ => ⟨rfl, v, rfl⟩, ?_, fun _ hname => absurd hempty hname⟩
    rintro ⟨e, he⟩
    cases he
  · have hfolders := makeFolders_madeFor hs hmade
    refine ⟨fun hempty => absurd hempty hname, ?_, ?_⟩
    · rintro ⟨e, rfl⟩
      rcases hdone with ⟨-, rfl⟩ | ⟨-, ⟨v, hv⟩, -⟩
      · exact hfolders
      · cases hv
    · rintro ⟨v, rfl⟩ -
      rcases hdone with ⟨⟨e, he⟩, -⟩ | ⟨rfl, -, hwritten⟩
      · cases he
      obtain ⟨folder, hleads⟩ := leadsTo_of_makeFolders hs hmade
      obtain ⟨place, hplace, hkind, hfound, hother⟩ := find?_write hwritten
      refine ⟨made, folder, place, hfolders, hleads, hplace, hkind, hfound, hother, ?_⟩
      intro hrelative hup hlinks
      rw [child_of_relative output hrelative] at hplace
      refine hleads.placeOf_below hup (fun more target hlink => hlinks more target ?_) hplace
      exact (hfolders.grows.sameLinks _ _).mp hlink

/-! ## Out of the folder -/

/-- A file beside the folder for output. -/
def secretTree : Tree := ⟨[(["output"], .folder), (["secret.txt"], .file [107])], []⟩

def outputPath : Path := ⟨"", ["output"]⟩

/-- From the folder for output up, and to the file. -/
def secretPath : Path := ⟨"", ["output", "..", "secret.txt"]⟩

theorem leadsTo_output : secretTree.LeadsTo outputPath ["output"] := by
  refine ⟨by simp [Path.IsUsable, outputPath], 0, Nat.zero_le _, ?_⟩
  exact .down rfl (by decide) (by decide) rfl (by simp) .arrive

theorem leadsTo_secret : secretTree.LeadsTo secretPath ["secret.txt"] := by
  refine ⟨by simp [Path.IsUsable, secretPath], 0, Nat.zero_le _, ?_⟩
  exact .down rfl (by decide) (by decide) rfl (by simp)
    (.up rfl (.down rfl (by decide) (by decide) rfl (by simp) .arrive))

theorem name_above_overwrites_a_file_outside :
    secretTree.IsSound ∧ ∃ v t',
      (Tool.starter "../secret.txt").run secretTree outputPath id = (.ok v, t') ∧
      secretTree.resolve outputPath = .ok ["output"] ∧ ¬["output"] <+: ["secret.txt"] ∧
      secretTree.find? ["secret.txt"] = some (.file [107]) ∧
      t'.find? ["secret.txt"] = some (.file Document.starterBytes) := by
  have hs : secretTree.IsSound := isSound_of_entries (by decide)
  have hroot : secretTree.LeadsTo {} [] := ⟨by simp [Path.IsUsable], 0, Nat.zero_le _, .arrive⟩
  have hmade : secretTree.makeFolders true outputPath = (.ok (), secretTree) :=
    makeFolders_there (by decide) (by decide) (by decide) hroot rfl rfl
  have hpath : outputPath.child "../secret.txt" = secretPath := by decide
  have hkind : secretTree.findAt secretPath ["secret.txt"] ≠ some .folder := by
    simp [findAt, startOf, secretPath, Path.isAbsolute, secretTree, Tree.find?, List.lookup_cons]
  have hwritten : secretTree.write secretPath Document.starterBytes =
      .ok (secretTree.put ["secret.txt"] (.file Document.starterBytes)) :=
    write_eq_ok.mpr ⟨_, leadsTo_secret.placeOf, hkind, rfl⟩
  rw [← hpath] at hwritten
  obtain ⟨v, hrun⟩ := run_starter_ok id (by decide) hmade hwritten
  obtain ⟨-, -, hsaved⟩ := starter_is_saved_where_its_name_leads hs hrun
  obtain ⟨made, folder, place, hfolders, -, hthere, -, hfound, -⟩ := hsaved ⟨v, rfl⟩ (by decide)
  -- what was there is still there, so the name leads to the same place when the folder is made
  have hsame := (leadsTo_secret.keep hfolders.grows.keeps hfolders.grows.working).placeOf
  rw [hpath] at hthere
  rw [Except.ok.inj (hthere.symm.trans hsame)] at hfound
  exact ⟨hs, v, _, hrun, leadsTo_output.resolve (fun _ _ => Iff.rfl) rfl, by decide, rfl, hfound⟩

end Cadence
