import Mathlib
import Cadence.Files.Access

/-!
# Walks that arrive

Names that lead from one place to another do so through things that are there. The relation counts the
links that are followed and does not spend them, so that what a link names is a part of its own; a walk
that goes on with more names is then one that led to where it goes on.
-/

namespace Cadence.Tree

variable {t t' : Tree} {k m : Nat} {here place : Place} {name target : String}
  {names rest : List String}

/-- Where the names of a link are walked from. -/
def linkStart (here : Place) (target : String) : Place :=
  if (Path.ofString target).isAbsolute then [] else here

/-- Names lead from a place to another one, all links followed, this many of them. -/
inductive Leads (t : Tree) : Nat → Place → List String → Place → Prop where
  | arrive {here : Place} : Leads t 0 here [] here
  | up {k : Nat} {here place : Place} {rest : List String} (hhere : t.find? here = some .folder)
      (hrest : Leads t k here.dropLast rest place) : Leads t k here (".." :: rest) place
  | down {k : Nat} {here place : Place} {name : String} {rest : List String} {entry : Entry}
      (hhere : t.find? here = some .folder) (hname : name ≠ "..")
      (hshort : name.utf8ByteSize ≤ nameLimit) (hfound : t.find? (here ++ [name]) = some entry)
      (hkind : ∀ target, entry ≠ .link target) (hrest : Leads t k (here ++ [name]) rest place) :
      Leads t k here (name :: rest) place
  | follow {k m : Nat} {here middle place : Place} {name target : String} {rest : List String}
      (hhere : t.find? here = some .folder) (hname : name ≠ "..")
      (hshort : name.utf8ByteSize ≤ nameLimit)
      (hlink : t.find? (here ++ [name]) = some (.link target))
      (htarget : Leads t k (linkStart here target) (Path.ofString target).names middle)
      (hrest : Leads t m middle rest place) : Leads t (k + m + 1) here (name :: rest) place

/-! ## One step -/

/-- What a walk does with its first name when it arrives. -/
inductive Passes (t : Tree) (followLast : Bool) (links : Nat) (here : Place) (name : String)
    (rest : List String) (place : Place) : Prop where
  | up (hname : name = "..") (hrest : t.walk followLast links here.dropLast rest = .ok place)
  | new (hname : name ≠ "..") (hshort : name.utf8ByteSize ≤ nameLimit)
      (hnew : t.find? (here ++ [name]) = none) (hlast : rest = []) (hplace : place = here ++ [name])
  | kept (hname : name ≠ "..") (hshort : name.utf8ByteSize ≤ nameLimit) {target : String}
      (hlink : t.find? (here ++ [name]) = some (.link target)) (hlast : rest = [])
      (hkept : followLast = false) (hplace : place = here ++ [name])
  | follow (hname : name ≠ "..") (hshort : name.utf8ByteSize ≤ nameLimit) {target : String}
      (hlink : t.find? (here ++ [name]) = some (.link target))
      (hmore : rest ≠ [] ∨ followLast = true) {fewer : Nat} (hlinks : links = fewer + 1)
      (hrest : t.walk followLast fewer (linkStart here target)
        ((Path.ofString target).names ++ rest) = .ok place)
  | down (hname : name ≠ "..") (hshort : name.utf8ByteSize ≤ nameLimit) {entry : Entry}
      (hfound : t.find? (here ++ [name]) = some entry) (hkind : ∀ target, entry ≠ .link target)
      (hrest : t.walk followLast links (here ++ [name]) rest = .ok place)

theorem walk_cons_ok {followLast : Bool} {links : Nat}
    (h : t.walk followLast links here (name :: rest) = .ok place) :
    t.find? here = some .folder ∧ t.Passes followLast links here name rest place := by
  rw [walk] at h
  cases hhere : t.find? here with
  | none => simp [hhere] at h
  | some entry =>
    cases entry with
    | link target => simp [hhere] at h
    | file bytes => simp [hhere] at h
    | folder =>
      refine ⟨rfl, ?_⟩
      simp only [hhere] at h
      by_cases hname : name = ".."
      · rw [if_pos hname] at h
        exact .up hname h
      · rw [if_neg hname] at h
        by_cases hlong : nameLimit < name.utf8ByteSize
        · rw [if_pos hlong] at h
          cases h
        · rw [if_neg hlong] at h
          have hshort : name.utf8ByteSize ≤ nameLimit := Nat.le_of_not_lt hlong
          cases hfound : t.find? (here ++ [name]) with
          | none =>
            simp only [hfound] at h
            by_cases hlast : rest = []
            · rw [if_pos hlast] at h
              exact .new hname hshort hfound hlast (Except.ok.inj h).symm
            · rw [if_neg hlast] at h
              cases h
          | some entry =>
            cases entry with
            | link target =>
              simp only [hfound] at h
              by_cases hlast : rest = [] ∧ !followLast
              · rw [if_pos hlast] at h
                exact .kept hname hshort hfound hlast.1 (by simpa using hlast.2)
                  (Except.ok.inj h).symm
              · rw [if_neg hlast] at h
                have hmore : rest ≠ [] ∨ followLast = true := by
                  by_cases hrest : rest = []
                  · exact .inr (by simpa [hrest] using hlast)
                  · exact .inl hrest
                cases links with
                | zero => cases h
                | succ fewer => exact .follow hname hshort hfound hmore rfl h
            | folder => exact .down hname hshort hfound (by simp) (by simpa [hfound] using h)
            | file bytes => exact .down hname hshort hfound (by simp) (by simpa [hfound] using h)

theorem walk_up {followLast : Bool} {links : Nat} (hhere : t.find? here = some .folder) :
    t.walk followLast links here (".." :: rest) = t.walk followLast links here.dropLast rest := by
  rw [walk]
  simp [hhere]

theorem walk_down {followLast : Bool} {links : Nat} {entry : Entry}
    (hhere : t.find? here = some .folder) (hname : name ≠ "..")
    (hshort : name.utf8ByteSize ≤ nameLimit) (hfound : t.find? (here ++ [name]) = some entry)
    (hkind : ∀ target, entry ≠ .link target) :
    t.walk followLast links here (name :: rest) =
      t.walk followLast links (here ++ [name]) rest := by
  rw [walk]
  cases entry with
  | link target => exact absurd rfl (hkind target)
  | folder | file bytes =>
    simp only [hhere, if_neg hname, if_neg (Nat.not_lt.mpr hshort), hfound]

theorem walk_follow {followLast : Bool} {links : Nat} (hhere : t.find? here = some .folder)
    (hname : name ≠ "..") (hshort : name.utf8ByteSize ≤ nameLimit)
    (hlink : t.find? (here ++ [name]) = some (.link target))
    (hmore : rest ≠ [] ∨ followLast = true) :
    t.walk followLast (links + 1) here (name :: rest) =
      t.walk followLast links (linkStart here target) ((Path.ofString target).names ++ rest) := by
  have hon : ¬(rest = [] ∧ (!followLast) = true) := by
    rcases hmore with h | h <;> simp [h]
  rw [walk]
  simp only [hhere, if_neg hname, if_neg (Nat.not_lt.mpr hshort), hlink, if_neg hon, linkStart]

/-- The last name may be new, and may be a link that is kept. -/
theorem walk_last {followLast : Bool} {links : Nat} (hhere : t.find? here = some .folder)
    (hname : name ≠ "..") (hshort : name.utf8ByteSize ≤ nameLimit)
    (hlast : followLast = false ∨ ∀ target, t.find? (here ++ [name]) ≠ some (.link target)) :
    t.walk followLast links here [name] = .ok (here ++ [name]) := by
  rw [walk]
  simp only [hhere, if_neg hname, if_neg (Nat.not_lt.mpr hshort)]
  cases hfound : t.find? (here ++ [name]) with
  | none => rfl
  | some entry =>
    cases entry with
    | folder | file bytes => rw [walk]
    | link target =>
      rcases hlast with rfl | hnot
      · rfl
      · exact absurd hfound (hnot target)

/-! ## Walks and what leads where -/

theorem Leads.append {middle : Place} {more : List String} (h : t.Leads k here names middle)
    (hmore : t.Leads m middle more place) : t.Leads (k + m) here (names ++ more) place := by
  induction h with
  | arrive => rwa [Nat.zero_add]
  | up hhere _ ih => exact .up hhere (ih hmore)
  | down hhere hname hshort hfound hkind _ ih =>
    exact .down hhere hname hshort hfound hkind (ih hmore)
  | @follow k l here inner middle name target rest hhere hname hshort hlink htarget _ _ ih =>
    rw [show k + l + 1 + m = k + (l + m) + 1 by omega]
    exact .follow hhere hname hshort hlink htarget (ih hmore)

theorem Leads.of_append {more : List String} (h : t.Leads k here (names ++ more) place) :
    ∃ m n middle, k = m + n ∧ t.Leads m here names middle ∧ t.Leads n middle more place := by
  induction names generalizing k here with
  | nil => exact ⟨0, k, here, (Nat.zero_add k).symm, .arrive, h⟩
  | cons name rest ih =>
    cases h with
    | up hhere hrest =>
      obtain ⟨m, n, middle, hk, hfirst, hmore⟩ := ih hrest
      exact ⟨m, n, middle, hk, .up hhere hfirst, hmore⟩
    | down hhere hname hshort hfound hkind hrest =>
      obtain ⟨m, n, middle, hk, hfirst, hmore⟩ := ih hrest
      exact ⟨m, n, middle, hk, .down hhere hname hshort hfound hkind hfirst, hmore⟩
    | @follow l _ _ _ _ _ _ _ hhere hname hshort hlink htarget hrest =>
      obtain ⟨m, n, middle, hk, hfirst, hmore⟩ := ih hrest
      exact ⟨l + m + 1, n, middle, by omega, .follow hhere hname hshort hlink htarget hfirst, hmore⟩

/-- A walk goes on from where its first names lead. -/
theorem Leads.walk {followLast : Bool} {links : Nat} (h : t.Leads k here names place)
    (hlinks : k ≤ links) (more : List String) (hmore : more ≠ [] ∨ followLast = true) :
    t.walk followLast links here (names ++ more) = t.walk followLast (links - k) place more := by
  induction h generalizing links more with
  | arrive => rfl
  | up hhere _ ih => rw [List.cons_append, walk_up hhere, ih hlinks more hmore]
  | down hhere hname hshort hfound hkind _ ih =>
    rw [List.cons_append, walk_down hhere hname hshort hfound hkind, ih hlinks more hmore]
  | @follow k m here middle place name target rest hhere hname hshort hlink _ _ ihTarget ihRest =>
    obtain ⟨fewer, rfl⟩ : ∃ fewer, links = fewer + 1 := ⟨links - 1, by omega⟩
    have hrest : rest ++ more ≠ [] ∨ followLast = true := by
      rcases hmore with h | h
      · exact .inl (by simp [h])
      · exact .inr h
    rw [List.cons_append, walk_follow hhere hname hshort hlink hrest,
      ihTarget (by omega) (rest ++ more) hrest, ihRest (by omega) more hmore]
    congr 1
    omega

/-- A walk that arrives with more names was led to where they begin. -/
theorem leads_of_walk {followLast : Bool} {links : Nat} {more : List String} (hmore : more ≠ [])
    (h : t.walk followLast links here (names ++ more) = .ok place) :
    ∃ k middle, k ≤ links ∧ t.Leads k here names middle ∧
      t.walk followLast (links - k) middle more = .ok place := by
  -- on the links, and for each number of them on the names: the names of a link come before the rest
  induction links using Nat.strongRecOn generalizing here names more with
  | _ links ihLinks =>
    induction names generalizing here with
    | nil => exact ⟨0, here, Nat.zero_le _, .arrive, h⟩
    | cons name rest ih =>
      rw [List.cons_append] at h
      obtain ⟨hhere, hpasses⟩ := walk_cons_ok h
      cases hpasses with
      | up hname hrest =>
        obtain ⟨k, middle, hk, hleads, hwalk⟩ := ih hrest
        rw [hname]
        exact ⟨k, middle, hk, .up hhere hleads, hwalk⟩
      | new _ _ _ hlast _ | kept _ _ _ hlast _ _ =>
        exact absurd (List.append_eq_nil_iff.mp hlast).2 hmore
      | @follow hname hshort target hlink _ fewer hlinks hrest =>
        subst hlinks
        obtain ⟨k, middle, hk, htarget, hwalk⟩ :=
          ihLinks fewer (Nat.lt_succ_self _) (by simp [hmore]) hrest
        obtain ⟨m, last, hm, hleads, hwalk⟩ := ihLinks (fewer - k) (by omega) hmore hwalk
        refine ⟨k + m + 1, last, by omega, .follow hhere hname hshort hlink htarget hleads, ?_⟩
        rwa [show fewer + 1 - (k + m + 1) = fewer - k - m by omega]
      | down hname hshort hfound hkind hrest =>
        obtain ⟨k, middle, hk, hleads, hwalk⟩ := ih hrest
        exact ⟨k, middle, hk, .down hhere hname hshort hfound hkind hleads, hwalk⟩

/-- A walk that follows all links is led to where it arrives, or nothing is there. -/
theorem leads_of_walk_all {links : Nat} (h : t.walk true links here names = .ok place) :
    (∃ k ≤ links, t.Leads k here names place) ∨ t.find? place = none := by
  induction links using Nat.strongRecOn generalizing here names with
  | _ links ihLinks =>
    induction names generalizing here with
    | nil =>
      rw [Tree.walk] at h
      cases h
      exact .inl ⟨0, Nat.zero_le _, .arrive⟩
    | cons name rest ih =>
      obtain ⟨hhere, hpasses⟩ := walk_cons_ok h
      cases hpasses with
      | up hname hrest =>
        refine (ih hrest).imp_left ?_
        rintro ⟨k, hk, hleads⟩
        rw [hname]
        exact ⟨k, hk, .up hhere hleads⟩
      | new _ _ hnew _ hplace => exact .inr (by rw [hplace, hnew])
      | kept _ _ _ _ hkept _ => cases hkept
      | @follow hname hshort target hlink _ fewer hlinks hrest =>
        subst hlinks
        by_cases hlast : rest = []
        · rw [hlast, List.append_nil] at hrest
          refine (ihLinks fewer (Nat.lt_succ_self _) hrest).imp_left ?_
          rintro ⟨k, hk, htarget⟩
          rw [hlast]
          exact ⟨k + 0 + 1, by omega, .follow hhere hname hshort hlink htarget .arrive⟩
        · obtain ⟨k, middle, hk, htarget, hwalk⟩ := leads_of_walk hlast hrest
          refine (ihLinks (fewer - k) (by omega) hwalk).imp_left ?_
          rintro ⟨m, hm, hleads⟩
          exact ⟨k + m + 1, by omega, .follow hhere hname hshort hlink htarget hleads⟩
      | down hname hshort hfound hkind hrest =>
        refine (ih hrest).imp_left ?_
        rintro ⟨k, hk, hleads⟩
        exact ⟨k, hk, .down hhere hname hshort hfound hkind hleads⟩

/-! ## One way only -/

theorem Leads.unique {place' : Place} (h : t.Leads k here names place)
    (h' : t.Leads m here names place') : k = m ∧ place = place' := by
  induction h generalizing m place' with
  | arrive =>
    cases h'
    exact ⟨rfl, rfl⟩
  | up _ _ ih =>
    cases h' with
    | up _ hrest => exact ih hrest
    | down _ hname _ _ _ _ | follow _ hname _ _ _ _ => exact absurd rfl hname
  | down _ hname _ hfound hkind _ ih =>
    cases h' with
    | up _ _ => exact absurd rfl hname
    | down _ _ _ _ _ hrest => exact ih hrest
    | follow _ _ _ hlink _ _ =>
      rw [hfound] at hlink
      exact absurd (Option.some.inj hlink) (hkind _)
  | follow _ hname _ hlink _ _ ihTarget ihRest =>
    cases h' with
    | up _ _ => exact absurd rfl hname
    | down _ _ _ hfound hkind _ =>
      rw [hlink] at hfound
      exact absurd (Option.some.inj hfound).symm (hkind _)
    | follow _ _ _ hlink' htarget hrest =>
      rw [hlink] at hlink'
      cases hlink'
      obtain ⟨rfl, rfl⟩ := ihTarget htarget
      obtain ⟨rfl, rfl⟩ := ihRest hrest
      exact ⟨rfl, rfl⟩

/-- A tree that has everything that another one has, and maybe more. -/
def Keeps (t t' : Tree) : Prop :=
  ∀ place entry, t.find? place = some entry → t'.find? place = some entry

theorem Leads.keep (hkeeps : t.Keeps t') (h : t.Leads k here names place) :
    t'.Leads k here names place := by
  induction h with
  | arrive => exact .arrive
  | up hhere _ ih => exact .up (hkeeps _ _ hhere) ih
  | down hhere hname hshort hfound hkind _ ih =>
    exact .down (hkeeps _ _ hhere) hname hshort (hkeeps _ _ hfound) hkind ih
  | follow hhere hname hshort hlink _ _ ihTarget ihRest =>
    exact .follow (hkeeps _ _ hhere) hname hshort (hkeeps _ _ hlink) ihTarget ihRest

end Cadence.Tree
