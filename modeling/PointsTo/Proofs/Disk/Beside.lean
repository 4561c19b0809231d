import PointsTo.Proofs.WorkDir

/-!
Changes of one name in a directory. As long as no links are involved, they show
under that name alone: whatever stands beside it reads as before.
-/

namespace PointsTo

def FitsDirectory (name : String) : Prop :=
  IsName name ∧ name.utf8ByteSize ≤ Tree.maxNameBytes

instance (name : String) : Decidable (FitsDirectory name) :=
  inferInstanceAs (Decidable (_ ∧ _))

namespace Disk

def NoLink (d : Disk) (p : Path) (name : String) : Prop :=
  ∀ target, d.linkEntry (p / name) ≠ .ok (.link target)

instance (d : Disk) (p : Path) (name : String) : Decidable (d.NoLink p name) :=
  match h : d.linkEntry (p / name) with
  | .ok (.link target) => isFalse fun hno => hno target h
  | .ok (.file _ _) | .ok (.directory _) | .error _ => isTrue fun _ ht => nomatch h.symm.trans ht

/-- At most the given name in the directory that the path enters has changed, and
every way to a directory is there as before. -/
def Beside (d d' : Disk) (p : Path) (name : String) : Prop :=
  d' = d ∨ ∃ dir, d.Enters p dir ∧ d.KeepsWays d' ∧
    ∀ k, k ≠ name :: dir → d'.tree.find k = d.tree.find k

section Beside

variable {d d' : Disk} {p : Path} {dir : Location} {name other : String}

theorem linkEntry_div (hn : FitsDirectory name) (hc : checkText (p / name) = .ok ())
    (h : d.Enters p dir) {e : Entry} (he : d.tree.find (name :: dir) = some e) :
    d.linkEntry (p / name) = .ok e := by
  have hlast := (resolveLast_div_iff hn.1).2 ⟨hc, h, rfl⟩
  have hchild : d.tree.child? dir name = .ok (some e) :=
    Tree.child?_eq_ok_iff.2 ⟨h.1, hn.2, he⟩
  unfold linkEntry locate
  rw [hlast]
  simp only [Bind.bind, Except.bind, hchild, lift_ok, entryAt, Tree.entry?, he]

theorem NoLink.find (h : d.NoLink p name) (hn : FitsDirectory name)
    (hc : checkText (p / name) = .ok ()) (hp : d.Enters p dir) :
    ∀ target, d.tree.find (name :: dir) ≠ some (.link target) :=
  fun target ht => h target (linkEntry_div hn hc hp ht)

/-- A name in a directory that is entered is what the directory holds. -/
theorem noLink_of_find (hn : FitsDirectory name) (hp : d.Enters p dir)
    (h : ∀ target, d.tree.find (name :: dir) ≠ some (.link target)) : d.NoLink p name := by
  intro target ht
  obtain ⟨x, hx, hentry⟩ := bind_eq_ok_iff.1 ht
  cases x with
  | none => cases hentry
  | some l =>
      have hl : l = name :: dir := by
        rcases locate_cases hx with ⟨m, dir', hlast, rfl, _⟩ | ⟨hr, _⟩
        · obtain ⟨_, hp', hm⟩ := (resolveLast_div_iff hn.1).1 hlast
          cases hm
          rw [hp.unique hp']
        · exact eq_of_reaches ((resolveLast_div_iff hn.1).2 ⟨hr.1, hp, rfl⟩) h hr
      rw [hl] at hentry
      simp only [entryAt, Tree.entry?] at hentry
      split at hentry
      · next hfind =>
        cases hentry
        exact h target hfind
      · cases hentry

theorem noLink_of_checkText {e : Fault} (h : checkText (p / name) = .error e) :
    d.NoLink p name := by
  simp [NoLink, linkEntry, locate, resolveLast, start, h, Bind.bind, Except.bind]

theorem Beside.noLink (h : d.Beside d' p name) (hne : other ≠ name) (ho : FitsDirectory other)
    (hl : d.NoLink p other) : d'.NoLink p other := by
  rcases h with rfl | ⟨dir, hp, hways, hsame⟩
  · exact hl
  · cases hc : checkText (p / other) with
    | error e => exact noLink_of_checkText hc
    | ok =>
        refine noLink_of_find ho (hways.enters hp) ?_
        rw [hsame _ (by simp [hne])]
        exact hl.find ho hc hp

/-- The other names read as before. -/
theorem Beside.entry (h : d.Beside d' p name) (hne : other ≠ name) (ho : FitsDirectory other)
    (hl : d.NoLink p other) : d'.entry (p / other) = d.entry (p / other) := by
  rcases h with rfl | ⟨dir, hp, hways, hsame⟩
  · rfl
  · have hp' := hways.enters hp
    have hother := hsame (other :: dir) (by simp [hne])
    cases hc : checkText (p / other) with
    | error e => simp [Disk.entry, place, start, hc, Bind.bind, Except.bind]
    | ok =>
        have hfind := hl.find ho hc hp
        rw [entry_div ho.1 hp hfind, entry_div ho.1 hp' (by rwa [hother])]
        simp only [Tree.child?, hp.1, hp'.1, hother]

theorem Beside.read (h : d.Beside d' p name) (hne : other ≠ name) (ho : FitsDirectory other)
    (hl : d.NoLink p other) : d'.read (p / other) = d.read (p / other) := by
  unfold Disk.read
  rw [h.entry hne ho hl]

/-- A file that is written at the name, or written anew in one stroke. -/
theorem Beside.of_write {data : Bytes} (hn : FitsDirectory name) (hl : d.NoLink p name)
    (h : d.write (p / name) data = .ok d') : d.Beside d' p name := by
  obtain ⟨place, last, m, dir, x, mode, hlast, hat, hm, hx, hfile, rfl⟩ := write_cases h
  obtain ⟨hc, hp, rfl⟩ := (resolveLast_div_iff hn.1).1 hlast
  cases eq_of_destination hlast (hl.find hn hc hp) hat
  have ha := isAside_of_child? hx hfile
  refine Or.inr ⟨place, hp, keepsWays_put ha, fun k hk => ?_⟩
  rw [find_put_of_isAside hm hp.1 ha.directory, if_neg (Ne.symm hk)]

theorem Beside.of_unlink (hn : FitsDirectory name) (hl : d.NoLink p name)
    (h : d.unlink (p / name) = .ok d') : d.Beside d' p name := by
  obtain ⟨m, dir, e, hlast, hchild, he, rfl⟩ := unlink_cases h
  obtain ⟨hc, hp, hm⟩ := (resolveLast_div_iff hn.1).1 hlast
  cases hm
  have hfind := (Tree.child?_eq_ok_iff.1 hchild).2.2
  have ha : d.tree.IsAside (name :: dir) :=
    Tree.isAside_of_find hfind he fun target ht => hl.find hn hc hp target (ht ▸ hfind)
  refine Or.inr ⟨dir, hp, keepsWays_remove ha, fun k hk => ?_⟩
  rw [tree_remove, Tree.find_remove_of_not_directory ha.directory, if_neg hk]

/-- What has been written in one stroke is what is read. -/
theorem read_writeAtomic {contents : Bytes} {draws : List TemporaryName}
    (hn : FitsDirectory name) (hl : d.NoLink p name)
    (h : WorkDir.writeAtomic (p / name) contents draws d = (.ok (), d')) :
    d.Beside d' p name ∧ d'.NoLink p name ∧ d'.read (p / name) = .ok contents := by
  obtain ⟨m, dir, slash, mode, hlast, hplain, hfind, _, hways⟩ := WorkDir.writeAtomic_ok h
  obtain ⟨hc, hp, hm⟩ := (resolveLast_div_iff hn.1).1 hlast
  cases hm
  have ha : d.tree.IsAside (name :: dir) := by
    cases he : d.tree.find (name :: dir) with
    | none => exact Tree.isAside_of_none he nofun
    | some e =>
        refine Tree.isAside_of_find he ?_ fun target ht => hl.find hn hc hp target (ht ▸ he)
        rwa [Tree.isDirectory_eq_of_find he] at hplain
  have hp' := (hways ha).enters hp
  have hfile : d'.tree.find (name :: dir) = some (.file contents mode) := by rw [hfind, if_pos rfl]
  refine ⟨Or.inr ⟨dir, hp, hways ha, fun k hk => by rw [hfind, if_neg hk]⟩,
    noLink_of_find hn hp' (by simp [hfile]), ?_⟩
  have hchild := Tree.child?_eq_ok_iff.2 ⟨hp'.1, hn.2, hfile⟩
  unfold Disk.read
  rw [entry_div hn.1 hp' (by simp [hfile]), hc, hchild]
  rfl

end Beside
end Disk
end PointsTo
