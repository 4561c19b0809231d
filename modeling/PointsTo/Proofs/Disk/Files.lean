import PointsTo.Proofs.Disk.FileWalk

/-!
Changes of single files: writing, unlinking and renaming. Each concerns one or two
locations, and as long as no directory is among them it keeps all ways.
-/

namespace PointsTo

open PointsTo.Path (Step)

namespace Tree

variable {t : Tree} {l k src dst : Location}

theorem isDirectory_congr {t t' : Tree} {l : Location} (h : t'.find l = t.find l) :
    t'.isDirectory l = t.isDirectory l := by
  cases l with
  | nil => rfl
  | cons n d => rw [isDirectory_cons, isDirectory_cons, h]

/-- Directories stay where only other entries change. -/
theorem isDirectory_of_same {t' : Tree} {gone : Location → Prop}
    (hsame : ∀ {k}, ¬ gone k → t'.find k = t.find k)
    (hgone : ∀ {k}, gone k → t.isDirectory k = false) (h : t.isDirectory k = true) :
    t'.isDirectory k = true := by
  have hk : ¬ gone k := fun hg => by simp [hgone hg] at h
  rw [isDirectory_congr (hsame hk)]
  exact h

theorem find_remove_of_not_directory (h : t.isDirectory l = false) (k : Location) :
    (t.remove l).find k = if k = l then none else t.find k := by
  rw [find_remove]
  by_cases hk : k = l
  · subst hk
    simp [isWithin]
  · rw [if_neg hk]
    split
    · next hw => exact (find_eq_none_of_within h hw (Ne.symm hk)).symm
    · rfl

theorem relocate_self (src dst : Location) : Table.relocate dst src dst = src := by
  simp [Table.relocate]

theorem isWithin_relocate (hw : isWithin dst k = true) :
    isWithin src (Table.relocate dst src k) = true := by
  obtain ⟨xs, rfl⟩ := isWithin_iff.1 hw
  rw [Table.relocate_append]
  exact isWithin_iff.2 (List.suffix_append xs src)

theorem relocate_ne (hw : isWithin dst k = true) (hk : k ≠ dst) :
    Table.relocate dst src k ≠ src := by
  obtain ⟨xs, rfl⟩ := isWithin_iff.1 hw
  rw [Table.relocate_append]
  intro h
  exact hk (by rw [List.append_left_eq_self.1 h, List.nil_append])

theorem find_move_of_not_directory (hm : t.canMove src dst = true) (hne : src ≠ [])
    (hs : t.isDirectory src = false) (hd : t.isDirectory dst = false) (k : Location) :
    (t.move src dst).find k =
      if k = dst then t.find src else if k = src then none else t.find k := by
  rw [find_move hm hne]
  by_cases hk : k = dst
  · subst hk
    have hw : isWithin k k = true := isWithin_iff.2 (List.suffix_refl k)
    rw [if_pos hw, if_pos rfl, relocate_self]
  · rw [if_neg hk]
    by_cases hkd : isWithin dst k = true
    · -- nothing is inside either of the two places
      have hsrc : k ≠ src := by
        rintro rfl
        cases dst with
        | nil => simp [canMove] at hm
        | cons n d => simp [canMove, hkd] at hm
      rw [if_pos hkd, if_neg hsrc, find_eq_none_of_within hd hkd (Ne.symm hk)]
      exact find_eq_none_of_within hs (isWithin_relocate hkd) (relocate_ne hkd hk).symm
    · rw [if_neg hkd]
      by_cases hks : k = src
      · subst hks
        simp [isWithin]
      · rw [if_neg hks]
        split
        · next hw => exact (find_eq_none_of_within hs hw (Ne.symm hks)).symm
        · rfl

end Tree

namespace Disk

section Keeps

variable {d : Disk} {l src dst : Location} {e : Entry}

/-- Where a disk has no ways, another one may change without a loss of those it has. -/
theorem KeepsWays.alter {base d' : Disk} (h : base.KeepsWays d) (gone : Location → Prop)
    (hsame : ∀ {k}, ¬ gone k → d'.tree.find k = d.tree.find k)
    (haside : ∀ {k}, gone k → base.tree.IsAside k)
    (habove : ∀ i, ¬ gone (d.cwd.drop i) →
      ∃ j, d'.cwd.drop j = d.cwd.drop i ∧ d'.lost + j = d.lost + i) : base.KeepsWays d' where
  directory := fun {k} hk => by
    have hkeep : ¬ gone k := fun hg => by simp [(haside hg).directory] at hk
    rw [Tree.isDirectory_congr (hsame hkeep)]
    exact h.directory hk
  link := fun {k target} hk => by
    by_cases hg : gone k
    · exact Or.inr (haside hg)
    · rw [hsame hg]
      exact h.link hk
  above := by
    obtain ⟨i, hcwd, hlost⟩ := h.above
    have hkeep : ¬ gone (d.cwd.drop i) := fun hg => by
      have hdir := base.cwd_isDirectory
      rw [hcwd, (haside hg).directory] at hdir
      cases hdir
    obtain ⟨j, hcwd', hlost'⟩ := habove i hkeep
    exact ⟨j, hcwd.trans hcwd'.symm, hlost.trans hlost'.symm⟩

theorem keepsWays_of_find {d' : Disk} (gone : Location → Prop)
    (hsame : ∀ {k}, ¬ gone k → d'.tree.find k = d.tree.find k)
    (haside : ∀ {k}, gone k → d.tree.IsAside k) (hcwd : d'.cwd = d.cwd) (hlost : d'.lost = d.lost) :
    d.KeepsWays d' :=
  (KeepsWays.refl d).alter gone hsame haside fun i _ => ⟨i, by rw [hcwd], by rw [hlost]⟩

theorem keepsWays_put (h : d.tree.IsAside l) : d.KeepsWays (d.put l e) := by
  refine keepsWays_of_find (· = l) (fun {k} hk => ?_) (fun hk => hk ▸ h) rfl rfl
  rw [tree_put, Tree.put]
  split
  · next ha =>
    change Table.find k (Table.insert l e d.tree.entries) = _
    rw [Table.find_insert, if_neg (Ne.symm hk)]
    rfl
  · rfl

theorem standing_eq {t : Tree} {place : Location} (lost : Nat) (h : t.isDirectory place = true) :
    (standing t place lost).cwd = place ∧ (standing t place lost).lost = lost := by
  simp [standing, Tree.nearest_eq_self h]

/-- The current directory is where it was, unless a directory around it went away. -/
theorem remove_stays (h : d.tree.isDirectory l = false) :
    (d.remove l).cwd = d.cwd ∧ (d.remove l).lost = d.lost := by
  refine standing_eq d.lost (Tree.isDirectory_of_same (fun {k} (hk : ¬ k = l) => ?_) ?_
    d.cwd_isDirectory)
  · rw [Tree.find_remove_of_not_directory h, if_neg hk]
  · rintro k rfl
    exact h

theorem keepsWays_remove (h : d.tree.IsAside l) : d.KeepsWays (d.remove l) := by
  refine keepsWays_of_find (· = l) (fun {k} hk => ?_) (fun hk => hk ▸ h)
    (remove_stays h.directory).1 (remove_stays h.directory).2
  rw [tree_remove, Tree.find_remove_of_not_directory h.directory, if_neg hk]

theorem move_stays (hm : d.tree.canMove src dst = true) (hne : src ≠ [])
    (hs : d.tree.isDirectory src = false) (hd : d.tree.isDirectory dst = false) :
    (d.move src dst).cwd = d.cwd ∧ (d.move src dst).lost = d.lost := by
  -- the current directory is in neither place
  have hout : ∀ {k}, d.tree.isDirectory k = false → Tree.isWithin k d.cwd = false := fun {k} hk => by
    cases hw : Tree.isWithin k d.cwd with
    | false => rfl
    | true => exact absurd (Tree.isDirectory_of_isWithin hw d.cwd_isDirectory) (by simp [hk])
  have hmove : d.move src dst = standing (d.tree.move src dst) d.cwd d.lost := by
    simp [move, hout hs, hout hd]
  rw [hmove]
  refine standing_eq d.lost (Tree.isDirectory_of_same
    (fun {k} (hk : ¬ (k = src ∨ k = dst)) => ?_) ?_ d.cwd_isDirectory)
  · rw [not_or] at hk
    rw [Tree.find_move_of_not_directory hm hne hs hd, if_neg hk.2, if_neg hk.1]
  · rintro k (rfl | rfl)
    · exact hs
    · exact hd

theorem keepsWays_move (hm : d.tree.canMove src dst = true) (hne : src ≠ [])
    (hs : d.tree.IsAside src) (hd : d.tree.IsAside dst) : d.KeepsWays (d.move src dst) := by
  obtain ⟨hcwd, hlost⟩ := move_stays hm hne hs.directory hd.directory
  refine keepsWays_of_find (fun k => k = src ∨ k = dst) (fun {k} hk => ?_) ?_ hcwd hlost
  · rw [not_or] at hk
    rw [tree_move, Tree.find_move_of_not_directory hm hne hs.directory hd.directory, if_neg hk.2,
      if_neg hk.1]
  · rintro k (rfl | rfl)
    · exact hs
    · exact hd

end Keeps

section Write

variable {d d' : Disk} {p : Path} {l dir : Location} {data : Bytes} {name : String}

theorem isName_of_ending {last : Path.Ending} (h : d.resolveLast p = .ok (dir, last)) :
    ∀ name slash, last = .name name slash → IsName name := by
  rintro name slash rfl
  exact (Path.steps_of_ending (Prod.ext rfl (eq_ending_of_resolveLast h).symm)).1

theorem destination_eq_ok_iff :
    d.destination p = .ok l ↔ checkText p = .ok () ∧ ∃ rest,
      surface (d.sunk p) p.ending.1 = .ok (0, rest) ∧
      d.tree.fileWithin (fun _ => true) Tree.maxLinks (d.origin p) rest p.ending.2 = .ok l := by
  unfold destination
  rw [bind_eq_ok_iff]
  constructor
  · rintro ⟨x, hx, h⟩
    cases x with
    | none => cases hp : p.ending.2 <;> rw [hp] at h <;> cases h
    | some x =>
        obtain ⟨start, rest⟩ := x
        obtain ⟨hc, hs, rfl⟩ := start_eq_some_iff.1 hx
        exact ⟨hc, rest, hs, lift_eq_ok_iff.1 h⟩
  · rintro ⟨hc, rest, hs, h⟩
    exact ⟨_, start_eq_some_iff.2 ⟨hc, hs, rfl⟩, lift_eq_ok_iff.2 h⟩

theorem destination_takesFile (h : d.destination p = .ok l) :
    ∃ name dir, l = name :: dir ∧ d.tree.TakesFile name dir := by
  obtain ⟨_, rest, _, hw⟩ := destination_eq_ok_iff.1 h
  exact Tree.fileWithin_takesFile
    (fun _ _ hn => (Path.steps_of_ending (Prod.ext rfl hn)).1) hw

/-- The name that the path of a file ends in stands in a directory. -/
theorem resolveLast_of_destination (h : d.destination p = .ok l) :
    ∃ dir name, d.resolveLast p = .ok (dir, .name name false) := by
  obtain ⟨hc, rest, hs, hw⟩ := destination_eq_ok_iff.1 h
  obtain ⟨name, dir, hend, hwalk, hdir⟩ := Tree.fileWithin_walks hw
  exact ⟨dir, name, resolveLast_eq_name_iff.2 ⟨hend, ⟨hc, rest, hs, hwalk⟩, hdir⟩⟩

/-- Where that name is no link, it is the place of the file. -/
theorem eq_of_destination (hlast : d.resolveLast p = .ok (dir, .name name false))
    (hl : ∀ target, d.tree.find (name :: dir) ≠ some (.link target))
    (h : d.destination p = .ok l) : l = name :: dir := by
  obtain ⟨hend, ⟨_, rest, hs, hwalk⟩, _⟩ := resolveLast_eq_name_iff.1 hlast
  obtain ⟨_, rest', hs', hw⟩ := destination_eq_ok_iff.1 h
  cases hs.symm.trans hs'
  rw [hend] at hw
  exact Tree.eq_of_fileWithin hl hwalk hw

theorem destination_of_resolveLast (hlast : d.resolveLast p = .ok (dir, .name name false))
    (h : d.tree.TakesFile name dir) : d.destination p = .ok (name :: dir) := by
  obtain ⟨hend, ⟨hc, rest, hs, hwalk⟩, _⟩ := resolveLast_eq_name_iff.1 hlast
  refine destination_eq_ok_iff.2 ⟨hc, rest, hs, ?_⟩
  rw [hend]
  exact Tree.fileWithin_of_takesFile h hwalk

def written (d : Disk) (l : Location) (data : Bytes) : Disk :=
  d.put l (.file data (match d.tree.find l with
    | some (.file _ mode) => mode
    | _ => newFileMode))

theorem write_eq (d : Disk) (p : Path) (data : Bytes) :
    d.write p data = (d.destination p).map fun l => d.written l data := by
  unfold write written
  cases d.destination p with
  | error e => rfl
  | ok l =>
      simp only [Bind.bind, Except.bind, Except.map]
      split <;> simp_all

theorem written_of_write (h : d.write p data = .ok d') :
    ∃ l, d.destination p = .ok l ∧ d' = d.written l data := by
  rw [write_eq] at h
  cases hl : d.destination p with
  | error e =>
      rw [hl] at h
      cases h
  | ok l =>
      rw [hl] at h
      cases h
      exact ⟨l, rfl, rfl⟩

/-- A write puts a file where nothing or a file was. -/
theorem write_cases (h : d.write p data = .ok d') :
    ∃ place last name dir x mode, d.resolveLast p = .ok (place, last) ∧
      d.destination p = .ok (name :: dir) ∧ IsName name ∧
      d.tree.child? dir name = .ok x ∧ (x = none ∨ ∃ data mode, x = some (.file data mode)) ∧
      d' = d.put (name :: dir) (.file data mode) := by
  obtain ⟨l, hl, rfl⟩ := written_of_write h
  obtain ⟨place, last, hlast⟩ := resolveLast_of_destination hl
  obtain ⟨name, dir, rfl, htakes⟩ := destination_takesFile hl
  exact ⟨place, _, name, dir, _, _, hlast, hl, htakes.isName,
    Tree.child?_eq_ok_iff.2 ⟨htakes.isDirectory, htakes.short, rfl⟩, htakes.free, rfl⟩

theorem isAside_of_child? {x : Option Entry} (hx : d.tree.child? dir name = .ok x)
    (hfile : x = none ∨ ∃ data mode, x = some (.file data mode)) :
    d.tree.IsAside (name :: dir) := by
  have hfind := (Tree.child?_eq_ok_iff.1 hx).2.2
  rcases hfile with rfl | ⟨old, mode, rfl⟩
  · exact Tree.isAside_of_none hfind nofun
  · exact Tree.isAside_of_find hfind rfl nofun

theorem find_put_of_isAside {e : Entry} (hn : IsName name) (hdir : d.tree.isDirectory dir = true)
    (ha : d.tree.isDirectory (name :: dir) = false) (k : Location) :
    (d.put (name :: dir) e).tree.find k = if name :: dir = k then some e else d.tree.find k :=
  Tree.find_put (Tree.accepts_cons_iff.2 ⟨hn, hdir, fun h => by simp [ha] at h⟩) k

/-- Once the file is there, the path leads to it and another one would still go there. -/
theorem destination_of_put {mode : Nat} (h : d.destination p = .ok l)
    (hfile : d'.tree.find l = some (.file data mode))
    (hsame : ∀ k, k ≠ l → d'.tree.find k = d.tree.find k) (hcwd : d'.cwd = d.cwd)
    (hlost : d'.lost = d.lost) :
    d'.destination p = .ok l ∧ d'.Reaches p p.steps l := by
  obtain ⟨name, dir, rfl, htakes⟩ := destination_takesFile h
  obtain ⟨hc, rest, hs, hw⟩ := destination_eq_ok_iff.1 h
  have hways : Tree.SameWays (name :: dir) d.tree d'.tree :=
    ⟨fun hk => hsame _ hk, htakes.isFile, fun e he => by
      cases hfile.symm.trans he
      rfl⟩
  have hsunk : d'.sunk p = d.sunk p := by rw [sunk, sunk, hlost]
  have horigin : d'.origin p = d.origin p := by rw [origin, origin, hcwd]
  have hw' := hways.fileWithin hw
  obtain ⟨last, hend, hwalk⟩ := Tree.walkWithin_of_fileWithin hfile hw'
  obtain ⟨_, k, hsteps, hk⟩ := Path.steps_of_ending (Prod.ext rfl hend)
  rw [← hsunk] at hs
  rw [← horigin] at hw' hwalk
  have hsurface : surface (d'.sunk p) p.steps = .ok (0, rest ++ [.down last]) := by
    rw [hsteps, hk.1 rfl]
    exact surface_append_ok _ hs
  exact ⟨destination_eq_ok_iff.2 ⟨hc, rest, hs, hw'⟩, hc, _, hsurface, hwalk⟩

/-- A file that was there keeps its mode. -/
theorem find_written (h : d.destination p = .ok l) (data : Bytes) :
    ∃ mode, (∀ k, (d.written l data).tree.find k =
        if l = k then some (.file data mode) else d.tree.find k) ∧
      ∀ old mode', d.tree.find l = some (.file old mode') → mode' = mode := by
  obtain ⟨name, dir, rfl, htakes⟩ := destination_takesFile h
  refine ⟨_, find_put_of_isAside htakes.isName htakes.isDirectory htakes.isAside.directory,
    fun old mode' hold => ?_⟩
  rw [hold]

theorem leads_written (h : d.destination p = .ok l) (data : Bytes) :
    (d.written l data).destination p = .ok l ∧ (d.written l data).Reaches p p.steps l := by
  obtain ⟨mode, hfind, _⟩ := find_written h data
  refine destination_of_put h ((hfind l).trans (if_pos rfl)) (fun k hk => ?_) rfl rfl
  rw [hfind, if_neg (Ne.symm hk)]

/-- What was written is what is read. -/
theorem read_written (h : d.destination p = .ok l) (data : Bytes) :
    (d.written l data).read p = .ok data := by
  obtain ⟨mode, hfind, _⟩ := find_written h data
  exact read_eq_ok_iff.2 ⟨l, mode, (leads_written h data).2, (hfind l).trans (if_pos rfl)⟩

theorem read_of_write (h : d.write p data = .ok d') : d'.read p = .ok data := by
  obtain ⟨l, hl, rfl⟩ := written_of_write h
  exact read_written hl data

theorem write_of_destination (h : d.destination p = .ok l) (data : Bytes) :
    d.write p data = .ok (d.written l data) := by
  rw [write_eq, h]
  rfl

/-- A write puts the file where its path leads afterwards, and changes nothing else. -/
theorem file_of_write (h : d.write p data = .ok d') :
    ∃ l mode, d'.destination p = .ok l ∧ d'.tree.find l = some (.file data mode) ∧
      (∀ k, k ≠ l → d'.tree.find k = d.tree.find k) ∧ d'.cwd = d.cwd ∧ d'.lost = d.lost := by
  obtain ⟨l, hl, rfl⟩ := written_of_write h
  obtain ⟨mode, hfind, _⟩ := find_written hl data
  refine ⟨l, mode, (leads_written hl data).1, (hfind l).trans (if_pos rfl), fun k hk => ?_, rfl, rfl⟩
  rw [hfind, if_neg (Ne.symm hk)]

/-- A file can be written to the path: at some place there may be a file, and once there is
one the path leads to it. -/
structure Admits (d : Disk) (p : Path) (l : Location) : Prop where
  place : ∃ name dir, l = name :: dir ∧ d.tree.TakesFile name dir
  leads : (d.put l (.file [] newFileMode)).resolve p = .ok l

theorem admits_iff : d.Admits p l ↔ d.destination p = .ok l := by
  have hput : ∀ {name dir}, d.tree.TakesFile name dir → ∀ k,
      (d.put (name :: dir) (.file [] newFileMode)).tree.find k =
        if name :: dir = k then some (.file [] newFileMode) else d.tree.find k :=
    fun {name dir} htakes k => find_put_of_isAside htakes.isName htakes.isDirectory
      htakes.isAside.directory k
  constructor
  · rintro ⟨⟨name, dir, rfl, htakes⟩, hleads⟩
    have hfile := (hput htakes (name :: dir)).trans (if_pos rfl)
    obtain ⟨hc, rest, hs, hwalk⟩ := resolve_eq_ok_iff.1 hleads
    have hways : Tree.SameWays (name :: dir) (d.put (name :: dir) (.file [] newFileMode)).tree
        d.tree :=
      ⟨fun {k} hk => by rw [hput htakes, if_neg (Ne.symm hk)], fun e he => by
        cases hfile.symm.trans he
        rfl, htakes.isFile⟩
    -- the last move is to the file, so the path ends in a name
    obtain ⟨before, last, rfl⟩ := Tree.eq_concat_of_walkWithin
      (isDirectory_origin (d.put (name :: dir) (.file [] newFileMode)) p)
      (Tree.isDirectory_eq_of_find hfile) hwalk
    obtain ⟨front, hfront⟩ := surface_suffix hs
    rw [← List.append_assoc] at hfront
    rw [← hfront] at hs
    obtain ⟨first, hfirst, heq⟩ := surface_of_append (by simp [surface]) hs
    obtain rfl := List.append_cancel_right heq
    have hend := Path.ending_of_steps hfront.symm
    refine destination_eq_ok_iff.2 ⟨hc, before, ?_, ?_⟩
    · rw [hend]
      exact hfirst
    · rw [hend]
      exact hways.fileWithin (Tree.fileWithin_of_walkWithin_file hfile hwalk)
  · intro h
    obtain ⟨name, dir, rfl, htakes⟩ := destination_takesFile h
    refine ⟨⟨name, dir, rfl, htakes⟩, ?_⟩
    have hfile := (hput htakes (name :: dir)).trans (if_pos rfl)
    refine resolve_eq_ok_iff.2 (destination_of_put h hfile (fun k hk => ?_) rfl rfl).2
    rw [hput htakes, if_neg (Ne.symm hk)]

theorem destination_of_write (h : d.write p data = .ok d') :
    ∃ l, d'.destination p = .ok l ∧ (∀ k, k ≠ l → d'.tree.find k = d.tree.find k) ∧
      d'.cwd = d.cwd ∧ d'.lost = d.lost := by
  obtain ⟨l, _, hl, _, hrest⟩ := file_of_write h
  exact ⟨l, hl, hrest⟩

end Write

section Rename

variable {d d' : Disk} {p q : Path}

theorem canMove_of_checkRename {t : Tree} {src dst : String} {srcDir dstDir : Location} {e : Entry}
    {slash : Bool} (h : checkRename t (src :: srcDir) (dst :: dstDir) e slash = .ok ())
    (hne : src :: srcDir ≠ dst :: dstDir) (hn : IsName dst) (hdir : t.isDirectory dstDir = true) :
    t.canMove (src :: srcDir) (dst :: dstDir) = true := by
  have hne' : (src :: srcDir != dst :: dstDir) = true := by simpa using hne
  unfold checkRename at h
  rw [hne', Bool.and_true, Bool.and_true] at h
  split at h
  · cases h
  · split at h
    · cases h
    · next hin =>
      split at h
      · cases h
      · next hout => simp [Tree.canMove, hn, hdir, hin, hout]

/-- A file or a link does not take the place of a directory. -/
theorem not_isDirectory_of_checkRename {t : Tree} {src dst : Location} {e : Entry} {slash : Bool}
    (h : checkRename t src dst e slash = .ok ()) (he : e.isDirectory = false) (hne : src ≠ dst)
    (hdst : dst ≠ []) : t.isDirectory dst = false := by
  unfold checkRename at h
  rw [he] at h
  split at h
  · cases h
  · split at h
    · cases h
    · split at h
      · cases h
      · split at h
        · next hnone => exact Tree.isDirectory_of_find_none hnone hdst
        · next f hf =>
          rw [Tree.isDirectory_eq_of_find hf]
          cases hd : f.isDirectory with
          | false => rfl
          | true => simp [hd] at h

theorem rename_cases (h : d.rename p q = .ok d') :
    ∃ src srcDir dst dstDir srcSlash dstSlash e,
      d.resolveLast p = .ok (srcDir, .name src srcSlash) ∧
      d.resolveLast q = .ok (dstDir, .name dst dstSlash) ∧
      d.tree.child? srcDir src = .ok (some e) ∧
      checkRename d.tree (src :: srcDir) (dst :: dstDir) e (srcSlash || dstSlash) = .ok () ∧
      (src :: srcDir = dst :: dstDir ∧ d' = d ∨
        src :: srcDir ≠ dst :: dstDir ∧ d' = d.move (src :: srcDir) (dst :: dstDir)) := by
  unfold rename at h
  obtain ⟨⟨srcDir, srcLast⟩, hsrc, h⟩ := bind_eq_ok_iff.1 h
  obtain ⟨⟨dstDir, dstLast⟩, hdst, h⟩ := bind_eq_ok_iff.1 h
  cases srcLast with
  | root | here | up => cases h
  | name src srcSlash =>
      cases dstLast with
      | root | here | up => cases h
      | name dst dstSlash =>
          obtain ⟨x, hx, h⟩ := bind_eq_ok_iff.1 h
          cases x with
          | none => cases h
          | some e =>
              obtain ⟨_, _, h⟩ := bind_eq_ok_iff.1 h
              obtain ⟨_, hcheck, h⟩ := bind_eq_ok_iff.1 h
              refine ⟨src, srcDir, dst, dstDir, srcSlash, dstSlash, e, hsrc, hdst,
                lift_eq_ok_iff.1 hx, lift_eq_ok_iff.1 hcheck, ?_⟩
              split at h
              · next heq =>
                cases h
                exact Or.inl ⟨heq, rfl⟩
              · next hne =>
                cases h
                exact Or.inr ⟨hne, rfl⟩

/-- A file or a link that is renamed stands at its new place, and all else stays. -/
theorem rename_file {src : String} {srcDir : Location} {slash : Bool} {e : Entry}
    (hsrc : d.resolveLast p = .ok (srcDir, .name src slash))
    (hchild : d.tree.child? srcDir src = .ok (some e)) (he : e.isDirectory = false)
    (h : d.rename p q = .ok d') :
    ∃ dst dstDir slash, d.resolveLast q = .ok (dstDir, .name dst slash) ∧
      d.tree.isDirectory (dst :: dstDir) = false ∧
      (∀ k, d'.tree.find k =
        if k = dst :: dstDir then some e else if k = src :: srcDir then none else d.tree.find k) ∧
      (d'.cwd = d.cwd ∧ d'.lost = d.lost) ∧
      (d.tree.IsAside (src :: srcDir) → d.tree.IsAside (dst :: dstDir) → d.KeepsWays d') := by
  obtain ⟨src', srcDir', dst, dstDir, _, dstSlash, e', hsrc', hdst, hchild', hcheck, hd'⟩ :=
    rename_cases h
  cases hsrc.symm.trans hsrc'
  cases hchild.symm.trans hchild'
  refine ⟨dst, dstDir, dstSlash, hdst, ?_⟩
  have hfind := (Tree.child?_eq_ok_iff.1 hchild).2.2
  have hdir := (Tree.isDirectory_eq_of_find hfind).trans he
  rcases hd' with ⟨heq, rfl⟩ | ⟨hne, rfl⟩
  · rw [← heq]
    refine ⟨hdir, fun k => ?_, ⟨rfl, rfl⟩, fun _ _ => .refl _⟩
    split
    · next hk => rw [hk, hfind]
    · rfl
  · have hmove := canMove_of_checkRename hcheck hne (isName_of_ending hdst _ _ rfl)
      (resolveLast_eq_name_iff.1 hdst).2.2
    have hdst' := not_isDirectory_of_checkRename hcheck he hne nofun
    refine ⟨hdst', fun k => ?_, move_stays hmove nofun hdir hdst',
      fun hs hd => keepsWays_move hmove nofun hs hd⟩
    rw [tree_move, Tree.find_move_of_not_directory hmove nofun hdir hdst', hfind]

/-- What is no directory may go to every place in a directory that is none itself. -/
theorem checkRename_iff {t : Tree} {src dst : String} {srcDir dstDir : Location} {e : Entry}
    {slash : Bool} (hsrc : t.find (src :: srcDir) = some e) (he : e.isDirectory = false)
    (hdir : t.isDirectory dstDir = true) :
    checkRename t (src :: srcDir) (dst :: dstDir) e slash = .ok () ↔
      slash = false ∧ t.isDirectory (dst :: dstDir) = false := by
  have hplain := (Tree.isDirectory_eq_of_find hsrc).trans he
  constructor
  · intro h
    refine ⟨?_, ?_⟩
    · cases slash with
      | false => rfl
      | true => simp [checkRename, he] at h
    · by_cases hne : src :: srcDir = dst :: dstDir
      · rwa [← hne]
      · exact not_isDirectory_of_checkRename h he hne nofun
  · rintro ⟨rfl, hdst⟩
    -- neither place is inside the other one: both stand in directories and are none
    have hbelow : ¬ (Tree.isWithin (src :: srcDir) (dst :: dstDir) &&
        src :: srcDir != dst :: dstDir) = true := by
      rw [Bool.and_eq_true, bne_iff_ne]
      rintro ⟨hw, hne⟩
      obtain ⟨xs, hxs⟩ := Tree.isWithin_iff.1 hw
      cases xs with
      | nil => exact hne hxs
      | cons n xs =>
          have hin : Tree.isWithin (src :: srcDir) dstDir = true :=
            Tree.isWithin_iff.2 ⟨xs, (List.cons.inj hxs).2⟩
          simp [Tree.isDirectory_of_isWithin hin hdir] at hplain
    have habove : ¬ (Tree.isWithin (dst :: dstDir) (src :: srcDir) &&
        src :: srcDir != dst :: dstDir) = true := by
      rw [Bool.and_eq_true, bne_iff_ne]
      rintro ⟨hw, hne⟩
      simp [Tree.isDirectory_of_find_within hsrc hw (Ne.symm hne)] at hdst
    unfold checkRename
    rw [if_neg (by simp), if_neg hbelow, if_neg habove, he]
    cases hf : t.find (dst :: dstDir) with
    | none => simp
    | some f =>
        rw [Tree.isDirectory_eq_of_find hf] at hdst
        simp [hdst]

theorem rename_file_iff {src : String} {srcDir : Location} {e : Entry}
    (hsrc : d.resolveLast p = .ok (srcDir, .name src false))
    (hchild : d.tree.child? srcDir src = .ok (some e)) (he : e.isDirectory = false) :
    (∃ d', d.rename p q = .ok d') ↔
      ∃ dst dstDir, d.resolveLast q = .ok (dstDir, .name dst false) ∧
        dst.utf8ByteSize ≤ Tree.maxNameBytes ∧ d.tree.isDirectory (dst :: dstDir) = false := by
  have hfind := (Tree.child?_eq_ok_iff.1 hchild).2.2
  constructor
  · rintro ⟨d', h⟩
    unfold rename at h
    obtain ⟨_, hsrc', h⟩ := bind_eq_ok_iff.1 h
    cases hsrc.symm.trans hsrc'
    obtain ⟨⟨dstDir, dstLast⟩, hdst, h⟩ := bind_eq_ok_iff.1 h
    cases dstLast with
    | root | here | up => cases h
    | name dst slash =>
        obtain ⟨_, hchild', h⟩ := bind_eq_ok_iff.1 h
        cases hchild.symm.trans (lift_eq_ok_iff.1 hchild')
        obtain ⟨x, hx, h⟩ := bind_eq_ok_iff.1 h
        obtain ⟨_, hcheck, _⟩ := bind_eq_ok_iff.1 h
        obtain ⟨hdir, hshort, _⟩ := Tree.child?_eq_ok_iff.1 (lift_eq_ok_iff.1 hx)
        obtain ⟨hslash, hplain⟩ := (checkRename_iff hfind he hdir).1 (lift_eq_ok_iff.1 hcheck)
        cases slash with
        | false => exact ⟨dst, dstDir, hdst, hshort, hplain⟩
        | true => cases hslash
  · rintro ⟨dst, dstDir, hdst, hshort, hplain⟩
    have hdir := (resolveLast_eq_name_iff.1 hdst).2.2
    have hx := Tree.child?_eq_ok_iff.2 ⟨hdir, hshort, rfl⟩
    have hcheck : checkRename d.tree (src :: srcDir) (dst :: dstDir) e (false || false) = .ok () :=
      (checkRename_iff hfind he hdir).2 ⟨rfl, hplain⟩
    simp only [rename, hsrc, hdst, Bind.bind, Except.bind, hchild, hx, hcheck, lift_ok]
    split
    · exact ⟨_, rfl⟩
    · exact ⟨_, rfl⟩

end Rename
end Disk
end PointsTo
