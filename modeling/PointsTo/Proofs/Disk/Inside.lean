import PointsTo.Proofs.Disk.Beside

/-!
Changes that stay inside one directory. A disk that has nothing in there, only what
leads to it, says where it is: as long as its ways are kept, paths go on naming the
directory, and what is done by name in it shows nowhere else.
-/

namespace PointsTo

namespace Tree

def Inside (d l : Location) : Prop :=
  isWithin d l = true ∧ l ≠ d

instance (d l : Location) : Decidable (Inside d l) :=
  inferInstanceAs (Decidable (_ ∧ _))

theorem inside_of_isWithin_cons {d l : Location} {n : String} (h : isWithin (n :: d) l = true) :
    Inside d l := by
  have hs := isWithin_iff.1 h
  refine ⟨isWithin_iff.2 ((List.suffix_cons n d).trans hs), fun hl => ?_⟩
  have hle := hs.length_le
  rw [hl, List.length_cons] at hle
  omega

theorem inside_cons (n : String) (d : Location) : Inside d (n :: d) :=
  inside_of_isWithin_cons (isWithin_iff.2 (List.suffix_refl _))

theorem not_inside_nil (d : Location) : ¬ Inside d [] := by
  rintro ⟨hw, hne⟩
  exact hne (List.eq_nil_of_suffix_nil (isWithin_iff.1 hw)).symm

end Tree

namespace Disk

/-- What changes is inside `dir` or among the locations `gone`. Under the names
`reserved` no link appears, and the current directory stays below what it was below
outside `dir`. -/
structure Touches (dir : Location) (reserved : List String) (gone : Location → Prop)
    (d d' : Disk) : Prop where
  same : ∀ {l}, ¬ Tree.Inside dir l → ¬ gone l → d'.tree.find l = d.tree.find l
  plain : ∀ name ∈ reserved, ∀ target,
    d'.tree.find (name :: dir) = some (.link target) → d.tree.find (name :: dir) = some (.link target)
  above : ∀ i, ¬ Tree.Inside dir (d.cwd.drop i) →
    ∃ j, d'.cwd.drop j = d.cwd.drop i ∧ d'.lost + j = d.lost + i

section Touches

variable {d d' d'' base : Disk} {dir : Location} {reserved : List String}
  {gone gone' : Location → Prop} {p : Path} {name : String}

theorem Touches.refl (dir : Location) (reserved : List String) (gone : Location → Prop) (d : Disk) :
    Touches dir reserved gone d d where
  same := fun _ _ => rfl
  plain := fun _ _ _ => id
  above := fun i _ => ⟨i, rfl, rfl⟩

theorem Touches.mono (h : Touches dir reserved gone d d')
    (hg : ∀ {l}, ¬ Tree.Inside dir l → gone l → gone' l) :
    Touches dir reserved gone' d d' where
  same := fun hin hgone => h.same hin fun hl => hgone (hg hin hl)
  plain := h.plain
  above := h.above

theorem Touches.trans (h : Touches dir reserved gone d d') (h' : Touches dir reserved gone d' d'') :
    Touches dir reserved gone d d'' where
  same := fun hin hgone => (h'.same hin hgone).trans (h.same hin hgone)
  plain := fun name hn target ht => h.plain name hn target (h'.plain name hn target ht)
  above := fun i hi => by
    obtain ⟨j, hcwd, hlost⟩ := h.above i hi
    obtain ⟨k, hcwd', hlost'⟩ := h'.above j (hcwd ▸ hi)
    exact ⟨k, hcwd'.trans hcwd, hlost'.trans hlost⟩

/-- A change at one location, with the current directory where it was. -/
theorem touches_of_find {l : Location} (hl : Tree.Inside dir l)
    (hfind : ∀ k, k ≠ l → d'.tree.find k = d.tree.find k)
    (hplain : ∀ target, d'.tree.find l ≠ some (.link target))
    (hcwd : d'.cwd = d.cwd) (hlost : d'.lost = d.lost) : Touches dir reserved gone d d' where
  same := fun hin _ => hfind _ fun he => hin (he ▸ hl)
  plain := fun name _ target ht => by
    by_cases hk : name :: dir = l
    · exact absurd (hk ▸ ht) (hplain target)
    · rwa [← hfind _ hk]
  above := fun i _ => ⟨i, by rw [hcwd], by rw [hlost]⟩

theorem not_inside_cwd (h : ∀ {l}, Tree.Inside dir l → base.tree.find l = none) :
    ¬ Tree.Inside dir base.cwd := by
  intro hin
  cases hc : base.cwd with
  | nil => exact Tree.not_inside_nil dir (hc ▸ hin)
  | cons n above =>
      obtain ⟨mode, hfind⟩ := Tree.isDirectory_cons_iff.1 (hc ▸ base.cwd_isDirectory)
      cases (h (hc ▸ hin)).symm.trans hfind

/-- The ways of a disk with nothing in the directory are kept. -/
theorem Touches.keepsWays (h : Touches dir reserved gone d d') (hbase : base.KeepsWays d)
    (hbare : ∀ {l}, Tree.Inside dir l → base.tree.find l = none)
    (hgone : ∀ {l}, gone l → base.tree.IsAside l) : base.KeepsWays d' := by
  refine hbase.alter (fun l => Tree.Inside dir l ∨ gone l) (fun {l} hl => ?_) ?_ fun i hi => ?_
  · rw [not_or] at hl
    exact h.same hl.1 hl.2
  · rintro l (hin | hg)
    · exact Tree.isAside_of_none (hbare hin) fun hnil => Tree.not_inside_nil dir (hnil ▸ hin)
    · exact hgone hg
  · exact h.above i (not_or.1 hi).1

theorem Touches.noLink (h : Touches dir reserved gone d d') (hp : d.Enters p dir)
    (hp' : d'.Enters p dir) (hn : FitsDirectory name) (hmem : name ∈ reserved)
    (hl : d.NoLink p name) : d'.NoLink p name := by
  cases hc : checkText (p / name) with
  | error e => exact noLink_of_checkText hc
  | ok =>
      refine noLink_of_find hn hp' fun target ht => ?_
      exact hl.find hn hc hp target (h.plain name hmem target ht)

/-- The way back from a change that only put a file somewhere, or took one away. -/
theorem keepsWays_back {l : Location} (hfind : ∀ k, k ≠ l → d'.tree.find k = d.tree.find k)
    (hl : d'.tree.IsAside l) (hcwd : d'.cwd = d.cwd) (hlost : d'.lost = d.lost) :
    d'.KeepsWays d :=
  keepsWays_of_find (· = l) (fun hk => (hfind _ hk).symm) (fun hk => hk ▸ hl) hcwd.symm hlost.symm

theorem touches_write {data : Bytes} (hp : d.Enters p dir) (hn : FitsDirectory name)
    (hl : d.NoLink p name) (h : d.write (p / name) data = .ok d') :
    Touches dir reserved gone d d' ∧ d'.KeepsWays d := by
  obtain ⟨place, last, m, dir', x, mode, hlast, hat, hm, hx, hfile, rfl⟩ := write_cases h
  obtain ⟨hc, hp', rfl⟩ := (resolveLast_div_iff hn.1).1 hlast
  cases hp.unique hp'
  cases eq_of_destination hlast (hl.find hn hc hp) hat
  have hput : d.PutsFile (d.put (name :: dir) (.file data mode)) (name :: dir) data :=
    putsFile_put hm hp.1 (isAside_of_child? hx hfile)
  refine ⟨?_, hput.back⟩
  obtain ⟨mode', hfind⟩ := hput.find
  refine touches_of_find (Tree.inside_cons name dir) (fun k hk => ?_) (fun target => ?_) rfl rfl
  · rw [hfind, if_neg (Ne.symm hk)]
  · rw [hfind, if_pos rfl]
    nofun

theorem touches_unlink (hp : d.Enters p dir) (hn : FitsDirectory name)
    (h : d.unlink (p / name) = .ok d') : Touches dir reserved gone d d' ∧ d'.KeepsWays d := by
  obtain ⟨m, dir', e, hlast, hchild, he, rfl⟩ := unlink_cases h
  obtain ⟨_, hp', hm⟩ := (resolveLast_div_iff hn.1).1 hlast
  cases hm
  cases hp.unique hp'
  have hdir := (Tree.isDirectory_eq_of_find (Tree.child?_eq_ok_iff.1 hchild).2.2).trans he
  have hfind := Tree.find_remove_of_not_directory hdir
  obtain ⟨hcwd, hlost⟩ := remove_stays hdir
  have hnone : (d.remove (name :: dir)).tree.find (name :: dir) = none := by
    rw [tree_remove, hfind, if_pos rfl]
  have hsame : ∀ k, k ≠ name :: dir → (d.remove (name :: dir)).tree.find k = d.tree.find k :=
    fun k hk => by rw [tree_remove, hfind, if_neg hk]
  refine ⟨touches_of_find (Tree.inside_cons name dir) hsame (fun _ ht => by cases hnone.symm.trans ht)
    hcwd hlost, ?_⟩
  exact keepsWays_back hsame (Tree.isAside_of_none hnone nofun) hcwd hlost

/-- Replacing a file in one stroke, done or not. -/
theorem touches_writeAtomic {contents : Bytes} {draws : List TemporaryName}
    {r : Except Failure Unit} (hp : d.Enters p dir) (hn : FitsDirectory name)
    (h : WorkDir.writeAtomic (p / name) contents draws d = (r, d')) :
    Touches dir reserved gone d d' ∧ d'.KeepsWays d := by
  cases r with
  | error e =>
      cases WorkDir.writeAtomic_error h
      exact ⟨.refl _ _ _ _, .refl _⟩
  | ok =>
      obtain ⟨m, dir', slash, mode, hlast, _, hfind, ⟨hcwd, hlost⟩, _⟩ := WorkDir.writeAtomic_ok h
      obtain ⟨_, hp', hm⟩ := (resolveLast_div_iff hn.1).1 hlast
      cases hm
      cases hp.unique hp'
      have hfile : d'.tree.find (name :: dir) = some (.file contents mode) := by
        rw [hfind, if_pos rfl]
      have hsame : ∀ k, k ≠ name :: dir → d'.tree.find k = d.tree.find k :=
        fun k hk => by rw [hfind, if_neg hk]
      refine ⟨touches_of_find (Tree.inside_cons name dir) hsame (by simp [hfile]) hcwd hlost, ?_⟩
      exact keepsWays_back hsame (Tree.isAside_of_find hfile rfl nofun) hcwd hlost

end Touches

section Clear

variable {d d' base : Disk} {dir l : Location} {p : Path} {reserved : List String}
  {gone : Location → Prop}

/-- A directory above the current one that is still there is as far up as it was. -/
theorem standing_above {t : Tree} {place : Location} (lost : Nat) {k : Nat}
    (h : t.isDirectory (place.drop k) = true) :
    ∃ j, (standing t place lost).cwd.drop j = place.drop k ∧
      (standing t place lost).lost + j = lost + k := by
  obtain ⟨i, hi, hlen, hleast⟩ := t.exists_nearest_eq_drop place
  have hle := hleast k h
  refine ⟨k - i, ?_, ?_⟩
  · change (t.nearest place).drop (k - i) = _
    rw [hi, List.drop_drop, Nat.add_sub_cancel' hle]
  · change lost + (place.length - (t.nearest place).length) + (k - i) = _
    omega

theorem find_clear_inside (h : Tree.Inside dir l) : (d.clear dir).tree.find l = none := by
  rw [tree_clear, Tree.find_clear, if_pos]
  simp [h.1, h.2]

theorem find_clear_outside (h : ¬ Tree.Inside dir l) :
    (d.clear dir).tree.find l = d.tree.find l := by
  rw [tree_clear, Tree.find_clear, if_neg]
  intro hw
  rw [Bool.and_eq_true, bne_iff_ne] at hw
  exact h hw

theorem clear_keepsWays (d : Disk) (dir : Location) : (d.clear dir).KeepsWays d where
  directory := (d.clear_leadsTo dir []).tree.directory
  link := fun hl => Or.inl (Tree.find_of_find_clear hl)
  above := (d.clear_leadsTo dir []).above

theorem Reaches.enters_clear (h : (d.clear dir).Reaches p p.steps l)
    (hl : d.tree.isDirectory l = true) : (d.clear dir).Enters p l := by
  refine h.enters (h.stands.resolve_right ?_)
  rintro ⟨data, mode, hfile⟩
  simp [Tree.isDirectory_eq_of_find (Tree.find_of_find_clear hfile), Entry.isDirectory] at hl

theorem KeepsWays.to_clear (h : base.KeepsWays d)
    (hbare : ∀ {l}, Tree.Inside dir l → base.tree.find l = none) :
    base.KeepsWays (d.clear dir) := by
  have hdirectory : ∀ {l}, base.tree.isDirectory l = true → (d.clear dir).tree.isDirectory l = true := by
    intro l hl
    cases l with
    | nil => rfl
    | cons n above =>
        obtain ⟨mode, hfind⟩ := Tree.isDirectory_cons_iff.1 hl
        have hin : ¬ Tree.Inside dir (n :: above) := fun hin => by
          cases (hbare hin).symm.trans hfind
        rw [Tree.isDirectory_congr (find_clear_outside hin)]
        exact h.directory hl
  refine ⟨hdirectory, fun {l target} hl => ?_, ?_⟩
  · have hin : ¬ Tree.Inside dir l := fun hin => by cases (hbare hin).symm.trans hl
    rw [find_clear_outside hin]
    exact h.link hl
  · obtain ⟨i, hcwd, hlost⟩ := h.above
    obtain ⟨j, hj, hj'⟩ := standing_above d.lost (hcwd ▸ hdirectory base.cwd_isDirectory)
    exact ⟨j, hcwd.trans hj.symm, hlost.trans hj'.symm⟩

/-- A path that needs nothing inside the directory leads on where it led. -/
theorem Touches.enters_clear (h : Touches dir reserved gone d d')
    (hgone : ∀ {l}, gone l → d.tree.IsAside l) (hp : (d.clear dir).Enters p l) :
    (d'.clear dir).Enters p l := by
  have hways := d.clear_keepsWays dir
  refine KeepsWays.enters (.to_clear (h.keepsWays hways find_clear_inside fun {k} hk => ?_)
    find_clear_inside) hp
  have ha := hgone hk
  by_cases hin : Tree.Inside dir k
  · exact Tree.isAside_of_none (find_clear_inside hin) fun hnil => Tree.not_inside_nil dir (hnil ▸ hin)
  · refine hways.isAside ha (find_clear_outside hin) ?_
    rintro rfl
    cases ha.directory

end Clear

section Make

variable {d : Disk} {p : Path} {dir : Location}

/-- A directory that is at no location is the current one, once it is gone. -/
theorem isDirectory_iff : d.isDirectory p = true ↔
    d.place p = .ok none ∨ ∃ dir, d.resolve p = .ok dir ∧ d.tree.isDirectory dir = true := by
  have hentry : ∀ dir, d.tree.isDirectory dir =
      ((d.tree.entry? dir).map Entry.isDirectory).getD false := by
    intro dir
    cases dir with
    | nil => rfl
    | cons n above => exact d.tree.isDirectory_cons n above
  simp only [resolve_eq_ok_iff, ← place_eq_some_iff, hentry]
  unfold isDirectory entry
  cases d.place p with
  | error e => simp [Bind.bind, Except.bind]
  | ok x =>
      cases x with
      | none => simp [Bind.bind, Except.bind, entryAt, Entry.isDirectory]
      | some dir => cases he : d.tree.entry? dir <;> simp [Bind.bind, Except.bind, entryAt, he]

theorem isDirectory_of_enters (h : d.Enters p dir) (hc : checkText p = .ok ()) :
    d.isDirectory p = true :=
  isDirectory_iff.2 (Or.inr ⟨dir, resolve_eq_ok_iff.2 (h.reaches hc), h.1⟩)

/-- A directory that is there cannot be made. -/
theorem makeDirectory_ne_ok (h : d.Enters p dir) (d' : Disk) : d.makeDirectory p ≠ .ok d' := by
  intro hmake
  obtain ⟨name, parent, slash, hlast, hnone, _⟩ := create_cases hmake
  obtain ⟨hend, hbefore, _⟩ := resolveLast_eq_name_iff.1 hlast
  obtain ⟨_, k, hsteps, _⟩ := Path.steps_of_ending (Prod.ext rfl hend)
  have hr := h.reaches hbefore.1
  rw [hsteps] at hr
  obtain ⟨mid, hmid, hw⟩ := hr.split
  cases hbefore.unique hmid
  rw [Tree.walk, Tree.maxLinks, Tree.walkWithin_succ] at hw
  obtain ⟨_, e, he, _⟩ := Tree.walkSteps_down_eq_ok.1 hw
  cases hnone.symm.trans he

/-- Where a directory is there, making it and those above it changes nothing. -/
theorem makeDirectories_of_enters (h : d.Enters p dir) : (d.makeDirectories p).2 = d := by
  rw [makeDirectories, makeChain]
  split
  · rfl
  · next htext =>
    cases hmake : d.makeDirectory p with
    | ok d' => exact absurd hmake (makeDirectory_ne_ok h d')
    | error e =>
        cases hc : checkText p with
        | ok => simp [ensureDirectory, hmake, isDirectory_of_enters h hc]
        | error x =>
            have hx : e = x := by
              simp [makeDirectory, create, resolveLast, start, hc, Bind.bind, Except.bind] at hmake
              exact hmake.symm
            have hdir : d.isDirectory p = false := by
              simp [isDirectory, entry, place, start, hc, Bind.bind, Except.bind]
            have hsome : x ≠ .system .noEntry := by
              rintro rfl
              unfold checkText at hc
              split at hc
              · cases hc
              · split at hc
                · cases hc
                · cases hc
            simp [ensureDirectory, hmake, hdir, hx, hsome]

end Make
end Disk
end PointsTo
