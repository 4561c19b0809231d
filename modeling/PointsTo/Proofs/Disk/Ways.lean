import PointsTo.Proofs.Disk.Change

/-!
Changes that keep every way to a directory. A file is on no such way, and neither
is a link that leads to a file, so both may come and go. Whatever a path leads to
that is a directory, it leads to before and after.
-/

namespace PointsTo

open PointsTo.Path (Step)

namespace Tree

/-- No way to a directory leads through the location. -/
structure IsAside (t : Tree) (l : Location) : Prop where
  directory : t.isDirectory l = false
  link : ∀ {target links rest r}, t.find l = some (.link target) →
    t.walkWithin (fun _ => true) links (linkStart l.tail target) (target.steps ++ rest) = .ok r →
    t.isDirectory r = false

section Aside

variable {t : Tree} {l r : Location}

theorem ne_nil_of_find {e : Entry} (h : t.find l = some e) : l ≠ [] := by
  rintro rfl
  cases t.rootless.symm.trans h

theorem isDirectory_eq_of_find {e : Entry} (h : t.find l = some e) :
    t.isDirectory l = e.isDirectory := by
  cases l with
  | nil => exact absurd rfl (ne_nil_of_find h)
  | cons n d => simp [isDirectory_cons, h]

theorem isDirectory_of_find_none (h : t.find l = none) (hl : l ≠ []) : t.isDirectory l = false := by
  cases l with
  | nil => exact absurd rfl hl
  | cons n d => simp [isDirectory_cons, h]

theorem isAside_of_find {e : Entry} (h : t.find l = some e) (he : e.isDirectory = false)
    (hl : ∀ target, e ≠ .link target) : t.IsAside l where
  directory := (isDirectory_eq_of_find h).trans he
  link := fun ht _ => absurd (Option.some.inj (h.symm.trans ht)) (hl _)

theorem isAside_of_none (h : t.find l = none) (hl : l ≠ []) : t.IsAside l where
  directory := isDirectory_of_find_none h hl
  link := fun ht _ => by cases h.symm.trans ht

/-- From a link that leads to a file the walk cannot go on. -/
theorem isAside_of_link {target : Path} {links : Nat} {f : Location}
    (h : t.find l = some (.link target))
    (hw : t.walkWithin (fun _ => true) links (linkStart l.tail target) target.steps = .ok f)
    (hf : t.isDirectory f = false) : t.IsAside l where
  directory := isDirectory_eq_of_find h
  link := fun {target' links' rest r} ht hr => by
    cases h.symm.trans ht
    obtain ⟨mid, hm, hrest⟩ := walkWithin_append hr
    cases walkWithin_unique hm hw
    rw [walkWithin_eq_walkSteps] at hrest
    obtain ⟨_, hend⟩ := eq_nil_of_walkSteps hf hrest
    cases hend
    exact hf

theorem LeadsTo.of_aside {s t : Tree}
    (directory : ∀ {l}, s.isDirectory l = true → t.isDirectory l = true)
    (link : ∀ {l target}, s.find l = some (.link target) →
      t.find l = some (.link target) ∨ s.IsAside l)
    (hr : s.isDirectory r = true) : s.LeadsTo t r where
  directory := directory
  link := fun hl => (link hl).imp_right fun ha _ _ hw => by simp [ha.link hl hw] at hr
  file := fun hf => by simp [isDirectory_eq_of_find hf, Entry.isDirectory] at hr

end Aside
end Tree

namespace Disk

/-- Every way to a directory on `d` is there on `d'`. The current directory of `d'`
may stand further down. -/
structure KeepsWays (d d' : Disk) : Prop where
  directory : ∀ {l}, d.tree.isDirectory l = true → d'.tree.isDirectory l = true
  link : ∀ {l target}, d.tree.find l = some (.link target) →
    d'.tree.find l = some (.link target) ∨ d.tree.IsAside l
  above : ∃ i, d.cwd = d'.cwd.drop i ∧ d.lost = d'.lost + i

section KeepsWays

variable {d d' d'' : Disk} {p : Path} {l r : Location}

theorem KeepsWays.refl (d : Disk) : d.KeepsWays d where
  directory := id
  link := Or.inl
  above := ⟨0, rfl, rfl⟩

theorem KeepsWays.leadsTo (h : d.KeepsWays d') (hr : d.tree.isDirectory r = true) :
    d.LeadsTo d' r where
  tree := .of_aside h.directory h.link hr
  above := h.above

theorem KeepsWays.trans (h : d.KeepsWays d') (h' : d'.KeepsWays d'') : d.KeepsWays d'' where
  directory := fun hl => h'.directory (h.directory hl)
  link := fun {l target} hl => by
    rcases h.link hl with hl' | ha
    · refine (h'.link hl').imp_right fun ha =>
        ⟨Tree.isDirectory_eq_of_find hl, fun {_ _ _ r} ht hw => ?_⟩
      -- a way through the link would still be there after the first change
      cases hl.symm.trans ht
      cases hr : d.tree.isDirectory r with
      | false => rfl
      | true =>
          have hout := ha.link hl' (Tree.walkWithin_of_leadsTo (h.leadsTo hr).tree hw)
          simp [h.directory hr] at hout
    · exact Or.inr ha
  above := by
    obtain ⟨i, hcwd, hlost⟩ := h.above
    obtain ⟨j, hcwd', hlost'⟩ := h'.above
    refine ⟨j + i, ?_, by omega⟩
    rw [hcwd, hcwd', List.drop_drop]

theorem KeepsWays.enters (h : d.KeepsWays d') (hp : d.Enters p r) : d'.Enters p r :=
  hp.of_leadsTo (h.leadsTo hp.1)

/-- What is on no way is on none where there are no further ways. -/
theorem KeepsWays.isAside (h : d'.KeepsWays d) (ha : d.tree.IsAside l)
    (hsame : d'.tree.find l = d.tree.find l) (hl : l ≠ []) : d'.tree.IsAside l where
  directory := by
    cases l with
    | nil => exact absurd rfl hl
    | cons n dir =>
        rw [Tree.isDirectory_cons, hsame, ← Tree.isDirectory_cons]
        exact ha.directory
  link := fun {target links rest r} ht hw => by
    cases hr : d'.tree.isDirectory r with
    | false => rfl
    | true =>
        have hout := ha.link (hsame ▸ ht) (Tree.walkWithin_of_leadsTo (h.leadsTo hr).tree hw)
        simp [h.directory hr] at hout

theorem KeepsWays.resolveLast {name : String} {slash : Bool} (h : d.KeepsWays d')
    (hp : d.resolveLast p = .ok (r, .name name slash)) :
    d'.resolveLast p = .ok (r, .name name slash) := by
  obtain ⟨hend, hr, hdir⟩ := resolveLast_eq_name_iff.1 hp
  have hlead := h.leadsTo hdir
  exact resolveLast_eq_name_iff.2 ⟨hend, hr.of_leadsTo hlead, hlead.tree.directory hdir⟩

/-- No way to a directory leads through the name in which a path to a file ends. That
name is the file, or a link to it. -/
theorem isAside_of_reaches {name : String} {dir : Location} {slash : Bool}
    (h : d.Reaches p p.steps r) (hr : d.tree.isDirectory r = false)
    (hlast : d.resolveLast p = .ok (dir, .name name slash)) : d.tree.IsAside (name :: dir) := by
  obtain ⟨hend, hbefore, _⟩ := resolveLast_eq_name_iff.1 hlast
  obtain ⟨_, k, hsteps, _⟩ := Path.steps_of_ending (Prod.ext rfl hend)
  rw [hsteps] at h
  obtain ⟨mid, hmid, hw⟩ := h.split
  cases hbefore.unique hmid
  rw [Tree.walk, Tree.maxLinks, Tree.walkWithin_succ] at hw
  obtain ⟨_, e, he, hnext⟩ := Tree.walkSteps_down_eq_ok.1 hw
  have hfind := (Tree.child?_eq_ok_iff.1 he).2.2
  rcases hnext with ⟨target, rfl, hjump⟩ | ⟨hplain, hstay⟩
  · obtain ⟨stop, hstop, hstay⟩ := Tree.walkWithin_append hjump
    cases eq_of_walkSteps_stay hstay
    exact Tree.isAside_of_link hfind hstop hr
  · cases eq_of_walkSteps_stay hstay
    exact ⟨hr, fun ht _ => absurd (Option.some.inj (hfind.symm.trans ht)) (hplain _)⟩

end KeepsWays
end Disk
end PointsTo
