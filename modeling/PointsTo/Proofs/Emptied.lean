import PointsTo.Proofs.Lists
import PointsTo.Proofs.Stale

/-!
An empty working directory to start from. Taking a directory away and making it again
each follow the path anew, and the tree that the path leads through changes between
the two. A new directory is empty, but a path that leads through what was taken away
may in the end lead to a directory that is not new.
-/

namespace PointsTo

open PointsTo.Path (Step)

namespace Disk

variable {d d' : Disk} {p q : Path} {dir l r : Location} {made : Location → Prop}

theorem not_isDirectory_of_ensureDirectory {e : Fault} (h : d.ensureDirectory p = (.error e, d')) :
    d.isDirectory p = false := by
  unfold ensureDirectory at h
  split at h
  · cases h
  · split at h
    · cases h
    · next hdir => simpa using hdir

section Missing

/-- Where only directories are added, what was reached does not turn into one. -/
theorem Grows.isDirectory_back (hg : d.Grows d' made) (hreach : d.Reaches p p.steps l)
    (hdir : d'.isDirectory p = true) : d.isDirectory p = true := by
  have hreach' := hreach.of_leadsTo (hg.leadsTo l)
  have hplaces : d'.Places p := by
    intro hnone
    have hplace := place_eq_some_iff.2 hreach'
    rw [place, hnone] at hplace
    cases hplace
  obtain ⟨r, hr, hrdir⟩ := hplaces.reaches hdir
  cases hreach'.unique hr
  rcases hreach.stands with hl | ⟨data, mode, hl⟩
  · exact isDirectory_of_enters (hreach.enters hl) hreach.1
  · rw [Tree.isDirectory_eq_of_find (hg.keeps hl)] at hrdir
    cases hrdir

/-- A path with a name after that of an empty directory leads nowhere. -/
theorem Bare.not_reaches {parent : Path} {name : String} {front : List Step} {i j k : Nat}
    (h : d.Bare parent) (habs : parent.isAbsolute = p.isAbsolute) (hs : d.sunk p = 0)
    (hparent : parent.steps = front ++ List.replicate i .stay)
    (hp : p.steps = front ++ List.replicate j .stay ++ .down name :: List.replicate k .stay) :
    ¬ d.Reaches p p.steps r := by
  intro hreach
  obtain ⟨dir, ⟨_, hdir⟩, _, hnone⟩ := h
  rw [hp] at hreach
  obtain ⟨mid, ⟨_, hmid⟩, hw⟩ := hreach.split
  obtain ⟨e, hchild⟩ := Tree.exists_child_of_walkWithin hw
  rw [walksTo_iff_of_isAbsolute_eq habs, hparent] at hdir
  unfold WalksTo at hdir hmid
  simp only [hs, surface_zero, Except.ok.injEq, Prod.mk.injEq, true_and, exists_eq_left'] at hdir hmid
  obtain ⟨stop, hstop, hstay⟩ := Tree.walkWithin_append hdir
  obtain ⟨stop', hstop', hstay'⟩ := Tree.walkWithin_append hmid
  cases hstop.symm.trans hstop'
  obtain rfl : dir = stop := eq_of_walkSteps_stay hstay
  obtain rfl : mid = dir := eq_of_walkSteps_stay hstay'
  cases (hnone name).symm.trans (Tree.child?_eq_ok_iff.1 hchild).2.2

theorem Bare.not_isDirectory {parent : Path} {name : String} {front : List Step} {i j k : Nat}
    (h : d.Bare parent) (habs : parent.isAbsolute = p.isAbsolute) (hs : d.sunk p = 0)
    (hparent : parent.steps = front ++ List.replicate i .stay)
    (hp : p.steps = front ++ List.replicate j .stay ++ .down name :: List.replicate k .stay) :
    d.isDirectory p = false := by
  rw [Bool.eq_false_iff]
  intro hdir
  obtain ⟨r, hreach, _⟩ := (places_of_sunk hs).reaches hdir
  exact h.not_reaches habs hs hparent hp hreach

/-- A chain adds nothing or leaves an empty directory under its first path, if that path does
not come to lead to an old one by making those above it. -/
theorem makeChain_cons_bare {above : List Path}
    (hback : ∀ {made}, d.makeChain above = (.ok (), made) → made.isDirectory p = true →
      made = d ∨ d.isDirectory p = true)
    (h : d.makeChain (p :: above) = (.ok (), d')) : d' = d ∨ d'.Bare p := by
  rcases makeChain_cons_ok h with ⟨_, rfl⟩ | hfirst | ⟨e, made, hfirst, habove, hlast⟩
  · exact Or.inl rfl
  · rcases ensureDirectory_ok hfirst with hbare | ⟨rfl, _⟩
    · exact Or.inr hbare
    · exact Or.inl rfl
  · rcases ensureDirectory_ok hlast with hbare | ⟨rfl, hdir⟩
    · exact Or.inr hbare
    · refine Or.inl ((hback habove hdir).resolve_right ?_)
      simp [not_isDirectory_of_ensureDirectory hfirst]

/-- Below what is there, the directories that are missing on the way to a path are made one
by one, and the last of them holds nothing. -/
theorem makeChain_bare {above : List Path} {missing : List String} (habove : p.ancestors = above)
    (hseen : d.canonicalAbove missing p above = .ok q) (hs : d.sunk p = 0)
    (hmade : d.makeChain (p :: above) = (.ok (), d')) : d' = d ∨ d'.Bare p := by
  -- the paths above are those of the parent, which is empty where it had to be made
  induction above generalizing p missing d' with
  | nil => exact makeChain_cons_bare (fun habove => by cases habove) hmade
  | cons parent above ih =>
      refine makeChain_cons_bare (fun {made} hchain hdir => ?_) hmade
      have hgrows := d.makeChain_grows (parent :: above)
      rw [hchain] at hgrows
      unfold canonicalAbove at hseen
      split at hseen
      · next hcanon =>
        obtain ⟨r, hreach, _⟩ := exists_reaches_of_canonical hcanon
        exact Or.inr (hgrows.isDirectory_back hreach hdir)
      · split at hseen
        · next name parent' above' hname heq =>
          cases heq
          obtain ⟨_, hfirst, habs, front, i, j, k, hparent, hp⟩ := Path.ancestors_of_fileName hname
          cases habove.symm.trans hfirst
          refine Or.inl ?_
          by_cases htext : parent.text = ""
          · rw [makeChain, if_pos htext] at hchain
            cases hchain
            rfl
          · rw [if_neg htext] at hseen
            have hsunk : d.sunk parent = 0 := by rwa [sunk, habs]
            refine (ih rfl hseen hsunk hchain).resolve_right fun hbare => ?_
            -- an empty parent does not hold the name that the path ends in
            have hs' : made.sunk p = 0 := by rwa [sunk, hgrows.lost]
            simp [hbare.not_isDirectory habs hs' hparent hp] at hdir
        · cases hseen

end Missing

section Anew

def renewed (d : Disk) (l : Location) : Disk :=
  (d.remove l).put l (.directory newDirectoryMode)

theorem find_renewed_cases {k : Location} {e : Entry} (h : (d.renewed l).tree.find k = some e) :
    k = l ∧ e = .directory newDirectoryMode ∨ (d.remove l).tree.find k = some e := by
  rw [renewed, tree_put, Tree.find_put_eq] at h
  split at h
  · next hk =>
    cases h
    exact Or.inl ⟨hk.2.symm, rfl⟩
  · exact Or.inr h

theorem find_inside_renewed (d : Disk) (l : Location) (name : String) :
    (d.renewed l).tree.find (name :: l) = none := by
  rw [renewed, tree_put, Tree.find_put_eq, if_neg (by simp), tree_remove, Tree.find_remove,
    if_pos (Tree.inside_cons name l).1]

/-- Something can be made anew where it was taken away. -/
theorem free_of_remove {name : String} {e : Entry} (he : d.tree.find (name :: dir) = some e) :
    (d.remove (name :: dir)).tree.isDirectory dir = true ∧
      (d.remove (name :: dir)).tree.find (name :: dir) = none := by
  have hout : Tree.isWithin (name :: dir) dir = false := by
    rw [Bool.eq_false_iff]
    intro hw
    have hle := (Tree.isWithin_iff.1 hw).length_le
    rw [List.length_cons] at hle
    omega
  refine ⟨(Tree.isDirectory_congr (by simp [hout])).trans (Tree.isDirectory_of_find he), ?_⟩
  rw [tree_remove, Tree.find_remove, if_pos (Tree.isWithin_iff.2 (List.suffix_refl _))]

theorem grows_renewed {e : Entry} (he : d.tree.find l = some e) :
    (d.remove l).Grows (d.renewed l) (· = l) := by
  cases l with
  | nil => cases d.tree.rootless.symm.trans he
  | cons name dir =>
      obtain ⟨hdir, hnone⟩ := free_of_remove he
      exact grows_put (Tree.isName_of_find he) hdir hnone

theorem find_self_renewed {e : Entry} (he : d.tree.find l = some e) :
    (d.renewed l).tree.find l = some (.directory newDirectoryMode) := by
  cases l with
  | nil => cases d.tree.rootless.symm.trans he
  | cons name dir =>
      obtain ⟨hdir, hnone⟩ := free_of_remove he
      exact (find_put_new (Tree.isName_of_find he) hdir hnone _).trans (if_pos rfl)

/-- What leads to the new directory leads to the old one as well once that is empty. -/
theorem renewed_leadsTo_clear (hdir : d.tree.isDirectory l = true) :
    (d.renewed l).LeadsTo (d.clear l) l where
  tree := {
    directory := fun {k} hk => by
      cases k with
      | nil => rfl
      | cons name above =>
          obtain ⟨mode, hfind⟩ := Tree.isDirectory_cons_iff.1 hk
          rcases find_renewed_cases hfind with ⟨rfl, _⟩ | hfind
          · exact (Tree.isDirectory_congr (find_clear_outside fun hin => hin.2 rfl)).trans hdir
          · exact Tree.isDirectory_cons_iff.2 ⟨mode, find_clear_of_find_remove hfind⟩
    link := fun hlink => by
      rcases find_renewed_cases hlink with ⟨_, he⟩ | hfind
      · cases he
      · exact Or.inl (find_clear_of_find_remove hfind)
    file := fun {data mode} hfile => by
      rcases find_renewed_cases hfile with ⟨_, he⟩ | hfind
      · cases he
      · exact ⟨data, mode, find_clear_of_find_remove hfind⟩ }
  above := by
    have hlead : ((d.clear l).remove l).LeadsTo (d.clear l) l :=
      leadsTo_of_standing (fun h => (Tree.find_of_find_remove h).2) l
    rw [remove_clear] at hlead
    exact hlead.above

/-- Where a path leads somewhere, what a path along it ends in is there. -/
theorem exists_find_of_along {name : String} {slash : Bool} (hreach : d.Reaches p p.steps r)
    (halong : q.Along p) (hlast : d.resolveLast q = .ok (dir, .name name slash)) :
    ∃ e, d.tree.find (name :: dir) = some e := by
  obtain ⟨habs, front, k, hq, more, hmore⟩ := halong
  obtain ⟨hend, hbefore, _⟩ := resolveLast_eq_name_iff.1 hlast
  obtain ⟨_, j, hsteps, _⟩ := Path.steps_of_ending (Prod.ext rfl hend)
  obtain ⟨rest, rfl⟩ := exists_eq_of_append_eq (hq.symm.trans hsteps) (by simp [List.mem_replicate])
  rw [← hmore, List.append_assoc, List.cons_append] at hreach
  obtain ⟨mid, ⟨_, hmid⟩, hw⟩ := hreach.split
  obtain ⟨e, hchild⟩ := Tree.exists_child_of_walkWithin hw
  cases hbefore.2.unique ((walksTo_iff_of_isAbsolute_eq habs).2 hmid)
  exact ⟨e, (Tree.child?_eq_ok_iff.1 hchild).2.2⟩

/-- On the way to a place where nothing is, a directory is made there or nowhere. -/
theorem makeDirectory_along (hg : d.Grows d' (· = l)) (hreach : d'.Reaches p p.steps l)
    (hq : q = ⟨""⟩ ∨ q.Along p) {made : Disk} (h : d.makeDirectory q = .ok made) :
    d.tree.find l = none ∧ made = d.put l (.directory newDirectoryMode) := by
  obtain ⟨name, dir, slash, hlast, hc, _, rfl⟩ := create_cases h
  obtain ⟨hend, hbefore, hdir⟩ := resolveLast_eq_name_iff.1 hlast
  have hnone := (Tree.child?_eq_ok_iff.1 hc).2.2
  rcases hq with rfl | halong
  · cases hbefore.1
  · have hlead := hg.leadsTo dir
    obtain ⟨e, he⟩ := exists_find_of_along hreach halong (resolveLast_eq_name_iff.2
      ⟨hend, hbefore.of_leadsTo hlead, hlead.tree.directory hdir⟩)
    obtain rfl := (hg.fresh hnone he).2
    exact ⟨hnone, rfl⟩

theorem ensureDirectory_renewed {e : Entry} (he : d.tree.find l = some e)
    (hreach : (d.renewed l).Reaches p p.steps l) (hq : q = ⟨""⟩ ∨ q.Along p)
    (hd : d' = d.remove l ∨ d' = d.renewed l) :
    (d'.ensureDirectory q).2 = d.remove l ∨ (d'.ensureDirectory q).2 = d.renewed l := by
  unfold ensureDirectory
  split
  · next made hmade =>
    refine Or.inr ?_
    rcases hd with rfl | rfl
    · exact (makeDirectory_along (grows_renewed he) hreach hq hmade).2
    · have hnone := (makeDirectory_along (.refl _ _) hreach hq hmade).1
      cases hnone.symm.trans (find_self_renewed he)
  · split <;> exact hd

/-- All that is made along a path to the new directory is that directory. -/
theorem makeChain_renewed {e : Entry} (he : d.tree.find l = some e)
    (hreach : (d.renewed l).Reaches p p.steps l) {paths : List Path}
    (hpaths : ∀ q ∈ paths, q = ⟨""⟩ ∨ q.Along p) :
    ((d.remove l).makeChain paths).2 = d.remove l ∨
      ((d.remove l).makeChain paths).2 = d.renewed l := by
  induction paths with
  | nil => exact Or.inl rfl
  | cons q above ih =>
      have hq := hpaths q List.mem_cons_self
      have hfirst := ensureDirectory_renewed he hreach hq (Or.inl rfl)
      have habove := ih fun q hq => hpaths q (List.mem_cons_of_mem _ hq)
      rw [makeChain]
      split
      · exact Or.inl rfl
      · split
        · next made hmade =>
          rwa [hmade] at hfirst
        · split
          · split
            · next hchain =>
              rwa [hchain] at habove
            · next made hchain =>
              rw [hchain] at habove
              exact ensureDirectory_renewed he hreach hq habove
          · exact Or.inl rfl

theorem bare_of_remade {e : Entry} (he : d.tree.find l = some e)
    (hlocate : (d.renewed l).locate p = .ok (some l)) (hplaces : (d.remove l).Places p)
    (htext : p.text ≠ "") (hmade : (d.remove l).makeDirectories p = (.ok (), d')) : d'.Bare p := by
  have hself := find_self_renewed he
  have hreach : (d.renewed l).Reaches p p.steps l := reaches_of_locate hlocate (by simp [hself])
  have hpaths : ∀ q ∈ p :: p.ancestors, q = ⟨""⟩ ∨ q.Along p := fun q hq => by
    rcases List.mem_cons.1 hq with rfl | hq
    · exact Or.inr ⟨rfl, q.steps, 0, (List.append_nil _).symm, List.prefix_refl _⟩
    · exact Path.along_of_mem_ancestors hq
  have hchain := makeChain_renewed he hreach hpaths
  obtain ⟨dir, hdir, hisdir⟩ := hplaces.reaches_made htext hmade
  unfold makeDirectories at hmade
  rw [hmade] at hchain
  rcases hchain with rfl | rfl
  · -- the path leads nowhere yet, for the old directory is gone
    cases hreach.unique (hdir.of_leadsTo ((grows_renewed he).leadsTo dir))
    cases l with
    | nil => cases d.tree.rootless.symm.trans he
    | cons name above =>
        rw [Tree.isDirectory_of_find_none (free_of_remove he).2 nofun] at hisdir
        cases hisdir
  · exact ⟨l, hreach, Tree.isDirectory_eq_of_find hself, d.find_inside_renewed l⟩

end Anew
end Disk

namespace WorkDir

open Disk

/-- What was removed under a path that leads there again is made anew, and holds nothing. -/
theorem bare_of_removeAll {dir : Path} {d cleared d' : Disk} (htext : dir.text ≠ "")
    (hagain : ∀ l, d.locate dir = .ok (some l) → (d.renewed l).locate dir = .ok (some l))
    (hremove : d.removeAll dir = (.ok (), cleared))
    (hmade : cleared.makeDirectories dir = (.ok (), d')) : d'.Bare dir := by
  have hplaces := places_of_removeAll hremove
  obtain ⟨l, hl, ⟨_, target, hlink, _, rfl⟩ | ⟨hdir, ⟨_, _, _, hne, rfl⟩ | ⟨hgone, _⟩⟩⟩ :=
    removeAll_ok hremove
  · exact bare_of_remade hlink (hagain l hl) hplaces htext hmade
  · rw [remove_clear] at hplaces hmade
    cases l with
    | nil => exact absurd rfl hne
    | cons name above =>
        obtain ⟨mode, hfind⟩ := Tree.isDirectory_cons_iff.1 hdir
        exact bare_of_remade hfind (hagain _ hl) hplaces htext hmade
  · -- a path that leads to the place again finds the directory that was emptied
    have hlinkless : ∀ target, (d.renewed l).tree.find l ≠ some (.link target) := by
      intro target hlink
      rcases find_renewed_cases hlink with ⟨_, he⟩ | hfind
      · cases he
      · have hout := (Tree.find_of_find_remove hfind).1
        rw [Tree.isWithin_iff.2 (List.suffix_refl l)] at hout
        cases hout
    have hreach := (reaches_of_locate (hagain l hl) hlinkless).of_leadsTo (renewed_leadsTo_clear hdir)
    exact absurd hgone (removeDirectory_ne_noEntry (place_eq_some_iff.2 hreach))

theorem clean_bare {dir q : Path} {d d' : Disk} {n : Nat} (hseen : d.foresee dir = .ok q)
    (hagain : ∀ l, d.locate dir = .ok (some l) → (d.renewed l).locate dir = .ok (some l))
    (h : clean dir d = (.ok n, d')) : d'.Bare dir := by
  obtain ⟨cleared, ⟨habsent, _, rfl⟩ | ⟨_, hremove⟩, hmade⟩ := clean_ok h
  · refine (makeChain_bare rfl (mapError_eq_ok_iff.1 hseen) (sunk_of_foresee hseen)
      hmade).resolve_left ?_
    rintro rfl
    -- a directory that had been there before would have been seen
    obtain ⟨l, hreach, hdir⟩ := clean_reaches hseen h
    have hthere := isDirectory_of_enters (hreach.enters hdir) hreach.1
    unfold isPresent at habsent
    unfold Disk.isDirectory at hthere
    split at hthere
    · next hentry =>
      rw [hentry] at habsent
      cases habsent
    · cases hthere
  · exact bare_of_removeAll (text_ne_of_foresee hseen) hagain hremove hmade

end WorkDir

namespace Stage

/-- A full run has a working directory once it is prepared. Nothing is in it, provided that
its path would lead to the place of what it names also with nothing but an empty directory
there. -/
theorem prepare_full_empties_workDir (host : Host) (s : Setup) (w : World) (outcome : Outcome)
    (h : ((prepare .full).run host s w).1 = .ok outcome) :
    let d' := ((prepare .full).run host s w).2.disk
    ∃ dir, d'.resolve s.workDir = .ok dir ∧ d'.tree.isDirectory dir = true ∧
      ((∀ l, w.disk.locate s.workDir = .ok (some l) →
          (w.disk.renewed l).locate s.workDir = .ok (some l)) →
        d'.tree.children dir = []) := by
  intro d'
  have hrun : prepareFull s w = (.ok outcome, (prepareFull s w).2) := Prod.ext h rfl
  obtain ⟨hvalid, n, hclean⟩ := prepareFull_ok hrun
  obtain ⟨_, _, _, hseen, _⟩ := RunConfig.foresee_of_validate hvalid
  obtain ⟨dir, hreach, hdir⟩ := WorkDir.clean_reaches hseen hclean
  refine ⟨dir, Disk.resolve_eq_ok_iff.2 hreach, hdir, fun hagain => ?_⟩
  obtain ⟨dir', hreach', _, hnone⟩ := WorkDir.clean_bare hseen hagain hclean
  cases hreach.unique hreach'
  refine List.eq_nil_iff_forall_not_mem.2 fun ⟨name, e⟩ hmem => ?_
  cases (hnone name).symm.trans (Tree.mem_children.1 hmem)

theorem prepare_full_empties_leftovers :
    ((prepare .full).run (.scripted [] []) Setup.usual (.ofDisk Plan.usedRoot)).1 =
      .ok ⟨none, some "removed 3 files"⟩ ∧
    let d' := ((prepare .full).run (.scripted [] []) Setup.usual (.ofDisk Plan.usedRoot)).2.disk
    ∃ dir, d'.resolve Setup.usual.workDir = .ok dir ∧
      d'.tree.isDirectory dir = true ∧ d'.tree.children dir = [] := by
  have hok : ((prepare .full).run (.scripted [] []) Setup.usual (.ofDisk Plan.usedRoot)).1 =
      .ok ⟨none, some "removed 3 files"⟩ := by decide +kernel
  have hown : (World.ofDisk Plan.usedRoot).disk.locate Setup.usual.workDir =
      .ok (some ["results", "run"]) := by decide +kernel
  have hagain : ((World.ofDisk Plan.usedRoot).disk.renewed ["results", "run"]).locate
      Setup.usual.workDir = .ok (some ["results", "run"]) := by decide +kernel
  refine ⟨hok, (prepare_full_empties_workDir _ Setup.usual (.ofDisk Plan.usedRoot) _ hok).imp
    fun dir hdir => ⟨hdir.1, hdir.2.1, hdir.2.2 fun l hl => ?_⟩⟩
  cases hown.symm.trans hl
  exact hagain

/-- The directory on the way is made again, and is left in the working directory. -/
theorem prepare_full_leaves_directory_on_way :
    let s := Setup.working ⟨"/run"⟩ ⟨"results/old/.."⟩
    let r := (prepare .full).run (.scripted [] []) s (.ofDisk Plan.usedRoot)
    r.1 = .ok ⟨none, some "removed 3 files"⟩ ∧ r.2.disk.list s.workDir = .ok ["old"] := by
  decide +kernel

end Stage
end PointsTo
