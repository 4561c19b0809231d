import PointsTo.Proofs.Disk.Straight
import PointsTo.Proofs.Mirror

/-!
Stale results. A full run begins by taking the working directory away with everything
inside it. What is left does not depend on what was in there, and neither does anything
that the run goes on to do.
-/

namespace PointsTo

namespace Disk

open PointsTo.Path

variable {d d' : Disk} {p : Path} {l : Location}

/-- A directory that could be removed with everything inside it is gone from its place. -/
theorem Spells.removeAll_eq (h : d.Spells p l) (hs : d.sunk p = 0)
    (hr : d.removeAll p = (.ok (), d')) : d' = d.remove l := by
  obtain ⟨r, hlocate, hcases⟩ := removeAll_ok hr
  cases h.eq_of_locate hs hlocate
  rcases hcases with ⟨_, target, hlink, _⟩ | ⟨hdir, ⟨_, _, _, _, rfl⟩ | ⟨hgone, _⟩⟩
  · exact absurd hlink (h.unlinked _ target (Tree.isWithin_iff.2 (List.suffix_refl _)))
  · exact remove_clear d _
  · exact absurd hgone (removeDirectory_ne_noEntry (place_eq_some_iff.2 (h.reaches_clear hs hlocate hdir)))

theorem Spells.grows {made : Location → Prop} (h : d.Spells p l) (hd : d.Grows d' made) :
    d'.Spells p l where
  place := by
    rw [← h.place, origin, origin, hd.cwd]
  straight := h.straight
  unlinked := fun k target hk ht => by
    cases hold : d.tree.find k with
    | none => cases (hd.fresh hold ht).1
    | some e =>
        cases (hd.keeps hold).symm.trans ht
        exact h.unlinked k target hk hold

/-- A directory that is not there and can be made has nothing in its place. -/
theorem Spells.find_of_made (h : d.Spells p l) (hs : d.sunk p = 0) (htext : p.text ≠ "")
    (habsent : d.isPresent p = false) (hmade : d.makeDirectories p = (.ok (), d')) :
    d.tree.find l = none ∧ l ≠ [] := by
  have hgrows := d.makeDirectories_grows p
  rw [hmade] at hgrows
  obtain ⟨r, hreach, hdir⟩ := (places_of_sunk hs).reaches_made htext hmade
  have hs' : d'.sunk p = 0 := by rw [← hs, sunk, sunk, hgrows.lost]
  obtain ⟨hr, hshort⟩ := (h.grows hgrows).reaches_eq hs' (List.append_nil _).symm hreach
  rw [(h.grows hgrows).place] at hr
  subst hr
  have hgone : d.tree.isDirectory r = false := by
    cases hd : d.tree.isDirectory r with
    | false => rfl
    | true =>
        have hthere : d.Reaches p p.steps r :=
          h.place ▸ (h.reaches hs hreach.1 hshort hd (List.append_nil _).symm).1
        have hpresent := isDirectory_of_enters (hthere.enters hd) hreach.1
        unfold isDirectory at hpresent
        unfold isPresent at habsent
        split at hpresent
        · next he => simp [he, Except.toBool] at habsent
        · cases hpresent
  have hne : r ≠ [] := by
    rintro rfl
    cases hgone
  refine ⟨?_, hne⟩
  cases hfind : d.tree.find r with
  | none => rfl
  | some e =>
      rw [Tree.isDirectory_eq_of_find (hgrows.keeps hfind)] at hdir
      rw [Tree.isDirectory_eq_of_find hfind, hdir] at hgone
      cases hgone

end Disk

namespace WorkDir

open Disk

variable {d d' : Disk} {dir : Path} {l : Location} {n : Nat}

/-- Cleaning leaves nothing of what was in the directory. -/
theorem clean_eq (h : d.Spells dir l) (hs : d.sunk dir = 0) (htext : dir.text ≠ "")
    (hclean : clean dir d = (.ok n, d')) : d' = ((d.remove l).makeDirectories dir).2 := by
  obtain ⟨cleared, hcleared, hmade⟩ := clean_ok hclean
  have hremoved : cleared = d.remove l := by
    rcases hcleared with ⟨habsent, _, rfl⟩ | ⟨_, hremove⟩
    · obtain ⟨hnone, hne⟩ := h.find_of_made hs htext habsent hmade
      exact (remove_eq_self hnone hne).symm
    · exact h.removeAll_eq hs hremove
  rw [← hremoved, hmade]

end WorkDir

namespace Plan

open Run Runner Stage

variable {plan : Plan} {host : Host} {s : Setup} {w w' : World} {l : Location}
  {outcome outcome' : Outcome}

/-- Once the working directory is prepared the disks no longer differ. -/
theorem prepare_forgets (h : Disk.AgreeOutside l w.disk w'.disk) (hs : w.disk.Spells s.workDir l)
    (hs' : w'.disk.Spells s.workDir l) {v v' : World}
    (hprepare : (prepare .full).run host s w = (.ok outcome, v))
    (hprepare' : (prepare .full).run host s w' = (.ok outcome', v')) : v'.disk = v.disk := by
  have heq : ∀ {w v : World} {outcome : Outcome}, w.disk.Spells s.workDir l →
      (prepare .full).run host s w = (.ok outcome, v) →
      v.disk = ((w.disk.remove l).makeDirectories s.workDir).2 := fun hs hprepare => by
    obtain ⟨hvalid, n, hclean⟩ := prepareFull_ok hprepare
    obtain ⟨_, _, _, hseen, _⟩ := RunConfig.foresee_of_validate hvalid
    exact WorkDir.clean_eq hs (Disk.sunk_of_foresee hseen) (Disk.text_ne_of_foresee hseen) hclean
  rw [heq hs hprepare, heq hs' hprepare', h.remove_eq]

/-- From the same disk and the same calls all stages do the same. -/
theorem mirrors_alike (plan : Plan) (host : Host) (s : Setup) (left right : List EngineCall) :
    ∀ stage ∈ plan.workStages ++ plan.map.toList.map .naming,
      Mirrors (.alike left right) Eq (stage.run host s) (stage.run host s) := by
  have hsolving := mirrors_solvingStages (couples_alike host s left right) plan
  unfold workStages
  simp only [List.forall_mem_append, List.forall_mem_map]
  refine ⟨⟨?_, hsolving⟩, fun request _ => ?_⟩
  · split
    · refine List.forall_mem_singleton.2 ?_
      exact (steady_relations host s _).mirrors (follows_relations _).later
    · nofun
  · exact (steady_naming host s request).mirrors (silent_naming request).extends

/-- A full run does not depend on what was in the working directory. From disks that
differ only there it makes the same calls, each later stage ends in the same way, and
the disks that are left are the same. -/
theorem full_run_ignores_stale_results (plan : Plan) (host : Host) (s : Setup) (w w' : World)
    (l : Location) (hfull : plan.mode = .full) (hcalls : w'.calls = w.calls)
    (hagree : Disk.AgreeOutside l w.disk w'.disk) (hspells : w.disk.Spells s.workDir l)
    (hspells' : w'.disk.Spells s.workDir l)
    (hprepare : ((prepare plan.mode).run host s w).1 = .ok outcome)
    (hprepare' : ((prepare plan.mode).run host s w').1 = .ok outcome') :
    (plan.run host s w').2.calls = (plan.run host s w).2.calls ∧
      (plan.run host s w').2.disk = (plan.run host s w).2.disk ∧
      (plan.run host s w').1.map (·.outcomes.tail) = (plan.run host s w).1.map (·.outcomes.tail) := by
  rcases hrun : (prepare plan.mode).run host s w with ⟨r, v₀⟩
  rcases hrun' : (prepare plan.mode).run host s w' with ⟨r', v₀'⟩
  rw [hrun] at hprepare
  rw [hrun'] at hprepare'
  cases hprepare
  cases hprepare'
  have hdisk : v₀'.disk = v₀.disk := by
    rw [hfull] at hrun hrun'
    exact prepare_forgets hagree hspells hspells' hrun hrun'
  have hvalid : ∀ {w v o}, (prepare plan.mode).run host s w = (.ok o, v) →
      s.config.validate w.disk = .ok () := fun hrun => by
    rw [hfull] at hrun
    exact (prepareFull_ok hrun).1
  have hsteady := steady_prepare plan.mode host s
  obtain ⟨v, hv, hend, hmap⟩ := run_after_first (hvalid hrun) hsteady hrun
    (plan.workStages ++ plan.map.toList.map .naming)
  obtain ⟨v', hv', hend', hmap'⟩ := run_after_first (hvalid hrun') hsteady hrun'
    (plan.workStages ++ plan.map.toList.map .naming)
  have halike : v.Alike v' :=
    ⟨by rw [hv'.disk, hdisk, hv.disk],
      by rw [hv'.calls, prepare_calls hrun', hcalls, hv.calls, prepare_calls hrun]⟩
  obtain ⟨hends, hstop, _⟩ := (mirrors_runStages (mirrors_alike plan host s _ _)).same halike
    (List.prefix_refl _) (List.prefix_refl _)
  rw [← stages_eq_workStages] at hend hend' hmap hmap'
  refine ⟨?_, ?_, ?_⟩
  · exact hend'.calls.trans (hstop.calls.trans hend.calls.symm)
  · exact hend'.disk.trans (hstop.disk.trans hend.disk.symm)
  · exact hmap'.trans ((ends_map_iff.1 hends).symm.trans hmap.symm)

def freshRoot : Disk :=
  .holding
    [(["java"], .file [] 0o755), (["run"], .directory 0o755), (["query.dtl", "run"], .file [1] 0o644)]

/-- What an earlier run left: relations, a program and a link out of the directory. -/
def leftovers : List (Location × Entry) :=
  [(["results", "run"], .directory 0o700), (["old", "results", "run"], .directory 0o755),
    (["vP.tuples", "old", "results", "run"], .file [2] 0o644),
    (["number.dtl", "results", "run"], .file [3] 0o444),
    (["fielddomains.pa", "results", "run"], .link ⟨"../query.dtl"⟩)]

def usedRoot : Disk :=
  leftovers.foldl (fun d x => d.put x.1 x.2) freshRoot

theorem full_run_ignores_leftovers :
    let plan : Plan := ⟨"Main", .datalog ⟨"query.dtl"⟩, .full, none⟩
    let host : Host := .scripted [] [⟨[.write ⟨"results/unmunged_method.map"⟩ [4]], false, .code 0⟩]
    (Disk.AgreeOutside ["results", "run"] freshRoot usedRoot ∧
      freshRoot.Spells Setup.usual.workDir ["results", "run"] ∧
      usedRoot.Spells Setup.usual.workDir ["results", "run"] ∧
      ((prepare plan.mode).run host .usual (.ofDisk freshRoot)).1 =
        .ok ⟨none, some "removed 0 files"⟩ ∧
      ((prepare plan.mode).run host .usual (.ofDisk usedRoot)).1 =
        .ok ⟨none, some "removed 3 files"⟩) ∧
    (plan.run host .usual (.ofDisk usedRoot)).2.calls =
      (plan.run host .usual (.ofDisk freshRoot)).2.calls ∧
    (plan.run host .usual (.ofDisk usedRoot)).2.disk =
      (plan.run host .usual (.ofDisk freshRoot)).2.disk ∧
    (plan.run host .usual (.ofDisk usedRoot)).1.map (·.outcomes.tail) =
      (plan.run host .usual (.ofDisk freshRoot)).1.map (·.outcomes.tail) := by
  intro plan host
  have hagree : Disk.AgreeOutside ["results", "run"] freshRoot usedRoot :=
    .put (.put (.put (.put (.put (.refl _ _) rfl _) rfl _) rfl _) rfl _) rfl _
  obtain ⟨hspells, hspells', hprepare, hprepare'⟩ :
      freshRoot.Spells Setup.usual.workDir ["results", "run"] ∧
      usedRoot.Spells Setup.usual.workDir ["results", "run"] ∧
      ((prepare plan.mode).run host .usual (.ofDisk freshRoot)).1 =
        .ok ⟨none, some "removed 0 files"⟩ ∧
      ((prepare plan.mode).run host .usual (.ofDisk usedRoot)).1 =
        .ok ⟨none, some "removed 3 files"⟩ := by
    decide +kernel
  exact ⟨⟨hagree, hspells, hspells', hprepare, hprepare'⟩,
    full_run_ignores_stale_results plan host .usual (.ofDisk freshRoot) (.ofDisk usedRoot)
      ["results", "run"] rfl rfl hagree hspells hspells' hprepare hprepare'⟩

end Plan
end PointsTo
