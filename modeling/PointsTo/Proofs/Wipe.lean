import PointsTo.Proofs.Calls
import PointsTo.Stage.Prepare

/-!
Emptying the working directory. The configuration check compares canonical paths
and the removal walks the path as it is written; both end at the same location.
What is wiped is therefore never the run root or a directory around it.
-/

namespace PointsTo

namespace Tree

theorem entry?_eq_find {t : Tree} {l : Location} (h : l ≠ []) : t.entry? l = t.find l := by
  cases l with
  | nil => exact absurd rfl h
  | cons n d => rfl

/-- What stands has an entry, and so has every directory around it. -/
theorem exists_find_of_isWithin {t : Tree} {k l : Location} (hl : t.Stands l)
    (hw : isWithin k l = true) (hk : k ≠ []) :
    ∃ e, t.find k = some e ∧ ∀ target, e ≠ .link target := by
  have hstands : t.Stands k := by
    by_cases hkl : k = l
    · rwa [hkl]
    · rcases hl with hl | ⟨data, mode, hl⟩
      · exact Or.inl (isDirectory_of_isWithin hw hl)
      · exact Or.inl (isDirectory_of_find_within hl hw hkl)
  cases k with
  | nil => exact absurd rfl hk
  | cons n d =>
      rcases hstands with h | ⟨data, mode, h⟩
      · obtain ⟨mode, h⟩ := isDirectory_cons_iff.1 h
        exact ⟨_, h, nofun⟩
      · exact ⟨_, h, nofun⟩

end Tree

namespace Disk

/-- The entry that a path names, or something inside the directory it leads to. -/
def Covers (d : Disk) (p : Path) (l : Location) : Prop :=
  d.locate p = .ok (some l) ∨
    ∃ t, d.resolve p = .ok t ∧ Tree.isWithin t l = true ∧ l ≠ t

instance (d : Disk) (p : Path) (l : Location) : Decidable (d.Covers p l) :=
  decidable_of_iff
    (d.locate p = .ok (some l) ∨
      (match d.resolve p with
        | .ok t => Tree.isWithin t l && l != t
        | .error _ => false) = true) <| by
    unfold Covers
    cases d.resolve p <;> simp

section Covers

variable {d : Disk} {p q : Path} {k l r : Location}

/-- The only way to be within an entry that a path names and not to be that entry
is to be inside the directory that it leads to. -/
theorem covers_of_isWithin {e : Entry} (h : d.locate p = .ok (some l))
    (hw : Tree.isWithin l k = true) (he : d.tree.find k = some e) : d.Covers p k := by
  by_cases hkl : k = l
  · exact Or.inl (hkl ▸ h)
  · have hdir := Tree.isDirectory_of_find_within he hw (Ne.symm hkl)
    have hlink : ∀ target, d.tree.find l ≠ some (.link target) := by
      intro target ht
      cases l with
      | nil => cases d.tree.rootless.symm.trans ht
      | cons n dir => simp [Tree.isDirectory_cons, ht, Entry.isDirectory] at hdir
    exact Or.inr ⟨l, resolve_eq_ok_iff.2 (reaches_of_locate h hlink), hw, hkl⟩

theorem Covers.isWithin (h : d.Covers p k) (hk : ∀ target, d.tree.find k ≠ some (.link target))
    (hl : d.Reaches p p.steps l) : Tree.isWithin l k = true := by
  rcases h with h | ⟨t, ht, hw, _⟩
  · rw [hl.unique (reaches_of_locate h hk)]
    exact Tree.isWithin_iff.2 (List.suffix_refl k)
  · rwa [hl.unique (resolve_eq_ok_iff.1 ht)]

theorem foresee_of_canonical (h : d.canonical p = .ok q) : d.foresee p = .ok q := by
  unfold foresee canonicalAbove
  rw [h]
  rfl

/-- From a current directory that is gone, no relative path is foreseen. -/
theorem canonicalAbove_ne_ok {missing : List String} {above : List Path} (hlost : d.lost ≠ 0)
    (hp : p.isAbsolute = false) (habove : ∀ q ∈ above, q.isAbsolute = false) :
    d.canonicalAbove missing p above ≠ .ok q := by
  have hcanon : ∀ {p : Path}, p.isAbsolute = false → ∀ q, d.canonical p ≠ .ok q := by
    intro p hp q h
    obtain ⟨_, _, h⟩ := bind_eq_ok_iff.1 h
    simp only [hp, Bool.not_false, ↓reduceIte, currentPath, hlost] at h
    cases h
  induction above generalizing p missing with
  | nil =>
      intro h
      unfold canonicalAbove at h
      split at h
      · next q' hq => exact hcanon hp q' hq
      · simp at h
  | cons parent above ih =>
      intro h
      unfold canonicalAbove at h
      split at h
      · next q' hq => exact hcanon hp q' hq
      · split at h
        · next name parent' above' _ heq =>
          cases heq
          refine ih ?_ (fun q hq => habove q (List.mem_cons_of_mem _ hq)) h
          split
          · rfl
          · exact habove parent List.mem_cons_self
        · cases h

/-- A path that is foreseen does not start in a directory that is gone. -/
theorem sunk_of_foresee (h : d.foresee p = .ok q) : d.sunk p = 0 := by
  by_cases hs : d.sunk p = 0
  · exact hs
  · have ha : p.isAbsolute = false := by
      cases ha : p.isAbsolute with
      | false => rfl
      | true => simp [sunk, ha] at hs
    have hlost : d.lost ≠ 0 := by simpa [sunk, ha] using hs
    cases hc : d.canonicalAbove [] p p.ancestors with
    | error e => simp [foresee, hc, mapError_error] at h
    | ok q' =>
        exact absurd hc (canonicalAbove_ne_ok hlost ha fun q hq =>
          Path.isAbsolute_of_mem_ancestors ha hq)

theorem text_ne_of_foresee (h : d.foresee p = .ok q) : p.text ≠ "" := by
  intro htext
  obtain rfl : p = ⟨""⟩ := congrArg Path.mk htext
  have hcheck : checkText ⟨""⟩ = .error (.system .noEntry) := by decide
  have hname : Path.fileName? ⟨""⟩ = none := by decide
  simp [foresee, canonicalAbove, canonical, hcheck, hname, Bind.bind, Except.bind,
    mapError_error] at h

theorem exists_canonical_of_foresee (hp : d.isPresent p = true) (h : d.foresee p = .ok q)
    (hshort : d.canonical p ≠ .error (.system .nameTooLong)) : ∃ q, d.canonical p = .ok q := by
  have hs := sunk_of_foresee h
  obtain ⟨r, hr⟩ := exists_reaches_of_isPresent hs hp
  exact ⟨_, (canonical_of_reaches hs hr).resolve_right hshort⟩

end Covers
end Disk

namespace RunConfig

theorem foresee_of_validate {c : RunConfig} {d : Disk} (h : c.validate d = .ok ()) :
    ∃ rootPath workPath, d.foresee c.root = .ok rootPath ∧ d.foresee c.workDir = .ok workPath ∧
      rootPath.startsWith workPath = false := by
  unfold validate at h
  obtain ⟨rootPath, hroot, h⟩ := bind_eq_ok_iff.1 h
  obtain ⟨workPath, hwork, h⟩ := bind_eq_ok_iff.1 h
  refine ⟨rootPath, workPath, hroot, hwork, ?_⟩
  split at h
  · cases h
  · next hs => simpa using hs

/-- A configuration that is accepted keeps the run root out of the working
directory, if both are there and have canonical paths. -/
theorem not_isWithin_of_validate {c : RunConfig} {d : Disk} (h : c.validate d = .ok ())
    {rootPath workPath : Path} (hroot : d.canonical c.root = .ok rootPath)
    (hwork : d.canonical c.workDir = .ok workPath) {r t : Location}
    (hr : d.Reaches c.root c.root.steps r) (ht : d.Reaches c.workDir c.workDir.steps t) :
    Tree.isWithin t r = false := by
  obtain ⟨r', hr', rfl⟩ := Disk.exists_reaches_of_canonical hroot
  obtain ⟨t', ht', rfl⟩ := Disk.exists_reaches_of_canonical hwork
  cases hr.unique hr'
  cases ht.unique ht'
  obtain ⟨_, _, hfr, hft, hout⟩ := foresee_of_validate h
  cases (Disk.foresee_of_canonical hroot).symm.trans hfr
  cases (Disk.foresee_of_canonical hwork).symm.trans hft
  rw [← Bool.not_eq_true] at hout ⊢
  rwa [← Location.startsWith_toPath_iff (Tree.isName_of_mem ht.stands)
    (Tree.isName_of_mem hr.stands)]

end RunConfig

namespace WorkDir

/-- Cleaning removes what is there and then makes directories, and may stop before
either. -/
theorem clean_cases {dir : Path} {d d' : Disk} {r : Except Failure Nat}
    (h : clean dir d = (r, d')) :
    ∃ cleared, (cleared = d ∨ d.isPresent dir = true ∧ cleared = (d.removeAll dir).2) ∧
      (d' = cleared ∨ d' = (cleared.makeDirectories dir).2) := by
  rcases Attempt.bind_cases h with ⟨present, d₁, hview, h⟩ | ⟨e, hview, _⟩
  · cases hview
    have hmake : ∀ {removed : Nat} {d d' : Disk} {r : Except Failure Nat},
        (Disk.changePartly dir (·.makeDirectories dir) >>= fun _ => pure removed :
          Attempt Disk Nat) d = (r, d') → d' = (d.makeDirectories dir).2 := by
      intro removed d d' r h
      rcases Attempt.bind_cases h with ⟨_, d₁, hm, h⟩ | ⟨e, hm, _⟩
      · cases h
        exact Disk.eq_of_changePartly hm
      · exact Disk.eq_of_changePartly hm
    split at h
    · next hp =>
      rcases Attempt.bind_cases h with ⟨count, d₁, hcount, h⟩ | ⟨e, hcount, _⟩
      · obtain rfl : d = d₁ := (Prod.mk.inj hcount).2
        refine ⟨(d.removeAll dir).2, Or.inr ⟨hp, rfl⟩, ?_⟩
        rcases Attempt.bind_cases h with ⟨_, d₂, hremove, h⟩ | ⟨e, hremove, _⟩
        · rw [← Disk.eq_of_changePartly hremove]
          exact Or.inr (hmake h)
        · exact Or.inl (Disk.eq_of_changePartly hremove)
      · exact ⟨d, Or.inl rfl, Or.inl (Prod.mk.inj hcount).2.symm⟩
    · exact ⟨d, Or.inl rfl, Or.inr (hmake h)⟩
  · cases hview

variable {dir : Path} {d d' : Disk} {r : Except Failure Nat}

theorem find_clean (h : clean dir d = (r, d')) {l : Location} {e : Entry}
    (he : d.tree.find l = some e)
    (hout : d.isPresent dir = true → ∀ k, d.locate dir = .ok (some k) → Tree.isWithin k l = false) :
    d'.tree.find l = some e := by
  obtain ⟨cleared, hcleared, hd'⟩ := clean_cases h
  have hkept : cleared.tree.find l = some e := by
    rcases hcleared with rfl | ⟨hp, rfl⟩
    · exact he
    · exact Disk.find_removeAll (hout hp) he
  rcases hd' with rfl | rfl
  · exact hkept
  · exact (cleared.makeDirectories_grows dir).keeps hkept

/-- What is there in the end was there before, or is a directory on the way. -/
theorem find_clean_cases (h : clean dir d = (r, d')) {l : Location} {e : Entry}
    (he : d'.tree.find l = some e) :
    d.tree.find l = some e ∨ e = .directory Disk.newDirectoryMode ∧
      ∃ p ∈ dir :: dir.ancestors, d'.resolve p = .ok l := by
  obtain ⟨cleared, hcleared, hd'⟩ := clean_cases h
  have hless : cleared.tree.find l = some e → d.tree.find l = some e := by
    rcases hcleared with rfl | ⟨_, rfl⟩
    · exact id
    · exact Disk.find_of_find_removeAll
  rcases hd' with rfl | rfl
  · exact Or.inl (hless he)
  · have hgrows := cleared.makeDirectories_grows dir
    cases hl : cleared.tree.find l with
    | none =>
        obtain ⟨hdir, p, hp, hreach⟩ := hgrows.fresh hl he
        exact Or.inr ⟨hdir, p, hp, Disk.resolve_eq_ok_iff.2 hreach⟩
    | some e' =>
        cases (hgrows.keeps hl).symm.trans he
        exact Or.inl (hless hl)

theorem find_of_find_clean (h : clean dir d = (r, d')) {l : Location} {e : Entry}
    (hnone : d.tree.find l = none) (he : d'.tree.find l = some e) :
    e = .directory Disk.newDirectoryMode ∧ ∃ p ∈ dir :: dir.ancestors, d'.resolve p = .ok l :=
  (find_clean_cases h he).resolve_left (by simp [hnone])

end WorkDir

namespace Stage

theorem prepareFull_cases {s : Setup} {w w' : World} {r : Except Failure Outcome}
    (hvalid : s.config.validate w.disk = .ok ()) (h : prepareFull s w = (r, w')) :
    ∃ r, WorkDir.clean s.workDir w.disk = (r, w'.disk) := by
  rcases Attempt.bind_cases h with ⟨_, w₁, hlook, h₁⟩ | ⟨e, hlook, _⟩
  · obtain ⟨_, rfl⟩ := Run.lookAtDisk_cases hlook
    rcases Attempt.bind_cases h₁ with ⟨_, w₂, htell, h₂⟩ | ⟨e, htell, _⟩
    · rw [← (Run.tell_cases htell).2.1]
      rcases Attempt.bind_cases h₂ with ⟨_, w₃, hclean, h₃⟩ | ⟨e, hclean, _⟩
      · cases h₃
        exact ⟨_, (Run.onDisk_cases hclean).1⟩
      · exact ⟨_, (Run.onDisk_cases hclean).1⟩
    · cases (Run.tell_cases htell).1
  · cases hvalid.symm.trans (Run.lookAtDisk_cases hlook).1

/-- A full run that is allowed to start wipes nothing but its working directory.
The run root stays with the directories around it, what the working directory does
not cover stays, and what is new are directories on the way to it. A path whose
canonical form is too long is taken for missing, so it must not be too long. -/
theorem prepare_full_wipes_only_workDir (host : Host) (s : Setup) (w : World)
    (hroot : w.disk.isPresent s.root = true) (hvalid : s.config.validate w.disk = .ok ())
    (hshort : ∀ p ∈ [s.root, s.workDir], w.disk.isPresent p = true →
      w.disk.canonical p ≠ .error (.system .nameTooLong)) :
    let d := w.disk
    let d' := ((prepare .full).run host s w).2.disk
    (∃ r, d.resolve s.root = .ok r ∧
      ∀ k, Tree.isWithin k r = true → d'.tree.entry? k = d.tree.entry? k) ∧
    (∀ l e, d.tree.find l = some e → ¬ d.Covers s.workDir l → d'.tree.find l = some e) ∧
    (∀ l e, d.tree.find l = none → d'.tree.find l = some e →
      e = .directory Disk.newDirectoryMode ∧
        ∃ p ∈ s.workDir :: s.workDir.ancestors, d'.resolve p = .ok l) := by
  intro d d'
  obtain ⟨_, _, hrootSeen, hworkSeen, _⟩ := RunConfig.foresee_of_validate hvalid
  obtain ⟨rootPath, hrootPath⟩ :=
    Disk.exists_canonical_of_foresee hroot hrootSeen (hshort s.root (by simp) hroot)
  obtain ⟨r, hr, -⟩ := Disk.exists_reaches_of_canonical hrootPath
  obtain ⟨_, hclean⟩ := prepareFull_cases hvalid (Prod.eta _).symm
  refine ⟨⟨r, Disk.resolve_eq_ok_iff.2 hr, fun k hk => ?_⟩, fun l e he hl => ?_, fun l e hl he => ?_⟩
  · by_cases hnil : k = []
    · subst hnil
      rfl
    · rw [Tree.entry?_eq_find hnil, Tree.entry?_eq_find hnil]
      obtain ⟨e, he, hlink⟩ := Tree.exists_find_of_isWithin hr.stands hk hnil
      rw [he]
      refine WorkDir.find_clean hclean he fun hp own hown => ?_
      obtain ⟨workPath, hworkPath⟩ :=
        Disk.exists_canonical_of_foresee hp hworkSeen (hshort s.workDir (by simp) hp)
      obtain ⟨t, ht, -⟩ := Disk.exists_reaches_of_canonical hworkPath
      have hout := RunConfig.not_isWithin_of_validate hvalid hrootPath hworkPath hr ht
      cases hw : Tree.isWithin own k with
      | false => rfl
      | true =>
          have hcovers := Disk.covers_of_isWithin hown hw he
          have htk := hcovers.isWithin (fun target ht => hlink target (by simp_all)) ht
          rw [Tree.isWithin_iff] at htk hk
          simp [Tree.isWithin_iff.2 (htk.trans hk)] at hout
  · refine WorkDir.find_clean hclean he fun _ own hown => ?_
    cases hw : Tree.isWithin own l with
    | false => rfl
    | true => exact absurd (Disk.covers_of_isWithin hown hw he) hl
  · exact WorkDir.find_of_find_clean hclean hl he

def linkedStore : Disk :=
  .holding
    [(["home"], .directory 0o755), (["run", "home"], .directory 0o755),
      (["store", "home"], .directory 0o755), (["kept", "store", "home"], .file [7] 0o644),
      (["out", "run", "home"], .link ⟨"../store"⟩)]

def linkedSetup : Setup :=
  .working ⟨"/home/run/."⟩ ⟨"../run/out"⟩

theorem prepare_full_wipes_link_only :
    (∀ p ∈ [linkedSetup.root, linkedSetup.workDir], linkedStore.isPresent p = true ∧
      linkedStore.canonical p ≠ .error (.system .nameTooLong)) ∧
    linkedSetup.config.validate linkedStore = .ok () ∧
    ¬ linkedStore.Covers linkedSetup.workDir ["store", "home"] ∧
    ((prepare .full).run (.scripted [] []) linkedSetup (.ofDisk linkedStore)).2.disk.tree.find
      ["store", "home"] = some (.directory 0o755) := by
  obtain ⟨hpaths, hvalid, hout, hstore⟩ :
      (∀ p ∈ [linkedSetup.root, linkedSetup.workDir], linkedStore.isPresent p = true ∧
        linkedStore.canonical p ≠ .error (.system .nameTooLong)) ∧
      linkedSetup.config.validate linkedStore = .ok () ∧
      ¬ linkedStore.Covers linkedSetup.workDir ["store", "home"] ∧
      linkedStore.tree.find ["store", "home"] = some (.directory 0o755) := by
    decide +kernel
  refine ⟨hpaths, hvalid, hout, ?_⟩
  exact (prepare_full_wipes_only_workDir _ linkedSetup (.ofDisk linkedStore)
    (hpaths _ List.mem_cons_self).1 hvalid fun p hp _ => (hpaths p hp).2).2.1 _ _ hstore hout

end Stage
end PointsTo
