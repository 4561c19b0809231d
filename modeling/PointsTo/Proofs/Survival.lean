import PointsTo.Proofs.Confinement

/-!
What becomes of the user's program. It stays readable under its path as long as the
part of the disk that leads to it stays: the wipe must not cover it, nothing of it
may be gathered, and the working directory must not be found around it.
-/

namespace PointsTo

namespace Disk

/-- Some of the entries of `d`. The current directory may stand further up. -/
structure PartOf (part d : Disk) : Prop where
  keeps : ∀ {l e}, part.tree.find l = some e → d.tree.find l = some e
  above : ∃ i, part.cwd = d.cwd.drop i ∧ part.lost = d.lost + i

instance (part d : Disk) : Decidable (part.PartOf d) :=
  decidable_of_iff
    ((∀ x ∈ part.tree.entries, d.tree.find x.1 = some x.2) ∧
      d.lost ≤ part.lost ∧ part.cwd = d.cwd.drop (part.lost - d.lost)) <| by
    refine ⟨fun ⟨hkeeps, hle, hcwd⟩ => ⟨fun {l e} he => ?_, _, hcwd, by omega⟩,
      fun ⟨hkeeps, i, hcwd, hlost⟩ => ⟨fun x hx => ?_, by omega, ?_⟩⟩
    · exact hkeeps (l, e) ((Table.find_eq_some_iff part.tree.ordered).1 he)
    · exact hkeeps ((Table.find_eq_some_iff part.tree.ordered).2 hx)
    · rw [hcwd, hlost, Nat.add_sub_cancel_left]

section PartOf

variable {part d d' : Disk} {p : Path} {contents : Bytes} {dir : Location} {reserved : List String}
  {gone : Location → Prop}

theorem PartOf.read (h : part.PartOf d) (hp : part.read p = .ok contents) :
    d.read p = .ok contents := by
  obtain ⟨l, mode, hl, hfind⟩ := read_eq_ok_iff.1 hp
  refine read_eq_ok_iff.2 ⟨l, mode, hl.of_leadsTo ⟨.of_keeps h.keeps l, h.above⟩, h.keeps hfind⟩

/-- The part stays where only other places change. -/
theorem PartOf.touch (h : part.PartOf d) (ht : Touches dir reserved gone d d')
    (hbare : ∀ {l}, Tree.Inside dir l → part.tree.find l = none)
    (hgone : ∀ {l}, gone l → part.tree.find l = none) : part.PartOf d' where
  keeps := fun {l e} he => by
    have hin : ¬ Tree.Inside dir l := fun hin => by cases (hbare hin).symm.trans he
    have hl : ¬ gone l := fun hl => by cases (hgone hl).symm.trans he
    rw [ht.same hin hl]
    exact h.keeps he
  above := by
    obtain ⟨i, hcwd, hlost⟩ := h.above
    obtain ⟨j, hcwd', hlost'⟩ := ht.above i (hcwd ▸ not_inside_cwd hbare)
    exact ⟨j, hcwd.trans hcwd'.symm, hlost.trans hlost'.symm⟩

theorem PartOf.grow {made : Location → Prop} (h : part.PartOf d) (hgrows : d.Grows d' made) :
    part.PartOf d' where
  keeps := fun he => hgrows.keeps (h.keeps he)
  above := by
    rw [hgrows.cwd, hgrows.lost]
    exact h.above

/-- The current directory is not lost below a directory of the part. -/
theorem PartOf.shrink (h : part.PartOf d) (hworked : d.Worked d')
    (hkeeps : ∀ {l e}, part.tree.find l = some e → d'.tree.find l = some e) : part.PartOf d' where
  keeps := hkeeps
  above := by
    obtain ⟨i, hcwd, hlost⟩ := h.above
    have hdir := (Tree.LeadsTo.of_keeps hkeeps []).directory part.cwd_isDirectory
    obtain ⟨j, hcwd', hlost'⟩ := hworked.sinks (hcwd ▸ hdir)
    exact ⟨j, hcwd.trans hcwd'.symm, hlost.trans hlost'.symm⟩

end PartOf

/-- There is at most one directory that a path enters, and it can be looked up. -/
instance decidableForallEnters (d : Disk) (p : Path) (P : Location → Prop) [DecidablePred P] :
    Decidable (∀ dir, d.Enters p dir → P dir) :=
  decidable_of_iff
    (∀ x, surface (d.sunk p) p.within = .ok x → x.1 = 0 →
      ∀ dir, d.tree.walk (d.origin p) x.2 = .ok dir → d.tree.isDirectory dir = true → P dir)
    ⟨fun h _ ⟨hdir, rest, hs, hw⟩ => h (0, rest) hs rfl _ hw hdir,
      fun h x hx hz dir hw hdir => h dir ⟨hdir, x.2, hz ▸ hx, hw⟩⟩

instance (d : Disk) (p : Path) (dir : Location) : Decidable (d.Enters p dir) :=
  decidable_of_iff (¬ ∀ k, d.Enters p k → k ≠ dir)
    ⟨fun h => Classical.byContradiction fun hno => h fun _ hk he => hno (he ▸ hk),
      fun h hall => hall dir h rfl⟩

end Disk

namespace WorkDir

open Disk

variable {part d d' : Disk} {dir : Path}

theorem clean_partOf {r : Except Failure Nat} (h : clean dir d = (r, d')) (hpart : part.PartOf d)
    (hout : ∀ l e, part.tree.find l = some e → ¬ d.Covers dir l) : part.PartOf d' := by
  obtain ⟨cleared, hcleared, hd'⟩ := clean_cases h
  have hkept : part.PartOf cleared := by
    rcases hcleared with rfl | ⟨_, rfl⟩
    · exact hpart
    · refine hpart.shrink (worked_removeAll d dir) fun {l e} he => ?_
      refine find_removeAll (fun own hown => ?_) (hpart.keeps he)
      cases hw : Tree.isWithin own l with
      | false => rfl
      | true => exact absurd (covers_of_isWithin hown hw (hpart.keeps he)) (hout l e he)
  rcases hd' with rfl | rfl
  · exact hkept
  · exact hkept.grow (cleared.makeDirectories_grows dir)

theorem clearTuples_partOf {r : Except Failure Nat} (h : clearTuples dir d = (r, d'))
    (hpart : part.PartOf d) (hout : ∀ l e, part.tree.find l = some e → ¬ d.Covers dir l) :
    part.PartOf d' := by
  rcases clearTuples_cases h with rfl | ⟨names, place, hplace, hswept, _⟩
  · exact hpart
  · refine ⟨fun {l e} he => ?_, by rw [hswept.cwd, hswept.lost]; exact hpart.above⟩
    rcases hswept.find l with hl | ⟨_, n, _, rfl⟩
    · rw [hl]
      exact hpart.keeps he
    · exact absurd (Or.inr ⟨place, resolve_eq_ok_iff.2 hplace, Tree.inside_cons n place⟩)
        (hout _ e he)

end WorkDir

namespace Stage

/-- Wherever names in the working directory are looked up on `d`, they are not on the
way, the program files are no links, and nothing inside is needed to get there. -/
def Spares (s : Setup) (way d : Disk) : Prop :=
  ∀ dir, d.Enters s.workDir dir → (d.clear dir).Enters s.workDir dir ∧
    (∀ l, Tree.Inside dir l → way.tree.find l = none) ∧
    ∀ name ∈ programFiles, d.NoLink s.workDir name

instance (s : Setup) (way d : Disk) : Decidable (Spares s way d) :=
  have (dir : Location) : Decidable (∀ l, Tree.Inside dir l → way.tree.find l = none) :=
    decidable_of_iff (∀ x ∈ way.tree.entries, ¬ Tree.Inside dir x.1) <| by
      refine ⟨fun h l hin => Option.eq_none_iff_forall_ne_some.2 fun e he => ?_, fun h x hx hin => ?_⟩
      · exact h (l, e) ((Table.find_eq_some_iff way.tree.ordered).1 he) hin
      · cases (h x.1 hin).symm.trans ((Table.find_eq_some_iff way.tree.ordered).2 hx)
  inferInstanceAs (Decidable (∀ dir, d.Enters s.workDir dir → _ ∧ _ ∧ _))

/-- No map that would be gathered from the run root is on the way. -/
def SparesMaps (s : Setup) (way d : Disk) : Prop :=
  ∀ src, d.resolve s.root = .ok src →
    (∀ dir, d.Enters s.workDir dir → (d.clear dir).resolve s.root = .ok src) ∧
    ∀ x ∈ way.tree.children src, mapStart.toList.isPrefixOf x.1.toList = true →
      d.isFile (s.root / x.1) = false

instance (s : Setup) (way d : Disk) : Decidable (SparesMaps s way d) :=
  inferInstanceAs (Decidable (∀ src, d.resolve s.root = .ok src → _ ∧ _))

section Spares

variable {mode : Mode} {host : Host} {s : Setup} {way d d' : Disk} {w w' : World} {dir : Location}
  {gone : Location → Prop}

theorem prepare_partOf {r : Except Failure Outcome}
    (hvalid : s.config.validate w.disk = .ok ()) (h : (prepare mode).run host s w = (r, w'))
    (hway : way.PartOf w.disk)
    (hout : ∀ l e, way.tree.find l = some e → ¬ w.disk.Covers s.workDir l) :
    way.PartOf w'.disk := by
  cases mode with
  | full =>
      obtain ⟨_, hclean⟩ := prepareFull_cases hvalid h
      exact WorkDir.clean_partOf hclean hway hout
  | fast =>
      rcases prepareFast_cases h with hd | ⟨_, hclear⟩
      · rwa [hd]
      · exact WorkDir.clearTuples_partOf hclear hway hout

theorem Spares.touch (h : Spares s way d) (hdir : d.Enters s.workDir dir)
    (ht : Disk.Touches dir programFiles gone d d') (hgone : ∀ {l}, gone l → d.tree.IsAside l) :
    Spares s way d' := by
  obtain ⟨hclear, hbare, hplain⟩ := h dir hdir
  have hclear' := ht.enters_clear hgone hclear
  have hfound := (d'.clear_keepsWays dir).enters hclear'
  intro dir' hdir'
  cases hfound.unique hdir'
  exact ⟨hclear', hbare, fun name hn =>
    ht.noLink hdir hfound (fits_programFiles name hn) hn (hplain name hn)⟩

end Spares

/-- The path has been readable at every call and, as the way to it is there and
spared, still is. -/
structure Readable (s : Setup) (way : Disk) (path : Path) (contents : Bytes) (w : World) :
    Prop where
  part : way.PartOf w.disk
  spares : Spares s way w.disk
  seen : ∀ call ∈ w.calls, call.disk.read path = .ok contents

def Outlives (s : Setup) (way : Disk) (path : Path) (contents : Bytes) (calls : List EngineCall)
    (u v : World) : Prop :=
  u.calls <+: v.calls ∧
    (v.calls <+: calls → Readable s way path contents u → Readable s way path contents v)

/-- Each call leaves the way alone, and the working directory clear of it. Maps are
gathered after the second of the calls for the relations. -/
structure EngineSpares (host : Host) (s : Setup) (way : Disk) (calls : List EngineCall) :
    Prop where
  part : ∀ past call, past ++ [call] <+: calls → way.PartOf call.disk →
    way.PartOf (host.engine.left past call)
  workDir : ∀ past call, past ++ [call] <+: calls → Spares s way (host.engine.left past call)
  maps : ∀ past call, past ++ [call] <+: calls → call.label = Setup.relationsLabel →
    (∃ first ∈ past, first.label = Setup.relationsLabel) →
    SparesMaps s way (host.engine.left past call)

instance (host : Host) (s : Setup) (way : Disk) (calls : List EngineCall) :
    Decidable (EngineSpares host s way calls) :=
  decidable_of_iff
    (∀ (past : List EngineCall) (call : EngineCall), past ++ [call] <+: calls →
      (way.PartOf call.disk → way.PartOf (host.engine.left past call)) ∧
      Spares s way (host.engine.left past call) ∧
      (call.label = Setup.relationsLabel → (∃ first ∈ past, first.label = Setup.relationsLabel) →
        SparesMaps s way (host.engine.left past call)))
    ⟨fun h => ⟨fun past call hp => (h past call hp).1, fun past call hp => (h past call hp).2.1,
        fun past call hp => (h past call hp).2.2⟩,
      fun h past call hp => ⟨h.part past call hp, h.workDir past call hp, h.maps past call hp⟩⟩

section Outlives

variable {host : Host} {s : Setup} {way : Disk} {path : Path} {contents : Bytes}
  {calls : List EngineCall} {u v : World}

theorem outlives_chains : World.Chains (Outlives s way path contents calls) where
  same := fun hdisk hcalls =>
    ⟨hcalls ▸ List.prefix_refl _, fun _ h => ⟨hdisk ▸ h.part, hdisk ▸ h.spares, hcalls ▸ h.seen⟩⟩
  trans := fun _ _ _ huv hvw =>
    ⟨huv.1.trans hvw.1, fun hw hu => hvw.2 hw (huv.2 (hvw.1.trans hw) hu)⟩

/-- A change of the disk in the working directory, or of what is aside and not on the
way. -/
theorem outlives_of_touches {d : Disk}
    (h : u.calls <+: calls → Readable s way path contents u → d = u.disk ∨
      ∃ dir gone, u.disk.Enters s.workDir dir ∧ Disk.Touches dir programFiles gone u.disk d ∧
        ∀ l, gone l → u.disk.tree.IsAside l ∧ way.tree.find l = none) :
    Outlives s way path contents calls u (u.withDisk d) := by
  refine ⟨List.prefix_refl _, fun hcalls hu => ?_⟩
  rcases h hcalls hu with rfl | ⟨dir, gone, hdir, htouch, hgone⟩
  · exact hu
  · refine ⟨hu.part.touch htouch (fun {l} => (hu.spares dir hdir).2.1 l) fun hl => (hgone _ hl).2, ?_,
      hu.seen⟩
    exact hu.spares.touch hdir htouch fun hl => (hgone _ hl).1

theorem outlives_of_called {call : EngineCall} (hengine : EngineSpares host s way calls)
    (hread : way.read path = .ok contents) (hcalled : World.Called host u v call) :
    Outlives s way path contents calls u v := by
  refine ⟨⟨[call], hcalled.calls.symm⟩, fun hv hu => ?_⟩
  have hprefix : u.calls ++ [call] <+: calls := hcalled.calls ▸ hv
  have hended : v.disk = host.engine.left u.calls call := hcalled.ended
  have hway : way.PartOf call.disk := hcalled.disk ▸ hu.part
  refine ⟨hended ▸ hengine.part _ _ hprefix hway, hended ▸ hengine.workDir _ _ hprefix, ?_⟩
  intro c hc
  rw [hcalled.calls] at hc
  rcases List.mem_append.1 hc with hc | hc
  · exact hu.seen c hc
  · cases List.mem_singleton.1 hc
    exact hway.read hread

theorem outlives_of_gather {call : EngineCall} (hengine : EngineSpares host s way calls)
    (hcalled : World.Called host u v call) (hlabel : call.label = Setup.relationsLabel)
    (hfirst : ∃ first ∈ u.calls, first.label = Setup.relationsLabel) :
    Outlives s way path contents calls v
      (v.withDisk (WorkDir.moveFiles s.root mapStart s.workDir v.disk).2) := by
  refine outlives_of_touches fun hv h => ?_
  have hended : v.disk = host.engine.left u.calls call := hcalled.ended
  have hmaps : SparesMaps s way v.disk :=
    hended ▸ hengine.maps _ _ (hcalled.calls ▸ hv) hlabel hfirst
  rcases hmove : WorkDir.moveFiles s.root mapStart s.workDir v.disk with ⟨r, d⟩
  by_cases hdir : ∃ dir, v.disk.Enters s.workDir dir
  · obtain ⟨dir, hdir⟩ := hdir
    have hroot : ∀ {src}, v.disk.Reaches s.root s.root.steps src →
        v.disk.tree.isDirectory src = true → ∀ names,
        (v.disk.without (v.disk.overwritten dir names)).Enters s.root src := fun hr hsrc _ => by
      have hclear := (hmaps _ (Disk.resolve_eq_ok_iff.2 hr)).1 dir hdir
      exact Disk.enters_without_inside Disk.exists_of_mem_overwritten
        ((Disk.resolve_eq_ok_iff.1 hclear).enters_clear hsrc)
    rcases WorkDir.moveFiles_cases hmove hroot (h.spares dir hdir).1 with
      hd | ⟨names, src, hsrc, hgather, hnames⟩
    · exact Or.inl hd
    · refine Or.inr ⟨dir, _, hdir, hgather.touches fun n hn =>
        not_programFile_of_map (hnames n hn).2.2.1, ?_⟩
      rintro l ⟨n, hn, rfl⟩
      obtain ⟨_, hfile, hstart, haside⟩ := hnames n hn
      have hspared := (hmaps src (Disk.resolve_eq_ok_iff.2 hsrc)).2
      refine ⟨haside, Option.eq_none_iff_forall_ne_some.2 fun e he => ?_⟩
      cases hfile.symm.trans (hspared (n, e) (Tree.mem_children.2 he) hstart)
  · exact Or.inl (WorkDir.moveFiles_of_not_enters hmove (not_exists.1 hdir))

theorem outlives_respects (hengine : EngineSpares host s way calls)
    (hread : way.read path = .ok contents) :
    Respects host s (fun _ => True) (Outlives s way path contents calls) where
  toChains := outlives_chains
  call := fun hcalled _ _ => outlives_of_called hengine hread hcalled
  write := fun {name} hn {w data d} hwrite => outlives_of_touches fun _ h => by
    have hfits := fits_programFiles name hn
    obtain ⟨dir, _, _, _, _, _, hlast, _⟩ := Disk.write_cases hwrite
    have hdir := ((Disk.resolveLast_div_iff hfits.1).1 hlast).2.1
    have hplain := (h.spares dir hdir).2.2 name hn
    exact Or.inr ⟨dir, fun _ => False, hdir, (Disk.touches_write hdir hfits hplain hwrite).1, nofun⟩
  unlink := fun {name} hn {w d} hunlink => outlives_of_touches fun _ h => by
    have hfits := fits_programFiles name hn
    obtain ⟨_, dir, _, hlast, _⟩ := Disk.unlink_cases hunlink
    have hdir := ((Disk.resolveLast_div_iff hfits.1).1 hlast).2.1
    exact Or.inr ⟨dir, fun _ => False, hdir, (Disk.touches_unlink hdir hfits hunlink).1, nofun⟩
  domains := fun w contents' draws => outlives_of_touches fun _ h => by
    rcases hatomic : WorkDir.writeAtomic (s.workDir / Datalog.domainFile) contents' draws w.disk
      with ⟨r, d⟩
    cases r with
    | error e => exact Or.inl (WorkDir.writeAtomic_error hatomic)
    | ok =>
        obtain ⟨_, dir, _, _, hlast, _⟩ := WorkDir.writeAtomic_ok hatomic
        have hdir := ((Disk.resolveLast_div_iff (by decide)).1 hlast).2.1
        exact Or.inr ⟨dir, fun _ => False, hdir,
          (Disk.touches_writeAtomic hdir (by decide) hatomic).1, nofun⟩
  gather := fun hcalled hlabel hfirst _ => outlives_of_gather hengine hcalled hlabel hfirst
  rename := fun w _ => outlives_of_touches fun _ h => by
    rcases hrename : renameFiles s.workDir renames w.disk with ⟨r, d⟩
    by_cases hdir : ∃ dir, w.disk.Enters s.workDir dir
    · obtain ⟨dir, hdir⟩ := hdir
      exact Or.inr ⟨dir, fun _ => False, hdir,
        renameFiles_touches (by decide) (h.spares dir hdir).1 hrename, nofun⟩
    · exact Or.inl (renameFiles_of_not_enters (by decide) (not_exists.1 hdir) hrename)

end Outlives
end Stage

def Analysis.program : Analysis → Path
  | .datalog program | .query program => program

namespace Plan

open Stage Runner

variable {plan : Plan} {host : Host} {s : Setup} {way d : Disk} {w w₁ : World}
  {r : Except Failure Completed} {r₁ : Except Failure Outcome} {contents : Bytes} {path : Path}

theorem readable_of_work {u : World} {dir : Location} {e : Option Failure}
    (hread : way.read path = .ok contents) (hengine : EngineSpares host s way w.calls)
    (hdest : ∀ request ∈ plan.map, ∀ l,
      w.disk.destination (s.root.join request.dest) = .ok l → way.tree.find l = none)
    (hfound : u.disk.Enters s.workDir dir) (hu : Readable s way path contents u)
    (h : Ran host s (plan.workStages ++ plan.map.toList.map .naming) u e w) :
    (∀ call ∈ w.calls, call.disk.read path = .ok contents) ∧ w.disk.read path = .ok contents := by
  have hmake : ∀ w₀, u.Alike w₀ → Outlives s way path contents w.calls w₀
      (w₀.withDisk (w₀.disk.makeDirectories s.workDir).2) := fun w₀ hw => by
    rw [Disk.makeDirectories_of_enters (hw.disk ▸ hfound)]
    exact outlives_chains.same rfl rfl
  have hstages : ∀ {e v}, Ran host s plan.workStages u e v → v.calls <+: w.calls →
      Readable s way path contents v := fun hran hcalls =>
    (keeps_workStages (outlives_respects hengine hread) (fun _ _ => trivial) hmake hran).2 hcalls hu
  rcases h.append with ⟨_, _, hran⟩ | ⟨v, hran, hlast⟩
  · have hw := hstages hran (List.prefix_refl _)
    exact ⟨hw.seen, hw.part.read hread⟩
  · obtain ⟨hcalls, hnaming⟩ := naming_of_ran hlast
    have hv := hstages hran (hcalls ▸ List.prefix_refl _)
    refine ⟨hcalls ▸ hv.seen, ?_⟩
    rcases hnaming with hdisk | ⟨request, hmem, data, hwrite⟩
    · rw [hdisk]
      exact hv.part.read hread
    · obtain ⟨l, hl, hsame, hcwd, hlost⟩ := Disk.destination_of_write hwrite
      have hpart : way.PartOf w.disk := by
        refine ⟨fun {k e} he => ?_, by rw [hcwd, hlost]; exact hv.part.above⟩
        have hk : k ≠ l := by
          rintro rfl
          cases (hdest request hmem k hl).symm.trans he
        rw [hsame k hk]
        exact hv.part.keeps he
      exact hpart.read hread

/-- The user's program can be read under its path at every engine call and in the end,
if some part of the disk leads to it that the run spares: nothing of it is covered by
the working directory at first or found in it later, nothing of it is a map that is
gathered from the run root, and the map destination is not on it. -/
theorem program_outlives_run (hrun : plan.run host s (.ofDisk d) = (r, w))
    (hprepare : (prepare plan.mode).run host s (.ofDisk d) = (r₁, w₁))
    (hway : way.PartOf d) (hread : way.read (s.root.join plan.analysis.program) = .ok contents)
    (hout : ∀ l e, way.tree.find l = some e → ¬ d.Covers s.workDir l)
    (hspares : ∀ outcome, r₁ = .ok outcome → Spares s way w₁.disk)
    (hengine : EngineSpares host s way w.calls)
    (hdest : ∀ request ∈ plan.map, ∀ l,
      w.disk.destination (s.root.join request.dest) = .ok l → way.tree.find l = none) :
    (∀ call ∈ w.calls, call.disk.read (s.root.join plan.analysis.program) = .ok contents) ∧
      w.disk.read (s.root.join plan.analysis.program) = .ok contents := by
  rcases run_cases hrun with ⟨_, _, _, rfl⟩ | ⟨hvalid, hran⟩
  · exact ⟨nofun, hway.read hread⟩
  · rw [stages_eq_workStages] at hran
    generalize failure? r = e at hran
    have hsteady := steady_prepare plan.mode host s
    have hpart := prepare_partOf hvalid hprepare hway hout
    have hnone := prepare_calls hprepare
    cases hran with
    | failed hstage =>
        have halike := (hsteady.leads hstage hprepare).2
        rw [halike.disk, halike.calls, hnone]
        exact ⟨nofun, hpart.read hread⟩
    | @passed _ _ _ u _ _ hstage hrest =>
        obtain ⟨hok, halike⟩ := hsteady.leads hstage hprepare
        cases r₁ with
        | error _ => cases hok
        | ok outcome =>
            obtain ⟨dir, hdir⟩ := prepare_enters hvalid hprepare
            have hcalls : u.calls = [] := halike.calls.trans hnone
            refine readable_of_work hread hengine hdest (halike.disk ▸ hdir) ?_ hrest
            exact ⟨halike.disk ▸ hpart, halike.disk ▸ hspares outcome rfl, by simp [hcalls]⟩

/-- The program is a map of another directory, which a link in the run root leads to. -/
def linkedProgram : Disk :=
  .holding
    [(["run"], .directory 0o755), (["lib"], .directory 0o755),
      (["tools", "run"], .link ⟨"../lib"⟩), (["map_query.dtl", "lib"], .file [1] 0o644)]

def linkedProgramStore : Disk :=
  (linkedProgram.put ["java"] (.file [] 0o755)).put ["map_old", "run"] (.file [2] 0o644)

def linkedProgramPlan : Plan :=
  { mappedPlan with analysis := .datalog ⟨"tools/map_query.dtl"⟩ }

theorem linked_program_outlives_run :
    let path := mappedSetup.root.join linkedProgramPlan.analysis.program
    let w := (linkedProgramPlan.run mappingHost mappedSetup (.ofDisk linkedProgramStore)).2
    let d :=
      ((prepare linkedProgramPlan.mode).run mappingHost mappedSetup (.ofDisk linkedProgramStore)).2.disk
    (linkedProgram.PartOf linkedProgramStore ∧ linkedProgram.read path = .ok [1] ∧
      (∀ x ∈ linkedProgram.tree.entries, ¬ linkedProgramStore.Covers mappedSetup.workDir x.1)) ∧
    (Spares mappedSetup linkedProgram d ∧
      EngineSpares mappingHost mappedSetup linkedProgram w.calls ∧
      w.disk.destination (mappedSetup.root.join ⟨"named"⟩) = .ok ["named", "run"]) ∧
    (∀ call ∈ w.calls, call.disk.read path = .ok [1]) ∧ w.disk.read path = .ok [1] := by
  dsimp only
  obtain ⟨hstart, hlater, hnone⟩ :
      (linkedProgram.PartOf linkedProgramStore ∧
        linkedProgram.read (mappedSetup.root.join linkedProgramPlan.analysis.program) = .ok [1] ∧
        (∀ x ∈ linkedProgram.tree.entries,
          ¬ linkedProgramStore.Covers mappedSetup.workDir x.1)) ∧
      (Spares mappedSetup linkedProgram ((prepare linkedProgramPlan.mode).run mappingHost
          mappedSetup (.ofDisk linkedProgramStore)).2.disk ∧
        EngineSpares mappingHost mappedSetup linkedProgram
          (linkedProgramPlan.run mappingHost mappedSetup (.ofDisk linkedProgramStore)).2.calls ∧
        (linkedProgramPlan.run mappingHost mappedSetup (.ofDisk linkedProgramStore)).2.disk.destination
          (mappedSetup.root.join ⟨"named"⟩) = .ok ["named", "run"]) ∧
      linkedProgram.tree.find ["named", "run"] = none := by
    decide +kernel
  rcases hrun : linkedProgramPlan.run mappingHost mappedSetup (.ofDisk linkedProgramStore) with ⟨r, w⟩
  rcases hprepare : (prepare linkedProgramPlan.mode).run mappingHost mappedSetup
    (.ofDisk linkedProgramStore) with ⟨r₁, w₁⟩
  rw [hrun, hprepare] at hlater
  refine ⟨hstart, hlater, ?_⟩
  refine program_outlives_run hrun hprepare hstart.1 hstart.2.1
    (fun l e he => ?_) (fun _ _ => hlater.1) hlater.2.1 ?_
  · exact hstart.2.2 (l, e) ((Table.find_eq_some_iff linkedProgram.tree.ordered).1 he)
  · rintro request ⟨⟩ l hl
    cases hlater.2.2.symm.trans hl
    exact hnone

end Plan
end PointsTo
