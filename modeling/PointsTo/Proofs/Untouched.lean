import PointsTo.Proofs.Disk.Straight
import PointsTo.Proofs.Reuse
import PointsTo.Proofs.Survival
import PointsTo.Session

/-!
The report of an earlier run, which no stage writes. As long as the working directory
is found without what is inside it, what stands under the path of the report when a run
fails has stood there from the start.
-/

namespace PointsTo

namespace Disk

variable {d d' : Disk} {p q : Path} {dir l : Location} {name : String} {e : Entry}

theorem linkEntry_div_iff (hn : FitsDirectory name) :
    d.linkEntry (p / name) = .ok e ↔
      checkText (p / name) = .ok () ∧ ∃ dir, d.Enters p dir ∧ d.tree.find (name :: dir) = some e := by
  refine ⟨fun h => ?_, fun ⟨hc, dir, hdir, he⟩ => linkEntry_div hn hc hdir he⟩
  obtain ⟨_, hlocate, _⟩ := bind_eq_ok_iff.1 h
  obtain ⟨⟨dir, _⟩, hlast, _⟩ := bind_eq_ok_iff.1 hlocate
  obtain ⟨hc, hdir, rfl⟩ := (resolveLast_div_iff hn.1).1 hlast
  rw [linkEntry_of_name hlast] at h
  obtain ⟨x, hx, hfound⟩ := bind_eq_ok_iff.1 h
  cases x with
  | none => cases hfound
  | some e' =>
      cases hfound
      exact ⟨hc, dir, hdir, (Tree.child?_eq_ok_iff.1 (lift_eq_ok_iff.1 hx)).2.2⟩

/-- What stands under the path on `d'` stood there on `d`. -/
def OnlyOld (d d' : Disk) (p : Path) : Prop :=
  ∀ e, d'.linkEntry p = .ok e → d.linkEntry p = .ok e

instance (d d' : Disk) (p : Path) : Decidable (d.OnlyOld d' p) :=
  inferInstanceAs (Decidable (∀ e, d'.linkEntry p = .ok e → _))

theorem OnlyOld.refl (d : Disk) (p : Path) : d.OnlyOld d p :=
  fun _ h => h

theorem OnlyOld.trans {d'' : Disk} (h : d.OnlyOld d' p) (h' : d'.OnlyOld d'' p) : d.OnlyOld d'' p :=
  fun e he => h e (h' e he)

theorem onlyOld_div (hn : FitsDirectory name) (hdir : d.Enters p dir) (hdir' : d'.Enters p dir)
    (hfind : ∀ e, d'.tree.find (name :: dir) = some e → d.tree.find (name :: dir) = some e) :
    d.OnlyOld d' (p / name) := by
  intro e he
  obtain ⟨hc, place, hplace, hfound⟩ := (linkEntry_div_iff hn).1 he
  cases hdir'.unique hplace
  exact linkEntry_div hn hc hdir (hfind e hfound)

theorem not_stands_inside (h : Tree.Inside dir l) : ¬ (d.clear dir).tree.Stands l := by
  have hnone : (d.clear dir).tree.find l = none := find_clear_inside h
  rintro (hdir | ⟨data, mode, hfile⟩)
  · cases l with
    | nil => exact Tree.not_inside_nil dir h
    | cons n above =>
        obtain ⟨mode, hfind⟩ := Tree.isDirectory_cons_iff.1 hdir
        cases hnone.symm.trans hfind
  · cases hnone.symm.trans hfile

theorem Enters.walksTo (h : d.Enters p dir) : d.WalksTo p p.steps dir := by
  obtain ⟨hdir, rest, hs, hw⟩ := h
  rcases p.steps_eq_within with hp | hp
  · exact ⟨rest, hp ▸ hs, hw⟩
  · have hstay : d.tree.walkWithin (fun _ => true) 0 dir [.stay] = .ok dir := walkSteps_stay hdir 1
    rw [hp]
    exact ⟨_, surface_append_ok _ hs, Tree.walkWithin_of_append hw hstay⟩

theorem walksTo_iff_of_isAbsolute (h : p.isAbsolute = true) {steps : List Path.Step} :
    d.WalksTo p steps l ↔ d.tree.walk [] steps = .ok l := by
  simp [WalksTo, sunk, origin, h]

/-- A path above one that needs nothing inside a directory does not lead inside. -/
theorem not_inside_of_ancestor (habs : p.isAbsolute = true) (hdir : (d.clear dir).Enters p dir)
    (hq : q ∈ p.ancestors) (hl : d.Reaches q q.steps l) : ¬ Tree.Inside dir l := by
  rcases Path.along_of_mem_ancestors hq with rfl | ⟨hsame, front, k, hsteps, more, hmore⟩
  · cases hl.1
  · have hwalk := (walksTo_iff_of_isAbsolute (hsame.trans habs)).1 hl.2
    have hwalk' := (walksTo_iff_of_isAbsolute habs).1 hdir.walksTo
    rw [hsteps] at hwalk
    rw [← hmore] at hwalk'
    -- The way to the directory goes where the path above leads.
    obtain ⟨mid, hmid, hstay⟩ := Tree.walkWithin_append hwalk
    obtain ⟨mid', hmid', _⟩ := Tree.walkWithin_append hwalk'
    have hthere := Tree.walkWithin_of_leadsTo (d.clear_leadsTo dir mid').tree hmid'
    cases hmid.symm.trans hthere
    cases eq_of_walkSteps_stay hstay
    exact fun hin => not_stands_inside hin (Tree.walkWithin_stands rfl hmid')

theorem Spells.of_links (h : d.Spells p l) (habs : p.isAbsolute = true)
    (hlink : ∀ {k target}, d'.tree.find k = some (.link target) → d.tree.find k = some (.link target)) :
    d'.Spells p l where
  place := by
    have hplace := h.place
    rw [origin, if_pos habs] at hplace ⊢
    exact hplace
  straight := h.straight
  unlinked := fun k target hk ht => h.unlinked k target hk (hlink ht)

theorem spell_down (l : Location) (names : List String) :
    Path.spell l (names.map .down) = names.reverse ++ l := by
  induction names generalizing l with
  | nil => rfl
  | cons name names ih =>
      rw [List.map_cons, Path.spell, ih]
      simp

/-- The path of the current directory spells it. -/
theorem spells_cwd (d : Disk) : d.Spells d.cwd.toPath d.cwd := by
  have hnames := Tree.isName_of_mem (Or.inl d.cwd_isDirectory)
  have hwithin := Location.within_toPath hnames
  have hspell : Path.spell [] d.cwd.toPath.within = d.cwd := by
    rw [hwithin, Path.spell, spell_down]
    simp
  have hup : .up ∉ d.cwd.toPath.within := by
    simp [hwithin]
  refine ⟨?_, ?_, fun k target hk ht => ?_⟩
  · rw [origin, if_pos (Location.isAbsolute_toPath _)]
    rcases d.cwd.toPath.steps_eq_within with hp | hp
    · rw [hp, hspell]
    · rw [hp, Path.spell_append, hspell]
      rfl
  · rcases d.cwd.toPath.steps_eq_within with hp | hp
    · rwa [hp]
    · simpa [hp] using hup
  · have hdir := Tree.isDirectory_of_isWithin hk d.cwd_isDirectory
    rw [Tree.isDirectory_eq_of_find ht] at hdir
    cases hdir

/-- A path leads to the directory that it spells. -/
theorem enters_of_spell (habs : p.isAbsolute = true) (hplace : Path.spell [] p.steps = l)
    (hup : .up ∉ p.steps)
    (hshort : ∀ name, .down name ∈ p.steps → name.utf8ByteSize ≤ Tree.maxNameBytes)
    (hdir : d.tree.isDirectory l = true) : d.Enters p l := by
  have hwithin : Path.spell [] p.within = l ∧ p.within <+: p.steps := by
    rcases p.steps_eq_within with hp | hp
    · rw [hp] at hplace ⊢
      exact ⟨hplace, List.prefix_refl _⟩
    · rw [hp] at hplace ⊢
      rw [Path.spell_append] at hplace
      exact ⟨hplace, List.prefix_append _ _⟩
  obtain ⟨hspell, hbegins⟩ := hwithin
  refine ⟨hdir, (walksTo_iff_of_isAbsolute habs).2 ?_⟩
  rw [← hspell] at hdir ⊢
  rw [Tree.walk, Tree.maxLinks, Tree.walkWithin_succ]
  exact Tree.walkSteps_of_spell (fun h => hup (hbegins.subset h))
    (fun name h => hshort name (hbegins.subset h)) hdir

/-- Renaming two names of a directory shows under no other name. -/
theorem find_rename_other {src dst : String} (hp : d.Enters p dir) (hs : IsName src)
    (ht : IsName dst) (hsrc : name ≠ src) (hdst : name ≠ dst)
    (h : d.rename (p / src) (p / dst) = .ok d') :
    d'.tree.find (name :: dir) = d.tree.find (name :: dir) := by
  obtain ⟨_, srcDir, _, dstDir, _, _, e, hlast, hlast', _, hcheck, hd'⟩ := rename_cases h
  obtain ⟨_, hp₁, hm₁⟩ := (resolveLast_div_iff hs).1 hlast
  obtain ⟨_, hp₂, hm₂⟩ := (resolveLast_div_iff ht).1 hlast'
  cases hm₁
  cases hm₂
  cases hp.unique hp₁
  cases hp.unique hp₂
  have hout : ∀ {n}, name ≠ n → ¬ Tree.isWithin (n :: dir) (name :: dir) = true := fun hn hw => by
    cases (Tree.isWithin_iff.1 hw).eq_of_length (by simp)
    exact hn rfl
  rcases hd' with ⟨_, rfl⟩ | ⟨hne, rfl⟩
  · rfl
  · have hmove := canMove_of_checkRename hcheck hne ht hp.1
    rw [tree_move, Tree.find_move hmove nofun, if_neg (hout hdst), if_neg (hout hsrc)]

end Disk

namespace WorkDir

open Disk

/-- Files are moved in from a directory that its path spells. No directory is overwritten, so
the path goes on leading there, even if it is inside the other one. -/
theorem moveFiles_straight {source target : Path} {start : String} {src dst : Location}
    {d d' : Disk} {r : Except Failure Nat} (h : moveFiles source start target d = (r, d'))
    (habs : source.isAbsolute = true) (hsource : d.Spells source src)
    (htarget : (d.clear dst).Enters target dst) :
    d' = d ∨ ∃ names, Gathers names src dst d d' ∧
      ∀ n ∈ names, start.toList.isPrefixOf n.toList = true ∧ d.tree.IsAside (n :: src) := by
  have hspelled : ∀ {place}, d.Reaches source source.steps place → place = src ∧
      ∀ name, .down name ∈ source.steps → name.utf8ByteSize ≤ Tree.maxNameBytes := fun hp => by
    obtain ⟨hplace, hshort⟩ := hsource.reaches_eq (by rw [sunk, if_pos habs])
      (List.append_nil _).symm hp
    exact ⟨hplace.trans hsource.place, hshort⟩
  have hstays : ∀ {place}, d.Reaches source source.steps place → d.tree.isDirectory place = true →
      ∀ names, (d.without (d.overwritten dst names)).Enters source place := fun hp hdir names => by
    obtain ⟨rfl, hshort⟩ := hspelled hp
    have hplace := hsource.place
    rw [origin, if_pos habs] at hplace
    exact enters_of_spell habs hplace hsource.straight hshort (isDirectory_without_overwritten hdir)
  rcases moveFiles_cases h hstays htarget with hd | ⟨names, place, hp, hgathers, hnames⟩
  · exact Or.inl hd
  · obtain ⟨rfl, _⟩ := hspelled hp
    exact Or.inr ⟨names, hgathers, fun n hn => (hnames n hn).2.2⟩

end WorkDir

namespace TupleMap

/-- A file that cannot be mapped is not written. -/
theorem mapFiles_error {tuples names dest : Path} {d d' : Disk} {e : Failure}
    (h : mapFiles tuples names dest d = (.error e, d')) : d' = d := by
  rcases Attempt.bind_cases h with ⟨_, d₁, hnames, h₁⟩ | ⟨_, hnames, _⟩
  · obtain rfl : d = d₁ := (Prod.mk.inj hnames).2
    rcases Attempt.bind_cases h₁ with ⟨_, d₂, htuples, h₂⟩ | ⟨_, htuples, _⟩
    · obtain rfl : d = d₂ := (Prod.mk.inj htuples).2
      rcases Attempt.bind_cases h₂ with ⟨mapped, d₃, hmapped, h₃⟩ | ⟨_, hmapped, _⟩
      · obtain rfl : d₃ = d := (Attempt.ofExcept_cases hmapped).2
        rcases Attempt.bind_cases h₃ with ⟨_, d₄, _, hdone⟩ | ⟨_, hwrite, _⟩
        · cases hdone
        · rcases Disk.change_cases hwrite with ⟨hok, _⟩ | ⟨_, _, _, rfl⟩
          · cases hok
          · rfl
      · exact (Attempt.ofExcept_cases hmapped).2
    · exact (Prod.mk.inj htuples).2.symm
  · exact (Prod.mk.inj hnames).2.symm

end TupleMap

namespace Stage

open Disk World

/-- Wherever names in the working directory are looked up, nothing inside it is needed
to get there, and the program files are no links. -/
def Direct (s : Setup) (d : Disk) : Prop :=
  ∀ dir, d.Enters s.workDir dir →
    (d.clear dir).Enters s.workDir dir ∧ ∀ name ∈ programFiles, d.NoLink s.workDir name

instance (s : Setup) (d : Disk) : Decidable (Direct s d) :=
  inferInstanceAs (Decidable (∀ dir, d.Enters s.workDir dir → _ ∧ _))

/-- No call puts anything new under the path of the report. -/
def LeavesReport (host : Host) (s : Setup) (calls : List EngineCall) : Prop :=
  ∀ past call, past ++ [call] <+: calls →
    call.disk.OnlyOld (host.engine.left past call) (s.workDir / Session.reportFile)

instance (host : Host) (s : Setup) (calls : List EngineCall) :
    Decidable (LeavesReport host s calls) :=
  inferInstanceAs (Decidable (∀ past call, past ++ [call] <+: calls → _))

/-- The working directory is reached directly, once it is prepared and after each call, and
preparing it does not lead to another directory. No call makes a link on the way to the run
root, where that is straight. -/
structure Undiverted (host : Host) (s : Setup) (d prepared : Disk) (calls : List EngineCall) :
    Prop where
  own : ∀ dir, prepared.Enters s.workDir dir → d.tree.isDirectory dir = true →
    d.Enters s.workDir dir
  direct : Direct s prepared
  engine : ∀ past call, past ++ [call] <+: calls → Direct s (host.engine.left past call)
  root : ∀ past call, past ++ [call] <+: calls → call.disk.Straight s.root →
    (host.engine.left past call).Straight s.root

instance (host : Host) (s : Setup) (d prepared : Disk) (calls : List EngineCall) :
    Decidable (Undiverted host s d prepared calls) :=
  decidable_of_iff
    ((∀ dir, prepared.Enters s.workDir dir → d.tree.isDirectory dir = true →
      d.Enters s.workDir dir) ∧ Direct s prepared ∧
      ∀ (past : List EngineCall) (call : EngineCall), past ++ [call] <+: calls →
        Direct s (host.engine.left past call) ∧
        (call.disk.Straight s.root → (host.engine.left past call).Straight s.root))
    ⟨fun ⟨hown, hdirect, hengine⟩ => ⟨hown, hdirect, fun past call hp => (hengine past call hp).1,
        fun past call hp => (hengine past call hp).2⟩,
      fun h => ⟨h.own, h.direct, fun past call hp => ⟨h.engine past call hp, h.root past call hp⟩⟩⟩

section Direct

variable {host : Host} {s : Setup} {d d' : Disk} {dir : Location} {name : String}
  {gone : Location → Prop} {calls : List EngineCall} {u v : World}

theorem direct_iff_spares : Direct s d ↔ Spares s .empty d :=
  forall₂_congr fun _ _ => and_congr_right fun _ => ⟨fun h => ⟨fun _ _ => rfl, h⟩, fun h => h.2⟩

theorem Direct.touch (h : Direct s d) (hdir : d.Enters s.workDir dir)
    (ht : Disk.Touches dir programFiles gone d d') (hgone : ∀ {l}, gone l → d.tree.IsAside l) :
    Direct s d' :=
  direct_iff_spares.2 ((direct_iff_spares.1 h).touch hdir ht hgone)

/-- Renaming pairs of names shows under no other name. -/
theorem find_renameFiles {p : Path} {pairs : List (String × String)} {r : Except Failure Unit}
    (hpairs : ∀ x ∈ pairs, IsName x.1 ∧ IsName x.2 ∧ name ≠ x.1 ∧ name ≠ x.2)
    (hp : (d.clear dir).Enters p dir) (h : renameFiles p pairs d = (r, d')) :
    d'.tree.find (name :: dir) = d.tree.find (name :: dir) := by
  induction pairs generalizing d with
  | nil =>
      cases h
      rfl
  | cons pair pairs ih =>
      rw [List.forall_mem_cons] at hpairs
      obtain ⟨⟨hold, hnew, hsrc, hdst⟩, hpairs⟩ := hpairs
      have hdir := (d.clear_keepsWays dir).enters hp
      have hstep : ∀ {r d₁}, change (p / pair.1) (·.rename (p / pair.1) (p / pair.2)) d = (r, d₁) →
          d₁.tree.find (name :: dir) = d.tree.find (name :: dir) ∧
            (d₁.clear dir).Enters p dir := fun hchange => by
        rcases change_cases hchange with ⟨_, hrename⟩ | ⟨_, _, _, rfl⟩
        · have htouch : Touches dir [] (fun _ => False) d _ :=
            touches_rename hdir hold hnew List.not_mem_nil hrename
          exact ⟨find_rename_other hdir hold hnew hsrc hdst hrename,
            htouch.enters_clear False.elim hp⟩
        · exact ⟨rfl, hp⟩
      rcases Attempt.bind_cases h with ⟨_, d₁, hfirst, hrest⟩ | ⟨e, hfirst, _⟩
      · exact (ih hpairs (hstep hfirst).2 hrest).trans (hstep hfirst).1
      · exact (hstep hfirst).1

def LeavesOld (s : Setup) (calls : List EngineCall) (u v : World) : Prop :=
  u.calls <+: v.calls ∧ (v.calls <+: calls → Direct s u.disk →
    Direct s v.disk ∧ u.disk.OnlyOld v.disk (s.workDir / Session.reportFile))

theorem leavesOld_chains : World.Chains (LeavesOld s calls) where
  same := fun hdisk hcalls =>
    ⟨hcalls ▸ List.prefix_refl _, fun _ h => by rw [hdisk]; exact ⟨h, .refl _ _⟩⟩
  trans := fun _ _ _ huv hvw => by
    refine ⟨huv.1.trans hvw.1, fun hw hu => ?_⟩
    obtain ⟨hv, hold⟩ := huv.2 (hvw.1.trans hw) hu
    exact (hvw.2 hw hv).imp_right hold.trans

/-- A change of the disk in the working directory, or of what is aside, that is no change
of the report. -/
theorem leavesOld_of_touches
    (h : u.calls <+: calls → Direct s u.disk → d = u.disk ∨
      ∃ dir gone, u.disk.Enters s.workDir dir ∧ Disk.Touches dir programFiles gone u.disk d ∧
        (∀ l, gone l → u.disk.tree.IsAside l) ∧
        ∀ e, d.tree.find (Session.reportFile :: dir) = some e →
          u.disk.tree.find (Session.reportFile :: dir) = some e) :
    LeavesOld s calls u (u.withDisk d) := by
  refine ⟨List.prefix_refl _, fun hcalls hu => ?_⟩
  rcases h hcalls hu with rfl | ⟨dir, gone, hdir, htouch, hgone, hfind⟩
  · exact ⟨hu, .refl _ _⟩
  · have hclear := htouch.enters_clear (hgone _) (hu dir hdir).1
    exact ⟨hu.touch hdir htouch (hgone _),
      onlyOld_div (by decide) hdir ((d.clear_keepsWays dir).enters hclear) hfind⟩

theorem leavesOld_of_called {prepared : Disk} {call : EngineCall}
    (hreport : LeavesReport host s calls) (hways : Undiverted host s d prepared calls)
    (hcalled : World.Called host u v call) : LeavesOld s calls u v := by
  refine ⟨⟨[call], hcalled.calls.symm⟩, fun hv _ => ?_⟩
  have hprefix : u.calls ++ [call] <+: calls := hcalled.calls ▸ hv
  have hended : v.disk = host.engine.left u.calls call := hcalled.ended
  rw [hended, ← hcalled.disk]
  exact ⟨hways.engine _ _ hprefix, hreport _ _ hprefix⟩

theorem leavesOld_of_gather (habs : s.root.isAbsolute = true)
    (hroot : u.calls <+: calls → u.disk.Straight s.root) :
    LeavesOld s calls u (u.withDisk (WorkDir.moveFiles s.root mapStart s.workDir u.disk).2) := by
  refine leavesOld_of_touches fun hcalls h => ?_
  rcases hmove : WorkDir.moveFiles s.root mapStart s.workDir u.disk with ⟨r, d'⟩
  by_cases hdir : ∃ dir, u.disk.Enters s.workDir dir
  · obtain ⟨dir, hdir⟩ := hdir
    rcases WorkDir.moveFiles_straight hmove habs (hroot hcalls) (h dir hdir).1 with
      hd | ⟨names, hgather, hnames⟩
    · exact Or.inl hd
    · refine Or.inr ⟨dir, _, hdir, hgather.touches fun n hn =>
        not_programFile_of_map (hnames n hn).1, ?_, fun e he => ?_⟩
      · rintro l ⟨n, hn, rfl⟩
        exact (hnames n hn).2
      · rcases hgather.find (Session.reportFile :: dir) with hl | ⟨n, hn, hl, _⟩
        · exact hl ▸ he
        · have hname : n = Session.reportFile :=
            hl.elim (fun hl => (List.cons.inj hl).1.symm) fun hl => (List.cons.inj hl).1.symm
          have hmap := (hnames n hn).1
          rw [hname] at hmap
          exact absurd hmap (by decide)
  · exact Or.inl (WorkDir.moveFiles_of_not_enters hmove (not_exists.1 hdir))

theorem leavesOld_respects {prepared : Disk} (hreport : LeavesReport host s calls)
    (hways : Undiverted host s d prepared calls) :
    Respects host s (· ≠ Setup.relationsLabel) (LeavesOld s calls) where
  toChains := leavesOld_chains
  call := fun hcalled _ _ => leavesOld_of_called hreport hways hcalled
  write := fun {name} hn {w data d₁} hwrite => leavesOld_of_touches fun _ h => by
    have hfits := fits_programFiles name hn
    obtain ⟨dir, _, _, _, _, _, hlast, _⟩ := write_cases hwrite
    obtain ⟨hc, hdir, _⟩ := (resolveLast_div_iff hfits.1).1 hlast
    have hplain := (h dir hdir).2 name hn
    refine Or.inr ⟨dir, fun _ => False, hdir, (touches_write hdir hfits hplain hwrite).1, nofun,
      fun e he => ?_⟩
    obtain ⟨mode, hfind⟩ := (putsFile_write_div hdir hfits.1 (hplain.find hfits hc hdir) hwrite).find
    rwa [hfind, if_neg] at he
    rintro ⟨⟩
    exact absurd hn (by decide)
  unlink := fun {name} hn {w d₁} hunlink => leavesOld_of_touches fun _ h => by
    have hfits := fits_programFiles name hn
    obtain ⟨_, dir, _, hlast, _⟩ := unlink_cases hunlink
    have hdir := ((resolveLast_div_iff hfits.1).1 hlast).2.1
    refine Or.inr ⟨dir, fun _ => False, hdir, (touches_unlink hdir hfits hunlink).1, nofun,
      fun e he => ?_⟩
    rw [(find_unlink_div hdir hfits.1 hunlink).2.2] at he
    split at he
    · cases he
    · exact he
  domains := fun w contents draws => leavesOld_of_touches fun _ h => by
    rcases hatomic : WorkDir.writeAtomic (s.workDir / Datalog.domainFile) contents draws w.disk
      with ⟨r, d₁⟩
    cases r with
    | error e => exact Or.inl (WorkDir.writeAtomic_error hatomic)
    | ok =>
        obtain ⟨_, dir, _, _, hlast, _, hfind, _⟩ := WorkDir.writeAtomic_ok hatomic
        obtain ⟨_, hdir, hm⟩ := (resolveLast_div_iff (by decide)).1 hlast
        cases hm
        refine Or.inr ⟨dir, fun _ => False, hdir,
          (touches_writeAtomic hdir (by decide) hatomic).1, nofun, fun e he => ?_⟩
        rwa [hfind, if_neg (by simp [Session.reportFile, Datalog.domainFile])] at he
  gather := fun _ _ _ hne => absurd rfl hne
  rename := fun w _ => leavesOld_of_touches fun _ h => by
    rcases hrename : renameFiles s.workDir renames w.disk with ⟨r, d₁⟩
    by_cases hdir : ∃ dir, w.disk.Enters s.workDir dir
    · obtain ⟨dir, hdir⟩ := hdir
      have hclear := (h dir hdir).1
      refine Or.inr ⟨dir, fun _ => False, hdir, renameFiles_touches (by decide) hclear hrename, nofun,
        fun e he => ?_⟩
      rwa [find_renameFiles (by decide) hclear hrename] at he
    · exact Or.inl (renameFiles_of_not_enters (by decide) (not_exists.1 hdir) hrename)

/-- A call, and what follows it. -/
theorem leavesOld_call_then {prepared : Disk} {β : Type} {mode : ErrorStream} {label : String}
    {command : Except Failure Command} {f : Finished → Run β}
    (hreport : LeavesReport host s calls) (hways : Undiverted host s d prepared calls)
    (hlabel : ∀ c, command = .ok c → c.label = label)
    (hf : ∀ x v call, World.Called host u v call → LeavesOld s calls v (f x v).2) :
    LeavesOld s calls u
      ((Attempt.ofExcept command >>= fun c => Stage.call host s c mode >>= f : Run β) u).2 := by
  rw [← bind_assoc]
  refine Run.keeps_bind_at leavesOld_chains ?_ fun x v hx => ?_
  · rcases call_cases hlabel (Prod.eta _).symm with ⟨_, hd, hc⟩ | ⟨call, hcalled, _⟩
    · exact leavesOld_chains.same hd hc
    · exact leavesOld_of_called hreport hways hcalled
  · rcases call_cases hlabel hx with ⟨⟨_, he⟩, _⟩ | ⟨call, hcalled, _⟩
    · cases he
    · exact hf x v call hcalled

/-- The way to the run root is straight after two calls, so maps are gathered from there. -/
theorem leavesOld_relations {prepared : Disk} (entryPoint : String)
    (hreport : LeavesReport host s calls) (hways : Undiverted host s d prepared calls)
    (hdir : u.disk.Enters s.workDir dir) (habs : s.root.isAbsolute = true)
    (hroot : u.disk.Straight s.root) :
    LeavesOld s calls u ((relations entryPoint).run host s u).2 := by
  have hc : World.Chains (LeavesOld s calls) := leavesOld_chains
  have hcalled : ∀ {u v call}, World.Called host u v call →
      (u.calls <+: calls → u.disk.Straight s.root) →
      v.calls <+: calls → v.disk.Straight s.root := fun {u v call} hcalled hu hv => by
    have hended : v.disk = host.engine.left u.calls call := hcalled.ended
    have hprefix : u.calls ++ [call] <+: calls := hcalled.calls ▸ hv
    rw [hended]
    exact hways.root _ _ hprefix (hcalled.disk ▸ hu ((List.prefix_append _ _).trans hprefix))
  have hsame : (Disk.changePartly s.workDir (·.makeDirectories s.workDir) u.disk).2 = u.disk :=
    (Disk.eq_of_changePartly (Prod.eta _).symm).trans (Disk.makeDirectories_of_enters hdir)
  refine Run.keeps_bind_at hc (hc.same hsame rfl) fun _ u₀ hmade => ?_
  have hmade := (Run.onDisk_cases hmade).1
  rw [hmade] at hsame
  refine Run.keeps_bind_at hc (hc.same rfl rfl) fun _ u₁ htold => ?_
  have hroot₁ : u₁.disk.Straight s.root := by
    rw [(Run.tell_cases htold).2.1, show u₀.disk = u.disk from hsame]
    exact hroot
  refine leavesOld_call_then hreport hways (fun _ => Setup.label_dumpCommand)
    fun dump u₂ call hcall => ?_
  have hroot₂ := hcalled hcall fun _ => hroot₁
  refine Run.keeps_bind_at hc (hc.same rfl rfl) fun _ _ hok => ?_
  obtain ⟨_, rfl⟩ := Attempt.ofExcept_cases hok
  refine Run.keeps_bind_at hc (hc.same rfl rfl) fun _ u₃ htold => ?_
  have hroot₃ : u₃.calls <+: calls → u₃.disk.Straight s.root := by
    rw [(Run.tell_cases htold).2.1, (Run.tell_cases htold).2.2]
    exact hroot₂
  refine leavesOld_call_then hreport hways (fun _ => Setup.label_equivalenceCommand)
    fun equivalence u₄ call hcall => ?_
  have hroot₄ := hcalled hcall hroot₃
  refine Run.keeps_bind_at hc (hc.same rfl rfl) fun _ _ hok => ?_
  obtain ⟨_, rfl⟩ := Attempt.ofExcept_cases hok
  refine Run.keeps_bind_at hc (leavesOld_of_gather habs hroot₄) fun _ u₅ hmoved => ?_
  refine Run.keeps_bind_at hc (hc.same rfl rfl) fun _ u₆ htold => ?_
  refine Run.keeps_bind_at hc (hc.same rfl rfl) fun _ u₇ htold' => ?_
  have hcalls : u₇.calls ≠ [] := by
    rw [(Run.tell_cases htold').2.2, (Run.tell_cases htold).2.2, (Run.onDisk_cases hmoved).2,
      hcall.calls]
    simp
  exact Run.keeps_bind_at hc ((leavesOld_respects hreport hways).rename u₇ hcalls) fun _ _ _ =>
    Run.keeps_pure hc _ _

end Direct

section Prepare

variable {host : Host} {s : Setup} {mode : Mode} {w w₁ : World} {dir : Location} {e : Entry}
  {r : Except Failure Outcome}

/-- Directories that are made on the way to the working directory are not inside it. -/
theorem find_of_find_prepare (habs : s.workDir.isAbsolute = true)
    (hvalid : s.config.validate w.disk = .ok ()) (h : (prepare mode).run host s w = (r, w₁))
    (hdir : (w₁.disk.clear dir).Enters s.workDir dir) {name : String}
    (he : w₁.disk.tree.find (name :: dir) = some e) : w.disk.tree.find (name :: dir) = some e := by
  cases mode with
  | full =>
      obtain ⟨_, hclean⟩ := prepareFull_cases hvalid h
      rcases WorkDir.find_clean_cases hclean he with hold | ⟨_, q, hq, hmade⟩
      · exact hold
      · have hreach := resolve_eq_ok_iff.1 hmade
        rcases List.mem_cons.1 hq with rfl | hq
        · have hfound := (w₁.disk.clear_keepsWays dir).enters hdir
          exact absurd (hreach.2.unique hfound.walksTo) (List.cons_ne_self name dir)
        · exact absurd (Tree.inside_cons name dir) (not_inside_of_ancestor habs hdir hq hreach)
  | fast =>
      rcases prepareFast_cases h with hd | ⟨_, hclear⟩
      · rwa [hd] at he
      · rcases WorkDir.clearTuples_cases hclear with hd | ⟨names, place, _, hswept, _⟩
        · rwa [hd] at he
        · rcases hswept.find (name :: dir) with hl | ⟨hnone, _⟩
          · rwa [hl] at he
          · cases hnone.symm.trans he

theorem onlyOld_of_prepare {calls : List EngineCall} (habs : s.workDir.isAbsolute = true)
    (hvalid : s.config.validate w.disk = .ok ()) (h : (prepare mode).run host s w = (r, w₁))
    (hways : Undiverted host s w.disk w₁.disk calls) :
    w.disk.OnlyOld w₁.disk (s.workDir / Session.reportFile) := by
  intro e he
  obtain ⟨hc, dir, hdir, hfind⟩ := (linkEntry_div_iff (by decide)).1 he
  have hold := find_of_find_prepare habs hvalid h (hways.direct dir hdir).1 hfind
  exact linkEntry_div (by decide) hc (hways.own dir hdir (Tree.isDirectory_of_find hold)) hold

end Prepare

theorem naming_error {host : Host} {s : Setup} {request : MapRequest} {w w' : World} {e : Failure}
    (h : (naming request).run host s w = (.error e, w')) : w'.disk = w.disk := by
  rcases Attempt.bind_cases h with ⟨mapped, w₁, _, hlast⟩ | ⟨_, hmap, _⟩
  · dsimp only at hlast
    split at hlast <;> cases hlast
  · exact TupleMap.mapFiles_error (Run.onDisk_cases hmap).1

end Stage

namespace Plan

open Stage Runner

variable {plan : Plan} {host : Host} {s : Setup} {w w' : World} {e : Failure}

/-- A map that cannot be made is not written. -/
theorem naming_of_failed (h : Ran host s (plan.map.toList.map .naming) w (some e) w') :
    w'.disk = w.disk := by
  cases hmap : plan.map with
  | none =>
      rw [hmap] at h
      cases h
  | some request =>
      rw [hmap] at h
      cases h with
      | failed hfailed =>
          obtain ⟨w₀, w₁, r, hw, hr, hw', he⟩ := hfailed
          rw [eq_error_of_failure? he] at hr
          rw [hw'.disk, naming_error hr, hw.disk]
      | passed _ hdone => cases hdone

/-- The stages between preparing and naming. -/
theorem onlyOld_of_work {prepared : Disk} {dir : Location} {d : Disk} {calls : List EngineCall}
    {x : Option Failure} (hreport : LeavesReport host s calls)
    (hways : Undiverted host s d prepared calls) (hdir : w.disk.Enters s.workDir dir)
    (habs : s.root.isAbsolute = true) (hroot : w.disk.Straight s.root) (hdirect : Direct s w.disk)
    (hcalls : w'.calls <+: calls) (h : Ran host s plan.workStages w x w') :
    w.disk.OnlyOld w'.disk (s.workDir / Session.reportFile) := by
  have hsolver := keeps_solverStages plan (leavesOld_respects hreport hways) fun _ => id
  suffices hold : LeavesOld s calls w w' from (hold.2 hcalls hdirect).2
  have hfirst : ∀ {y v}, ((relations plan.entryPoint).run host s).Leads w y v →
      LeavesOld s calls w v := fun hstage =>
    hstage.keeps_at leavesOld_chains fun w₀ hw =>
      leavesOld_relations _ hreport hways (hw.disk ▸ hdir) habs (hw.disk ▸ hroot)
  unfold workStages at h
  split at h
  · cases h with
    | failed hstage => exact hfirst hstage
    | passed hstage hrest =>
        exact leavesOld_chains.trans _ _ _ (hfirst hstage) (hrest.keeps leavesOld_chains hsolver)
  · exact h.keeps leavesOld_chains hsolver

/-- What stands under the path of the report after a run that failed stood there before
it. -/
theorem onlyOld_of_failed {r₁ : Except Failure Outcome} {w₁ : World} {l : Location}
    (habs : s.workDir.isAbsolute = true) (habs' : s.root.isAbsolute = true)
    (hroot : w.disk.Spells s.root l) (hrun : plan.run host s w = (.error e, w'))
    (hprepare : (prepare plan.mode).run host s w = (r₁, w₁))
    (hreport : LeavesReport host s w'.calls)
    (hways : Undiverted host s w.disk w₁.disk w'.calls) :
    w.disk.OnlyOld w'.disk (s.workDir / Session.reportFile) := by
  rcases run_cases hrun with ⟨_, _, _, rfl⟩ | ⟨hvalid, hran⟩
  · exact .refl _ _
  · rw [stages_eq_workStages] at hran
    have hsteady := steady_prepare plan.mode host s
    have hold := onlyOld_of_prepare habs hvalid hprepare hways
    cases hran with
    | failed hstage => rwa [(hsteady.leads hstage hprepare).2.disk]
    | @passed _ _ _ u _ _ hstage hrest =>
        obtain ⟨hok, halike⟩ := hsteady.leads hstage hprepare
        cases r₁ with
        | error _ => cases hok
        | ok outcome =>
            obtain ⟨dir, hdir⟩ := prepare_enters hvalid hprepare
            have hroot₁ : w₁.disk.Straight s.root := Disk.straight_of_spells
              (hroot.of_links habs' fun hlink => prepare_link hvalid hprepare hlink)
            rw [← halike.disk] at hold hdir hroot₁
            have hwork : ∀ {x v}, Ran host s plan.workStages u x v → v.calls <+: w'.calls →
                u.disk.OnlyOld v.disk (s.workDir / Session.reportFile) := fun hran hcalls =>
              onlyOld_of_work hreport hways hdir habs' hroot₁ (halike.disk ▸ hways.direct) hcalls hran
            refine hold.trans ?_
            rcases hrest.append with ⟨_, _, hran⟩ | ⟨v, hran, hlast⟩
            · exact hwork hran (List.prefix_refl _)
            · rw [naming_of_failed hlast]
              exact hwork hran ((naming_of_ran hlast).1 ▸ List.prefix_refl _)

end Plan
end PointsTo
