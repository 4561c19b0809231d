import PointsTo.Proofs.Bound
import PointsTo.Proofs.Domains
import PointsTo.Proofs.Programs
import PointsTo.Proofs.Sweep

/-!
Building on the results of an earlier run. A fast run sweeps stale tuples away, and of
the other things in the working directory it changes its own program files, the file
that a map is written to and the sizes in the domain file.
-/

namespace PointsTo

def Action.isPrint : Action → Bool
  | .print .. => true
  | _ => false

def Response.OnlyPrints (r : Response) : Prop :=
  ∀ a ∈ r.actions, a.isPrint = true

instance (r : Response) : Decidable r.OnlyPrints :=
  inferInstanceAs (Decidable (∀ a ∈ r.actions, _))

theorem Response.OnlyPrints.finalDisk {r : Response} (h : r.OnlyPrints) (call : EngineCall) :
    r.finalDisk call = call.disk := by
  unfold OnlyPrints at h
  unfold Response.finalDisk
  generalize r.actions = actions at h
  induction actions with
  | nil => rfl
  | cons a actions ih =>
      rw [List.forall_mem_cons] at h
      cases a with
      | print => exact ih h.2
      | write | makeDirectory | makeLink | remove => cases h.1

namespace Disk

variable {d d' : Disk} {p : Path} {name : String} {dir : Location}

/-- A file is written under a name of a directory, unless the name is a link. -/
theorem putsFile_write_div {data : Bytes} (hdir : d.Enters p dir) (hn : IsName name)
    (hl : ∀ target, d.tree.find (name :: dir) ≠ some (.link target))
    (h : d.write (p / name) data = .ok d') : d.PutsFile d' (name :: dir) data := by
  obtain ⟨place, last, m, dir', x, mode, hlast, hat, hm, hx, hfile, rfl⟩ := write_cases h
  obtain ⟨_, hplace, rfl⟩ := (resolveLast_div_iff hn).1 hlast
  cases hdir.unique hplace
  cases eq_of_destination hlast hl hat
  exact putsFile_put hm hdir.1 (isAside_of_child? hx hfile)

theorem find_unlink_div (hdir : d.Enters p dir) (hn : IsName name)
    (h : d.unlink (p / name) = .ok d') :
    (∃ e, d.tree.find (name :: dir) = some e ∧ e.isDirectory = false) ∧
      d' = d.remove (name :: dir) ∧
      ∀ k, d'.tree.find k = if k = name :: dir then none else d.tree.find k := by
  obtain ⟨m, dir', e, hlast, hchild, he, rfl⟩ := unlink_cases h
  obtain ⟨_, hplace, hm⟩ := (resolveLast_div_iff hn).1 hlast
  cases hm
  cases hdir.unique hplace
  have hfind := (Tree.child?_eq_ok_iff.1 hchild).2.2
  refine ⟨⟨e, hfind, he⟩, rfl, fun k => ?_⟩
  rw [tree_remove, Tree.find_remove_of_not_directory ((Tree.isDirectory_eq_of_find hfind).trans he)]

theorem keepsWays_unlink_div (hdir : d.Enters p dir) (hn : IsName name)
    (hl : ∀ target, d.tree.find (name :: dir) ≠ some (.link target))
    (h : d.unlink (p / name) = .ok d') : d.KeepsWays d' := by
  obtain ⟨⟨e, hfind, he⟩, rfl, _⟩ := find_unlink_div hdir hn h
  exact keepsWays_remove (Tree.isAside_of_find hfind he fun target hlink => hl target (hlink ▸ hfind))

/-- What is read under a name of a directory is the file there, unless the name is a
link. -/
theorem find_of_readText {text : String} (hdir : d.Enters p dir) (hn : IsName name)
    (hl : ∀ target, d.tree.find (name :: dir) ≠ some (.link target))
    (h : d.readText (p / name) = .ok text) :
    ∃ mode, d.tree.find (name :: dir) = some (.file (Text.encode text) mode) := by
  obtain ⟨l, mode, hreach, hfind⟩ := read_eq_ok_iff.1 (read_of_readText h)
  have hlast := (resolveLast_div_iff hn).2 ⟨hreach.1, hdir, rfl⟩
  cases eq_of_reaches hlast hl hreach
  exact ⟨mode, hfind⟩

end Disk

namespace WorkDir

open Disk

variable {d d' : Disk} {p : Path} {dir : Location} {names : List String} {n : String} {e : Entry}

/-- Tuples directly in a directory: a file with the extension, or a link that the path
through the directory is seen to lead from to a file. -/
def HoldsTuples (d : Disk) (p : Path) (dir : Location) (n : String) : Prop :=
  isTuples n = true ∧ ∃ e, d.tree.find (n :: dir) = some e ∧
    (d.isFile (p / n) = true ∨ e.isFile = true ∧ FitsDirectory n ∧ checkText (p / n) = .ok ())

theorem HoldsTuples.isFile (h : HoldsTuples d p dir n) (hdir : d.Enters p dir) :
    d.isFile (p / n) = true := by
  obtain ⟨_, e, he, hfile | ⟨hfile, hn, hc⟩⟩ := h
  · exact hfile
  · cases e with
    | file data mode => exact isFile_div hdir hn hc he
    | directory mode | link target => cases hfile

/-- No tuples are left by a sweep that succeeds. -/
theorem find_of_clearTuples {count : Nat} (h : clearTuples p d = (.ok count, d'))
    (hp : d.isDirectory p = true) (hdir : d.Enters p dir) (hn : HoldsTuples d p dir n) :
    d'.tree.find (n :: dir) = none := by
  have hreach : d.Reaches p p.steps dir := by
    unfold isDirectory at hp
    split at hp
    · next he =>
      obtain ⟨_, hplace, _⟩ := bind_eq_ok_iff.1 he
      exact hdir.reaches (checkText_of_place hplace)
    · cases hp
  obtain ⟨names, d₁, hclear, _, hmem, hremoves, _⟩ :=
    clearTuples_of_directory (resolve_eq_ok_iff.2 hreach) hdir.1
  cases h.symm.trans hclear
  obtain ⟨htuples, e, he, _⟩ := id hn
  exact hremoves.gone n ((hmem n).2 ⟨isTuples_iff.1 htuples,
    (showsFile_iff hdir).2 ⟨⟨e, he⟩, hn.isFile hdir⟩⟩)

end WorkDir

namespace Stage

open Run World

/-- What has become of a location, since a run began on the disk `d` with its working
directory at `dir`. -/
inductive Remains (s : Setup) (d : Disk) (dir : Location) (w : World) (l : Location) : Prop where
  | kept : w.disk.tree.find l = d.tree.find l → Remains s d dir w l
  /-- Tuples, or a link to some, were swept away. -/
  | swept {n : String} : l = n :: dir → WorkDir.isTuples n = true →
      d.isFile (s.workDir / n) = true → w.disk.tree.find l = none → Remains s d dir w l
  /-- A program was written there, and may have been taken away again. -/
  | written {name : String} : l = name :: dir → name ∈ programFiles →
      w.Materialized (s.workDir / name) →
      (∀ e, w.disk.tree.find l = some e → e.isFile = true) → Remains s d dir w l
  /-- The size of the context domain was set. -/
  | patched {old new : String} {mode mode' : Nat} : l = Datalog.domainFile :: dir →
      d.tree.find l = some (.file (Text.encode old) mode) →
      w.disk.tree.find l = some (.file (Text.encode new) mode') → Domains.SameLines old new →
      Remains s d dir w l

structure Reused (s : Setup) (d : Disk) (dir : Location) (w : World) : Prop where
  ways : d.KeepsWays w.disk
  remains : ∀ l, Remains s d dir w l

section Reused

variable {host : Host} {s : Setup} {d : Disk} {dir l : Location} {w w' : World} {name : String}
  {calls : List EngineCall}

theorem Remains.same (h : Remains s d dir w l)
    (hfind : w'.disk.tree.find l = w.disk.tree.find l)
    (hnotes : ∀ path, w.Materialized path → w'.Materialized path) : Remains s d dir w' l := by
  cases h with
  | kept h => exact .kept (hfind.trans h)
  | swept hl htuples hfile h => exact .swept hl htuples hfile (hfind.trans h)
  | written hl hn hwritten h => exact .written hl hn (hnotes _ hwritten) (hfind ▸ h)
  | patched hl hold h hlines => exact .patched hl hold (hfind.trans h) hlines

theorem Reused.same (h : Reused s d dir w) (hdisk : w'.disk = w.disk)
    (hnotes : ∀ path, w.Materialized path → w'.Materialized path) : Reused s d dir w' where
  ways := hdisk ▸ h.ways
  remains := fun l => (h.remains l).same (by rw [hdisk]) hnotes

theorem Reused.like (h : Reused s d dir w) (hw : w.Like w') : Reused s d dir w' :=
  h.same hw.disk fun path => (hw.materialized path).2

/-- One location is changed. -/
theorem Reused.step {place : Location} (h : Reused s d dir w) (hways : w.disk.KeepsWays w'.disk)
    (hfind : ∀ l, l ≠ place → w'.disk.tree.find l = w.disk.tree.find l)
    (hnotes : ∀ path, w.Materialized path → w'.Materialized path)
    (hplace : Remains s d dir w' place) : Reused s d dir w' where
  ways := h.ways.trans hways
  remains := fun l => by
    by_cases hl : l = place
    · exact hl ▸ hplace
    · exact (h.remains l).same (hfind l hl) hnotes

/-- Tuples that are gone stay away. -/
theorem Remains.find_tuples (h : Remains s d dir w (name :: dir))
    (hn : WorkDir.isTuples name = true) (hgone : d.tree.find (name :: dir) = none) :
    w.disk.tree.find (name :: dir) = none := by
  cases h with
  | kept h => exact h.trans hgone
  | swept _ _ _ h => exact h
  | @written name' hl hmem =>
      obtain rfl : name = name' := (List.cons.inj hl).1
      have hno : ∀ m ∈ programFiles, WorkDir.isTuples m = false := by decide
      cases (hno name hmem).symm.trans hn
  | patched _ hold => cases hgone.symm.trans hold

/-- The names that the run writes to are none of them links. -/
def Plain (d : Disk) (dir : Location) : Prop :=
  ∀ name ∈ Datalog.domainFile :: programFiles, ∀ target,
    d.tree.find (name :: dir) ≠ some (.link target)

instance (x : Option Entry) : Decidable (∀ target, x ≠ some (.link target)) :=
  match x with
  | some (.link target) => isFalse fun hno => hno target rfl
  | some (.file _ _) | some (.directory _) | none => isTrue nofun

instance (d : Disk) (dir : Location) : Decidable (Plain d dir) :=
  inferInstanceAs (Decidable (∀ name ∈ _, _))

theorem Reused.plain (h : Reused s d dir w) (hplain : Plain d dir) : Plain w.disk dir := by
  intro name hn target ht
  cases h.remains (name :: dir) with
  | kept h => exact hplain name hn target (h ▸ ht)
  | swept _ _ _ h => cases h.symm.trans ht
  | written _ _ _ h => cases h _ ht
  | patched _ _ h _ => cases h.symm.trans ht

def OnlyPrinting (host : Host) (calls : List EngineCall) : Prop :=
  ∀ past call, past ++ [call] <+: calls → (host.engine.respond past call).OnlyPrints

instance (host : Host) (calls : List EngineCall) : Decidable (OnlyPrinting host calls) :=
  inferInstanceAs (Decidable (∀ past call, past ++ [call] <+: calls → _))

theorem start_of_onlyPrinting {command : Command} {directory : Path}
    (h : OnlyPrinting host calls) (hcalls : (start host command directory w).2.calls <+: calls) :
    (start host command directory w).2.disk = w.disk ∧
      (start host command directory w).2.events = w.events := by
  unfold start at hcalls ⊢
  split
  · exact ⟨rfl, rfl⟩
  · next l hl =>
    rw [hl] at hcalls
    exact ⟨(h _ _ hcalls).finalDisk _, rfl⟩

/-- A call that only prints leaves everything as it is. -/
theorem call_of_onlyPrinting {command : Command} {mode : ErrorStream}
    (h : OnlyPrinting host calls) (hcalls : (Stage.call host s command mode w).2.calls <+: calls) :
    (Stage.call host s command mode w).2.disk = w.disk ∧
      ∀ path, (Stage.call host s command mode w).2.Materialized path ↔ w.Materialized path := by
  obtain ⟨answer, _, hinvoke, hanswer⟩ := invoke_eq host s.config.timeLimit command s.root mode
  obtain ⟨w', hw', heq⟩ := hinvoke w
  have hend := (bind_answer (Run.start host command s.root) hanswer w').2
  unfold Stage.call at hcalls ⊢
  rw [heq] at hcalls ⊢
  rw [hend.calls] at hcalls
  obtain ⟨hdisk, hevents⟩ := start_of_onlyPrinting h hcalls
  refine ⟨hend.disk.trans (hdisk.trans hw'.disk), fun path => ?_⟩
  rw [hend.materialized, ← hw'.materialized]
  unfold Materialized
  rw [hevents]

variable (hdir : d.Enters s.workDir dir) (hplain : Plain d dir)

include hdir hplain

theorem Reused.materialized {data : Bytes} {d' : Disk} (h : Reused s d dir w)
    (hn : name ∈ programFiles) (hwrite : w.disk.write (s.workDir / name) data = .ok d') :
    Reused s d dir ((w.withDisk d').tell (ProgramFile.note (s.workDir / name))) := by
  have hput := Disk.putsFile_write_div (h.ways.enters hdir) (fits_programFiles name hn).1
    (h.plain hplain name (List.mem_cons_of_mem _ hn)) hwrite
  obtain ⟨mode, hfind⟩ := hput.find
  refine h.step hput.ways (fun l hl => (hfind l).trans (if_neg (Ne.symm hl)))
    (fun path hp => List.mem_append_left _ hp) (.written rfl hn ?_ fun e he => ?_)
  · exact List.mem_append_right _ (List.mem_singleton.2 rfl)
  · have hfile := (hfind (name :: dir)).trans (if_pos rfl)
    cases hfile.symm.trans he
    rfl

theorem Reused.release (h : Reused s d dir w) (hn : name ∈ programFiles)
    (hwritten : w.Materialized (s.workDir / name)) (cleanup : Bool) :
    Reused s d dir (ProgramFile.release (s.workDir / name) cleanup w) := by
  unfold ProgramFile.release
  split
  · split
    · next d' hunlink =>
      have henters := h.ways.enters hdir
      have hname := (fits_programFiles name hn).1
      have hways := Disk.keepsWays_unlink_div henters hname
        (h.plain hplain name (List.mem_cons_of_mem _ hn)) hunlink
      obtain ⟨_, _, hfind⟩ := Disk.find_unlink_div henters hname hunlink
      refine h.step hways (fun l hl => (hfind l).trans (if_neg hl)) (fun _ hp => hp)
        (.written rfl hn hwritten fun e he => ?_)
      have hnone := (hfind (name :: dir)).trans (if_pos rfl)
      cases hnone.symm.trans he
    · exact h.like (w.like_tell (by simp))
  · exact h

/-- A program is written, solved and released. -/
theorem Reused.solveText {label text : String} {mode : ErrorStream} {x : Run Finished}
    (hprints : OnlyPrinting host calls) (h : Reused s d dir w) (hn : name ∈ programFiles)
    (hx : x = Stage.solveText host s label name text mode) (hcalls : (x w).2.calls <+: calls) :
    Reused s d dir (x w).2 := by
  have hduring : Stage.solveText host s label name text mode =
      ProgramFile.materialize (s.workDir / name) text >>= fun _ =>
        (Attempt.ofExcept (s.solverCommand label (s.workDir / name)) >>= fun command =>
          Stage.call host s command mode).ensuring
            (ProgramFile.release (s.workDir / name) s.config.cleanup) := rfl
  rw [hduring] at hx
  subst hx
  have hwrite := materialize_eq (s.workDir / name) text w
  cases hok : w.disk.write (s.workDir / name) (Text.encode text) with
  | error e =>
      rw [hok] at hwrite
      rw [Attempt.bind_error hwrite]
      exact h
  | ok d' =>
      rw [hok] at hwrite
      rw [Attempt.bind_ok hwrite] at hcalls ⊢
      have hmade := h.materialized hdir hplain hn hok
      have hnote : ((w.withDisk d').tell (ProgramFile.note (s.workDir / name))).Materialized
          (s.workDir / name) := List.mem_append_right _ (List.mem_singleton.2 rfl)
      generalize (w.withDisk d').tell (ProgramFile.note (s.workDir / name)) = w₁ at *
      unfold Attempt.ensuring at hcalls ⊢
      dsimp only at hcalls ⊢
      rw [(ProgramFile.release_eq _ _ _).2] at hcalls
      cases hcommand : s.solverCommand label (s.workDir / name) with
      | error e => exact hmade.release hdir hplain hn hnote _
      | ok command =>
          rw [hcommand] at hcalls
          obtain ⟨hdisk, hnotes⟩ := call_of_onlyPrinting (s := s) (w := w₁) hprints hcalls
          exact (hmade.same hdisk fun path => (hnotes path).2).release hdir hplain hn
            ((hnotes _).2 hnote) _

theorem Reused.patch (h : Reused s d dir w) (bound : UInt64) (draws : List TemporaryName)
    {x : Run Nat} (hx : x = patchDomainFile (s.workDir / Datalog.domainFile) bound draws) :
    Reused s d dir (x w).2 := by
  have henters := h.ways.enters hdir
  subst hx
  rw [patchDomainFile_eq]
  cases htext : w.disk.readText (s.workDir / Datalog.domainFile) with
  | error e => exact h
  | ok text =>
      dsimp only
      split
      · exact h.like (w.like_tell (by simp))
      · rcases hwrite : WorkDir.writeAtomic (s.workDir / Datalog.domainFile)
            (Text.encode (Domains.patch bound text)) draws w.disk with ⟨r, d'⟩
        dsimp only
        cases r with
        | error e =>
            rw [WorkDir.writeAtomic_error hwrite]
            exact h
        | ok =>
            obtain ⟨m, place, _, mode', hlast, _, hfind, _, hways⟩ := WorkDir.writeAtomic_ok hwrite
            obtain ⟨_, hplace, hend⟩ := (Disk.resolveLast_div_iff (by decide)).1 hlast
            cases hend
            cases henters.unique hplace
            have hset := (hfind (Datalog.domainFile :: dir)).trans (if_pos rfl)
            have hlines := Domains.sameLines_patch bound text
            refine h.step (hways (isAside_of_readText henters (by decide) htext))
              (fun l hl => (hfind l).trans (if_neg hl)) (fun _ hp => hp) ?_
            obtain ⟨mode, hold⟩ := Disk.find_of_readText henters (by decide)
              (h.plain hplain _ List.mem_cons_self) htext
            cases h.remains (Datalog.domainFile :: dir) with
            | kept hkept => exact .patched rfl (hkept.symm.trans hold) hset hlines
            | swept _ _ _ hnone => cases hnone.symm.trans hold
            | written hl hn => exact absurd ((List.cons.inj hl).1 ▸ hn) (by decide)
            | patched _ hfirst hnow hbefore =>
                obtain ⟨hsame, _⟩ := Entry.file.inj (Option.some.inj (hnow.symm.trans hold))
                obtain rfl := Text.encode_inj hsame
                exact .patched rfl hfirst hset (hbefore.trans hlines)

theorem couples_reused (hprints : OnlyPrinting host calls) (left : List EngineCall) :
    Couples (.holding (Reused s d dir) Reused.like left calls) host s s.config.cleanup
      s.config.cleanup :=
  couples_holding host s
    (fun h hcalls =>
      have ⟨hdisk, hnotes⟩ := call_of_onlyPrinting hprints hcalls
      h.same hdisk fun path => (hnotes path).2)
    (fun hwrites h hcalls => h.solveText hdir hplain hprints hwrites.mem_programFiles rfl hcalls)
    (fun h => h.patch hdir hplain _ _ rfl)

end Reused

theorem prepareFast_ok {s : Setup} {w w' : World} {outcome : Outcome}
    (h : prepareFast s w = (.ok outcome, w')) :
    w.disk.isDirectory s.workDir = true ∧
      ∃ count, WorkDir.clearTuples s.workDir w.disk = (.ok count, w'.disk) := by
  obtain ⟨present, _, hview, h⟩ := Attempt.bind_eq_ok_iff.1 h
  cases hview
  split at h
  · next hp =>
    obtain ⟨count, _, hclear, h⟩ := Attempt.bind_eq_ok_iff.1 h
    cases h
    exact ⟨hp, count, (onDisk_cases hclear).1⟩
  · cases h

/-- The first stage sweeps tuples and nothing else. -/
theorem reused_of_prepareFast {s : Setup} {dir : Location} {w w' v : World}
    {r : Except Failure Outcome} (hdir : w.disk.Enters s.workDir dir)
    (h : prepareFast s w = (r, w')) (hv : v.disk = w'.disk) : Reused s w.disk dir v := by
  have hsame : w'.disk = w.disk → Reused s w.disk dir v := fun hd =>
    ⟨by rw [hv, hd]; exact .refl _, fun l => .kept (by rw [hv, hd])⟩
  rcases prepareFast_cases h with hd | ⟨_, hclear⟩
  · exact hsame hd
  · rcases WorkDir.clearTuples_cases hclear with hd | ⟨names, dir', hp, hswept, hways, hdir', hnames⟩
    · exact hsame hd
    · cases hdir.unique (hp.enters hdir')
      refine ⟨hv ▸ hways, fun l => ?_⟩
      rcases hswept.find l with hl | ⟨hnone, n, hn, hl⟩
      · exact .kept (hv ▸ hl)
      · exact .swept hl (hnames n hn).2.2 (hnames n hn).2.1 (hv ▸ hnone)

/-- Naming writes no program. -/
theorem materialized_naming (host : Host) (s : Setup) (request : MapRequest) (w : World)
    (path : Path) :
    ((naming request).run host s w).2.Materialized path ↔ w.Materialized path := by
  obtain ⟨answer, _, hnaming, hanswer⟩ := naming_eq host s request
  rw [hnaming, (bind_answer _ hanswer w).2.materialized]
  exact Iff.rfl

end Stage

namespace Plan

open Run Runner Stage WorkDir

variable {plan : Plan} {host : Host} {s : Setup} {d : Disk} {dir : Location} {v w : World}
  {r : Except Failure (List (StageReport × String × Outcome))}

def MapsTo (plan : Plan) (s : Setup) (d : Disk) (l : Location) : Prop :=
  ∃ request ∈ plan.map, d.destination (s.root.join request.dest) = .ok l

theorem reused_firstStage (hdir : w.disk.Enters s.workDir dir)
    (h : runStages host s [.prepare .fast] w = (r, v)) :
    Reused s w.disk dir v ∧ ∀ outcome, (prepareFast s w).1 = .ok outcome →
      ∀ n, HoldsTuples w.disk s.workDir dir n → v.disk.tree.find (n :: dir) = none := by
  have hleads : ∃ e, ((prepare .fast).run host s).Leads w e v := by
    have hran := ran_of_runStages h
    generalize failure? r = e at hran
    cases hran with
    | failed h => exact ⟨_, h⟩
    | passed h hdone =>
        obtain ⟨w₀, w₁, r', hw, hr, hw', he⟩ := h
        cases hdone with
        | done hv => exact ⟨_, w₀, w₁, r', hw, hr, hw'.trans hv, he⟩
  obtain ⟨e, hleads⟩ := hleads
  rcases hprepare : prepareFast s w with ⟨r', w'⟩
  obtain ⟨_, hw'⟩ := (steady_prepare .fast host s).leads hleads hprepare
  refine ⟨reused_of_prepareFast hdir hprepare hw'.disk, fun outcome hok n hn => ?_⟩
  cases hok
  obtain ⟨hp, count, hclear⟩ := prepareFast_ok hprepare
  rw [hw'.disk]
  exact find_of_clearTuples hclear hp hdir hn

theorem materialized_runStages_naming {path : Path} (h : w.Materialized path)
    (hrun : runStages host s (plan.map.toList.map .naming) w = (r, v)) : v.Materialized path := by
  have hnamings : ∀ stage ∈ plan.map.toList.map Stage.naming,
      Mirrors (.holding (·.Materialized path) (fun h hw => (hw.materialized path).2 h) v.calls
        v.calls) Eq (stage.run host s) (stage.run host s) := by
    simp only [List.forall_mem_map]
    exact fun request _ => (steady_naming host s request).holding (silent_naming request).extends
      fun hw _ => (materialized_naming host s request _ path).2 hw
  have hend := (mirrors_runStages hnamings).same (v := w) (w := w) ⟨.refl w, h⟩
  rw [hrun] at hend
  exact (hend (List.prefix_refl _) (List.prefix_refl _)).stop.2

/-- What becomes of each location once the tuples are swept. -/
theorem remains_of_runStages (hdir : d.Enters s.workDir dir) (hplain : Plain d dir)
    (hw : Reused s d dir w)
    (hrun : runStages host s (plan.solvingStages ++ plan.map.toList.map .naming) w = (r, v))
    (hprints : OnlyPrinting host v.calls) (l : Location) :
    Remains s d dir v l ∨ plan.MapsTo s v.disk l := by
  rcases hsolving : runStages host s plan.solvingStages w with ⟨r₂, w₂⟩
  have hreused : w₂.calls <+: v.calls → Reused s d dir w₂ := fun hcalls => by
    have hend := (mirrors_runStages (mirrors_solvingStages
      (couples_reused hdir hplain hprints v.calls) plan)).same (v := w) (w := w) ⟨.refl w, hw⟩
    have hsame : s.tidying s.config.cleanup = s := rfl
    rw [hsame, hsolving] at hend
    exact (hend hcalls hcalls).stop.2
  cases r₂ with
  | error e =>
      cases (runStages_append_error hsolving _).symm.trans hrun
      exact .inl ((hreused (List.prefix_refl _)).remains l)
  | ok done =>
      rw [runStages_append_ok hsolving] at hrun
      rcases hnaming : runStages host s (plan.map.toList.map .naming) w₂ with ⟨r₃, w₃⟩
      rw [hnaming] at hrun
      cases hrun
      obtain ⟨hcalls, hdisk⟩ := naming_of_ran (ran_of_runStages hnaming)
      have hremains := (hreused (hcalls ▸ List.prefix_refl _)).remains l
      have hnotes : ∀ path, w₂.Materialized path → w₃.Materialized path :=
        fun path hp => materialized_runStages_naming hp hnaming
      rcases hdisk with hdisk | ⟨request, hmem, data, hwrite⟩
      · exact .inl (hremains.same (by rw [hdisk]) hnotes)
      · obtain ⟨place, hplace, hfind, _⟩ := Disk.destination_of_write hwrite
        by_cases hl : l = place
        · exact .inr ⟨request, hmem, hl ▸ hplace⟩
        · exact .inl (hremains.same (hfind l hl) hnotes)

/-- The stages of a fast run. -/
theorem remains_of_fast (hdir : w.disk.Enters s.workDir dir) (hplain : Plain w.disk dir)
    (hrun : runStages host s
      ([.prepare .fast] ++ (plan.solvingStages ++ plan.map.toList.map .naming)) w = (r, v))
    (hprints : OnlyPrinting host v.calls) :
    (∀ l, Remains s w.disk dir v l ∨ plan.MapsTo s v.disk l) ∧
    ∀ outcome, (prepareFast s w).1 = .ok outcome → ∀ n, HoldsTuples w.disk s.workDir dir n →
      v.disk.tree.find (n :: dir) = none ∨ plan.MapsTo s v.disk (n :: dir) := by
  rcases hfirst : runStages host s [.prepare .fast] w with ⟨r₁, w₁⟩
  obtain ⟨hreused, hgone⟩ := reused_firstStage hdir hfirst
  cases r₁ with
  | error e =>
      cases (runStages_append_error hfirst _).symm.trans hrun
      exact ⟨fun l => .inl (hreused.remains l),
        fun outcome hok n hn => .inl (hgone outcome hok n hn)⟩
  | ok first =>
      rw [runStages_append_ok hfirst] at hrun
      rcases hrest : runStages host s (plan.solvingStages ++ plan.map.toList.map .naming) w₁ with
        ⟨r₂, w₂⟩
      rw [hrest] at hrun
      cases hrun
      refine ⟨remains_of_runStages hdir hplain hreused hrest hprints, fun outcome hok n hn => ?_⟩
      -- What the sweep left is built on in the same way as what there was at first.
      have hswept : Reused s w₁.disk dir w₁ := ⟨.refl _, fun _ => .kept rfl⟩
      exact (remains_of_runStages (hreused.ways.enters hdir) (hreused.plain hplain) hswept hrest
        hprints (n :: dir)).imp_left fun h => h.find_tuples hn.1 (hgone outcome hok n hn)

theorem launch_of_mem_calls {r : Except Failure Completed}
    (hrun : plan.run host s (.ofDisk d) = (r, w)) :
    ∀ call ∈ w.calls, ∃ launch ∈ plan.protocol s, call.launch? = some launch := by
  rcases run_cases hrun with ⟨e, _, _, rfl⟩ | ⟨_, hran⟩
  · nofun
  · rw [stages_eq_schedule plan s] at hran
    obtain ⟨launches, hprefix, ⟨made, hcalls, hmade, _⟩, _⟩ :=
      hran.follows (follows_schedule plan host s)
    rw [flatMap_schedule] at hprefix
    intro call hcall
    rw [hcalls] at hcall
    have hmem : call.launch? ∈ launches.map some := hmade ▸ List.mem_map_of_mem hcall
    obtain ⟨launch, hlaunch, hsome⟩ := List.mem_map.1 hmem
    exact ⟨launch, hprefix.subset hlaunch, hsome.symm⟩

/-- A fast run solves programs and compiles queries. -/
theorem mainClass_of_fast (hmode : plan.mode = .fast) :
    ∀ launch ∈ plan.protocol s, launch.mainClass ≠ "joeq.Main.GenRelations" ∧
      launch.mainClass ≠ "net.sf.bddbddb.BuildEquivalenceRelation" := by
  unfold protocol analysisProtocol
  rw [hmode]
  cases plan.analysis <;> simp [Launch.solver]

/-- A fast run keeps what it builds on. Of everything there is on the disk, it sweeps away
tuples in the working directory, writes its own programs there, sets sizes in the domain
file and writes the map that is asked for. All else is left as it was, and no relations are
made anew. -/
theorem fast_run_keeps_relations {r : Except Failure Completed} (hmode : plan.mode = .fast)
    (hrun : plan.run host s (.ofDisk d) = (r, w)) (hdir : d.Enters s.workDir dir)
    (hplain : Plain d dir) (hprints : OnlyPrinting host w.calls) :
    (∀ l, Remains s d dir w l ∨ plan.MapsTo s w.disk l) ∧
    (s.config.validate d = .ok () → ∀ outcome,
      ((prepare plan.mode).run host s (.ofDisk d)).1 = .ok outcome →
        ∀ n, HoldsTuples d s.workDir dir n →
          w.disk.tree.find (n :: dir) = none ∨ plan.MapsTo s w.disk (n :: dir)) ∧
    ∀ call ∈ w.calls, ∃ launch, call.launch? = some launch ∧
      launch.mainClass ≠ "joeq.Main.GenRelations" ∧
      launch.mainClass ≠ "net.sf.bddbddb.BuildEquivalenceRelation" := by
  have hlaunches : ∀ call ∈ w.calls, ∃ launch, call.launch? = some launch ∧
      launch.mainClass ≠ "joeq.Main.GenRelations" ∧
      launch.mainClass ≠ "net.sf.bddbddb.BuildEquivalenceRelation" := fun call hcall =>
    have ⟨launch, hmem, hlaunch⟩ := launch_of_mem_calls hrun call hcall
    ⟨launch, hlaunch, mainClass_of_fast hmode launch hmem⟩
  rcases run_cases hrun with ⟨e, herror, _, rfl⟩ | ⟨hvalid, _⟩
  · refine ⟨fun l => .inl (.kept rfl), fun hok => ?_, hlaunches⟩
    cases hok.symm.trans herror
  · have hbegun := like_begun s plan.stages (.ofDisk d)
    have hend := (run_of_valid (w := .ofDisk d) hvalid host plan.stages).1
    unfold Plan.run at hrun
    rw [hrun] at hend
    have hstages : plan.stages = [.prepare .fast] ++
        (plan.solvingStages ++ plan.map.toList.map .naming) := by
      simp [stages, solvingStages, hmode]
    rw [hmode]
    generalize begun s plan.stages (.ofDisk d) = w₀ at hbegun hend
    rcases hfast : runStages host s plan.stages w₀ with ⟨r', v⟩
    rw [hfast] at hend
    rw [hstages] at hfast
    have hdisk : w₀.disk = d := hbegun.disk
    obtain ⟨hall, hgone⟩ := remains_of_fast (hdisk ▸ hdir) (hdisk ▸ hplain) hfast
      (hend.calls ▸ hprints)
    rw [hdisk] at hall hgone
    have hsame : ∀ l, plan.MapsTo s v.disk l → plan.MapsTo s w.disk l := fun l h => hend.disk ▸ h
    refine ⟨fun l => (hall l).imp (fun h => h.same (by rw [hend.disk])
      fun path => (hend.materialized path).2) (hsame l), fun _ outcome hok n hn => ?_, hlaunches⟩
    have hsteady := ((steady_prepare .fast host s) _ _ hbegun.toAlike).1
    rw [hend.disk]
    exact hgone outcome (hsteady.trans hok) n hn

def resultsRoot : Disk :=
  .holding [(["java"], .file [] 0o755), (["run"], .directory 0o755),
    (["results", "run"], .directory 0o755),
    (["vP.bdd", "results", "run"], .file (Text.encode "0 1\n") 0o644),
    (["name.map", "results", "run"], .file (Text.encode "a\nb\n") 0o644),
    (["old.tuples", "results", "run"], .file (Text.encode "0\n") 0o644),
    (["link.tuples", "results", "run"], .link ⟨"vP.bdd"⟩),
    (["numbering.dtl", "results", "run"], .file [] 0o644),
    (["fielddomains.pa", "results", "run"], .file (Text.encode "V 8\nVC 1\n") 0o644)]

/-- The sizes are set and a map is written over one of the results. -/
theorem fast_run_keeps_results :
    let plan : Plan := ⟨"Main", .datalog ⟨"q.dtl"⟩, .fast,
      some ⟨⟨"vP.bdd"⟩, ⟨"name.map"⟩, ⟨"results/old.tuples"⟩⟩⟩
    let host : Host := .scripted [] [⟨[.print .out (Text.encode "paths = 7\n")], false, .code 0⟩]
    let dir : Location := ["results", "run"]
    (resultsRoot.Enters Setup.usual.workDir dir ∧ Plain resultsRoot dir ∧
      OnlyPrinting host (plan.run host .usual (.ofDisk resultsRoot)).2.calls ∧
      HoldsTuples resultsRoot Setup.usual.workDir dir "link.tuples") ∧
    (∀ l, Remains Setup.usual resultsRoot dir
        (plan.run host .usual (.ofDisk resultsRoot)).2 l ∨
      plan.MapsTo Setup.usual (plan.run host .usual (.ofDisk resultsRoot)).2.disk l) ∧
    ((plan.run host .usual (.ofDisk resultsRoot)).2.disk.tree.find ("link.tuples" :: dir) =
        none ∨
      plan.MapsTo Setup.usual (plan.run host .usual (.ofDisk resultsRoot)).2.disk
        ("link.tuples" :: dir)) := by
  intro plan host dir
  obtain ⟨⟨hplace, hisDir⟩, hplain, hprints, ⟨hname, hlink, hfile⟩, hprepare, hvalid⟩ :
      (resultsRoot.place Setup.usual.workDir = .ok (some dir) ∧
        resultsRoot.tree.isDirectory dir = true) ∧
      Plain resultsRoot dir ∧
      OnlyPrinting host (plan.run host .usual (.ofDisk resultsRoot)).2.calls ∧
      (isTuples "link.tuples" = true ∧
        resultsRoot.tree.find ("link.tuples" :: dir) = some (.link ⟨"vP.bdd"⟩) ∧
        resultsRoot.isFile (Setup.usual.workDir / "link.tuples") = true) ∧
      ((prepare .fast).run host .usual (.ofDisk resultsRoot)).1 =
        .ok ⟨none, some "removed 2 stale tuple files"⟩ ∧
      Setup.usual.config.validate resultsRoot = .ok () := by
    decide +kernel
  have hdir : resultsRoot.Enters Setup.usual.workDir dir :=
    (Disk.place_eq_some_iff.1 hplace).enters hisDir
  have htuples : HoldsTuples resultsRoot Setup.usual.workDir dir "link.tuples" :=
    ⟨hname, _, hlink, .inl hfile⟩
  obtain ⟨hremains, hgone, _⟩ := fast_run_keeps_relations rfl
    (Prod.eta (plan.run host .usual (.ofDisk resultsRoot))).symm hdir hplain hprints
  exact ⟨⟨hdir, hplain, hprints, htuples⟩, hremains, hgone hvalid _ hprepare _ htuples⟩

end Plan
end PointsTo
