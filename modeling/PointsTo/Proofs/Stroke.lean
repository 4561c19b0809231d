import PointsTo.Proofs.Disk.TwinFiles

/-!
Replacing a file in one stroke, operation by operation. The temporary file stands where
nothing was, so up to the moment in which it takes the other name, a path that does not
lead to it shows what it showed before.
-/

namespace PointsTo
namespace Disk

section Vacant

variable {d : Disk} {p q : Path} {name : String} {dir : Location} {data : Bytes} {mode : Nat}

namespace Vacant

variable (h : d.Vacant p name dir)
include h

def slot : Slots where
  dir := dir
  names := [name]
  fits := by
    rintro _ (_ | ⟨_, ⟨⟩⟩)
    exact ⟨h.isName, (Tree.child?_eq_ok_iff.1 h.free).2.1⟩

theorem has_slot_iff {k : Location} : h.slot.has k = true ↔ k = name :: dir := by
  cases k with
  | nil => simp [Slots.has]
  | cons n above =>
      rw [Slots.has_cons_iff]
      simp [slot]

theorem slotted : d.tree.Slotted h.slot := fun k e hk he => by
  rw [h.has_slot_iff.1 hk, h.find_eq_none] at he
  cases he

theorem twins : Twins h.slot d (d.put (name :: dir) (.file data mode)) :=
  twins_put h.slotted (h.has_slot_iff.2 rfl)

/-- A path that comes to the place ends there, or leads to nothing. -/
theorem entry_of_not_sidesteps {u : Disk} (hu : u.tree.Slotted h.slot)
    (hs : ¬ u.Sidesteps h.slot q q.steps) :
    (∃ e, u.entry q = .error e) ∨ u.entry q = u.entryAt (some (name :: dir)) := by
  have hbars := bars_of_not_sidesteps hu hs
  unfold Disk.entry
  rw [place_eq_goes]
  cases hx : u.goes (fun _ => true) q q.steps with
  | error e => exact Or.inl ⟨e, rfl⟩
  | ok x =>
      rw [hx] at hbars
      cases x with
      | none => cases hbars
      | some l =>
          cases h.has_slot_iff.1 hbars
          exact Or.inr rfl

theorem entry_eq_error (hs : ¬ d.Sidesteps h.slot q q.steps) : ∃ e, d.entry q = .error e := by
  rcases h.entry_of_not_sidesteps h.slotted hs with he | he
  · exact he
  · refine ⟨.system .noEntry, he.trans ?_⟩
    simp [Disk.entryAt, Tree.entry?, h.find_eq_none]

/-- What leads to something does not come to where nothing is. -/
theorem sidesteps_of_isPresent (hq : d.isPresent q = true) : d.Sidesteps h.slot q q.steps := by
  refine Decidable.byContradiction fun hs => ?_
  obtain ⟨e, he⟩ := h.entry_eq_error hs
  simp [Disk.isPresent, he, Except.toBool] at hq

theorem read_put (hs : d.Sidesteps h.slot q q.steps) :
    (d.put (name :: dir) (.file data mode)).read q = d.read q := by
  unfold Disk.read
  rw [h.twins.entry hs]

end Vacant

def TakesFile (d : Disk) (p : Path) : Prop :=
  ∃ name dir, d.resolveLast p = .ok (dir, .name name false) ∧
    name.utf8ByteSize ≤ Tree.maxNameBytes ∧ d.tree.isDirectory (name :: dir) = false

theorem Vacant.rename_iff (h : d.Vacant p name dir) :
    (∃ d', (d.put (name :: dir) (.file data mode)).rename p q = .ok d') ↔ d.TakesFile q := by
  have hput : d.PutsFile (d.put (name :: dir) (.file data mode)) (name :: dir) data := h.putsFile
  have hdirs : ∀ l, (d.put (name :: dir) (.file data mode)).tree.isDirectory l =
      d.tree.isDirectory l := h.twins.tree.isDirectory
  rw [rename_file_iff h.last_put h.child?_put rfl]
  simp only [hdirs]
  constructor
  · rintro ⟨dst, dstDir, hq, hrest⟩
    exact ⟨dst, dstDir, hput.back.resolveLast hq, hrest⟩
  · rintro ⟨dst, dstDir, hq, hrest⟩
    exact ⟨dst, dstDir, hput.ways.resolveLast hq, hrest⟩

end Vacant

/-- The way to the directory of a path does not lead through the entry that the path
names, so it is there without that entry. -/
def StandsApart (d : Disk) (p : Path) : Prop :=
  ∀ name dir slash, d.resolveLast p = .ok (dir, .name name slash) →
    (d.remove (name :: dir)).resolveLast p = .ok (dir, .name name slash)

section StandsApart

variable {d d' : Disk} {p : Path} {name : String} {dir : Location} {contents : Bytes} {mode : Nat}

theorem resolveLast_of_remove {l : Location} {slash : Bool}
    (h : (d.remove l).resolveLast p = .ok (dir, .name name slash)) :
    d.resolveLast p = .ok (dir, .name name slash) := by
  obtain ⟨hend, hr, hdir⟩ := resolveLast_eq_name_iff.1 h
  have hlead : (d.remove l).LeadsTo d dir :=
    leadsTo_of_standing (fun he => (Tree.find_of_find_remove he).2) dir
  exact resolveLast_eq_name_iff.2 ⟨hend, hr.of_leadsTo hlead, hlead.tree.directory hdir⟩

/-- The directory of a path that leads to something is found. -/
theorem exists_resolveLast_of_reaches {r : Location} (hend : p.ending.2 = .name name false)
    (h : d.Reaches p p.steps r) : ∃ dir, d.resolveLast p = .ok (dir, .name name false) := by
  obtain ⟨_, k, hsteps, _⟩ := Path.steps_of_ending (Prod.ext rfl hend)
  rw [hsteps] at h
  obtain ⟨mid, hmid, hw⟩ := h.split
  refine ⟨mid, resolveLast_eq_name_iff.2 ⟨hend, hmid, ?_⟩⟩
  rw [Tree.walk, Tree.walkWithin_eq_walkSteps] at hw
  obtain ⟨_, e, hchild, _⟩ := Tree.walkSteps_down_eq_ok.1 hw
  exact (Tree.child?_eq_ok_iff.1 hchild).1

/-- A path that leads to a file keeps its directory without it. -/
theorem standsApart_of_read {data : Bytes} (h : d.read p = .ok data) : d.StandsApart p := by
  obtain ⟨r, mode, hr, hfile⟩ := read_eq_ok_iff.1 h
  intro name dir slash hlast
  have hplain : d.tree.isDirectory r = false := Tree.isDirectory_eq_of_find hfile
  exact (keepsWays_remove (isAside_of_reaches hr hplain hlast)).resolveLast hlast

/-- A file that has been put at the place that a path names is found there, if the way to
its directory did not lead through what stood there. -/
theorem entry_eq_file_iff_standsApart (hlast : d.resolveLast p = .ok (dir, .name name false))
    (hshort : name.utf8ByteSize ≤ Tree.maxNameBytes)
    (hplain : d.tree.isDirectory (name :: dir) = false)
    (hfind : ∀ k, d'.tree.find k =
      if k = name :: dir then some (.file contents mode) else d.tree.find k)
    (hcwd : d'.cwd = d.cwd) (hlost : d'.lost = d.lost) :
    d'.entry p = .ok (.file contents mode) ↔ d.StandsApart p := by
  have hfile : d'.tree.find (name :: dir) = some (.file contents mode) :=
    (hfind _).trans (if_pos rfl)
  have haside : d'.tree.IsAside (name :: dir) := Tree.isAside_of_find hfile rfl nofun
  have hstays := remove_stays hplain
  have hremove : d'.remove (name :: dir) = d.remove (name :: dir) := by
    have hstays' := remove_stays haside.directory
    refine Disk.ext (Tree.ext_find fun k => ?_) ?_ ?_
    · rw [tree_remove, tree_remove, Tree.find_remove_of_not_directory haside.directory,
        Tree.find_remove_of_not_directory hplain, hfind]
      split <;> rfl
    · rw [hstays'.1, hstays.1, hcwd]
    · rw [hstays'.2, hstays.2, hlost]
  constructor
  · intro h name' dir' slash hlast'
    cases hlast.symm.trans hlast'
    obtain ⟨r, hr, _⟩ := entry_eq_file_iff.1 h
    obtain ⟨mid, hmid⟩ := exists_resolveLast_of_reaches (resolveLast_eq_name_iff.1 hlast).1 hr
    have hgone := (keepsWays_remove haside).resolveLast hmid
    rw [hremove] at hgone
    cases hlast.symm.trans (resolveLast_of_remove hgone)
    exact hgone
  · intro h
    have hlast' : d'.resolveLast p = .ok (dir, .name name false) :=
      resolveLast_of_remove (hremove ▸ h name dir false hlast)
    have hchild := Tree.child?_eq_ok_iff.2 ⟨(resolveLast_eq_name_iff.1 hlast').2.2, hshort, hfile⟩
    exact entry_eq_file_iff.2
      ⟨_, reaches_of_resolveLast hlast' hchild nofun nofun, hfile⟩

end StandsApart
end Disk

namespace WorkDir

open Disk

/-- The mode that a new file takes over: that of what its path leads to. -/
def keptMode (d : Disk) (path : Path) : Nat :=
  match d.entry path with
  | .ok e => e.mode
  | .error _ => 0o600

/-- The temporary file itself makes no difference to the mode. -/
theorem keptMode_put {d : Disk} {p path : Path} {name : String} {dir : Location}
    (h : d.Vacant p name dir) (data : Bytes) :
    keptMode (d.put (name :: dir) (.file data temporaryMode)) path = keptMode d path := by
  have htwins : Twins h.slot d (d.put (name :: dir) (.file data temporaryMode)) := h.twins
  unfold keptMode
  by_cases hs : d.Sidesteps h.slot path path.steps
  · rw [htwins.entry hs]
  · obtain ⟨e, he⟩ := h.entry_eq_error hs
    rw [he]
    rcases h.entry_of_not_sidesteps htwins.tree.slotted' (mt htwins.sidesteps_iff.1 hs) with
      ⟨e', he'⟩ | he'
    · rw [he']
    · have hfile := (h.find_put (.file data temporaryMode) (name :: dir)).trans (if_pos rfl)
      rw [he', Disk.entryAt, Tree.entry?, hfile]
      rfl

/-- Where the temporary file is made that is to replace what a path names, under the first
of the drawn names that nothing has. -/
structure TemporaryAt (draws : List TemporaryName) (d : Disk) (path temporary : Path)
    (name : String) (dir : Location) : Prop where
  path : temporaryPath draws d (path.parent?.getD ⟨"."⟩) = .ok temporary
  vacant : d.Vacant temporary name dir

/-- A file can be replaced if a temporary one can be made, and if the path names a place
where a file can stand. -/
def Replaceable (draws : List TemporaryName) (d : Disk) (path : Path) : Prop :=
  d.TakesFile path ∧ ∃ temporary name dir, TemporaryAt draws d path temporary name dir

/-- A path that leads to nothing does not come to the place of the temporary file either. -/
def Overlooks (draws : List TemporaryName) (d : Disk) (path : Path) : Prop :=
  d.isPresent path = false → ∀ temporary name dir, TemporaryAt draws d path temporary name dir →
    d.goes (· != name :: dir) path path.steps = d.goes (fun _ => true) path path.steps

/-- On `d'`, a new file stands at the place that the path names, with the mode that the
path led to on `d`. Nothing else has changed. -/
structure Replaced (d d' : Disk) (path : Path) (contents : Bytes) : Prop where
  file : ∃ name dir, d.resolveLast path = .ok (dir, .name name false) ∧ ∀ k, d'.tree.find k =
    if k = name :: dir then some (.file contents (keptMode d path)) else d.tree.find k
  cwd : d'.cwd = d.cwd
  lost : d'.lost = d.lost
  entry : d'.entry path = .ok (.file contents (keptMode d path)) ↔ d.StandsApart path

inductive Operation where
  | create (p : Path)
  | write (p : Path) (contents : Bytes)
  | setMode (p : Path) (mode : Nat)
  | rename (p q : Path)
  | unlink (p : Path)

def Operation.apply (d : Disk) : Operation → Except Fault Disk
  | create p => d.create p (.file [] temporaryMode)
  | write p contents => d.write p contents
  | setMode p mode => d.setMode p mode
  | rename p q => d.rename p q
  | unlink p => d.unlink p

def Operation.after (d : Disk) (op : Operation) : Disk :=
  d.attempt (op.apply d)

/-- A request for a new file is refused because something has the name. -/
def Operation.findsTaken (d : Disk) (op : Operation) : Bool :=
  match op.apply d with
  | .error e => e = .system .alreadyThere
  | .ok _ => false

/-- The requests for a temporary file up to the first name that is not taken. -/
def collisions (path : Path) (draws : List TemporaryName) (d : Disk) : List Operation :=
  match temporaryDir d (path.parent?.getD ⟨"."⟩) with
  | .error _ => []
  | .ok dir => (draws.map fun name => .create (dir / name.text)).takeWhile (·.findsTaken d)

def settling (temporary path : Path) (d : Disk) : List Operation :=
  .rename temporary path ::
    match d.rename temporary path with
    | .ok _ => []
    | .error _ => [.unlink temporary]

def stroke (path : Path) (contents : Bytes) (draws : List TemporaryName) (d : Disk) :
    List Operation :=
  match temporaryPath draws d (path.parent?.getD ⟨"."⟩) with
  | .error _ => []
  | .ok temporary =>
    .create temporary ::
      match d.create temporary (.file [] temporaryMode) with
      | .error _ => []
      | .ok created =>
        .write temporary contents ::
          match created.write temporary contents with
          | .error _ => [.unlink temporary]
          | .ok written =>
            match written.entry path with
            | .error _ => settling temporary path written
            | .ok e =>
              .setMode temporary e.mode ::
                match written.setMode temporary e.mode with
                | .error _ => [.unlink temporary]
                | .ok marked => settling temporary path marked

def operations (path : Path) (contents : Bytes) (draws : List TemporaryName) (d : Disk) :
    List Operation :=
  collisions path draws d ++ stroke path contents draws d

/-- The requests are those of the call: they lead to the disk that it leaves, and it
succeeds if there are any after those that find a name taken, and all of these are granted. -/
structure Performs (ops : List Operation) (path : Path) (contents : Bytes)
    (draws : List TemporaryName) (d : Disk) : Prop where
  leaves : ops.foldl Operation.after d = (writeAtomic path contents draws d).2
  granted : ∀ d', writeAtomic path contents draws d = (.ok (), d') ↔
    ops.dropWhile (·.findsTaken d) ≠ [] ∧
      (ops.dropWhile (·.findsTaken d)).foldlM Operation.apply d = .ok d'

section Operations

variable {d : Disk} {path temporary : Path} {contents : Bytes} {draws : List TemporaryName}
  {name : String} {dir : Location}

theorem findsTaken_of_mem_collisions {op : Operation} (h : op ∈ collisions path draws d) :
    op.findsTaken d = true := by
  unfold collisions at h
  split at h
  · cases h
  · exact List.all_eq_true.1 List.all_takeWhile op h

theorem Operation.after_of_findsTaken {op : Operation} (h : op.findsTaken d = true) :
    op.after d = d := by
  unfold findsTaken at h
  split at h
  · next e he => simp [after, he, attempt]
  · cases h

section FindsTaken

variable {ops rest : List Operation} (h : ∀ op ∈ ops, op.findsTaken d = true)
include h

theorem foldl_of_findsTaken :
    (ops ++ rest).foldl Operation.after d = rest.foldl Operation.after d := by
  induction ops with
  | nil => rfl
  | cons op ops ih =>
      obtain ⟨hop, hops⟩ := List.forall_mem_cons.1 h
      rw [List.cons_append, List.foldl_cons, Operation.after_of_findsTaken hop, ih hops]

/-- Requests that find a name taken leave the disk to those that follow. -/
theorem scanl_of_findsTaken : (ops ++ rest).scanl Operation.after d =
    List.replicate ops.length d ++ rest.scanl Operation.after d := by
  induction ops with
  | nil => rfl
  | cons op ops ih =>
      obtain ⟨hop, hops⟩ := List.forall_mem_cons.1 h
      rw [List.cons_append, List.scanl_cons, Operation.after_of_findsTaken hop, ih hops]
      rfl

end FindsTaken

theorem mem_scanl_operations {s : Disk} :
    s ∈ (operations path contents draws d).scanl Operation.after d ↔
      s = d ∨ s ∈ (stroke path contents draws d).scanl Operation.after d := by
  have hfirst : d ∈ (stroke path contents draws d).scanl Operation.after d := by
    cases stroke path contents draws d <;> simp
  rw [operations, scanl_of_findsTaken fun _ => findsTaken_of_mem_collisions, List.mem_append]
  constructor
  · exact Or.imp_left List.eq_of_mem_replicate
  · rintro (rfl | hs)
    · exact Or.inr hfirst
    · exact Or.inr hs

/-- The request for the temporary file does not find its name taken. -/
theorem findsTaken_create (h : temporaryPath draws d path = .ok temporary) :
    (Operation.create temporary).findsTaken d = false := by
  obtain ⟨dir, name, _, hfound, rfl⟩ := temporaryPath_cases h
  have hfree := List.find?_some hfound
  rwa [Bool.not_eq_true'] at hfree

theorem dropWhile_operations (path : Path) (contents : Bytes) (draws : List TemporaryName)
    (d : Disk) : (operations path contents draws d).dropWhile (·.findsTaken d) =
      stroke path contents draws d := by
  rw [operations, List.dropWhile_append_of_pos fun op => findsTaken_of_mem_collisions]
  unfold stroke
  split
  · rfl
  · next temporary ht => exact List.dropWhile_cons_of_neg (by simp [findsTaken_create ht])

/-- What the requests from the temporary file on do is what all of them do. -/
theorem performs_operations
    (hleaves : (stroke path contents draws d).foldl Operation.after d =
      (writeAtomic path contents draws d).2)
    (hgranted : ∀ d', writeAtomic path contents draws d = (.ok (), d') ↔
      stroke path contents draws d ≠ [] ∧
        (stroke path contents draws d).foldlM Operation.apply d = .ok d') :
    Performs (operations path contents draws d) path contents draws d where
  leaves := (foldl_of_findsTaken fun _ => findsTaken_of_mem_collisions).trans hleaves
  granted := by
    rw [dropWhile_operations]
    exact hgranted

theorem writeTemporary_eq (h : d.Vacant temporary name dir) :
    writeTemporary temporary path contents d =
      .ok (d.put (name :: dir) (.file contents (keptMode d path))) := by
  rw [← keptMode_put h contents]
  unfold writeTemporary keptMode
  simp only [h.create, mapError_ok, Bind.bind, Except.bind, h.write]
  cases (d.put (name :: dir) (.file contents temporaryMode)).entry path with
  | error e => rfl
  | ok e => exact h.setMode

theorem writeAtomic_eq (contents : Bytes) (h : TemporaryAt draws d path temporary name dir) :
    writeAtomic path contents draws d =
      match (d.put (name :: dir) (.file contents (keptMode d path))).rename temporary path with
      | .ok done => (.ok (), done)
      | .error e => (.error (.disk path e), d) := by
  unfold writeAtomic
  dsimp only
  rw [h.path]
  dsimp only
  rw [writeTemporary_eq h.vacant]
  dsimp only
  rw [h.vacant.unlink]
  rfl

theorem stroke_cases (contents : Bytes) (h : TemporaryAt draws d path temporary name dir) :
    ∃ marks, stroke path contents draws d = .create temporary :: .write temporary contents ::
        (marks ++ settling temporary path
          (d.put (name :: dir) (.file contents (keptMode d path)))) ∧
      (marks = [] ∧ keptMode d path = temporaryMode ∨
        marks = [.setMode temporary (keptMode d path)]) := by
  rw [← keptMode_put h.vacant contents]
  unfold stroke
  rw [h.path]
  dsimp only
  rw [h.vacant.create]
  dsimp only
  rw [h.vacant.write]
  dsimp only
  simp only [h.vacant.setMode]
  unfold keptMode
  cases (d.put (name :: dir) (.file contents temporaryMode)).entry path with
  | error e => exact ⟨[], rfl, Or.inl ⟨rfl, rfl⟩⟩
  | ok e => exact ⟨[_], rfl, Or.inr rfl⟩

theorem foldlM_settling (temporary path : Path) (d : Disk) :
    (settling temporary path d).foldlM Operation.apply d = d.rename temporary path := by
  unfold settling
  cases hr : d.rename temporary path with
  | ok done => simp [Operation.apply, hr, Bind.bind, Except.bind, Pure.pure, Except.pure]
  | error e => simp [Operation.apply, hr, Bind.bind, Except.bind]

/-- All requests are granted if the last one is, for which the file is renamed. -/
theorem foldlM_stroke (contents : Bytes) (h : TemporaryAt draws d path temporary name dir) :
    (stroke path contents draws d).foldlM Operation.apply d =
      (d.put (name :: dir) (.file contents (keptMode d path))).rename temporary path := by
  rw [← foldlM_settling]
  obtain ⟨marks, hops, ⟨rfl, hmode⟩ | rfl⟩ := stroke_cases contents h
  · rw [hops, List.nil_append, hmode]
    simp only [List.foldlM_cons, Operation.apply, h.vacant.create, h.vacant.write, Bind.bind,
      Except.bind]
  · rw [hops, List.singleton_append]
    simp only [List.foldlM_cons, Operation.apply, h.vacant.create, h.vacant.write,
      h.vacant.setMode, Bind.bind, Except.bind]

/-- Without a temporary file the call fails, after one request at most, which is refused. -/
theorem run_of_not_temporaryAt (contents : Bytes)
    (h : ∀ temporary name dir, ¬ TemporaryAt draws d path temporary name dir) :
    (∃ e, writeAtomic path contents draws d = (.error e, d)) ∧
      (stroke path contents draws d = [] ∨
        ∃ op e, stroke path contents draws d = [op] ∧ op.apply d = .error e) := by
  unfold writeAtomic stroke
  dsimp only
  cases ht : temporaryPath draws d (path.parent?.getD ⟨"."⟩) with
  | error e => exact ⟨⟨_, rfl⟩, Or.inl rfl⟩
  | ok temporary =>
      cases hcreate : d.create temporary (.file [] temporaryMode) with
      | ok created =>
          obtain ⟨name, dir, hvacant, _⟩ := vacant_of_create hcreate
          exact absurd ⟨ht, hvacant⟩ (h temporary name dir)
      | error e =>
          simp only [writeTemporary, hcreate]
          exact ⟨⟨_, rfl⟩, Or.inr ⟨_, e, rfl, hcreate⟩⟩

theorem stays_of_not_temporaryAt
    (h : ∀ temporary name dir, ¬ TemporaryAt draws d path temporary name dir) :
    Performs (operations path contents draws d) path contents draws d ∧
      ∀ s ∈ (stroke path contents draws d).scanl Operation.after d, s = d := by
  obtain ⟨⟨e, hrun⟩, hops | ⟨op, fault, hops, hop⟩⟩ := run_of_not_temporaryAt contents h
  · refine ⟨performs_operations ?_ fun d' => ?_, ?_⟩ <;> simp [hops, hrun]
  · have hafter : op.after d = d := by simp [Operation.after, hop, attempt]
    refine ⟨performs_operations ?_ fun d' => ?_, ?_⟩
    · simp [hops, hrun, hafter]
    · simp [hops, hrun, hop, Bind.bind, Except.bind]
    · simp [hops, hafter]

/-- Where the disk may stand in the course of a replacement: as before, with a temporary
file, or as in the end. -/
def Passing (path : Path) (contents : Bytes) (draws : List TemporaryName) (d : Disk)
    (l : Location) (s : Disk) : Prop :=
  s = d ∨ (∃ data mode, s = d.put l (.file data mode)) ∨ s = (writeAtomic path contents draws d).2

theorem run_settling (h : TemporaryAt draws d path temporary name dir) {made : Disk}
    (hmade : made = d.put (name :: dir) (.file contents (keptMode d path))) :
    (settling temporary path made).foldl Operation.after made =
        (writeAtomic path contents draws d).2 ∧
      ∀ s ∈ (settling temporary path made).scanl Operation.after made,
        Passing path contents draws d (name :: dir) s := by
  have hnow : Passing path contents draws d (name :: dir) made := Or.inr (Or.inl ⟨_, _, hmade⟩)
  have hunlink : made.unlink temporary = .ok d := hmade ▸ h.vacant.unlink
  have hrun := writeAtomic_eq contents h
  rw [← hmade] at hrun
  unfold settling
  cases hr : made.rename temporary path with
  | ok done =>
      have hdone : (writeAtomic path contents draws d).2 = done := by rw [hrun, hr]
      have hafter : Operation.after made (.rename temporary path) = done := by
        simp [Operation.after, Operation.apply, hr, attempt]
      simp only [List.foldl_cons, List.foldl_nil, List.scanl_cons, List.scanl_nil, hafter]
      refine ⟨hdone.symm, List.forall_mem_cons.2 ⟨hnow, List.forall_mem_singleton.2 ?_⟩⟩
      exact Or.inr (Or.inr hdone.symm)
  | error e =>
      have hdone : (writeAtomic path contents draws d).2 = d := by rw [hrun, hr]
      have hafter : Operation.after made (.rename temporary path) = made := by
        simp [Operation.after, Operation.apply, hr, attempt]
      have hback : Operation.after made (.unlink temporary) = d := by
        simp [Operation.after, Operation.apply, hunlink, attempt]
      simp only [List.foldl_cons, List.foldl_nil, List.scanl_cons, List.scanl_nil, hafter, hback]
      refine ⟨hdone.symm, List.forall_mem_cons.2 ⟨hnow, List.forall_mem_cons.2 ⟨hnow,
        List.forall_mem_singleton.2 (Or.inl rfl)⟩⟩⟩

theorem TemporaryAt.after_create (h : TemporaryAt draws d path temporary name dir) :
    Operation.after d (.create temporary) = d.put (name :: dir) (.file [] temporaryMode) := by
  simp [Operation.after, Operation.apply, h.vacant.create, attempt]

/-- The temporary file stands empty before it is written. -/
theorem TemporaryAt.created (h : TemporaryAt draws d path temporary name dir) :
    d.put (name :: dir) (.file [] temporaryMode) ∈
      (operations path contents draws d).scanl Operation.after d := by
  obtain ⟨marks, hops, _⟩ := stroke_cases contents h
  rw [mem_scanl_operations, hops, List.scanl_cons, List.scanl_cons, h.after_create]
  simp

/-- Until the last request, there is at most the temporary file. -/
theorem run_of_temporaryAt (h : TemporaryAt draws d path temporary name dir) :
    (stroke path contents draws d).foldl Operation.after d = (writeAtomic path contents draws d).2 ∧
      ∀ s ∈ (stroke path contents draws d).scanl Operation.after d,
        Passing path contents draws d (name :: dir) s := by
  have hput : ∀ data mode, Passing path contents draws d (name :: dir)
      (d.put (name :: dir) (.file data mode)) := fun data mode => Or.inr (Or.inl ⟨data, mode, rfl⟩)
  have hcreate := h.after_create
  have hwrite : Operation.after (d.put (name :: dir) (.file [] temporaryMode))
      (.write temporary contents) = d.put (name :: dir) (.file contents temporaryMode) := by
    simp [Operation.after, Operation.apply, h.vacant.write, attempt]
  have hmark : ∀ mode, Operation.after (d.put (name :: dir) (.file contents temporaryMode))
      (.setMode temporary mode) = d.put (name :: dir) (.file contents mode) := fun mode => by
    simp [Operation.after, Operation.apply, h.vacant.setMode, attempt]
  obtain ⟨hlast, hpassing⟩ := run_settling h
    (rfl : d.put (name :: dir) (.file contents (keptMode d path)) = _)
  obtain ⟨marks, hops, ⟨rfl, hmode⟩ | rfl⟩ := stroke_cases contents h
  · rw [hmode] at hlast hpassing hops
    rw [hops, List.nil_append]
    simp only [List.foldl_cons, List.scanl_cons, hcreate, hwrite]
    exact ⟨hlast, List.forall_mem_cons.2 ⟨Or.inl rfl, List.forall_mem_cons.2 ⟨hput _ _, hpassing⟩⟩⟩
  · rw [hops, List.singleton_append]
    simp only [List.foldl_cons, List.scanl_cons, hcreate, hwrite, hmark]
    exact ⟨hlast, List.forall_mem_cons.2 ⟨Or.inl rfl, List.forall_mem_cons.2 ⟨hput _ _,
      List.forall_mem_cons.2 ⟨hput _ _, hpassing⟩⟩⟩⟩

theorem performs_of_temporaryAt (h : TemporaryAt draws d path temporary name dir) :
    Performs (operations path contents draws d) path contents draws d := by
  refine performs_operations (run_of_temporaryAt h).1 fun d' => ?_
  have hne : stroke path contents draws d ≠ [] := by
    obtain ⟨marks, hops, _⟩ := stroke_cases contents h
    rw [hops]
    exact List.cons_ne_nil _ _
  rw [foldlM_stroke contents h, writeAtomic_eq contents h]
  cases (d.put (name :: dir) (.file contents (keptMode d path))).rename temporary path with
  | ok done => simp [hne]
  | error e => simp

theorem replaced_of_rename {d' : Disk} (h : TemporaryAt draws d path temporary name dir)
    (hr : (d.put (name :: dir) (.file contents (keptMode d path))).rename temporary path = .ok d') :
    Replaced d d' path contents := by
  obtain ⟨dst, dstDir, slash, hlast, hplain, hfind, ⟨hcwd, hlost⟩, _⟩ := h.vacant.rename hr
  obtain ⟨dst', dstDir', hlast', hshort, _⟩ := h.vacant.rename_iff.1 ⟨d', hr⟩
  cases hlast.symm.trans hlast'
  exact ⟨⟨dst, dstDir, hlast, hfind⟩, hcwd, hlost,
    entry_eq_file_iff_standsApart hlast hshort hplain hfind hcwd hlost⟩

/-- The disk is as it should be after the call, whether or not there was a way to replace
the file. -/
theorem writeAtomic_outcome (path : Path) (contents : Bytes) (draws : List TemporaryName)
    (d : Disk) :
    (Replaceable draws d path ∧
      ∃ d', writeAtomic path contents draws d = (.ok (), d') ∧ Replaced d d' path contents) ∨
    (¬ Replaceable draws d path ∧ ∃ e, writeAtomic path contents draws d = (.error e, d)) := by
  by_cases h : ∃ temporary name dir, TemporaryAt draws d path temporary name dir
  · obtain ⟨temporary, name, dir, h⟩ := h
    have htakes : (∃ d', (d.put (name :: dir) (.file contents (keptMode d path))).rename
        temporary path = .ok d') ↔ d.TakesFile path := h.vacant.rename_iff
    have hrun := writeAtomic_eq contents h
    cases hr : (d.put (name :: dir) (.file contents (keptMode d path))).rename temporary path with
    | ok d' =>
        rw [hr] at hrun
        have hcan : Replaceable draws d path := ⟨htakes.1 ⟨d', hr⟩, temporary, name, dir, h⟩
        exact Or.inl ⟨hcan, d', hrun, replaced_of_rename h hr⟩
    | error e =>
        rw [hr] at hrun
        refine Or.inr ⟨fun hcan => ?_, _, hrun⟩
        obtain ⟨d', hd'⟩ := htakes.2 hcan.1
        cases hr.symm.trans hd'
  · have hnone : ∀ temporary name dir, ¬ TemporaryAt draws d path temporary name dir :=
      fun temporary name dir ht => h ⟨temporary, name, dir, ht⟩
    exact Or.inr ⟨fun hcan => h hcan.2, (run_of_not_temporaryAt contents hnone).1⟩

theorem sidesteps_of_overlooks (h : TemporaryAt draws d path temporary name dir)
    (hover : Overlooks draws d path) : d.Sidesteps h.vacant.slot path path.steps := by
  cases hp : d.isPresent path with
  | true => exact h.vacant.sidesteps_of_isPresent hp
  | false =>
      have hfits : (fun l => !h.vacant.slot.has l) = (· != name :: dir) := by
        funext l
        rw [Bool.eq_iff_iff]
        simp [← h.vacant.has_slot_iff]
      rw [Sidesteps, hfits]
      exact hover hp temporary name dir h

theorem read_of_passing {s : Disk} (h : TemporaryAt draws d path temporary name dir)
    (hapart : d.StandsApart path) (hover : Overlooks draws d path)
    (hs : Passing path contents draws d (name :: dir) s) :
    s.read path = d.read path ∨ s.read path = .ok contents := by
  rcases hs with rfl | ⟨data, mode, rfl⟩ | rfl
  · exact Or.inl rfl
  · exact Or.inl (h.vacant.read_put (sidesteps_of_overlooks h hover))
  · rcases writeAtomic_outcome path contents draws d with ⟨_, d', hrun, hd'⟩ | ⟨_, e, hrun⟩
    · rw [hrun]
      refine Or.inr ?_
      unfold Disk.read
      rw [hd'.entry.2 hapart]
      rfl
    · rw [hrun]
      exact Or.inl rfl

end Operations

/-- Replacing a file gives it new contents and changes nothing else, or it changes nothing
at all. From request to request its path shows the old contents or the new ones. This is
so under whichever names are drawn for the temporary file. -/
theorem writeAtomic_replaces_or_restores (path : Path) (contents : Bytes)
    (draws : List TemporaryName) (d : Disk) :
    ((Replaceable draws d path ∧
        ∃ d', writeAtomic path contents draws d = (.ok (), d') ∧ Replaced d d' path contents) ∨
      (¬ Replaceable draws d path ∧ ∃ e, writeAtomic path contents draws d = (.error e, d))) ∧
    Performs (operations path contents draws d) path contents draws d ∧
    (d.StandsApart path → Overlooks draws d path →
      ∀ s ∈ (operations path contents draws d).scanl Operation.after d,
        s.read path = d.read path ∨ s.read path = .ok contents) := by
  refine ⟨writeAtomic_outcome path contents draws d, ?_⟩
  by_cases h : ∃ temporary name dir, TemporaryAt draws d path temporary name dir
  · obtain ⟨temporary, name, dir, h⟩ := h
    refine ⟨performs_of_temporaryAt h, fun hapart hover s hs => ?_⟩
    rcases mem_scanl_operations.1 hs with rfl | hs
    · exact Or.inl rfl
    · exact read_of_passing h hapart hover ((run_of_temporaryAt h).2 s hs)
  · obtain ⟨hperforms, hsame⟩ := stays_of_not_temporaryAt
      fun temporary name dir ht => h ⟨temporary, name, dir, ht⟩
    refine ⟨hperforms, fun _ _ s hs => Or.inl ?_⟩
    rcases mem_scanl_operations.1 hs with rfl | hs
    · rfl
    · rw [hsame s hs]

/-- A link to a file, another one to a directory on the way, and a file that has the first
name to be drawn. -/
def linkedFile : Disk :=
  .holding [(["d"], .directory 0o755), (["f"], .file [1] 0o644), (["k"], .link ⟨"d"⟩),
    (["l"], .link ⟨"f"⟩), ([(TemporaryName.repeated 'a' rfl).text], .file [] 0o600)]

theorem writeAtomic_replaces_link :
    let draws := [TemporaryName.repeated 'a' rfl, .repeated 'b' rfl]
    linkedFile.StandsApart ⟨"/k/../l"⟩ ∧ Overlooks draws linkedFile ⟨"/k/../l"⟩ ∧
      ∀ s ∈ (operations ⟨"/k/../l"⟩ [2] draws linkedFile).scanl Operation.after linkedFile,
        s.read ⟨"/k/../l"⟩ = linkedFile.read ⟨"/k/../l"⟩ ∨ s.read ⟨"/k/../l"⟩ = .ok [2] := by
  intro draws
  have hlast : linkedFile.resolveLast ⟨"/k/../l"⟩ = .ok ([], .name "l" false) := by decide +kernel
  have hapart : linkedFile.StandsApart ⟨"/k/../l"⟩ := fun name dir slash h => by
    cases hlast.symm.trans h
    decide +kernel
  have hover : Overlooks draws linkedFile ⟨"/k/../l"⟩ := fun h => absurd h (by decide +kernel)
  exact ⟨hapart, hover,
    (writeAtomic_replaces_or_restores ⟨"/k/../l"⟩ [2] draws linkedFile).2.2 hapart hover⟩

section Crooked

variable {d d' : Disk} {path parent : Path} {contents : Bytes} {draws : List TemporaryName}
  {name : TemporaryName} {dir : Location}

theorem checkText_temporary (hzero : '\x00' ∉ parent.text.toList)
    (hshort : parent.text.utf8ByteSize ≤ 4000) : checkText (parent / name.text) = .ok () := by
  have hsize := name.utf8ByteSize_text_le
  have hne : name.text ≠ "" := name.isName_text.1
  have hplain := name.not_mem_text (c := '\x00') (by decide) (by decide)
  have hslash : "/".utf8ByteSize = 1 := by decide
  change checkText (parent.join ⟨name.text⟩) = _
  rw [Path.join, if_neg (by simp [Path.isAbsolute_of_isName name.isName_text])]
  unfold checkText Path.fits Path.maxBytes
  split
  all_goals
    simp [hplain, hzero, hne]
    omega

/-- The first name that is drawn does for a temporary file if nothing has it. -/
theorem temporaryAt_of_find_eq_none (hparent : path.parent?.getD ⟨"."⟩ = parent)
    (habs : parent.isAbsolute = true)
    (htext : '\x00' ∉ parent.text.toList ∧ parent.text.utf8ByteSize ≤ 4000)
    (hdir : d.Enters parent dir) (hfind : d.tree.find (name.text :: dir) = none) :
    TemporaryAt (name :: draws) d path (parent / name.text) name.text dir := by
  have hvacant : d.Vacant (parent / name.text) name.text dir :=
    ⟨(resolveLast_div_iff name.isName_text).2 ⟨checkText_temporary htext.1 htext.2, hdir, rfl⟩,
      Tree.child?_eq_ok_iff.2
        ⟨hdir.1, Nat.le_trans name.utf8ByteSize_text_le (by decide), hfind⟩⟩
  have hfree : isTaken d parent name = false := by
    unfold isTaken
    rw [hvacant.create]
  refine ⟨?_, hvacant⟩
  rw [hparent, temporaryPath, temporaryDir, if_pos habs]
  simp only [Bind.bind, Except.bind, List.find?_cons, hfree, Bool.not_false]

theorem Replaced.eq_put {n : String} (h : Replaced d d' path contents)
    (hlast : d.resolveLast path = .ok (dir, .name n false))
    (hplain : d.tree.isDirectory (n :: dir) = false) :
    d' = d.put (n :: dir) (.file contents (keptMode d path)) := by
  obtain ⟨_, _, hlast', hfind⟩ := h.file
  cases hlast.symm.trans hlast'
  obtain ⟨_, _, hdir⟩ := resolveLast_eq_name_iff.1 hlast
  refine Disk.ext (Tree.ext_find fun k => ?_) h.cwd h.lost
  rw [hfind, find_put_of_isAside (isName_of_ending hlast _ _ rfl) hdir hplain]
  simp only [eq_comm]

/-- A link to a name beside it leads where the name does. -/
theorem walkWithin_link_beside {t : Tree} {link target : String} {links : Nat}
    (hn : IsName target) (hlink : t.child? dir link = .ok (some (.link ⟨target⟩))) :
    t.walkWithin (fun _ => true) (links + 1) dir [.down link] =
      t.walkWithin (fun _ => true) links dir [.down target] := by
  have hsteps : (⟨target⟩ : Path).steps = [.down target] := by
    have hone : target.toList.splitOn '/' = [target.toList] := List.splitOn_eq_singleton hn.2.2.2
    rw [Path.steps, Path.segments, hone]
    simp [Path.Step.ofSegment_of_isName hn]
  rw [Tree.walkWithin_succ, Tree.walkSteps, if_neg (by simp), hlink]
  dsimp only
  rw [hsteps, Tree.linkStart, if_neg (by simp [Path.isAbsolute_of_isName hn])]
  rfl

/-- What a link at the root shows that leads to a name beside it. -/
theorem entry_link_beside {target : String} (hn : IsName target)
    (hlink : d.tree.find ["l"] = some (.link ⟨target⟩))
    (hplain : ∀ other, d.tree.find [target] ≠ some (.link other)) :
    d.entry ⟨"/l"⟩ =
      lift (d.tree.child? [] target) >>= fun x => x.elim (.error (.system .noEntry)) .ok := by
  have hwalk : d.tree.walk [] [.stay, .down "l"] =
      d.tree.child? [] target >>= fun x => x.elim (.error .noEntry) fun _ => .ok [target] := by
    rw [← Tree.walkWithin_down d.tree 39 hplain,
      ← walkWithin_link_beside hn (Tree.child?_eq_ok_iff.2 ⟨rfl, by decide, hlink⟩)]
    rfl
  have hplace : d.place ⟨"/l"⟩ =
      lift (d.tree.walk [] [.stay, .down "l"]) >>= fun l => .ok (some l) := rfl
  rw [entry, hplace, hwalk]
  cases hchild : d.tree.child? [] target with
  | error e => rfl
  | ok x =>
      cases x with
      | none => rfl
      | some e =>
          change d.entryAt (some [target]) = .ok e
          rw [entryAt, Tree.entry?, (Tree.child?_eq_ok_iff.1 hchild).2.2]

end Crooked

def circlingLink : Disk :=
  .holding [(["d"], .directory 0o755), (["l"], .link ⟨"d"⟩)]

theorem writeAtomic_circlingLink (name : TemporaryName) (draws : List TemporaryName) :
    let done := writeAtomic ⟨"/l/../l"⟩ [2] (name :: draws) circlingLink
    done.1 = .ok () ∧ done.2.read ⟨"/l/../l"⟩ = .error (.system .notDirectory) := by
  have hlast : circlingLink.resolveLast ⟨"/l/../l"⟩ = .ok ([], .name "l" false) := by
    decide +kernel
  have hplain : circlingLink.tree.isDirectory ["l"] = false := by decide +kernel
  have hroot : circlingLink.resolve ⟨"/l/.."⟩ = .ok [] := by decide +kernel
  have hentries : circlingLink.tree.entries =
      [(["d"], .directory 0o755), (["l"], .link ⟨"d"⟩)] := by decide +kernel
  have hfind : circlingLink.tree.find [name.text] = none := by
    have hd : "d" ≠ name.text := (name.text_ne (by decide)).symm
    have hl : "l" ≠ name.text := (name.text_ne (by decide)).symm
    rw [Tree.find, hentries]
    simp [Table.find, hd, hl]
  have htemporary : TemporaryAt (name :: draws) circlingLink ⟨"/l/../l"⟩ _ _ [] :=
    temporaryAt_of_find_eq_none rfl (by decide) (by decide) ((resolve_eq_ok_iff.1 hroot).enters rfl)
      hfind
  rcases writeAtomic_outcome ⟨"/l/../l"⟩ [2] (name :: draws) circlingLink with
    ⟨_, d', hrun, hd'⟩ | ⟨hno, _⟩
  · rw [hrun, hd'.eq_put hlast hplain]
    decide +kernel
  · exact absurd ⟨⟨_, _, hlast, by decide, hplain⟩, _, _, _, htemporary⟩ hno

/-- A link to a name that nothing has. -/
def looseLink (name : TemporaryName) : Disk :=
  .holding [(["l"], .link ⟨name.text⟩)]

theorem operations_looseLink (name : TemporaryName) (draws : List TemporaryName) :
    let d := looseLink name
    d.read ⟨"/l"⟩ = .error (.system .noEntry) ∧
      ∃ s ∈ (operations ⟨"/l"⟩ [2] (name :: draws) d).scanl Operation.after d,
        s.read ⟨"/l"⟩ = .ok [] := by
  intro d
  have hne : "l" ≠ name.text := (name.text_ne (by decide)).symm
  have hfind : ∀ k, d.tree.find k = if ["l"] = k then some (.link ⟨name.text⟩) else none :=
    fun k => find_put_new (by decide) rfl rfl k
  have hnone : d.tree.find [name.text] = none := by simp [hfind, hne]
  have hlink : d.tree.find ["l"] = some (.link ⟨name.text⟩) := by simp [hfind]
  have htemporary : TemporaryAt (name :: draws) d ⟨"/l"⟩ _ _ [] :=
    temporaryAt_of_find_eq_none rfl (by decide) (by decide) ⟨rfl, _, rfl, rfl⟩ hnone
  have hvacant := htemporary.vacant
  refine ⟨?_, _, htemporary.created, ?_⟩
  · rw [Disk.read, entry_link_beside name.isName_text hlink (by simp [hnone]), hvacant.free]
    rfl
  · have hput := hvacant.find_put (.file [] temporaryMode)
    have hstays := (hput ["l"]).trans ((if_neg (by simpa using hne.symm)).trans hlink)
    have hfile := (hput [name.text]).trans (if_pos rfl)
    rw [Disk.read, entry_link_beside name.isName_text hstays fun _ => by rw [hfile]; nofun,
      hvacant.child?_put]
    rfl

/-- Where the way to a link leads through that link, it ends at the file that has taken
its place. Where a link without a target has the name of the temporary file for one, the
empty file shows. Both are so whichever name is drawn. -/
theorem writeAtomic_shows_on_crooked_ways :
    (∀ name draws, let done := writeAtomic ⟨"/l/../l"⟩ [2] (name :: draws) circlingLink
      done.1 = .ok () ∧ done.2.read ⟨"/l/../l"⟩ = .error (.system .notDirectory)) ∧
    ∀ name draws, let d := looseLink name
      d.read ⟨"/l"⟩ = .error (.system .noEntry) ∧
        ∃ s ∈ (operations ⟨"/l"⟩ [2] (name :: draws) d).scanl Operation.after d,
          s.read ⟨"/l"⟩ = .ok [] :=
  ⟨writeAtomic_circlingLink, operations_looseLink⟩

end WorkDir
end PointsTo
