import PointsTo.Proofs.Disk.TwinStroke
import PointsTo.Proofs.Mirror
import PointsTo.Proofs.Survival

/-!
The program files of two runs, of which one takes them away again after each call and
the other keeps them. At any moment the disks of the two differ in these files only, as
long as the engine leaves them alone and nothing that is looked up comes to one of them.
-/

namespace PointsTo

open PointsTo.Path (Step)

namespace Disk

variable {slots : Slots} {d d' : Disk} {p program : Path} {dir : Location} {name : String}
  {data : Bytes}

/-- A program can be started on the one disk as it can on the other. -/
theorem Twins.checkStart {image : Bytes} {command : Command} (h : Twins slots d d')
    (hp : d.Sidesteps slots p p.steps)
    (hprogram : ∀ l, d.Enters p l →
      (d.enter l).Sidesteps slots command.program command.program.steps) :
    d'.checkStart image command p = d.checkStart image command p := by
  have hresolve : d'.resolve p = d.resolve p := by
    unfold Disk.resolve
    rw [place_eq_goes, place_eq_goes, (h.goes hp).1]
  unfold Disk.checkStart
  rw [hresolve]
  split
  · rfl
  · cases hl : d.resolve p with
    | error e => rfl
    | ok l =>
        simp only [Bind.bind, Except.bind, h.tree.isDirectory]
        cases hdir : d.tree.isDirectory l with
        | false => rfl
        | true =>
            have hprogram := hprogram l ((resolve_eq_ok_iff.1 hl).enters hdir)
            unfold checkProgram
            rw [(h.enter l).entry hprogram]

/-- How a file of the directory is written, if there was none or one as files are made. -/
theorem write_div (hdir : d.Enters p dir) (hn : FitsDirectory name)
    (hold : d.tree.find (name :: dir) = none ∨
      ∃ data, d.tree.find (name :: dir) = some (.file data newFileMode)) :
    d.write (p / name) data =
      (checkText (p / name)).map fun _ => d.put (name :: dir) (.file data newFileMode) := by
  rw [write_eq]
  cases hc : checkText (p / name) with
  | error e => simp [destination, start, hc, Bind.bind, Except.bind, Except.map]
  | ok =>
      have hlast := (resolveLast_div_iff hn.1).2 ⟨hc, hdir, rfl⟩
      have hdest : d.destination (p / name) = .ok (name :: dir) := by
        refine destination_of_resolveLast hlast ⟨hn.1, hdir.1, hn.2, hold.imp_right ?_⟩
        rintro ⟨old, hfile⟩
        exact ⟨old, _, hfile⟩
      rw [hdest]
      simp only [Except.map, written]
      rcases hold with hold | ⟨_, hold⟩ <;> rw [hold]

/-- A file that is written is put where the path leads. -/
theorem putsFile_write (h : d.write p data = .ok d') :
    ∃ l, d.destination p = .ok l ∧ d.tree.isDirectory l = false ∧ d.PutsFile d' l data := by
  obtain ⟨_, _, name, dir, x, mode, _, hat, hn, hx, hfile, rfl⟩ := write_cases h
  have haside := isAside_of_child? hx hfile
  exact ⟨name :: dir, hat, haside.directory,
    putsFile_put hn (Tree.child?_eq_ok_iff.1 hx).1 haside⟩

def Twinned {α : Type} (slots : Slots) (x : Attempt Disk α) (d d' : Disk) : Prop :=
  (x d').1 = (x d).1 ∧ Twins slots (x d).2 (x d').2

theorem Twinned.bind {α β : Type} {x : Attempt Disk α} {f : α → Attempt Disk β}
    (hx : Twinned slots x d d')
    (hf : ∀ a u u', x d = (.ok a, u) → Twins slots u u' → Twinned slots (f a) u u') :
    Twinned slots (x >>= f) d d' := by
  obtain ⟨hr, htwins⟩ := hx
  unfold Twinned
  rw [Attempt.bind_apply, Attempt.bind_apply]
  rcases hd : x d with ⟨r, u⟩
  rcases hd' : x d' with ⟨r', u'⟩
  rw [hd, hd'] at hr htwins
  cases hr
  cases r with
  | error e => exact ⟨rfl, htwins⟩
  | ok a => exact hf a u u' hd htwins

theorem Twins.readText_twinned (h : Twins slots d d') (hs : d.Sidesteps slots p p.steps) :
    Twinned slots (Attempt.look fun d => (d.readText p).mapError (.disk p)) d d' :=
  ⟨congrArg (Except.mapError (Failure.disk p)) (h.readText hs), h⟩

/-- The indices of a file are named alike. -/
theorem Twins.mapFiles {tuples names dest : Path} (h : Twins slots d d')
    (htuples : d.Sidesteps slots tuples tuples.steps) (hnames : d.Sidesteps slots names names.steps)
    (hdest : d.SidestepsFile slots dest) :
    Twinned slots (TupleMap.mapFiles tuples names dest) d d' := by
  refine (h.readText_twinned hnames).bind fun namesText u u₁ hu h => ?_
  cases (Prod.mk.inj hu).2
  refine (h.readText_twinned htuples).bind fun tuplesText u u₂ hu h => ?_
  cases (Prod.mk.inj hu).2
  have htext : Twinned slots (Attempt.ofExcept (TupleMap.mapText tuples namesText tuplesText)) d u₂ :=
    ⟨rfl, h⟩
  refine htext.bind fun mapped u u₃ hu h => ?_
  cases (Attempt.ofExcept_cases hu).2
  refine Twinned.bind (?_ : Twinned slots (change dest (·.write dest
    (Text.encodeChars mapped.text))) d u₃) fun _ _ _ _ h => ⟨rfl, h⟩
  unfold Twinned change
  rcases (h.write hdest (Text.encodeChars mapped.text)).cases with
    ⟨e, hw, hw'⟩ | ⟨made, made', hw, hw', htwins⟩
  · simp only [hw, hw']
    exact ⟨trivial, h⟩
  · simp only [hw, hw']
    exact ⟨trivial, htwins⟩

/-- The path has none of the names in the directory that it leads to. -/
def Lacks (d : Disk) (p : Path) (names : List String) : Prop :=
  ∀ dir, d.Enters p dir → ∀ name ∈ names, d.tree.find (name :: dir) = none

instance (d : Disk) (p : Path) (names : List String) : Decidable (d.Lacks p names) :=
  inferInstanceAs (Decidable (∀ dir, d.Enters p dir → _))

end Disk

def EngineCall.key (c : EngineCall) : String × Path × List String × Location :=
  (c.label, c.program, c.args, c.directory)

namespace Stage

open Run World

def programSlots (dir : Location) : Slots :=
  ⟨dir, programFiles, fits_programFiles⟩

theorem has_programSlots {name : String} (hn : name ∈ programFiles) (dir : Location) :
    (programSlots dir).has (name :: dir) = true :=
  Slots.has_cons_iff.2 ⟨hn, rfl⟩

theorem temporaryName_not_programFile (name : TemporaryName) : name.text ∉ programFiles := by
  have hno : ∀ file ∈ programFiles, file.toList.head? ≠ some '.' := by decide
  intro hname
  exact hno _ hname name.head?_text

/-- Nothing that is looked up to start the engine comes to a program file. -/
structure Starts (s : Setup) (slots : Slots) (d : Disk) : Prop where
  root : d.Sidesteps slots s.root s.root.steps
  runtime : ∀ l, d.Enters s.root l →
    (d.enter l).Sidesteps slots s.toolchain.runtime s.toolchain.runtime.steps

/-- Nor does anything that the run looks up otherwise. -/
structure Passes (s : Setup) (map : Option MapRequest) (slots : Slots) (d : Disk) : Prop
    extends Starts s slots d where
  domains : d.Sidesteps slots (s.workDir / Datalog.domainFile) (s.workDir / Datalog.domainFile).steps
  files : ∀ request ∈ map,
    d.Sidesteps slots (s.workDir.join request.tuples) (s.workDir.join request.tuples).steps ∧
    d.Sidesteps slots (s.workDir.join request.names) (s.workDir.join request.names).steps ∧
    d.SidestepsFile slots (s.root.join request.dest)

instance (s : Setup) (map : Option MapRequest) (slots : Slots) (d : Disk) :
    Decidable (Passes s map slots d) :=
  decidable_of_iff
    ((d.Sidesteps slots s.root s.root.steps ∧
      ∀ l, d.Enters s.root l →
        (d.enter l).Sidesteps slots s.toolchain.runtime s.toolchain.runtime.steps) ∧
      d.Sidesteps slots (s.workDir / Datalog.domainFile) (s.workDir / Datalog.domainFile).steps ∧
      ∀ request ∈ map,
        d.Sidesteps slots (s.workDir.join request.tuples) (s.workDir.join request.tuples).steps ∧
        d.Sidesteps slots (s.workDir.join request.names) (s.workDir.join request.names).steps ∧
        d.SidestepsFile slots (s.root.join request.dest))
    ⟨fun ⟨⟨h₁, h₂⟩, h₃, h₄⟩ => ⟨⟨h₁, h₂⟩, h₃, h₄⟩, fun ⟨⟨h₁, h₂⟩, h₃, h₄⟩ => ⟨⟨h₁, h₂⟩, h₃, h₄⟩⟩

section Passes

variable {s : Setup} {map : Option MapRequest} {slots : Slots} {d d' : Disk} {place : Location}

theorem Starts.twins (h : Starts s slots d) (ht : Disk.Twins slots d d') : Starts s slots d' where
  root := ht.sidesteps_iff.2 h.root
  runtime := fun l hl => (ht.enter l).sidesteps_iff.2 (h.runtime l (ht.symm.enters hl))

theorem Starts.checkStart {image : Bytes} {command : Command} (h : Starts s slots d)
    (ht : Disk.Twins slots d d') (hc : command.program = s.toolchain.runtime) :
    d'.checkStart image command s.root = d.checkStart image command s.root :=
  ht.checkStart h.root fun l hl => hc ▸ h.runtime l hl

/-- A file that is put elsewhere is on no way to a program file. -/
theorem Passes.filed (h : Passes s map slots d) (hd : d.tree.Slotted slots)
    (hdir : d.tree.isDirectory slots.dir = true) (hplace : slots.has place = false)
    (hf : Disk.Filed place d d') : Passes s map slots d' where
  root := hf.sidesteps hd hdir hplace h.root
  runtime := fun l hl => by
    have hl' : d.Enters s.root l :=
      hl.of_leadsTo (hf.back ((hf.tree.isDirectory l).symm.trans hl.1))
    have htree := (d.enter_fields l).1
    exact (hf.enter l).sidesteps (htree ▸ hd) (htree ▸ hdir) hplace (h.runtime l hl')
  domains := hf.sidesteps hd hdir hplace h.domains
  files := fun request hr =>
    have ⟨htuples, hnames, hdest⟩ := h.files request hr
    ⟨hf.sidesteps hd hdir hplace htuples, hf.sidesteps hd hdir hplace hnames,
      hf.sidestepsFile hd hdir hplace hdest⟩

end Passes

/-- A call does nothing to the program files or the directory that they are in. After a call
that solves a program, the last one included, none of the paths that a run looks up comes
to one of them. -/
def LeavesPrograms (host : Host) (s : Setup) (map : Option MapRequest) (past : List EngineCall)
    (call : EngineCall) : Prop :=
  ∀ dir, call.disk.Enters s.workDir dir →
    (host.engine.left past call).Enters s.workDir dir ∧
    Action.AllSpare (programSlots dir) call.directory.toPath call.disk
      (host.engine.respond past call).actions ∧
    (call.label ≠ Setup.relationsLabel →
      Passes s map (programSlots dir) (host.engine.left past call))

instance (host : Host) (s : Setup) (map : Option MapRequest) (past : List EngineCall)
    (call : EngineCall) : Decidable (LeavesPrograms host s map past call) :=
  inferInstanceAs (Decidable (∀ dir, call.disk.Enters s.workDir dir → _))

/-- The engine answers the two runs alike, call by call, and its calls leave the program
files alone. -/
structure Tame (host : Host) (s : Setup) (map : Option MapRequest) (left right : List EngineCall) :
    Prop where
  same : ∀ past call, past ++ [call] <+: left → ∀ past' call', past' ++ [call'] <+: right →
    past'.length = past.length → host.engine.respond past' call' = host.engine.respond past call
  left : ∀ past call, past ++ [call] <+: left → LeavesPrograms host s map past call
  right : ∀ past call, past ++ [call] <+: right → LeavesPrograms host s map past call

instance (host : Host) (s : Setup) (map : Option MapRequest) (left right : List EngineCall) :
    Decidable (Tame host s map left right) :=
  decidable_of_iff
    ((∀ past call, past ++ [call] <+: left → ∀ past' call', past' ++ [call'] <+: right →
        past'.length = past.length →
          host.engine.respond past' call' = host.engine.respond past call) ∧
      (∀ past call, past ++ [call] <+: left → LeavesPrograms host s map past call) ∧
      ∀ past call, past ++ [call] <+: right → LeavesPrograms host s map past call)
    ⟨fun ⟨h₁, h₂, h₃⟩ => ⟨h₁, h₂, h₃⟩, fun ⟨h₁, h₂, h₃⟩ => ⟨h₁, h₂, h₃⟩⟩

/-- The program file of a name, in a run that keeps it: it is there with the text that was
written, or nothing was written and nothing is there. -/
def Keeps (host : Host) (s : Setup) (dir : Location) (calls : List EngineCall) (w : World)
    (name : String) : Prop :=
  (w.Materialized (s.workDir / name) ∧ ∃ text, Writes host s calls name text ∧
    w.disk.tree.find (name :: dir) = some (.file (Text.encode text) Disk.newFileMode)) ∨
  (¬ w.Materialized (s.workDir / name) ∧ w.disk.tree.find (name :: dir) = none)

/-- The worlds `v` of a run that takes program files away and `w` of one that keeps them,
which makes the given calls in all. In the first one there are only those files that are
held for a call. -/
structure Abreast (host : Host) (s : Setup) (dir : Location) (calls : List EngineCall)
    (held : List String) (v w : World) : Prop where
  twins : Disk.Twins (programSlots dir) w.disk v.disk
  enters : w.disk.Enters s.workDir dir
  tidy : ∀ name ∈ programFiles, v.disk.tree.find (name :: dir) =
    if name ∈ held then w.disk.tree.find (name :: dir) else none
  kept : ∀ name ∈ programFiles, Keeps host s dir calls w name
  keys : v.calls.map EngineCall.key = w.calls.map EngineCall.key

section Abreast

variable {host : Host} {s : Setup} {map : Option MapRequest} {dir : Location}
  {calls left : List EngineCall} {held : List String} {v w v' w' : World}

theorem Abreast.like (h : Abreast host s dir calls held v w) (hv : v.Like v') (hw : w.Like w') :
    Abreast host s dir calls held v' w' where
  twins := by rw [hv.disk, hw.disk]; exact h.twins
  enters := by rw [hw.disk]; exact h.enters
  tidy := by rw [hv.disk, hw.disk]; exact h.tidy
  kept := fun name hn => by
    unfold Keeps
    rw [hw.materialized, hw.disk]
    exact h.kept name hn
  keys := by rw [hv.calls, hw.calls]; exact h.keys

/-- A step of both runs beside the program files. -/
theorem Abreast.step (h : Abreast host s dir calls held v w)
    (htwins : Disk.Twins (programSlots dir) w'.disk v'.disk)
    (henters : w'.disk.Enters s.workDir dir)
    (hv : ∀ name ∈ programFiles, v'.disk.tree.find (name :: dir) = v.disk.tree.find (name :: dir))
    (hw : ∀ name ∈ programFiles, w'.disk.tree.find (name :: dir) = w.disk.tree.find (name :: dir))
    (hnotes : w'.events = w.events)
    (hkeys : v'.calls.map EngineCall.key = w'.calls.map EngineCall.key) :
    Abreast host s dir calls held v' w' where
  twins := htwins
  enters := henters
  tidy := fun name hn => by rw [hv name hn, hw name hn, h.tidy name hn]
  kept := fun name hn => by
    unfold Keeps Materialized
    rw [hw name hn, hnotes]
    exact h.kept name hn
  keys := hkeys

/-- The engine is called alike, and afterwards nothing that is looked up comes to a
program file. -/
theorem Abreast.start {command : Command} (htame : Tame host s map left calls)
    (hlabel : command.label ≠ Setup.relationsLabel)
    (hprogram : command.program = s.toolchain.runtime) (h : Abreast host s dir calls held v w)
    (hstarts : v.disk = w.disk ∨ Starts s (programSlots dir) w.disk)
    (hleft : (start host command s.root v).2.calls <+: left)
    (hright : (start host command s.root w).2.calls <+: calls) :
    (start host command s.root v).1 = (start host command s.root w).1 ∧
      Abreast host s dir calls held (start host command s.root v).2 (start host command s.root w).2 ∧
      ∀ a, (start host command s.root w).1 = .ok a →
        Passes s map (programSlots dir) (start host command s.root w).2.disk := by
  have hcheck : v.disk.checkStart host.engine.image command s.root =
      w.disk.checkStart host.engine.image command s.root := by
    rcases hstarts with hsame | hstarts
    · rw [hsame]
    · exact hstarts.checkStart h.twins hprogram
  unfold Run.start at hleft hright ⊢
  rw [hcheck] at hleft ⊢
  cases hl : w.disk.checkStart host.engine.image command s.root with
  | error e => exact ⟨rfl, h, nofun⟩
  | ok l =>
      rw [hl] at hleft hright
      dsimp only at hleft hright ⊢
      have hlength : w.calls.length = v.calls.length := by
        simpa using (congrArg List.length h.keys).symm
      have hsame := htame.same _ _ hleft _ _ hright hlength
      obtain ⟨_, hspare, _⟩ := htame.left _ _ hleft dir (h.twins.enters h.enters)
      obtain ⟨henters, hspare', hpasses⟩ := htame.right _ _ hright dir h.enters
      refine ⟨by rw [hsame], h.step ?_ henters hspare.spares hspare'.spares rfl ?_,
        fun _ _ => hpasses hlabel⟩
      · unfold Response.finalDisk
        rw [← hsame]
        rw [← hsame] at hspare
        exact hspare'.twins h.twins hspare
      · simp [h.keys, EngineCall.key]

/-- What is made of the answer to a call depends on nothing else. -/
theorem invoke_eq (host : Host) (limit : Option Nat) (command : Command) (directory : Path)
    (mode : ErrorStream) :
    ∃ (answer : Response → Run Finished) (verdict : Response → Except Failure Finished),
      (∀ w : World, ∃ w', w.Like w' ∧
        invoke host limit command directory mode w = (start host command directory >>= answer) w') ∧
      ∀ response, ∀ w : World,
        (answer response w).1 = verdict response ∧ w.Like (answer response w).2 := by
  refine ⟨_, fun response => if limit.isSome && response.late
      then .error (.timeout command.label (limit.getD 0)) else .ok (response.finished mode),
    fun w => ⟨w.tell ⟨.core, .debug, "exec " ++ command.display,
      [.plain "stage" command.label, .plain "cwd" directory.text]⟩, w.like_tell (by simp), rfl⟩,
    fun response w => ?_⟩
  cases limit with
  | none => exact ⟨rfl, .refl w⟩
  | some limit =>
      obtain ⟨actions, late, exit⟩ := response
      cases late with
      | false => exact ⟨rfl, .refl w⟩
      | true => exact ⟨rfl, w.like_tell (by simp)⟩

theorem bind_answer {α β : Type} (x : Run α) {answer : α → Run β}
    {verdict : α → Except Failure β}
    (h : ∀ a, ∀ w : World, (answer a w).1 = verdict a ∧ w.Like (answer a w).2) (w : World) :
    ((x >>= answer) w).1 = (x w).1.bind verdict ∧ (x w).2.Like ((x >>= answer) w).2 := by
  rw [Attempt.bind_apply]
  rcases x w with ⟨_ | a, w'⟩
  · exact ⟨rfl, .refl w'⟩
  · exact h a w'

theorem Abreast.call {command : Command} {mode : ErrorStream} (htame : Tame host s map left calls)
    (hlabel : command.label ≠ Setup.relationsLabel)
    (hprogram : command.program = s.toolchain.runtime) (h : Abreast host s dir calls held v w)
    (hstarts : v.disk = w.disk ∨ Starts s (programSlots dir) w.disk)
    (hleft : (Stage.call host s command mode v).2.calls <+: left)
    (hright : (Stage.call host s command mode w).2.calls <+: calls) :
    (Stage.call host s command mode v).1 = (Stage.call host s command mode w).1 ∧
      Abreast host s dir calls held (Stage.call host s command mode v).2
        (Stage.call host s command mode w).2 ∧
      ∀ a, (Stage.call host s command mode w).1 = .ok a →
        Passes s map (programSlots dir) (Stage.call host s command mode w).2.disk := by
  obtain ⟨answer, verdict, hinvoke, hanswer⟩ :=
    invoke_eq host s.config.timeLimit command s.root mode
  obtain ⟨v', hv', hv⟩ := hinvoke v
  obtain ⟨w', hw', hw⟩ := hinvoke w
  obtain ⟨hr, hend⟩ := bind_answer (Run.start host command s.root) hanswer v'
  obtain ⟨hr', hend'⟩ := bind_answer (Run.start host command s.root) hanswer w'
  unfold Stage.call at hleft hright ⊢
  rw [hv, hend.calls] at hleft
  rw [hw, hend'.calls] at hright
  rw [hv, hw, hr, hr', hend'.disk]
  obtain ⟨hsame, habreast, hpasses⟩ := (h.like hv' hw').start htame hlabel hprogram
    (by rwa [hv'.disk, hw'.disk]) hleft hright
  refine ⟨by rw [hsame], habreast.like hend hend', fun a ha => ?_⟩
  cases hresponse : (Run.start host command s.root w').1 with
  | error e =>
      rw [hresponse] at ha
      cases ha
  | ok response => exact hpasses response hresponse

theorem materialize_eq (path : Path) (text : String) (w : World) :
    ProgramFile.materialize path text w =
      match w.disk.write path (Text.encode text) with
      | .ok d => (.ok (), (w.withDisk d).tell (ProgramFile.note path))
      | .error e => (.error (.disk path e), w) := by
  unfold ProgramFile.materialize
  rw [Attempt.bind_apply]
  unfold Run.onDisk Disk.change
  dsimp only
  cases w.disk.write path (Text.encode text) <;> rfl

theorem note_inj {p q : Path} (h : ProgramFile.note p = ProgramFile.note q) : p = q := by
  cases p
  cases q
  simpa [ProgramFile.note, Log.Field.plain] using h

theorem div_name_inj {p : Path} {name name' : String} (hn : IsName name) (hn' : IsName name')
    (h : p / name = p / name') : name = name' := by
  have hend := congrArg (fun q => q.ending.2) h
  simp only [Path.ending_div p hn, Path.ending_div p hn'] at hend
  injection hend

theorem Keeps.old {name : String} (h : Keeps host s dir calls w name) :
    w.disk.tree.find (name :: dir) = none ∨
      ∃ data, w.disk.tree.find (name :: dir) = some (.file data Disk.newFileMode) := by
  rcases h with ⟨_, text, _, hfind⟩ | ⟨_, hnone⟩
  · exact Or.inr ⟨_, hfind⟩
  · exact Or.inl hnone

def materialized (w : World) (path : Path) (l : Location) (text : String) : World :=
  (w.withDisk (w.disk.put l (.file (Text.encode text) Disk.newFileMode))).tell
    (ProgramFile.note path)

theorem twins_materialized {name : String} (h : w.disk.tree.Slotted (programSlots dir))
    (hn : name ∈ programFiles) (path : Path) (text : String) :
    Disk.Twins (programSlots dir) w.disk (materialized w path (name :: dir) text).disk :=
  Disk.twins_put h (has_programSlots hn dir)

theorem find_materialized {name : String} (hn : IsName name)
    (hdir : w.disk.tree.isDirectory dir = true)
    (hplain : w.disk.tree.isDirectory (name :: dir) = false) (path : Path) (text : String)
    (k : Location) :
    (materialized w path (name :: dir) text).disk.tree.find k =
      if name :: dir = k then some (.file (Text.encode text) Disk.newFileMode)
      else w.disk.tree.find k :=
  Disk.find_put_of_isAside hn hdir hplain k

theorem Abreast.materialized {name text : String} (h : Abreast host s dir calls [] v w)
    (hwrites : Writes host s calls name text) :
    Abreast host s dir calls [name]
      (Stage.materialized v (s.workDir / name) (name :: dir) text)
      (Stage.materialized w (s.workDir / name) (name :: dir) text) := by
  have hn := hwrites.mem_programFiles
  have hfits := fits_programFiles name hn
  have hhas := has_programSlots hn dir
  have hput := twins_materialized h.twins.tree.slotted hn (s.workDir / name) text
  have hput' := twins_materialized h.twins.tree.slotted' hn (s.workDir / name) text
  have henters' := h.twins.enters h.enters
  have hfind := find_materialized hfits.1 h.enters.1 (h.twins.tree.slotted.isDirectory hhas)
    (s.workDir / name) text
  have hfind' := find_materialized hfits.1 henters'.1 (h.twins.tree.slotted'.isDirectory hhas)
    (s.workDir / name) text
  refine ⟨hput.symm.trans (h.twins.trans hput'), hput.enters h.enters, fun other ho => ?_,
    fun other ho => ?_, h.keys⟩
  · rw [hfind, hfind', h.tidy other ho]
    by_cases hname : other = name
    · simp [hname]
    · simp [hname, Ne.symm hname]
  · have hnoted : (Stage.materialized w (s.workDir / name) (name :: dir) text).Materialized
        (s.workDir / other) ↔ w.Materialized (s.workDir / other) ∨ other = name := by
      unfold Stage.materialized Materialized World.tell World.withDisk
      rw [List.mem_append, List.mem_singleton]
      refine or_congr_right ⟨fun hnote => ?_, fun hname => by rw [hname]⟩
      exact div_name_inj (fits_programFiles other ho).1 hfits.1 (note_inj hnote)
    unfold Keeps
    rw [hnoted, hfind]
    by_cases hname : other = name
    · subst hname
      exact Or.inl ⟨Or.inr rfl, text, hwrites, if_pos rfl⟩
    · rw [if_neg (by simpa using Ne.symm hname), or_iff_left hname]
      exact h.kept other ho

/-- Both programs are written, or neither is. -/
theorem Abreast.materialize {name text : String} (h : Abreast host s dir calls [] v w)
    (hwrites : Writes host s calls name text) :
    (∃ e, ProgramFile.materialize (s.workDir / name) text v = (.error e, v) ∧
      ProgramFile.materialize (s.workDir / name) text w = (.error e, w)) ∨
    (Disk.checkText (s.workDir / name) = .ok () ∧
      ProgramFile.materialize (s.workDir / name) text v =
        (.ok (), Stage.materialized v (s.workDir / name) (name :: dir) text) ∧
      ProgramFile.materialize (s.workDir / name) text w =
        (.ok (), Stage.materialized w (s.workDir / name) (name :: dir) text)) := by
  have hn := hwrites.mem_programFiles
  have hfits := fits_programFiles name hn
  have hnone : v.disk.tree.find (name :: dir) = none := (h.tidy name hn).trans (if_neg nofun)
  rw [materialize_eq, materialize_eq, Disk.write_div h.enters hfits (h.kept name hn).old,
    Disk.write_div (h.twins.enters h.enters) hfits (Or.inl hnone)]
  cases Disk.checkText (s.workDir / name) with
  | error e => exact Or.inl ⟨_, rfl, rfl⟩
  | ok => exact Or.inr ⟨rfl, rfl, rfl⟩

/-- The file that was held for a call is taken away in the one run and kept in the other. -/
theorem Abreast.release {name : String} (h : Abreast host s dir calls [name] v w)
    (hn : name ∈ programFiles) (hc : Disk.checkText (s.workDir / name) = .ok ()) :
    Abreast host s dir calls [] (ProgramFile.release (s.workDir / name) true v)
      (ProgramFile.release (s.workDir / name) false w) := by
  have hfits := fits_programFiles name hn
  have hhas := has_programSlots hn dir
  have henters := h.twins.enters h.enters
  have hlast := (Disk.resolveLast_div_iff hfits.1).2 ⟨hc, henters, rfl⟩
  have hplain := h.twins.tree.slotted'.isDirectory hhas
  have hother : ∀ other ∈ programFiles, other ≠ name → v.disk.tree.find (other :: dir) = none :=
    fun other ho hne => (h.tidy other ho).trans (if_neg (by simpa using hne))
  unfold ProgramFile.release
  simp only [↓reduceIte, Bool.false_eq_true]
  cases hfind : v.disk.tree.find (name :: dir) with
  | some e =>
      have he : e.isDirectory = false := (Tree.isDirectory_eq_of_find hfind).symm.trans hplain
      rw [Disk.unlink_eq hlast (Tree.child?_eq_ok_iff.2 ⟨henters.1, hfits.2, hfind⟩) he]
      refine ⟨h.twins.trans (Disk.twins_remove h.twins.tree.slotted' hhas), h.enters,
        fun other ho => ?_, h.kept, h.keys⟩
      change (v.disk.tree.remove (name :: dir)).find (other :: dir) = _
      rw [Tree.find_remove_of_not_directory hplain, if_neg (List.not_mem_nil)]
      split
      · rfl
      · next hne => exact hother other ho (by simpa using hne)
  | none =>
      have hfails : ∃ e, v.disk.unlink (s.workDir / name) = .error e := by
        cases hu : v.disk.unlink (s.workDir / name) with
        | error e => exact ⟨e, rfl⟩
        | ok d =>
            obtain ⟨_, _, _, hlast', hchild, _⟩ := Disk.unlink_cases hu
            cases hlast.symm.trans hlast'
            cases hfind.symm.trans (Tree.child?_eq_ok_iff.1 hchild).2.2
      obtain ⟨e, he⟩ := hfails
      rw [he]
      refine Abreast.like ?_ (v.like_tell (by simp)) (.refl w)
      refine ⟨h.twins, h.enters, fun other ho => ?_, h.kept, h.keys⟩
      rw [if_neg (List.not_mem_nil)]
      by_cases hname : other = name
      · rw [hname, hfind]
      · exact hother other ho hname

/-- A solver call is made alike, if there is one. -/
theorem Abreast.solve {label : String} {program : Path} {mode : ErrorStream}
    (htame : Tame host s map left calls) (hlabel : label ≠ Setup.relationsLabel)
    (h : Abreast host s dir calls held v w)
    (hstarts : v.disk = w.disk ∨ Starts s (programSlots dir) w.disk) {x : Run Finished}
    (hx : x = Attempt.ofExcept (s.solverCommand label program) >>= fun command =>
      Stage.call host s command mode)
    (hleft : (x v).2.calls <+: left) (hright : (x w).2.calls <+: calls) :
    (x v).1 = (x w).1 ∧ Abreast host s dir calls held (x v).2 (x w).2 ∧
      ∀ a, (x w).1 = .ok a → Passes s map (programSlots dir) (x w).2.disk := by
  cases hcommand : s.solverCommand label program with
  | error e =>
      rw [hcommand] at hx
      subst hx
      exact ⟨rfl, h, nofun⟩
  | ok command =>
      rw [hcommand] at hx
      subst hx
      have hlabel' := Setup.label_solverCommand hcommand
      exact h.call htame (hlabel' ▸ hlabel) (Setup.program_solverCommand hcommand) hstarts hleft hright

/-- A program is solved alike. -/
theorem Abreast.solveText {label name text : String} {mode : ErrorStream} {x y : Run Finished}
    (htame : Tame host s map left calls) (hlabel : label ≠ Setup.relationsLabel)
    (hwrites : Writes host s calls name text) (h : Abreast host s dir calls [] v w)
    (hstarts : v.disk = w.disk ∨ Starts s (programSlots dir) w.disk)
    (hx : x = Stage.solveText host (s.tidying true) label name text mode)
    (hy : y = Stage.solveText host (s.tidying false) label name text mode)
    (hleft : (x v).2.calls <+: left) (hright : (y w).2.calls <+: calls) :
    (x v).1 = (y w).1 ∧ Abreast host s dir calls [] (x v).2 (y w).2 ∧
      ∀ a, (y w).1 = .ok a → Passes s map (programSlots dir) (y w).2.disk := by
  have hn := hwrites.mem_programFiles
  have hduring : ∀ cleanup, Stage.solveText host (s.tidying cleanup) label name text mode =
      ProgramFile.during (s.workDir / name) text cleanup
        (Attempt.ofExcept (s.solverCommand label (s.workDir / name)) >>= fun command =>
          Stage.call host s command mode) := fun _ => rfl
  rw [hduring, ProgramFile.during] at hx hy
  subst hx hy
  rcases h.materialize hwrites with ⟨e, hv, hw⟩ | ⟨hc, hv, hw⟩
  · rw [Attempt.bind_error hv, Attempt.bind_error hw]
    exact ⟨rfl, h, nofun⟩
  · rw [Attempt.bind_ok hv] at hleft ⊢
    rw [Attempt.bind_ok hw] at hright ⊢
    unfold Attempt.ensuring at hleft hright ⊢
    dsimp only at hleft hright ⊢
    rw [(ProgramFile.release_eq _ _ _).2] at hleft hright
    have hput := twins_materialized h.twins.tree.slotted hn (s.workDir / name) text
    have hstarts' := hstarts.imp
      (congrArg fun d => d.put (name :: dir) (.file (Text.encode text) Disk.newFileMode))
      fun hstarts => hstarts.twins hput
    obtain ⟨hsame, hend, hpasses⟩ :=
      (h.materialized hwrites).solve htame hlabel hstarts' rfl hleft hright
    exact ⟨hsame, hend.release hn hc, hpasses⟩

theorem patchDomainFile_eq (path : Path) (bound : UInt64) (draws : List TemporaryName) (w : World) :
    patchDomainFile path bound draws w =
      match w.disk.readText path with
      | .error e => (.error (.disk path e), w)
      | .ok text =>
        if Domains.contextLines text = 0 then
          (.ok 0, w.tell ⟨.stages, .warn, "no VC domain line to patch", [.plain "file" path.text]⟩)
        else
          let done := WorkDir.writeAtomic path (Text.encode (Domains.patch bound text)) draws w.disk
          (done.1.map fun _ => Domains.contextLines text, w.withDisk done.2) := by
  unfold patchDomainFile
  have hlook : lookAtDisk (fun d => (d.readText path).mapError (.disk path)) w =
      ((w.disk.readText path).mapError (.disk path), w) := rfl
  cases htext : w.disk.readText path with
  | error e =>
      rw [htext] at hlook
      exact Attempt.bind_error hlook
  | ok text =>
      rw [htext] at hlook
      rw [Attempt.bind_ok hlook]
      dsimp only
      split
      · rfl
      · rcases hwrite :
          WorkDir.writeAtomic path (Text.encode (Domains.patch bound text)) draws w.disk with ⟨r, d⟩
        have hdisk :
            onDisk (WorkDir.writeAtomic path (Text.encode (Domains.patch bound text)) draws) w =
              (r, w.withDisk d) := by rw [onDisk, hwrite]
        cases r with
        | error e => exact Attempt.bind_error hdisk
        | ok => exact Attempt.bind_ok hdisk

/-- Where the domain file is replaced, it alone is another one. -/
theorem filed_writeAtomic {d d' : Disk} {contents : Bytes} {draws : List TemporaryName}
    (hdir : d.Enters s.workDir dir)
    (h : WorkDir.writeAtomic (s.workDir / Datalog.domainFile) contents draws d = (.ok (), d')) :
    Disk.Filed (Datalog.domainFile :: dir) d d' ∧
      (d.tree.IsAside (Datalog.domainFile :: dir) → d.KeepsWays d') := by
  obtain ⟨name, place, slash, mode, hlast, hplain, hfind, hstays, hways⟩ := WorkDir.writeAtomic_ok h
  obtain ⟨_, hplace, hend⟩ := (Disk.resolveLast_div_iff (by decide)).1 hlast
  cases hend
  cases hdir.unique hplace
  exact ⟨⟨⟨fun hk => (hfind _).trans (if_neg hk), ⟨contents, mode, (hfind _).trans (if_pos rfl)⟩,
    hplain⟩, hstays.1, hstays.2⟩, hways⟩

theorem spares_writeAtomic {d d' : Disk} {contents : Bytes} {draws : List TemporaryName}
    {r : Except Failure Unit} (hdir : d.Enters s.workDir dir)
    (h : WorkDir.writeAtomic (s.workDir / Datalog.domainFile) contents draws d = (r, d')) :
    Disk.Spares (programSlots dir) d d' := fun name hn => by
  cases r with
  | error e => rw [WorkDir.writeAtomic_error h]
  | ok =>
      have hno : Datalog.domainFile ∉ programFiles := by decide
      refine (filed_writeAtomic hdir h).1.tree.same fun hk => hno ?_
      exact (List.cons.inj hk).1 ▸ hn

/-- A file that can be read is on no way. -/
theorem isAside_of_readText {d : Disk} {p : Path} {name text : String} (hdir : d.Enters p dir)
    (hn : IsName name) (h : d.readText (p / name) = .ok text) : d.tree.IsAside (name :: dir) := by
  refine Disk.isAside_of_isFile hdir hn ?_
  obtain ⟨data, hread, _⟩ := bind_eq_ok_iff.1 h
  obtain ⟨e, he, hfile⟩ := bind_eq_ok_iff.1 hread
  unfold Disk.isFile
  rw [he]
  cases e with
  | file data mode => rfl
  | directory mode | link target => cases hfile

/-- Nothing that is looked up from now on comes to a program file, or no calls have been
made but the first ones and the disks are still the same. -/
def Ready (s : Setup) (map : Option MapRequest) (dir : Location) (first : Option (List EngineCall))
    (v w : World) : Prop :=
  v.disk = w.disk ∧ first = some w.calls ∨ Passes s map (programSlots dir) w.disk

variable {first : Option (List EngineCall)}

theorem Ready.starts (h : Ready s map dir first v w) :
    v.disk = w.disk ∨ Starts s (programSlots dir) w.disk :=
  h.imp And.left Passes.toStarts

theorem Ready.like (h : Ready s map dir first v w) (hv : v.Like v') (hw : w.Like w') :
    Ready s map dir first v' w' := by
  unfold Ready
  rwa [hv.disk, hw.disk, hw.calls]

def abreast (host : Host) (s : Setup) (map : Option MapRequest) (dir : Location)
    (first : Option (List EngineCall)) (left right : List EngineCall) : Coupling where
  rel := fun v w => Abreast host s dir right [] v w ∧ Ready s map dir first v w
  stop := Abreast host s dir right []
  left := left
  right := right
  stop_of_rel := And.left
  rel_like := fun ⟨h, hready⟩ hv hw => ⟨h.like hv hw, hready.like hv hw⟩
  stop_like := fun h hv hw => h.like hv hw

/-- The domain file is replaced alike. -/
theorem Abreast.writeAtomic {d d' : Disk} {contents : Bytes} {draws : List TemporaryName}
    {r r' : Except Failure Unit} (h : Abreast host s dir calls held v w)
    (hready : Ready s map dir first v w)
    (haside : w.disk.tree.IsAside (Datalog.domainFile :: dir))
    (hw : WorkDir.writeAtomic (s.workDir / Datalog.domainFile) contents draws w.disk = (r, d))
    (hv : WorkDir.writeAtomic (s.workDir / Datalog.domainFile) contents draws v.disk = (r', d')) :
    r' = r ∧ Abreast host s dir calls held (v.withDisk d') (w.withDisk d) ∧
      Ready s map dir first (v.withDisk d') (w.withDisk d) := by
  have hspares := spares_writeAtomic h.enters hw
  have hspares' := spares_writeAtomic (h.twins.enters h.enters) hv
  have hboth : r' = r ∧ Disk.Twins (programSlots dir) d d' := by
    rcases hready with ⟨heq, _⟩ | hpasses
    · rw [heq, hw] at hv
      cases hv
      exact ⟨rfl, .refl (hspares.slotted h.twins.tree.slotted)⟩
    · have htwins := WorkDir.twins_writeAtomic temporaryName_not_programFile h.twins h.enters
        (by decide) hpasses.domains contents draws
      rwa [hw, hv] at htwins
  obtain ⟨rfl, htwins⟩ := hboth
  have henters : d.Enters s.workDir dir := by
    cases r' with
    | error e => exact WorkDir.writeAtomic_error hw ▸ h.enters
    | ok => exact ((filed_writeAtomic h.enters hw).2 haside).enters h.enters
  refine ⟨rfl, h.step htwins henters hspares' hspares rfl h.keys, ?_⟩
  rcases hready with ⟨heq, hcalls⟩ | hpasses
  · rw [heq, hw] at hv
    cases hv
    exact Or.inl ⟨rfl, hcalls⟩
  · right
    cases r' with
    | error e => exact WorkDir.writeAtomic_error hw ▸ hpasses
    | ok =>
        have hfiled := (filed_writeAtomic h.enters hw).1
        exact hpasses.filed h.twins.tree.slotted h.enters.1 (by simp [Slots.has, programSlots]; decide)
          hfiled

theorem Abreast.patch (h : Abreast host s dir calls held v w) (hready : Ready s map dir first v w)
    (bound : UInt64) (draws : List TemporaryName) {x : Run Nat}
    (hx : x = patchDomainFile (s.workDir / Datalog.domainFile) bound draws) :
    (x v).1 = (x w).1 ∧ Abreast host s dir calls held (x v).2 (x w).2 ∧
      Ready s map dir first (x v).2 (x w).2 := by
  have hread : v.disk.readText (s.workDir / Datalog.domainFile) =
      w.disk.readText (s.workDir / Datalog.domainFile) := by
    rcases hready with ⟨heq, _⟩ | hpasses
    · rw [heq]
    · exact h.twins.readText hpasses.domains
  subst hx
  rw [patchDomainFile_eq, patchDomainFile_eq, hread]
  cases htext : w.disk.readText (s.workDir / Datalog.domainFile) with
  | error e => exact ⟨rfl, h, hready⟩
  | ok text =>
      dsimp only
      split
      · exact ⟨rfl, h.like (v.like_tell (by simp)) (w.like_tell (by simp)), hready⟩
      · obtain ⟨hr, hend, hready'⟩ := h.writeAtomic hready
          (isAside_of_readText h.enters (by decide) htext) (Prod.eta _).symm (Prod.eta _).symm
        exact ⟨by rw [hr], hend, hready'⟩

theorem couples_abreast (htame : Tame host s map left calls) (dir : Location)
    (first : Option (List EngineCall)) :
    Couples (abreast host s map dir first left calls) host s true false where
  call := fun {command mode} hlabel hprogram =>
    ⟨extends_invoke _ _ _ _ _, extends_invoke _ _ _ _ _, fun ⟨h, hready⟩ hleft hright => by
      obtain ⟨hsame, hend, hpasses⟩ := h.call htame hlabel hprogram hready.starts hleft hright
      exact ⟨ends_eq_iff.2 hsame, hend, fun a ha => ⟨hend, Or.inr (hpasses a (hsame ▸ ha))⟩⟩⟩
  solveText := fun {label name text mode} hlabel hwrites =>
    ⟨(follows_solveText _ _ _).later, (follows_solveText _ _ _).later,
      fun ⟨h, hready⟩ hleft hright => by
        obtain ⟨hsame, hend, hpasses⟩ :=
          h.solveText htame hlabel hwrites hready.starts rfl rfl hleft hright
        exact ⟨ends_eq_iff.2 hsame, hend, fun a ha => ⟨hend, Or.inr (hpasses a (hsame ▸ ha))⟩⟩⟩
  patch := fun bound =>
    ⟨(silent_patchDomainFile _ _ _).extends, (silent_patchDomainFile _ _ _).extends,
      fun ⟨h, hready⟩ _ _ => by
        obtain ⟨hsame, hend, hready'⟩ := h.patch hready bound _ rfl
        exact ⟨ends_eq_iff.2 hsame, hend, fun _ _ => ⟨hend, hready'⟩⟩⟩

theorem naming_eq (host : Host) (s : Setup) (request : MapRequest) :
    ∃ (answer : TupleMap.Mapped → Run Outcome) (verdict : TupleMap.Mapped → Except Failure Outcome),
      (naming request).run host s = (Run.onDisk (TupleMap.mapFiles (s.workDir.join request.tuples)
        (s.workDir.join request.names) (s.root.join request.dest)) >>= answer) ∧
      ∀ mapped, ∀ w : World,
        (answer mapped w).1 = verdict mapped ∧ w.Like (answer mapped w).2 := by
  refine ⟨_, fun mapped => .ok ⟨none, some (Decimal.text mapped.written ++ " names written to " ++
    (s.root.join request.dest).text)⟩, rfl, fun mapped w => ?_⟩
  dsimp only
  split
  · exact ⟨rfl, w.like_tell (by simp)⟩
  · exact ⟨rfl, .refl w⟩

/-- The file that is written is none of the program files. -/
theorem filed_mapFiles {slots : Slots} {d d' : Disk} {tuples names dest : Path}
    {r : Except Failure TupleMap.Mapped}
    (hfree : ∀ l, d.destination dest = .ok l → slots.has l = false)
    (h : TupleMap.mapFiles tuples names dest d = (r, d')) :
    d' = d ∨ ∃ l, slots.has l = false ∧ Disk.Filed l d d' ∧ d.KeepsWays d' := by
  rcases TupleMap.mapFiles_cases h with rfl | ⟨data, hwrite⟩
  · exact Or.inl rfl
  · obtain ⟨l, hl, hplain, hput⟩ := Disk.putsFile_write hwrite
    exact Or.inr ⟨l, hfree l hl, hput.filed hplain, hput.ways⟩

theorem spares_mapFiles {d d' : Disk} {tuples names dest : Path}
    {r : Except Failure TupleMap.Mapped}
    (hfree : ∀ l, d.destination dest = .ok l → (programSlots dir).has l = false)
    (h : TupleMap.mapFiles tuples names dest d = (r, d')) :
    Disk.Spares (programSlots dir) d d' := fun name hn => by
  rcases filed_mapFiles hfree h with rfl | ⟨l, hl, hfiled, _⟩
  · rfl
  · refine hfiled.tree.same ?_
    rintro rfl
    cases hl.symm.trans (has_programSlots hn dir)

theorem Abreast.mapFiles {request : MapRequest} {d d' : Disk}
    {r r' : Except Failure TupleMap.Mapped} (h : Abreast host s dir calls held v w)
    (hpasses : Passes s map (programSlots dir) w.disk) (hrequest : request ∈ map)
    (hw : TupleMap.mapFiles (s.workDir.join request.tuples) (s.workDir.join request.names)
      (s.root.join request.dest) w.disk = (r, d))
    (hv : TupleMap.mapFiles (s.workDir.join request.tuples) (s.workDir.join request.names)
      (s.root.join request.dest) v.disk = (r', d')) :
    r' = r ∧ Abreast host s dir calls held (v.withDisk d') (w.withDisk d) ∧
      Passes s map (programSlots dir) d := by
  obtain ⟨htuples, hnames, hdest⟩ := hpasses.files request hrequest
  obtain ⟨hr, htwins⟩ := h.twins.mapFiles htuples hnames hdest
  rw [hv, hw] at hr htwins
  rcases h.twins.destination (s.root.join request.dest) with ⟨_, hsame, hfree⟩ | ⟨hno, _⟩
  · have hspares := spares_mapFiles hfree hw
    have hspares' := spares_mapFiles (hsame ▸ hfree) hv
    rcases filed_mapFiles hfree hw with rfl | ⟨l, hl, hfiled, hways⟩
    · exact ⟨hr, h.step htwins h.enters hspares' hspares rfl h.keys, hpasses⟩
    · exact ⟨hr, h.step htwins (hways.enters h.enters) hspares' hspares rfl h.keys,
        hpasses.filed h.twins.tree.slotted h.enters.1 hl hfiled⟩
  · exact absurd hdest hno

/-- The last stage does the same in both runs. -/
theorem Abreast.naming {request : MapRequest} (h : Abreast host s dir calls held v w)
    (hpasses : Passes s map (programSlots dir) w.disk) (hrequest : request ∈ map) {x : Run Outcome}
    (hx : x = (Stage.naming request).run host s) :
    (x v).1 = (x w).1 ∧ Abreast host s dir calls held (x v).2 (x w).2 ∧
      Passes s map (programSlots dir) (x w).2.disk := by
  obtain ⟨answer, verdict, hrun, hanswer⟩ := naming_eq host s request
  rw [hrun] at hx
  subst hx
  obtain ⟨hr, hend, hpasses'⟩ :=
    h.mapFiles hpasses hrequest (Prod.eta _).symm (Prod.eta _).symm
  obtain ⟨hv, hv'⟩ := bind_answer (Run.onDisk _) hanswer v
  obtain ⟨hw, hw'⟩ := bind_answer (Run.onDisk _) hanswer w
  refine ⟨?_, hend.like hv' hw', by rw [hw'.disk]; exact hpasses'⟩
  rw [hv, hw]
  exact congrArg (·.bind verdict) hr

theorem mirrors_naming {request : MapRequest} (hrequest : request ∈ map) :
    Mirrors (abreast host s map dir none left calls) Eq ((Stage.naming request).run host s)
      ((Stage.naming request).run host s) where
  later := (silent_naming request).extends
  later' := (silent_naming request).extends
  same := fun ⟨h, hready⟩ _ _ => by
    obtain ⟨hsame, hend, hpasses⟩ := h.naming (hready.resolve_left nofun) hrequest rfl
    exact ⟨ends_eq_iff.2 hsame, hend, fun _ _ => ⟨hend, Or.inr hpasses⟩⟩

end Abreast
end Stage
end PointsTo
