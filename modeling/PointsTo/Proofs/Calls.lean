import PointsTo.Plan
import PointsTo.Proofs.WorkDir

/-!
The engine calls of a run. A call starts with the disk that the run has at that
moment, and the run goes on with the disk that the engine leaves. A program file is
there for the length of its call.
-/

namespace PointsTo

/-- A setup that says no more than where to work. -/
def Setup.working (root workDir : Path) : Setup where
  toolchain := ⟨⟨"/engine"⟩, ⟨"/engine/pql.jar"⟩, ⟨"/engine/jline.jar"⟩, ⟨"/java"⟩, []⟩
  config := (RunConfig.new root).withWorkDir workDir
  runId := "run"

theorem Setup.workDir_working (root workDir : Path) :
    (Setup.working root workDir).workDir = root.join workDir := rfl

def Setup.usual : Setup :=
  .working ⟨"/run"⟩ ⟨"results"⟩

namespace Disk

def released (d : Disk) (path : Path) (cleanup : Bool) : Disk :=
  if cleanup then d.attempt (d.unlink path) else d

theorem resolve_of_checkStart {d : Disk} {image : Bytes} {command : Command} {directory : Path}
    {l : Location} (h : d.checkStart image command directory = .ok l) :
    d.resolve directory = .ok l ∧ d.tree.isDirectory l = true := by
  unfold checkStart at h
  split at h
  · cases h
  · obtain ⟨l', hl, h⟩ := bind_eq_ok_iff.1 h
    dsimp only at h
    split at h
    · cases h
    · next hdir =>
      obtain ⟨_, _, h⟩ := bind_eq_ok_iff.1 h
      cases h
      exact ⟨hl, by simpa using hdir⟩

end Disk

namespace World

structure Called (host : Host) (w w' : World) (call : EngineCall) : Prop where
  disk : call.disk = w.disk
  directory : w.disk.tree.isDirectory call.directory = true
  calls : w'.calls = w.calls ++ [call]
  ended : w'.disk = (host.engine.respond w.calls call).finalDisk call

end World

namespace Run

variable {host : Host} {limit : Option Nat} {command : Command} {directory : Path}
  {mode : ErrorStream} {w w' : World}

theorem start_cases {r : Except Failure Response} (h : start host command directory w = (r, w')) :
    (∃ fault, r = .error (.invocation command.label command.program fault) ∧ w' = w) ∨
    ∃ call, World.Called host w w' call ∧ call.label = command.label ∧
      w.disk.resolve directory = .ok call.directory ∧
      r = .ok (host.engine.respond w.calls call) := by
  unfold start at h
  split at h
  · next fault _ =>
    cases h
    exact Or.inl ⟨fault, rfl, rfl⟩
  · next l hl =>
    cases h
    exact Or.inr ⟨⟨command.label, command.program, command.args, l, w.disk⟩,
      ⟨rfl, (Disk.resolve_of_checkStart hl).2, rfl, rfl⟩, rfl, (Disk.resolve_of_checkStart hl).1, rfl⟩

/-- Either the call could not be started and nothing happened, or it was made, and
its answer is what it left or, past the limit, a timeout. -/
theorem invoke_cases {r : Except Failure Finished}
    (h : invoke host limit command directory mode w = (r, w')) :
    ((∃ e, r = .error e) ∧ w'.disk = w.disk ∧ w'.calls = w.calls) ∨
    ∃ call, World.Called host w w' call ∧ call.label = command.label ∧
      w.disk.resolve directory = .ok call.directory ∧
      (r = .ok ((host.engine.respond w.calls call).finished mode) ∨
        (limit ≠ none ∧ (host.engine.respond w.calls call).late = true ∧ ∃ e, r = .error e)) := by
  unfold invoke at h
  rcases Attempt.bind_cases h with ⟨_, w₁, htell, h₁⟩ | ⟨e, htell, _⟩
  · obtain ⟨_, hdisk, hcalls⟩ := tell_cases htell
    rcases Attempt.bind_cases h₁ with ⟨response, w₂, hstart, h₂⟩ | ⟨e, hstart, rfl⟩
    · rcases start_cases hstart with ⟨_, hr, _⟩ | ⟨call, hcalled, hlabel, hdir, hr⟩
      · cases hr
      · cases hr
        rw [hdisk] at hdir
        have hcalled' : World.Called host w w₂ call :=
          ⟨hcalled.disk.trans hdisk, hdisk ▸ hcalled.directory, by rw [hcalled.calls, hcalls],
            by rw [hcalled.ended, hcalls]⟩
        rw [hcalls] at h₂
        cases limit with
        | none =>
            cases h₂
            exact Or.inr ⟨call, hcalled', hlabel, hdir, Or.inl rfl⟩
        | some n =>
            cases hlate : (host.engine.respond w.calls call).late with
            | false =>
                rw [hlate] at h₂
                cases h₂
                exact Or.inr ⟨call, hcalled', hlabel, hdir, Or.inl rfl⟩
            | true =>
                rw [hlate] at h₂
                rcases Attempt.bind_cases h₂ with ⟨_, w₃, hkill, h₃⟩ | ⟨e, hkill, _⟩
                · cases h₃
                  obtain ⟨_, hd, hc⟩ := tell_cases hkill
                  refine Or.inr ⟨call, ⟨hcalled'.disk, hcalled'.directory, ?_, ?_⟩, hlabel, hdir, ?_⟩
                  · exact hc.trans hcalled'.calls
                  · exact hd.trans hcalled'.ended
                  · exact Or.inr ⟨nofun, hlate, _, rfl⟩
                · cases (tell_cases hkill).1
    · rcases start_cases hstart with ⟨fault, _, rfl⟩ | ⟨call, _, _, _, hr⟩
      · exact Or.inl ⟨⟨e, rfl⟩, hdisk, hcalls⟩
      · cases hr
  · cases (tell_cases htell).1

end Run

namespace Setup

variable {s : Setup} {c : Command}

theorem label_classPath {c c' : Command} {entries : List Path}
    (h : c.classPath entries = .ok c') : c'.label = c.label ∧ c'.program = c.program := by
  unfold Command.classPath at h
  split at h
  · cases h
    exact ⟨rfl, rfl⟩
  · cases h

theorem label_properties (c : Command) (properties : List (String × String)) :
    let c' := properties.foldl (fun c (key, value) => c.property key value) c
    c'.label = c.label ∧ c'.program = c.program := by
  induction properties generalizing c with
  | nil => exact ⟨rfl, rfl⟩
  | cons x properties ih => exact ih _

theorem label_arg (c : Command) (a : String) :
    (c.arg a).label = c.label ∧ (c.arg a).program = c.program :=
  ⟨rfl, rfl⟩

theorem heads_solverCommand {label : String} {program : Path}
    (h : s.solverCommand label program = .ok c) :
    c.label = label ∧ c.program = s.toolchain.runtime := by
  obtain ⟨c', hc, h⟩ := bind_eq_ok_iff.1 h
  obtain ⟨hlabel, hprogram⟩ := label_classPath hc
  obtain ⟨hlabel', hprogram'⟩ := label_properties
    ((c'.arg ("-mx" ++ s.config.tuning.maxHeap)).dirProperty "basedir" s.workDir)
    s.config.tuning.solverProperties
  rw [← Except.ok.inj h, (label_arg _ _).1, (label_arg _ _).1, (label_arg _ _).2,
    (label_arg _ _).2, hlabel', hprogram']
  exact ⟨hlabel, hprogram⟩

theorem label_solverCommand {label : String} {program : Path}
    (h : s.solverCommand label program = .ok c) : c.label = label :=
  (heads_solverCommand h).1

theorem program_solverCommand {label : String} {program : Path}
    (h : s.solverCommand label program = .ok c) : c.program = s.toolchain.runtime :=
  (heads_solverCommand h).2

theorem label_dumpCommand {entryPoint : String} (h : s.dumpCommand entryPoint = .ok c) :
    c.label = relationsLabel := by
  obtain ⟨c', hc, h⟩ := bind_eq_ok_iff.1 h
  cases h
  exact (label_classPath hc).1

theorem label_equivalenceCommand (h : s.equivalenceCommand = .ok c) : c.label = relationsLabel := by
  obtain ⟨c', hc, h⟩ := bind_eq_ok_iff.1 h
  cases h
  exact (label_classPath hc).1

theorem label_generatorCommand {query : Path} (h : s.generatorCommand query = .ok c) :
    c.label = queryLabel := by
  obtain ⟨c', hc, h⟩ := bind_eq_ok_iff.1 h
  cases h
  exact (label_classPath hc).1

theorem program_generatorCommand {query : Path} (h : s.generatorCommand query = .ok c) :
    c.program = s.toolchain.runtime := by
  obtain ⟨c', hc, h⟩ := bind_eq_ok_iff.1 h
  cases h
  exact (label_classPath hc).2

end Setup

namespace ProgramFile

variable {path : Path} {text : String} {w w' : World}

theorem materialize_cases {r : Except Failure Unit} (h : materialize path text w = (r, w')) :
    ((∃ e, r = .error e) ∧ w'.disk = w.disk ∧ w'.calls = w.calls) ∨
    (r = .ok () ∧ w.disk.write path (Text.encode text) = .ok w'.disk ∧ w'.calls = w.calls) := by
  unfold materialize at h
  rcases Attempt.bind_cases h with ⟨_, w₁, hwrite, h₁⟩ | ⟨e, hwrite, rfl⟩
  · obtain ⟨hr, hdisk, hcalls⟩ := Run.tell_cases h₁
    obtain ⟨hchange, hcalls'⟩ := Run.onDisk_cases hwrite
    rcases Disk.change_cases hchange with ⟨_, hw⟩ | ⟨_, _, he, _⟩
    · exact Or.inr ⟨hr, by rw [hdisk, ← hw], hcalls.trans hcalls'⟩
    · cases he
  · obtain ⟨hchange, hcalls⟩ := Run.onDisk_cases hwrite
    rcases Disk.change_cases hchange with ⟨he, _⟩ | ⟨_, _, _, hdisk⟩
    · cases he
    · exact Or.inl ⟨⟨e, rfl⟩, hdisk, hcalls⟩

theorem release_eq (path : Path) (cleanup : Bool) (w : World) :
    (release path cleanup w).disk = w.disk.released path cleanup ∧
      (release path cleanup w).calls = w.calls := by
  unfold release Disk.released Disk.attempt
  cases cleanup with
  | false => exact ⟨rfl, rfl⟩
  | true =>
      simp only [↓reduceIte]
      cases w.disk.unlink path <;> exact ⟨rfl, rfl⟩

end ProgramFile

namespace Stage

variable {host : Host} {s : Setup} {label fileName text : String} {mode : ErrorStream}
  {w w' : World} {r : Except Failure Finished}

/-- A command that may not be there, and the call of it. -/
theorem call_cases {command : Except Failure Command}
    (hlabel : ∀ c, command = .ok c → c.label = label)
    (h : (Attempt.ofExcept command >>= fun c => call host s c mode : Run Finished) w = (r, w')) :
    ((∃ e, r = .error e) ∧ w'.disk = w.disk ∧ w'.calls = w.calls) ∨
    ∃ call, World.Called host w w' call ∧ call.label = label ∧
      w.disk.resolve s.root = .ok call.directory ∧
      (r = .ok ((host.engine.respond w.calls call).finished mode) ∨
        s.config.timeLimit ≠ none ∧ (host.engine.respond w.calls call).late = true ∧
          ∃ e, r = .error e) := by
  rcases Attempt.bind_cases h with ⟨c, w₁, hc, h₁⟩ | ⟨e, hc, rfl⟩
  · obtain ⟨hcommand, rfl⟩ := Attempt.ofExcept_cases hc
    rcases Run.invoke_cases h₁ with hnone | ⟨call, hcalled, hname, hdir, hr⟩
    · exact Or.inl hnone
    · exact Or.inr ⟨call, hcalled, hname.trans (hlabel c hcommand), hdir, hr⟩
  · obtain ⟨_, rfl⟩ := Attempt.ofExcept_cases hc
    exact Or.inl ⟨⟨e, rfl⟩, rfl, rfl⟩

/-- The program file is written, the engine is called with it, and the file is
released. Any of this may fail, and what was done before then stays. -/
theorem solveText_cases (h : solveText host s label fileName text mode w = (r, w')) :
    ((∃ e, r = .error e) ∧ w'.disk = w.disk ∧ w'.calls = w.calls) ∨
    ∃ written, w.disk.write (s.workDir / fileName) (Text.encode text) = .ok written ∧
      (((∃ e, r = .error e) ∧ w'.calls = w.calls ∧
        w'.disk = written.released (s.workDir / fileName) s.config.cleanup) ∨
      ∃ call, call.disk = written ∧ call.label = label ∧
        written.resolve s.root = .ok call.directory ∧ w'.calls = w.calls ++ [call] ∧
        w'.disk = ((host.engine.respond w.calls call).finalDisk call).released
          (s.workDir / fileName) s.config.cleanup ∧
        (r = .ok ((host.engine.respond w.calls call).finished mode) ∨
          s.config.timeLimit ≠ none ∧ (host.engine.respond w.calls call).late = true ∧
            ∃ e, r = .error e)) := by
  unfold solveText ProgramFile.during at h
  rcases Attempt.bind_cases h with ⟨_, w₁, hwrite, h₁⟩ | ⟨e, hwrite, rfl⟩
  · rcases ProgramFile.materialize_cases hwrite with ⟨⟨_, hr⟩, _⟩ | ⟨_, hwritten, hcalls⟩
    · cases hr
    · refine Or.inr ⟨w₁.disk, hwritten, ?_⟩
      obtain ⟨w₂, h₂, rfl⟩ := Attempt.ensuring_cases h₁
      obtain ⟨hdisk, hcalls'⟩ :=
        ProgramFile.release_eq (s.workDir / fileName) s.config.cleanup w₂
      rw [hdisk, hcalls', ← hcalls]
      rcases call_cases (fun _ => Setup.label_solverCommand) h₂ with
        ⟨hr, hd, hc⟩ | ⟨call, hcalled, hlabel, hdir, hr⟩
      · exact Or.inl ⟨hr, hc, by rw [hd]⟩
      · exact Or.inr ⟨call, hcalled.disk, hlabel, hdir, hcalled.calls, by rw [hcalled.ended], hr⟩
  · rcases ProgramFile.materialize_cases hwrite with ⟨_, hdisk, hcalls⟩ | ⟨hr, _⟩
    · exact Or.inl ⟨⟨e, rfl⟩, hdisk, hcalls⟩
    · cases hr

theorem checkExit_cases {f : Finished} {r : Except Failure Unit}
    (h : checkExit s label f w = (r, w')) : w'.disk = w.disk ∧ w'.calls = w.calls := by
  unfold checkExit at h
  split at h
  · cases h
    exact ⟨rfl, rfl⟩
  · split at h
    · cases h
      exact ⟨rfl, rfl⟩
    · exact (Run.tell_cases h).2

end Stage

namespace World

def Adds (P : EngineCall → Prop) (w w' : World) : Prop :=
  ∃ new, w'.calls = w.calls ++ new ∧ ∀ c ∈ new, P c

theorem adds_chains (P : EngineCall → Prop) : Chains (Adds P) where
  same := fun _ hc => ⟨[], by simp [hc], nofun⟩
  trans := fun u v w ⟨new, hv, hnew⟩ ⟨new', hw, hnew'⟩ =>
    ⟨new ++ new', by rw [hw, hv, List.append_assoc], by
      intro c hc
      rcases List.mem_append.1 hc with hc | hc
      · exact hnew c hc
      · exact hnew' c hc⟩

end World

namespace TupleMap

theorem mapFiles_cases {tuples names dest : Path} {d d' : Disk} {r : Except Failure Mapped}
    (h : mapFiles tuples names dest d = (r, d')) :
    d' = d ∨ ∃ data, d.write dest data = .ok d' := by
  unfold mapFiles at h
  rcases Attempt.bind_cases h with ⟨_, d₁, hnames, h₁⟩ | ⟨e, hnames, _⟩
  · obtain rfl : d = d₁ := (Prod.mk.inj hnames).2
    rcases Attempt.bind_cases h₁ with ⟨_, d₂, htuples, h₂⟩ | ⟨e, htuples, _⟩
    · obtain rfl : d = d₂ := (Prod.mk.inj htuples).2
      rcases Attempt.bind_cases h₂ with ⟨mapped, d₃, hmapped, h₃⟩ | ⟨e, hmapped, _⟩
      · obtain rfl : d₃ = d := (Attempt.ofExcept_cases hmapped).2
        rcases Attempt.bind_cases h₃ with ⟨_, d₄, hwrite, h₄⟩ | ⟨e, hwrite, _⟩
        · cases h₄
          rcases Disk.change_cases hwrite with ⟨_, hw⟩ | ⟨_, _, _, rfl⟩
          · exact Or.inr ⟨_, hw⟩
          · exact Or.inl rfl
        · rcases Disk.change_cases hwrite with ⟨_, hw⟩ | ⟨_, _, _, rfl⟩
          · exact Or.inr ⟨_, hw⟩
          · exact Or.inl rfl
      · exact Or.inl (Attempt.ofExcept_cases hmapped).2
    · exact Or.inl (Prod.mk.inj htuples).2.symm
  · exact Or.inl (Prod.mk.inj hnames).2.symm

end TupleMap

namespace Stage

/-- Naming writes one file or none. -/
theorem naming_cases {host : Host} {s : Setup} {request : MapRequest} {w w' : World}
    {r : Except Failure Outcome} (h : (naming request).run host s w = (r, w')) :
    w'.calls = w.calls ∧ (w'.disk = w.disk ∨
      ∃ data, w.disk.write (s.root.join request.dest) data = .ok w'.disk) := by
  have hmapped : ∀ {r w₁}, Run.onDisk (TupleMap.mapFiles (s.workDir.join request.tuples)
      (s.workDir.join request.names) (s.root.join request.dest)) w = (r, w₁) →
      w₁.calls = w.calls ∧ (w₁.disk = w.disk ∨
        ∃ data, w.disk.write (s.root.join request.dest) data = .ok w₁.disk) := fun hmap => by
    obtain ⟨hdisk, hcalls⟩ := Run.onDisk_cases hmap
    exact ⟨hcalls, TupleMap.mapFiles_cases hdisk⟩
  rcases Attempt.bind_cases h with ⟨mapped, w₁, hmap, h₁⟩ | ⟨e, hmap, _⟩
  · dsimp only at h₁
    split at h₁
    · rcases Attempt.bind_cases h₁ with ⟨_, w₂, htell, h₂⟩ | ⟨e, htell, _⟩
      · cases h₂
        obtain ⟨_, hdisk, hcalls⟩ := Run.tell_cases htell
        rw [hdisk, hcalls]
        exact hmapped hmap
      · cases (Run.tell_cases htell).1
    · cases h₁
      exact hmapped hmap
  · exact hmapped hmap

def programFiles : List String :=
  [probeFile, numberingFile, dumpTypesFile, compiledFile]

/-- A relation that holds of each thing that a stage does once the working directory
is prepared. The labels of engine calls may be restricted. -/
structure Respects (host : Host) (s : Setup) (P : String → Prop) (R : World → World → Prop) :
    Prop extends World.Chains R where
  call : ∀ {w w' call}, World.Called host w w' call → P call.label →
    w.disk.resolve s.root = .ok call.directory → R w w'
  write : ∀ {name}, name ∈ programFiles → ∀ {w data d},
    w.disk.write (s.workDir / name) data = .ok d → R w (w.withDisk d)
  unlink : ∀ {name}, name ∈ programFiles → ∀ {w d},
    w.disk.unlink (s.workDir / name) = .ok d → R w (w.withDisk d)
  domains : ∀ w contents draws,
    R w (w.withDisk (WorkDir.writeAtomic (s.workDir / Datalog.domainFile) contents draws w.disk).2)
  gather : ∀ {w w' call}, World.Called host w w' call → call.label = Setup.relationsLabel →
    (∃ first ∈ w.calls, first.label = Setup.relationsLabel) → P Setup.relationsLabel →
    R w' (w'.withDisk (WorkDir.moveFiles s.root mapStart s.workDir w'.disk).2)
  rename : ∀ w, w.calls ≠ [] → R w (w.withDisk (renameFiles s.workDir renames w.disk).2)

section Respects

variable {host : Host} {s : Setup} {P : String → Prop} {R : World → World → Prop}
  {label : String} (hR : Respects host s P R)

include hR

theorem Respects.released {name : String} (hn : name ∈ programFiles) (w : World) :
    R w (ProgramFile.release (s.workDir / name) s.config.cleanup w) := by
  unfold ProgramFile.release
  split
  · split
    · next hu => exact hR.unlink hn hu
    · exact hR.same rfl rfl
  · exact hR.same rfl rfl

theorem Respects.keeps_call {mode : ErrorStream} {command : Except Failure Command}
    (hlabel : ∀ c, command = .ok c → c.label = label) (hP : P label) :
    (Attempt.ofExcept command >>= fun c => Stage.call host s c mode : Run Finished).Keeps R := by
  intro w
  rcases call_cases hlabel (Prod.eta _).symm with ⟨_, hd, hc⟩ | ⟨call, hcalled, hl, hdir, _⟩
  · exact hR.same hd hc
  · exact hR.call hcalled (hl ▸ hP) hdir

theorem Respects.keeps_call_bind {β : Type} {mode : ErrorStream} {command : Except Failure Command}
    {f : Finished → Run β} (hlabel : ∀ c, command = .ok c → c.label = label) (hP : P label)
    (hf : ∀ x, (f x).Keeps R) :
    (Attempt.ofExcept command >>= fun c => Stage.call host s c mode >>= f : Run β).Keeps R := by
  rw [← bind_assoc]
  exact Run.keeps_bind hR.toChains (hR.keeps_call hlabel hP) hf

/-- What follows the call may rely on it. -/
theorem Respects.keeps_call_then {β : Type} {mode : ErrorStream} {command : Except Failure Command}
    {f : Finished → Run β} {w : World} (hlabel : ∀ c, command = .ok c → c.label = label)
    (hP : P label)
    (hf : ∀ x {w' call}, World.Called host w w' call → call.label = label → R w' (f x w').2) :
    R w ((Attempt.ofExcept command >>= fun c => Stage.call host s c mode >>= f : Run β) w).2 := by
  rw [← bind_assoc]
  refine Run.keeps_bind_at hR.toChains (hR.keeps_call hlabel hP w) fun x w' hx => ?_
  rcases call_cases hlabel hx with ⟨⟨_, he⟩, _⟩ | ⟨call, hcalled, hl, _⟩
  · cases he
  · exact hf x hcalled hl

theorem Respects.keeps_solveText {fileName text : String} {mode : ErrorStream}
    (hn : fileName ∈ programFiles) (hP : P label) :
    (solveText host s label fileName text mode).Keeps R := by
  refine Run.keeps_bind hR.toChains (fun w => ?_) fun _ => ?_
  · rcases hrun : ProgramFile.materialize (s.workDir / fileName) text w with ⟨r, w'⟩
    rcases ProgramFile.materialize_cases hrun with ⟨_, hd, hc⟩ | ⟨_, hw, hc⟩
    · exact hR.same hd hc
    · exact hR.trans _ _ _ (hR.write hn hw) (hR.same rfl hc)
  · exact (hR.keeps_call (fun _ => Setup.label_solverCommand) hP).ensuring hR.trans (hR.released hn)

theorem Respects.keeps_checkExit (label : String) (f : Finished) :
    (checkExit s label f).Keeps R := fun _ =>
  have h := checkExit_cases (Prod.eta _).symm
  hR.same h.1 h.2

theorem keeps_number (hP : P numberLabel) : (number.run host s).Keeps R := by
  have hc := hR.toChains
  refine Run.keeps_bind hc (hR.keeps_solveText (by decide) hP) fun f => ?_
  exact Run.keeps_bind hc (hR.keeps_checkExit _ f) fun _ => Run.keeps_pure hc _

theorem keeps_solve (program : Path) (hP : P solveLabel) :
    ((solve program).run host s).Keeps R := by
  have hc := hR.toChains
  refine Run.keeps_bind hc (Run.keeps_tell hc _ _ _ _) fun _ => ?_
  refine hR.keeps_call_bind (fun _ => Setup.label_solverCommand) hP fun f => ?_
  exact Run.keeps_bind hc (hR.keeps_checkExit _ f) fun _ => Run.keeps_pure hc _

theorem Respects.keeps_patchDomainFile (bound : UInt64) (draws : List TemporaryName) :
    (patchDomainFile (s.workDir / Datalog.domainFile) bound draws).Keeps R := by
  have hc := hR.toChains
  refine Run.keeps_bind hc (Run.keeps_lookAtDisk hc _) fun text => ?_
  dsimp only
  split
  · exact Run.keeps_bind hc (Run.keeps_tell hc _ _ _ _) fun _ => Run.keeps_pure hc _
  · exact Run.keeps_bind hc (fun w => hR.domains w _ draws) fun _ => Run.keeps_pure hc _

theorem Respects.keeps_applyCount (counted : PathCount) :
    (applyCount host s counted).Keeps R := by
  have hc := hR.toChains
  cases counted with
  | absent => exact Run.keeps_bind hc (Run.keeps_tell hc _ _ _ _) fun _ => Run.keeps_pure hc _
  | found n =>
      refine Run.keeps_bind hc (Run.keeps_tell hc _ _ _ _) fun _ => ?_
      exact Run.keeps_bind hc (hR.keeps_patchDomainFile n _) fun _ => Run.keeps_pure hc _

theorem keeps_count (hP : P countLabel) : (count.run host s).Keeps R := by
  have hc := hR.toChains
  refine Run.keeps_bind hc (hR.keeps_solveText (by decide) hP) fun f => ?_
  refine Run.keeps_bind hc (Run.keeps_ofExcept hc _) fun counted => ?_
  exact Run.keeps_bind hc (hR.keeps_applyCount counted) fun _ => Run.keeps_pure hc _

/-- The stage begins with making the working directory, where it is missing. -/
theorem keeps_relations (entryPoint : String) (hP : P Setup.relationsLabel) {w : World}
    (hmake : R w (w.withDisk (w.disk.makeDirectories s.workDir).2)) :
    R w ((relations entryPoint).run host s w).2 := by
  have hc := hR.toChains
  refine Run.keeps_bind_at hc ?_ fun _ w₀ _ => ?_
  · have hd := Disk.eq_of_changePartly (Prod.eta
      (Disk.changePartly s.workDir (·.makeDirectories s.workDir) w.disk)).symm
    change R w (w.withDisk (Disk.changePartly s.workDir (·.makeDirectories s.workDir) w.disk).2)
    rw [hd]
    exact hmake
  · refine Run.keeps_bind hc (Run.keeps_tell hc _ _ _ _) (fun _ => ?_) w₀
    intro w
    refine hR.keeps_call_then (fun _ => Setup.label_dumpCommand) hP
      fun dump {w' first} hfirst hfirstLabel => ?_
    refine Run.keeps_bind_at hc (hR.same rfl rfl) fun _ _ hok => ?_
    obtain ⟨_, rfl⟩ := Attempt.ofExcept_cases hok
    refine Run.keeps_bind_at hc (hR.same rfl rfl) fun _ w₁ htold => ?_
    have hmem : ∃ first ∈ w₁.calls, first.label = Setup.relationsLabel := by
      rw [(Run.tell_cases htold).2.2, hfirst.calls]
      exact ⟨first, by simp, hfirstLabel⟩
    refine hR.keeps_call_then (fun _ => Setup.label_equivalenceCommand) hP
      fun equivalence {w call} hcalled hlabel => ?_
    refine Run.keeps_bind_at hc (hR.same rfl rfl) fun _ _ hok => ?_
    obtain ⟨_, rfl⟩ := Attempt.ofExcept_cases hok
    refine Run.keeps_bind_at hc (hR.gather hcalled hlabel hmem hP) fun moved w₁ hmoved => ?_
    refine Run.keeps_bind_at hc (hR.same rfl rfl) fun _ w₂ htold => ?_
    refine Run.keeps_bind_at hc (hR.same rfl rfl) fun _ w₃ htold' => ?_
    have hcalls : w₃.calls ≠ [] := by
      rw [(Run.tell_cases htold').2.2, (Run.tell_cases htold).2.2, (Run.onDisk_cases hmoved).2,
        hcalled.calls]
      simp
    exact Run.keeps_bind_at hc (hR.rename w₃ hcalls) fun _ _ _ => Run.keeps_pure hc _ _

theorem Respects.keeps_compileQuery (program : Path) (hP : P Setup.queryLabel) :
    (compileQuery host s program).Keeps R := by
  have hc := hR.toChains
  refine Run.keeps_bind hc (Run.keeps_tell hc _ _ _ _) fun _ => ?_
  refine hR.keeps_call_bind (fun _ => Setup.label_generatorCommand) hP fun f => ?_
  have hrest : ((Attempt.ofExcept (f.requireSuccess Setup.queryLabel) >>= fun _ =>
      pure f.outputText : Run String)).Keeps R :=
    Run.keeps_bind hc (Run.keeps_ofExcept hc _) fun _ => Run.keeps_pure hc _
  dsimp only
  split
  · exact Run.keeps_bind hc (Run.keeps_tell hc _ _ _ _) fun _ => hrest
  · exact hrest

theorem keeps_query (program : Path) (hP : P Setup.queryLabel) :
    ((query program).run host s).Keeps R := by
  have hc := hR.toChains
  refine Run.keeps_bind hc (hR.keeps_solveText (by decide) hP) fun types => ?_
  refine Run.keeps_bind hc (hR.keeps_checkExit _ types) fun _ => ?_
  refine Run.keeps_bind hc (hR.keeps_compileQuery program hP) fun compiled => ?_
  refine Run.keeps_bind hc (hR.keeps_solveText (by decide) hP) fun f => ?_
  exact Run.keeps_bind hc (hR.keeps_checkExit _ f) fun _ => Run.keeps_pure hc _

theorem keeps_naming (request : MapRequest)
    (hwrite : ∀ {w data d}, w.disk.write (s.root.join request.dest) data = .ok d →
      R w (w.withDisk d)) : ((naming request).run host s).Keeps R := by
  intro w
  rcases hrun : (naming request).run host s w with ⟨r, w'⟩
  obtain ⟨hcalls, hd | ⟨data, hd⟩⟩ := naming_cases hrun
  · exact hR.same hd hcalls
  · exact hR.trans _ _ _ (hwrite hd) (hR.same rfl hcalls)

end Respects
end Stage
end PointsTo
