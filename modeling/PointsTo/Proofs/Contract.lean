import PointsTo.Program
import PointsTo.Proofs.Account
import PointsTo.Proofs.Untouched

/-!
What the program promises to those who call it. The exit status tells whether the run
went through. If it did, the output of the analysis has been printed and the report is
in its place; if it failed on the way, nothing is printed as output and no report of it
appears.
-/

namespace PointsTo

namespace Path

theorem isAbsolute_join {p : Path} (h : p.isAbsolute = true) (q : Path) :
    (p.join q).isAbsolute = true := by
  rw [isAbsolute_join_eq, h, Bool.true_or]

end Path

namespace Session

open Runner Stage

variable {host : Host} {s : Setup} {p : Plan} {c : Completed} {e : Failure} {w w' : World}

def opening (s : Setup) (p : Plan) : Log.Event :=
  ⟨.session, .info, "running " ++ p.pipelineId, [.plain "run_id" s.runId]⟩

/-- The run root is the current directory. -/
theorem prepare_ok {around : Surroundings} {r : Request} (h : prepare around r w = (.ok s, w')) :
    w.Alike w' ∧ s.root = w'.disk.cwd.toPath ∧ s.workDir = s.root.join r.workDir := by
  unfold prepare at h
  split at h
  · cases h
  · next toolchain w₁ htool =>
    obtain ⟨_, _, hlook, htell⟩ := Attempt.bind_eq_ok_iff.1 htool
    obtain ⟨_, rfl⟩ := Run.lookAtDisk_cases hlook
    cases htell
    obtain ⟨hsetup, rfl⟩ := Prod.mk.inj h
    obtain ⟨root, hroot, hsetup⟩ := bind_eq_ok_iff.1 hsetup
    obtain ⟨tuning, _, hsetup⟩ := bind_eq_ok_iff.1 hsetup
    cases hsetup
    have hcurrent := mapError_eq_ok_iff.1 hroot
    unfold Disk.currentPath at hcurrent
    split at hcurrent
    · cases hcurrent
      exact ⟨⟨rfl, rfl⟩, rfl, rfl⟩
    · cases hcurrent

theorem run_of_error (h : p.run host s (w.tell (opening s p)) = (.error e, w')) :
    run host s p w = (.error e, ⟨"", (e.capturedOutput?.map (· ++ "\n")).getD ""⟩, w') := by
  unfold opening at h
  simp only [run, h]

theorem run_ok {printed : Printed} (h : run host s p w = (.ok c, printed, w')) :
    ∃ w₁, p.run host s (w.tell (opening s p)) = (.ok c, w₁) ∧ printed = ⟨analysisOutput c, ""⟩ ∧
      writeReport s c w₁ = (.ok (), w') := by
  unfold run at h
  dsimp only at h
  split at h
  · cases h
  · next c' w₁ hrun =>
    split at h
    · next hwrite =>
      cases h
      exact ⟨w₁, hrun, rfl, hwrite⟩
    · cases h

theorem writeReport_ok (h : writeReport s c w = (.ok (), w')) :
    w.disk.write (s.workDir / reportFile) (Text.encode c.report.toJson.text) = .ok w'.disk ∧
      w'.calls = w.calls := by
  obtain ⟨_, w₁, hwrite, htell⟩ := Attempt.bind_eq_ok_iff.1 h
  obtain ⟨hdisk, hcalls⟩ := Run.onDisk_cases hwrite
  obtain ⟨_, hdisk', hcalls'⟩ := Run.tell_cases htell
  rw [hdisk', hcalls']
  rcases Disk.change_cases hdisk with ⟨_, hd⟩ | ⟨_, _, he, _⟩
  · exact ⟨hd, hcalls⟩
  · cases he

/-- A run that went through: what was printed is what its last call printed, and the report
is where its path leads. It has the stages of the plan in order and says of each how its
last call ended. -/
structure Delivered (host : Host) (s : Setup) (p : Plan) (stdout : String) (w : World) : Prop where
  output : ∃ past call, w.calls = past ++ [call] ∧
    stdout = ((host.engine.respond past call).finished .merge).outputText ++ "\n"
  report : ∃ report : Report, report.stages.map StageReport.id = p.stages.map Stage.id ∧
    Accounts host [] (p.schedule s) report.stages w.calls ∧
    (∃ l mode, w.disk.destination (s.workDir / reportFile) = .ok l ∧
      w.disk.tree.find l = some (.file (Text.encode report.toJson.text) mode)) ∧
    w.disk.read (s.workDir / reportFile) = .ok (Text.encode report.toJson.text)

/-- A run that failed on the way: there is no output, only what a failing engine printed is
passed on as an error, and what stands under the path of the report is old. -/
structure Withheld (host : Host) (s : Setup) (p : Plan) (d : Disk) (e : Failure)
    (printed : Printed) (w : World) : Prop where
  stdout : printed.stdout = ""
  stderr : ∀ label status output, e = .stage label status output →
    ∃ before after, printed.stderr = before ++ (output ++ "\n") ++ after
  report : LeavesReport host s w.calls →
    Undiverted host s d ((Stage.prepare p.mode).run host s (.ofDisk d)).2.disk w.calls →
    d.OnlyOld w.disk (s.workDir / reportFile)

theorem delivered_of_run {printed : Printed} (hw : w.calls = [])
    (h : run host s p w = (.ok c, printed, w')) : Delivered host s p printed.stdout w' := by
  obtain ⟨w₁, hrun, rfl, hwrite⟩ := run_ok h
  obtain ⟨hdisk, hcalls⟩ := writeReport_ok hwrite
  have haccounts := Plan.accounts_of_run hrun
  have hnone : (w.tell (opening s p)).calls = [] := hw
  rw [hnone, ← hcalls] at haccounts
  obtain ⟨l, mode, hl, hfile, _⟩ := Disk.file_of_write hdisk
  refine ⟨hcalls ▸ Plan.output_of_run hrun, c.report, ?_, haccounts, ⟨l, mode, hl, hfile⟩,
    Disk.read_of_write hdisk⟩
  rw [haccounts.ids, p.stages_eq_schedule s, List.map_map]
  rfl

theorem withheld_of_run {d : Disk} {before after : String} (habs : s.workDir.isAbsolute = true)
    (hroot : s.root = w.disk.cwd.toPath) (hw : World.Alike (.ofDisk d) w)
    (hrun : p.run host s (w.tell (opening s p)) = (.error e, w')) :
    Withheld host s p d e
      ⟨"", before ++ (e.capturedOutput?.map (· ++ "\n")).getD "" ++ after⟩ w' where
  stdout := rfl
  stderr := by
    rintro label status output rfl
    exact ⟨before, after, rfl⟩
  report := fun hreport hways => by
    have hstart : World.Alike (.ofDisk d) (w.tell (opening s p)) := ⟨hw.disk, hw.calls⟩
    obtain ⟨_, hprepared⟩ := steady_prepare p.mode host s _ _ hstart
    have hd : (w.tell (opening s p)).disk = d := hw.disk
    have hspells : (w.tell (opening s p)).disk.Spells s.root w.disk.cwd :=
      hroot ▸ w.disk.spells_cwd
    rw [← hprepared.disk] at hways
    have hold := Plan.onlyOld_of_failed habs (hroot ▸ Location.isAbsolute_toPath _) hspells hrun
      (Prod.eta _).symm hreport (hd ▸ hways)
    rwa [hd] at hold

end Session

namespace Program

open Session

variable {host : Host} {around : Surroundings} {logFilter : Option String} {args : List String}
  {r : Request} {s : Setup} {w w₀ : World}

theorem status_usage (e : UsageError) :
    (Answer.usage e).status = 0 ↔ e ∈ [UsageError.help, .version] := by
  cases e <;> decide

theorem status_finished (result : Except SessionError Unit) (printed : Printed) :
    (Answer.finished result printed).status = 0 ↔ result = .ok () := by
  cases result <;> simp [Answer.status]

theorem status_le_one (answer : Answer) : answer.status = 0 ∨ answer.status = 1 := by
  rcases answer with e | ⟨e | a⟩
  · cases e <;> simp [Answer.status, UsageError.isMistake]
  · exact Or.inr rfl
  · exact Or.inl rfl

/-- The events of a run are told around what it prints. -/
theorem run_of_request (host : Host) (around : Surroundings) (logFilter : Option String)
    (hparse : Arguments.parse args = .ok r) (w : World) :
    ∃ before after, run host around logFilter args w =
      (.finished (carryOut host around r w).1
        ⟨(carryOut host around r w).2.1.stdout,
          before ++ (carryOut host around r w).2.1.stderr ++ after⟩,
        (carryOut host around r w).2.2) := by
  refine ⟨logText (filter logFilter r.verbose)
      ((carryOut host around r w).2.2.events.drop w.events.length),
    logText (filter logFilter r.verbose) (finalEvents (carryOut host around r w).1), ?_⟩
  rw [run, hparse]

theorem carryOut_of_prepare (hprepare : prepare around r w = (.ok s, w₀)) :
    (carryOut host around r w).2 = (Session.run host s r.plan w₀).2 ∧
      ((carryOut host around r w).1 = .ok () ↔ ∃ c, (Session.run host s r.plan w₀).1 = .ok c) := by
  simp only [carryOut, hprepare]
  rcases Session.run host s r.plan w₀ with ⟨e | c, printed, w'⟩
  · simp
  · simp

theorem carryOut_eq_ok_iff :
    (carryOut host around r w).1 = .ok () ↔ ∃ s w₀ c, prepare around r w = (.ok s, w₀) ∧
      (Session.run host s r.plan w₀).1 = .ok c := by
  rcases hprepare : prepare around r w with ⟨e | s, w₀⟩
  · simp [carryOut, hprepare]
  · rw [(carryOut_of_prepare hprepare).2]
    simp

def machine (entries : List (Location × Entry)) : Disk :=
  (Disk.holding
    ([(["home"], .directory 0o755), (["PQL-0.2.jar", "home"], .file [] 0o644),
      (["jline.jar", "home"], .file [] 0o644), (["run"], .directory 0o755)] ++ entries)).enter ["run"]

def surroundings : Surroundings :=
  ⟨⟨some ⟨"/home"⟩, some ⟨"/jdk"⟩, none⟩, ⟨"/exe"⟩, "again"⟩

def machineSetup (r : Request) : Setup :=
  ⟨⟨⟨"/home"⟩, ⟨"/home/PQL-0.2.jar"⟩, ⟨"/home/jline.jar"⟩, ⟨"/jdk/bin/java"⟩, [⟨"/exe"⟩]⟩,
    config r ⟨"/run"⟩ { }, "again"⟩

/-- The arguments ask for a run without a map, no engine is ever started, and a stage fails
for that; but then something new stands under the path of the report. -/
def ReplacesReport (args : List String) (r : Request) (label : String) (d : Disk) : Prop :=
  let host := Host.scripted [] []
  let w := (run host surroundings none args (.ofDisk d)).2
  Arguments.parse args = .ok r ∧ r.map = [] ∧
    (prepare surroundings r (.ofDisk d)).1 = .ok (machineSetup r) ∧
    (r.plan.run host (machineSetup r) ((prepare surroundings r (.ofDisk d)).2.tell
      (opening (machineSetup r) r.plan))).1 =
        .error (.invocation label ⟨"/jdk/bin/java"⟩ (.system .noEntry)) ∧
    w.calls = [] ∧ ¬ d.OnlyOld w.disk ((machineSetup r).workDir / reportFile)

instance (args : List String) (r : Request) (label : String) (d : Disk) :
    Decidable (ReplacesReport args r label d) :=
  inferInstanceAs (Decidable (_ ∧ _))

end Program
end PointsTo
