import PointsTo.Proofs.Protocol

/-!
Faults of the configuration. Each of them shows before the first process of a run is
started, since the first command of every plan already has all the entries of class
paths that a later command can have.
-/

namespace PointsTo

namespace Attempt

variable {σ α β : Type}

/-- A step that never fails for the configuration. -/
def Settled (x : Attempt σ α) : Prop :=
  ∀ s problem, (x s).1 ≠ .error (.configuration problem)

theorem Settled.bind {x : Attempt σ α} {f : α → Attempt σ β} (hx : x.Settled)
    (hf : ∀ a, (f a).Settled) : (x >>= f).Settled := by
  intro s problem h
  rcases bind_cases (Prod.ext h rfl : (x >>= f) s = (_, ((x >>= f) s).2)) with
    ⟨a, t, _, hfa⟩ | ⟨e, he, hr⟩
  · exact hf a t problem (by rw [hfa])
  · cases hr
    exact hx s problem (by rw [he])

theorem Settled.ensuring {x : Attempt σ α} (hx : x.Settled) (after : σ → σ) :
    (x.ensuring after).Settled :=
  hx

theorem settled_pure (a : α) : (pure a : Attempt σ α).Settled :=
  nofun

theorem settled_update (f : σ → σ) : (update f).Settled :=
  nofun

theorem settled_ofExcept {x : Except Failure α} (hx : ∀ problem, x ≠ .error (.configuration problem)) :
    (ofExcept x : Attempt σ α).Settled :=
  fun _ => hx

/-- A value that is there is no reason to fail. -/
theorem settled_ofExcept_bind {x : Except Failure α} {f : α → Attempt σ β} (hx : ∃ a, x = .ok a)
    (hf : ∀ a, (f a).Settled) : (ofExcept x >>= f).Settled := by
  obtain ⟨a, rfl⟩ := hx
  exact hf a

/-- What is looked up fails for a fault of the disk. -/
theorem settled_look {f : σ → Except Fault α} {p : Path} :
    (look fun s => (f s).mapError (.disk p)).Settled := by
  intro s problem h
  rw [look_apply] at h
  cases hf : f s with
  | error e =>
      rw [hf] at h
      cases h
  | ok a =>
      rw [hf] at h
      cases h

end Attempt

namespace Disk

theorem settled_change (p : Path) (f : Disk → Except Fault Disk) : (change p f).Settled := by
  intro d problem h
  rcases change_cases (Prod.ext h rfl : change p f d = (_, (change p f d).2)) with
    ⟨hr, _⟩ | ⟨_, _, hr, _⟩
  · cases hr
  · cases hr

end Disk

namespace WorkDir

theorem settled_writeAtomic (path : Path) (contents : Bytes) (draws : List TemporaryName) :
    (writeAtomic path contents draws).Settled := by
  intro d problem h
  unfold writeAtomic at h
  dsimp only at h
  split at h
  · cases h
  · split at h
    · cases h
    · split at h
      · cases h
      · cases h

theorem settled_forEach {act : String → Attempt Disk Unit} (hact : ∀ name, (act name).Settled)
    (names : List String) : (forEach act names).Settled := by
  induction names with
  | nil => exact Attempt.settled_pure ()
  | cons name names ih => exact (hact name).bind fun _ => ih

theorem settled_filesMatching (dir : Path) (accept : String → Bool) :
    (Attempt.look (filesMatching · dir accept)).Settled := by
  intro d problem h
  rw [Attempt.look_apply] at h
  unfold filesMatching at h
  split at h
  · cases hlist : d.list dir with
    | error e =>
        rw [hlist] at h
        cases h
    | ok names =>
        rw [hlist] at h
        cases h
  · cases h

theorem settled_moveFiles (source : Path) (start : String) (target : Path) :
    (moveFiles source start target).Settled := by
  refine (settled_filesMatching source _).bind fun names => ?_
  refine (settled_forEach (fun _ => Disk.settled_change _ _) names).bind fun _ => ?_
  exact Attempt.settled_pure _

end WorkDir

namespace TupleMap

theorem mapText_ne_configuration (tuples : Path) (namesText tuplesText : String)
    (problem : Misconfiguration) :
    mapText tuples namesText tuplesText ≠ .error (.configuration problem) := by
  have hlines : ∀ (names : Array (List Char)) (lines : List (List Char × Nat)) (m : Mapped),
      lines.foldlM (mapLine tuples names) m ≠ .error (.configuration problem) := by
    intro names lines
    induction lines with
    | nil => intro m h; cases h
    | cons line lines ih =>
        intro m h
        rw [List.foldlM_cons] at h
        cases hline : mapLine tuples names m line with
        | ok m' =>
            rw [hline] at h
            exact ih m' h
        | error e =>
            rw [hline] at h
            cases h
            unfold mapLine at hline
            split at hline
            · cases hline
            · split at hline <;> cases hline
            · cases hline
            · cases hline
  exact hlines _ _ _

theorem settled_mapFiles (tuples names dest : Path) : (mapFiles tuples names dest).Settled := by
  refine Attempt.settled_look.bind fun namesText => Attempt.settled_look.bind fun tuplesText => ?_
  refine (Attempt.settled_ofExcept (mapText_ne_configuration _ _ _)).bind fun mapped => ?_
  exact (Disk.settled_change _ _).bind fun _ => Attempt.settled_pure _

end TupleMap

namespace Run

variable {α β : Type} {x : Run α} {f : α → Run β}

theorem settled_tell (source : Log.Source) (level : Log.Level) (message : String)
    (fields : List Log.Field) : (tell source level message fields).Settled :=
  Attempt.settled_update _

theorem settled_onDisk {x : Attempt Disk α} (hx : x.Settled) : (onDisk x).Settled :=
  fun w => hx w.disk

theorem settled_invoke (host : Host) (limit : Option Nat) (command : Command) (directory : Path)
    (mode : ErrorStream) : (invoke host limit command directory mode).Settled := by
  have hstart : (start host command directory).Settled := by
    intro w problem h
    unfold start at h
    split at h <;> cases h
  refine (settled_tell _ _ _ _).bind fun _ => hstart.bind fun response => ?_
  split
  · exact (settled_tell _ _ _ _).bind fun _ => nofun
  · exact Attempt.settled_pure _

/-- A step that fails for the configuration only before it has started a process. -/
def Preflight (x : Run α) : Prop :=
  ∀ w problem, (x w).1 = .error (.configuration problem) → (x w).2.calls = w.calls

theorem Silent.preflight (hx : x.Silent) : Preflight x :=
  fun w _ _ => hx w

theorem Silent.preflight_bind (hx : x.Silent) (hf : ∀ a, Preflight (f a)) : Preflight (x >>= f) := by
  intro w problem h
  rcases hxf : (x >>= f) w with ⟨r, w'⟩
  rw [hxf] at h
  rcases Attempt.bind_cases hxf with ⟨a, w₁, hxa, hfa⟩ | ⟨e, hxe, _⟩
  · have hfirst := hx w
    have hrest := hf a w₁ problem (by rw [hfa]; exact h)
    rw [hxa] at hfirst
    rw [hfa] at hrest
    exact hrest.trans hfirst
  · have hfirst := hx w
    rwa [hxe] at hfirst

/-- Once the first part has succeeded nothing is wrong any more. -/
theorem Preflight.bind (hx : Preflight x) (hf : ∀ w a w', x w = (.ok a, w') → (f a).Settled) :
    Preflight (x >>= f) := by
  intro w problem h
  rcases hxf : (x >>= f) w with ⟨r, w'⟩
  rw [hxf] at h
  rcases Attempt.bind_cases hxf with ⟨a, w₁, hxa, hfa⟩ | ⟨e, hxe, rfl⟩
  · exact absurd (by rw [hfa]; exact h) (hf w a w₁ hxa w₁ problem)
  · cases h
    have hfirst := hx w problem (by rw [hxe])
    rwa [hxe] at hfirst

/-- What follows a value that may not be there. -/
theorem preflight_ofExcept {x : Except Failure α} (hf : ∀ a, x = .ok a → (f a).Settled) :
    Preflight (Attempt.ofExcept x >>= f) := by
  cases x with
  | error e => exact Silent.preflight fun _ => rfl
  | ok a => exact fun w problem h => absurd h (hf a rfl w problem)

end Run

namespace Command

def Joinable (entries : List Path) : Prop :=
  ∀ p ∈ entries, ':' ∉ p.text.toList

theorem Joinable.mono {entries more : List Path} (h : Joinable more) (hsub : entries ⊆ more) :
    Joinable entries :=
  fun p hp => h p (hsub hp)

theorem joinSearchList?_eq_none_iff {entries : List Path} :
    Path.joinSearchList? entries = none ↔ ¬ Joinable entries := by
  simp [Path.joinSearchList?, Joinable]

theorem exists_classPath_iff {c : Command} {entries : List Path} :
    (∃ c', c.classPath entries = .ok c') ↔ Joinable entries := by
  unfold classPath
  cases h : Path.joinSearchList? entries with
  | none => exact ⟨nofun, fun hj => absurd hj (joinSearchList?_eq_none_iff.1 h)⟩
  | some joined =>
      refine ⟨fun _ => Classical.byContradiction fun hj => ?_, fun _ => ⟨_, rfl⟩⟩
      cases h.symm.trans (joinSearchList?_eq_none_iff.2 hj)

end Command

namespace Setup

open Command

variable {s : Setup} {c : Command}

/-- The two entries that every command has. -/
def Sound (s : Setup) : Prop :=
  Joinable [s.toolchain.home, s.toolchain.pqlJar]

theorem solver_entries : Joinable [s.toolchain.pqlJar, s.toolchain.home] ↔ s.Sound :=
  ⟨fun h => h.mono (by simp), fun h => h.mono (by simp)⟩

theorem exists_solverCommand (h : s.Sound) (label : String) (program : Path) :
    ∃ c, s.solverCommand label program = .ok c := by
  obtain ⟨c, hc⟩ := exists_classPath_iff.2 (solver_entries.2 h)
  exact ⟨_, bind_eq_ok_iff.2 ⟨c, hc, rfl⟩⟩

theorem sound_of_solverCommand {label : String} {program : Path}
    (h : s.solverCommand label program = .ok c) : s.Sound := by
  obtain ⟨c', hc, _⟩ := bind_eq_ok_iff.1 h
  exact solver_entries.1 (exists_classPath_iff.1 ⟨c', hc⟩)

theorem exists_generatorCommand (h : s.Sound) (query : Path) :
    ∃ c, s.generatorCommand query = .ok c := by
  obtain ⟨c, hc⟩ := exists_classPath_iff.2 h
  exact ⟨_, bind_eq_ok_iff.2 ⟨c, hc, rfl⟩⟩

theorem joinable_of_dumpCommand {entryPoint : String} (h : s.dumpCommand entryPoint = .ok c) :
    Joinable s.relationsClassPath := by
  obtain ⟨c', hc, _⟩ := bind_eq_ok_iff.1 h
  exact exists_classPath_iff.1 ⟨c', hc⟩

theorem sound_of_dumpCommand {entryPoint : String} (h : s.dumpCommand entryPoint = .ok c) :
    s.Sound :=
  (joinable_of_dumpCommand h).mono (by simp [relationsClassPath])

/-- Both commands for the relations have the same class path. -/
theorem exists_equivalenceCommand {entryPoint : String} (h : s.dumpCommand entryPoint = .ok c) :
    ∃ c', s.equivalenceCommand = .ok c' := by
  obtain ⟨c', hc⟩ := exists_classPath_iff.2 (joinable_of_dumpCommand h)
  exact ⟨_, bind_eq_ok_iff.2 ⟨c', hc, rfl⟩⟩

end Setup

namespace Finished

theorem settled_requireSuccess {σ : Type} (f : Finished) (label : String) :
    (Attempt.ofExcept (f.requireSuccess label) : Attempt σ Unit).Settled := by
  refine Attempt.settled_ofExcept fun problem h => ?_
  unfold requireSuccess at h
  split at h <;> cases h

end Finished

namespace Stage

open Run Setup

variable {host : Host} {s : Setup} {label fileName text : String} {mode : ErrorStream}

theorem settled_materialize (path : Path) (text : String) :
    (ProgramFile.materialize path text).Settled :=
  (settled_onDisk (Disk.settled_change _ _)).bind fun _ => settled_tell _ _ _ _

theorem settled_solveText (h : s.Sound) : (solveText host s label fileName text mode).Settled := by
  refine (settled_materialize _ text).bind fun _ => Attempt.Settled.ensuring ?_ _
  exact Attempt.settled_ofExcept_bind (exists_solverCommand h _ _) fun _ =>
    settled_invoke _ _ _ _ _

theorem settled_checkExit (label : String) (f : Finished) : (checkExit s label f).Settled := by
  unfold checkExit
  split
  · exact f.settled_requireSuccess label
  · split
    · exact Attempt.settled_pure ()
    · exact settled_tell _ _ _ _

theorem settled_patchDomainFile (path : Path) (bound : UInt64) (draws : List TemporaryName) :
    (patchDomainFile path bound draws).Settled := by
  have hlook : (lookAtDisk fun d => (d.readText path).mapError (.disk path)).Settled :=
    fun w => Attempt.settled_look (f := fun d : Disk => d.readText path) w.disk
  refine hlook.bind fun text => ?_
  dsimp only
  split
  · exact (settled_tell _ _ _ _).bind fun _ => Attempt.settled_pure _
  · refine (settled_onDisk (WorkDir.settled_writeAtomic _ _ _)).bind fun _ => ?_
    exact Attempt.settled_pure _

theorem settled_applyCount (counted : PathCount) : (applyCount host s counted).Settled := by
  cases counted with
  | absent => exact (settled_tell _ _ _ _).bind fun _ => Attempt.settled_pure _
  | found n =>
      refine (settled_tell _ _ _ _).bind fun _ => ?_
      exact (settled_patchDomainFile _ n _).bind fun _ => Attempt.settled_pure _

theorem scan_ne_configuration (cs : List Char) (problem : Misconfiguration) :
    PathCount.scan cs ≠ .error (.configuration problem) := by
  intro h
  unfold PathCount.scan at h
  split at h
  · cases h
  · split at h <;> cases h

/-- What the counting stage does once its call has been made. -/
theorem settled_counted (f : Finished) :
    (Attempt.ofExcept (PathCount.scan (Text.lossyChars f.output)) >>= fun counted =>
      applyCount host s counted >>= fun summary =>
        pure (⟨some f, some summary⟩ : Outcome) : Run Outcome).Settled := by
  refine (Attempt.settled_ofExcept (scan_ne_configuration _)).bind fun counted => ?_
  exact (settled_applyCount counted).bind fun _ => Attempt.settled_pure _

theorem settled_count (h : s.Sound) : (count.run host s).Settled :=
  (settled_solveText h).bind settled_counted

theorem settled_number (h : s.Sound) : (number.run host s).Settled :=
  (settled_solveText h).bind fun f =>
    (settled_checkExit _ f).bind fun _ => Attempt.settled_pure _

theorem settled_solve (h : s.Sound) (program : Path) : ((solve program).run host s).Settled := by
  refine (settled_tell _ _ _ _).bind fun _ => ?_
  refine Attempt.settled_ofExcept_bind (exists_solverCommand h _ _) fun command => ?_
  refine (settled_invoke _ _ _ _ _).bind fun f => ?_
  exact (settled_checkExit _ f).bind fun _ => Attempt.settled_pure _

theorem settled_compileQuery (h : s.Sound) (query : Path) :
    (compileQuery host s query).Settled := by
  refine (settled_tell _ _ _ _).bind fun _ => ?_
  refine Attempt.settled_ofExcept_bind (exists_generatorCommand h _) fun command => ?_
  refine (settled_invoke _ _ _ _ _).bind fun f => ?_
  have hend : (Attempt.ofExcept (f.requireSuccess queryLabel) >>= fun _ =>
      pure f.outputText : Run String).Settled :=
    (f.settled_requireSuccess _).bind fun _ => Attempt.settled_pure _
  dsimp only
  split
  · exact (settled_tell _ _ _ _).bind fun _ => hend
  · exact hend

theorem settled_query (h : s.Sound) (query : Path) :
    ((Stage.query query).run host s).Settled := by
  refine (settled_solveText h).bind fun types => (settled_checkExit _ types).bind fun _ => ?_
  refine (settled_compileQuery h query).bind fun program => ?_
  refine (settled_solveText h).bind fun f => (settled_checkExit _ f).bind fun _ => ?_
  exact Attempt.settled_pure _

theorem settled_naming (request : MapRequest) : ((naming request).run host s).Settled := by
  refine (settled_onDisk (TupleMap.settled_mapFiles _ _ _)).bind fun mapped => ?_
  dsimp only
  split
  · exact (settled_tell _ _ _ _).bind fun _ => Attempt.settled_pure _
  · exact Attempt.settled_pure _

/-- A program is not solved where the command for it cannot be written down. -/
theorem preflight_solveText : Preflight (solveText host s label fileName text mode) := by
  refine (silent_materialize _ text).preflight_bind fun _ => ?_
  have hcall : Preflight (Attempt.ofExcept (s.solverCommand label (s.workDir / fileName)) >>=
      fun command => call host s command mode) :=
    preflight_ofExcept fun _ _ => settled_invoke _ _ _ _ _
  intro w problem h
  rw [Attempt.ensuring_apply, (ProgramFile.release_eq _ _ _).2]
  exact hcall w problem h

theorem sound_of_solveText {w w' : World} {f : Finished}
    (h : solveText host s label fileName text mode w = (.ok f, w')) : s.Sound := by
  obtain ⟨_, _, _, h₁⟩ := Attempt.bind_eq_ok_iff.1 h
  obtain ⟨_, h₂, _⟩ := Attempt.ensuring_cases h₁
  obtain ⟨_, _, hcommand, _⟩ := Attempt.bind_eq_ok_iff.1 h₂
  exact sound_of_solverCommand (Attempt.ofExcept_cases hcommand).1

theorem preflight_count : Preflight (count.run host s) :=
  preflight_solveText.bind fun _ f _ _ => settled_counted f

theorem sound_of_count {w w' : World} {outcome : Outcome}
    (h : count.run host s w = (.ok outcome, w')) : s.Sound := by
  obtain ⟨_, _, hsolve, _⟩ := Attempt.bind_eq_ok_iff.1 h
  exact sound_of_solveText hsolve

theorem settled_renameFiles (dir : Path) (pairs : List (String × String)) :
    (renameFiles dir pairs).Settled := by
  induction pairs with
  | nil => exact Attempt.settled_pure ()
  | cons pair pairs ih => exact (Disk.settled_change _ _).bind fun _ => ih

theorem preflight_relations (entryPoint : String) :
    Preflight ((relations entryPoint).run host s) := by
  refine (silent_onDisk _).preflight_bind fun _ => (silent_tell _ _ _ _).preflight_bind fun _ => ?_
  refine preflight_ofExcept fun command hdump => ?_
  refine (settled_invoke _ _ _ _ _).bind fun dump => (dump.settled_requireSuccess _).bind fun _ => ?_
  refine (settled_tell _ _ _ _).bind fun _ => ?_
  refine Attempt.settled_ofExcept_bind (exists_equivalenceCommand hdump) fun command => ?_
  refine (settled_invoke _ _ _ _ _).bind fun equivalence => ?_
  refine (equivalence.settled_requireSuccess _).bind fun _ => ?_
  refine (settled_onDisk (WorkDir.settled_moveFiles _ _ _)).bind fun moved => ?_
  refine (settled_tell _ _ _ _).bind fun _ => (settled_tell _ _ _ _).bind fun _ => ?_
  exact (settled_onDisk (settled_renameFiles _ _)).bind fun _ => Attempt.settled_pure _

theorem sound_of_relations {entryPoint : String} {w w' : World} {outcome : Outcome}
    (h : (relations entryPoint).run host s w = (.ok outcome, w')) : s.Sound := by
  obtain ⟨_, _, _, h₁⟩ := Attempt.bind_eq_ok_iff.1 h
  obtain ⟨_, _, _, h₂⟩ := Attempt.bind_eq_ok_iff.1 h₁
  obtain ⟨_, _, hcommand, _⟩ := Attempt.bind_eq_ok_iff.1 h₂
  exact sound_of_dumpCommand (Attempt.ofExcept_cases hcommand).1

end Stage

namespace Runner

open Run

variable {host : Host} {s : Setup} {stages : List Stage} {first : Stage} {w w' : World}
  {problem : Misconfiguration}

theorem Preflight.leads {x : Run Outcome} (hx : Preflight x)
    (h : x.Leads w (some (.configuration problem)) w') : w'.calls = w.calls := by
  obtain ⟨w₀, w₁, r, hw, hr, hw', he⟩ := h
  have hcalls := hx w₀ problem (by rw [hr]; exact eq_error_of_failure? he)
  rw [hr] at hcalls
  rw [hw'.calls, hcalls, hw.calls]

theorem Ran.not_configuration {e : Option Failure} (h : Ran host s stages w e w')
    (hstages : ∀ stage ∈ stages, (stage.run host s).Settled) : e ≠ some (.configuration problem) := by
  induction h with
  | done _ => nofun
  | failed hstage =>
      rintro ⟨rfl⟩
      obtain ⟨w₀, w₁, r, _, hr, _, he⟩ := hstage
      exact hstages _ List.mem_cons_self w₀ problem (by rw [hr]; exact eq_error_of_failure? he)
  | passed _ _ ih => exact ih fun stage hs => hstages stage (List.mem_cons_of_mem _ hs)

/-- The first stage finds out what is wrong, before it starts a process, or all is well. -/
theorem Ran.preflight (hfirst : Preflight (first.run host s))
    (hlater : ∀ {w outcome w'}, first.run host s w = (.ok outcome, w') →
      ∀ stage ∈ stages, (stage.run host s).Settled)
    (h : Ran host s (first :: stages) w (some (.configuration problem)) w') :
    w'.calls = w.calls := by
  cases h with
  | failed hstage => exact Preflight.leads hfirst hstage
  | passed hstage hrest =>
      obtain ⟨w₀, w₁, r, _, hr, _, he⟩ := hstage
      cases r with
      | error e => cases he
      | ok outcome => exact absurd rfl (hrest.not_configuration (hlater hr))

end Runner

namespace Plan

open Run Runner Stage

variable {plan : Plan} {host : Host} {s : Setup}

theorem settled_solvingStages (h : s.Sound) (plan : Plan) (host : Host) :
    ∀ stage ∈ [Stage.count, .number, plan.analysisStage] ++ plan.map.toList.map .naming,
      (stage.run host s).Settled := by
  have hanalysis : (plan.analysisStage.run host s).Settled := by
    unfold analysisStage
    cases plan.analysis with
    | datalog program => exact settled_solve h program
    | query query => exact settled_query h query
  simp only [List.forall_mem_append, List.forall_mem_cons, List.not_mem_nil, false_implies,
    implies_true, and_true, List.forall_mem_map]
  exact ⟨⟨settled_count h, settled_number h, hanalysis⟩, fun request _ => settled_naming request⟩

/-- A run that fails for its configuration has started no process. -/
theorem misconfigured_run_starts_nothing (plan : Plan) (host : Host) (s : Setup) (w : World)
    (problem : Misconfiguration) (h : (plan.run host s w).1 = .error (.configuration problem)) :
    (plan.run host s w).2.calls = w.calls := by
  rcases run_cases (Prod.eta (plan.run host s w)).symm with ⟨_, _, _, hw⟩ | ⟨_, hran⟩
  · rw [hw]
  · rw [h, stages_eq_workStages] at hran
    cases hran with
    | failed hprepare =>
        exact Preflight.leads (Silent.preflight fun _ => prepare_calls (Prod.eta _).symm) hprepare
    | @passed _ _ _ w₁ _ _ hprepare hrest =>
        have hprepared : w₁.calls = w.calls := by
          obtain ⟨w₀, w₂, r, hw, hr, hw', _⟩ := hprepare
          rw [hw'.calls, prepare_calls hr, hw.calls]
        rw [← hprepared]
        unfold workStages at hrest
        -- The first stage with a process is the one for relations or, without it, counting.
        split at hrest
        · exact Ran.preflight (preflight_relations _) (fun hok =>
            settled_solvingStages (sound_of_relations hok) plan host) hrest
        · exact Ran.preflight preflight_count (fun hok stage hstage =>
            settled_solvingStages (sound_of_count hok) plan host stage
              (List.mem_cons_of_mem _ hstage)) hrest

/-- A class path that cannot be written down: an entry for the analysed program holds
the separator. The working directory has been wiped by the time this is seen. -/
theorem misconfigured_run_with_split_entry :
    let plan : Plan := ⟨"Main", .query ⟨"q.pql"⟩, .full, none⟩
    let host : Host := .scripted [] []
    let toolchain : Toolchain :=
      ⟨⟨"/engine"⟩, ⟨"/engine/pql.jar"⟩, ⟨"/engine/jline.jar"⟩, ⟨"/java"⟩, [⟨"/app"⟩, ⟨"/lib:/more"⟩]⟩
    let s : Setup := ⟨toolchain, .new ⟨"/run"⟩, "run"⟩
    let w : World := .ofDisk (.holding [(["java"], .file [] 0o755), (["run"], .directory 0o755),
      (["results", "run"], .directory 0o755), (["old", "results", "run"], .file [] 0o644)])
    (plan.run host s w).1 = .error (.configuration .separatorInEntry) ∧
      (plan.run host s w).2.calls = w.calls := by
  intro plan host toolchain s w
  have h : (plan.run host s w).1 = .error (.configuration .separatorInEntry) := by decide +kernel
  exact ⟨h, misconfigured_run_starts_nothing plan host s w .separatorInEntry h⟩

end Plan
end PointsTo
