import PointsTo.Proofs.Bound
import PointsTo.Proofs.Programs

/-!
Whether program files are kept. Two runs of a plan that differ in this alone make the
same calls and end alike. Their disks are the same but for the files of the programs
that were written, which the one run has taken away and the other has kept.
-/

namespace PointsTo

def World.Unwritten (w : World) : Prop :=
  ∀ path, ¬ w.Materialized path

theorem World.Unwritten.like {w w' : World} (h : w.Unwritten) (hw : w.Like w') : w'.Unwritten :=
  fun path hp => h path ((hw.materialized path).1 hp)

namespace Run

open World

variable {α β : Type} {x : Run α} {host : Host}

abbrev Noteless (x : Run α) : Prop :=
  x.Keeps fun w w' => ∀ path, w'.Materialized path → w.Materialized path

theorem Noteless.bind {f : α → Run β} (hx : x.Noteless) (hf : ∀ a, (f a).Noteless) :
    (x >>= f).Noteless :=
  Attempt.Keeps.bind (fun _ _ _ h h' path hp => h path (h' path hp)) hx hf

theorem noteless_tell {source : Log.Source} {level : Log.Level} {message : String}
    {fields : List Log.Field} (h : source ≠ .stages ∨ level ≠ .debug ∨ fields = []) :
    (tell source level message fields).Noteless :=
  fun w path => ((w.like_tell h).materialized path).1

theorem noteless_pure (a : α) : (pure a : Run α).Noteless :=
  fun _ _ h => h

theorem noteless_ofExcept (a : Except Failure α) : Noteless (Attempt.ofExcept a : Run α) :=
  fun _ _ h => h

theorem noteless_onDisk (x : Attempt Disk α) : (onDisk x).Noteless :=
  fun _ _ h => h

theorem noteless_start (command : Command) (directory : Path) :
    (start host command directory).Noteless := fun w => by
  unfold start
  split <;> exact fun _ h => h

theorem noteless_invoke (limit : Option Nat) (command : Command) (directory : Path)
    (mode : ErrorStream) : (invoke host limit command directory mode).Noteless := fun w path h => by
  obtain ⟨answer, _, hinvoke, hanswer⟩ := Stage.invoke_eq host limit command directory mode
  obtain ⟨w', hw', heq⟩ := hinvoke w
  have hend := (Stage.bind_answer (start host command directory) hanswer w').2
  rw [heq, hend.materialized] at h
  exact (hw'.materialized path).1 (noteless_start command directory w' path h)

theorem Noteless.unwritten (h : x.Noteless) {w : World} (hw : w.Unwritten) : (x w).2.Unwritten :=
  fun path hp => hw path (h w path hp)

end Run

namespace Disk

/-- Nothing can be written to a directory that is not there. -/
theorem write_div_error {d : Disk} {p : Path} {name : String} (hn : IsName name)
    (h : ∀ dir, ¬ d.Enters p dir) (data : Bytes) : ∃ e, d.write (p / name) data = .error e := by
  cases hw : d.write (p / name) data with
  | error e => exact ⟨e, rfl⟩
  | ok d' =>
      obtain ⟨place, _, _, _, _, _, hlast, _⟩ := write_cases hw
      obtain ⟨_, hdir, _⟩ := (resolveLast_div_iff hn).1 hlast
      exact absurd hdir (h place)

end Disk

namespace Stage

open Run

section Noteless

variable (host : Host) (s : Setup)

theorem noteless_prepare (mode : Mode) : ((prepare mode).run host s).Noteless := by
  cases mode with
  | full =>
      refine Noteless.bind (fun _ _ h => h) fun _ => ?_
      exact (noteless_tell (by simp)).bind fun _ => (noteless_onDisk _).bind fun _ => noteless_pure _
  | fast =>
      refine Noteless.bind (fun _ _ h => h) fun present => ?_
      cases present with
      | true => exact (noteless_onDisk _).bind fun _ => noteless_pure _
      | false => exact fun _ _ h => h

theorem noteless_relations (entryPoint : String) :
    ((relations entryPoint).run host s).Noteless := by
  refine (noteless_onDisk _).bind fun _ => (noteless_tell (by simp)).bind fun _ => ?_
  refine (noteless_ofExcept _).bind fun _ => (noteless_invoke _ _ _ _).bind fun dump => ?_
  refine (noteless_ofExcept _).bind fun _ => (noteless_tell (by simp)).bind fun _ => ?_
  refine (noteless_ofExcept _).bind fun _ => (noteless_invoke _ _ _ _).bind fun equivalence => ?_
  refine (noteless_ofExcept _).bind fun _ => (noteless_onDisk _).bind fun _ => ?_
  refine (noteless_tell (by simp)).bind fun _ => (noteless_tell (by simp)).bind fun _ => ?_
  exact (noteless_onDisk _).bind fun _ => noteless_pure _

end Noteless

section Tidied

variable {host : Host} {s : Setup} {dir : Location} {calls : List EngineCall} {v w v' w' : World}

/-- Without a working directory counting fails, whether or not programs are kept. -/
theorem count_fails (host : Host) (h : ∀ dir, ¬ w.disk.Enters s.workDir dir) :
    ∃ e, ∀ cleanup, ∀ w' : World, w.Alike w' →
      count.run host (s.tidying cleanup) w' = (.error e, w') := by
  obtain ⟨e, he⟩ := Disk.write_div_error (fits_programFiles probeFile (by decide)).1 h
    (Text.encode (Datalog.render Datalog.numbering s.workDir))
  refine ⟨.disk (s.workDir / probeFile) e, fun cleanup w' hw' => ?_⟩
  have hwrite : ProgramFile.materialize (s.workDir / probeFile)
      (Datalog.render Datalog.numbering s.workDir) w' =
        (.error (.disk (s.workDir / probeFile) e), w') := by
    rw [materialize_eq, hw'.disk, he]
  exact Attempt.bind_error (Attempt.bind_error hwrite)

theorem abreast_of_lacks (hdir : w.disk.Enters s.workDir dir)
    (hlacks : w.disk.Lacks s.workDir programFiles) (hno : w.Unwritten) :
    Abreast host s dir calls [] w w where
  twins := .refl fun l e hl he => by
    obtain ⟨name, rfl, hn⟩ : ∃ name, l = name :: dir ∧ name ∈ programFiles := by
      cases l with
      | nil => cases hl
      | cons name above =>
          obtain ⟨hn, rfl⟩ := Slots.has_cons_iff.1 hl
          exact ⟨name, rfl, hn⟩
    cases (hlacks dir hdir name hn).symm.trans he
  enters := hdir
  tidy := fun name hn => (hlacks dir hdir name hn).trans (if_neg (List.not_mem_nil)).symm
  kept := fun name hn => Or.inr ⟨hno _, hlacks dir hdir name hn⟩
  keys := rfl

/-- The world `v` of a run that takes program files away beside the world `w` of one that
keeps them. The calls are the same. In `v` there is no program file, in `w` there is one
for each program that was written, and all else is the same. -/
structure Tidied (host : Host) (s : Setup) (v w : World) : Prop where
  calls : v.calls.map EngineCall.key = w.calls.map EngineCall.key
  gone : v.disk.Lacks s.workDir programFiles
  kept : ∀ name ∈ programFiles, w.Materialized (s.workDir / name) →
    ∃ dir text, w.disk.Enters s.workDir dir ∧ Writes host s w.calls name text ∧
      w.disk.tree.find (name :: dir) = some (.file (Text.encode text) Disk.newFileMode)
  same : ∀ l, v.disk.tree.find l = w.disk.tree.find l ∨
    ∃ name ∈ programFiles, w.Materialized (s.workDir / name) ∧
      ∃ dir, w.disk.Enters s.workDir dir ∧ l = name :: dir
  cwd : v.disk.cwd = w.disk.cwd
  lost : v.disk.lost = w.disk.lost

theorem Tidied.like (h : Tidied host s v w) (hv : v.Like v') (hw : w.Like w') :
    Tidied host s v' w' := by
  obtain ⟨hcalls, hgone, hkept, hsame, hcwd, hlost⟩ := h
  constructor
  all_goals simp only [hv.disk, hw.disk, hv.calls, hw.calls, hw.materialized]
  all_goals assumption

theorem Abreast.tidied (h : Abreast host s dir w.calls [] v w) : Tidied host s v w where
  calls := h.keys
  gone := fun dir' hdir' name hn => by
    cases (h.twins.enters h.enters).unique hdir'
    exact (h.tidy name hn).trans (if_neg List.not_mem_nil)
  kept := fun name hn hwritten => by
    rcases h.kept name hn with ⟨_, text, hwrites, hfind⟩ | ⟨hno, _⟩
    · exact ⟨dir, text, h.enters, hwrites, hfind⟩
    · exact absurd hwritten hno
  same := fun l => by
    cases hl : (programSlots dir).has l with
    | false => exact Or.inl (h.twins.tree.same hl)
    | true =>
        cases l with
        | nil => cases hl
        | cons name above =>
            obtain ⟨hn, rfl⟩ := Slots.has_cons_iff.1 hl
            rcases h.kept name hn with ⟨hwritten, _⟩ | ⟨_, hnone⟩
            · exact Or.inr ⟨name, hn, hwritten, above, h.enters, rfl⟩
            · exact Or.inl (((h.tidy name hn).trans (if_neg List.not_mem_nil)).trans hnone.symm)
  cwd := h.twins.cwd
  lost := h.twins.lost

theorem tidied_of_lacks (hlacks : w.disk.Lacks s.workDir programFiles)
    (hno : w.Unwritten) : Tidied host s w w where
  calls := rfl
  gone := hlacks
  kept := fun _ _ hwritten => absurd hwritten (hno _)
  same := fun _ => Or.inl rfl
  cwd := rfl
  lost := rfl

/-- Sweeping tuples brings no program file back. -/
theorem lacks_prepareFast {names : List String} {r : Except Failure Outcome}
    (hlacks : w.disk.Lacks s.workDir names) (h : prepareFast s w = (r, w')) :
    w'.disk.Lacks s.workDir names := by
  rcases prepareFast_cases h with hd | ⟨_, hclear⟩
  · rwa [hd]
  · rcases WorkDir.clearTuples_cases hclear with hd | ⟨_, dir, hp, hswept, hways, hdir, _⟩
    · rwa [hd]
    · intro dir' hdir' name hn
      have henters := hp.enters hdir
      cases (hways.enters henters).unique hdir'
      rcases hswept.find (name :: dir) with hsame | ⟨hnone, _⟩
      · rw [hsame]
        exact hlacks dir henters name hn
      · exact hnone

end Tidied
end Stage

namespace Runner

open Run

variable {host : Host} {s : Setup} {stage : Stage} {w : World} {e : Failure}

/-- A first stage that fails and leaves everything as it is. -/
theorem runStages_of_fails (h : ∀ w', w.Alike w' → stage.run host s w' = (.error e, w'))
    (rest : List Stage) :
    ∃ w', w.Like w' ∧ runStages host s (stage :: rest) w = (.error e, w') := by
  let ticked : World := { w with clockReadings := w.clockReadings + 1 }
  let begins : World := ticked.tell ⟨.core, .info, "stage started", [.inQuotes "stage" stage.id]⟩
  have hticked : w.Like ticked := ⟨⟨rfl, rfl⟩, fun _ => Iff.rfl⟩
  have hbegins : w.Like begins := hticked.trans (ticked.like_tell (Or.inl nofun))
  have htold : tellFailure stage.id (stage.run host s) begins = (.error e, begins.tell
      ⟨.core, .error, "stage failed: " ++ e.message, [.inQuotes "stage" stage.id]⟩) := by
    unfold tellFailure
    rw [h begins hbegins.toAlike]
  have hfirst : runStage host s stage w = (.error e, begins.tell
      ⟨.core, .error, "stage failed: " ++ e.message, [.inQuotes "stage" stage.id]⟩) :=
    (Attempt.bind_ok rfl).trans ((Attempt.bind_ok rfl).trans (Attempt.bind_error htold))
  refine ⟨_, ?_, Attempt.bind_error hfirst⟩
  exact hbegins.trans (begins.like_tell (Or.inl nofun))

end Runner

namespace Plan

open Run Runner Stage

variable {plan : Plan} {host : Host} {s : Setup} {left right : List EngineCall} {dir : Location}
  {v w w' : World}

theorem stages_eq_solvingStages (plan : Plan) :
    plan.stages =
      plan.firstStages ++ (plan.solvingStages ++ plan.map.toList.map .naming) := by
  simp [stages, firstStages, solvingStages]

theorem runStages_firstStages_tidying (plan : Plan) (host : Host) (s : Setup) (cleanup : Bool) :
    runStages host (s.tidying cleanup) plan.firstStages = runStages host s plan.firstStages := by
  unfold firstStages
  cases plan.mode <;> rfl

theorem mirrors_firstStages (plan : Plan) (host : Host) (s : Setup) :
    ∀ stage ∈ plan.firstStages,
      Mirrors (.holding World.Unwritten World.Unwritten.like left right) Eq (stage.run host s)
        (stage.run host s) := by
  unfold firstStages
  rw [List.forall_mem_cons]
  constructor
  · exact (steady_prepare _ _ _).holding (follows_prepare _).later fun hw _ =>
      (noteless_prepare _ _ _).unwritten hw
  · split
    · refine List.forall_mem_singleton.2 ?_
      exact (steady_relations _ _ _).holding (follows_relations _).later fun hw _ =>
        (noteless_relations _ _ _).unwritten hw
    · nofun

/-- Whoever has solved a program has made a call. -/
theorem calls_of_solved {done : List (StageReport × String × Outcome)}
    (h : runStages host s plan.solvingStages w = (.ok done, w')) : w'.calls ≠ w.calls := by
  let schedule : List (Stage × List Launch) :=
    [(.count, [.solver (s.workDir / "number.dtl")]), (.number, [.solver (s.workDir / "numbering.dtl")]),
      (plan.analysisStage, plan.analysisProtocol s)]
  have hran : Ran host s (schedule.map Prod.fst) w none w' := ran_of_runStages h
  obtain ⟨launches, _, ⟨made, hcalls, hmade, _⟩, hall⟩ := hran.follows (by
    simp only [schedule, List.forall_mem_cons, List.not_mem_nil, false_implies, implies_true,
      and_true]
    exact ⟨follows_count, follows_number, follows_analysisStage plan host s⟩)
  cases hall rfl
  intro hsame
  have hnone : made = [] := by simpa [hsame] using hcalls
  rw [hnone] at hmade
  cases hmade

/-- From one world the two runs go on abreast. -/
theorem runStages_abreast (htame : Tame host s plan.map left right)
    (hw : Abreast host s dir right [] w w)
    (hleft : (runStages host (s.tidying true)
      (plan.solvingStages ++ plan.map.toList.map .naming) w).2.calls <+: left)
    (hright : (runStages host (s.tidying false)
      (plan.solvingStages ++ plan.map.toList.map .naming) w).2.calls <+: right) :
    MirrorsAt (abreast host s plan.map dir none left right)
      (fun as bs => as.map Prod.snd = bs.map Prod.snd)
      (runStages host (s.tidying true) (plan.solvingStages ++ plan.map.toList.map .naming) w)
      (runStages host (s.tidying false) (plan.solvingStages ++ plan.map.toList.map .naming) w) := by
  have hsolving := mirrors_runStages
    (mirrors_solvingStages (couples_abreast htame dir (some w.calls)) plan)
  have hnaming : ∀ first second : List (StageReport × String × Outcome),
      first.map Prod.snd = second.map Prod.snd →
      Mirrors (abreast host s plan.map dir none left right)
        (fun as bs => as.map Prod.snd = bs.map Prod.snd)
        (runStages host (s.tidying true) (plan.map.toList.map .naming) >>= fun more =>
          pure (first ++ more))
        (runStages host (s.tidying false) (plan.map.toList.map .naming) >>= fun more =>
          pure (second ++ more)) := fun first second hboth => by
    refine Mirrors.bindUpTo (mirrors_runStages ?_) (fun _ => rfl) fun a b hab => mirrors_pure ?_
    · refine List.forall_mem_map.2 fun request hr => ?_
      exact mirrors_naming (Option.mem_toList.1 hr)
    · rw [List.map_append, List.map_append, hboth, hab]
  rw [runStages_append host (s.tidying true) plan.solvingStages] at hleft ⊢
  rw [runStages_append host (s.tidying false) plan.solvingStages] at hright ⊢
  refine hsolving.switch (fun first => (hnaming first first rfl).later)
    (fun first => (hnaming first first rfl).later') hnaming rfl rfl id
    (fun {_ _ w'} hw' ⟨habreast, hready⟩ => ⟨habreast, Or.inr (hready.resolve_left ?_)⟩)
    ⟨hw, Or.inl ⟨rfl, rfl⟩⟩ hleft hright
  exact fun ⟨_, hcalls⟩ => calls_of_solved hw' (Option.some.inj hcalls).symm

/-- The stages before counting leave no program file behind. -/
theorem lacks_firstStages {d : Disk} (hstart : d.Lacks s.workDir programFiles)
    (hfirst : plan.mode = .full →
      (runStages host s plan.firstStages (.ofDisk d)).2.disk.Lacks s.workDir programFiles) :
    (runStages host s plan.firstStages (.ofDisk d)).2.disk.Lacks s.workDir programFiles := by
  cases hmode : plan.mode with
  | full => exact hfirst hmode
  | fast =>
      have hprepare : ∀ {e w'}, ((prepare .fast).run host s).Leads (.ofDisk d) e w' →
          w'.disk.Lacks s.workDir programFiles := by
        rintro e w' ⟨w₀, w₁, r, hw₀, hr, hw₁, _⟩
        rw [hw₁.disk]
        exact lacks_prepareFast (by rwa [hw₀.disk]) hr
      have hran := ran_of_runStages (Prod.eta (runStages host s plan.firstStages (.ofDisk d))).symm
      generalize (runStages host s plan.firstStages (.ofDisk d)).2 = w' at hran ⊢
      generalize failure? _ = e at hran
      unfold firstStages at hran
      rw [hmode] at hran
      cases hran with
      | failed hstage => exact hprepare hstage
      | passed hstage hdone =>
          cases hdone with
          | done hw => exact hw.disk ▸ hprepare hstage

theorem tidied_of_mirrors {p q : Except Failure (List (StageReport × String × Outcome)) × World}
    (h : MirrorsAt (abreast host s plan.map dir none left q.2.calls)
      (fun as bs => as.map Prod.snd = bs.map Prod.snd) p q) :
    p.1.map (List.map Prod.snd) = q.1.map (List.map Prod.snd) ∧ Tidied host s p.2 q.2 :=
  ⟨ends_map_iff.1 h.ends, Abreast.tidied h.stop⟩

theorem map_append_first {γ δ : Type} {f : γ → δ} {first : List γ}
    {r r' : Except Failure (List γ)} (h : r.map (List.map f) = r'.map (List.map f)) :
    (r.map (first ++ ·)).map (List.map f) = (r'.map (first ++ ·)).map (List.map f) := by
  cases r <;> cases r' <;> simp_all [Except.map]

theorem runStages_tidied (hw : v.Alike w) (hno : w.Unwritten)
    (hlacks : (runStages host s plan.firstStages v).2.disk.Lacks s.workDir programFiles)
    (htame : Tame host s plan.map (runStages host (s.tidying true) plan.stages w).2.calls
      (runStages host (s.tidying false) plan.stages w).2.calls) :
    (runStages host (s.tidying true) plan.stages w).1.map (List.map Prod.snd) =
      (runStages host (s.tidying false) plan.stages w).1.map (List.map Prod.snd) ∧
    Tidied host s (runStages host (s.tidying true) plan.stages w).2
      (runStages host (s.tidying false) plan.stages w).2 := by
  obtain ⟨_, ⟨halike, hno₁⟩, _⟩ := (mirrors_runStages (mirrors_firstStages plan host s)).same
    ⟨hw, hno⟩ (List.prefix_refl _) (List.prefix_refl _)
  have hfirst := runStages_firstStages_tidying plan host s
  rw [stages_eq_solvingStages] at htame ⊢
  rcases hrun : runStages host s plan.firstStages w with ⟨r, w₁⟩
  rw [← halike.disk, hrun] at hlacks
  rw [hrun] at hno₁
  cases r with
  | error e =>
      have hend : ∀ cleanup rest, runStages host (s.tidying cleanup) (plan.firstStages ++ rest) w =
          (.error e, w₁) := fun cleanup =>
        runStages_append_error ((congrFun (hfirst cleanup) w).trans hrun)
      rw [hend, hend]
      exact ⟨rfl, tidied_of_lacks hlacks hno₁⟩
  | ok first =>
      have hend := fun cleanup rest =>
        runStages_append_ok ((congrFun (hfirst cleanup) w).trans hrun) rest
      rw [hend, hend] at htame ⊢
      dsimp only at htame ⊢
      by_cases hdir : ∃ dir, w₁.disk.Enters s.workDir dir
      · obtain ⟨dir, hdir⟩ := hdir
        obtain ⟨hboth, htidied⟩ := tidied_of_mirrors (runStages_abreast htame
          (abreast_of_lacks hdir hlacks hno₁) (List.prefix_refl _) (List.prefix_refl _))
        exact ⟨map_append_first hboth, htidied⟩
      · obtain ⟨e, hfails⟩ := count_fails host fun dir h => hdir ⟨dir, h⟩
        obtain ⟨v₂, hv₂, hv⟩ := runStages_of_fails (hfails true)
          (.number :: plan.analysisStage :: plan.map.toList.map .naming)
        obtain ⟨w₂, hw₂, hw⟩ := runStages_of_fails (hfails false)
          (.number :: plan.analysisStage :: plan.map.toList.map .naming)
        have hstages : plan.solvingStages ++ plan.map.toList.map .naming =
            .count :: .number :: plan.analysisStage :: plan.map.toList.map .naming := rfl
        rw [hstages, hv, hw]
        exact ⟨rfl, (tidied_of_lacks hlacks hno₁).like hv₂ hw₂⟩

/-- Keeping program files changes nothing else. From a disk without such files, and as
long as the engine leaves them alone, a run that takes them away makes the same calls and
has the same outcomes as one that keeps them, and leaves the same disk without them. -/
theorem cleanup_takes_programs_only (plan : Plan) (host : Host) (s : Setup) (d : Disk)
    (hstart : d.Lacks s.workDir programFiles)
    (hfirst : plan.mode = .full →
      (runStages host s plan.firstStages (.ofDisk d)).2.disk.Lacks s.workDir programFiles)
    (htame : Tame host s plan.map (plan.run host (s.tidying true) (.ofDisk d)).2.calls
      (plan.run host (s.tidying false) (.ofDisk d)).2.calls) :
    (plan.run host (s.tidying true) (.ofDisk d)).1.map Completed.outcomes =
      (plan.run host (s.tidying false) (.ofDisk d)).1.map Completed.outcomes ∧
    Tidied host s (plan.run host (s.tidying true) (.ofDisk d)).2
      (plan.run host (s.tidying false) (.ofDisk d)).2 := by
  cases hvalid : s.config.validate d with
  | error e =>
      have hrun : ∀ cleanup, plan.run host (s.tidying cleanup) (.ofDisk d) = (.error e, .ofDisk d) :=
        fun cleanup => Attempt.bind_error (Prod.ext hvalid rfl)
      rw [hrun, hrun]
      exact ⟨rfl, tidied_of_lacks hstart nofun⟩
  | ok =>
      have hbegun := like_begun s plan.stages (.ofDisk d)
      have hsame : ∀ cleanup, begun (s.tidying cleanup) plan.stages (.ofDisk d) =
          begun s plan.stages (.ofDisk d) := fun _ => rfl
      obtain ⟨hend, houtcomes⟩ :=
        run_of_valid (s := s.tidying true) (w := .ofDisk d) hvalid host plan.stages
      obtain ⟨hend', houtcomes'⟩ :=
        run_of_valid (s := s.tidying false) (w := .ofDisk d) hvalid host plan.stages
      rw [hsame] at hend houtcomes hend' houtcomes'
      unfold run at htame ⊢
      rw [hend.calls, hend'.calls] at htame
      rw [houtcomes, houtcomes']
      have hno : (begun s plan.stages (.ofDisk d)).Unwritten :=
        World.Unwritten.like (fun _ => List.not_mem_nil) hbegun
      obtain ⟨hboth, htidied⟩ := runStages_tidied hbegun.toAlike hno
        (lacks_firstStages hstart hfirst) htame
      exact ⟨hboth, htidied.like hend hend'⟩

def plainRoot : Disk :=
  .holding [(["java"], .file [] 0o755), (["run"], .directory 0o755),
    (["results", "run"], .directory 0o755), (["old.tuples", "results", "run"], .file [1] 0o644)]

/-- The engine writes relations and maps into the working directory, and another map
into the root. -/
theorem cleanup_takes_programs_of_full_run :
    let plan : Plan := ⟨"Main", .datalog ⟨"q.dtl"⟩, .full,
      some ⟨⟨"vP.tuples"⟩, ⟨"name.map"⟩, ⟨"named"⟩⟩⟩
    let host : Host := .scripted []
      [⟨[.write ⟨"results/unmunged_method.map"⟩ [], .write ⟨"results/unmunged_name.map"⟩ [97, 10],
        .write ⟨"results/vP.tuples"⟩ [48, 10]], false, .code 0⟩,
      ⟨[.write ⟨"map_H0"⟩ []], false, .code 0⟩]
    let s := Setup.usual
    (plainRoot.Lacks s.workDir programFiles ∧
      (runStages host s plan.firstStages (.ofDisk plainRoot)).2.disk.Lacks s.workDir programFiles ∧
      Tame host s plan.map (plan.run host (s.tidying true) (.ofDisk plainRoot)).2.calls
        (plan.run host (s.tidying false) (.ofDisk plainRoot)).2.calls) ∧
    (plan.run host (s.tidying true) (.ofDisk plainRoot)).1.map Completed.outcomes =
      (plan.run host (s.tidying false) (.ofDisk plainRoot)).1.map Completed.outcomes ∧
    Tidied host s (plan.run host (s.tidying true) (.ofDisk plainRoot)).2
      (plan.run host (s.tidying false) (.ofDisk plainRoot)).2 := by
  intro plan host s
  obtain ⟨hstart, hfirst, htame⟩ : plainRoot.Lacks s.workDir programFiles ∧
      (runStages host s plan.firstStages (.ofDisk plainRoot)).2.disk.Lacks s.workDir programFiles ∧
      Tame host s plan.map (plan.run host (s.tidying true) (.ofDisk plainRoot)).2.calls
        (plan.run host (s.tidying false) (.ofDisk plainRoot)).2.calls := by
    decide +kernel
  exact ⟨⟨hstart, hfirst, htame⟩,
    cleanup_takes_programs_only plan host s plainRoot hstart (fun _ => hfirst) htame⟩

/-- On crooked ways program files matter. Where a link that is wiped leads the working
directory elsewhere, an old program file there outlasts the run. Where a map is looked
up beyond a program file, the error tells whether that file is there. -/
theorem cleanup_shows_on_crooked_ways :
    let rerouted : Disk := .holding [(["java"], .file [] 0o755), (["run"], .directory 0o755),
      (["sub", "run"], .directory 0o755), (["deep", "sub", "run"], .directory 0o755),
      (["l", "run"], .link ⟨"sub/deep"⟩), (["l"], .directory 0o755),
      (["unmunged_method.map", "l"], .file [] 0o644), (["unmunged_name.map", "l"], .file [] 0o644),
      (["dumpat.dtl", "l"], .file [] 0o644)]
    let full : Plan := ⟨"Main", .datalog ⟨"q.dtl"⟩, .full, none⟩
    let beyond : Plan :=
      ⟨"Main", .datalog ⟨"q.dtl"⟩, .fast, some ⟨⟨"t"⟩, ⟨"number.dtl/x"⟩, ⟨"named"⟩⟩⟩
    let host : Host := .scripted [] []
    let linked : Setup := .working ⟨"/run"⟩ ⟨"l/../../l"⟩
    let lost : Path := ⟨"/run/results/number.dtl/x"⟩
    (rerouted.Lacks linked.workDir programFiles ∧
      ¬ (full.run host (linked.tidying true) (.ofDisk rerouted)).2.disk.Lacks
        linked.workDir programFiles) ∧
    plainRoot.Lacks Setup.usual.workDir programFiles ∧
      (beyond.run host (Setup.usual.tidying true) (.ofDisk plainRoot)).1 =
        .error (.disk lost (.system .noEntry)) ∧
      (beyond.run host (Setup.usual.tidying false) (.ofDisk plainRoot)).1 =
        .error (.disk lost (.system .notDirectory)) := by
  decide +kernel

end Plan
end PointsTo
