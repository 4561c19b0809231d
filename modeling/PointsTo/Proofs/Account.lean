import PointsTo.Proofs.InTurn
import PointsTo.Proofs.Mirror
import PointsTo.Session

/-!
What a run that goes through has to show. Each stage shows how the last of its calls
ended, and the report says so stage by stage. The output of the analysis is what the
last call of all printed.
-/

namespace PointsTo

/-- How the last of some calls ended, which were made after those of `past`. -/
def Engine.lastEnd? (e : Engine) (past made : List EngineCall) : Option Finished :=
  made.getLast?.map fun call => (e.respond (past ++ made.dropLast) call).finished .merge

theorem Engine.lastEnd?_append (e : Engine) (past made : List EngineCall) (call : EngineCall) :
    e.lastEnd? past (made ++ [call]) = some ((e.respond (past ++ made) call).finished .merge) := by
  simp [lastEnd?]

namespace Run

variable {α β : Type} {host : Host} {mode : ErrorStream}

theorem Silent.calls {x : Run α} {w w' : World} {r : Except Failure α} (h : x.Silent)
    (hx : x w = (r, w')) : w'.calls = w.calls := by
  have hsame := h w
  rwa [hx] at hsame

def Gives (x : Run α) (P : α → Prop) : Prop :=
  ∀ w w' a, x w = (.ok a, w') → P a

theorem gives_pure {P : α → Prop} {a : α} (h : P a) : (pure a : Run α).Gives P := by
  intro w w' b hb
  cases hb
  exact h

theorem Gives.bind {P : β → Prop} {x : Run α} {f : α → Run β} (hf : ∀ a, (f a).Gives P) :
    (x >>= f).Gives P := by
  intro w w' b h
  obtain ⟨a, w₁, _, hfa⟩ := Attempt.bind_eq_ok_iff.1 h
  exact hf a _ _ _ hfa

/-- A step that makes one call and gives its end. -/
def Closes (host : Host) (mode : ErrorStream) (x : Run Finished) : Prop :=
  ∀ w w' f, x w = (.ok f, w') → ∃ call, w'.calls = w.calls ++ [call] ∧
    f = (host.engine.respond w.calls call).finished mode

def Concludes (host : Host) (x : Run Outcome) : Prop :=
  ∀ w w' o, x w = (.ok o, w') → ∃ past call, w.calls <+: past ∧ w'.calls = past ++ [call] ∧
    o.process = some ((host.engine.respond past call).finished .merge)

/-- The outcome says of the last call how it ended, and nothing if there was none. -/
structure Ended (host : Host) (past made : List EngineCall) (o : Outcome) : Prop where
  code : o.process.bind Finished.code = (host.engine.lastEnd? past made).bind Finished.code
  success : o.process.all Finished.success =
    (host.engine.lastEnd? past made).all Finished.success

def Shows (host : Host) (x : Run Outcome) : Prop :=
  ∀ w w' o made, x w = (.ok o, w') → w'.calls = w.calls ++ made → Ended host w.calls made o

theorem Concludes.shows {x : Run Outcome} (h : x.Concludes host) : x.Shows host := by
  intro w w' o made hx hmade
  obtain ⟨_, call, ⟨more, rfl⟩, hcalls, hprocess⟩ := h _ _ _ hx
  rw [hmade, List.append_assoc] at hcalls
  cases List.append_cancel_left hcalls
  constructor <;> rw [hprocess, Engine.lastEnd?_append]

theorem Silent.shows {x : Run Outcome} (h : x.Silent) (hnone : x.Gives (·.process = none)) :
    x.Shows host := by
  intro w w' o made hx hmade
  cases List.self_eq_append_right.1 ((h.calls hx).symm.trans hmade)
  constructor <;> rw [hnone _ _ _ hx] <;> rfl

theorem Shows.after {x : Run α} {f : α → Run Outcome} (hx : x.Silent)
    (hf : ∀ a, (f a).Shows host) : (x >>= f).Shows host := by
  intro w w' o made h hmade
  obtain ⟨a, w₁, hxa, hfa⟩ := Attempt.bind_eq_ok_iff.1 h
  rw [← hx.calls hxa] at hmade ⊢
  exact hf a _ _ _ _ hfa hmade

theorem Closes.concludes {x : Run Finished} {f : Finished → Run Outcome}
    (hx : x.Closes host .merge) (hf : ∀ a, (f a).Silent)
    (hprocess : ∀ a, (f a).Gives (·.process = some a)) : (x >>= f).Concludes host := by
  intro w w' o h
  obtain ⟨a, w₁, hxa, hfa⟩ := Attempt.bind_eq_ok_iff.1 h
  obtain ⟨call, hcalls, rfl⟩ := hx _ _ _ hxa
  exact ⟨w.calls, call, List.prefix_refl _, ((hf _).calls hfa).trans hcalls,
    hprocess _ _ _ _ hfa⟩

theorem Concludes.after {x : Run α} {f : α → Run Outcome}
    (hx : x.Extends) (hf : ∀ a, (f a).Concludes host) :
    (x >>= f).Concludes host := by
  intro w w' o h
  obtain ⟨a, w₁, hxa, hfa⟩ := Attempt.bind_eq_ok_iff.1 h
  obtain ⟨past, call, hpast, hcalls, hprocess⟩ := hf a _ _ _ hfa
  have hbefore := hx w
  rw [hxa] at hbefore
  exact ⟨past, call, hbefore.trans hpast, hcalls, hprocess⟩

end Run

namespace Stage

open Run

variable {host : Host} {s : Setup} {mode : ErrorStream}

theorem closes_call (command : Command) : (call host s command mode).Closes host mode := by
  intro w w' f h
  obtain ⟨call, _, _, hcalls, hf, _⟩ := invoke_ok h
  exact ⟨call, hcalls, hf⟩

theorem closes_solveText (label fileName text : String) :
    (solveText host s label fileName text mode).Closes host mode := by
  intro w w' f h
  rcases solveText_cases h with ⟨⟨_, he⟩, _⟩ | ⟨_, _, ⟨⟨_, he⟩, _⟩ | ⟨call, _, _, _, hcalls, _, hr⟩⟩
  · cases he
  · cases he
  · rcases hr with hr | ⟨_, _, _, he⟩
    · cases hr
      exact ⟨call, hcalls, rfl⟩
    · cases he

theorem concludes_count : (count.run host s).Concludes host := by
  refine (closes_solveText _ _ _).concludes (fun f => ?_) fun f => ?_
  · exact (silent_ofExcept _).bind fun counted =>
      (silent_applyCount counted).bind fun _ => silent_pure _
  · exact Gives.bind fun _ => Gives.bind fun _ => gives_pure rfl

/-- The end of a solver, once its exit is checked. -/
theorem concludes_checked {x : Run Finished} (hx : x.Closes host .merge) (label : String)
    (summary : Option String) :
    (x >>= fun f => checkExit s label f >>= fun _ => pure ⟨some f, summary⟩ : Run Outcome).Concludes
      host :=
  hx.concludes (fun f => (silent_checkExit _ f).bind fun _ => silent_pure _) fun _ =>
    Gives.bind fun _ => gives_pure rfl

theorem concludes_number : (number.run host s).Concludes host :=
  concludes_checked (closes_solveText _ _ _) _ _

theorem concludes_solve (program : Path) : ((solve program).run host s).Concludes host := by
  refine Concludes.after (silent_tell _ _ _ _).extends fun _ => ?_
  refine Concludes.after (silent_ofExcept _).extends fun command => ?_
  exact concludes_checked (closes_call command) _ _

theorem concludes_query (query : Path) : ((Stage.query query).run host s).Concludes host := by
  refine Concludes.after (follows_solveText _ _ _).later fun types => ?_
  refine Concludes.after (silent_checkExit _ types).extends fun _ => ?_
  refine Concludes.after (follows_compileQuery query).later fun program => ?_
  exact concludes_checked (closes_solveText _ _ _) _ _

theorem ending_of_requireSuccess {r : Response} {label : String}
    (h : (r.finished mode).requireSuccess label = .ok ()) :
    (r.finished mode).code = some 0 ∧ (r.finished mode).success = true := by
  unfold Finished.requireSuccess at h
  split at h
  · next hs => exact ⟨of_decide_eq_true hs, hs⟩
  · cases h

/-- Two calls that both must succeed. They end alike, and what the first one ended with
stands for both. -/
theorem shows_both {command : Command} {command' : Except Failure Command} {label : String}
    {f : Finished → Finished → Run Outcome} {told : Run Unit} (htold : told.Silent)
    (hf : ∀ a b, (f a b).Silent)
    (hprocess : ∀ a b, (f a b).Gives (∃ output, ·.process = some { a with output := output })) :
    (call host s command .merge >>= fun a => Attempt.ofExcept (a.requireSuccess label) >>= fun _ =>
      told >>= fun _ => Attempt.ofExcept command' >>= fun c => call host s c .merge >>= fun b =>
        Attempt.ofExcept (b.requireSuccess label) >>= fun _ => f a b : Run Outcome).Shows host := by
  intro w w' o made h hmade
  obtain ⟨a, w₁, ha, h₁⟩ := Attempt.bind_eq_ok_iff.1 h
  obtain ⟨_, _, hr, h₂⟩ := Attempt.bind_eq_ok_iff.1 h₁
  obtain ⟨hsuccess, rfl⟩ := Attempt.ofExcept_cases hr
  obtain ⟨_, w₃, ht, h₃⟩ := Attempt.bind_eq_ok_iff.1 h₂
  obtain ⟨c, _, hc, h₄⟩ := Attempt.bind_eq_ok_iff.1 h₃
  obtain ⟨_, rfl⟩ := Attempt.ofExcept_cases hc
  obtain ⟨b, w₅, hb, h₅⟩ := Attempt.bind_eq_ok_iff.1 h₄
  obtain ⟨_, _, hr', h₆⟩ := Attempt.bind_eq_ok_iff.1 h₅
  obtain ⟨hsuccess', rfl⟩ := Attempt.ofExcept_cases hr'
  obtain ⟨call, hcalls, rfl⟩ := closes_call command _ _ _ ha
  obtain ⟨call', hcalls', rfl⟩ := closes_call c _ _ _ hb
  have hsame := htold.calls ht
  rw [hsame, hcalls] at hcalls'
  have hlast := (hf _ _).calls h₆
  rw [hmade, hcalls', List.append_assoc] at hlast
  cases List.append_cancel_left hlast
  obtain ⟨output, hshown⟩ := hprocess _ _ _ _ _ h₆
  obtain ⟨hcode, hs⟩ := ending_of_requireSuccess hsuccess
  obtain ⟨hcode', hs'⟩ := ending_of_requireSuccess hsuccess'
  rw [hsame, hcalls] at hcode' hs'
  constructor
  · rw [hshown, Engine.lastEnd?_append, Option.bind_some, Option.bind_some, hcode', hcode]
  · rw [hshown, Engine.lastEnd?_append, Option.all_some, Option.all_some, hs', hs]

theorem shows_relations (entryPoint : String) : ((relations entryPoint).run host s).Shows host := by
  refine Shows.after (silent_onDisk _) fun _ => Shows.after (silent_tell _ _ _ _) fun _ => ?_
  refine Shows.after (silent_ofExcept _) fun command => ?_
  refine shows_both (silent_tell _ _ _ _) (fun dump equivalence => ?_) fun dump equivalence => ?_
  · refine (silent_onDisk _).bind fun _ => (silent_tell _ _ _ _).bind fun _ => ?_
    exact (silent_tell _ _ _ _).bind fun _ => (silent_onDisk _).bind fun _ => silent_pure _
  · exact Gives.bind fun _ => Gives.bind fun _ => Gives.bind fun _ => Gives.bind fun _ =>
      gives_pure ⟨_, rfl⟩

theorem shows_prepare (mode : Mode) : ((prepare mode).run host s).Shows host := by
  refine Silent.shows (fun _ => prepare_calls (Prod.eta _).symm) ?_
  cases mode with
  | full => exact Gives.bind fun _ => Gives.bind fun _ => Gives.bind fun _ => gives_pure rfl
  | fast =>
      refine Gives.bind fun present => ?_
      cases present with
      | true => exact Gives.bind fun _ => gives_pure rfl
      | false => exact fun _ _ _ h => nomatch h

theorem shows_naming (request : MapRequest) : ((naming request).run host s).Shows host := by
  refine (silent_naming request).shows (Gives.bind fun mapped => ?_)
  dsimp only
  split
  · exact Gives.bind fun _ => gives_pure rfl
  · exact gives_pure rfl

end Stage

namespace Runner

open Run

variable {host : Host} {s : Setup} {stages : List Stage} {w w' : World}

/-- The reports of stages that went through one after the other. Each stage has made the
calls of its own list, and its report says how the last of them ended. -/
inductive Accounts (host : Host) : List EngineCall → List (Stage × List Launch) →
    List StageReport → List EngineCall → Prop where
  | done {calls : List EngineCall} : Accounts host calls [] [] calls
  | stage {past made calls : List EngineCall} {stage : Stage} {launches : List Launch}
      {schedule : List (Stage × List Launch)} {report : StageReport} {reports : List StageReport} :
      made.map EngineCall.launch? = launches.map some → report.id = stage.id →
      report.exitCode = (host.engine.lastEnd? past made).bind Finished.code →
      report.success = (host.engine.lastEnd? past made).all Finished.success →
      Accounts host (past ++ made) schedule reports calls →
      Accounts host past ((stage, launches) :: schedule) (report :: reports) calls

theorem Accounts.ids {past calls : List EngineCall} {schedule : List (Stage × List Launch)}
    {reports : List StageReport} (h : Accounts host past schedule reports calls) :
    reports.map StageReport.id = schedule.map (·.1.id) := by
  induction h with
  | done => rfl
  | stage _ hid _ _ _ ih => simp [hid, ih]

theorem accounts_of_runStages {schedule : List (Stage × List Launch)}
    {kept : List (StageReport × String × Outcome)}
    (h : runStages host s (schedule.map Prod.fst) w = (.ok kept, w'))
    (hfollows : ∀ x ∈ schedule, Follows s x.2 (x.1.run host s))
    (hshows : ∀ x ∈ schedule, (x.1.run host s).Shows host) :
    Accounts host w.calls schedule (kept.map Prod.fst) w'.calls := by
  induction schedule generalizing w kept with
  | nil =>
      cases h
      exact .done
  | cons x schedule ih =>
      rw [List.forall_mem_cons] at hfollows hshows
      obtain ⟨first, w₁, hfirst, h₁⟩ := Attempt.bind_eq_ok_iff.1 h
      obtain ⟨more, w₂, hmore, h₂⟩ := Attempt.bind_eq_ok_iff.1 h₁
      cases h₂
      obtain ⟨y, hstage, hfound, hy, hleft, ⟨_, hok, _, hreported⟩ | ⟨_, he, _⟩⟩ :=
        runStage_cases hfirst
      · cases hok
        unfold Execution.Holds at hy
        rw [hstage, hreported.result] at hy
        obtain ⟨launches, _, ⟨made, hcalls, hmade, _⟩, hall⟩ := hfollows.1 _ _ _ hy
        cases hall _ rfl
        obtain ⟨hcode, hsuccess⟩ := hshows.1 _ _ _ _ hy hcalls
        rw [hfound.calls] at hcalls hcode hsuccess
        have hrest := ih hmore hfollows.2 hshows.2
        rw [hleft.calls, hcalls] at hrest
        refine .stage hmade (hreported.id.trans (congrArg Stage.id hstage)) ?_ ?_ hrest
        · rw [hreported.exitCode, ← hcode]
          cases first.2.2.process <;> rfl
        · rw [hreported.success, ← hsuccess]
          cases first.2.2.process <;> rfl
      · cases he

theorem ids_of_runStages {kept : List (StageReport × String × Outcome)}
    (h : runStages host s stages w = (.ok kept, w')) :
    kept.map (·.2.1) = stages.map Stage.id := by
  induction stages generalizing w kept with
  | nil =>
      cases h
      rfl
  | cons stage stages ih =>
      obtain ⟨first, w₁, hfirst, h₁⟩ := Attempt.bind_eq_ok_iff.1 h
      obtain ⟨more, w₂, hmore, h₂⟩ := Attempt.bind_eq_ok_iff.1 h₁
      cases h₂
      obtain ⟨y, hstage, _, _, _, ⟨_, hok, hid, _⟩ | ⟨_, he, _⟩⟩ := runStage_cases hfirst
      · cases hok
        rw [List.map_cons, List.map_cons, ih hmore, hid, hstage]
      · cases he

/-- A run that went through is one of its stages, and shows what they show. -/
theorem run_ok {c : Completed} (h : Runner.run host s stages w = (.ok c, w')) :
    ∃ v v' kept, w.Alike v ∧ runStages host s stages v = (.ok kept, v') ∧ v'.Alike w' ∧
      c.report.stages = kept.map Prod.fst ∧ c.outcomes = kept.map Prod.snd := by
  obtain ⟨_, _, hlook, h₁⟩ := Attempt.bind_eq_ok_iff.1 h
  obtain ⟨_, rfl⟩ := lookAtDisk_cases hlook
  obtain ⟨_, w₂, hw₂, h₂⟩ := Paces.bind_cases (paces_readClock host) h₁
  obtain ⟨_, w₃, hw₃, h₃⟩ := Paces.bind_cases (paces_tell _ _ _ _) h₂
  obtain ⟨kept, w₄, hkept, h₄⟩ := Attempt.bind_eq_ok_iff.1 h₃
  obtain ⟨_, w₅, hw₅, h₅⟩ := Paces.bind_cases (paces_readClock host) h₄
  cases h₅
  exact ⟨w₃, w₄, kept, hw₂.toAlike.trans hw₃.toAlike, hkept, hw₅.toAlike, rfl, rfl⟩

end Runner

namespace Completed

variable {c : Completed} {id : String} {o : Outcome} {before after : List (String × Outcome)}

theorem outcome?_eq_some (h : c.outcomes = before ++ (id, o) :: after)
    (hbefore : id ∉ before.map Prod.fst) : c.outcome? id = some o := by
  have hnone : before.find? (·.1 = id) = none :=
    List.find?_eq_none.2 fun x hx he =>
      hbefore (List.mem_map.2 ⟨x, hx, of_decide_eq_true he⟩)
  rw [outcome?, h, List.find?_append, hnone, Option.none_or, List.find?_cons_of_pos (by simp)]
  rfl

theorem outcome?_eq_none (h : id ∉ c.outcomes.map Prod.fst) : c.outcome? id = none := by
  rw [outcome?, List.find?_eq_none.2 fun x hx he =>
    h (List.mem_map.2 ⟨x, hx, of_decide_eq_true he⟩)]
  rfl

end Completed

namespace Plan

open Run Runner Stage

variable {host : Host} {s : Setup} {w w' : World}

theorem concludes_analysisStage (plan : Plan) (host : Host) (s : Setup) :
    (plan.analysisStage.run host s).Concludes host := by
  unfold analysisStage
  cases plan.analysis with
  | datalog program => exact concludes_solve program
  | query query => exact concludes_query query

theorem shows_schedule (plan : Plan) (host : Host) (s : Setup) :
    ∀ x ∈ plan.schedule s, (x.1.run host s).Shows host := by
  unfold schedule
  simp only [List.forall_mem_append, List.forall_mem_cons, List.not_mem_nil, false_implies,
    implies_true, and_true, List.forall_mem_map]
  refine ⟨⟨⟨shows_prepare _, ?_⟩, concludes_count.shows, concludes_number.shows,
    (concludes_analysisStage plan host s).shows⟩, fun request _ => shows_naming request⟩
  split
  · exact List.forall_mem_singleton.2 (shows_relations plan.entryPoint)
  · nofun

/-- The report of a run that went through accounts for all its calls. -/
theorem accounts_of_run {plan : Plan} {c : Completed} (h : plan.run host s w = (.ok c, w')) :
    Accounts host w.calls (plan.schedule s) c.report.stages w'.calls := by
  obtain ⟨v, v', kept, hv, hkept, hv', hstages, _⟩ := run_ok h
  rw [stages_eq_schedule plan s] at hkept
  rw [hstages, ← hv.calls, hv'.calls]
  exact accounts_of_runStages hkept (follows_schedule plan host s) (shows_schedule plan host s)

def otherLabel (plan : Plan) : String :=
  match plan.analysis with
  | .datalog _ => Setup.queryLabel
  | .query _ => solveLabel

def openingStages (plan : Plan) : List Stage :=
  [.prepare plan.mode] ++ (if plan.mode = .full then [.relations plan.entryPoint] else []) ++
    [.count, .number]

theorem stages_eq_openingStages (plan : Plan) :
    plan.stages = plan.openingStages ++ plan.analysisStage :: plan.map.toList.map .naming := by
  simp [stages, openingStages]

theorem not_mem_opening (plan : Plan) : plan.analysisStage.id ∉ plan.openingStages.map Stage.id := by
  unfold analysisStage openingStages
  cases plan.analysis <;> cases plan.mode <;>
    simp [prepare, relations, count, number, solve, query, countLabel, numberLabel, solveLabel,
      Setup.relationsLabel, Setup.queryLabel]

theorem otherLabel_not_mem (plan : Plan) : plan.otherLabel ∉ plan.stages.map Stage.id := by
  unfold otherLabel stages analysisStage
  cases plan.analysis <;> cases plan.mode <;> cases plan.map <;>
    simp [prepare, relations, count, number, solve, query, naming, countLabel, numberLabel,
      solveLabel, Setup.relationsLabel, Setup.queryLabel]

theorem analysisOutput_eq {plan : Plan} {c : Completed} {f : Finished} {o : Outcome}
    (hshown : c.outcome? plan.analysisStage.id = some o) (hother : c.outcome? plan.otherLabel = none)
    (hprocess : o.process = some f) : Session.analysisOutput c = f.outputText ++ "\n" := by
  unfold analysisStage at hshown
  unfold otherLabel at hother
  unfold Session.analysisOutput
  cases hp : plan.analysis <;> simp_all [solve, query, String.join]

/-- What is printed of a run that went through is what its last call printed. -/
theorem output_of_run {plan : Plan} {c : Completed} (h : plan.run host s w = (.ok c, w')) :
    ∃ past call, w'.calls = past ++ [call] ∧ Session.analysisOutput c =
      ((host.engine.respond past call).finished .merge).outputText ++ "\n" := by
  obtain ⟨v, v', kept, hv, hkept, hv', _, houtcomes⟩ := run_ok h
  have hids := ids_of_runStages hkept
  rw [stages_eq_openingStages, runStages_append] at hkept
  obtain ⟨first, v₁, hfirst, h₁⟩ := Attempt.bind_eq_ok_iff.1 hkept
  obtain ⟨rest, v₂, hrest, h₂⟩ := Attempt.bind_eq_ok_iff.1 h₁
  cases h₂
  obtain ⟨shown, v₃, hshown, h₃⟩ := Attempt.bind_eq_ok_iff.1 hrest
  obtain ⟨last, v₄, hlast, h₄⟩ := Attempt.bind_eq_ok_iff.1 h₃
  cases h₄
  obtain ⟨y, hstage, hfound, hy, hleft, ⟨_, hok, hid, hreported⟩ | ⟨_, he, _⟩⟩ :=
    runStage_cases hshown
  · cases hok
    unfold Execution.Holds at hy
    rw [hstage, hreported.result] at hy
    obtain ⟨past, call, _, hcalls, hprocess⟩ := concludes_analysisStage plan host s _ _ _ hy
    have hnamed := (naming_of_ran (ran_of_runStages hlast)).1
    have hsplit : c.outcomes = first.map Prod.snd ++
        (plan.analysisStage.id, shown.2.2) :: last.map Prod.snd := by
      rw [houtcomes, List.map_append, List.map_cons, ← hstage, ← hid]
    have hfound : c.outcome? plan.analysisStage.id = some shown.2.2 := by
      refine Completed.outcome?_eq_some hsplit ?_
      rw [List.map_map]
      exact ids_of_runStages hfirst ▸ plan.not_mem_opening
    have hother : c.outcome? plan.otherLabel = none := by
      refine Completed.outcome?_eq_none ?_
      rw [houtcomes, List.map_map]
      exact hids ▸ plan.otherLabel_not_mem
    exact ⟨past, call, by rw [hv'.calls, hnamed, hleft.calls, hcalls],
      analysisOutput_eq hfound hother hprocess⟩
  · cases he

end Plan
end PointsTo
