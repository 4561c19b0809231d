import Mathlib.Data.List.Forall2
import PointsTo.Proofs.Runner

/-!
What it means to run stages: they are executed one after the other, each in the world
that the one before it left, until one fails. In between events are told and clocks
are read, and nothing else happens.
-/

namespace PointsTo

namespace World

structure Paced (w w' : World) : Prop extends Alike w w' where
  events : w.events <+: w'.events
  clockReadings : w.clockReadings ≤ w'.clockReadings

theorem Paced.refl (w : World) : w.Paced w :=
  ⟨.refl w, List.prefix_refl _, Nat.le_refl _⟩

theorem Paced.trans {u v w : World} (h : u.Paced v) (h' : v.Paced w) : u.Paced w where
  toAlike := h.toAlike.trans h'.toAlike
  events := h.events.trans h'.events
  clockReadings := Nat.le_trans h.clockReadings h'.clockReadings

theorem paced_tell (w : World) (e : Log.Event) : w.Paced (w.tell e) :=
  ⟨⟨rfl, rfl⟩, List.prefix_append _ _, Nat.le_refl _⟩

end World

namespace Run

variable {α β : Type} {w w' : World}

def Paces (x : Run α) (P : α → Prop) : Prop :=
  ∀ w, ∃ a w', x w = (.ok a, w') ∧ w.Paced w' ∧ P a

theorem paces_pure {P : α → Prop} {a : α} (h : P a) : Paces (pure a) P :=
  fun w => ⟨a, w, rfl, .refl w, h⟩

theorem paces_tell (source : Log.Source) (level : Log.Level) (message : String)
    (fields : List Log.Field) : Paces (tell source level message fields) fun _ => True :=
  fun w => ⟨(), _, rfl, w.paced_tell _, trivial⟩

theorem paces_readClock (host : Host) : Paces (readClock host) fun _ => True :=
  fun _ => ⟨_, _, rfl, ⟨⟨rfl, rfl⟩, List.prefix_refl _, Nat.le_succ _⟩, trivial⟩

theorem paces_readTicks (host : Host) : Paces (readTicks host) fun _ => True :=
  fun _ => ⟨_, _, rfl, ⟨⟨rfl, rfl⟩, List.prefix_refl _, Nat.le_succ _⟩, trivial⟩

theorem Paces.bind {P : α → Prop} {Q : β → Prop} {x : Run α} {f : α → Run β} (hx : Paces x P)
    (hf : ∀ a, P a → Paces (f a) Q) : Paces (x >>= f) Q := by
  intro w
  obtain ⟨a, w₁, ha, hw₁, hP⟩ := hx w
  obtain ⟨b, w₂, hb, hw₂, hQ⟩ := hf a hP w₁
  exact ⟨b, w₂, (Attempt.bind_ok ha).trans hb, hw₁.trans hw₂, hQ⟩

theorem Paces.bind_cases {P : α → Prop} {x : Run α} {f : α → Run β} {r : Except Failure β}
    (hx : Paces x P) (h : (x >>= f) w = (r, w')) : ∃ a w₁, w.Paced w₁ ∧ f a w₁ = (r, w') := by
  obtain ⟨a, w₁, ha, hw₁, _⟩ := hx w
  exact ⟨a, w₁, hw₁, (Attempt.bind_ok ha).symm.trans h⟩

/-- A step after which nothing can fail. -/
theorem Paces.of_bind {Q : α → β → Prop} {x : Run α} {f : α → Run β} {r : Except Failure β}
    (hf : ∀ a, Paces (f a) (Q a)) (h : (x >>= f) w = (r, w')) :
    (∃ a w₁ b, x w = (.ok a, w₁) ∧ r = .ok b ∧ Q a b ∧ w₁.Paced w') ∨
      ∃ e, x w = (.error e, w') ∧ r = .error e := by
  rcases Attempt.bind_cases h with ⟨a, w₁, ha, hfa⟩ | he
  · obtain ⟨b, w₂, hb, hw₂, hQ⟩ := hf a w₁
    cases hb.symm.trans hfa
    exact Or.inl ⟨a, w₁, b, ha, rfl, hQ, hw₂⟩
  · exact Or.inr he

end Run

namespace Runner

open Run

structure Execution where
  stage : Stage
  found : World
  result : Except Failure Outcome
  left : World

def Execution.Holds (host : Host) (s : Setup) (x : Execution) : Prop :=
  x.stage.run host s x.found = (x.result, x.left)

/-- Executions one after the other. Each stage finds what the one before it left, and
after a failure there is none. -/
inductive InTurn (host : Host) (s : Setup) : World → List Execution → World → Prop where
  | none {w w' : World} : w.Paced w' → InTurn host s w [] w'
  | failed {w w' : World} {x : Execution} {e : Failure} : w.Paced x.found → x.Holds host s →
      x.result = .error e → x.left.Paced w' → InTurn host s w [x] w'
  | passed {w w' : World} {x : Execution} {xs : List Execution} {outcome : Outcome} :
      w.Paced x.found → x.Holds host s → x.result = .ok outcome → InTurn host s x.left xs w' →
      InTurn host s w (x :: xs) w'

variable {host : Host} {s : Setup} {stage : Stage} {stages : List Stage} {w w' v : World}
  {x : Execution} {xs : List Execution}

theorem InTurn.before (hw : v.Paced w) (h : InTurn host s w xs w') : InTurn host s v xs w' := by
  cases h with
  | none hw' => exact .none (hw.trans hw')
  | failed hfound hx he hleft => exact .failed (hw.trans hfound) hx he hleft
  | passed hfound hx ho hrest => exact .passed (hw.trans hfound) hx ho hrest

theorem InTurn.after (h : InTurn host s w xs w') (hw : w'.Paced v) : InTurn host s w xs v := by
  induction h with
  | none hw' => exact .none (hw'.trans hw)
  | failed hfound hx he hleft => exact .failed hfound hx he (hleft.trans hw)
  | passed hfound hx ho _ ih => exact .passed hfound hx ho (ih hw)

structure Execution.Reported (x : Execution) (outcome : Outcome) (report : StageReport) : Prop where
  result : x.result = .ok outcome
  id : report.id = x.stage.id
  exitCode : report.exitCode = match outcome.process with
    | some f => f.code
    | none => none
  success : report.success = match outcome.process with
    | some f => f.success
    | none => true
  outputHash : report.outputHash = match outcome.process with
    | some f => some (digest f.output)
    | none => none
  summary : report.summary = outcome.summary

theorem reported_stageReport {outcome : Outcome} (h : x.result = .ok outcome) (latencyMs : Nat) :
    x.Reported outcome (stageReport x.stage.id latencyMs outcome) where
  result := h
  id := rfl
  exitCode := by cases hp : outcome.process <;> simp [stageReport, hp]
  success := by cases hp : outcome.process <;> simp [stageReport, hp]
  outputHash := by cases hp : outcome.process <;> simp [stageReport, hp]
  summary := rfl

def Execution.Kept (x : Execution) (kept : StageReport × String × Outcome) : Prop :=
  kept.2.1 = x.stage.id ∧ x.Reported kept.2.2 kept.1

/-- A stage that is run is executed, and what is kept or the failure is that of the
execution. -/
theorem runStage_cases {r : Except Failure (StageReport × String × Outcome)}
    (h : runStage host s stage w = (r, w')) :
    ∃ x : Execution, x.stage = stage ∧ w.Paced x.found ∧ x.Holds host s ∧ x.left.Paced w' ∧
      ((∃ kept, r = .ok kept ∧ x.Kept kept) ∨ ∃ e, r = .error e ∧ x.result = .error e) := by
  obtain ⟨start, w₁, hw₁, h₁⟩ := Paces.bind_cases (paces_readTicks host) h
  obtain ⟨_, w₂, hw₂, h₂⟩ := Paces.bind_cases (paces_tell _ _ _ _) h₁
  have hfound := hw₁.trans hw₂
  have hclosed := Paces.of_bind (Q := fun outcome kept =>
    ∃ latencyMs, kept = (stageReport stage.id latencyMs outcome, stage.id, outcome)) ?closing h₂
  case closing =>
    intro outcome
    refine (paces_readTicks host).bind fun finish _ => ?_
    have hlast : Paces (do
        tell .core .info "stage finished"
          [.inQuotes "stage" stage.id, .plain "latency_ms" (Decimal.text (finish - start)),
            .inQuotes "summary" (outcome.summary.getD "")]
        pure (stageReport stage.id (finish - start) outcome, stage.id, outcome))
        fun kept => ∃ latencyMs, kept = (stageReport stage.id latencyMs outcome, stage.id, outcome) :=
      (paces_tell _ _ _ _).bind fun _ _ => paces_pure ⟨_, rfl⟩
    dsimp only
    split
    · exact (paces_tell _ _ _ _).bind fun _ _ => hlast
    · exact hlast
  rcases hrun : stage.run host s w₂ with ⟨e | outcome, left⟩
  · refine ⟨⟨stage, w₂, .error e, left⟩, rfl, hfound, hrun, ?_⟩
    simp only [tellFailure, hrun] at hclosed
    rcases hclosed with ⟨_, _, _, hok, _⟩ | ⟨_, herror, hr⟩
    · cases hok
    · cases herror
      exact ⟨left.paced_tell _, Or.inr ⟨e, hr, rfl⟩⟩
  · refine ⟨⟨stage, w₂, .ok outcome, left⟩, rfl, hfound, hrun, ?_⟩
    simp only [tellFailure, hrun] at hclosed
    rcases hclosed with ⟨_, _, kept, hok, hr, ⟨latencyMs, rfl⟩, hleft⟩ | ⟨_, herror, _⟩
    · cases hok
      exact ⟨hleft, Or.inl ⟨_, hr, rfl, reported_stageReport rfl latencyMs⟩⟩
    · cases herror

/-- All stages were executed, and what was kept belongs to them one by one. -/
def Completes (stages : List Stage) (xs : List Execution)
    (kept : List (StageReport × String × Outcome)) : Prop :=
  xs.map Execution.stage = stages ∧ List.Forall₂ Execution.Kept xs kept

/-- The stages were executed up to the first one that fails. -/
def Breaks (stages : List Stage) (xs : List Execution) (e : Failure) : Prop :=
  ∃ before last later, xs = before ++ [last] ∧ stages = xs.map Execution.stage ++ later ∧
    (∀ x ∈ before, ∃ outcome, x.result = .ok outcome) ∧ last.result = .error e

theorem Completes.cons {kept : StageReport × String × Outcome}
    {more : List (StageReport × String × Outcome)} (hx : x.Kept kept)
    (h : Completes stages xs more) : Completes (x.stage :: stages) (x :: xs) (kept :: more) :=
  ⟨congrArg (x.stage :: ·) h.1, .cons hx h.2⟩

theorem Breaks.cons {outcome : Outcome} {e : Failure} (hx : x.result = .ok outcome)
    (h : Breaks stages xs e) : Breaks (x.stage :: stages) (x :: xs) e := by
  obtain ⟨before, last, later, rfl, hstages, hbefore, hlast⟩ := h
  refine ⟨x :: before, last, later, rfl, by rw [hstages]; rfl, ?_, hlast⟩
  exact List.forall_mem_cons.2 ⟨⟨outcome, hx⟩, hbefore⟩

theorem runStages_cases {r : Except Failure (List (StageReport × String × Outcome))}
    (h : runStages host s stages w = (r, w')) :
    ∃ xs, InTurn host s w xs w' ∧
      ((∃ kept, r = .ok kept ∧ Completes stages xs kept) ∨
        ∃ e, r = .error e ∧ Breaks stages xs e) := by
  induction stages generalizing w r with
  | nil =>
      cases h
      exact ⟨[], .none (.refl w'), Or.inl ⟨[], rfl, rfl, .nil⟩⟩
  | cons stage stages ih =>
      rcases Attempt.bind_cases h with ⟨first, w₁, hfirst, h₁⟩ | ⟨e, hfirst, rfl⟩
      · obtain ⟨x, rfl, hfound, hx, hleft, ⟨_, hok, hkept⟩ | ⟨_, he, _⟩⟩ := runStage_cases hfirst
        · cases hok
          have hresult := hkept.2.result
          rcases Attempt.bind_cases h₁ with ⟨more, w₂, hmore, h₂⟩ | ⟨e, hmore, rfl⟩
          · cases h₂
            obtain ⟨xs, hxs, ⟨_, hok, hcompletes⟩ | ⟨_, he, _⟩⟩ := ih hmore
            · cases hok
              exact ⟨x :: xs, .passed hfound hx hresult (hxs.before hleft),
                Or.inl ⟨_, rfl, hcompletes.cons hkept⟩⟩
            · cases he
          · obtain ⟨xs, hxs, ⟨_, hok, _⟩ | ⟨_, he, hbreaks⟩⟩ := ih hmore
            · cases hok
            · cases he
              exact ⟨x :: xs, .passed hfound hx hresult (hxs.before hleft),
                Or.inr ⟨_, rfl, hbreaks.cons hresult⟩⟩
        · cases he
      · obtain ⟨x, rfl, hfound, hx, hleft, ⟨_, hok, _⟩ | ⟨_, he, hresult⟩⟩ := runStage_cases hfirst
        · cases hok
        · cases he
          exact ⟨[x], .failed hfound hx hresult hleft,
            Or.inr ⟨_, rfl, [], x, stages, rfl, rfl, nofun, hresult⟩⟩

/-- After a failure the disk is what the failed stage left. -/
theorem InTurn.disk_of_breaks {e : Failure} {before : List Execution}
    (h : InTurn host s w (before ++ [x]) w') (hx : x.result = .error e) :
    w'.disk = x.left.disk ∧ w'.calls = x.left.calls := by
  induction before generalizing w with
  | nil =>
      cases h with
      | failed _ _ _ hleft => exact ⟨hleft.disk, hleft.calls⟩
      | passed _ _ ho _ => cases hx.symm.trans ho
  | cons y before ih =>
      generalize hys : (y :: before) ++ [x] = ys at h
      cases h with
      | none _ => cases hys
      | failed _ _ _ _ =>
          obtain ⟨_, hnil⟩ := List.cons.inj hys
          exact absurd hnil (by simp)
      | passed _ _ _ hrest =>
          obtain ⟨_, rfl⟩ := List.cons.inj hys
          exact ih hrest

/-- A configuration that is not accepted is the failure of the run, and nothing is done.
Otherwise the stages are executed in turn. If all succeed, the outcomes and the reports
are theirs, one by one; if one fails, its failure is that of the run, no later stage is
executed, and the disk is as it left it. -/
theorem run_executes_in_turn (host : Host) (s : Setup) (stages : List Stage) (w : World) :
    match s.config.validate w.disk with
    | .error e => Runner.run host s stages w = (.error e, w)
    | .ok () => ∃ xs, InTurn host s w xs (Runner.run host s stages w).2 ∧
        match (Runner.run host s stages w).1 with
        | .ok done => xs.map Execution.stage = stages ∧
            List.Forall₂ (fun x report => ∃ outcome, x.Reported outcome report) xs
              done.report.stages ∧
            List.Forall₂ (fun x outcome => outcome.1 = x.stage.id ∧ x.result = .ok outcome.2) xs
              done.outcomes
        | .error e => ∃ before last later, xs = before ++ [last] ∧
            stages = xs.map Execution.stage ++ later ∧
            (∀ x ∈ before, ∃ outcome, x.result = .ok outcome) ∧ last.result = .error e ∧
            (Runner.run host s stages w).2.disk = last.left.disk := by
  rcases hvalid : s.config.validate w.disk with e | _
  · have hlook : lookAtDisk s.config.validate w = (.error e, w) := Prod.ext hvalid rfl
    exact Attempt.bind_error hlook
  · have hlook : lookAtDisk s.config.validate w = (.ok (), w) := Prod.ext hvalid rfl
    rcases hrun : Runner.run host s stages w with ⟨r, w'⟩
    have hrest := (Attempt.bind_ok hlook).symm.trans hrun
    obtain ⟨startedAt, w₁, hw₁, h₁⟩ := Paces.bind_cases (paces_readClock host) hrest
    obtain ⟨_, w₂, hw₂, h₂⟩ := Paces.bind_cases (paces_tell _ _ _ _) h₁
    have hstart := hw₁.trans hw₂
    rcases Attempt.bind_cases h₂ with ⟨kept, w₃, hstages, h₃⟩ | ⟨e, hstages, rfl⟩
    · obtain ⟨finishedAt, w₄, hw₄, h₄⟩ := Paces.bind_cases (paces_readClock host) h₃
      cases h₄
      obtain ⟨xs, hxs, ⟨_, hok, hall, hkept⟩ | ⟨_, he, _⟩⟩ := runStages_cases hstages
      · cases hok
        refine ⟨xs, (hxs.before hstart).after hw₄, hall, ?_, ?_⟩
        · exact List.forall₂_map_right_iff.2 (hkept.imp fun _ _ h => ⟨_, h.2⟩)
        · exact List.forall₂_map_right_iff.2 (hkept.imp fun _ _ h => ⟨h.1, h.2.result⟩)
      · cases he
    · obtain ⟨xs, hxs, ⟨_, hok, _⟩ | ⟨_, he, before, last, later, rfl, hall, hbefore, hlast⟩⟩ :=
        runStages_cases hstages
      · cases hok
      · cases he
        exact ⟨before ++ [last], hxs.before hstart, before, last, later, rfl, hall, hbefore, hlast,
          (hxs.disk_of_breaks hlast).1⟩

end Runner
end PointsTo
