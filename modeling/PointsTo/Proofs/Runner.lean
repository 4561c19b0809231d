import PointsTo.Proofs.Calls

/-!
The stages of a run, one after the other. Telling and reading clocks change neither
the disk nor the calls, so a run is described up to them: each stage starts where
the one before it ended, and the first failure is the last thing that happens.
-/

namespace PointsTo

def failure? {α : Type} : Except Failure α → Option Failure
  | .ok _ => none
  | .error e => some e

theorem eq_error_of_failure? {α : Type} {r : Except Failure α} {e : Failure}
    (h : failure? r = some e) : r = .error e := by
  cases r with
  | ok a => cases h
  | error e' => rw [Option.some.inj h]

namespace World

structure Alike (w w' : World) : Prop where
  disk : w'.disk = w.disk
  calls : w'.calls = w.calls

theorem Alike.refl (w : World) : w.Alike w :=
  ⟨rfl, rfl⟩

theorem Alike.trans {u v w : World} (h : u.Alike v) (h' : v.Alike w) : u.Alike w :=
  ⟨h'.disk.trans h.disk, h'.calls.trans h.calls⟩

end World

namespace Run

variable {α β : Type} {w w' w'' : World} {e : Option Failure}

def Quiet (x : Run α) : Prop :=
  ∀ w, ∃ a w', x w = (.ok a, w') ∧ w.Alike w'

theorem quiet_pure (a : α) : Quiet (pure a) :=
  fun w => ⟨a, w, rfl, .refl w⟩

theorem quiet_tell (source : Log.Source) (level : Log.Level) (message : String)
    (fields : List Log.Field) : Quiet (tell source level message fields) :=
  fun _ => ⟨(), _, rfl, rfl, rfl⟩

theorem quiet_readClock (host : Host) : Quiet (readClock host) :=
  fun _ => ⟨_, _, rfl, rfl, rfl⟩

theorem quiet_readTicks (host : Host) : Quiet (readTicks host) :=
  fun _ => ⟨_, _, rfl, rfl, rfl⟩

theorem Quiet.bind {x : Run α} {f : α → Run β} (hx : Quiet x) (hf : ∀ a, Quiet (f a)) :
    Quiet (x >>= f) := by
  intro w
  obtain ⟨a, w₁, ha, hw₁⟩ := hx w
  obtain ⟨b, w₂, hb, hw₂⟩ := hf a w₁
  exact ⟨b, w₂, (Attempt.bind_ok ha).trans hb, hw₁.trans hw₂⟩

theorem Quiet.bind_cases {x : Run α} {f : α → Run β} {r : Except Failure β} (hx : Quiet x)
    (h : (x >>= f) w = (r, w')) : ∃ a w₁, w.Alike w₁ ∧ f a w₁ = (r, w') := by
  obtain ⟨a, w₁, ha, hw₁⟩ := hx w
  exact ⟨a, w₁, hw₁, (Attempt.bind_ok ha).symm.trans h⟩

/-- From a world like `w` the step leads to one like `w'`, and fails as said. -/
def Leads (x : Run α) (w : World) (e : Option Failure) (w' : World) : Prop :=
  ∃ w₀ w₁ r, w.Alike w₀ ∧ x w₀ = (r, w₁) ∧ w₁.Alike w' ∧ failure? r = e

theorem Leads.before {x : Run α} (h : w.Alike w') (hx : x.Leads w' e w'') : x.Leads w e w'' := by
  obtain ⟨w₀, w₁, r, hw, hrest⟩ := hx
  exact ⟨w₀, w₁, r, h.trans hw, hrest⟩

theorem Leads.of_bind {x : Run α} {f : α → Run β} {r : Except Failure β}
    (hf : ∀ a, Quiet (f a)) (h : (x >>= f) w = (r, w')) : x.Leads w (failure? r) w' := by
  rcases Attempt.bind_cases h with ⟨a, w₁, hx, hfa⟩ | ⟨e, hx, rfl⟩
  · obtain ⟨b, w₂, hb, hw₂⟩ := hf a w₁
    cases hfa.symm.trans hb
    exact ⟨w, w₁, .ok a, .refl w, hx, hw₂, rfl⟩
  · exact ⟨w, w', .error e, .refl w, hx, .refl w', rfl⟩

theorem Leads.keeps_at {x : Run α} {R : World → World → Prop} (hR : World.Chains R)
    (hx : ∀ w₀, w.Alike w₀ → R w₀ (x w₀).2) (h : x.Leads w e w') : R w w' := by
  obtain ⟨w₀, w₁, r, hw, hr, hw', _⟩ := h
  have hrel := hx w₀ hw
  rw [hr] at hrel
  exact hR.trans _ _ _ (hR.same hw.disk hw.calls) (hR.trans _ _ _ hrel (hR.same hw'.disk hw'.calls))

theorem Leads.keeps {x : Run α} {R : World → World → Prop} (hR : World.Chains R)
    (hx : x.Keeps R) (h : x.Leads w e w') : R w w' :=
  h.keeps_at hR fun w₀ _ => hx w₀

end Run

namespace Runner

open Run

/-- How stages lead from one world to another, and which failure ends them. -/
inductive Ran (host : Host) (s : Setup) : List Stage → World → Option Failure → World → Prop where
  | done {w w' : World} : w.Alike w' → Ran host s [] w none w'
  | failed {stage : Stage} {stages : List Stage} {w w' : World} {e : Failure} :
      (stage.run host s).Leads w (some e) w' → Ran host s (stage :: stages) w (some e) w'
  | passed {stage : Stage} {stages : List Stage} {w w₁ w' : World} {e : Option Failure} :
      (stage.run host s).Leads w none w₁ → Ran host s stages w₁ e w' →
      Ran host s (stage :: stages) w e w'

variable {host : Host} {s : Setup} {stage : Stage} {stages rest : List Stage} {w w' : World}
  {e : Option Failure}

theorem leads_of_tellFailure {α : Type} {id : String} {x : Run α}
    (h : (tellFailure id x).Leads w e w') : x.Leads w e w' := by
  obtain ⟨w₀, w₁, r, hw, hr, hw', he⟩ := h
  unfold tellFailure at hr
  rcases hx : x w₀ with ⟨a | a, w₂⟩ <;> rw [hx] at hr <;> cases hr
  · exact ⟨w₀, w₂, _, hw, hx, ⟨hw'.disk, hw'.calls⟩, he⟩
  · exact ⟨w₀, w₁, _, hw, hx, hw', he⟩

theorem leads_of_runStage {r : Except Failure (StageReport × String × Outcome)}
    (h : runStage host s stage w = (r, w')) : (stage.run host s).Leads w (failure? r) w' := by
  obtain ⟨_, w₁, hw₁, h₁⟩ := Quiet.bind_cases (quiet_readTicks host) h
  obtain ⟨_, w₂, hw₂, h₂⟩ := Quiet.bind_cases (quiet_tell _ _ _ _) h₁
  refine leads_of_tellFailure (Leads.before (hw₁.trans hw₂) (.of_bind (fun outcome => ?_) h₂))
  have hlast : ∀ b : StageReport × String × Outcome, ∀ level message fields,
      Quiet (tell .core level message fields >>= fun _ => pure b) := fun b level message fields =>
    Quiet.bind (quiet_tell _ _ _ _) fun _ => quiet_pure b
  refine Quiet.bind (quiet_readTicks host) fun _ => ?_
  dsimp only
  split
  · exact Quiet.bind (quiet_tell _ _ _ _) fun _ => hlast _ _ _ _
  · exact hlast _ _ _ _

theorem ran_of_runStages {r : Except Failure (List (StageReport × String × Outcome))}
    (h : runStages host s stages w = (r, w')) : Ran host s stages w (failure? r) w' := by
  induction stages generalizing w r with
  | nil =>
      cases h
      exact .done (.refl w')
  | cons stage stages ih =>
      rcases Attempt.bind_cases h with ⟨first, w₁, hfirst, h₁⟩ | ⟨e, hfirst, rfl⟩
      · refine .passed (leads_of_runStage hfirst) ?_
        rcases Attempt.bind_cases h₁ with ⟨more, w₂, hmore, h₂⟩ | ⟨e, hmore, rfl⟩
        · cases h₂
          have hran := ih hmore
          exact hran
        · exact ih hmore
      · exact .failed (leads_of_runStage hfirst)

theorem Ran.append (h : Ran host s (stages ++ rest) w e w') :
    (∃ e', e = some e' ∧ Ran host s stages w (some e') w') ∨
    ∃ w₁, Ran host s stages w none w₁ ∧ Ran host s rest w₁ e w' := by
  induction stages generalizing w with
  | nil => exact Or.inr ⟨w, .done (.refl w), h⟩
  | cons stage stages ih =>
      cases h with
      | failed hstage => exact Or.inl ⟨_, rfl, .failed hstage⟩
      | passed hstage h =>
          rcases ih h with ⟨e', he', h'⟩ | ⟨w₁, h₁, hrest⟩
          · exact Or.inl ⟨e', he', .passed hstage h'⟩
          · exact Or.inr ⟨w₁, .passed hstage h₁, hrest⟩

theorem Ran.keeps {R : World → World → Prop} (hR : World.Chains R)
    (hstages : ∀ stage ∈ stages, (stage.run host s).Keeps R) (h : Ran host s stages w e w') :
    R w w' := by
  induction h with
  | done hw => exact hR.same hw.disk hw.calls
  | failed hstage => exact hstage.keeps hR (hstages _ List.mem_cons_self)
  | passed hstage _ ih =>
      exact hR.trans _ _ _ (hstage.keeps hR (hstages _ List.mem_cons_self))
        (ih fun stage h => hstages stage (List.mem_cons_of_mem _ h))

theorem Ran.after {w'' : World} (h : Ran host s stages w e w') (hw : w'.Alike w'') :
    Ran host s stages w e w'' := by
  induction h with
  | done hw' => exact .done (hw'.trans hw)
  | failed hstage =>
      obtain ⟨w₀, w₁, r, h₀, hr, h₁, he⟩ := hstage
      exact .failed ⟨w₀, w₁, r, h₀, hr, h₁.trans hw, he⟩
  | passed hstage _ ih => exact .passed hstage (ih hw)

theorem Ran.before {w'' : World} (hw : w.Alike w'') (h : Ran host s stages w'' e w') :
    Ran host s stages w e w' := by
  cases h with
  | done hw' => exact .done (hw.trans hw')
  | failed hstage => exact .failed (hstage.before hw)
  | passed hstage h => exact .passed (hstage.before hw) h

/-- A configuration that is not accepted ends the run before anything is done. -/
theorem run_cases {r : Except Failure Completed} (h : Runner.run host s stages w = (r, w')) :
    (∃ e, s.config.validate w.disk = .error e ∧ r = .error e ∧ w' = w) ∨
    (s.config.validate w.disk = .ok () ∧ Ran host s stages w (failure? r) w') := by
  rcases Attempt.bind_cases h with ⟨_, w₁, hvalid, h₁⟩ | ⟨e, hvalid, rfl⟩
  · obtain ⟨hok, rfl⟩ := lookAtDisk_cases hvalid
    obtain ⟨_, w₂, hw₂, h₂⟩ := Quiet.bind_cases (quiet_readClock host) h₁
    obtain ⟨_, w₃, hw₃, h₃⟩ := Quiet.bind_cases (quiet_tell _ _ _ _) h₂
    obtain ⟨w₄, w₅, r₅, hw₄, hr₅, hw₅, he⟩ := Leads.of_bind (fun done =>
      Quiet.bind (quiet_readClock host) fun _ => quiet_pure _) h₃
    rw [← he]
    exact Or.inr ⟨hok, ((ran_of_runStages hr₅).after hw₅).before ((hw₂.trans hw₃).trans hw₄)⟩
  · obtain ⟨herror, rfl⟩ := lookAtDisk_cases hvalid
    exact Or.inl ⟨e, herror, rfl, rfl⟩

end Runner

namespace Plan

open Stage Runner

variable {plan : Plan} {host : Host} {s : Setup} {w w' : World} {e : Option Failure}

def workStages (p : Plan) : List Stage :=
  (if p.mode = .full then [.relations p.entryPoint] else []) ++ [.count, .number, p.analysisStage]

theorem stages_eq_workStages (p : Plan) :
    p.stages = .prepare p.mode :: (p.workStages ++ p.map.toList.map .naming) := by
  simp [stages, workStages]

theorem keeps_solverStages (plan : Plan) {P : String → Prop} {R : World → World → Prop}
    (hR : Respects host s P R) (hP : ∀ label, label ≠ Setup.relationsLabel → P label) :
    ∀ stage ∈ [Stage.count, .number, plan.analysisStage], (stage.run host s).Keeps R := by
  intro stage hstage
  simp only [List.mem_cons, List.not_mem_nil, or_false] at hstage
  rcases hstage with rfl | rfl | rfl
  · exact keeps_count hR (hP _ (by decide))
  · exact keeps_number hR (hP _ (by decide))
  · unfold analysisStage
    split
    · exact keeps_solve hR _ (hP _ (by decide))
    · exact keeps_query hR _ (hP _ (by decide))

theorem keeps_workStages {P : String → Prop} {R : World → World → Prop} (hR : Respects host s P R)
    (hP : ∀ label, (label = Setup.relationsLabel → plan.mode = .full) → P label)
    (hmake : ∀ w₀, w.Alike w₀ → R w₀ (w₀.withDisk (w₀.disk.makeDirectories s.workDir).2))
    (h : Ran host s plan.workStages w e w') : R w w' := by
  have hsolver := keeps_solverStages plan hR fun label hne => hP label fun he => absurd he hne
  unfold workStages at h
  split at h
  · next hfull =>
    have hfirst : ∀ {e w'}, ((relations plan.entryPoint).run host s).Leads w e w' → R w w' :=
      fun hstage => hstage.keeps_at hR.toChains fun w₀ hw =>
        keeps_relations hR _ (hP _ fun _ => hfull) (hmake w₀ hw)
    cases h with
    | failed hstage => exact hfirst hstage
    | passed hstage hrest =>
        exact hR.trans _ _ _ (hfirst hstage) (hrest.keeps hR.toChains hsolver)
  · exact h.keeps hR.toChains hsolver

/-- The last stage, if there is one, writes one file or none. -/
theorem naming_of_ran (h : Ran host s (plan.map.toList.map .naming) w e w') :
    w'.calls = w.calls ∧ (w'.disk = w.disk ∨
      ∃ request ∈ plan.map, ∃ data, w.disk.write (s.root.join request.dest) data = .ok w'.disk) := by
  cases hmap : plan.map with
  | none =>
      rw [hmap] at h
      cases h with
      | done hw => exact ⟨hw.calls, Or.inl hw.disk⟩
  | some request =>
      have hstage : ∀ {e w'}, ((naming request).run host s).Leads w e w' →
          w'.calls = w.calls ∧ (w'.disk = w.disk ∨
            ∃ q ∈ some request, ∃ data, w.disk.write (s.root.join q.dest) data = .ok w'.disk) := by
        rintro e w' ⟨w₀, w₂, r, hw, hr, hw', _⟩
        obtain ⟨hcalls, hdisk⟩ := naming_cases hr
        rw [hw.disk, hw.calls, ← hw'.disk, ← hw'.calls] at *
        exact ⟨hcalls, hdisk.imp_right fun hwrite => ⟨request, rfl, hwrite⟩⟩
      rw [hmap] at h
      cases h with
      | failed hfailed => exact hstage hfailed
      | passed hpassed hdone =>
          cases hdone with
          | done hw =>
              rw [hw.disk, hw.calls]
              exact hstage hpassed

end Plan
end PointsTo
