import PointsTo.Proofs.Protocol

/-!
What strictness changes. A strict run and one that is not do the same as long as the
checked processes end well. At the first one that does not the strict run fails, so
the two part only where a process has failed.
-/

namespace PointsTo

def Setup.strictly (s : Setup) (strict : Bool) : Setup :=
  { s with config := { s.config with strict := strict } }

def Response.succeeds (r : Response) (limit : Option Nat) : Bool :=
  !(limit.isSome && r.late) && decide (r.exitCode? = some 0)

namespace World

/-- The calls from `w` to `w'` succeeded, the probe for the path count apart. -/
structure AllSucceed (host : Host) (s : Setup) (w w' : World) : Prop where
  later : w.calls <+: w'.calls
  succeeds : ∀ past call, w.calls <+: past → past ++ [call] <+: w'.calls →
    call.label ≠ Stage.countLabel →
      (host.engine.respond past call).succeeds s.config.timeLimit = true

section AllSucceed

variable {host : Host} {s : Setup} {u v w : World} {call : EngineCall}

theorem allSucceed_of_calls (h : w.calls = v.calls) : AllSucceed host s v w where
  later := h ▸ List.prefix_refl _
  succeeds := fun past call hv hp => by
    have hle := hv.length_le
    have hlt := hp.length_le
    rw [h, List.length_append, List.length_singleton] at hlt
    omega

theorem allSucceed_call (h : w.calls = v.calls ++ [call]) (hcall : call.label ≠ Stage.countLabel →
    (host.engine.respond v.calls call).succeeds s.config.timeLimit = true) :
    AllSucceed host s v w where
  later := h ▸ List.prefix_append _ _
  succeeds := fun past c hv hp hc => by
    have hlen := hp.length_le
    rw [h, List.length_append, List.length_append] at hlen
    have hpast : v.calls = past := hv.eq_of_length_le (by simpa using hlen)
    subst hpast
    rw [h, List.prefix_append_right_inj] at hp
    obtain rfl : c = call := by simpa using hp
    exact hcall hc

theorem AllSucceed.trans (h : AllSucceed host s u v) (h' : AllSucceed host s v w) :
    AllSucceed host s u w where
  later := h.later.trans h'.later
  succeeds := fun past call hu hp hc => by
    rcases List.prefix_or_prefix_of_prefix hp h'.later with hpv | hvp
    · exact h.succeeds past call hu hpv hc
    · rcases List.prefix_concat_iff.1 hvp with heq | hvp
      · exact h.succeeds past call hu (heq ▸ List.prefix_refl _) hc
      · exact h'.succeeds past call hvp hp hc

/-- What succeeded as a whole did so up to any moment and from there. -/
theorem AllSucceed.split (h : AllSucceed host s u w) (huv : u.calls <+: v.calls)
    (hvw : v.calls <+: w.calls) : AllSucceed host s u v ∧ AllSucceed host s v w :=
  ⟨⟨huv, fun past call hu hp => h.succeeds past call hu (hp.trans hvw)⟩,
    ⟨hvw, fun past call hv hp => h.succeeds past call (huv.trans hv) hp⟩⟩

end AllSucceed
end World

namespace Run

open World

variable {α β : Type} {host : Host} {s : Setup} {w : World}

/-- Two ends of a step from `w` are the same, and if it succeeded so did its calls. Or
a call did not, and then the first end is a failure. -/
structure PartsAt (host : Host) (s : Setup) (w : World) (p q : Except Failure α × World) : Prop where
  later : w.calls <+: q.2.calls
  parts : (p = q ∧ ∀ a, p.1 = .ok a → AllSucceed host s w q.2) ∨
    (∃ e, p.1 = .error e) ∧ ¬ AllSucceed host s w q.2

def Parts (host : Host) (s : Setup) (x y : Run α) : Prop :=
  ∀ w, PartsAt host s w (x w) (y w)

/-- What came before has succeeded. -/
theorem PartsAt.after {v : World} {p q : Except Failure α × World} (h : PartsAt host s v p q)
    (hv : AllSucceed host s w v) : PartsAt host s w p q where
  later := hv.later.trans h.later
  parts := by
    rcases h.parts with ⟨hsame, hall⟩ | ⟨he, hno⟩
    · exact Or.inl ⟨hsame, fun a ha => hv.trans (hall a ha)⟩
    · exact Or.inr ⟨he, fun hall => hno (hall.split hv.later h.later).2⟩

/-- A rest that makes no calls and passes failures on. -/
theorem PartsAt.rest {p q p' q' : Except Failure α × World} (h : PartsAt host s w p q)
    (hsame : p = q → p' = q') (hp : p'.1 = p.1) (hq : q'.2.calls = q.2.calls) :
    PartsAt host s w p' q' where
  later := hq ▸ h.later
  parts := by
    rcases h.parts with ⟨heq, hall⟩ | ⟨he, hno⟩
    · refine Or.inl ⟨hsame heq, fun a ha => ?_⟩
      exact (hall a (hp ▸ ha)).trans (allSucceed_of_calls hq)
    · refine Or.inr ⟨hp ▸ he, fun hall => hno ?_⟩
      exact hall.trans (allSucceed_of_calls hq.symm)

theorem Silent.parts {x : Run α} (h : x.Silent) : Parts host s x x := fun w =>
  ⟨h w ▸ List.prefix_refl _, Or.inl ⟨rfl, fun _ _ => allSucceed_of_calls (h w)⟩⟩

theorem Parts.bind {x y : Run α} {f g : α → Run β} (hx : Parts host s x y)
    (hf : ∀ a, Parts host s (f a) (g a)) : Parts host s (x >>= f) (y >>= g) := by
  intro w
  obtain ⟨hlater, hparts⟩ := hx w
  rw [Attempt.bind_apply, Attempt.bind_apply]
  rcases hy : y w with ⟨r, v⟩
  rw [hy] at hlater hparts
  rcases hparts with ⟨hsame, hall⟩ | ⟨⟨e, he⟩, hfailed⟩
  · rw [hsame] at hall ⊢
    cases r with
    | error e => exact ⟨hlater, Or.inl ⟨rfl, nofun⟩⟩
    | ok a => exact (hf a v).after (hall a rfl)
  · rcases hxw : x w with ⟨r', v'⟩
    rw [hxw] at he
    cases he
    cases r with
    | error e' => exact ⟨hlater, Or.inr ⟨⟨e, rfl⟩, hfailed⟩⟩
    | ok a =>
        have hrest := (hf a v).later
        exact ⟨hlater.trans hrest, Or.inr ⟨⟨e, rfl⟩, fun h => hfailed (h.split hlater hrest).1⟩⟩

theorem parts_ofExcept {x : Except Failure α} {f g : α → Run β}
    (hf : ∀ a, x = .ok a → Parts host s (f a) (g a)) :
    Parts host s (Attempt.ofExcept x >>= f) (Attempt.ofExcept x >>= g) := by
  cases x with
  | error e => exact Silent.parts fun _ => rfl
  | ok a => exact hf a rfl

structure Answers (host : Host) (s : Setup) (label : String) (x : Run Finished) : Prop where
  later : ∀ w, w.calls <+: (x w).2.calls
  answer : ∀ {w w' f}, x w = (.ok f, w') → ∃ call, w'.calls = w.calls ++ [call] ∧
    call.label = label ∧ f.success = (host.engine.respond w.calls call).succeeds s.config.timeLimit

section Answers

variable {label : String} {x : Run Finished} {f g : Finished → Run β}

/-- The answer is looked at next. Where it is no success the first run ends. -/
theorem Answers.parts (hx : Answers host s label x) (hlabel : label ≠ Stage.countLabel)
    (hf : ∀ a, a.success = true → Parts host s (f a) (g a))
    (hfail : ∀ a, a.success = false → ∀ w, (∃ e, (f a w).1 = .error e) ∧
      w.calls <+: (g a w).2.calls) : Parts host s (x >>= f) (x >>= g) := by
  intro w
  rw [Attempt.bind_apply, Attempt.bind_apply]
  have hlater := hx.later w
  rcases hxw : x w with ⟨r, v⟩
  rw [hxw] at hlater
  cases r with
  | error e => exact ⟨hlater, Or.inl ⟨rfl, nofun⟩⟩
  | ok a =>
      obtain ⟨call, hcalls, hcall, hsuccess⟩ := hx.answer hxw
      cases ha : a.success with
      | true => exact (hf a ha v).after (allSucceed_call hcalls fun _ => hsuccess ▸ ha)
      | false =>
          obtain ⟨he, hrest⟩ := hfail a ha v
          refine ⟨hlater.trans hrest, Or.inr ⟨he, fun h => ?_⟩⟩
          have hsucceeds := h.succeeds w.calls call (List.prefix_refl _) (hcalls ▸ hrest)
            (hcall ▸ hlabel)
          cases (hsuccess.symm.trans ha).symm.trans hsucceeds

/-- The probe may fail. -/
theorem Answers.parts_probe (hx : Answers host s Stage.countLabel x) (hf : ∀ a, (f a).Silent) :
    Parts host s (x >>= f) (x >>= f) := by
  intro w
  rw [Attempt.bind_apply]
  have hlater := hx.later w
  rcases hxw : x w with ⟨r, v⟩
  rw [hxw] at hlater
  cases r with
  | error e => exact ⟨hlater, Or.inl ⟨rfl, nofun⟩⟩
  | ok a =>
      obtain ⟨call, hcalls, hcall, _⟩ := hx.answer hxw
      exact (Silent.parts (hf a) v).after (allSucceed_call hcalls fun hne => absurd hcall hne)

end Answers

end Run

namespace Stage

open Run

variable {host : Host} {s : Setup} {label : String} {mode : ErrorStream}

theorem answers_call (host : Host) (s : Setup) (mode : ErrorStream) {command : Command}
    {launch : Launch} (hlaunch : command.launch? = some launch) (hlabel : command.label = label) :
    Answers host s label (call host s command mode) where
  later := (follows_call hlaunch).later
  answer := fun h => by
    obtain ⟨call, hname, _, hcalls, hf, hlate⟩ := invoke_ok h
    exact ⟨call, hcalls, hname.trans hlabel, by
      simp [hf, Response.succeeds, Response.finished, hlate]⟩

theorem answers_solveText (fileName text : String) :
    Answers host s label (solveText host s label fileName text mode) where
  later := (follows_solveText label fileName text).later
  answer := fun {w w' f} h => by
    obtain ⟨_, w₁, hwrite, h₁⟩ := Attempt.bind_eq_ok_iff.1 h
    obtain ⟨w₂, h₂, rfl⟩ := Attempt.ensuring_cases h₁
    obtain ⟨command, w₃, hcommand, h₃⟩ := Attempt.bind_eq_ok_iff.1 h₂
    obtain ⟨hlabel, rfl⟩ := Attempt.ofExcept_cases hcommand
    obtain ⟨⟨_, hr⟩, _⟩ | ⟨_, _, hcalls⟩ := ProgramFile.materialize_cases hwrite
    · cases hr
    · rw [(ProgramFile.release_eq _ _ _).2, ← hcalls]
      have hcall := answers_call host s mode
        (Setup.launch_solverCommand hlabel) (Setup.label_solverCommand hlabel)
      exact hcall.answer h₃

section CheckExit

variable {β : Type} {x : Run Finished} {f g : Finished → Run β}

theorem checkExit_of_success {a : Finished} (h : a.success = true) : checkExit s label a = pure () := by
  simp only [checkExit, Finished.requireSuccess, h, ↓reduceIte]
  split <;> rfl

/-- A bad end is put up with in one run alone. -/
theorem parts_checkExit (hx : Answers host s label x) (hlabel : label ≠ countLabel)
    (hf : ∀ a, Parts host s (f a) (g a)) :
    Parts host s (x >>= fun a => checkExit (s.strictly true) label a >>= fun _ => f a)
      (x >>= fun a => checkExit (s.strictly false) label a >>= fun _ => g a) := by
  refine hx.parts hlabel (fun a ha => ?_) fun a ha w => ?_
  · rw [checkExit_of_success ha, checkExit_of_success ha]
    exact hf a
  · have hstrict : checkExit (s.strictly true) label a =
        Attempt.fail (.stage label a.statusText a.outputText) := by
      simp only [checkExit, Setup.strictly, Finished.requireSuccess, ha]
      rfl
    have hlenient : checkExit (s.strictly false) label a =
        Run.tell .stages .warn a.exitWarning [.inQuotes "stage" label] := by
      simp [checkExit, Setup.strictly, ha]
    rw [hstrict, hlenient]
    exact ⟨⟨_, rfl⟩, (hf a (w.tell _)).later⟩

theorem parts_requireSuccess (hx : Answers host s label x) (hlabel : label ≠ countLabel)
    (hf : ∀ a, Parts host s (f a) (g a)) :
    Parts host s (x >>= fun a => Attempt.ofExcept (a.requireSuccess label) >>= fun _ => f a)
      (x >>= fun a => Attempt.ofExcept (a.requireSuccess label) >>= fun _ => g a) := by
  refine hx.parts hlabel (fun a ha => parts_ofExcept fun _ _ => hf a) fun a ha w => ?_
  simp only [Finished.requireSuccess, ha]
  exact ⟨⟨_, rfl⟩, List.prefix_refl _⟩

end CheckExit

def Parts (host : Host) (s : Setup) (stage : Stage) : Prop :=
  Run.Parts host s (stage.run host (s.strictly true)) (stage.run host (s.strictly false))

theorem parts_prepare (mode : Mode) : (prepare mode).Parts host s :=
  Silent.parts (x := (prepare mode).run host s) fun _ => prepare_calls (Prod.eta _).symm

theorem parts_naming (request : MapRequest) : (naming request).Parts host s :=
  Silent.parts (x := (naming request).run host s) (silent_naming request)

theorem parts_relations (entryPoint : String) : (relations entryPoint).Parts host s := by
  refine (silent_onDisk _).parts.bind fun _ => (silent_tell _ _ _ _).parts.bind fun _ => ?_
  refine parts_ofExcept fun c hc => ?_
  have hdump := answers_call host s .merge
    (Setup.launch_dumpCommand (s := s) hc) (Setup.label_dumpCommand (s := s) hc)
  refine parts_requireSuccess hdump (by decide) fun dump => ?_
  refine (silent_tell _ _ _ _).parts.bind fun _ => parts_ofExcept fun c hc => ?_
  have hequivalence := answers_call host s .merge
    (Setup.launch_equivalenceCommand (s := s) hc) (Setup.label_equivalenceCommand (s := s) hc)
  refine parts_requireSuccess hequivalence (by decide) fun equivalence => Silent.parts ?_
  refine (silent_onDisk _).bind fun _ => ?_
  refine (silent_tell _ _ _ _).bind fun _ => (silent_tell _ _ _ _).bind fun _ => ?_
  exact (silent_onDisk _).bind fun _ => silent_pure _

theorem parts_count : count.Parts host s := by
  refine (answers_solveText (s := s) _ _).parts_probe fun f => ?_
  exact (silent_ofExcept _).bind fun counted =>
    (silent_applyCount (s := s) counted).bind fun _ => silent_pure _

theorem parts_number : number.Parts host s :=
  parts_checkExit (answers_solveText (s := s) _ _) (by decide) fun _ => (silent_pure _).parts

theorem parts_solve (program : Path) : (solve program).Parts host s := by
  refine (silent_tell _ _ _ _).parts.bind fun _ => parts_ofExcept fun c hc => ?_
  have hcall := answers_call host s .merge
    (Setup.launch_solverCommand (s := s) hc) (Setup.label_solverCommand (s := s) hc)
  exact parts_checkExit hcall (by decide) fun _ => (silent_pure _).parts

theorem parts_compileQuery (query : Path) :
    Run.Parts host s (compileQuery host s query) (compileQuery host s query) := by
  rw [compileQuery_eq]
  refine (silent_tell _ _ _ _).parts.bind fun _ => parts_ofExcept fun c hc => ?_
  have hcall := answers_call host s .separate
    (Setup.launch_generatorCommand hc) (Setup.label_generatorCommand hc)
  refine hcall.parts (by decide) (fun f _ => (silent_translation f).parts) fun f hf w => ?_
  obtain ⟨w', hcalls, _, h⟩ := translation_apply f w
  rw [h, Finished.requireSuccess, if_neg (by simp [hf])]
  exact ⟨⟨_, rfl⟩, hcalls ▸ List.prefix_refl _⟩

theorem parts_query (query : Path) : (Stage.query query).Parts host s := by
  refine parts_checkExit (answers_solveText (s := s) _ _) (by decide) fun types => ?_
  refine (parts_compileQuery (s := s) query).bind fun program => ?_
  exact parts_checkExit (answers_solveText (s := s) _ _) (by decide) fun _ => (silent_pure _).parts

end Stage

namespace Runner

open Run Stage

variable {host : Host} {s : Setup} {stages : List Stage} {w : World}

theorem parts_tellFailure {α : Type} {id : String} {x y : Run α} (h : Run.Parts host s x y) :
    Run.Parts host s (tellFailure id x) (tellFailure id y) := by
  intro w
  have hend : ∀ z : Run α, (tellFailure id z w).1 = (z w).1 ∧
      (tellFailure id z w).2.calls = (z w).2.calls := fun z => by
    unfold tellFailure
    rcases z w with ⟨_ | _, _⟩ <;> exact ⟨rfl, rfl⟩
  refine (h w).rest (fun hsame => ?_) (hend x).1 (hend y).2
  simp only [tellFailure, hsame]

theorem parts_runStage {stage : Stage} (h : stage.Parts host s) :
    Run.Parts host s (runStage host (s.strictly true) stage)
      (runStage host (s.strictly false) stage) := by
  refine Run.Parts.bind (Silent.parts fun _ => rfl) fun _ =>
    (silent_tell _ _ _ _).parts.bind fun _ => ?_
  refine (parts_tellFailure h).bind fun outcome => Silent.parts ?_
  refine Silent.bind (fun _ => rfl) fun finish => ?_
  dsimp only
  split
  · exact (silent_tell _ _ _ _).bind fun _ => (silent_tell _ _ _ _).bind fun _ => silent_pure _
  · exact (silent_tell _ _ _ _).bind fun _ => silent_pure _

theorem parts_runStages (h : ∀ stage ∈ stages, stage.Parts host s) :
    Run.Parts host s (runStages host (s.strictly true) stages)
      (runStages host (s.strictly false) stages) := by
  induction stages with
  | nil => exact (silent_pure _).parts
  | cons stage stages ih =>
      refine (parts_runStage (h stage List.mem_cons_self)).bind fun _ => ?_
      exact (ih fun x hx => h x (List.mem_cons_of_mem stage hx)).bind fun _ => (silent_pure _).parts

theorem parts_run (h : ∀ stage ∈ stages, stage.Parts host s) :
    Run.Parts host s (Runner.run host (s.strictly true) stages)
      (Runner.run host (s.strictly false) stages) := by
  refine Run.Parts.bind (Silent.parts fun _ => rfl) fun _ => ?_
  refine Run.Parts.bind (Silent.parts fun _ => rfl) fun _ => ?_
  refine (silent_tell _ _ _ _).parts.bind fun _ => (parts_runStages h).bind fun _ => ?_
  exact Run.Parts.bind (Silent.parts fun _ => rfl) fun _ => (silent_pure _).parts

end Runner

namespace Plan

open Run Runner Stage World

theorem parts_stages (plan : Plan) (host : Host) (s : Setup) :
    ∀ stage ∈ plan.stages, stage.Parts host s := by
  have hanalysis : plan.analysisStage.Parts host s := by
    unfold analysisStage
    cases plan.analysis with
    | datalog program => exact parts_solve program
    | query query => exact parts_query query
  unfold stages
  simp only [List.forall_mem_append, List.forall_mem_cons, List.not_mem_nil, false_implies,
    implies_true, and_true, List.forall_mem_map]
  refine ⟨⟨⟨parts_prepare _, ?_⟩, parts_count, parts_number, hanalysis⟩, fun request _ =>
    parts_naming request⟩
  split
  · exact List.forall_mem_singleton.2 (parts_relations plan.entryPoint)
  · nofun

/-- A strict run is like the lenient one if all calls of the latter succeeded, the
probe apart, and fails otherwise. So what a strict run gives a lenient one gives too. -/
theorem strict_run_parts (plan : Plan) (host : Host) (s : Setup) (w : World) :
    let strict := plan.run host (s.strictly true) w
    let lenient := plan.run host (s.strictly false) w
    (AllSucceed host s w lenient.2 → strict = lenient) ∧
      (¬ AllSucceed host s w lenient.2 → ∀ done, strict.1 ≠ .ok done) ∧
      ∀ done, strict.1 = .ok done → lenient = strict := by
  intro strict lenient
  rcases (parts_run (parts_stages plan host s) w).parts with ⟨hsame, hall⟩ | ⟨⟨e, he⟩, hno⟩
  · refine ⟨fun _ => hsame, fun hno done hdone => hno ?_, fun _ _ => hsame.symm⟩
    exact hall done hdone
  · refine ⟨fun hall => absurd hall hno, fun _ done hdone => ?_, fun done hdone => ?_⟩
    · cases he.symm.trans hdone
    · cases he.symm.trans hdone

end Plan
end PointsTo
