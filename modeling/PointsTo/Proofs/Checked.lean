import PointsTo.Proofs.Confinement
import PointsTo.Proofs.PathCount
import PointsTo.Proofs.Strictness

/-!
Calls whose process must succeed. One that fails is the last of its stage, and the
failure shows what it printed.
-/

namespace PointsTo

namespace Response

/-- The process ended by itself, within the limit if there is one, and without success. -/
def Fails (r : Response) (limit : Option Nat) : Prop :=
  (limit.isSome && r.late) = false ∧ r.exitCode? ≠ some 0

instance (r : Response) (limit : Option Nat) : Decidable (r.Fails limit) :=
  inferInstanceAs (Decidable (_ ∧ _))

def failure (r : Response) (mode : ErrorStream) (label : String) : Failure :=
  .stage label (r.finished mode).statusText (Text.lossy (r.shown mode))

theorem requireSuccess_cases (r : Response) (mode : ErrorStream) (label : String) :
    (r.exitCode? = some 0 ∧ (r.finished mode).requireSuccess label = .ok ()) ∨
      r.exitCode? ≠ some 0 ∧
        (r.finished mode).requireSuccess label = .error (r.failure mode label) := by
  unfold failure
  rw [← output_finished]
  by_cases h : r.exitCode? = some 0
  · exact Or.inl ⟨h, by simp [Finished.requireSuccess, finished, h]⟩
  · refine Or.inr ⟨h, ?_⟩
    rw [Finished.requireSuccess, if_neg (by simp [finished, h])]
    rfl

theorem not_fails_of_succeeds {r : Response} {limit : Option Nat} (h : r.succeeds limit = true) :
    ¬ r.Fails limit := by
  rintro ⟨_, hexit⟩
  simp [succeeds, hexit] at h

end Response

namespace Stage

open Run World

variable {host : Host} {s : Setup} {w w' : World} {label : String} {mode : ErrorStream}

/-- The last thing that was done is a call. Its process has failed, unless it was killed or
the next one could not be started. -/
structure Stopped {α : Type} (host : Host) (s : Setup) (mode : ErrorStream) (label : String)
    (past : List EngineCall) (c : EngineCall) (r : Except Failure α) (w' : World) : Prop where
  failed : ∃ e, r = .error e
  calls : w'.calls = past ++ [c]
  disk : w'.disk = host.engine.left past c
  shown : (host.engine.respond past c).Fails s.config.timeLimit →
    r = .error ((host.engine.respond past c).failure mode label)

/-- The same as `call_cases`, with the limit told apart: a process that was not killed has
ended by itself. -/
theorem call_ends {command : Except Failure Command} {r : Except Failure Finished}
    (hlabel : ∀ c, command = .ok c → c.label = label)
    (h : (Attempt.ofExcept command >>= fun c => call host s c mode : Run Finished) w = (r, w')) :
    ((∃ e, r = .error e) ∧ w'.disk = w.disk ∧ w'.calls = w.calls) ∨
    ∃ c, Called host w w' c ∧
      (((s.config.timeLimit.isSome && (host.engine.respond w.calls c).late) = true ∧
          ∃ e, r = .error e) ∨
        (s.config.timeLimit.isSome && (host.engine.respond w.calls c).late) = false ∧
          r = .ok ((host.engine.respond w.calls c).finished mode)) := by
  rcases call_cases hlabel h with hnone | ⟨c, hcalled, _, _, hr | ⟨hlimit, hlate, he⟩⟩
  · exact Or.inl hnone
  · refine Or.inr ⟨c, hcalled, Or.inr ⟨?_, hr⟩⟩
    rw [hr] at h
    obtain ⟨command, w₁, hcommand, hinvoke⟩ := Attempt.bind_eq_ok_iff.1 h
    obtain rfl : w = w₁ := (Attempt.ofExcept_cases hcommand).2.symm
    obtain ⟨c', _, _, hcalls, _, hlate⟩ := invoke_ok hinvoke
    obtain rfl : c' = c := by
      rw [hcalled.calls, List.append_cancel_left_eq] at hcalls
      exact (List.cons.inj hcalls).1.symm
    exact hlate
  · refine Or.inr ⟨c, hcalled, Or.inl ⟨?_, he⟩⟩
    rw [hlate, Bool.and_true]
    exact Option.isSome_iff_ne_none.2 hlimit

theorem stopped_of_killed {α : Type} {c : EngineCall} {r : Except Failure α} (he : ∃ e, r = .error e)
    (hcalled : Called host w w' c)
    (hkilled : (s.config.timeLimit.isSome && (host.engine.respond w.calls c).late) = true) :
    Stopped host s mode label w.calls c r w' where
  failed := he
  calls := hcalled.calls
  disk := hcalled.ended
  shown := fun hfails => by
    cases hkilled.symm.trans hfails.1

/-- A call whose process must succeed, and what comes after it. -/
theorem checkedCall_cases {α : Type} {f : Finished → Run α} {r : Except Failure α}
    {command : Except Failure Command} (hlabel : ∀ c, command = .ok c → c.label = label)
    (h : (Attempt.ofExcept command >>= fun c => call host s c mode >>= fun a =>
      Attempt.ofExcept (a.requireSuccess label) >>= fun _ => f a : Run α) w = (r, w')) :
    ((∃ e, r = .error e) ∧ w'.disk = w.disk ∧ w'.calls = w.calls) ∨
    ∃ c v, Called host w v c ∧ (Stopped host s mode label w.calls c r w' ∨
      (host.engine.respond w.calls c).succeeds s.config.timeLimit = true ∧
        f ((host.engine.respond w.calls c).finished mode) v = (r, w')) := by
  rw [← bind_assoc] at h
  rcases Attempt.bind_cases h with ⟨a, v, hcall, h₁⟩ | ⟨e, hcall, rfl⟩
  · rcases call_ends hlabel hcall with ⟨⟨_, he⟩, _⟩ | ⟨c, hcalled, ⟨_, _, he⟩ | ⟨hlate, ha⟩⟩
    · cases he
    · cases he
    · cases ha
      refine Or.inr ⟨c, v, hcalled, ?_⟩
      rcases Response.requireSuccess_cases (host.engine.respond w.calls c) mode label with
        ⟨hexit, hr⟩ | ⟨_, hr⟩
      · rw [hr] at h₁
        exact Or.inr ⟨by simp [Response.succeeds, hlate, hexit], h₁⟩
      · rw [hr] at h₁
        cases h₁
        exact Or.inl ⟨⟨_, rfl⟩, hcalled.calls, hcalled.ended, fun _ => rfl⟩
  · rcases call_ends hlabel hcall with ⟨_, hdisk, hcalls⟩ | ⟨c, hcalled, ⟨hkilled, _⟩ | ⟨_, ha⟩⟩
    · exact Or.inl ⟨⟨e, rfl⟩, hdisk, hcalls⟩
    · exact Or.inr ⟨c, w', hcalled, Or.inl (stopped_of_killed ⟨e, rfl⟩ hcalled hkilled)⟩
    · cases ha

theorem tell_then {α : Type} {source : Log.Source} {level : Log.Level} {message : String}
    {fields : List Log.Field} {g : Unit → Run α} {r : Except Failure α}
    (h : (Run.tell source level message fields >>= g) w = (r, w')) :
    ∃ v, v.disk = w.disk ∧ v.calls = w.calls ∧ g () v = (r, w') :=
  ⟨w.tell ⟨source, level, message, fields⟩, rfl, rfl, h⟩

end Stage
end PointsTo
