import PointsTo.Failure

/-!
Steps that change a state and may fail. A failure leaves the state as the step
left it, so what was done before the failure stays done.
-/

namespace PointsTo

def Attempt (σ α : Type) : Type :=
  σ → Except Failure α × σ

namespace Attempt

variable {σ α β : Type}

def andThen (x : Attempt σ α) (f : α → Attempt σ β) : Attempt σ β := fun s =>
  match x s with
  | (.ok a, s) => f a s
  | (.error e, s) => (.error e, s)

instance : Monad (Attempt σ) where
  pure a := fun s => (.ok a, s)
  bind := andThen

def fail (e : Failure) : Attempt σ α := fun s => (.error e, s)

def ofExcept (x : Except Failure α) : Attempt σ α := fun s => (x, s)

def view (f : σ → α) : Attempt σ α := fun s => (.ok (f s), s)

def look (f : σ → Except Failure α) : Attempt σ α := fun s => (f s, s)

def update (f : σ → σ) : Attempt σ Unit := fun s => (.ok (), f s)

/-- Change the state after a step, also when the step fails. -/
def ensuring (x : Attempt σ α) (after : σ → σ) : Attempt σ α := fun s =>
  ((x s).1, after (x s).2)

@[simp] theorem pure_apply (a : α) (s : σ) : (pure a : Attempt σ α) s = (.ok a, s) := rfl

theorem bind_apply (x : Attempt σ α) (f : α → Attempt σ β) (s : σ) :
    (x >>= f) s =
      match x s with
      | (.ok a, s) => f a s
      | (.error e, s) => (.error e, s) := rfl

theorem bind_ok {x : Attempt σ α} {f : α → Attempt σ β} {s t : σ} {a : α} (h : x s = (.ok a, t)) :
    (x >>= f) s = f a t := by
  rw [bind_apply, h]

theorem bind_error {x : Attempt σ α} {f : α → Attempt σ β} {s t : σ} {e : Failure}
    (h : x s = (.error e, t)) : (x >>= f) s = (.error e, t) := by
  rw [bind_apply, h]

/-- Two steps succeed together if each of them does, the second one from where the
first one ends. -/
theorem bind_eq_ok_iff {x : Attempt σ α} {f : α → Attempt σ β} {s u : σ} {b : β} :
    (x >>= f) s = (.ok b, u) ↔ ∃ a t, x s = (.ok a, t) ∧ f a t = (.ok b, u) := by
  rw [bind_apply]
  rcases x s with ⟨r, t⟩
  cases r with
  | error e => simp
  | ok a =>
    refine ⟨fun h => ⟨a, t, rfl, h⟩, ?_⟩
    rintro ⟨_, _, h, hf⟩
    cases h
    exact hf

instance : LawfulMonad (Attempt σ) :=
  LawfulMonad.mk' (Attempt σ)
    (fun x => by
      funext s
      change (x >>= fun a => pure (id a)) s = x s
      rw [bind_apply]
      rcases x s with ⟨_ | _, _⟩ <;> rfl)
    (fun _ _ => rfl)
    (fun x f g => by
      funext s
      simp only [bind_apply]
      rcases x s with ⟨_ | _, _⟩ <;> rfl)

@[simp] theorem fail_apply (e : Failure) (s : σ) : (fail e : Attempt σ α) s = (.error e, s) := rfl

@[simp] theorem ofExcept_apply (x : Except Failure α) (s : σ) :
    (ofExcept x : Attempt σ α) s = (x, s) := rfl

@[simp] theorem view_apply (f : σ → α) (s : σ) : view f s = (.ok (f s), s) := rfl

@[simp] theorem look_apply (f : σ → Except Failure α) (s : σ) : look f s = (f s, s) := rfl

@[simp] theorem update_apply (f : σ → σ) (s : σ) : update f s = (.ok (), f s) := rfl

@[simp] theorem ensuring_apply (x : Attempt σ α) (after : σ → σ) (s : σ) :
    x.ensuring after s = ((x s).1, after (x s).2) := rfl

end Attempt
end PointsTo
