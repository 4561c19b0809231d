import PointsTo.World

/-!
Taking steps apart. What two steps end in, one after the other, is where the second
one ends, or where the first one fails. So a relation between the states before and
after, if it can be chained, is shown for each step alone (`Keeps`).
-/

namespace PointsTo
namespace Attempt

variable {σ α β : Type}

theorem bind_cases {x : Attempt σ α} {f : α → Attempt σ β} {s u : σ} {r : Except Failure β}
    (h : (x >>= f) s = (r, u)) :
    (∃ a t, x s = (.ok a, t) ∧ f a t = (r, u)) ∨ ∃ e, x s = (.error e, u) ∧ r = .error e := by
  rw [bind_apply] at h
  rcases hx : x s with ⟨a | a, t⟩
  · rw [hx] at h
    cases h
    exact Or.inr ⟨a, rfl, rfl⟩
  · rw [hx] at h
    exact Or.inl ⟨a, t, rfl, h⟩

theorem ensuring_cases {x : Attempt σ α} {after : σ → σ} {s u : σ} {r : Except Failure α}
    (h : x.ensuring after s = (r, u)) : ∃ t, x s = (r, t) ∧ u = after t := by
  cases h
  exact ⟨_, rfl, rfl⟩

theorem ofExcept_cases {x r : Except Failure α} {s t : σ} (h : ofExcept x s = (r, t)) :
    x = r ∧ t = s := by
  cases h
  exact ⟨rfl, rfl⟩

/-- The states before and after a step are related, also when the step fails. -/
def Keeps (R : σ → σ → Prop) (x : Attempt σ α) : Prop :=
  ∀ s, R s (x s).2

section Keeps

variable {R : σ → σ → Prop} {x : Attempt σ α}

theorem Keeps.bind (trans : ∀ s t u, R s t → R t u → R s u) {f : α → Attempt σ β}
    (hx : x.Keeps R) (hf : ∀ a, (f a).Keeps R) : (x >>= f).Keeps R := by
  intro s
  rcases bind_cases (Prod.eta ((x >>= f) s)).symm with ⟨a, t, ha, hfa⟩ | ⟨e, he, _⟩
  · have hs := hx s
    have ht := hf a t
    rw [ha] at hs
    rw [hfa] at ht
    exact trans _ _ _ hs ht
  · have hs := hx s
    rwa [he] at hs

theorem Keeps.ensuring (trans : ∀ s t u, R s t → R t u → R s u) {after : σ → σ}
    (hx : x.Keeps R) (hafter : ∀ s, R s (after s)) : (x.ensuring after).Keeps R :=
  fun s => trans _ _ _ (hx s) (hafter _)

end Keeps
end Attempt

/-- A relation that concerns the disk and the calls alone, and can be chained. -/
structure World.Chains (R : World → World → Prop) : Prop where
  same : ∀ {w w'}, w'.disk = w.disk → w'.calls = w.calls → R w w'
  trans : ∀ u v w, R u v → R v w → R u w

namespace Run

section Keeps

variable {α β : Type} {R : World → World → Prop} (hR : World.Chains R)

include hR

theorem keeps_bind {x : Run α} {f : α → Run β} (hx : x.Keeps R) (hf : ∀ a, (f a).Keeps R) :
    (x >>= f).Keeps R :=
  hx.bind hR.trans hf

/-- What the second step does matters only where the first one leads. -/
theorem keeps_bind_at {x : Run α} {f : α → Run β} {w : World} (hx : R w (x w).2)
    (hf : ∀ a w', x w = (.ok a, w') → R w' (f a w').2) : R w ((x >>= f) w).2 := by
  rcases Attempt.bind_cases (Prod.eta ((x >>= f) w)).symm with ⟨a, w', ha, hfa⟩ | ⟨e, he, _⟩
  · have hrest := hf a w' ha
    rw [ha] at hx
    rw [hfa] at hrest
    exact hR.trans _ _ _ hx hrest
  · rwa [he] at hx

theorem keeps_pure (a : α) : (pure a : Run α).Keeps R :=
  fun _ => hR.same rfl rfl

theorem keeps_fail (e : Failure) : (Attempt.fail e : Run α).Keeps R :=
  fun _ => hR.same rfl rfl

theorem keeps_ofExcept (x : Except Failure α) : (Attempt.ofExcept x : Run α).Keeps R :=
  fun _ => hR.same rfl rfl

theorem keeps_view (f : World → α) : (Attempt.view f : Run α).Keeps R :=
  fun _ => hR.same rfl rfl

theorem keeps_lookAtDisk (f : Disk → Except Failure α) : (lookAtDisk f).Keeps R :=
  fun _ => hR.same rfl rfl

theorem keeps_tell (source : Log.Source) (level : Log.Level) (message : String)
    (fields : List Log.Field) : (tell source level message fields).Keeps R :=
  fun _ => hR.same rfl rfl

end Keeps

variable {α : Type} {w w' : World}

theorem tell_cases {source : Log.Source} {level : Log.Level} {message : String}
    {fields : List Log.Field} {r : Except Failure Unit}
    (h : tell source level message fields w = (r, w')) :
    r = .ok () ∧ w'.disk = w.disk ∧ w'.calls = w.calls := by
  cases h
  exact ⟨rfl, rfl, rfl⟩

theorem onDisk_cases {x : Attempt Disk α} {r : Except Failure α} (h : onDisk x w = (r, w')) :
    x w.disk = (r, w'.disk) ∧ w'.calls = w.calls := by
  cases h
  exact ⟨rfl, rfl⟩

theorem lookAtDisk_cases {f : Disk → Except Failure α} {r : Except Failure α}
    (h : lookAtDisk f w = (r, w')) : f w.disk = r ∧ w' = w := by
  cases h
  exact ⟨rfl, rfl⟩

end Run

/-- An engine that answers call after call as written down, and then does nothing. -/
def Engine.scripted (image : Bytes) (script : List Response) : Engine where
  image := image
  respond := fun past _ => script.getD past.length ⟨[], false, .code 0⟩

def Host.scripted (image : Bytes) (script : List Response) : Host where
  engine := .scripted image script
  now := fun _ => ⟨0, 0⟩
  ticks := fun _ => 0

end PointsTo
