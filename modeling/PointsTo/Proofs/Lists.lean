import Mathlib.Algebra.GroupWithZero.Nat
import Mathlib.Data.List.Nodup

/-!
Lists in general: the ways in which a list splits at one of its elements, and the
counting of its elements by shares.
-/

namespace PointsTo

section Split

variable {α : Type} {a b c : α} {before after : List α}

/-- What does not stand in the second part stands in the first. -/
theorem exists_eq_of_append_eq {xs ys : List α}
    (h : xs ++ ys = before ++ a :: after) (ha : a ∉ ys) : ∃ rest, xs = before ++ a :: rest := by
  rcases List.append_eq_append_iff.1 h with ⟨more, _, hys⟩ | ⟨more, hxs, hmore⟩
  · exact absurd (hys ▸ List.mem_append_right more List.mem_cons_self) ha
  · cases more with
    | nil =>
        rw [List.nil_append] at hmore
        exact absurd (hmore ▸ List.mem_cons_self) ha
    | cons b rest =>
        cases hmore
        exact ⟨rest, hxs⟩

theorem singleton_split (h : [a] = before ++ c :: after) : before = [] ∧ a = c ∧ after = [] := by
  cases before with
  | nil => simpa using h
  | cons x before => simp at h

theorem pair_split (h : [a, b] = before ++ c :: after) :
    (before = [] ∧ a = c ∧ after = [b]) ∨ (before = [a] ∧ b = c ∧ after = []) := by
  cases before with
  | nil =>
      obtain ⟨hfirst, hrest⟩ := List.cons.inj h
      exact Or.inl ⟨rfl, hfirst, hrest.symm⟩
  | cons x before =>
      obtain ⟨rfl, hrest⟩ := List.cons.inj h
      obtain ⟨rfl, rfl, rfl⟩ := singleton_split hrest
      exact Or.inr ⟨rfl, rfl, rfl⟩

/-- In a list that has one element of a kind, it splits the list in one way. -/
theorem eq_of_split {P : α → Prop} {xs ys pre post : List α} {x y : α}
    (h : xs ++ x :: ys = pre ++ y :: post) (hxs : ∀ z ∈ xs, ¬ P z) (hys : ∀ z ∈ ys, ¬ P z)
    (hy : P y) : xs = pre ∧ x = y ∧ ys = post := by
  rcases List.append_eq_append_iff.1 h with ⟨mid, rfl, htail⟩ | ⟨mid, rfl, htail⟩
  · cases mid with
    | nil => simpa using htail
    | cons z mid =>
        obtain ⟨_, rfl⟩ := List.cons.inj htail
        exact absurd hy (hys y (by simp))
  · cases mid with
    | nil => simpa [eq_comm] using htail
    | cons z mid =>
        obtain ⟨rfl, _⟩ := List.cons.inj htail
        exact absurd hy (hxs y (by simp))

theorem insertIdx_length (before after : List α) (a : α) :
    (before ++ after).insertIdx before.length a = before ++ a :: after := by
  induction before with
  | nil => rfl
  | cons b before ih => simp [ih]

end Split

section Count

variable {α β : Type}

theorem sum_countP_cons (shares : List β) (has : β → α → Bool) (x : α) (xs : List α) :
    (shares.map fun s => (x :: xs).countP (has s)).sum =
      (shares.map fun s => xs.countP (has s)).sum + shares.countP (has · x) := by
  induction shares with
  | nil => rfl
  | cons s shares ih =>
      simp only [List.map_cons, List.sum_cons, List.countP_cons] at ih ⊢
      omega

/-- Counting all elements at once is counting share by share, if every element that counts is
in one share and no other element is in any. -/
theorem countP_eq_sum_shares {xs : List α} {shares : List β} {counts : α → Bool}
    {has : β → α → Bool} (h : ∀ x ∈ xs, shares.countP (has · x) = if counts x then 1 else 0) :
    xs.countP counts = (shares.map fun s => xs.countP (has s)).sum := by
  induction xs with
  | nil => simp
  | cons x xs ih =>
      rw [sum_countP_cons, ← ih fun y hy => h y (List.mem_cons_of_mem _ hy), List.countP_cons,
        h x List.mem_cons_self]

theorem countP_eq_one [DecidableEq β] {xs : List α} {key : α → β} {x : α}
    (hkeys : (xs.map key).Nodup) (hx : x ∈ xs) : xs.countP (key · = key x) = 1 := by
  have hone := List.count_eq_one_of_mem hkeys (List.mem_map_of_mem hx)
  rw [List.count, List.countP_map] at hone
  rw [← hone]
  refine List.countP_congr fun y _ => ?_
  simp

end Count

end PointsTo
