import PointsTo.Disk.Tree

/-!
Moving an entry with everything inside it to another place in the tree. What
stood at the new place goes away.
-/

namespace PointsTo

namespace Table

/-- The location under `dst` of what is at `k` under `src`. -/
def relocate (src dst k : Location) : Location :=
  k.take (k.length - src.length) ++ dst

theorem relocate_append (src dst xs : Location) : relocate src dst (xs ++ src) = xs ++ dst := by
  simp [relocate]

def moved (src dst : Location) (table : List (Location × Entry)) : List (Location × Entry) :=
  (keep (Tree.isWithin src) table).map fun x => (relocate src dst x.1, x.2)

theorem find_moved (src dst k : Location) (table : List (Location × Entry)) :
    find k (moved src dst table) =
      if Tree.isWithin dst k then find (relocate dst src k) table else none := by
  induction table with
  | nil => simp [moved, keep, find]
  | cons x rest ih =>
    obtain ⟨m, v⟩ := x
    simp only [moved, keep, List.filter_cons] at ih ⊢
    by_cases hs : Tree.isWithin src m = true
    · obtain ⟨xs, rfl⟩ := Tree.isWithin_iff.1 hs
      simp only [hs, ↓reduceIte, List.map_cons, find, relocate_append]
      split
      · next hk =>
        subst hk
        have hw : Tree.isWithin dst (xs ++ dst) = true :=
          Tree.isWithin_iff.2 (List.suffix_append xs dst)
        simp [hw, relocate_append]
      · next hk =>
        rw [ih]
        split
        · next hw =>
          obtain ⟨ys, rfl⟩ := Tree.isWithin_iff.1 hw
          rw [relocate_append]
          have hne : ¬ xs ++ src = ys ++ src := fun h => hk (by rw [List.append_cancel_right h])
          simp [hne]
        · rfl
    · simp only [hs, Bool.false_eq_true, ↓reduceIte]
      rw [ih]
      split
      · next hw =>
        obtain ⟨ys, rfl⟩ := Tree.isWithin_iff.1 hw
        rw [relocate_append]
        have hne : ¬ m = ys ++ src := fun h =>
          hs (Tree.isWithin_iff.2 (h ▸ List.suffix_append ys src))
        simp [find, hne]
      · rfl

end Table

namespace Tree

/-- Neither place lies within the other, and the new one can hold an entry. -/
def canMove (t : Tree) (src dst : Location) : Bool :=
  match dst with
  | [] => false
  | n :: d => decide (IsName n) && t.isDirectory d && !isWithin src (n :: d) && !isWithin (n :: d) src

def moveEntries (t : Tree) (src dst : Location) : List (Location × Entry) :=
  Table.insertAll (Table.moved src dst t.entries)
    (Table.keep (fun k => !isWithin src k && !isWithin dst k) t.entries)

theorem find_moveEntries (t : Tree) {src dst : Location} (k : Location) :
    Table.find k (t.moveEntries src dst) =
      if isWithin dst k then t.find (Table.relocate dst src k)
      else if isWithin src k then none else t.find k := by
  rw [moveEntries, Table.find_insertAll, Table.find_moved, Table.find_keep]
  cases hd : isWithin dst k <;> cases hs : isWithin src k <;> simp [find]

theorem not_isWithin_of_cons {l d : Location} {n : String} (h : isWithin l (n :: d) = false) :
    isWithin l d = false := by
  cases hd : isWithin l d with
  | false => rfl
  | true => simp [isWithin_cons n hd] at h

theorem isWithin_cons_self (n : String) (d : Location) : isWithin (n :: d) d = false := by
  cases h : isWithin (n :: d) d with
  | false => rfl
  | true =>
    have hle := (isWithin_iff.1 h).length_le
    rw [List.length_cons] at hle
    omega

theorem isDirectory_moveEntries_of_not_within {t : Tree} {src dst d : Location}
    (hs : isWithin src d = false) (hd : isWithin dst d = false) (h : t.isDirectory d = true) :
    Table.isDirectory (t.moveEntries src dst) d = true := by
  cases d with
  | nil => rfl
  | cons m d =>
    simp only [Table.isDirectory, find_moveEntries, hs, hd]
    exact h

def move (t : Tree) (src dst : Location) : Tree :=
  if h : t.canMove src dst = true ∧ src ≠ [] then
    { entries := t.moveEntries src dst
      ordered := (t.ordered.keep _).insertAll _
      rootless := by
        cases dst with
        | nil => simp [canMove] at h
        | cons n d =>
          rw [find_moveEntries]
          have hn : isWithin (n :: d) [] = false := by simp [isWithin]
          simp only [hn, Bool.false_eq_true, ↓reduceIte]
          split
          · rfl
          · exact t.rootless
      rooted := fun m p e he => by
        cases dst with
        | nil => simp [canMove] at h
        | cons n d =>
          have hc := h.1
          simp only [canMove, Bool.and_eq_true, decide_eq_true_eq, Bool.not_eq_true'] at hc
          obtain ⟨⟨⟨hname, hdir⟩, hsd⟩, hds⟩ := hc
          rw [find_moveEntries] at he
          split at he
          · next hw =>
            obtain ⟨xs, hxs⟩ := isWithin_iff.1 hw
            cases xs with
            | nil =>
              simp only [List.nil_append, List.cons.injEq] at hxs
              obtain ⟨rfl, rfl⟩ := hxs
              exact ⟨hname, isDirectory_moveEntries_of_not_within
                (not_isWithin_of_cons hsd) (isWithin_cons_self _ _) hdir⟩
            | cons x xs =>
              simp only [List.cons_append, List.cons.injEq] at hxs
              obtain ⟨rfl, rfl⟩ := hxs
              rw [← List.cons_append, Table.relocate_append] at he
              have ho := t.rooted x (xs ++ src) e he
              refine ⟨ho.1, ?_⟩
              cases hp : xs ++ n :: d with
              | nil => rfl
              | cons y ys =>
                have hwp : isWithin (n :: d) (y :: ys) = true :=
                  isWithin_iff.2 (hp ▸ List.suffix_append xs (n :: d))
                simp only [Table.isDirectory, find_moveEntries, hwp, ↓reduceIte]
                rw [← hp, Table.relocate_append]
                cases hq : xs ++ src with
                | nil => exact absurd (List.append_eq_nil_iff.1 hq).2 h.2
                | cons z zs =>
                  have := ho.2
                  rw [hq] at this
                  exact this
          · next hw =>
            split at he
            · simp at he
            · next hs =>
              have ho := t.rooted m p e he
              exact ⟨ho.1, isDirectory_moveEntries_of_not_within
                (not_isWithin_of_cons (by simpa using hs)) (not_isWithin_of_cons (by simpa using hw))
                ho.2⟩ }
  else t

theorem find_move {t : Tree} {src dst : Location} (h : t.canMove src dst = true) (hne : src ≠ [])
    (k : Location) :
    (t.move src dst).find k =
      if isWithin dst k then t.find (Table.relocate dst src k)
      else if isWithin src k then none else t.find k := by
  simp only [move, h, hne, ne_eq, not_false_eq_true, and_self, ↓reduceDIte]
  exact find_moveEntries t k

end Tree
end PointsTo
