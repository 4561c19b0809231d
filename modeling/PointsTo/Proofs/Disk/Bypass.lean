import PointsTo.Proofs.Calls
import PointsTo.Proofs.Disk.Slots

/-!
What a path shows once a file has been removed under another name. A file stays
readable exactly if the way to it does not come to that name.
-/

namespace PointsTo

open PointsTo.Path (Step)

namespace Tree

section Fits

variable {s t : Tree} {fits : Location → Bool} {l r : Location}

theorem walkSteps_congr {jump jump' : Location → List Step → Except Errno Location}
    (hdirs : ∀ k, t.isDirectory k = s.isDirectory k)
    (hfind : ∀ k, fits k = true → t.find k = s.find k)
    (hjump : ∀ k steps, jump' k steps = jump k steps) (steps : List Step) :
    t.walkSteps fits .ok jump' l steps = s.walkSteps fits .ok jump l steps := by
  induction steps generalizing l with
  | nil => rfl
  | cons step rest ih =>
      cases step with
      | stay | up => simp only [walkSteps, hdirs, ih]
      | down name =>
          simp only [walkSteps]
          split
          · rfl
          · next hfits =>
            have hchild : t.child? l name = s.child? l name := by
              unfold child?
              rw [hdirs, hfind _ (by simpa using hfits)]
            rw [hchild]
            split
            · rfl
            · rfl
            · exact hjump _ _
            · exact ih

/-- A walk that keeps to places that fit looks at nothing else, apart from what is a
directory. -/
theorem walkWithin_congr (hdirs : ∀ k, t.isDirectory k = s.isDirectory k)
    (hfind : ∀ k, fits k = true → t.find k = s.find k) (links : Nat) (steps : List Step) :
    t.walkWithin fits links l steps = s.walkWithin fits links l steps := by
  induction links generalizing l steps with
  | zero => exact walkSteps_congr hdirs hfind (fun _ _ => rfl) steps
  | succ links ih => exact walkSteps_congr hdirs hfind (fun _ steps => ih steps) steps

theorem walkSteps_narrow {jump jump' : Location → List Step → Except Errno Location}
    (hfits : ∀ dir name e, t.child? dir name = .ok (some e) → fits (name :: dir) = true)
    (hjump : ∀ {k steps}, jump k steps = .ok r → jump' k steps = .ok r) {steps : List Step}
    (h : t.walkSteps (fun _ => true) .ok jump l steps = .ok r) :
    t.walkSteps fits .ok jump' l steps = .ok r := by
  induction steps generalizing l with
  | nil => exact h
  | cons step rest ih =>
      cases step with
      | stay =>
          rw [walkSteps_stay_eq_ok] at h ⊢
          exact h.imp_right ih
      | up =>
          rw [walkSteps_up_eq_ok] at h ⊢
          exact h.imp_right ih
      | down name =>
          rw [walkSteps_down_eq_ok] at h ⊢
          obtain ⟨_, e, hchild, hnext⟩ := h
          refine ⟨hfits l name e hchild, e, hchild, ?_⟩
          rcases hnext with ⟨target, he, hw⟩ | ⟨hne, hw⟩
          · exact Or.inl ⟨target, he, hjump hw⟩
          · exact Or.inr ⟨hne, ih hw⟩

/-- A walk that ends somewhere has come to things that are there alone. -/
theorem walkWithin_narrow
    (hfits : ∀ dir name e, t.child? dir name = .ok (some e) → fits (name :: dir) = true)
    {links : Nat} {steps : List Step}
    (h : t.walkWithin (fun _ => true) links l steps = .ok r) :
    t.walkWithin fits links l steps = .ok r := by
  induction links generalizing l steps with
  | zero => exact walkSteps_narrow hfits (fun hj => by cases hj) h
  | succ links ih => exact walkSteps_narrow hfits ih h

end Fits

section Remove

variable {t : Tree} {l k r : Location}

theorem isDirectory_remove_of_not_directory (h : t.isDirectory l = false) (k : Location) :
    (t.remove l).isDirectory k = t.isDirectory k := by
  by_cases hk : k = l
  · subst hk
    rw [h]
    refine isDirectory_of_find_none (by simp [find_remove_of_not_directory h]) ?_
    rintro rfl
    cases h
  · exact isDirectory_congr (by rw [find_remove_of_not_directory h, if_neg hk])

/-- The walks that are left are those that do not come to what went away. -/
theorem walkWithin_remove_iff (h : t.isDirectory l = false) {links : Nat} {steps : List Step} :
    (t.remove l).walkWithin (fun _ => true) links k steps = .ok r ↔
      t.walkWithin (· != l) links k steps = .ok r := by
  have hfind := find_remove_of_not_directory h
  have hsame : (t.remove l).walkWithin (· != l) links k steps =
      t.walkWithin (· != l) links k steps := by
    refine walkWithin_congr (isDirectory_remove_of_not_directory h) (fun k' hk => ?_) _ _
    rw [hfind, if_neg (by simpa using hk)]
  rw [← hsame]
  refine ⟨fun hw => walkWithin_narrow (fun dir name e hchild => ?_) hw,
    walkWithin_mono (Nat.le_refl _) fun _ _ => rfl⟩
  have he := (child?_eq_ok_iff.1 hchild).2.2
  rw [hfind] at he
  split at he
  · cases he
  · next hne => simpa using hne

end Remove
end Tree

namespace Disk

/-- The way of a path does not come to the entry that another path names. -/
def Bypasses (d : Disk) (p q : Path) : Prop :=
  ∀ name dir, d.resolveLast q = .ok (dir, .name name false) →
    d.tree.isDirectory (name :: dir) = false →
      d.goes (· != name :: dir) p p.steps = d.goes (fun _ => true) p p.steps

section Bypass

variable {d : Disk} {p q : Path} {l r : Location} {data : Bytes}

/-- Where a path leads somewhere, it keeps to places that fit if it leads there among them. -/
theorem goes_eq_iff (fits : Location → Bool) (h : d.Reaches p p.steps r) :
    ∃ rest, surface (d.sunk p) p.steps = .ok (0, rest) ∧
      d.tree.walk (d.origin p) rest = .ok r ∧
      (d.goes fits p p.steps = d.goes (fun _ => true) p p.steps ↔
        d.tree.walkWithin fits Tree.maxLinks (d.origin p) rest = .ok r) := by
  obtain ⟨hc, rest, hs, hw⟩ := h
  refine ⟨rest, hs, hw, ?_⟩
  have hstart := start_eq_some_iff.2 ⟨hc, hs, rfl⟩
  rw [goes_of_start hstart, goes_of_start hstart]
  unfold Tree.walk at hw
  rw [hw]
  cases d.tree.walkWithin fits Tree.maxLinks (d.origin p) rest with
  | error e | ok k => simp [lift_ok, lift_error, Except.map]

/-- A removal brings nothing to light. -/
theorem Reaches.of_remove (h : (d.remove l).Reaches p p.steps r) : d.Reaches p p.steps r :=
  h.of_leadsTo (leadsTo_of_standing (fun he => (Tree.find_of_find_remove he).2) r)

theorem reaches_remove_iff (hl : d.tree.isDirectory l = false) (h : d.Reaches p p.steps r) :
    (d.remove l).Reaches p p.steps r ↔
      d.goes (· != l) p p.steps = d.goes (fun _ => true) p p.steps := by
  obtain ⟨rest, hs, _, hgoes⟩ := goes_eq_iff (· != l) h
  obtain ⟨hcwd, hlost⟩ := remove_stays hl
  rw [hgoes, ← Tree.walkWithin_remove_iff hl]
  unfold Reaches WalksTo sunk origin at *
  rw [hcwd, hlost, tree_remove]
  constructor
  · rintro ⟨_, rest', hs', hw⟩
    cases hs.symm.trans hs'
    exact hw
  · intro hw
    exact ⟨h.1, rest, hs, hw⟩

/-- The contents of a file are found after a removal if they were found without coming to
what went away. -/
theorem read_remove_iff (hl : d.tree.isDirectory l = false) (h : d.read p = .ok data) :
    (d.remove l).read p = .ok data ↔
      d.goes (· != l) p p.steps = d.goes (fun _ => true) p p.steps := by
  obtain ⟨r, mode, hr, hfile⟩ := read_eq_ok_iff.1 h
  rw [← reaches_remove_iff hl hr, read_eq_ok_iff]
  constructor
  · rintro ⟨r', _, hr', _⟩
    cases hr.unique hr'.of_remove
    exact hr'
  · intro hr'
    refine ⟨r, mode, hr', ?_⟩
    have hfind := Tree.find_remove_of_not_directory hl r
    rw [tree_remove, hfind, if_neg, hfile]
    rintro rfl
    rcases hr'.stands with hdir | ⟨_, _, hgone⟩
    · rw [tree_remove, Tree.isDirectory_remove_of_not_directory hl, hl] at hdir
      cases hdir
    · rw [tree_remove, hfind, if_pos rfl] at hgone
      cases hgone

/-- What does not stand under a name is on no way. -/
theorem goes_of_absent {name : String} {dir : Location}
    (hnone : ∀ e, d.tree.child? dir name ≠ .ok (some e)) (h : d.Reaches p p.steps r) :
    d.goes (· != name :: dir) p p.steps = d.goes (fun _ => true) p p.steps := by
  obtain ⟨rest, _, hw, hgoes⟩ := goes_eq_iff (· != name :: dir) h
  refine hgoes.2 (Tree.walkWithin_narrow (fun dir' name' e hchild => ?_) hw)
  rw [bne_iff_ne]
  rintro ⟨⟩
  exact hnone e hchild

/-- A file is as it was after a program file has been released, if the way to it does not
come to the program file. -/
theorem read_released_iff (cleanup : Bool) (h : d.read p = .ok data) :
    (d.released q cleanup).read p = .ok data ↔ (cleanup = true → d.Bypasses p q) := by
  cases cleanup with
  | false => simp [released, h]
  | true =>
      simp only [released, ↓reduceIte, forall_const]
      cases hunlink : d.unlink q with
      | ok d' =>
          obtain ⟨name, dir, e, hlast, hchild, he, rfl⟩ := unlink_cases hunlink
          have hplain : d.tree.isDirectory (name :: dir) = false :=
            (Tree.isDirectory_eq_of_find (Tree.child?_eq_ok_iff.1 hchild).2.2).trans he
          rw [attempt, read_remove_iff hplain h]
          refine ⟨fun hgoes name' dir' hlast' _ => ?_, fun hby => hby name dir hlast hplain⟩
          cases hlast.symm.trans hlast'
          exact hgoes
      | error x =>
          -- the disk is as it was, and nothing that can be removed is there to come to
          simp only [attempt, h, true_iff]
          obtain ⟨r, _, hr, _⟩ := read_eq_ok_iff.1 h
          intro name dir hlast hplain
          refine goes_of_absent (fun e hchild => ?_) hr
          have he : e.isDirectory = false :=
            (Tree.isDirectory_eq_of_find (Tree.child?_eq_ok_iff.1 hchild).2.2).symm.trans hplain
          cases hunlink.symm.trans (unlink_eq hlast hchild he)

theorem read_of_read_released {cleanup : Bool} (h : (d.released q cleanup).read p = .ok data) :
    d.read p = .ok data := by
  unfold released attempt at h
  split at h
  · split at h
    · next d' hunlink =>
      obtain ⟨name, dir, e, _, _, _, rfl⟩ := unlink_cases hunlink
      obtain ⟨r, mode, hr, hfile⟩ := read_eq_ok_iff.1 h
      exact read_eq_ok_iff.2 ⟨r, mode, hr.of_remove, (Tree.find_of_find_remove hfile).2⟩
    · exact h
  · exact h

end Bypass
end Disk
end PointsTo
