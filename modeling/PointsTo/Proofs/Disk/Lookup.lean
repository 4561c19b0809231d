import PointsTo.Disk.Lookup
import PointsTo.Proofs.Disk.Walk
import PointsTo.Proofs.Path

/-!
Where paths lead on a disk. `Reaches` says it once for all lookups, and what one
disk reaches another one reaches as well if its tree leads there and its current
directory is the same one or lies further down.
-/

namespace PointsTo

open PointsTo.Path (Step)

instance decidableEqExcept {ε α : Type} [DecidableEq ε] [DecidableEq α] :
    DecidableEq (Except ε α)
  | .ok a, .ok b => decidable_of_iff (a = b) ⟨congrArg _, Except.ok.inj⟩
  | .error e, .error f => decidable_of_iff (e = f) ⟨congrArg _, Except.error.inj⟩
  | .ok _, .error _ | .error _, .ok _ => isFalse nofun

theorem bind_eq_ok_iff {ε α β : Type} {x : Except ε α} {f : α → Except ε β} {b : β} :
    (x >>= f) = .ok b ↔ ∃ a, x = .ok a ∧ f a = .ok b := by
  cases x with
  | error e => exact ⟨nofun, fun ⟨_, h, _⟩ => nomatch h⟩
  | ok a => exact ⟨fun h => ⟨a, rfl, h⟩, fun ⟨_, h, hf⟩ => by cases h; exact hf⟩

theorem mapError_ok {ε ε' α : Type} (f : ε → ε') (a : α) :
    (Except.ok a : Except ε α).mapError f = .ok a := rfl

theorem mapError_error {ε ε' α : Type} (f : ε → ε') (e : ε) :
    (Except.error e : Except ε α).mapError f = .error (f e) := rfl

theorem mapError_eq_ok_iff {ε ε' α : Type} {x : Except ε α} {f : ε → ε'} {a : α} :
    x.mapError f = .ok a ↔ x = .ok a := by
  cases x <;> simp [mapError_ok, mapError_error]

namespace Tree

theorem isName_of_mem {t : Tree} {l : Location} (h : t.Stands l) : ∀ n ∈ l, IsName n := by
  induction l with
  | nil => nofun
  | cons m l ih =>
      have hm : ∃ e, t.find (m :: l) = some e := by
        rcases h with h | ⟨data, mode, h⟩
        · obtain ⟨mode, h⟩ := isDirectory_cons_iff.1 h
          exact ⟨_, h⟩
        · exact ⟨_, h⟩
      obtain ⟨e, he⟩ := hm
      intro n hn
      rcases List.mem_cons.1 hn with rfl | hn
      · exact isName_of_find he
      · exact ih (Or.inl (isDirectory_of_find he)) n hn

end Tree

namespace Disk

theorem lift_ok {α : Type} (a : α) : lift (.ok a) = .ok a := rfl

theorem lift_error {α : Type} (e : Errno) : lift (.error e : Except Errno α) = .error (.system e) :=
  rfl

theorem lift_inj {α : Type} {x y : Except Errno α} (h : lift x = lift y) : x = y := by
  cases x <;> cases y <;> simp_all [lift_ok, lift_error]

theorem lift_eq_ok_iff {α : Type} {x : Except Errno α} {a : α} : lift x = .ok a ↔ x = .ok a :=
  mapError_eq_ok_iff

@[simp] theorem surface_zero (steps : List Step) : surface 0 steps = .ok (0, steps) := by
  cases steps <;> rfl

/-- More moves are made from where the first ones have led. -/
theorem surface_append (lost : Nat) (steps more : List Step) :
    surface lost (steps ++ more) =
      match surface lost steps with
      | .ok (0, rest) => .ok (0, rest ++ more)
      | .ok (left + 1, _) => surface (left + 1) more
      | .error e => .error e := by
  induction steps generalizing lost with
  | nil => cases lost <;> simp [surface]
  | cons step steps ih =>
      cases lost with
      | zero => simp
      | succ lost =>
          cases step with
          | stay | up => exact ih _
          | down name => rfl

theorem surface_append_ok {lost : Nat} {steps rest : List Step} (more : List Step)
    (h : surface lost steps = .ok (0, rest)) : surface lost (steps ++ more) = .ok (0, rest ++ more) := by
  rw [surface_append, h]

/-- Moves that do not lead out of a directory that is gone are made outside it. -/
theorem surface_of_append {lost : Nat} {before after rest : List Step}
    (hafter : ∀ lost rest, surface (lost + 1) after ≠ .ok (0, rest))
    (h : surface lost (before ++ after) = .ok (0, rest)) :
    ∃ first, surface lost before = .ok (0, first) ∧ rest = first ++ after := by
  rw [surface_append] at h
  split at h
  · next first hfirst =>
    cases h
    exact ⟨first, hfirst, rfl⟩
  · exact absurd h (hafter _ _)
  · cases h

theorem surface_suffix {lost left : Nat} {steps rest : List Step}
    (h : surface lost steps = .ok (left, rest)) : rest <:+ steps := by
  induction steps generalizing lost with
  | nil =>
      cases lost with
      | zero | succ =>
          cases h
          exact List.suffix_refl _
  | cons step steps ih =>
      cases lost with
      | zero =>
          cases h
          exact List.suffix_refl _
      | succ lost =>
          cases step with
          | stay | up => exact (ih h).trans (List.suffix_cons _ _)
          | down name => cases h

theorem surface_add {lost more : Nat} {steps rest : List Step}
    (h : surface (lost + more) steps = .ok (0, rest)) :
    ∃ mid, surface lost steps = .ok (0, mid) ∧ surface more mid = .ok (0, rest) := by
  induction steps generalizing lost with
  | nil =>
      cases lost with
      | zero => exact ⟨[], rfl, by simpa using h⟩
      | succ lost =>
          rw [Nat.succ_add] at h
          cases h
  | cons step steps ih =>
      cases lost with
      | zero => exact ⟨step :: steps, rfl, by simpa using h⟩
      | succ lost =>
          rw [Nat.succ_add] at h
          cases step with
          | stay => exact ih (by rwa [Nat.succ_add])
          | up => exact ih h
          | down name => cases h

/-- Moves that lead out of lost levels lead up as many levels that are there. -/
theorem walkSteps_surface {t : Tree} {fits : Location → Bool}
    {jump : Location → List Step → Except Errno Location} {l : Location}
    (hl : t.isDirectory l = true) {i : Nat} {steps rest : List Step}
    (h : surface i steps = .ok (0, rest)) :
    t.walkSteps fits .ok jump l steps = t.walkSteps fits .ok jump (l.drop i) rest := by
  induction steps generalizing i l with
  | nil =>
      cases i with
      | zero =>
          cases h
          rfl
      | succ i => cases h
  | cons step steps ih =>
      cases i with
      | zero =>
          cases h
          rfl
      | succ i =>
          cases step with
          | stay =>
              rw [Tree.walkSteps, if_pos hl]
              exact ih hl h
          | up =>
              rw [Tree.walkSteps, if_pos hl, ← List.drop_tail]
              exact ih (Tree.isDirectory_tail hl) h
          | down name => cases h

def origin (d : Disk) (p : Path) : Location :=
  if p.isAbsolute then [] else d.cwd

/-- How many levels of a directory that is gone the moves start below their origin. -/
def sunk (d : Disk) (p : Path) : Nat :=
  if p.isAbsolute then 0 else d.lost

def WalksTo (d : Disk) (p : Path) (steps : List Step) (r : Location) : Prop :=
  ∃ rest, surface (d.sunk p) steps = .ok (0, rest) ∧ d.tree.walk (d.origin p) rest = .ok r

def Reaches (d : Disk) (p : Path) (steps : List Step) (r : Location) : Prop :=
  checkText p = .ok () ∧ d.WalksTo p steps r

section Reaches

variable {d : Disk} {p : Path} {steps : List Step} {l r r' : Location}

theorem isDirectory_origin (d : Disk) (p : Path) : d.tree.isDirectory (d.origin p) = true := by
  unfold origin
  split
  · rfl
  · exact d.cwd_isDirectory

/-- Paths that start at the same place are walked alike. -/
theorem walksTo_iff_of_isAbsolute_eq {q : Path} (h : q.isAbsolute = p.isAbsolute) :
    d.WalksTo q steps r ↔ d.WalksTo p steps r := by
  simp only [WalksTo, sunk, origin, h]

theorem WalksTo.unique (h : d.WalksTo p steps r) (h' : d.WalksTo p steps r') : r = r' := by
  obtain ⟨rest, hs, hw⟩ := h
  obtain ⟨rest', hs', hw'⟩ := h'
  cases hs.symm.trans hs'
  exact Except.ok.inj (hw.symm.trans hw')

theorem WalksTo.stands (h : d.WalksTo p steps r) : d.tree.Stands r := by
  obtain ⟨rest, _, hw⟩ := h
  exact Tree.walkWithin_stands (d.isDirectory_origin p) hw

theorem Reaches.unique (h : d.Reaches p steps r) (h' : d.Reaches p steps r') : r = r' :=
  h.2.unique h'.2

theorem Reaches.stands (h : d.Reaches p steps r) : d.tree.Stands r :=
  h.2.stands

theorem start_eq_some_iff {rest : List Step} :
    d.start p steps = .ok (some (l, rest)) ↔
      checkText p = .ok () ∧ surface (d.sunk p) steps = .ok (0, rest) ∧ d.origin p = l := by
  unfold start sunk origin
  rw [bind_eq_ok_iff]
  constructor
  · rintro ⟨_, hc, h⟩
    refine ⟨hc, ?_⟩
    split at h
    · next ha =>
      cases h
      simp [ha]
    · next ha =>
      simp only [ha, Bool.false_eq_true, ↓reduceIte]
      obtain ⟨⟨lost, steps⟩, hs, h⟩ := bind_eq_ok_iff.1 h
      cases lost with
      | zero =>
          cases h
          exact ⟨lift_eq_ok_iff.1 hs, rfl⟩
      | succ lost => cases h
  · rintro ⟨hc, hs, hl⟩
    refine ⟨(), hc, ?_⟩
    split
    · next ha =>
      simp only [ha, ↓reduceIte, surface_zero] at hs hl
      cases hs
      rw [hl]
    · next ha =>
      simp only [ha, Bool.false_eq_true, ↓reduceIte] at hs hl
      rw [hs, ← hl]
      rfl

theorem sunk_ne_zero (h : d.start p steps = .ok none) : d.sunk p ≠ 0 := by
  intro hs
  unfold start at h
  obtain ⟨_, _, h⟩ := bind_eq_ok_iff.1 h
  split at h
  · cases h
  · next ha =>
    have hlost : d.lost = 0 := by simpa [sunk, ha] using hs
    rw [hlost, surface_zero] at h
    cases h

theorem place_eq_some_iff : d.place p = .ok (some r) ↔ d.Reaches p p.steps r := by
  unfold place Reaches WalksTo
  rw [bind_eq_ok_iff]
  constructor
  · rintro ⟨x, hx, h⟩
    cases x with
    | none => cases h
    | some x =>
        obtain ⟨l, rest⟩ := x
        obtain ⟨hc, hs, rfl⟩ := start_eq_some_iff.1 hx
        obtain ⟨r', hw, h⟩ := bind_eq_ok_iff.1 h
        cases h
        exact ⟨hc, rest, hs, lift_eq_ok_iff.1 hw⟩
  · rintro ⟨hc, rest, hs, hw⟩
    refine ⟨_, start_eq_some_iff.2 ⟨hc, hs, rfl⟩, ?_⟩
    simp only [hw]
    rfl

theorem resolve_eq_ok_iff : d.resolve p = .ok r ↔ d.Reaches p p.steps r := by
  rw [← place_eq_some_iff]
  unfold resolve
  rw [bind_eq_ok_iff]
  constructor
  · rintro ⟨x, hx, h⟩
    cases x with
    | none => cases h
    | some l =>
        cases h
        exact hx
  · intro h
    exact ⟨_, h, rfl⟩

theorem entry_eq_file_iff {data : Bytes} {mode : Nat} :
    d.entry p = .ok (.file data mode) ↔
      ∃ l, d.Reaches p p.steps l ∧ d.tree.find l = some (.file data mode) := by
  unfold entry
  rw [bind_eq_ok_iff]
  constructor
  · rintro ⟨x, hx, hat⟩
    cases x with
    | none => cases hat
    | some l =>
        cases l with
        | nil => cases hat
        | cons n above =>
            unfold entryAt Tree.entry? at hat
            dsimp only at hat
            split at hat
            · next e hfind =>
              cases hat
              exact ⟨_, place_eq_some_iff.1 hx, hfind⟩
            · cases hat
  · rintro ⟨l, hl, hfind⟩
    refine ⟨some l, place_eq_some_iff.2 hl, ?_⟩
    cases l with
    | nil => cases d.tree.rootless.symm.trans hfind
    | cons n above => simp [entryAt, Tree.entry?, hfind]

theorem read_eq_ok_iff {data : Bytes} :
    d.read p = .ok data ↔
      ∃ l mode, d.Reaches p p.steps l ∧ d.tree.find l = some (.file data mode) := by
  unfold read
  rw [bind_eq_ok_iff]
  constructor
  · rintro ⟨e, he, h⟩
    cases e with
    | directory mode | link target => cases h
    | file data mode =>
        cases h
        obtain ⟨l, hl, hfind⟩ := entry_eq_file_iff.1 he
        exact ⟨l, mode, hl, hfind⟩
  · rintro ⟨l, mode, hl, hfind⟩
    exact ⟨_, entry_eq_file_iff.2 ⟨l, hl, hfind⟩, rfl⟩

theorem eq_ending_of_resolveLast {last : Path.Ending} (h : d.resolveLast p = .ok (l, last)) :
    last = p.ending.2 := by
  unfold resolveLast at h
  obtain ⟨x, _, h⟩ := bind_eq_ok_iff.1 h
  split at h
  · obtain ⟨dir, _, hd⟩ := bind_eq_ok_iff.1 (lift_eq_ok_iff.1 h)
    split at hd
    · exact (Prod.mk.inj (Except.ok.inj hd)).2.symm
    · cases hd
  · cases h
  · exact (Prod.mk.inj (Except.ok.inj h)).2.symm

theorem resolveLast_eq_name_iff {name : String} {slash : Bool} :
    d.resolveLast p = .ok (l, .name name slash) ↔
      p.ending.2 = .name name slash ∧ d.Reaches p p.ending.1 l ∧ d.tree.isDirectory l = true := by
  unfold resolveLast Reaches WalksTo
  rw [bind_eq_ok_iff]
  constructor
  · rintro ⟨x, hx, h⟩
    cases x with
    | none =>
        cases hp : p.ending.2 <;> simp [hp] at h
    | some x =>
        obtain ⟨start, rest⟩ := x
        obtain ⟨hc, hs, rfl⟩ := start_eq_some_iff.1 hx
        have hl := lift_eq_ok_iff.1 h
        obtain ⟨dir, hw, hd⟩ := bind_eq_ok_iff.1 hl
        split at hd
        · next hdir =>
          obtain ⟨rfl, he⟩ := Prod.mk.inj (Except.ok.inj hd)
          exact ⟨he, ⟨hc, rest, hs, hw⟩, hdir⟩
        · cases hd
  · rintro ⟨he, ⟨hc, rest, hs, hw⟩, hdir⟩
    refine ⟨_, start_eq_some_iff.2 ⟨hc, hs, rfl⟩, ?_⟩
    rw [he]
    refine lift_eq_ok_iff.2 (bind_eq_ok_iff.2 ⟨l, hw, ?_⟩)
    rw [if_pos hdir]

end Reaches

/-- Paths that lead to `r` on `d` lead there on `d'` too. The current directory of
`d'` may stand further down, where it is gone on `d`. -/
structure LeadsTo (d d' : Disk) (r : Location) : Prop where
  tree : d.tree.LeadsTo d'.tree r
  above : ∃ i, d.cwd = d'.cwd.drop i ∧ d.lost = d'.lost + i

section Transfer

variable {d d' : Disk} {p : Path} {steps before after : List Step} {mid r : Location}

theorem WalksTo.of_leadsTo (hd : d.LeadsTo d' r) (h : d.WalksTo p steps r) :
    d'.WalksTo p steps r := by
  obtain ⟨rest, hs, hw⟩ := h
  have hw' := Tree.walkWithin_of_leadsTo hd.tree hw
  unfold WalksTo sunk origin at *
  split at hs
  · next ha =>
    simp only [ha, ↓reduceIte] at hw' ⊢
    exact ⟨rest, hs, hw'⟩
  · next ha =>
    simp only [ha, Bool.false_eq_true, ↓reduceIte] at hw' ⊢
    obtain ⟨i, hcwd, hlost⟩ := hd.above
    rw [hlost] at hs
    rw [hcwd] at hw'
    obtain ⟨way, hway, hrest⟩ := surface_add hs
    exact ⟨way, hway, (walkSteps_surface d'.cwd_isDirectory hrest).trans hw'⟩

theorem Reaches.of_leadsTo (hd : d.LeadsTo d' r) (h : d.Reaches p steps r) :
    d'.Reaches p steps r :=
  ⟨h.1, h.2.of_leadsTo hd⟩

theorem Reaches.append (h : d.Reaches p before mid)
    (hw : d.tree.walkWithin (fun _ => true) 0 mid after = .ok r) :
    d.Reaches p (before ++ after) r := by
  obtain ⟨hc, rest, hs, hm⟩ := h
  exact ⟨hc, _, surface_append_ok after hs, Tree.walkWithin_of_append hm hw⟩

theorem Reaches.split {name : String} (h : d.Reaches p (before ++ .down name :: after) r) :
    ∃ mid, d.Reaches p before mid ∧ d.tree.walk mid (.down name :: after) = .ok r := by
  obtain ⟨hc, rest, hs, hw⟩ := h
  obtain ⟨first, hfirst, rfl⟩ := surface_of_append (by simp [surface]) hs
  obtain ⟨mid, hm, ha⟩ := Tree.walkWithin_append hw
  exact ⟨mid, ⟨hc, first, hfirst, hm⟩, ha⟩

end Transfer

section Name

variable {d : Disk} {p : Path} {dir l r : Location} {name : String} {slash : Bool}

theorem walkSteps_stay {t : Tree} {fits : Location → Bool}
    {jump : Location → List Step → Except Errno Location} (h : t.isDirectory l = true) (k : Nat) :
    t.walkSteps fits .ok jump l (List.replicate k .stay) = .ok l := by
  induction k with
  | zero => rfl
  | succ k ih =>
      rw [List.replicate_succ, Tree.walkSteps, if_pos h]
      exact ih

theorem walkWithin_stay {t : Tree} {fits : Location → Bool} (h : t.isDirectory l = true)
    (links k : Nat) : t.walkWithin fits links l (List.replicate k .stay) = .ok l :=
  walkSteps_stay h k

/-- A path whose last segment names something other than a link leads to it. After
a separator at its end that has to be a directory. -/
theorem reaches_of_resolveLast {e : Entry} (h : d.resolveLast p = .ok (dir, .name name slash))
    (he : d.tree.child? dir name = .ok (some e)) (hl : ∀ target, e ≠ .link target)
    (hslash : slash = true → d.tree.isDirectory (name :: dir) = true) :
    d.Reaches p p.steps (name :: dir) := by
  obtain ⟨hend, hr, _⟩ := resolveLast_eq_name_iff.1 h
  obtain ⟨_, k, hsteps, hk⟩ := Path.steps_of_ending (Prod.ext rfl hend)
  rw [hsteps]
  refine hr.append ?_
  rw [Tree.walkWithin_eq_walkSteps]
  refine Tree.walkSteps_down_eq_ok.2 ⟨rfl, e, he, Or.inr ⟨hl, ?_⟩⟩
  cases slash with
  | false =>
      rw [hk.1 rfl]
      rfl
  | true => exact walkSteps_stay (hslash rfl) k

theorem eq_of_walkSteps_stay {t : Tree} {fits : Location → Bool}
    {jump : Location → List Step → Except Errno Location} {k : Nat}
    (h : t.walkSteps fits .ok jump l (List.replicate k .stay) = .ok r) : r = l := by
  induction k with
  | zero => exact (Except.ok.inj h).symm
  | succ k ih =>
      rw [List.replicate_succ, Tree.walkSteps_stay_eq_ok] at h
      exact ih h.2

theorem eq_of_reaches (h : d.resolveLast p = .ok (dir, .name name slash))
    (hl : ∀ target, d.tree.find (name :: dir) ≠ some (.link target))
    (hr : d.Reaches p p.steps r) : r = name :: dir := by
  obtain ⟨hend, hbefore, _⟩ := resolveLast_eq_name_iff.1 h
  obtain ⟨_, k, hsteps, _⟩ := Path.steps_of_ending (Prod.ext rfl hend)
  rw [hsteps] at hr
  obtain ⟨mid, hmid, hw⟩ := hr.split
  cases hbefore.unique hmid
  rw [← List.singleton_append] at hw
  obtain ⟨stop, hdown, hstay⟩ := Tree.walkWithin_append hw
  rw [Tree.walkWithin_down _ _ hl] at hdown
  obtain ⟨x, _, hx⟩ := bind_eq_ok_iff.1 hdown
  cases x with
  | none => cases hx
  | some e =>
      cases hx
      exact eq_of_walkSteps_stay hstay

/-- What a path locates that ends in a name without a separator, or in another way. -/
theorem locate_cases (h : d.locate p = .ok (some l)) :
    (∃ name dir, d.resolveLast p = .ok (dir, .name name false) ∧ l = name :: dir ∧
      ∃ e, d.tree.child? dir name = .ok (some e)) ∨
    (d.Reaches p p.steps l ∧ ∀ name dir, d.resolveLast p ≠ .ok (dir, .name name false)) := by
  unfold locate at h
  obtain ⟨⟨dir, last⟩, hlast, h⟩ := bind_eq_ok_iff.1 h
  split at h
  · next dir name heq =>
    cases heq
    obtain ⟨x, hx, h⟩ := bind_eq_ok_iff.1 h
    cases x with
    | none => cases h
    | some e =>
        cases h
        exact Or.inl ⟨name, dir, hlast, rfl, e, lift_eq_ok_iff.1 hx⟩
  · next hne =>
    refine Or.inr ⟨place_eq_some_iff.1 h, fun name dir hn => ?_⟩
    cases hlast.symm.trans hn
    exact hne dir name rfl

theorem locate_of_directory {mode : Nat} (h : d.resolveLast p = .ok (dir, .name name slash))
    (hc : d.tree.child? dir name = .ok (some (.directory mode))) :
    d.locate p = .ok (some (name :: dir)) := by
  unfold locate
  refine bind_eq_ok_iff.2 ⟨_, h, ?_⟩
  cases slash with
  | false => exact bind_eq_ok_iff.2 ⟨_, lift_eq_ok_iff.2 hc, rfl⟩
  | true =>
      refine place_eq_some_iff.2 (reaches_of_resolveLast h hc nofun fun _ => ?_)
      exact Tree.isDirectory_cons_iff.2 ⟨mode, (Tree.child?_eq_ok_iff.1 hc).2.2⟩

theorem reaches_of_locate (h : d.locate p = .ok (some l))
    (hl : ∀ target, d.tree.find l ≠ some (.link target)) : d.Reaches p p.steps l := by
  rcases locate_cases h with ⟨name, dir, hlast, rfl, e, he⟩ | ⟨hr, _⟩
  · refine reaches_of_resolveLast hlast he (fun target ht => ?_) nofun
    exact hl target (ht ▸ (Tree.child?_eq_ok_iff.1 he).2.2)
  · exact hr

theorem exists_reaches_of_canonical {q : Path} (h : d.canonical p = .ok q) :
    ∃ r, d.Reaches p p.steps r ∧ q = r.toPath := by
  unfold canonical at h
  obtain ⟨_, hc, h⟩ := bind_eq_ok_iff.1 h
  have hlost : d.sunk p = 0 ∧ ∃ r, d.tree.walkWithPath (d.origin p) p.steps = .ok r ∧
      q = r.toPath := by
    unfold sunk origin
    by_cases ha : p.isAbsolute = true
    · simp only [ha, Bool.not_true, Bool.false_eq_true, ↓reduceIte] at h ⊢
      obtain ⟨r, hr, h⟩ := bind_eq_ok_iff.1 h
      cases h
      exact ⟨trivial, r, lift_eq_ok_iff.1 hr, rfl⟩
    · simp only [ha, Bool.not_false, ↓reduceIte, Bool.false_eq_true] at h ⊢
      obtain ⟨_, hcur, h⟩ := bind_eq_ok_iff.1 h
      obtain ⟨r, hr, h⟩ := bind_eq_ok_iff.1 h
      cases h
      refine ⟨?_, r, lift_eq_ok_iff.1 hr, rfl⟩
      unfold currentPath at hcur
      split at hcur
      · assumption
      · cases hcur
  obtain ⟨hz, r, hr, rfl⟩ := hlost
  refine ⟨r, ⟨hc, p.steps, ?_, ?_⟩, rfl⟩
  · rw [hz, surface_zero]
  · exact Tree.walkWithin_mono (Nat.le_refl _) (fun _ _ => rfl) hr

/-- The canonical path of a path that the system takes is found by a walk. -/
theorem canonical_eq (hc : checkText p = .ok ()) (hs : d.sunk p = 0) :
    d.canonical p = (lift (d.tree.walkWithPath (d.origin p) p.steps)).map Location.toPath := by
  unfold canonical origin
  rw [hc]
  by_cases ha : p.isAbsolute = true
  · rw [if_pos ha, ha]
    rfl
  · have hlost : d.lost = 0 := by simpa [sunk, ha] using hs
    have hcur : d.currentPath = .ok d.cwd.toPath := if_pos hlost
    simp only [ha, Bool.not_false, ↓reduceIte, hcur, Bool.false_eq_true]
    rfl

/-- What is reached has a canonical path, unless that is too long. -/
theorem canonical_of_reaches (hs : d.sunk p = 0) (h : d.Reaches p p.steps r) :
    d.canonical p = .ok r.toPath ∨ d.canonical p = .error (.system .nameTooLong) := by
  obtain ⟨hc, rest, hrest, hw⟩ := h
  rw [hs, surface_zero] at hrest
  cases hrest
  have hfits : d.tree.walkWithPath (d.origin p) p.steps = .ok r ∨
      d.tree.walkWithPath (d.origin p) p.steps = .error .nameTooLong := Tree.walkWithin_fits hw
  rw [canonical_eq hc hs]
  rcases hfits with hw | hw
  · exact Or.inl (by rw [hw]; rfl)
  · exact Or.inr (by rw [hw]; rfl)

theorem exists_reaches_of_isPresent (hs : d.sunk p = 0) (h : d.isPresent p = true) :
    ∃ r, d.Reaches p p.steps r := by
  unfold isPresent at h
  cases he : d.entry p with
  | error e => simp [he, Except.toBool] at h
  | ok e =>
      obtain ⟨x, hx, _⟩ := bind_eq_ok_iff.1 he
      cases x with
      | some r => exact ⟨r, place_eq_some_iff.1 hx⟩
      | none =>
          obtain ⟨y, hy, hnone⟩ := bind_eq_ok_iff.1 hx
          cases y with
          | none => exact absurd hs (sunk_ne_zero hy)
          | some y =>
              obtain ⟨_, _, hsome⟩ := bind_eq_ok_iff.1 hnone
              cases hsome

end Name
/-- The directory that a name after the path is looked up in. -/
def Enters (d : Disk) (p : Path) (dir : Location) : Prop :=
  d.tree.isDirectory dir = true ∧ d.WalksTo p p.within dir

section Enters

variable {d d' : Disk} {p : Path} {dir dir' : Location} {name : String}

theorem Enters.unique (h : d.Enters p dir) (h' : d.Enters p dir') : dir = dir' :=
  h.2.unique h'.2

theorem Enters.of_leadsTo (hd : d.LeadsTo d' dir) (h : d.Enters p dir) : d'.Enters p dir :=
  ⟨hd.tree.directory h.1, h.2.of_leadsTo hd⟩

/-- A path to a directory leads where a name after it is looked up. -/
theorem Reaches.enters (h : d.Reaches p p.steps dir) (hdir : d.tree.isDirectory dir = true) :
    d.Enters p dir := by
  refine ⟨hdir, ?_⟩
  rcases p.steps_eq_within with hp | hp
  · exact hp ▸ h.2
  · obtain ⟨_, rest, hs, hw⟩ := h
    rw [hp] at hs
    obtain ⟨first, hfirst, rfl⟩ := surface_of_append (by simp [surface]) hs
    obtain ⟨mid, hm, hstay⟩ := Tree.walkWithin_append hw
    rw [eq_of_walkSteps_stay (k := 1) hstay]
    exact ⟨first, hfirst, hm⟩

theorem Enters.reaches (h : d.Enters p dir) (hc : checkText p = .ok ()) :
    d.Reaches p p.steps dir := by
  have hbefore : d.Reaches p p.within dir := ⟨hc, h.2⟩
  rcases p.steps_eq_within with hp | hp
  · exact hp ▸ hbefore
  · rw [hp]
    exact hbefore.append (walkSteps_stay h.1 1)

theorem walksTo_div_iff (hn : IsName name) {steps : List Step} :
    d.WalksTo (p / name) steps dir ↔ d.WalksTo p steps dir :=
  walksTo_iff_of_isAbsolute_eq (Path.isAbsolute_div p hn)

theorem resolveLast_div_iff {last : Path.Ending} (hn : IsName name) :
    d.resolveLast (p / name) = .ok (dir, last) ↔
      checkText (p / name) = .ok () ∧ d.Enters p dir ∧ last = .name name false := by
  have hend := Path.ending_div p hn
  constructor
  · intro h
    obtain rfl : last = .name name false := by rw [eq_ending_of_resolveLast h, hend]
    obtain ⟨_, hr, hdir⟩ := resolveLast_eq_name_iff.1 h
    rw [hend] at hr
    exact ⟨hr.1, ⟨hdir, (walksTo_div_iff hn).1 hr.2⟩, rfl⟩
  · rintro ⟨hc, ⟨hdir, hr⟩, rfl⟩
    refine resolveLast_eq_name_iff.2 ⟨by rw [hend], ?_, hdir⟩
    rw [hend]
    exact ⟨hc, (walksTo_div_iff hn).2 hr⟩

/-- Looking up a name that is no link is looking into its directory. -/
theorem entry_div (hn : IsName name) (h : d.Enters p dir)
    (hl : ∀ target, d.tree.find (name :: dir) ≠ some (.link target)) :
    d.entry (p / name) = checkText (p / name) >>= fun _ =>
      lift (d.tree.child? dir name) >>= fun x => x.elim (.error (.system .noEntry)) .ok := by
  obtain ⟨_, rest, hs, hw⟩ := h
  unfold entry place
  cases hc : checkText (p / name) with
  | error e => simp only [start, hc, Bind.bind, Except.bind]
  | ok =>
      have hs' : d.start (p / name) (p / name).steps =
          .ok (some (d.origin p, rest ++ [.down name])) := by
        refine start_eq_some_iff.2 ⟨hc, ?_, ?_⟩
        · rw [Path.steps_div p hn, sunk, Path.isAbsolute_div p hn]
          exact surface_append_ok _ hs
        · rw [origin, origin, Path.isAbsolute_div p hn]
      have hwalk : d.tree.walk (d.origin p) (rest ++ [.down name]) =
          d.tree.child? dir name >>= fun x => x.elim (.error .noEntry) fun _ => .ok (name :: dir) :=
        Tree.walkWithin_append_eq hw fun links => d.tree.walkWithin_down links hl
      rw [hs']
      dsimp only [Bind.bind, Except.bind]
      rw [hwalk]
      cases hx : d.tree.child? dir name with
      | error e => rfl
      | ok x =>
          cases x with
          | none => rfl
          | some e =>
              have he := (Tree.child?_eq_ok_iff.1 hx).2.2
              simp [Bind.bind, Except.bind, lift_ok, entryAt, Tree.entry?, he]

end Enters
end Disk
end PointsTo
