import PointsTo.Proofs.Disk.Inside

/-!
Paths that lead straight down: they never go up, and no link stands on their way. Such
a path names the location that it spells, so what is removed under it is known without
a look at what is there.
-/

namespace PointsTo

namespace Path

def spell : Location → List Step → Location
  | l, [] => l
  | l, .stay :: rest => spell l rest
  | l, .up :: rest => spell l.tail rest
  | l, .down name :: rest => spell (name :: l) rest

theorem spell_append (l : Location) (before after : List Step) :
    spell l (before ++ after) = spell (spell l before) after := by
  induction before generalizing l with
  | nil => rfl
  | cons step before ih => cases step <;> exact ih _

theorem spell_replicate (l : Location) (k : Nat) : spell l (List.replicate k .stay) = l := by
  induction k with
  | zero => rfl
  | succ k ih => exact ih

theorem isWithin_spell {steps : List Step} (hup : .up ∉ steps) (l : Location) :
    Tree.isWithin l (spell l steps) = true := by
  induction steps generalizing l with
  | nil => exact Tree.isWithin_iff.2 (List.suffix_refl l)
  | cons step steps ih =>
      have hrest : .up ∉ steps := fun h => hup (List.mem_cons_of_mem step h)
      cases step with
      | stay => exact ih hrest l
      | up => exact absurd List.mem_cons_self hup
      | down name =>
          have hw := Tree.isWithin_iff.1 (ih hrest (name :: l))
          exact Tree.isWithin_iff.2 ((List.suffix_cons name l).trans hw)

end Path

namespace Tree

open PointsTo.Path

variable {t : Tree} {fits : Location → Bool} {jump : Location → List Step → Except Errno Location}
  {steps : List Step} {l r : Location}

/-- Where no link is met the walk ends at the location that is spelled. -/
theorem walkSteps_straight (hup : .up ∉ steps)
    (hlink : ∀ k target, isWithin k (spell l steps) = true → t.find k ≠ some (.link target))
    (h : t.walkSteps fits .ok jump l steps = .ok r) :
    r = spell l steps ∧ ∀ name, .down name ∈ steps → name.utf8ByteSize ≤ maxNameBytes := by
  induction steps generalizing l with
  | nil => exact ⟨(Except.ok.inj h).symm, nofun⟩
  | cons step steps ih =>
      have hrest : .up ∉ steps := fun h => hup (List.mem_cons_of_mem step h)
      cases step with
      | stay =>
          obtain ⟨hr, hshort⟩ := ih hrest hlink (walkSteps_stay_eq_ok.1 h).2
          refine ⟨hr, fun name hname => hshort name ?_⟩
          simpa using hname
      | up => exact absurd List.mem_cons_self hup
      | down name =>
          obtain ⟨_, e, hchild, hgo⟩ := walkSteps_down_eq_ok.1 h
          obtain ⟨_, hsize, hfind⟩ := child?_eq_ok_iff.1 hchild
          rcases hgo with ⟨target, rfl, _⟩ | ⟨_, hgo⟩
          · exact absurd hfind (hlink _ target (isWithin_spell hrest _))
          · obtain ⟨hr, hshort⟩ := ih hrest hlink hgo
            refine ⟨hr, fun other hother => ?_⟩
            rcases List.mem_cons.1 hother with he | hother
            · cases he
              exact hsize
            · exact hshort other hother

/-- A directory that is spelled is walked to. -/
theorem walkSteps_of_spell (hup : .up ∉ steps)
    (hshort : ∀ name, .down name ∈ steps → name.utf8ByteSize ≤ maxNameBytes)
    (hdir : t.isDirectory (spell l steps) = true) :
    t.walkSteps (fun _ => true) .ok jump l steps = .ok (spell l steps) := by
  induction steps generalizing l with
  | nil => rfl
  | cons step steps ih =>
      have hrest : .up ∉ steps := fun h => hup (List.mem_cons_of_mem step h)
      have hshort' : ∀ name, .down name ∈ steps → name.utf8ByteSize ≤ maxNameBytes :=
        fun name h => hshort name (List.mem_cons_of_mem step h)
      cases step with
      | stay =>
          have hl := isDirectory_of_isWithin (isWithin_spell hup l) hdir
          exact walkSteps_stay_eq_ok.2 ⟨hl, ih hrest hshort' hdir⟩
      | up => exact absurd List.mem_cons_self hup
      | down name =>
          have hname := isDirectory_of_isWithin (isWithin_spell hrest (name :: l)) hdir
          obtain ⟨mode, hfind⟩ := isDirectory_cons_iff.1 hname
          refine walkSteps_down_eq_ok.2 ⟨rfl, .directory mode, child?_eq_ok_iff.2
            ⟨isDirectory_of_find hfind, hshort name List.mem_cons_self, hfind⟩, Or.inr ⟨nofun, ?_⟩⟩
          exact ih hrest hshort' hdir

theorem nearest_nearest {s t : Tree} (h : ∀ {l}, s.isDirectory l = true → t.isDirectory l = true)
    (l : Location) : s.nearest (t.nearest l) = s.nearest l := by
  induction l with
  | nil => rfl
  | cons name above ih =>
      cases ht : t.isDirectory (name :: above) with
      | true => rw [nearest_eq_self ht]
      | false =>
          have hs : s.isDirectory (name :: above) ≠ true := fun hs => by
            cases (h hs).symm.trans ht
          rw [nearest, if_neg (by simp [ht]), ih]
          exact (if_neg hs).symm

end Tree

namespace Disk

open PointsTo.Path

/-- A path that spells the location of what it names. -/
structure Spells (d : Disk) (p : Path) (l : Location) : Prop where
  place : spell (d.origin p) p.steps = l
  straight : .up ∉ p.steps
  unlinked : ∀ k target, Tree.isWithin k l = true → d.tree.find k ≠ some (.link target)

instance (d : Disk) (p : Path) (l : Location) : Decidable (d.Spells p l) :=
  decidable_of_iff
    (spell (d.origin p) p.steps = l ∧ .up ∉ p.steps ∧
      ∀ x ∈ d.tree.entries, Tree.isWithin x.1 l = true → (x.2.isDirectory || x.2.isFile) = true) <| by
    constructor
    · rintro ⟨hplace, hup, hplain⟩
      refine ⟨hplace, hup, fun k target hk ht => ?_⟩
      cases hplain _ ((Table.find_eq_some_iff d.tree.ordered).1 ht) hk
    · rintro ⟨hplace, hup, hplain⟩
      refine ⟨hplace, hup, fun ⟨k, e⟩ hx hk => ?_⟩
      cases e with
      | link target => exact absurd ((Table.find_eq_some_iff d.tree.ordered).2 hx) (hplain k target hk)
      | _ => rfl

def Straight (d : Disk) (p : Path) : Prop :=
  d.Spells p (spell (d.origin p) p.steps)

instance (d : Disk) (p : Path) : Decidable (d.Straight p) :=
  inferInstanceAs (Decidable (d.Spells p _))

structure AgreeOutside (l : Location) (d d' : Disk) : Prop where
  find : ∀ k, Tree.isWithin l k = false → d'.tree.find k = d.tree.find k
  cwd : d'.cwd = d.cwd
  lost : d'.lost = d.lost

variable {d d' : Disk} {p : Path} {l r : Location}

theorem straight_of_spells (h : d.Spells p l) : d.Straight p := by
  have hplace := h.place
  subst hplace
  exact h

theorem AgreeOutside.refl (l : Location) (d : Disk) : AgreeOutside l d d :=
  ⟨fun _ _ => rfl, rfl, rfl⟩

theorem AgreeOutside.put {k : Location} (h : AgreeOutside l d d') (hk : Tree.isWithin l k = true)
    (e : Entry) : AgreeOutside l d (d'.put k e) where
  find := fun j hj => by
    rw [← h.find j hj, tree_put]
    by_cases ha : d'.tree.accepts k e = true
    · rw [Tree.find_put ha, if_neg]
      rintro rfl
      cases hk.symm.trans hj
    · rw [Tree.put, dif_neg ha]
  cwd := h.cwd
  lost := h.lost

theorem AgreeOutside.remove_eq (h : AgreeOutside l d d') : d'.remove l = d.remove l := by
  have htree : d'.tree.remove l = d.tree.remove l := Tree.ext_find fun k => by
    rw [Tree.find_remove, Tree.find_remove]
    cases hw : Tree.isWithin l k with
    | true => rfl
    | false => exact h.find k hw
  rw [Disk.remove, Disk.remove, htree, h.cwd, h.lost]

theorem remove_eq_self (h : d.tree.find l = none) (hl : l ≠ []) : d.remove l = d := by
  have hdir := Tree.isDirectory_of_find_none h hl
  have hfind : ∀ k, (d.tree.remove l).find k = d.tree.find k := fun k => by
    rw [Tree.find_remove_of_not_directory hdir]
    split
    · next hk => rw [hk, h]
    · rfl
  obtain ⟨hcwd, hlost⟩ := remove_stays hdir
  exact Disk.ext (Tree.ext_find hfind) hcwd hlost

theorem standing_standing {s t : Tree} (h : ∀ {l e}, s.find l = some e → t.find l = some e)
    (place : Location) (lost : Nat) :
    standing s (standing t place lost).cwd (standing t place lost).lost = standing s place lost := by
  have hnearest : s.nearest (t.nearest place) = s.nearest place :=
    Tree.nearest_nearest (Tree.LeadsTo.of_keeps h []).directory place
  have hle : ∀ (t : Tree) l, (t.nearest l).length ≤ l.length := fun t l => by
    obtain ⟨i, hi, _⟩ := t.exists_nearest_eq_drop l
    simp [hi]
  refine Disk.ext rfl hnearest ?_
  have hs := hle s (t.nearest place)
  have ht := hle t place
  simp only [standing, hnearest] at hs ⊢
  omega

theorem find_clear_of_find_remove {k : Location} {e : Entry}
    (h : (d.tree.remove l).find k = some e) : (d.tree.clear l).find k = some e := by
  obtain ⟨hw, hfind⟩ := Tree.find_of_find_remove h
  rw [Tree.find_clear, if_neg (by simp [hw]), hfind]

/-- Emptying a directory first makes no difference to taking it away. -/
theorem remove_clear (d : Disk) (l : Location) : (d.clear l).remove l = d.remove l := by
  have htree : (d.tree.clear l).remove l = d.tree.remove l := Tree.ext_find fun k => by
    rw [Tree.find_remove, Tree.find_remove, Tree.find_clear]
    cases hw : Tree.isWithin l k <;> simp
  change standing ((d.tree.clear l).remove l) (d.clear l).cwd (d.clear l).lost = _
  rw [htree]
  exact standing_standing find_clear_of_find_remove d.cwd d.lost

theorem Spells.reaches_eq (h : d.Spells p l) (hs : d.sunk p = 0) {before after : List Step}
    (hsteps : p.steps = before ++ after) (hr : d.Reaches p before r) :
    r = spell (d.origin p) before ∧
      ∀ name, .down name ∈ before → name.utf8ByteSize ≤ Tree.maxNameBytes := by
  obtain ⟨_, rest, hrest, hw⟩ := hr
  rw [hs, surface_zero] at hrest
  cases hrest
  have hup := h.straight
  rw [hsteps, List.mem_append, not_or] at hup
  refine Tree.walkSteps_straight hup.1 (fun k target hk => h.unlinked k target ?_) hw
  rw [← h.place, hsteps, spell_append]
  have haround := Tree.isWithin_iff.1 (isWithin_spell hup.2 (spell (d.origin p) before))
  exact Tree.isWithin_iff.2 ((Tree.isWithin_iff.1 hk).trans haround)

/-- What can be located is where the path says. -/
theorem Spells.eq_of_locate (h : d.Spells p l) (hs : d.sunk p = 0) (hr : d.locate p = .ok (some r)) :
    r = l := by
  rcases locate_cases hr with ⟨name, dir, hlast, rfl, _⟩ | ⟨hr, _⟩
  · obtain ⟨hend, hreach, _⟩ := resolveLast_eq_name_iff.1 hlast
    obtain ⟨_, k, hsteps, _⟩ := Path.steps_of_ending (Prod.ext rfl hend)
    rw [(h.reaches_eq hs hsteps hreach).1, ← h.place, hsteps, spell_append]
    exact (spell_replicate _ k).symm
  · rw [(h.reaches_eq hs (List.append_nil _).symm hr).1, h.place]

theorem Spells.short_of_locate (h : d.Spells p l) (hs : d.sunk p = 0)
    (hr : d.locate p = .ok (some r)) :
    checkText p = .ok () ∧ ∀ name, .down name ∈ p.steps → name.utf8ByteSize ≤ Tree.maxNameBytes := by
  rcases locate_cases hr with ⟨name, dir, hlast, rfl, e, hchild⟩ | ⟨hr, _⟩
  · obtain ⟨hend, hreach, _⟩ := resolveLast_eq_name_iff.1 hlast
    obtain ⟨_, k, hsteps, hk⟩ := Path.steps_of_ending (Prod.ext rfl hend)
    refine ⟨hreach.1, fun other hother => ?_⟩
    rw [hsteps, hk.1 rfl, List.mem_append, List.replicate_zero, List.mem_singleton] at hother
    rcases hother with hother | heq
    · exact (h.reaches_eq hs hsteps hreach).2 other hother
    · cases heq
      exact (Tree.child?_eq_ok_iff.1 hchild).2.1
  · exact ⟨hr.1, (h.reaches_eq hs (List.append_nil _).symm hr).2⟩

theorem Spells.reaches (h : d.Spells p l) (hs : d.sunk p = 0) (hc : checkText p = .ok ())
    (hshort : ∀ name, .down name ∈ p.steps → name.utf8ByteSize ≤ Tree.maxNameBytes)
    (hdir : d.tree.isDirectory l = true) {before after : List Step}
    (hsteps : p.steps = before ++ after) :
    d.Reaches p before (spell (d.origin p) before) ∧
      d.tree.isDirectory (spell (d.origin p) before) = true := by
  have hup := h.straight
  rw [hsteps, List.mem_append, not_or] at hup
  have haround : d.tree.isDirectory (spell (d.origin p) before) = true := by
    refine Tree.isDirectory_of_isWithin ?_ hdir
    rw [← h.place, hsteps, spell_append]
    exact isWithin_spell hup.2 _
  refine ⟨⟨hc, before, by rw [hs, surface_zero], ?_⟩, haround⟩
  refine Tree.walkSteps_of_spell hup.1 (fun name hname => hshort name ?_) haround
  rw [hsteps]
  exact List.mem_append_left after hname

/-- What is inside the directory is of no account for that. -/
theorem Spells.clear (h : d.Spells p l) (hs : d.sunk p = 0) :
    (d.clear l).Spells p l ∧ (d.clear l).sunk p = 0 := by
  have hstays : p.isAbsolute = false → (d.clear l).cwd = d.cwd ∧ (d.clear l).lost = d.lost :=
    fun ha => by
      have haround : Tree.isWithin d.cwd l = true := by
        rw [← h.place, origin, ha]
        exact isWithin_spell h.straight d.cwd
      have hout : ¬ Tree.Inside l d.cwd := fun hin => hin.2 <|
        ((Tree.isWithin_iff.1 hin.1).eq_of_length_le (Tree.isWithin_iff.1 haround).length_le).symm
      refine standing_eq d.lost ?_
      exact (Tree.isDirectory_congr (find_clear_outside hout)).trans d.cwd_isDirectory
  refine ⟨⟨?_, h.straight, fun k target hk ht => ?_⟩, ?_⟩
  · refine Eq.trans ?_ h.place
    rw [origin, origin]
    cases ha : p.isAbsolute with
    | true => rfl
    | false => rw [(hstays ha).1]
  · exact h.unlinked k target hk (Tree.find_of_find_clear ht)
  · rw [← hs, sunk, sunk]
    cases ha : p.isAbsolute with
    | true => rfl
    | false => rw [(hstays ha).2]

theorem Spells.reaches_clear (h : d.Spells p l) (hs : d.sunk p = 0)
    (hr : d.locate p = .ok (some l)) (hdir : d.tree.isDirectory l = true) :
    (d.clear l).Reaches p p.steps l := by
  obtain ⟨hc, hshort⟩ := h.short_of_locate hs hr
  obtain ⟨hspells, hsunk⟩ := h.clear hs
  have hdir' : (d.clear l).tree.isDirectory l = true :=
    (Tree.isDirectory_congr (find_clear_outside fun hin => hin.2 rfl)).trans hdir
  have hreach := (hspells.reaches hsunk hc hshort hdir' (List.append_nil _).symm).1
  rwa [hspells.place] at hreach

end Disk
end PointsTo
