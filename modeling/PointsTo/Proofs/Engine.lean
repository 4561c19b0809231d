import PointsTo.Engine.Engine
import PointsTo.Proofs.Disk.Inside

/-!
What an engine can do to a disk. It writes a file only where nothing or a file is, and
it makes links only where nothing is. The current directory goes away only with a
directory around it. An engine that is confined changes what is inside one directory,
and puts files at places that it is free to use. It may still put links there, so what
is to be done by name in the directory afterwards has to ask for none.
-/

namespace PointsTo

namespace Tree

def HoldsFile (t : Tree) (l : Location) : Prop :=
  ∃ data mode, t.find l = some (.file data mode)

instance (t : Tree) (l : Location) : Decidable (t.HoldsFile l) :=
  match h : t.find l with
  | some (.file data mode) => isTrue ⟨data, mode, h⟩
  | some (.directory _) | some (.link _) | none =>
    isFalse fun ⟨_, _, hf⟩ => nomatch h.symm.trans hf

def Takes (t : Tree) (l : Location) : Prop :=
  t.find l = none ∧ l ≠ [] ∨ t.HoldsFile l

theorem Takes.isAside {t : Tree} {l : Location} (h : t.Takes l) : t.IsAside l := by
  rcases h with ⟨hnone, hl⟩ | ⟨data, mode, hfile⟩
  · exact isAside_of_none hnone hl
  · exact isAside_of_find hfile rfl nofun

/-- Two trees differ where one of them has an entry, if they differ at all. -/
theorem differ_iff {s t : Tree} {P : Location → Prop} (hsame : ∀ l, t.find l = s.find l → P l) :
    (∀ l, P l) ↔ ∀ x ∈ s.entries ++ t.entries, P x.1 := by
  refine ⟨fun h x _ => h x.1, fun h l => ?_⟩
  have hmem : ∀ {u : Tree} {e}, u.find l = some e → (l, e) ∈ u.entries := fun {u e} he =>
    (Table.find_eq_some_iff u.ordered).1 he
  cases hs : s.find l with
  | some e => exact h (l, e) (List.mem_append_left _ (hmem hs))
  | none =>
      cases ht : t.find l with
      | some e => exact h (l, e) (List.mem_append_right _ (hmem ht))
      | none => exact hsame l (ht.trans hs.symm)

end Tree

namespace Disk

structure Worked (d d' : Disk) : Prop where
  file : ∀ {l}, d'.tree.HoldsFile l → d.tree.Takes l
  sinks : ∀ {k}, d'.tree.isDirectory (d.cwd.drop k) = true →
    ∃ j, d'.cwd.drop j = d.cwd.drop k ∧ d'.lost + j = d.lost + k

section Worked

variable {d d' d'' : Disk} {p : Path} {made : Location → Prop}

theorem Grows.worked (h : d.Grows d' made) (h' : d'.Worked d'') : d.Worked d'' where
  file := fun {l} hf => by
    cases hd : d.tree.find l with
    | none =>
        refine Or.inl ⟨hd, ?_⟩
        rintro rfl
        obtain ⟨_, _, hf⟩ := hf
        cases d''.tree.rootless.symm.trans hf
    | some e =>
        rcases h'.file hf with ⟨hnone, _⟩ | ⟨data, mode, hfile⟩
        · cases (h.keeps hd).symm.trans hnone
        · cases (h.keeps hd).symm.trans hfile
          exact Or.inr ⟨data, mode, hd⟩
  sinks := fun hk => by
    rw [← h.cwd, ← h.lost] at *
    exact h'.sinks hk

theorem Worked.refl (d : Disk) : d.Worked d where
  file := Or.inr
  sinks := fun {k} _ => ⟨k, rfl, rfl⟩

theorem worked_put {l : Location} {data : Bytes} {mode : Nat} (hl : d.tree.Takes l)
    (hfind : ∀ k, d'.tree.find k = if l = k then some (.file data mode) else d.tree.find k)
    (hcwd : d'.cwd = d.cwd) (hlost : d'.lost = d.lost) : d.Worked d' where
  file := fun {k} hf => by
    unfold Tree.HoldsFile at hf
    rw [hfind] at hf
    split at hf
    · next hk => exact hk ▸ hl
    · exact Or.inr hf
  sinks := fun {k} _ => ⟨k, by rw [hcwd], by rw [hlost]⟩

/-- Something went away. -/
theorem worked_standing {t : Tree} (h : ∀ {l e}, t.find l = some e → d.tree.find l = some e) :
    d.Worked (standing t d.cwd d.lost) where
  file := fun ⟨data, mode, hf⟩ => Or.inr ⟨data, mode, h hf⟩
  sinks := standing_above d.lost

theorem Worked.shrink (h : d.Worked d') (h' : d'.Worked d'')
    (hless : ∀ {l e}, d''.tree.find l = some e → d'.tree.find l = some e) : d.Worked d'' where
  file := fun ⟨data, mode, hf⟩ => h.file ⟨data, mode, hless hf⟩
  sinks := fun {k} hk => by
    have hd' : d'.tree.isDirectory (d.cwd.drop k) = true :=
      (Tree.LeadsTo.of_keeps hless []).directory hk
    obtain ⟨j, hcwd, hlost⟩ := h.sinks hd'
    rw [← hcwd] at hk
    obtain ⟨i, hcwd', hlost'⟩ := h'.sinks hk
    exact ⟨i, hcwd'.trans hcwd, hlost'.trans hlost⟩

theorem worked_write {data : Bytes} (h : d.write p data = .ok d') : d.Worked d' := by
  obtain ⟨_, _, name, dir, x, mode, _, _, hn, hx, hfile, rfl⟩ := write_cases h
  have ha := isAside_of_child? hx hfile
  obtain ⟨hdir, _, hfind⟩ := Tree.child?_eq_ok_iff.1 hx
  refine worked_put ?_ (find_put_of_isAside hn hdir ha.directory) rfl rfl
  rcases hfile with rfl | ⟨old, oldMode, rfl⟩
  · exact Or.inl ⟨hfind, nofun⟩
  · exact Or.inr ⟨old, oldMode, hfind⟩

theorem worked_makeLink {target : Path} (h : d.create p (.link target) = .ok d') : d.Worked d' := by
  obtain ⟨name, dir, _, hlast, hnone, _, rfl⟩ := create_cases h
  obtain ⟨hdir, _, hfree⟩ := Tree.child?_eq_ok_iff.1 hnone
  refine ⟨fun {l} hf => ?_, fun {k} _ => ⟨k, rfl, rfl⟩⟩
  unfold Tree.HoldsFile at hf
  rw [find_put_new (isName_of_ending hlast _ _ rfl) hdir hfree] at hf
  split at hf
  · obtain ⟨_, _, hlink⟩ := hf
    cases hlink
  · exact Or.inr hf

theorem worked_attempt {x : Except Fault Disk} (h : ∀ d', x = .ok d' → d.Worked d') :
    d.Worked (d.attempt x) := by
  cases x with
  | error e => exact .refl d
  | ok d' => exact h d' rfl

theorem worked_unlink (h : d.unlink p = .ok d') : d.Worked d' := by
  obtain ⟨name, dir, e, _, _, _, rfl⟩ := unlink_cases h
  exact worked_standing fun he => (Tree.find_of_find_remove he).2

theorem worked_removeAll (d : Disk) (p : Path) : d.Worked (d.removeAll p).2 := by
  have hremove : ∀ (d : Disk) l, d.Worked (d.remove l) := fun d l =>
    worked_standing fun he => (Tree.find_of_find_remove he).2
  have hclear : ∀ l, d.Worked (d.clear l) := fun l => worked_standing Tree.find_of_find_clear
  rcases removeAll_cases d p with hd | ⟨l, _, ⟨_, _, hd⟩ | ⟨_, hd | hd⟩⟩ <;> rw [hd]
  · exact .refl d
  · exact hremove d l
  · exact hclear l
  · exact (hclear l).shrink (hremove _ l) fun he => (Tree.find_of_find_remove he).2

end Worked
end Disk

namespace Action

theorem worked_apply (base : Path) (d : Disk) (a : Action) : d.Worked (a.apply base d) := by
  cases a with
  | print stream data => exact .refl d
  | write path data =>
      change d.Worked (d.writeWithParents (base.join path) data)
      unfold Disk.writeWithParents
      cases (base.join path).parent? with
      | none => exact Disk.worked_attempt fun _ => Disk.worked_write
      | some parent =>
          exact (d.makeDirectories_grows parent).worked
            (Disk.worked_attempt fun _ => Disk.worked_write)
  | makeDirectory path => exact (d.makeDirectories_grows _).worked (.refl _)
  | makeLink path target => exact Disk.worked_attempt fun _ => Disk.worked_makeLink
  | remove path =>
      change d.Worked (d.discard (base.join path))
      unfold Disk.discard
      split
      · exact Disk.worked_removeAll d _
      · exact Disk.worked_attempt fun _ => Disk.worked_unlink
      · exact .refl d

/-- Whatever the action changes is inside `dir`, or is a file now at a place that may
be used. -/
def Confined (dir : Location) (free : Location → Prop) (base : Path) (d : Disk) (a : Action) :
    Prop :=
  ∀ l, Tree.Inside dir l ∨ (a.apply base d).tree.find l = d.tree.find l ∨
    free l ∧ (a.apply base d).tree.HoldsFile l

instance (dir : Location) (free : Location → Prop) [DecidablePred free] (base : Path) (d : Disk)
    (a : Action) : Decidable (a.Confined dir free base d) :=
  decidable_of_iff _ (Tree.differ_iff fun _ h => Or.inr (Or.inl h)).symm

def AllConfined (dir : Location) (free : Location → Prop) (base : Path) : Disk → List Action → Prop
  | _, [] => True
  | d, a :: rest => a.Confined dir free base d ∧ AllConfined dir free base (a.apply base d) rest

instance decidableAllConfined (dir : Location) (free : Location → Prop) [DecidablePred free]
    (base : Path) : ∀ d actions, Decidable (AllConfined dir free base d actions)
  | _, [] => isTrue trivial
  | d, a :: rest =>
    have := decidableAllConfined dir free base (a.apply base d) rest
    inferInstanceAs (Decidable (_ ∧ _))

section Confined

variable {dir : Location} {free : Location → Prop} {base : Path} {d : Disk} {a : Action}
  {actions : List Action}

theorem Confined.touches (h : a.Confined dir free base d) :
    Disk.Touches dir [] (fun l => free l ∧ d.tree.Takes l) d (a.apply base d) := by
  have hworked := worked_apply base d a
  have hsame : ∀ {l}, ¬ Tree.Inside dir l → ¬ (free l ∧ d.tree.Takes l) →
      (a.apply base d).tree.find l = d.tree.find l := fun {l} hin hgone => by
    rcases h l with hl | hl | ⟨hfree, hfile⟩
    · exact absurd hl hin
    · exact hl
    · exact absurd ⟨hfree, hworked.file hfile⟩ hgone
  refine ⟨hsame, nofun, fun i hi => hworked.sinks ?_⟩
  have hdir := Tree.isDirectory_drop d.cwd_isDirectory i
  rw [Tree.isDirectory_congr (hsame hi fun hgone => ?_)]
  · exact hdir
  · simp [hgone.2.isAside.directory] at hdir

theorem AllConfined.touches (h : AllConfined dir free base d actions) :
    Disk.Touches dir [] (fun l => free l ∧ d.tree.Takes l) d
      (actions.foldl (apply base) d) := by
  induction actions generalizing d with
  | nil => exact .refl _ _ _ d
  | cons a actions ih =>
      refine h.1.touches.trans ((ih h.2).mono fun {l} hin hgone => ⟨hgone.1, ?_⟩)
      -- a place that takes a file after the first action took one before it
      rcases h.1 l with hl | hl | ⟨_, hfile⟩
      · exact absurd hl hin
      · have htakes := hgone.2
        unfold Tree.Takes Tree.HoldsFile at htakes ⊢
        rwa [hl] at htakes
      · exact (worked_apply base d a).file hfile

theorem AllConfined.find (h : AllConfined dir free base d actions) (l : Location) :
    Tree.Inside dir l ∨ (actions.foldl (apply base) d).tree.find l = d.tree.find l ∨
      free l ∧ (actions.foldl (apply base) d).tree.HoldsFile l := by
  induction actions generalizing d with
  | nil => exact Or.inr (Or.inl rfl)
  | cons a actions ih =>
      rcases ih h.2 with hl | hl | hl
      · exact Or.inl hl
      · have hfirst := h.1 l
        unfold Tree.HoldsFile at *
        rwa [← hl] at hfirst
      · exact Or.inr (Or.inr hl)

end Confined
end Action
end PointsTo
