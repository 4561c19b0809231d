import PointsTo.Disk.Change
import PointsTo.Proofs.Disk.Lookup

/-!
What a change by path does to the tree. Each operation has one statement of all
that it can do: which location it concerns, and the disk that it leaves. Making
directories only adds, so it is described by what grows (`Grows`).
-/

namespace PointsTo

namespace Tree

theorem accepts_cons_iff {t : Tree} {n : String} {d : Location} {e : Entry} :
    t.accepts (n :: d) e = true ↔
      IsName n ∧ t.isDirectory d = true ∧ (t.isDirectory (n :: d) = true → e.isDirectory = true) := by
  simp only [accepts, Bool.and_eq_true, decide_eq_true_eq, Bool.or_eq_true, Bool.not_eq_true']
  cases t.isDirectory (n :: d) <;> simp [and_assoc]

theorem find_put_eq (t : Tree) (l k : Location) (e : Entry) :
    (t.put l e).find k = if t.accepts l e = true ∧ l = k then some e else t.find k := by
  by_cases h : t.accepts l e = true
  · simp [find_put h, h]
  · simp [put, h]

theorem find_of_find_remove {t : Tree} {l k : Location} {e : Entry}
    (h : (t.remove l).find k = some e) : isWithin l k = false ∧ t.find k = some e := by
  rw [find_remove] at h
  split at h
  · cases h
  · next hw => exact ⟨by simpa using hw, h⟩

theorem find_of_find_clear {t : Tree} {l k : Location} {e : Entry}
    (h : (t.clear l).find k = some e) : t.find k = some e := by
  rw [find_clear] at h
  split at h
  · cases h
  · exact h

/-- How far up the innermost directory is that is there. -/
theorem exists_nearest_eq_drop (t : Tree) (l : Location) :
    ∃ i, t.nearest l = l.drop i ∧ l.length - (t.nearest l).length = i ∧
      ∀ k, t.isDirectory (l.drop k) = true → i ≤ k := by
  induction l with
  | nil => exact ⟨0, rfl, rfl, fun _ _ => Nat.zero_le _⟩
  | cons name above ih =>
      rw [nearest]
      split
      · exact ⟨0, rfl, Nat.sub_self _, fun _ _ => Nat.zero_le _⟩
      · next hname =>
        obtain ⟨i, hi, hlen, hleast⟩ := ih
        have hle : (t.nearest above).length ≤ above.length := by
          rw [hi, List.length_drop]
          omega
        refine ⟨i + 1, hi, ?_, fun k hk => ?_⟩
        · rw [List.length_cons]
          omega
        · cases k with
          | zero => exact absurd hk hname
          | succ k => exact Nat.succ_le_succ (hleast k hk)

end Tree

namespace Disk

open PointsTo.Path (Step)

/-- A disk with the given entries, those of a directory after the directory. -/
def holding (entries : List (Location × Entry)) : Disk :=
  entries.foldl (fun d x => d.put x.1 x.2) .empty

section Removal

variable {d d' : Disk} {p : Path} {l : Location}

/-- What is reached after something went away was reached before. -/
theorem leadsTo_of_standing {t : Tree}
    (h : ∀ {l e}, t.find l = some e → d.tree.find l = some e) (r : Location) :
    (standing t d.cwd d.lost).LeadsTo d r where
  tree := .of_keeps h r
  above := by
    obtain ⟨i, hi, hlen, _⟩ := t.exists_nearest_eq_drop d.cwd
    exact ⟨i, hi, by rw [standing, hlen]⟩

theorem clear_leadsTo (d : Disk) (l r : Location) : (d.clear l).LeadsTo d r :=
  leadsTo_of_standing Tree.find_of_find_clear r

theorem unlink_cases (h : d.unlink p = .ok d') :
    ∃ name dir e, d.resolveLast p = .ok (dir, .name name false) ∧
      d.tree.child? dir name = .ok (some e) ∧ e.isDirectory = false ∧
      d' = d.remove (name :: dir) := by
  unfold unlink at h
  obtain ⟨⟨dir, last⟩, hlast, h⟩ := bind_eq_ok_iff.1 h
  cases last with
  | root | here | up => cases h
  | name name slash =>
      obtain ⟨x, hx, h⟩ := bind_eq_ok_iff.1 h
      rw [lift_eq_ok_iff] at hx
      cases x with
      | none => cases h
      | some e =>
          cases e with
          | directory mode => cases h
          | file data mode | link target =>
              cases slash with
              | true => cases h
              | false =>
                  cases h
                  exact ⟨name, dir, _, hlast, hx, rfl, rfl⟩

theorem unlink_eq {name : String} {dir : Location} {e : Entry}
    (hlast : d.resolveLast p = .ok (dir, .name name false))
    (hchild : d.tree.child? dir name = .ok (some e)) (he : e.isDirectory = false) :
    d.unlink p = .ok (d.remove (name :: dir)) := by
  unfold unlink
  rw [hlast]
  simp only [Bind.bind, Except.bind, hchild, lift_ok]
  cases e with
  | directory mode => cases he
  | file data mode | link target => rfl

theorem removeDirectory_cases (h : d.removeDirectory p = .ok d') :
    ∃ name dir slash mode, d.resolveLast p = .ok (dir, .name name slash) ∧
      d.tree.child? dir name = .ok (some (.directory mode)) ∧ d' = d.remove (name :: dir) := by
  unfold removeDirectory at h
  obtain ⟨⟨dir, last⟩, hlast, h⟩ := bind_eq_ok_iff.1 h
  cases last with
  | root | here | up => cases h
  | name name slash =>
      obtain ⟨x, hx, h⟩ := bind_eq_ok_iff.1 h
      rw [lift_eq_ok_iff] at hx
      cases x with
      | none => cases h
      | some e =>
          cases e with
          | file data mode | link target => cases h
          | directory mode =>
              dsimp only at h
              split at h
              · cases h
                exact ⟨name, dir, slash, mode, hlast, hx, rfl⟩
              · cases h

/-- Once a directory is emptied, its path still locates it. -/
theorem eq_of_locate_clear {name : String} {dir : Location} {slash : Bool} {mode : Nat}
    (hl : d.locate p = .ok (some l))
    (hlast : (d.clear l).resolveLast p = .ok (dir, .name name slash))
    (hchild : (d.clear l).tree.child? dir name = .ok (some (.directory mode))) :
    name :: dir = l := by
  obtain ⟨hend, hreach, hdir⟩ := resolveLast_eq_name_iff.1 hlast
  obtain ⟨_, hshort, hfind⟩ := Tree.child?_eq_ok_iff.1 hchild
  -- the same name in the same directory is found where nothing has gone yet
  have hlead := d.clear_leadsTo l dir
  have hloc : d.locate p = .ok (some (name :: dir)) :=
    locate_of_directory
      (resolveLast_eq_name_iff.2 ⟨hend, hreach.of_leadsTo hlead, hlead.tree.directory hdir⟩)
      (Tree.child?_eq_ok_iff.2
        ⟨hlead.tree.directory hdir, hshort, Tree.find_of_find_clear hfind⟩)
  cases hl.symm.trans hloc
  rfl

/-- The directory that goes away at last is the one that was emptied. -/
theorem eq_of_removeDirectory_clear (hl : d.locate p = .ok (some l))
    (h : (d.clear l).removeDirectory p = .ok d') : d' = (d.clear l).remove l := by
  obtain ⟨name, dir, slash, mode, hlast, hchild, rfl⟩ := removeDirectory_cases h
  rw [eq_of_locate_clear hl hlast hchild]

/-- Either nothing is removed, or a link is, or a directory is emptied and perhaps
goes away itself. -/
theorem removeAll_cases (d : Disk) (p : Path) :
    (d.removeAll p).2 = d ∨ ∃ l, d.locate p = .ok (some l) ∧
      ((∃ target, d.tree.find l = some (.link target) ∧ (d.removeAll p).2 = d.remove l) ∨
        d.tree.isDirectory l = true ∧
          ((d.removeAll p).2 = d.clear l ∨ (d.removeAll p).2 = (d.clear l).remove l)) := by
  unfold removeAll
  split
  · exact Or.inl rfl
  · next hl =>
    -- a directory that could be removed would have been located
    cases h : d.removeDirectory p with
    | error e => exact Or.inl rfl
    | ok d' =>
        obtain ⟨name, dir, slash, mode, hlast, hchild, _⟩ := removeDirectory_cases h
        cases hl.symm.trans (locate_of_directory hlast hchild)
  · next l hl =>
    split
    · next target he =>
      have hfind : d.tree.find l = some (.link target) := by
        cases l with
        | nil => cases he
        | cons n k => exact he
      cases h : d.unlink p with
      | error e => exact Or.inl rfl
      | ok d' =>
          refine Or.inr ⟨l, hl, Or.inl ⟨target, hfind, ?_⟩⟩
          obtain ⟨name, dir, e, hlast, _, _, rfl⟩ := unlink_cases h
          rcases locate_cases hl with ⟨name', dir', hlast', rfl, _⟩ | ⟨_, hne⟩
          · cases hlast.symm.trans hlast'
            rfl
          · exact absurd hlast (hne name dir)
    · next mode he =>
      have hdir : d.tree.isDirectory l = true := by
        cases l with
        | nil => rfl
        | cons n k => exact Tree.isDirectory_cons_iff.2 ⟨mode, he⟩
      refine Or.inr ⟨l, hl, Or.inr ⟨hdir, ?_⟩⟩
      cases h : (d.clear l).removeDirectory p with
      | error e => exact Or.inl rfl
      | ok d' => exact Or.inr (eq_of_removeDirectory_clear hl h)
    · exact Or.inl rfl

/-- A removal that succeeds takes a link away, or a directory with everything inside
it. A directory that is not found any more once it is empty stays. -/
theorem removeAll_ok (h : d.removeAll p = (.ok (), d')) :
    ∃ l, d.locate p = .ok (some l) ∧
      ((∃ name target, d.tree.find l = some (.link target) ∧ p.ending.2 = .name name false ∧
          d' = d.remove l) ∨
        d.tree.isDirectory l = true ∧
          ((∃ name slash, p.ending.2 = .name name slash ∧ l ≠ [] ∧ d' = (d.clear l).remove l) ∨
            (d.clear l).removeDirectory p = .error (.system .noEntry) ∧ d' = d.clear l)) := by
  unfold removeAll at h
  split at h
  · cases h
  · next hnone =>
    unfold settle at h
    split at h
    · next hremove =>
      obtain ⟨name, dir, slash, mode, hlast, hchild, _⟩ := removeDirectory_cases hremove
      cases hnone.symm.trans (locate_of_directory hlast hchild)
    · cases h
  · next l hl =>
    refine ⟨l, hl, ?_⟩
    split at h
    · next target he =>
      have hfind : d.tree.find l = some (.link target) := by
        cases l with
        | nil => cases he
        | cons n k => exact he
      unfold settle at h
      split at h
      · next hunlink =>
        cases h
        obtain ⟨name, dir, e, hlast, _, _, rfl⟩ := unlink_cases hunlink
        rcases locate_cases hl with ⟨name', dir', hlast', rfl, _⟩ | ⟨_, hne⟩
        · cases hlast.symm.trans hlast'
          exact Or.inl ⟨name, target, hfind, (resolveLast_eq_name_iff.1 hlast).1, rfl⟩
        · exact absurd hlast (hne name dir)
      · cases h
    · next mode he =>
      have hdir : d.tree.isDirectory l = true := by
        cases l with
        | nil => rfl
        | cons n k => exact Tree.isDirectory_cons_iff.2 ⟨mode, he⟩
      refine Or.inr ⟨hdir, ?_⟩
      unfold settleGone at h
      split at h
      · next hremove =>
        cases h
        obtain ⟨name, dir, slash, mode, hlast, hchild, rfl⟩ := removeDirectory_cases hremove
        have hplace := eq_of_locate_clear hl hlast hchild
        exact Or.inl ⟨name, slash, (resolveLast_eq_name_iff.1 hlast).1, hplace ▸ nofun, by rw [hplace]⟩
      · next e hremove =>
        split at h
        · next hgone =>
          cases h
          exact Or.inr ⟨hgone ▸ hremove, rfl⟩
        · cases h
    · cases h

/-- What is not within the located entry stays. -/
theorem find_removeAll {e : Entry} {k : Location}
    (hk : ∀ l, d.locate p = .ok (some l) → Tree.isWithin l k = false) (he : d.tree.find k = some e) :
    (d.removeAll p).2.tree.find k = some e := by
  rcases removeAll_cases d p with h | ⟨l, hl, ⟨_, _, h⟩ | ⟨_, h | h⟩⟩
  · rw [h, he]
  all_goals simp [h, hk l hl, he]

theorem find_of_find_removeAll {e : Entry} {k : Location}
    (h : (d.removeAll p).2.tree.find k = some e) : d.tree.find k = some e := by
  rcases removeAll_cases d p with hd | ⟨l, hl, ⟨_, _, hd⟩ | ⟨_, hd | hd⟩⟩ <;> rw [hd] at h
  · exact h
  · exact (Tree.find_of_find_remove h).2
  · exact Tree.find_of_find_clear h
  · exact Tree.find_of_find_clear (Tree.find_of_find_remove h).2

end Removal

/-- The disk `d'` has what `d` has, and besides that directories at new places. -/
structure Grows (d d' : Disk) (made : Location → Prop) : Prop where
  keeps : ∀ {l e}, d.tree.find l = some e → d'.tree.find l = some e
  fresh : ∀ {l e}, d.tree.find l = none → d'.tree.find l = some e →
    e = .directory newDirectoryMode ∧ made l
  cwd : d'.cwd = d.cwd
  lost : d'.lost = d.lost

section Growth

variable {d d' d'' : Disk} {made made' : Location → Prop} {p : Path}

theorem Grows.refl (d : Disk) (made : Location → Prop) : d.Grows d made where
  keeps := id
  fresh := fun hn he => by cases hn.symm.trans he
  cwd := rfl
  lost := rfl

theorem Grows.mono (h : d.Grows d' made) (hm : ∀ l, made l → made' l) : d.Grows d' made' where
  keeps := h.keeps
  fresh := fun hn he => ⟨(h.fresh hn he).1, hm _ (h.fresh hn he).2⟩
  cwd := h.cwd
  lost := h.lost

theorem Grows.trans (h : d.Grows d' made) (h' : d'.Grows d'' made) : d.Grows d'' made where
  keeps := fun he => h'.keeps (h.keeps he)
  fresh := fun {l e} hn he => by
    cases hl : d'.tree.find l with
    | none => exact h'.fresh hl he
    | some e' =>
        cases (h'.keeps hl).symm.trans he
        exact h.fresh hn hl
  cwd := h'.cwd.trans h.cwd
  lost := h'.lost.trans h.lost

theorem Grows.leadsTo (h : d.Grows d' made) (r : Location) : d.LeadsTo d' r where
  tree := .of_keeps h.keeps r
  above := ⟨0, by simp [h.cwd], by simp [h.lost]⟩

theorem create_cases {e : Entry} (h : d.create p e = .ok d') :
    ∃ name dir slash, d.resolveLast p = .ok (dir, .name name slash) ∧
      d.tree.child? dir name = .ok none ∧ (slash = true → e.isDirectory = true) ∧
      d' = d.put (name :: dir) e := by
  unfold create at h
  obtain ⟨⟨dir, last⟩, hlast, h⟩ := bind_eq_ok_iff.1 h
  cases last with
  | root | here | up => cases h
  | name name slash =>
      dsimp only at h
      split at h
      · cases h
      · next hs =>
        obtain ⟨x, hx, h⟩ := bind_eq_ok_iff.1 h
        cases x with
        | some f => cases h
        | none =>
            cases h
            exact ⟨name, dir, slash, hlast, lift_eq_ok_iff.1 hx, by simpa using hs, rfl⟩

theorem find_put_new {name : String} {dir : Location} {e : Entry} (hn : IsName name)
    (hdir : d.tree.isDirectory dir = true) (hnone : d.tree.find (name :: dir) = none) (k : Location) :
    (d.put (name :: dir) e).tree.find k = if name :: dir = k then some e else d.tree.find k := by
  refine Tree.find_put (Tree.accepts_cons_iff.2 ⟨hn, hdir, fun h => ?_⟩) k
  simp [Tree.isDirectory_cons, hnone] at h

theorem grows_put {name : String} {dir : Location} (hn : IsName name)
    (hdir : d.tree.isDirectory dir = true) (hnone : d.tree.find (name :: dir) = none) :
    d.Grows (d.put (name :: dir) (.directory newDirectoryMode)) (· = name :: dir) where
  keeps := fun {l e} he => by
    rw [find_put_new hn hdir hnone]
    split
    · next hl =>
      subst hl
      cases hnone.symm.trans he
    · exact he
  fresh := fun {l e} hl he => by
    rw [find_put_new hn hdir hnone] at he
    split at he
    · next hk =>
      cases he
      exact ⟨rfl, hk.symm⟩
    · cases hl.symm.trans he
  cwd := rfl
  lost := rfl

/-- The new directory is where its path leads now. -/
theorem makeDirectory_grows (h : d.makeDirectory p = .ok d') :
    d.Grows d' (fun l => d'.Reaches p p.steps l) := by
  obtain ⟨name, dir, slash, hlast, hc, _, rfl⟩ := create_cases h
  obtain ⟨hend, hreach, hdir⟩ := resolveLast_eq_name_iff.1 hlast
  obtain ⟨hn, _⟩ := Path.steps_of_ending (Prod.ext rfl hend)
  obtain ⟨_, hshort, hnone⟩ := Tree.child?_eq_ok_iff.1 hc
  have hg := grows_put hn hdir hnone
  refine hg.mono fun l hl => ?_
  subst hl
  have hfind := find_put_new (e := .directory newDirectoryMode) hn hdir hnone (name :: dir)
  rw [if_pos rfl] at hfind
  have hdir' := (hg.leadsTo dir).tree.directory hdir
  have hchild := Tree.child?_eq_ok_iff.2 ⟨hdir', hshort, hfind⟩
  refine reaches_of_resolveLast
    (resolveLast_eq_name_iff.2 ⟨hend, hreach.of_leadsTo (hg.leadsTo dir), hdir'⟩)
    hchild nofun fun _ => ?_
  exact Tree.isDirectory_cons_iff.2 ⟨_, hfind⟩

theorem ensureDirectory_grows (d : Disk) (p : Path) :
    d.Grows (d.ensureDirectory p).2 (fun l => (d.ensureDirectory p).2.Reaches p p.steps l) := by
  unfold ensureDirectory
  split
  · next made hm => exact makeDirectory_grows hm
  · split <;> exact .refl d _

/-- Only directories are made, and each is where one of the paths leads in the end. -/
theorem makeChain_grows (d : Disk) (paths : List Path) :
    d.Grows (d.makeChain paths).2
      (fun l => ∃ p ∈ paths, (d.makeChain paths).2.Reaches p p.steps l) := by
  induction paths with
  | nil => exact .refl d _
  | cons p above ih =>
      have hfirst := d.ensureDirectory_grows p
      rw [makeChain]
      split
      · exact .refl d _
      · split
        · next made hm =>
          rw [hm] at hfirst
          exact hfirst.mono fun l hl => ⟨p, List.mem_cons_self, hl⟩
        · split
          · split
            · next e d' hd =>
              rw [hd] at ih
              exact ih.mono fun l ⟨q, hq, hl⟩ => ⟨q, List.mem_cons_of_mem p hq, hl⟩
            · next d' hd =>
              rw [hd] at ih
              have hlast := d'.ensureDirectory_grows p
              refine .trans (ih.mono fun l ⟨q, hq, hl⟩ => ?_) (hlast.mono fun l hl => ?_)
              · exact ⟨q, List.mem_cons_of_mem p hq, hl.of_leadsTo (hlast.leadsTo l)⟩
              · exact ⟨p, List.mem_cons_self, hl⟩
          · exact .refl d _

theorem makeDirectories_grows (d : Disk) (p : Path) :
    d.Grows (d.makeDirectories p).2
      (fun l => ∃ q ∈ p :: p.ancestors, (d.makeDirectories p).2.Reaches q q.steps l) :=
  d.makeChain_grows _

end Growth
end Disk
end PointsTo
