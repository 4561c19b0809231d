import PointsTo.Engine.Engine
import PointsTo.Proofs.Disk.Twins

/-!
Files that are written and taken away on two disks that differ in the slots of a
directory, by the run itself and by the actions of an engine. An engine that leaves the
slots alone leaves two such disks.
-/

namespace PointsTo

open PointsTo.Path (Step)

namespace Tree

section FileWalk

variable {slots : Slots} {s t : Tree} {l : Location}
  {jump jump' past past' : Location → List Step → Path.Ending → Except Errno Location}

/-- The walk for a file that comes to a slot stops there or has its place there. -/
theorem Slotted.bars_fileAt {name : String} {dir : Location} (h : t.Slotted slots)
    (hhas : slots.has (name :: dir) = true) :
    slots.Bars (t.fileAt (fun _ => true) jump (.name name false) dir) := by
  simp only [fileAt, if_neg (Bool.noConfusion : ¬ true = false)]
  cases hdir : t.isDirectory dir with
  | false =>
      simp only [child?, hdir, ↓reduceIte]
      exact Or.inr rfl
  | true =>
      have hshort := (slots.fits name (Slots.has_cons_iff.1 hhas).1).2
      rw [child?_eq_ok_iff.2 ⟨hdir, hshort, rfl⟩]
      cases he : t.find (name :: dir) with
      | none => exact hhas
      | some e =>
          have hfile := h _ e hhas he
          cases e with
          | file data mode => exact hhas
          | directory mode | link target => cases hfile

theorem fileAt_of_not_directory {fits : Location → Bool} (hl : t.isDirectory l = false)
    (last : Path.Ending) (hfits : ∀ name, fits (name :: l) = true) :
    t.fileAt fits jump last l = .error .notDirectory := by
  cases last with
  | root | here | up => simp [fileAt, hl]
  | name name slash => cases slash <;> simp [fileAt, child?, hl, hfits]

/-- At the end of the way the trees have the same, or a slot. -/
theorem Twins.fileAt (h : Twins slots s t)
    (hjump : ∀ {l}, slots.has l = false → ∀ steps last,
      slots.Pairs (jump l steps last) (jump' l steps last) (past l steps last) (past' l steps last))
    (last : Path.Ending) (l : Location) :
    slots.Pairs (s.fileAt (fun _ => true) jump last l) (t.fileAt (fun _ => true) jump' last l)
      (s.fileAt (fun l => !slots.has l) past last l)
      (t.fileAt (fun l => !slots.has l) past' last l) := by
  cases last with
  | root | here | up =>
      simp only [Tree.fileAt, h.isDirectory]
      split <;> exact Slots.pairs_error _
  | name name slash =>
      cases slash with
      | true =>
          simp only [Tree.fileAt, h.isDirectory]
          split <;> exact Slots.pairs_error _
      | false =>
          cases hhas : slots.has (name :: l) with
          | true =>
              refine .barred (h.slotted.bars_fileAt hhas) (h.slotted'.bars_fileAt hhas) ?_ ?_ <;>
                simp [Tree.fileAt, hhas]
          | false =>
              simp only [Tree.fileAt, h.child? hhas, hhas, Bool.not_false, Bool.true_eq_false,
                ↓reduceIte]
              cases hchild : s.child? l name with
              | error e => exact Slots.pairs_error e
              | ok x =>
                  cases x with
                  | none => exact .same rfl rfl rfl fun _ he => Except.ok.inj he ▸ hhas
                  | some e =>
                      cases e with
                      | link target =>
                          refine hjump (h.slotted.has_eq_false ?_) _ _
                          exact isDirectory_linkStart target (child?_eq_ok_iff.1 hchild).1
                      | directory mode => exact Slots.pairs_error _
                      | file data mode =>
                          exact .same rfl rfl rfl fun _ he => Except.ok.inj he ▸ hhas

/-- Nothing is looked for in a slot. -/
theorem Slotted.bars_in (h : t.Slotted slots) (hl : slots.has l = true) (last : Path.Ending) :
    slots.Bars (t.fileAt (fun _ => true) jump last l) := by
  rw [fileAt_of_not_directory (h.isDirectory hl) last fun _ => rfl]
  exact Or.inr rfl

theorem Twins.fileWithin (h : Twins slots s t) (hl : slots.has l = false) (links : Nat)
    (steps : List Step) (last : Path.Ending) :
    slots.Pairs (s.fileWithin (fun _ => true) links l steps last)
      (t.fileWithin (fun _ => true) links l steps last)
      (s.fileWithin (fun l => !slots.has l) links l steps last)
      (t.fileWithin (fun l => !slots.has l) links l steps last) :=
  h.walkLinks (fun hjump last l _ => h.fileAt hjump last l)
    (fun _ last _ hl => ⟨h.slotted.bars_in hl last, h.slotted'.bars_in hl last⟩)
    hl (links + 1) steps last

end FileWalk
end Tree

namespace Disk

def destinationIn (d : Disk) (fits : Location → Bool) (p : Path) : Except Fault Location := do
  match ← d.start p p.ending.1, p.ending.2 with
  | some (l, steps), last => lift (d.tree.fileWithin fits Tree.maxLinks l steps last)
  | none, .name .. => .error (.system .noEntry)
  | none, _ => .error (.system .isDirectory)

def SidestepsFile (d : Disk) (slots : Slots) (p : Path) : Prop :=
  d.destinationIn (fun l => !slots.has l) p = d.destination p

instance (d : Disk) (slots : Slots) (p : Path) : Decidable (d.SidestepsFile slots p) :=
  inferInstanceAs (Decidable (_ = _))

section Files

variable {slots : Slots} {d d' : Disk} {p : Path} {l dir : Location} {name : String} {data : Bytes}

/-- Changes in a slot are the differences that there may be. -/
theorem twins_put {mode : Nat} (h : d.tree.Slotted slots) (hl : slots.has l = true) :
    Twins slots d (d.put l (.file data mode)) := by
  refine ⟨⟨h, fun k e hk he => ?_, fun {k} hk => ?_⟩, rfl, rfl⟩
  · rw [tree_put, Tree.find_put_eq] at he
    split at he
    · cases he
      rfl
    · exact h k e hk he
  · rw [tree_put, Tree.find_put_eq, if_neg]
    rintro ⟨_, rfl⟩
    simp [hl] at hk

theorem twins_remove (h : d.tree.Slotted slots) (hl : slots.has l = true) :
    Twins slots d (d.remove l) := by
  have hfind := Tree.find_remove_of_not_directory (h.isDirectory hl)
  obtain ⟨hcwd, hlost⟩ := remove_stays (h.isDirectory hl)
  refine ⟨⟨h, fun k e hk he => ?_, fun {k} hk => ?_⟩, hcwd, hlost⟩
  · rw [tree_remove, hfind] at he
    split at he
    · cases he
    · exact h k e hk he
  · rw [tree_remove, hfind, if_neg]
    rintro rfl
    simp [hl] at hk

theorem Twins.trans {d'' : Disk} (h : Twins slots d d') (h' : Twins slots d' d'') :
    Twins slots d d'' :=
  ⟨⟨h.tree.slotted, h'.tree.slotted', fun hl => (h'.tree.same hl).trans (h.tree.same hl)⟩,
    h'.cwd.trans h.cwd, h'.lost.trans h.lost⟩

theorem Twins.destination (h : Twins slots d d') (p : Path) :
    (d.SidestepsFile slots p ∧ d'.destination p = d.destination p ∧
      ∀ l, d.destination p = .ok l → slots.has l = false) ∨
    (¬ d.SidestepsFile slots p ∧ (∀ l, d.destination p = .ok l → slots.has l = true) ∧
      ∀ l, d'.destination p = .ok l → slots.has l = true) := by
  have hstart := h.start p p.ending.1
  cases hs : d.start p p.ending.1 with
  | error e =>
      rw [hs] at hstart
      left
      simp [SidestepsFile, Disk.destination, destinationIn, hs, hstart, Bind.bind, Except.bind]
  | ok x =>
      rw [hs] at hstart
      cases x with
      | none =>
          left
          simp only [SidestepsFile, Disk.destination, destinationIn, hs, hstart, Bind.bind,
            Except.bind]
          cases p.ending.2 <;> simp
      | some x =>
          obtain ⟨l, rest⟩ := x
          simp only [SidestepsFile, Disk.destination, destinationIn, hs, hstart, Bind.bind,
            Except.bind]
          rcases h.tree.fileWithin (has_start h.tree.slotted hs) Tree.maxLinks rest p.ending.2 with
            ⟨hy, hx', _, hfree⟩ | ⟨hx, hy, hx', _⟩
          · left
            rw [hy, hx']
            exact ⟨rfl, rfl, fun r hr => hfree r (lift_eq_ok_iff.1 hr)⟩
          · right
            refine ⟨fun heq => hx.ne ?_, fun r hr => ?_, fun r hr => ?_⟩
            · rw [hx'] at heq
              exact (lift_inj heq).symm
            · rwa [lift_eq_ok_iff.1 hr] at hx
            · rwa [lift_eq_ok_iff.1 hr] at hy

theorem sidestepsFile_of_destination (h : d.tree.Slotted slots) (hl : d.destination p = .ok l)
    (hhas : slots.has l = false) : d.SidestepsFile slots p := by
  rcases (Twins.refl h).destination p with ⟨hs, _⟩ | ⟨_, hslot, _⟩
  · exact hs
  · simp [hslot l hl] at hhas

theorem Twins.written (h : Twins slots d d') (hl : slots.has l = false) (data : Bytes) :
    Twins slots (d.written l data) (d'.written l data) := by
  unfold Disk.written
  rw [h.tree.same hl]
  exact h.put hl _

theorem Twins.write (h : Twins slots d d') (hs : d.SidestepsFile slots p) (data : Bytes) :
    TwinResults slots (d.write p data) (d'.write p data) := by
  rw [write_eq, write_eq]
  rcases h.destination p with ⟨_, hsame, hfree⟩ | ⟨hno, _⟩
  · rw [hsame]
    cases hd : d.destination p with
    | error e => exact rfl
    | ok l => exact h.written (hfree l hd) data
  · exact absurd hs hno

/-- Wherever a file is written, no more than the slots may differ afterwards. -/
theorem Twins.attempt_write (h : Twins slots d d') (p : Path) (data : Bytes) :
    Twins slots (d.attempt (d.write p data)) (d'.attempt (d'.write p data)) := by
  rcases h.destination p with ⟨hs, _⟩ | ⟨_, hslot, hslot'⟩
  · exact (h.write hs data).attempt h
  · have hone : ∀ {u : Disk}, u.tree.Slotted slots →
        (∀ l, u.destination p = .ok l → slots.has l = true) →
        Twins slots u (u.attempt (u.write p data)) := fun {u} hu hslot => by
      rw [write_eq]
      cases hd : u.destination p with
      | error e => exact .refl hu
      | ok l => exact twins_put hu (hslot l hd)
    exact (hone h.tree.slotted hslot).symm.trans (h.trans (hone h.tree.slotted' hslot'))

end Files

section Removal

variable {slots : Slots} {d d' : Disk} {p : Path} {l dir : Location} {name : String}

theorem twins_standing {s t : Tree} (h : Tree.Twins slots s t) (place : Location) (lost : Nat) :
    Twins slots (standing s place lost) (standing t place lost) where
  tree := h
  cwd := h.nearest place
  lost := by
    change lost + (place.length - (t.nearest place).length) = _
    rw [h.nearest place]
    rfl

theorem Twins.remove (h : Twins slots d d') (l : Location) :
    Twins slots (d.remove l) (d'.remove l) := by
  unfold Disk.remove
  rw [h.cwd, h.lost]
  exact twins_standing (h.tree.keep _ _) _ _

theorem Twins.clear (h : Twins slots d d') (l : Location) :
    Twins slots (d.clear l) (d'.clear l) := by
  unfold Disk.clear
  rw [h.cwd, h.lost]
  exact twins_standing (h.tree.keep _ _) _ _

theorem Twins.attempt_unlink (h : Twins slots d d') (p : Path) :
    Twins slots (d.attempt (d.unlink p)) (d'.attempt (d'.unlink p)) := by
  rcases h.resolveLast_cases p with hlast | ⟨e, e', he, he'⟩
  · cases hd : d.resolveLast p with
    | error e => simpa [unlink, hlast, hd, Bind.bind, Except.bind, attempt] using h
    | ok x =>
        obtain ⟨dir, last⟩ := x
        rw [hd] at hlast
        cases last with
        | root | here | up => simpa [unlink, hlast, hd, Bind.bind, Except.bind, attempt] using h
        | name name slash =>
            cases hhas : slots.has (name :: dir) with
            | true =>
                have hone : ∀ {u : Disk}, u.tree.Slotted slots →
                    u.resolveLast p = .ok (dir, .name name slash) →
                    Twins slots u (u.attempt (u.unlink p)) := fun {u} hu hlast => by
                  cases hunlink : u.unlink p with
                  | error e => exact .refl hu
                  | ok u' =>
                      obtain ⟨name', dir', _, hlast', _, _, rfl⟩ := unlink_cases hunlink
                      cases hlast.symm.trans hlast'
                      exact twins_remove hu hhas
                exact (hone h.tree.slotted hd).symm.trans (h.trans (hone h.tree.slotted' hlast))
            | false =>
                unfold unlink
                rw [hlast, hd]
                simp only [Bind.bind, Except.bind, h.tree.child? hhas]
                cases d.tree.child? dir name with
                | error e => exact h
                | ok x =>
                    cases x with
                    | none => exact h
                    | some e =>
                        cases e with
                        | directory mode => exact h
                        | file data mode | link target =>
                            cases slash
                            · exact h.remove _
                            · exact h
  · simpa [unlink, he, he', Bind.bind, Except.bind, attempt] using h

def locatesDirectory (d : Disk) (p : Path) : Bool :=
  match d.linkEntry p with
  | .ok e => e.isDirectory
  | .error _ => false

theorem linkEntry_of_name (hlast : d.resolveLast p = .ok (dir, .name name false)) :
    d.linkEntry p = (lift (d.tree.child? dir name)).bind fun x =>
      x.elim (.error (.system .noEntry)) .ok := by
  unfold linkEntry locate
  rw [hlast]
  cases hchild : d.tree.child? dir name with
  | error e => simp [Bind.bind, Except.bind, hchild, lift_error]
  | ok x =>
      have hfind := (Tree.child?_eq_ok_iff.1 hchild).2.2
      cases x with
      | none => simp [Bind.bind, Except.bind, hchild, lift_ok]
      | some e => simp [Bind.bind, Except.bind, hchild, lift_ok, entryAt, Tree.entry?, hfind]

theorem locate_of_ending {last : Path.Ending} (hlast : d.resolveLast p = .ok (dir, last))
    (hne : ∀ name, last ≠ .name name false) : d.locate p = d.place p := by
  unfold locate
  rw [hlast]
  cases last with
  | root | here | up => rfl
  | name name slash =>
      cases slash with
      | true => rfl
      | false => exact absurd rfl (hne name)

/-- What is no directory is taken away by its name. -/
theorem discard_eq (d : Disk) (p : Path) :
    d.discard p = if d.locatesDirectory p then (d.removeAll p).2 else d.attempt (d.unlink p) := by
  unfold discard locatesDirectory
  cases he : d.linkEntry p with
  | ok e => cases e <;> rfl
  | error f =>
      cases hunlink : d.unlink p with
      | error g => rfl
      | ok d' =>
          obtain ⟨name, dir, e, hlast, hchild, _⟩ := unlink_cases hunlink
          rw [linkEntry_of_name hlast, hchild] at he
          cases he

theorem locatesDirectory_of_has (h : d.tree.Slotted slots)
    (hlast : d.resolveLast p = .ok (dir, .name name false))
    (hhas : slots.has (name :: dir) = true) : d.locatesDirectory p = false := by
  unfold locatesDirectory
  rw [linkEntry_of_name hlast]
  cases hchild : d.tree.child? dir name with
  | error e => rfl
  | ok x =>
      cases x with
      | none => rfl
      | some e =>
          have hfile := h _ e hhas (Tree.child?_eq_ok_iff.1 hchild).2.2
          cases e with
          | directory mode | link target => cases hfile
          | file data mode => rfl

/-- A path locates the same on both disks, or no directory on either. -/
theorem Twins.locate_cases (h : Twins slots d d') (p : Path) :
    (d'.locate p = d.locate p ∧ ∀ l, d.locate p = .ok (some l) → slots.has l = false) ∨
      (d.locatesDirectory p = false ∧ d'.locatesDirectory p = false) := by
  have herror : ∀ {u : Disk} {e : Fault}, u.resolveLast p = .error e →
      u.locatesDirectory p = false := fun {u e} he => by
    simp [Disk.locatesDirectory, linkEntry, Disk.locate, he, Bind.bind, Except.bind]
  rcases h.resolveLast_cases p with hlast | ⟨e, e', he, he'⟩
  · cases hd : d.resolveLast p with
    | error e => exact Or.inr ⟨herror hd, herror (hlast.trans hd)⟩
    | ok x =>
        obtain ⟨dir, last⟩ := x
        rw [hd] at hlast
        by_cases hname : ∃ name, last = .name name false
        · obtain ⟨name, rfl⟩ := hname
          cases hhas : slots.has (name :: dir) with
          | true =>
              exact Or.inr ⟨locatesDirectory_of_has h.tree.slotted hd hhas,
                locatesDirectory_of_has h.tree.slotted' hlast hhas⟩
          | false =>
              left
              unfold Disk.locate
              rw [hlast, hd]
              simp only [Bind.bind, Except.bind, h.tree.child? hhas]
              cases d.tree.child? dir name with
              | error e => exact ⟨trivial, fun _ hl => by cases hl⟩
              | ok x =>
                  cases x with
                  | none => exact ⟨trivial, fun _ hl => by cases hl⟩
                  | some e =>
                      refine ⟨trivial, fun l hl => ?_⟩
                      cases hl
                      exact hhas
        · have hne : ∀ name, last ≠ .name name false := fun name he => hname ⟨name, he⟩
          rw [locate_of_ending hd hne, locate_of_ending hlast hne]
          by_cases hs : d.Sidesteps slots p p.steps
          · exact Or.inl (h.goes hs)
          · have hplace : ∀ {u : Disk}, u.tree.Slotted slots → u.resolveLast p = .ok (dir, last) →
                ¬ u.Sidesteps slots p p.steps → u.locatesDirectory p = false :=
              fun {u} hu hlast hs => by
                unfold Disk.locatesDirectory linkEntry
                rw [locate_of_ending hlast hne]
                exact not_isDirectory_of_bars hu (bars_of_not_sidesteps hu hs)
            exact Or.inr ⟨hplace h.tree.slotted hd hs,
              hplace h.tree.slotted' hlast (mt h.sidesteps_iff.1 hs)⟩
  · exact Or.inr ⟨herror he, herror he'⟩

theorem Twins.locatesDirectory (h : Twins slots d d') (p : Path) :
    d'.locatesDirectory p = d.locatesDirectory p := by
  rcases h.locate_cases p with ⟨hlocate, hfree⟩ | ⟨hd, hd'⟩
  · unfold Disk.locatesDirectory linkEntry
    rw [hlocate]
    cases hx : d.locate p with
    | error e => rfl
    | ok x =>
        dsimp only [Bind.bind, Except.bind]
        rw [h.entryAt fun l hl => hfree l (hl ▸ hx)]
  · rw [hd, hd']

theorem removeDirectory_clear (hl : d.locate p = .ok (some l)) {slash : Bool} {mode : Nat}
    (hlast : (d.clear l).resolveLast p = .ok (dir, .name name slash))
    (hchild : (d.clear l).tree.child? dir name = .ok (some (.directory mode))) :
    (d.clear l).removeDirectory p = .ok ((d.clear l).remove l) := by
  have hplace := eq_of_locate_clear hl hlast hchild
  have hempty : (d.clear l).tree.children l = [] := by
    refine List.eq_nil_iff_forall_not_mem.2 fun x hx => ?_
    have hfind := Tree.mem_children.1 hx
    rw [find_clear_inside (Tree.inside_cons x.1 l)] at hfind
    cases hfind
  unfold removeDirectory
  rw [hlast]
  simp only [Bind.bind, Except.bind, hchild, lift_ok, hplace, hempty,
    List.isEmpty_nil, ↓reduceIte]

/-- An emptied directory goes away on the one disk if it does on the other. -/
theorem Twins.removeDirectory_clear (h : Twins slots d d') (hl : d.locate p = .ok (some l))
    (hl' : d'.locate p = .ok (some l)) (hhas : slots.has l = false) {made : Disk}
    (hmade : (d.clear l).removeDirectory p = .ok made) :
    (d'.clear l).removeDirectory p = .ok ((d'.clear l).remove l) := by
  obtain ⟨name, dir, slash, mode, hlast, hchild, _⟩ := removeDirectory_cases hmade
  have hplace := eq_of_locate_clear hl hlast hchild
  rcases (h.clear l).resolveLast_cases p with hsame | ⟨e, _, he, _⟩
  · have hchild' : (d'.clear l).tree.child? dir name = .ok (some (.directory mode)) := by
      rw [(h.clear l).tree.child? (hplace ▸ hhas), hchild]
    exact Disk.removeDirectory_clear hl' (hsame.trans hlast) hchild'
  · cases hlast.symm.trans he

/-- A directory is taken away from both disks, and with it the slots inside. -/
theorem Twins.removeAll (h : Twins slots d d') (hdir : d.locatesDirectory p = true) :
    Twins slots (d.removeAll p).2 (d'.removeAll p).2 := by
  rcases h.locate_cases p with ⟨hlocate, hfree⟩ | ⟨hno, _⟩
  · cases hl : d.locate p with
    | error e =>
        rw [hl] at hlocate
        simpa [Disk.removeAll, hl, hlocate] using h
    | ok x =>
        rw [hl] at hlocate
        cases x with
        | none =>
            have hone : ∀ {u : Disk}, u.locate p = .ok none → (u.removeAll p).2 = u := fun {u} hu => by
              rcases u.removeAll_cases p with hsame | ⟨l, hl, _⟩
              · exact hsame
              · cases hu.symm.trans hl
            rw [hone hl, hone hlocate]
            exact h
        | some l =>
            have hhas := hfree l hl
            obtain ⟨mode, hentry⟩ : ∃ mode, d.tree.entry? l = some (.directory mode) := by
              simp only [Disk.locatesDirectory, linkEntry, hl, Bind.bind, Except.bind,
                Disk.entryAt] at hdir
              cases he : d.tree.entry? l with
              | none => simp [he] at hdir
              | some e =>
                  cases e with
                  | directory mode => exact ⟨mode, rfl⟩
                  | file data mode | link target => simp [he, Entry.isDirectory] at hdir
            have hentry' : d'.tree.entry? l = some (.directory mode) := by
              cases l with
              | nil => exact hentry
              | cons name dir => exact (h.tree.same hhas).trans hentry
            simp only [Disk.removeAll, hl, hlocate, hentry, hentry']
            cases hmade : (d.clear l).removeDirectory p with
            | ok made =>
                rw [h.removeDirectory_clear hl hlocate hhas hmade,
                  eq_of_removeDirectory_clear hl hmade]
                exact (h.clear l).remove l
            | error e =>
                cases hmade' : (d'.clear l).removeDirectory p with
                | error e' => exact h.clear l
                | ok made' =>
                    cases hmade.symm.trans (h.symm.removeDirectory_clear hlocate hl hhas hmade')
  · simp [hno] at hdir

/-- Whatever a path names is taken away, and no more than the slots may differ. -/
theorem Twins.discard (h : Twins slots d d') (p : Path) :
    Twins slots (d.discard p) (d'.discard p) := by
  rw [discard_eq, discard_eq, h.locatesDirectory p]
  split
  · next hdir => exact h.removeAll hdir
  · exact h.attempt_unlink p

end Removal
end Disk

namespace Action

open Disk

def AllSpare (slots : Slots) (base : Path) : Disk → List Action → Prop
  | _, [] => True
  | d, a :: actions =>
    Spares slots d (a.apply base d) ∧ AllSpare slots base (a.apply base d) actions

instance decidableAllSpare (slots : Slots) (base : Path) :
    ∀ (d : Disk) (actions : List Action), Decidable (AllSpare slots base d actions)
  | _, [] => isTrue trivial
  | d, a :: actions =>
    have := decidableAllSpare slots base (a.apply base d) actions
    inferInstanceAs (Decidable (_ ∧ _))

variable {slots : Slots} {base : Path} {d d' : Disk}

theorem twins_makeDirectories {p : Path} (h : Twins slots d d')
    (hs : Spares slots d (d.makeDirectories p).2) (hs' : Spares slots d' (d'.makeDirectories p).2) :
    Twins slots (d.makeDirectories p).2 (d'.makeDirectories p).2 := by
  cases hdir : d.tree.isDirectory slots.dir with
  | true => exact (h.makeChain hdir p.pairwise_ancestors hs hs').2
  | false =>
      -- without a directory for the slots there is one disk only
      obtain rfl : d' = d := Disk.ext (h.tree.eq hdir) h.cwd h.lost
      exact .refl (hs.slotted h.tree.slotted)

/-- A file does not take the place of a directory that was made for it. -/
theorem spares_of_write {d₁ : Disk} {made : Location → Prop} {p : Path} {data : Bytes}
    (hgrows : d.Grows d₁ made) (h : Spares slots d (d₁.attempt (d₁.write p data))) :
    Spares slots d d₁ := by
  intro name hname
  cases he : d.tree.find (name :: slots.dir) with
  | some e => exact hgrows.keeps he
  | none =>
      cases he₁ : d₁.tree.find (name :: slots.dir) with
      | none => rfl
      | some e =>
          obtain ⟨rfl, _⟩ := hgrows.fresh he he₁
          have hdir : d₁.tree.isDirectory (name :: slots.dir) = true :=
            Tree.isDirectory_cons_iff.2 ⟨_, he₁⟩
          have hdir' : (d₁.attempt (d₁.write p data)).tree.isDirectory (name :: slots.dir) = true := by
            rw [write_eq]
            cases d₁.destination p with
            | error e => exact hdir
            | ok l => exact Tree.isDirectory_put hdir
          obtain ⟨mode, hmode⟩ := Tree.isDirectory_cons_iff.1 hdir'
          cases (hmode.symm.trans (h name hname)).trans he

/-- An action that leaves the slots alone leaves two disks that differ in them. -/
theorem twins_apply {a : Action} (h : Twins slots d d') (hs : Spares slots d (a.apply base d))
    (hs' : Spares slots d' (a.apply base d')) :
    Twins slots (a.apply base d) (a.apply base d') := by
  cases a with
  | print stream data => exact h
  | makeDirectory path => exact twins_makeDirectories h hs hs'
  | remove path => exact h.discard _
  | makeLink path target => exact h.attempt_create hs hs'
  | write path data =>
      simp only [apply, writeWithParents] at hs hs' ⊢
      cases hparent : (base.join path).parent? with
      | none => exact h.attempt_write _ _
      | some parent =>
          rw [hparent] at hs hs'
          refine Twins.attempt_write (twins_makeDirectories h ?_ ?_) _ _
          · exact spares_of_write (d.makeDirectories_grows parent) hs
          · exact spares_of_write (d'.makeDirectories_grows parent) hs'

theorem AllSpare.twins {actions : List Action} (h : Twins slots d d')
    (hs : AllSpare slots base d actions) (hs' : AllSpare slots base d' actions) :
    Twins slots (actions.foldl (apply base) d) (actions.foldl (apply base) d') := by
  induction actions generalizing d d' with
  | nil => exact h
  | cons a actions ih => exact ih (twins_apply h hs.1 hs'.1) hs.2 hs'.2

theorem AllSpare.spares {actions : List Action} (hs : AllSpare slots base d actions) :
    Spares slots d (actions.foldl (apply base) d) := by
  induction actions generalizing d with
  | nil => exact fun _ _ => rfl
  | cons a actions ih =>
      exact fun name hname => (ih hs.2 name hname).trans (hs.1 name hname)

end Action
end PointsTo
