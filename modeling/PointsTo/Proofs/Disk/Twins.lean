import PointsTo.Proofs.Ancestors
import PointsTo.Proofs.Disk.Slots

/-!
Lookups and changes on two disks that differ in the slots of a directory. What does not
come to a slot finds the same on both and leaves two such disks again. What comes to one
fails, or changes nothing but the slot.
-/

namespace PointsTo
namespace Disk

open PointsTo.Path (Step)

section Lookup

variable {slots : Slots} {d d' : Disk} {p : Path} {dir : Location} {name : String}

theorem Twins.entryAt (h : Twins slots d d') {x : Option Location}
    (hx : ∀ l, x = some l → slots.has l = false) : d'.entryAt x = d.entryAt x := by
  cases x with
  | none => rfl
  | some l =>
      cases l with
      | nil => rfl
      | cons name dir => simp only [Disk.entryAt, Tree.entry?, h.tree.same (hx _ rfl)]

theorem Twins.entry (h : Twins slots d d') (hs : d.Sidesteps slots p p.steps) :
    d'.entry p = d.entry p := by
  obtain ⟨hgoes, hfree⟩ := h.goes hs
  unfold Disk.entry
  rw [place_eq_goes, place_eq_goes, hgoes]
  cases hx : d.goes (fun _ => true) p p.steps with
  | error e => rfl
  | ok x => exact h.entryAt fun l hl => hfree l (hl ▸ hx)

theorem Twins.readText (h : Twins slots d d') (hs : d.Sidesteps slots p p.steps) :
    d'.readText p = d.readText p := by
  unfold Disk.readText read
  rw [h.entry hs]

/-- What stands in a slot is no directory. -/
theorem not_isDirectory_of_bars (h : d.tree.Slotted slots)
    (hb : Bars slots (d.goes (fun _ => true) p p.steps)) : d.isDirectory p = false := by
  unfold isDirectory entry
  rw [place_eq_goes]
  cases hx : d.goes (fun _ => true) p p.steps with
  | error e => rfl
  | ok x =>
      rw [hx] at hb
      cases x with
      | none => cases hb
      | some l =>
          cases l with
          | nil => cases hb
          | cons name dir =>
              cases he : d.tree.find (name :: dir) with
              | none => simp [Bind.bind, Except.bind, Disk.entryAt, Tree.entry?, he]
              | some e =>
                  have hfile := h _ e hb he
                  cases e with
                  | directory mode | link target => cases hfile
                  | file data mode =>
                      simp [Bind.bind, Except.bind, Disk.entryAt, Tree.entry?, he,
                        Entry.isDirectory]

theorem Twins.isDirectory (h : Twins slots d d') (p : Path) :
    d'.isDirectory p = d.isDirectory p := by
  by_cases hs : d.Sidesteps slots p p.steps
  · unfold Disk.isDirectory
    rw [h.entry hs]
  · rw [not_isDirectory_of_bars h.tree.slotted (bars_of_not_sidesteps h.tree.slotted hs),
      not_isDirectory_of_bars h.tree.slotted'
        (bars_of_not_sidesteps h.tree.slotted' (mt h.sidesteps_iff.1 hs))]

/-- The last name after a slot is not found. -/
theorem resolveLast_of_bars (h : d.tree.Slotted slots)
    (hs : ¬ d.Sidesteps slots p p.ending.1) : ∃ e, d.resolveLast p = .error e := by
  have hb := bars_of_not_sidesteps h hs
  rw [resolveLast_eq_goes]
  cases hx : d.goes (fun _ => true) p p.ending.1 with
  | error e => exact ⟨e, rfl⟩
  | ok x =>
      rw [hx] at hb
      cases x with
      | none => cases hb
      | some l =>
          refine ⟨.system .notDirectory, ?_⟩
          simp [Bind.bind, Except.bind, h.isDirectory hb]

theorem Twins.resolveLast (h : Twins slots d d') (hs : d.Sidesteps slots p p.ending.1) :
    d'.resolveLast p = d.resolveLast p := by
  rw [resolveLast_eq_goes, resolveLast_eq_goes, (h.goes hs).1]
  simp only [h.tree.isDirectory, h.cwd]

theorem Twins.resolveLast_cases (h : Twins slots d d') (p : Path) :
    d'.resolveLast p = d.resolveLast p ∨
      ∃ e e', d.resolveLast p = .error e ∧ d'.resolveLast p = .error e' := by
  by_cases hs : d.Sidesteps slots p p.ending.1
  · exact Or.inl (h.resolveLast hs)
  · obtain ⟨e, he⟩ := resolveLast_of_bars h.tree.slotted hs
    obtain ⟨e', he'⟩ := resolveLast_of_bars h.tree.slotted' (mt h.sidesteps_iff.1 hs)
    exact Or.inr ⟨e, e', he, he'⟩

theorem sidesteps_of_resolveLast {last : Path.Ending} (h : d.tree.Slotted slots)
    (hlast : d.resolveLast p = .ok (dir, last)) : d.Sidesteps slots p p.ending.1 := by
  refine Decidable.byContradiction fun hs => ?_
  obtain ⟨e, he⟩ := resolveLast_of_bars h hs
  cases hlast.symm.trans he

/-- Moves that came to a slot are not taken any further. -/
theorem not_sidesteps_append {before : List Step} (h : d.tree.Slotted slots)
    (hs : ¬ d.Sidesteps slots p before) (after : List Step) :
    ¬ d.Sidesteps slots p (before ++ after) := by
  cases hstart : d.start p before with
  | error e => exact absurd (by simp [Sidesteps, Disk.goes, hstart, Bind.bind, Except.bind]) hs
  | ok x =>
      cases x with
      | none => exact absurd (by simp [Sidesteps, Disk.goes, hstart, Bind.bind, Except.bind]) hs
      | some x =>
          obtain ⟨l, rest⟩ := x
          have hstart' : d.start p (before ++ after) = .ok (some (l, rest ++ after)) := by
            obtain ⟨hc, hsurface, hl⟩ := start_eq_some_iff.1 hstart
            exact start_eq_some_iff.2 ⟨hc, surface_append_ok after hsurface, hl⟩
          have hl := has_start h hstart
          unfold Sidesteps at hs ⊢
          rw [goes_of_start hstart, goes_of_start hstart] at hs
          rw [goes_of_start hstart', goes_of_start hstart']
          rcases (Tree.Twins.refl h).walkWithin hl Tree.maxLinks rest with
            ⟨_, hpast, _⟩ | ⟨hbars, _, hpast, _⟩
          · exact absurd (by rw [hpast]) hs
          · rw [Tree.walkWithin_append_error hpast after]
            exact lift_ne_of_bars (h.bars_append hbars after)

/-- A last name is one of the slots, or the path goes past them. -/
theorem resolveLast_walks {name : String} {slash : Bool} (h : d.tree.Slotted slots)
    (hlast : d.resolveLast p = .ok (dir, .name name slash)) :
    ∃ l rest k, d.start p p.steps =
        .ok (some (l, rest ++ .down name :: List.replicate k .stay)) ∧
      d.tree.walkWithin (fun _ => true) Tree.maxLinks l rest = .ok dir ∧
      d.tree.walkWithin (fun l => !slots.has l) Tree.maxLinks l rest = .ok dir := by
  obtain ⟨hend, ⟨hc, rest, hsurface, hwalk⟩, hdir⟩ := resolveLast_eq_name_iff.1 hlast
  obtain ⟨_, k, hsteps, _⟩ := Path.steps_of_ending (Prod.ext rfl hend)
  refine ⟨d.origin p, rest, k, ?_, hwalk, ?_⟩
  · rw [hsteps]
    exact start_eq_some_iff.2 ⟨hc, surface_append_ok _ hsurface, rfl⟩
  · rcases (Tree.Twins.refl h).walkWithin (h.has_eq_false (d.isDirectory_origin p)) Tree.maxLinks rest
      with ⟨_, hpast, _⟩ | ⟨hbars, _⟩
    · exact hpast.trans hwalk
    · have hhas : slots.has dir = true := by
        rw [Tree.walk] at hwalk
        rwa [hwalk] at hbars
      simp [h.isDirectory hhas] at hdir

theorem not_sidesteps_of_has {slash : Bool} (h : d.tree.Slotted slots)
    (hlast : d.resolveLast p = .ok (dir, .name name slash))
    (hhas : slots.has (name :: dir) = true) : ¬ d.Sidesteps slots p p.steps := by
  obtain ⟨l, rest, k, hstart, hwalk, hpast⟩ := resolveLast_walks h hlast
  have hstop : ∀ links, d.tree.walkWithin (fun l => !slots.has l) links dir
      (.down name :: List.replicate k .stay) = .error .nameTooLong := fun links => by
    simp [Tree.walkWithin_eq_walkSteps, Tree.walkSteps, hhas]
  unfold Sidesteps
  rw [goes_of_start hstart, goes_of_start hstart, Tree.walkWithin_append_eq hpast hstop]
  exact lift_ne_of_bars (h.bars_down hwalk hhas _)

theorem sidesteps_of_name {slash : Bool} (h : d.tree.Slotted slots)
    (hlast : d.resolveLast p = .ok (dir, .name name slash))
    (hhas : slots.has (name :: dir) = false)
    (hlink : ∀ target, d.tree.find (name :: dir) ≠ some (.link target)) :
    d.Sidesteps slots p p.steps := by
  obtain ⟨l, rest, k, hstart, hwalk, hpast⟩ := resolveLast_walks h hlast
  obtain ⟨x, hx⟩ := Tree.walkSteps_last k hlink
  have hend : ∀ fits, fits (name :: dir) = true → ∀ links,
      d.tree.walkWithin fits links dir (.down name :: List.replicate k .stay) = x :=
    fun fits hfits links => by
      rw [Tree.walkWithin_eq_walkSteps]
      exact hx _ _ hfits
  unfold Sidesteps
  rw [goes_of_start hstart, goes_of_start hstart,
    Tree.walkWithin_append_eq hpast (hend _ (by simp [hhas])),
    Tree.walkWithin_append_eq hwalk (hend _ rfl)]

theorem Sidesteps.ending (h : d.tree.Slotted slots) (hs : d.Sidesteps slots p p.steps) :
    d.Sidesteps slots p p.ending.1 := by
  obtain ⟨more, hmore⟩ := p.ending_prefix
  refine Decidable.byContradiction fun hno => ?_
  exact not_sidesteps_append h hno more (hmore ▸ hs)

end Lookup

/-- Two changes that fail alike or leave two disks that differ in the slots. -/
def TwinResults (slots : Slots) : Except Fault Disk → Except Fault Disk → Prop
  | .ok d, .ok d' => Twins slots d d'
  | .error e, .error e' => e = e'
  | _, _ => False

section Results

variable {slots : Slots} {x x' : Except Fault Disk}

theorem TwinResults.cases (h : TwinResults slots x x') :
    (∃ e, x = .error e ∧ x' = .error e) ∨ ∃ d d', x = .ok d ∧ x' = .ok d' ∧ Twins slots d d' := by
  cases x with
  | error e =>
      cases x' with
      | error e' => exact Or.inl ⟨e, rfl, congrArg _ (Eq.symm h)⟩
      | ok d' => exact h.elim
  | ok d =>
      cases x' with
      | error e' => exact h.elim
      | ok d' => exact Or.inr ⟨d, d', rfl, rfl, h⟩

theorem TwinResults.bind {f f' : Disk → Except Fault Disk} (h : TwinResults slots x x')
    (hf : ∀ d d', x = .ok d → Twins slots d d' → TwinResults slots (f d) (f' d')) :
    TwinResults slots (x >>= f) (x' >>= f') := by
  rcases h.cases with ⟨e, rfl, rfl⟩ | ⟨d, d', rfl, rfl, htwins⟩
  · exact rfl
  · exact hf d d' rfl htwins

theorem TwinResults.mapError (h : TwinResults slots x x') (f : Fault → Fault) :
    TwinResults slots (x.mapError f) (x'.mapError f) := by
  rcases h.cases with ⟨e, rfl, rfl⟩ | ⟨d, d', rfl, rfl, htwins⟩
  · exact rfl
  · exact htwins

theorem TwinResults.attempt {d d' : Disk} (h : TwinResults slots x x') (hd : Twins slots d d') :
    Twins slots (d.attempt x) (d'.attempt x') := by
  rcases h.cases with ⟨e, rfl, rfl⟩ | ⟨made, made', rfl, rfl, htwins⟩
  · exact hd
  · exact htwins

end Results

section Put

variable {slots : Slots} {d d' : Disk} {p : Path} {l dir : Location} {name : String} {e : Entry}

theorem Twins.put (h : Twins slots d d') (hl : slots.has l = false) (e : Entry) :
    Twins slots (d.put l e) (d'.put l e) := by
  have hslotted : ∀ {d : Disk}, d.tree.Slotted slots → (d.put l e).tree.Slotted slots :=
    fun hd k f hk hf => by
      rw [tree_put, Tree.find_put_eq, if_neg (fun hlk => by simp [← hlk.2, hl] at hk)] at hf
      exact hd k f hk hf
  have haccepts : d'.tree.accepts l e = d.tree.accepts l e := by
    cases l with
    | nil => rfl
    | cons name dir => simp only [Tree.accepts, h.tree.isDirectory]
  refine ⟨⟨hslotted h.tree.slotted, hslotted h.tree.slotted', fun {k} hk => ?_⟩, h.cwd, h.lost⟩
  rw [tree_put, tree_put, Tree.find_put_eq, Tree.find_put_eq, haccepts, h.tree.same hk]

theorem Twins.create_of_last (h : Twins slots d d') (hsame : d'.resolveLast p = d.resolveLast p)
    (hhas : ∀ dir name slash, d.resolveLast p = .ok (dir, .name name slash) →
      slots.has (name :: dir) = false) (e : Entry) :
    TwinResults slots (d.create p e) (d'.create p e) := by
  unfold Disk.create
  rw [hsame]
  cases hlast : d.resolveLast p with
  | error f => exact rfl
  | ok x =>
      obtain ⟨dir, last⟩ := x
      cases last with
      | root | here | up => exact rfl
      | name name slash =>
          have hfree := hhas dir name slash hlast
          simp only [Bind.bind, Except.bind, h.tree.child? hfree]
          split
          · exact rfl
          · cases d.tree.child? dir name with
            | error f => exact rfl
            | ok x =>
                cases x with
                | some f => exact rfl
                | none => exact h.put hfree e

theorem has_of_sidesteps {slash : Bool} (h : d.tree.Slotted slots)
    (hs : d.Sidesteps slots p p.steps) (hlast : d.resolveLast p = .ok (dir, .name name slash)) :
    slots.has (name :: dir) = false := by
  cases hhas : slots.has (name :: dir) with
  | false => rfl
  | true => exact absurd hs (not_sidesteps_of_has h hlast hhas)

theorem Twins.create (h : Twins slots d d') (hs : d.Sidesteps slots p p.steps) (e : Entry) :
    TwinResults slots (d.create p e) (d'.create p e) :=
  h.create_of_last (h.resolveLast (hs.ending h.tree.slotted))
    (fun _ _ _ => has_of_sidesteps h.tree.slotted hs) e

end Put

def Spares (slots : Slots) (d d' : Disk) : Prop :=
  ∀ name ∈ slots.names, d'.tree.find (name :: slots.dir) = d.tree.find (name :: slots.dir)

instance (slots : Slots) (d d' : Disk) : Decidable (Spares slots d d') :=
  inferInstanceAs (Decidable (∀ name ∈ slots.names, _))

section Spares

variable {slots : Slots} {d d' d'' : Disk} {made made' : Location → Prop} {l : Location}

theorem Spares.find (h : Spares slots d d') (hl : slots.has l = true) :
    d'.tree.find l = d.tree.find l := by
  cases l with
  | nil => cases hl
  | cons name dir =>
      obtain ⟨hname, rfl⟩ := Slots.has_cons_iff.1 hl
      exact h name hname

theorem Spares.slotted (h : Spares slots d d') (hd : d.tree.Slotted slots) :
    d'.tree.Slotted slots :=
  fun l e hl he => hd l e hl ((h.find hl).symm.trans he)

/-- What is made in between is still there at the end. -/
theorem Spares.of_grows (h : Spares slots d d'') (hd : d.Grows d' made) (hd' : d'.Grows d'' made') :
    Spares slots d d' := by
  intro name hname
  have hend := h name hname
  cases he : d.tree.find (name :: slots.dir) with
  | some e => exact hd.keeps he
  | none =>
      cases he' : d'.tree.find (name :: slots.dir) with
      | none => rfl
      | some e =>
          rw [he, hd'.keeps he'] at hend
          cases hend

/-- Nothing is made at a slot. -/
theorem Spares.create_error {p : Path} {dir : Location} {name : String} {slash : Bool} {e : Entry}
    (hspares : Spares slots d (d.attempt (d.create p e)))
    (hlast : d.resolveLast p = .ok (dir, .name name slash))
    (hhas : slots.has (name :: dir) = true) : ∃ fault, d.create p e = .error fault := by
  cases hmake : d.create p e with
  | error fault => exact ⟨fault, rfl⟩
  | ok made =>
      obtain ⟨name', dir', _, hlast', hnone, _, rfl⟩ := create_cases hmake
      cases hlast.symm.trans hlast'
      obtain ⟨hin, _, hempty⟩ := Tree.child?_eq_ok_iff.1 hnone
      have hsame := hspares.find hhas
      rw [hmake, attempt, find_put_new (isName_of_ending hlast _ _ rfl) hin hempty, if_pos rfl,
        hempty] at hsame
      cases hsame

theorem Twins.attempt_create {p : Path} {e : Entry} (h : Twins slots d d')
    (hs : Spares slots d (d.attempt (d.create p e)))
    (hs' : Spares slots d' (d'.attempt (d'.create p e))) :
    Twins slots (d.attempt (d.create p e)) (d'.attempt (d'.create p e)) := by
  rcases h.resolveLast_cases p with hlast | ⟨f, f', hf, hf'⟩
  · by_cases hslot : ∃ dir name slash, d.resolveLast p = .ok (dir, .name name slash) ∧
        slots.has (name :: dir) = true
    · obtain ⟨dir, name, slash, hd, hhas⟩ := hslot
      obtain ⟨fault, hfault⟩ := hs.create_error hd hhas
      obtain ⟨fault', hfault'⟩ := hs'.create_error (hlast.trans hd) hhas
      rw [hfault, hfault']
      exact h
    · have hfree : ∀ dir name slash, d.resolveLast p = .ok (dir, .name name slash) →
          slots.has (name :: dir) = false := fun dir name slash hd => by
        cases hhas : slots.has (name :: dir) with
        | false => rfl
        | true => exact absurd ⟨dir, name, slash, hd, hhas⟩ hslot
      exact (h.create_of_last hlast hfree e).attempt h
  · simpa [Disk.create, hf, hf', Bind.bind, Except.bind, attempt] using h

end Spares

section Make

variable {slots : Slots} {d d' : Disk} {p q : Path} {before : List Step}

theorem ensureDirectory_error {e : Fault} (h : d.ensureDirectory p = (.error e, d')) : d' = d := by
  unfold ensureDirectory at h
  split at h
  · cases h
  · split at h <;> cases h
    rfl

/-- A directory is not made at a slot. -/
theorem ensureDirectory_of_bars (h : d.tree.Slotted slots) (hs : ¬ d.Sidesteps slots p p.steps)
    (hspares : Spares slots d (d.ensureDirectory p).2) :
    ∃ e, d.ensureDirectory p = (.error e, d) := by
  have hdir := not_isDirectory_of_bars h (bars_of_not_sidesteps h hs)
  cases hmake : d.makeDirectory p with
  | error e => exact ⟨e, by simp [ensureDirectory, hmake, hdir]⟩
  | ok made =>
      obtain ⟨name, dir, slash, hlast, hnone, _⟩ := create_cases hmake
      cases hhas : slots.has (name :: dir) with
      | false =>
          have hempty := (Tree.child?_eq_ok_iff.1 hnone).2.2
          exact absurd (sidesteps_of_name h hlast hhas (by simp [hempty])) hs
      | true =>
          have hsame : (d.ensureDirectory p).2 = d.attempt (d.makeDirectory p) := by
            simp [ensureDirectory, hmake, attempt]
          obtain ⟨e, he⟩ := Spares.create_error (hsame ▸ hspares) hlast hhas
          cases hmake.symm.trans he

theorem start_eq (d : Disk) (p : Path) (steps : List Step) :
    d.start p steps = checkText p >>= fun _ =>
      (lift (surface (d.sunk p) steps)).map fun
        | (0, rest) => some (d.origin p, rest)
        | (_ + 1, _) => none := by
  unfold start sunk origin
  cases hc : checkText p with
  | error e => rfl
  | ok =>
      simp only [Bind.bind, Except.bind]
      cases ha : p.isAbsolute with
      | true => simp [lift_ok, Except.map]
      | false =>
          simp only [Bool.false_eq_true, ↓reduceIte]
          cases surface d.lost steps with
          | error e => rfl
          | ok x =>
              obtain ⟨k, rest⟩ := x
              cases k <;> rfl

theorem start_append_error {e : Fault} (h : d.start p before = .error e) (after : List Step) :
    d.start p (before ++ after) = .error e := by
  rw [start_eq] at h ⊢
  cases hc : checkText p with
  | error x =>
      rw [hc] at h
      exact h
  | ok =>
      rw [hc] at h
      cases hs : surface (d.sunk p) before with
      | error x =>
          rw [hs] at h
          rw [surface_append, hs]
          exact h
      | ok x =>
          rw [hs] at h
          cases h

theorem start_append_some {l : Location} {rest : List Step}
    (h : d.start p before = .ok (some (l, rest))) (after : List Step) :
    d.start p (before ++ after) = .ok (some (l, rest ++ after)) := by
  obtain ⟨hc, hsurface, hl⟩ := start_eq_some_iff.1 h
  exact start_eq_some_iff.2 ⟨hc, surface_append_ok after hsurface, hl⟩

theorem surface_stay (lost k : Nat) :
    surface (lost + 1) (List.replicate k .stay) = .ok (lost + 1, []) := by
  induction k with
  | zero => rfl
  | succ k ih => exact ih

theorem start_append_none (h : d.start p before = .ok none) (k : Nat) :
    d.start p (before ++ List.replicate k .stay) = .ok none := by
  rw [start_eq] at h ⊢
  obtain ⟨_, hc, h⟩ := bind_eq_ok_iff.1 h
  cases hs : surface (d.sunk p) before with
  | error x =>
      rw [hs] at h
      cases h
  | ok x =>
      obtain ⟨lost, rest⟩ := x
      rw [hs] at h
      cases lost with
      | zero => cases h
      | succ lost =>
          rw [hc, surface_append, hs]
          dsimp only
          rw [surface_stay]
          rfl

/-- A fault on the way is the answer of the whole lookup. -/
theorem goes_append_error {fits : Location → Bool} {e : Fault} (h : d.goes fits p before = .error e)
    (after : List Step) : d.goes fits p (before ++ after) = .error e := by
  cases hs : d.start p before with
  | error x =>
      rw [goes, hs] at h
      cases h
      rw [goes, start_append_error hs after]
      rfl
  | ok x =>
      cases x with
      | none =>
          rw [goes, hs] at h
          cases h
      | some x =>
          obtain ⟨l, rest⟩ := x
          rw [goes_of_start hs] at h
          rw [goes_of_start (start_append_some hs after)]
          cases hw : d.tree.walkWithin fits Tree.maxLinks l rest with
          | ok r =>
              rw [hw] at h
              cases h
          | error x =>
              rw [hw] at h
              rw [Tree.walkWithin_append_error hw after]
              exact h

theorem isDirectory_entryAt {l : Location} (h : d.tree.isDirectory l = true) :
    (match d.entryAt (some l) with
      | .ok e => e.isDirectory
      | .error _ => false) = true := by
  cases l with
  | nil => rfl
  | cons name dir =>
      obtain ⟨mode, hmode⟩ := Tree.isDirectory_cons_iff.1 h
      simp [entryAt, Tree.entry?, hmode, Entry.isDirectory]

theorem sidesteps_of_checkText {e : Fault} (h : checkText p = .error e) (steps : List Step) :
    d.Sidesteps slots p steps := by
  simp [Sidesteps, goes, start, h, Bind.bind, Except.bind]

/-- Where a path comes to a slot and one along it does not, that one leads to a directory. -/
theorem isDirectory_of_along (h : d.tree.Slotted slots)
    (hdir : d.tree.isDirectory slots.dir = true) (hc : checkText q = .ok ()) (halong : q.Along p)
    (hs : ¬ d.Sidesteps slots p p.steps) (hq : d.Sidesteps slots q q.steps) :
    d.isDirectory q = true := by
  obtain ⟨habs, front, k, hsteps, more, hmore⟩ := halong
  have hcheck : checkText p = .ok () := by
    cases hc : checkText p with
    | ok => rfl
    | error e => exact absurd (sidesteps_of_checkText hc _) hs
  have hgoes : ∀ fits steps, d.goes fits p steps = d.goes fits q steps := fun fits steps => by
    simp only [goes, start, hcheck, hc, habs]
  rw [Sidesteps, hgoes, hgoes, ← hmore] at hs
  rw [hsteps] at hq
  have hfront : d.Sidesteps slots q front :=
    Decidable.byContradiction fun hno => not_sidesteps_append h hno _ hq
  unfold Disk.isDirectory Disk.entry
  rw [place_eq_goes, hsteps]
  cases hw : d.goes (fun _ => true) q front with
  | error e =>
      refine absurd ?_ hs
      rw [goes_append_error (hfront.trans hw) more, goes_append_error hw more]
  | ok x =>
      cases hstart : d.start q front with
      | error e =>
          rw [goes, hstart] at hw
          cases hw
      | ok y =>
          cases y with
          | none =>
              rw [goes, start_append_none hstart k]
              rfl
          | some y =>
              obtain ⟨l, rest⟩ := y
              rw [Sidesteps, goes_of_start hstart, goes_of_start hstart] at hfront
              rw [goes_of_start (start_append_some hstart more),
                goes_of_start (start_append_some hstart more)] at hs
              obtain ⟨r, hr, hrdir⟩ := Tree.Slotted.isDirectory_of_append hdir (eq_of_lift hfront)
                fun he => hs (by rw [he])
              have hstay : ∀ links, d.tree.walkWithin (fun _ => true) links r
                  (List.replicate k .stay) = .ok r := fun links => by
                exact walkSteps_stay hrdir k
              rw [goes_of_start (start_append_some hstart _), Tree.walkWithin_append_eq hr hstay]
              exact isDirectory_entryAt hrdir

/-- Where a directory is there, making it and those above it changes nothing. -/
theorem makeChain_of_isDirectory (h : d.isDirectory p = true) (above : List Path) :
    (d.makeChain (p :: above)).2 = d := by
  have hmake : ∀ made, d.makeDirectory p ≠ .ok made := fun made hmade => by
    obtain ⟨name, dir, slash, hlast, hnone, _⟩ := create_cases hmade
    obtain ⟨hend, ⟨hc, rest, hsurface, hwalk⟩, _⟩ := resolveLast_eq_name_iff.1 hlast
    obtain ⟨_, k, hsteps, _⟩ := Path.steps_of_ending (Prod.ext rfl hend)
    have hstop : ∀ links, d.tree.walkWithin (fun _ => true) links dir
        (.down name :: List.replicate k .stay) = .error .noEntry := fun links => by
      simp [Tree.walkWithin_eq_walkSteps, Tree.walkSteps, hnone]
    have hstart : d.start p p.steps =
        .ok (some (d.origin p, rest ++ .down name :: List.replicate k .stay)) := by
      rw [hsteps]
      exact start_eq_some_iff.2 ⟨hc, surface_append_ok _ hsurface, rfl⟩
    unfold Disk.isDirectory Disk.entry at h
    rw [place_eq_goes, goes_of_start hstart, Tree.walkWithin_append_eq hwalk hstop] at h
    cases h
  have hensure : d.ensureDirectory p = (.ok (), d) := by
    cases hmade : d.makeDirectory p with
    | ok made => exact absurd hmade (hmake made)
    | error e => simp [ensureDirectory, hmade, h]
  rw [makeChain, hensure]
  split <;> rfl

theorem makeChain_of_checkText {e : Fault} (h : checkText p = .error e) (above : List Path) :
    (d.makeChain (p :: above)).2 = d := by
  have hmake : d.makeDirectory p = .error e := by
    simp [makeDirectory, create, resolveLast, start, h, Bind.bind, Except.bind]
  have hensure : d.ensureDirectory p = (.error e, d) := by
    simp [ensureDirectory, hmake, isDirectory, entry, place, start, h, Bind.bind, Except.bind]
  have hsome : p.text ≠ "" → e ≠ .system .noEntry := by
    rintro htext rfl
    simp only [checkText, htext, ↓reduceIte] at h
    split at h
    · cases h
    · split at h <;> cases h
  rw [makeChain, hensure]
  split
  · rfl
  · next htext => simp [hsome htext]

theorem makeChain_of_error {e : Fault} {above : List Path} (htext : p.text ≠ "")
    (h : d.ensureDirectory p = (.error e, d))
    (habove : e = .system .noEntry → (d.makeChain above).2 = d) :
    ∃ e, d.makeChain (p :: above) = (.error e, d) := by
  rw [makeChain, if_neg htext, h]
  dsimp only
  split
  · next hnone =>
    rcases hmore : d.makeChain above with ⟨r, d₁⟩
    obtain rfl : d₁ = d := by
      rw [← habove hnone, hmore]
    cases r with
    | error e' => exact ⟨e', rfl⟩
    | ok => exact ⟨e, h⟩
  · exact ⟨e, rfl⟩

theorem text_ne_of_not_sidesteps {steps : List Step} (hs : ¬ d.Sidesteps slots p steps) :
    p.text ≠ "" := by
  intro htext
  have hc : checkText p = .error (.system .noEntry) := by
    simp [checkText, Path.fits, htext]
  exact hs (sidesteps_of_checkText hc steps)

/-- What is made for the first of the paths, or before it, is not in the slots either. -/
theorem Spares.ensureDirectory {above : List Path} (htext : p.text ≠ "")
    (h : Spares slots d (d.makeChain (p :: above)).2) :
    Spares slots d (d.ensureDirectory p).2 := by
  rcases hensure : d.ensureDirectory p with ⟨r, made⟩
  cases r with
  | error e =>
      cases ensureDirectory_error hensure
      exact fun _ _ => rfl
  | ok =>
      rw [makeChain, if_neg htext, hensure] at h
      exact h

theorem Spares.makeChain {above : List Path} (htext : p.text ≠ "")
    (hensure : d.ensureDirectory p = (.error (.system .noEntry), d))
    (h : Spares slots d (d.makeChain (p :: above)).2) : Spares slots d (d.makeChain above).2 := by
  rw [Disk.makeChain, if_neg htext, hensure] at h
  dsimp only at h
  rw [if_pos rfl] at h
  have hgrows := d.makeChain_grows above
  rcases hmore : d.makeChain above with ⟨r, d₁⟩
  rw [hmore] at h hgrows
  cases r with
  | error e => exact h
  | ok => exact h.of_grows hgrows (d₁.ensureDirectory_grows p)

/-- Directories are not made on the way past a slot: either the slot is one of them, or
nothing is done. -/
theorem makeChain_of_bars (h : d.tree.Slotted slots) (hdir : d.tree.isDirectory slots.dir = true)
    {above : List Path} (hchain : (p :: above).Pairwise fun p q => q = ⟨""⟩ ∨ q.Along p)
    (hs : ¬ d.Sidesteps slots p p.steps)
    (hspares : Spares slots d (d.makeChain (p :: above)).2) :
    ∃ e, d.makeChain (p :: above) = (.error e, d) := by
  have htext := text_ne_of_not_sidesteps hs
  obtain ⟨e, he⟩ := ensureDirectory_of_bars h hs (hspares.ensureDirectory htext)
  refine makeChain_of_error htext he fun hnone => ?_
  subst hnone
  have hspares' := hspares.makeChain htext he
  clear hspares he
  induction above generalizing p with
  | nil => rfl
  | cons q above ih =>
      obtain ⟨hp, hchain'⟩ := List.pairwise_cons.1 hchain
      rcases hp q List.mem_cons_self with rfl | halong
      · simp [makeChain]
      · cases hc : checkText q with
        | error x => exact makeChain_of_checkText hc above
        | ok =>
            by_cases hq : d.Sidesteps slots q q.steps
            · exact makeChain_of_isDirectory (isDirectory_of_along h hdir hc halong hs hq) above
            · have htext' := text_ne_of_not_sidesteps hq
              obtain ⟨e, he⟩ := ensureDirectory_of_bars h hq (hspares'.ensureDirectory htext')
              obtain ⟨e', he'⟩ := makeChain_of_error htext' he fun hnone =>
                ih hchain' hq htext' ((hnone ▸ hspares'.makeChain htext') he)
              rw [he']

theorem Twins.ensureDirectory (h : Twins slots d d') (hs : d.Sidesteps slots p p.steps) :
    (d'.ensureDirectory p).1 = (d.ensureDirectory p).1 ∧
      Twins slots (d.ensureDirectory p).2 (d'.ensureDirectory p).2 := by
  have hmake := h.create hs (.directory newDirectoryMode)
  unfold Disk.ensureDirectory makeDirectory
  rw [h.isDirectory p]
  rcases hmake.cases with ⟨e, hd, hd'⟩ | ⟨made, made', hd, hd', htwins⟩
  · rw [hd, hd']
    dsimp only
    split <;> exact ⟨rfl, h⟩
  · rw [hd, hd']
    exact ⟨rfl, htwins⟩

theorem Spares.trans_left {d₁ : Disk} (h : Spares slots d d') (h₁ : Spares slots d d₁) :
    Spares slots d₁ d' :=
  fun name hname => (h name hname).trans (h₁ name hname).symm

/-- The last of the directories, once those above it are there. -/
theorem Twins.ensureDirectory_of_spares (h : Twins slots d d')
    (hs : Spares slots d (d.ensureDirectory p).2) (hs' : Spares slots d' (d'.ensureDirectory p).2) :
    ((d'.ensureDirectory p).1 = .ok () ↔ (d.ensureDirectory p).1 = .ok ()) ∧
      Twins slots (d.ensureDirectory p).2 (d'.ensureDirectory p).2 := by
  by_cases hp : d.Sidesteps slots p p.steps
  · obtain ⟨hr, htwins⟩ := h.ensureDirectory hp
    exact ⟨by rw [hr], htwins⟩
  · obtain ⟨e, he⟩ := ensureDirectory_of_bars h.tree.slotted hp hs
    obtain ⟨e', he'⟩ := ensureDirectory_of_bars h.tree.slotted' (mt h.sidesteps_iff.1 hp) hs'
    rw [he, he']
    exact ⟨⟨nofun, nofun⟩, h⟩

/-- Unless a slot becomes a directory, the same directories are made. -/
theorem Twins.makeChain (h : Twins slots d d') (hdir : d.tree.isDirectory slots.dir = true)
    {paths : List Path} (hchain : paths.Pairwise fun p q => q = ⟨""⟩ ∨ q.Along p)
    (hs : Spares slots d (d.makeChain paths).2) (hs' : Spares slots d' (d'.makeChain paths).2) :
    ((d'.makeChain paths).1 = .ok () ↔ (d.makeChain paths).1 = .ok ()) ∧
      Twins slots (d.makeChain paths).2 (d'.makeChain paths).2 := by
  induction paths with
  | nil => exact ⟨Iff.rfl, h⟩
  | cons p above ih =>
      by_cases htext : p.text = ""
      · simp [Disk.makeChain, htext, h]
      by_cases hp : d.Sidesteps slots p p.steps
      · obtain ⟨hr, htwins⟩ := h.ensureDirectory hp
        rcases hensure : d.ensureDirectory p with ⟨r, made⟩
        rcases hensure' : d'.ensureDirectory p with ⟨r', made'⟩
        rw [hensure, hensure'] at hr htwins
        cases hr
        cases r with
        | ok =>
            simp only [Disk.makeChain, if_neg htext, hensure, hensure']
            exact ⟨trivial, htwins⟩
        | error e =>
            cases ensureDirectory_error hensure
            cases ensureDirectory_error hensure'
            by_cases hnone : e = .system .noEntry
            · subst hnone
              -- those above come first, and then the last one is tried again
              have hs₁ := hs.makeChain htext hensure
              have hs₁' := hs'.makeChain htext hensure'
              obtain ⟨hok, htwins₁⟩ := ih (List.pairwise_cons.1 hchain).2 hs₁ hs₁'
              simp only [Disk.makeChain, if_neg htext, hensure, hensure', ↓reduceIte] at hs hs' ⊢
              rcases hmore : d.makeChain above with ⟨r₁, d₁⟩
              rcases hmore' : d'.makeChain above with ⟨r₁', d₁'⟩
              rw [hmore] at hs hs₁ hok htwins₁
              rw [hmore'] at hs' hs₁' hok htwins₁
              cases r₁ with
              | error f =>
                  cases r₁' with
                  | error f' => exact ⟨by simp, htwins₁⟩
                  | ok => cases hok.1 rfl
              | ok =>
                  cases r₁' with
                  | error f' => cases hok.2 rfl
                  | ok =>
                      exact htwins₁.ensureDirectory_of_spares (hs.trans_left hs₁)
                        (hs'.trans_left hs₁')
            · simp only [Disk.makeChain, if_neg htext, hensure, hensure', if_neg hnone]
              exact ⟨trivial, h⟩
      · obtain ⟨e, he⟩ := makeChain_of_bars h.tree.slotted hdir hchain hp hs
        obtain ⟨e', he'⟩ := makeChain_of_bars h.tree.slotted' ((h.tree.isDirectory _).trans hdir)
          hchain (mt h.sidesteps_iff.1 hp) hs'
        rw [he, he']
        exact ⟨by simp, h⟩

end Make
end Disk
end PointsTo
