import PointsTo.Proofs.Disk.Inside

/-!
Places for files directly in a directory, and two disks that are the same but for what
stands there. At such a place is nothing or a file, so a walk that comes to one ends
there. Every other walk goes the same way on both disks.
-/

namespace PointsTo

open PointsTo.Path (Step)

/-- Names in a directory under which files may stand. -/
structure Slots where
  dir : Location
  names : List String
  fits : ∀ name ∈ names, FitsDirectory name

namespace Slots

def has (slots : Slots) : Location → Bool
  | [] => false
  | name :: above => slots.names.contains name && above = slots.dir

variable {slots : Slots}

theorem has_cons_iff {name : String} {dir : Location} :
    slots.has (name :: dir) = true ↔ name ∈ slots.names ∧ dir = slots.dir := by
  simp [has]

/-- A walk that came to a slot: nothing was there, or a file that it did not get past. -/
def Bars (slots : Slots) : Except Errno Location → Prop
  | .ok l => slots.has l = true
  | .error e => e = .noEntry ∨ e = .notDirectory

/-- How two walks go on trees that differ in the slots, `x` on the one and `y` on the
other, and `x'` and `y'` where they stop at the first slot. -/
inductive Pairs (slots : Slots) (x y x' y' : Except Errno Location) : Prop where
  | same : y = x → x' = x → y' = x → (∀ l, x = .ok l → slots.has l = false) → Pairs slots x y x' y'
  | barred : slots.Bars x → slots.Bars y → x' = .error .nameTooLong → y' = .error .nameTooLong →
      Pairs slots x y x' y'

theorem Bars.ne {x : Except Errno Location} (h : slots.Bars x) : x ≠ .error .nameTooLong := by
  rintro rfl
  rcases h with h | h <;> cases h

theorem pairs_error (e : Errno) :
    slots.Pairs (.error e) (.error e) (.error e) (.error e) :=
  .same rfl rfl rfl nofun

end Slots

namespace Tree

def Slotted (t : Tree) (slots : Slots) : Prop :=
  ∀ l e, slots.has l = true → t.find l = some e → e.isFile = true

structure Twins (slots : Slots) (s t : Tree) : Prop where
  slotted : s.Slotted slots
  slotted' : t.Slotted slots
  same : ∀ {l}, slots.has l = false → t.find l = s.find l

section Slotted

variable {slots : Slots} {t : Tree} {l : Location}

theorem Slotted.isDirectory (h : t.Slotted slots) (hl : slots.has l = true) :
    t.isDirectory l = false := by
  cases l with
  | nil => cases hl
  | cons name dir =>
      rw [isDirectory_cons]
      cases he : t.find (name :: dir) with
      | none => rfl
      | some e =>
          have hfile := h _ e hl he
          cases e with
          | file data mode => rfl
          | directory mode | link target => cases hfile

theorem Slotted.has_eq_false (h : t.Slotted slots) (hl : t.isDirectory l = true) :
    slots.has l = false := by
  cases hhas : slots.has l with
  | false => rfl
  | true => simp [h.isDirectory hhas] at hl

theorem walkSteps_of_not_directory {fits : Location → Bool}
    {arrive : Location → Except Errno Location}
    {jump : Location → List Step → Except Errno Location} (hl : t.isDirectory l = false)
    (step : Step) (rest : List Step) (hfits : ∀ name, fits (name :: l) = true) :
    t.walkSteps fits arrive jump l (step :: rest) = .error .notDirectory := by
  cases step with
  | stay | up => simp [walkSteps, hl]
  | down name => simp [walkSteps, child?, hl, hfits]

/-- Nothing comes after a slot. -/
theorem Slotted.bars {name : String} {dir : Location} {arrive : Location → Except Errno Location}
    {jump : Location → List Step → Except Errno Location} (h : t.Slotted slots)
    (hhas : slots.has (name :: dir) = true) (hstop : slots.Bars (arrive (name :: dir)))
    (rest : List Step) :
    slots.Bars (t.walkSteps (fun _ => true) arrive jump dir (.down name :: rest)) := by
  simp only [walkSteps, if_neg (Bool.noConfusion : ¬ true = false)]
  cases hdir : t.isDirectory dir with
  | false =>
      simp only [child?, hdir, ↓reduceIte]
      exact Or.inr rfl
  | true =>
      have hshort := (slots.fits name (Slots.has_cons_iff.1 hhas).1).2
      rw [child?_eq_ok_iff.2 ⟨hdir, hshort, rfl⟩]
      cases he : t.find (name :: dir) with
      | none => exact Or.inl rfl
      | some e =>
          have hfile := h _ e hhas he
          cases e with
          | directory mode | link target => cases hfile
          | file data mode =>
              cases rest with
              | nil => exact hstop
              | cons step rest =>
                  dsimp only
                  rw [walkSteps_of_not_directory (h.isDirectory hhas) step rest fun _ => rfl]
                  exact Or.inr rfl

end Slotted

namespace Twins

variable {slots : Slots} {s t : Tree} {l : Location}

theorem refl (h : t.Slotted slots) : Twins slots t t :=
  ⟨h, h, fun _ => rfl⟩

theorem symm (h : Twins slots s t) : Twins slots t s :=
  ⟨h.slotted', h.slotted, fun hl => (h.same hl).symm⟩

theorem isDirectory (h : Twins slots s t) (l : Location) : t.isDirectory l = s.isDirectory l := by
  cases hhas : slots.has l with
  | false => exact isDirectory_congr (h.same hhas)
  | true => rw [h.slotted.isDirectory hhas, h.slotted'.isDirectory hhas]

theorem child? (h : Twins slots s t) {name : String} {dir : Location}
    (hhas : slots.has (name :: dir) = false) : t.child? dir name = s.child? dir name := by
  rw [Tree.child?, Tree.child?, h.isDirectory, h.same hhas]

theorem nearest (h : Twins slots s t) (l : Location) : t.nearest l = s.nearest l := by
  induction l with
  | nil => rfl
  | cons name above ih => rw [Tree.nearest, Tree.nearest, h.isDirectory, ih]

/-- Without a directory for the slots, nothing differs. -/
theorem eq (h : Twins slots s t) (hdir : s.isDirectory slots.dir = false) : t = s := by
  have hnone : ∀ {u : Tree} {l : Location}, u.isDirectory slots.dir = false →
      slots.has l = true → u.find l = none := fun {u l} hu hl => by
    cases l with
    | nil => cases hl
    | cons name dir =>
        cases he : u.find (name :: dir) with
        | none => rfl
        | some e => simp [← (Slots.has_cons_iff.1 hl).2, isDirectory_of_find he] at hu
  refine ext_find fun l => ?_
  cases hhas : slots.has l with
  | false => exact h.same hhas
  | true => rw [hnone hdir hhas, hnone ((h.isDirectory _).trans hdir) hhas]

theorem keep (h : Twins slots s t)
    (keeps : Location → Bool) (hkeeps : ∀ n d, keeps (n :: d) = true → keeps d = true) :
    Twins slots (s.keep keeps hkeeps) (t.keep keeps hkeeps) := by
  have hslotted : ∀ {u : Tree}, u.Slotted slots → (u.keep keeps hkeeps).Slotted slots :=
    fun hu k e hk he => by
      rw [Tree.find_keep] at he
      split at he
      · exact hu k e hk he
      · cases he
  refine ⟨hslotted h.slotted, hslotted h.slotted', fun {k} hk => ?_⟩
  rw [Tree.find_keep, Tree.find_keep, h.same hk]

section Walks

variable {arrive arrive' halt halt' : Location → Except Errno Location}
  {jump jump' past past' : Location → List Step → Except Errno Location}

/-- The one induction along the moves, for each number of links and each end. -/
theorem walkSteps (h : Twins slots s t)
    (hstop : ∀ {l}, slots.has l = false →
      slots.Pairs (arrive l) (arrive' l) (halt l) (halt' l))
    (hbars : ∀ {l}, slots.has l = true → slots.Bars (arrive l) ∧ slots.Bars (arrive' l))
    (hjump : ∀ {l}, slots.has l = false → ∀ steps,
      slots.Pairs (jump l steps) (jump' l steps) (past l steps) (past' l steps))
    (hl : slots.has l = false) (steps : List Step) :
    slots.Pairs (s.walkSteps (fun _ => true) arrive jump l steps)
      (t.walkSteps (fun _ => true) arrive' jump' l steps)
      (s.walkSteps (fun l => !slots.has l) halt past l steps)
      (t.walkSteps (fun l => !slots.has l) halt' past' l steps) := by
  induction steps generalizing l with
  | nil => exact hstop hl
  | cons step rest ih =>
      cases step with
      | stay =>
          simp only [Tree.walkSteps, h.isDirectory]
          split
          · exact ih hl
          · exact Slots.pairs_error _
      | up =>
          simp only [Tree.walkSteps, h.isDirectory]
          split
          · next hdir => exact ih (h.slotted.has_eq_false (isDirectory_tail hdir))
          · exact Slots.pairs_error _
      | down name =>
          cases hhas : slots.has (name :: l) with
          | true =>
              obtain ⟨hx, hy⟩ := hbars hhas
              refine .barred (h.slotted.bars hhas hx rest) (h.slotted'.bars hhas hy rest) ?_ ?_ <;>
                simp [Tree.walkSteps, hhas]
          | false =>
              simp only [Tree.walkSteps, h.child? hhas, hhas, Bool.not_false, Bool.true_eq_false,
                ↓reduceIte]
              cases hchild : s.child? l name with
              | error e => exact Slots.pairs_error e
              | ok x =>
                  cases x with
                  | none => exact Slots.pairs_error _
                  | some e =>
                      cases e with
                      | link target =>
                          refine hjump (h.slotted.has_eq_false ?_) _
                          exact isDirectory_linkStart target (child?_eq_ok_iff.1 hchild).1
                      | file data mode | directory mode => exact ih hhas

end Walks

section Links

variable {α : Type} {arrive arrive' halt halt' : (Location → List Step → α →
  Except Errno Location) → α → Location → Except Errno Location}

theorem walkLinks (h : Twins slots s t)
    (hstop : ∀ {jump jump' past past' : Location → List Step → α → Except Errno Location},
      (∀ {l}, slots.has l = false → ∀ steps last, slots.Pairs (jump l steps last)
        (jump' l steps last) (past l steps last) (past' l steps last)) →
      ∀ last {l}, slots.has l = false → slots.Pairs (arrive jump last l) (arrive' jump' last l)
        (halt past last l) (halt' past' last l))
    (hbars : ∀ jump last {l}, slots.has l = true →
      slots.Bars (arrive jump last l) ∧ slots.Bars (arrive' jump last l))
    (hl : slots.has l = false) (links : Nat) (steps : List Step) (last : α) :
    slots.Pairs (s.walkLinks (fun _ => true) arrive links l steps last)
      (t.walkLinks (fun _ => true) arrive' links l steps last)
      (s.walkLinks (fun l => !slots.has l) halt links l steps last)
      (t.walkLinks (fun l => !slots.has l) halt' links l steps last) := by
  induction links generalizing l steps last with
  | zero => exact Slots.pairs_error _
  | succ links ih =>
      exact h.walkSteps (hstop ih last)
        (fun hl => ⟨(hbars _ last hl).1, (hbars _ last hl).2⟩) (fun hl steps => ih hl steps last)
        hl steps

end Links

theorem walkWithin (h : Twins slots s t) (hl : slots.has l = false) (links : Nat)
    (steps : List Step) :
    slots.Pairs (s.walkWithin (fun _ => true) links l steps)
      (t.walkWithin (fun _ => true) links l steps)
      (s.walkWithin (fun l => !slots.has l) links l steps)
      (t.walkWithin (fun l => !slots.has l) links l steps) := by
  refine h.walkLinks (fun _ _ l hl => ?_) (fun _ _ l hl => ?_) hl (links + 1) steps ()
  · exact .same rfl rfl rfl fun _ he => Except.ok.inj he ▸ hl
  · exact ⟨hl, hl⟩

end Twins

section Append

variable {slots : Slots} {t : Tree} {fits : Location → Bool} {l dir : Location} {links : Nat}
  {before : List Step}

/-- A walk that came to a slot is not taken any further. -/
theorem Slotted.bars_append (h : t.Slotted slots)
    (hbars : slots.Bars (t.walkWithin (fun _ => true) links l before)) (after : List Step) :
    slots.Bars (t.walkWithin (fun _ => true) links l (before ++ after)) := by
  cases hw : t.walkWithin (fun _ => true) links l before with
  | error e =>
      rw [hw] at hbars
      rw [walkWithin_append_error hw after]
      exact hbars
  | ok r =>
      rw [hw] at hbars
      cases after with
      | nil =>
          rw [List.append_nil, hw]
          exact hbars
      | cons step rest =>
          rw [walkWithin_append_eq hw fun links =>
            walkSteps_of_not_directory (h.isDirectory hbars) step rest fun _ => rfl]
          exact Or.inr rfl

/-- The walk that comes to a directory and from there to a slot. -/
theorem Slotted.bars_down {name : String} (h : t.Slotted slots)
    (hw : t.walkWithin (fun _ => true) links l before = .ok dir)
    (hhas : slots.has (name :: dir) = true) (rest : List Step) :
    slots.Bars (t.walkWithin (fun _ => true) links l (before ++ .down name :: rest)) := by
  refine walkWithin_append_imp slots.Bars hw fun links => ?_
  rw [walkWithin_eq_walkSteps]
  refine h.bars hhas ?_ rest
  exact hhas

/-- The way from the root down to a directory, unless a name on it is too long. -/
theorem walk_down (hl : t.isDirectory l = true) :
    ∃ x, (x = .ok l ∨ x = .error .nameTooLong) ∧ ∀ fits links,
      (∀ k, t.isDirectory k = true → fits k = true) →
      t.walkWithin fits links [] (l.reverse.map .down) = x := by
  induction l with
  | nil => exact ⟨.ok [], Or.inl rfl, fun fits links _ => by cases links <;> rfl⟩
  | cons name above ih =>
      have habove : t.isDirectory above = true := isDirectory_tail hl
      obtain ⟨x, hx, hwalk⟩ := ih habove
      simp only [List.reverse_cons, List.map_append, List.map_cons, List.map_nil]
      rcases hx with rfl | rfl
      · obtain ⟨mode, hmode⟩ := isDirectory_cons_iff.1 hl
        by_cases hshort : name.utf8ByteSize ≤ maxNameBytes
        · refine ⟨.ok (name :: above), Or.inl rfl, fun fits links hfits => ?_⟩
          refine walkWithin_append_eq (hwalk fits links hfits) fun links => ?_
          have hchild := child?_eq_ok_iff.2 ⟨habove, hshort, hmode⟩
          simp [walkWithin_eq_walkSteps, walkSteps, hfits _ hl, hchild]
        · refine ⟨.error .nameTooLong, Or.inr rfl, fun fits links hfits => ?_⟩
          refine walkWithin_append_eq (hwalk fits links hfits) fun links => ?_
          have hchild : t.child? above name = .error .nameTooLong := by
            simp [child?, habove]
            omega
          simp [walkWithin_eq_walkSteps, walkSteps, hfits _ hl, hchild]
      · exact ⟨.error .nameTooLong, Or.inr rfl, fun fits links hfits =>
          walkWithin_append_error (hwalk fits links hfits) _⟩

/-- If the slots bar a walk only further on, then what it came to before is a directory. -/
theorem Slotted.isDirectory_of_append (hdir : t.isDirectory slots.dir = true)
    {more : List Step}
    (hsame : t.walkWithin (fun l => !slots.has l) links l before =
      t.walkWithin (fun _ => true) links l before)
    (hne : t.walkWithin (fun l => !slots.has l) links l (before ++ more) ≠
      t.walkWithin (fun _ => true) links l (before ++ more)) :
    ∃ r, t.walkWithin (fun _ => true) links l before = .ok r ∧ t.isDirectory r = true := by
  cases hw : t.walkWithin (fun _ => true) links l before with
  | error e =>
      rw [walkWithin_append_error hw more, walkWithin_append_error (hsame.trans hw) more] at hne
      exact absurd rfl hne
  | ok r =>
      refine ⟨r, rfl, ?_⟩
      cases hr : t.isDirectory r with
      | true => rfl
      | false =>
          cases more with
          | nil =>
              rw [List.append_nil] at hne
              exact absurd hsame hne
          | cons step rest =>
              have hfits : ∀ name, slots.has (name :: r) = false := fun name => by
                cases hhas : slots.has (name :: r) with
                | false => rfl
                | true => simp [(Slots.has_cons_iff.1 hhas).2, hdir] at hr
              have hstop : ∀ fits, (∀ name, fits (name :: r) = true) → ∀ links,
                  t.walkWithin fits links r (step :: rest) = .error .notDirectory :=
                fun fits hfits links => walkSteps_of_not_directory hr step rest hfits
              refine absurd ?_ hne
              rw [walkWithin_append_eq hw (hstop _ fun _ => rfl),
                walkWithin_append_eq (hsame.trans hw) (hstop _ fun name => by simp [hfits])]

/-- A move down to what is no link, and stays. -/
theorem walkSteps_last {name : String} (k : Nat)
    (hlink : ∀ target, t.find (name :: dir) ≠ some (.link target)) :
    ∃ x, ∀ fits jump, fits (name :: dir) = true →
      t.walkSteps fits .ok jump dir (.down name :: List.replicate k .stay) = x := by
  have hstay : ∃ x, ∀ fits jump,
      t.walkSteps fits .ok jump (name :: dir) (List.replicate k .stay) = x := by
    induction k with
    | zero => exact ⟨.ok (name :: dir), fun _ _ => rfl⟩
    | succ k ih =>
        obtain ⟨x, hx⟩ := ih
        refine ⟨if t.isDirectory (name :: dir) then x else .error .notDirectory, fun fits jump => ?_⟩
        rw [List.replicate_succ, walkSteps, hx]
  obtain ⟨x, hx⟩ := hstay
  refine ⟨t.child? dir name >>= fun e => e.elim (.error .noEntry) fun _ => x,
    fun fits jump hfits => ?_⟩
  rw [walkSteps, if_neg (by simp [hfits])]
  cases hchild : t.child? dir name with
  | error e => rfl
  | ok e =>
      cases e with
      | none => rfl
      | some e =>
          cases e with
          | link target => exact absurd (child?_eq_ok_iff.1 hchild).2.2 (hlink target)
          | file data mode | directory mode => exact hx _ _

end Append
end Tree

namespace Disk

/-- Where moves from the start of a path lead, if they keep to places that fit. From a
directory that is gone they may lead nowhere. -/
def goes (d : Disk) (fits : Location → Bool) (p : Path) (steps : List Step) :
    Except Fault (Option Location) := do
  match ← d.start p steps with
  | none => .ok none
  | some (l, rest) => .ok (some (← lift (d.tree.walkWithin fits Tree.maxLinks l rest)))

/-- The moves do not come to any of the slots: they lead where they would lead if they
stopped there. -/
def Sidesteps (d : Disk) (slots : Slots) (p : Path) (steps : List Step) : Prop :=
  d.goes (fun l => !slots.has l) p steps = d.goes (fun _ => true) p steps

instance (d : Disk) (slots : Slots) (p : Path) (steps : List Step) :
    Decidable (d.Sidesteps slots p steps) :=
  inferInstanceAs (Decidable (_ = _))

structure Twins (slots : Slots) (d d' : Disk) : Prop where
  tree : d.tree.Twins slots d'.tree
  cwd : d'.cwd = d.cwd
  lost : d'.lost = d.lost

/-- Moves that came to a slot. -/
def Bars (slots : Slots) : Except Fault (Option Location) → Prop
  | .ok (some l) => slots.has l = true
  | .ok none => False
  | .error e => e = .system .noEntry ∨ e = .system .notDirectory

section Goes

variable {slots : Slots} {d d' : Disk} {p : Path} {steps before : List Step} {l : Location}

theorem place_eq_goes (d : Disk) (p : Path) : d.place p = d.goes (fun _ => true) p p.steps := rfl

theorem resolveLast_eq_goes (d : Disk) (p : Path) :
    d.resolveLast p = d.goes (fun _ => true) p p.ending.1 >>= fun x =>
      match x, p.ending.2 with
      | some dir, last =>
        if d.tree.isDirectory dir then .ok (dir, last) else .error (.system .notDirectory)
      | none, .name .. => .error (.system .noEntry)
      | none, last => .ok (d.cwd, last) := by
  unfold resolveLast goes
  cases hs : d.start p p.ending.1 with
  | error e => rfl
  | ok x =>
      cases x with
      | none => cases p.ending.2 <;> rfl
      | some x =>
          obtain ⟨l, rest⟩ := x
          simp only [Bind.bind, Except.bind, Tree.walkToLast, Tree.walk]
          cases hw : d.tree.walkWithin (fun _ => true) Tree.maxLinks l rest with
          | error e => simp [lift_error]
          | ok dir =>
              cases hdir : d.tree.isDirectory dir <;> simp [lift_ok, lift_error, hdir]

theorem goes_of_start {fits : Location → Bool} {rest : List Step}
    (h : d.start p steps = .ok (some (l, rest))) :
    d.goes fits p steps =
      (lift (d.tree.walkWithin fits Tree.maxLinks l rest)).map some := by
  unfold goes
  rw [h]
  simp only [Bind.bind, Except.bind]
  cases lift (d.tree.walkWithin fits Tree.maxLinks l rest) <;> rfl

theorem bars_lift {x : Except Errno Location} (h : slots.Bars x) :
    Bars slots ((lift x).map some) := by
  cases x with
  | ok l => exact h
  | error e => exact h.imp (congrArg _) (congrArg _)

theorem eq_of_lift {x y : Except Errno Location} (h : (lift x).map some = (lift y).map some) :
    x = y := by
  cases x <;> cases y <;> simp_all [lift_ok, lift_error, Except.map]

/-- A walk that was stopped before a slot is told from one that came to it. -/
theorem lift_ne_of_bars {x : Except Errno Location} (h : slots.Bars x) :
    (lift (.error .nameTooLong)).map some ≠ (lift x).map some :=
  fun he => h.ne (eq_of_lift he).symm

theorem has_start {rest : List Step} (h : d.tree.Slotted slots)
    (hs : d.start p steps = .ok (some (l, rest))) : slots.has l = false := by
  obtain ⟨_, _, rfl⟩ := start_eq_some_iff.1 hs
  exact h.has_eq_false (d.isDirectory_origin p)

theorem Twins.refl (h : d.tree.Slotted slots) : Twins slots d d :=
  ⟨.refl h, rfl, rfl⟩

theorem Twins.symm (h : Twins slots d d') : Twins slots d' d :=
  ⟨h.tree.symm, h.cwd.symm, h.lost.symm⟩

theorem Twins.start (h : Twins slots d d') (p : Path) (steps : List Step) :
    d'.start p steps = d.start p steps := by
  unfold Disk.start
  rw [h.cwd, h.lost]

/-- Moves lead to the same place on both disks, or come to a slot on both. -/
theorem Twins.goes_cases (h : Twins slots d d') (p : Path) (steps : List Step) :
    (d'.goes (fun _ => true) p steps = d.goes (fun _ => true) p steps ∧
      d.Sidesteps slots p steps ∧ d'.Sidesteps slots p steps ∧
      ∀ l, d.goes (fun _ => true) p steps = .ok (some l) → slots.has l = false) ∨
    (Bars slots (d.goes (fun _ => true) p steps) ∧ Bars slots (d'.goes (fun _ => true) p steps) ∧
      ¬ d.Sidesteps slots p steps ∧ ¬ d'.Sidesteps slots p steps) := by
  have hstart := h.start p steps
  unfold Sidesteps
  cases hs : d.start p steps with
  | error e => left; simp [goes, hstart, hs, Bind.bind, Except.bind]
  | ok x =>
      cases x with
      | none => left; simp [goes, hstart, hs, Bind.bind, Except.bind]
      | some x =>
          obtain ⟨l, rest⟩ := x
          rw [hs] at hstart
          simp only [goes_of_start hs, goes_of_start hstart]
          rcases h.tree.walkWithin (has_start h.tree.slotted hs) Tree.maxLinks rest with
            ⟨hy, hx', hy', hfree⟩ | ⟨hx, hy, hx', hy'⟩
          · left
            rw [hy, hx', hy']
            refine ⟨rfl, rfl, rfl, fun r hr => hfree r ?_⟩
            cases hw : d.tree.walkWithin (fun _ => true) Tree.maxLinks l rest with
            | error e => simp [hw, lift_error, Except.map] at hr
            | ok r' =>
                rw [hw] at hr
                cases hr
                rfl
          · right
            rw [hx', hy']
            exact ⟨bars_lift hx, bars_lift hy, lift_ne_of_bars hx, lift_ne_of_bars hy⟩

theorem Twins.sidesteps_iff (h : Twins slots d d') :
    d'.Sidesteps slots p steps ↔ d.Sidesteps slots p steps := by
  rcases h.goes_cases p steps with ⟨_, hs, hs', _⟩ | ⟨_, _, hs, hs'⟩
  · exact ⟨fun _ => hs, fun _ => hs'⟩
  · exact ⟨fun h => absurd h hs', fun h => absurd h hs⟩

theorem Twins.goes (h : Twins slots d d') (hs : d.Sidesteps slots p steps) :
    d'.goes (fun _ => true) p steps = d.goes (fun _ => true) p steps ∧
      ∀ l, d.goes (fun _ => true) p steps = .ok (some l) → slots.has l = false := by
  rcases h.goes_cases p steps with ⟨hgoes, _, _, hfree⟩ | ⟨_, _, hno, _⟩
  · exact ⟨hgoes, hfree⟩
  · exact absurd hs hno

theorem bars_of_not_sidesteps (h : d.tree.Slotted slots) (hs : ¬ d.Sidesteps slots p steps) :
    Bars slots (d.goes (fun _ => true) p steps) := by
  rcases (Twins.refl h).goes_cases p steps with ⟨_, hyes, _⟩ | ⟨hbars, _⟩
  · exact absurd hyes hs
  · exact hbars

end Goes
end Disk
end PointsTo
