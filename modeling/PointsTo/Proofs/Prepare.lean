import PointsTo.Proofs.Ancestors
import PointsTo.Proofs.Runner
import PointsTo.Proofs.Sweep
import PointsTo.Proofs.Wipe

/-!
The first stage. It reads nothing but the disk, so it does the same whenever it is
run on that disk. What the working directory does not cover stays, and new
directories are all that is added.
-/

namespace PointsTo

namespace Run

variable {α β : Type}

/-- A step that depends on the disk and the calls alone. -/
def Steady (x : Run α) : Prop :=
  ∀ w w', w.Alike w' → (x w').1 = (x w).1 ∧ (x w).2.Alike (x w').2

theorem Steady.bind {x : Run α} {f : α → Run β} (hx : Steady x) (hf : ∀ a, Steady (f a)) :
    Steady (x >>= f) := by
  intro w w' h
  obtain ⟨hr, hw⟩ := hx w w' h
  rw [Attempt.bind_apply, Attempt.bind_apply]
  rcases hxw : x w with ⟨r, w₁⟩
  rcases hxw' : x w' with ⟨r', w₁'⟩
  rw [hxw, hxw'] at hr hw
  cases hr
  cases r with
  | error e => exact ⟨rfl, hw⟩
  | ok a => exact hf a _ _ hw

theorem steady_pure (a : α) : Steady (pure a) :=
  fun _ _ h => ⟨rfl, h⟩

theorem steady_fail (e : Failure) : Steady (Attempt.fail e : Run α) :=
  fun _ _ h => ⟨rfl, h⟩

theorem steady_tell (source : Log.Source) (level : Log.Level) (message : String)
    (fields : List Log.Field) : Steady (tell source level message fields) :=
  fun _ _ h => ⟨rfl, h.disk, h.calls⟩

theorem steady_lookAtDisk (f : Disk → Except Failure α) : Steady (lookAtDisk f) :=
  fun _ _ h => ⟨congrArg f h.disk, h⟩

theorem steady_viewDisk (f : Disk → α) : Steady (Attempt.view fun w => f w.disk) :=
  fun _ _ h => ⟨congrArg (fun d => Except.ok (f d)) h.disk, h⟩

theorem steady_onDisk (x : Attempt Disk α) : Steady (onDisk x) := by
  intro w w' h
  unfold onDisk
  rw [h.disk]
  exact ⟨rfl, rfl, h.calls⟩

/-- Such a step leads where it is seen to lead. -/
theorem Steady.leads {x : Run α} (hx : Steady x) {w w' w₁ : World} {e : Option Failure}
    {r : Except Failure α} (h : x.Leads w e w') (hrun : x w = (r, w₁)) :
    failure? r = e ∧ w₁.Alike w' := by
  obtain ⟨w₀, w₂, r₂, hw, hr, hw', he⟩ := h
  obtain ⟨hsame, halike⟩ := hx w w₀ hw
  rw [hrun, hr] at hsame halike
  cases hsame
  exact ⟨he, halike.trans hw'⟩

end Run

namespace Disk

variable {d d' : Disk} {p : Path}

/-- A way down leads out of every directory that is gone, or nowhere. -/
theorem surface_down {lost left : Nat} {before after rest : List Path.Step} {name : String} :
    surface lost (before ++ .down name :: after) ≠ .ok (left + 1, rest) := by
  induction before generalizing lost with
  | nil => cases lost <;> simp [surface]
  | cons step before ih =>
      cases lost with
      | zero => simp
      | succ lost =>
          cases step with
          | stay | up => exact ih
          | down name => simp [surface]

/-- A path that does not end in a directory that is gone. -/
def Places (d : Disk) (p : Path) : Prop :=
  d.start p p.steps ≠ .ok none

theorem places_of_sunk (hs : d.sunk p = 0) : d.Places p :=
  fun hnone => sunk_ne_zero hnone hs

theorem surface_of_start {steps : List Path.Step} (h : d.start p steps = .ok none) :
    checkText p = .ok () ∧ p.isAbsolute = false ∧
      ∃ left rest, surface d.lost steps = .ok (left + 1, rest) := by
  obtain ⟨_, hc, h⟩ := bind_eq_ok_iff.1 h
  split at h
  · cases h
  · next ha =>
    obtain ⟨⟨left, rest⟩, hsurface, h⟩ := bind_eq_ok_iff.1 h
    cases left with
    | zero => cases h
    | succ left => exact ⟨hc, by simpa using ha, left, rest, lift_eq_ok_iff.1 hsurface⟩

theorem places_of_name {name : String} {slash : Bool} (h : p.ending.2 = .name name slash) :
    d.Places p := by
  intro hnone
  obtain ⟨_, _, left, rest, hsurface⟩ := surface_of_start hnone
  obtain ⟨_, k, hsteps, _⟩ := Path.steps_of_ending (Prod.ext rfl h)
  exact surface_down (hsteps ▸ hsurface)

theorem Places.place_ne_none (h : d.Places p) : d.place p ≠ .ok none := by
  intro hnone
  obtain ⟨x, hx, hnone⟩ := bind_eq_ok_iff.1 hnone
  cases x with
  | none => exact h hx
  | some x =>
      obtain ⟨_, _, hsome⟩ := bind_eq_ok_iff.1 hnone
      cases hsome

theorem exists_surface_of_append {lost : Nat} {before after : List Path.Step}
    {x : Nat × List Path.Step} (h : surface lost (before ++ after) = .ok x) :
    ∃ y, surface lost before = .ok y := by
  cases hbefore : surface lost before with
  | ok y => exact ⟨y, rfl⟩
  | error e =>
      rw [surface_append, hbefore] at h
      cases h

theorem exists_start_ending {x : Option (Location × List Path.Step)}
    (h : d.start p p.steps = .ok x) : ∃ y, d.start p p.ending.1 = .ok y := by
  obtain ⟨after, hafter⟩ := p.ending_prefix
  obtain ⟨_, hc, h⟩ := bind_eq_ok_iff.1 h
  unfold start
  simp only [hc, Bind.bind, Except.bind]
  split at h
  · next habs => exact ⟨_, if_pos habs⟩
  · next habs =>
    obtain ⟨y, hy, _⟩ := bind_eq_ok_iff.1 h
    rw [lift_eq_ok_iff, ← hafter] at hy
    obtain ⟨⟨left, rest⟩, hfront⟩ := exists_surface_of_append hy
    rw [if_neg habs, hfront, lift_ok]
    cases left <;> exact ⟨_, rfl⟩

/-- On a way that can be followed the last segment is not missed. -/
theorem resolveLast_ne_noEntry {x : Option Location} (h : d.place p = .ok x)
    (hend : ∀ name slash, p.ending.2 ≠ .name name slash) :
    d.resolveLast p ≠ .error (.system .noEntry) := by
  obtain ⟨y, hy, h⟩ := bind_eq_ok_iff.1 h
  obtain ⟨z, hz⟩ := exists_start_ending hy
  cases z with
  | none =>
      cases hlast : p.ending.2 with
      | name name slash => exact absurd hlast (hend name slash)
      | root | here | up => simp [resolveLast, hz, hlast, Bind.bind, Except.bind]
  | some z =>
      obtain ⟨l, first⟩ := z
      obtain ⟨after, hafter⟩ := p.ending_prefix
      obtain ⟨hc, hfirst, rfl⟩ := start_eq_some_iff.1 hz
      have hall := surface_append_ok after hfirst
      rw [hafter] at hall
      cases hy.symm.trans (start_eq_some_iff.2 ⟨hc, hall, rfl⟩)
      obtain ⟨r, hw, _⟩ := bind_eq_ok_iff.1 h
      obtain ⟨mid, hmid, _⟩ := Tree.walkWithin_append (lift_eq_ok_iff.1 hw)
      unfold resolveLast
      rw [hz]
      simp only [Bind.bind, Except.bind, Tree.walkToLast, Tree.walk, hmid]
      intro h
      split at h <;> cases h

/-- A directory that its path leads to is not missed when it is to be removed. -/
theorem removeDirectory_ne_noEntry {x : Option Location} (h : d.place p = .ok x) :
    d.removeDirectory p ≠ .error (.system .noEntry) := by
  cases hend : p.ending.2 with
  | name name slash =>
      cases x with
      | none => exact absurd h (places_of_name hend).place_ne_none
      | some r =>
          obtain ⟨_, k, hsteps, _⟩ := Path.steps_of_ending (Prod.ext rfl hend)
          have hreach := place_eq_some_iff.1 h
          rw [hsteps] at hreach
          obtain ⟨mid, hmid, hw⟩ := hreach.split
          obtain ⟨e, hchild⟩ := Tree.exists_child_of_walkWithin hw
          have hlast := resolveLast_eq_name_iff.2 ⟨hend, hmid, (Tree.child?_eq_ok_iff.1 hchild).1⟩
          unfold removeDirectory
          rw [hlast]
          simp only [Bind.bind, Except.bind, hchild, lift_ok]
          cases e with
          | directory mode =>
              dsimp only
              split <;> exact nofun
          | file data mode | link target => exact nofun
  | root | here | up =>
      have hne := resolveLast_ne_noEntry h (by simp [hend])
      intro hremove
      unfold removeDirectory at hremove
      cases hlast : d.resolveLast p with
      | error e =>
          rw [hlast] at hremove hne
          cases hremove
          exact hne rfl
      | ok last =>
          obtain ⟨dir, last⟩ := last
          rw [hlast, eq_ending_of_resolveLast hlast, hend] at hremove
          cases hremove

theorem places_of_removeAll (h : d.removeAll p = (.ok (), d')) : d'.Places p := by
  obtain ⟨l, _, ⟨name, _, _, hend, _⟩ | ⟨_, ⟨name, slash, hend, _⟩ | ⟨hremove, rfl⟩⟩⟩ :=
    removeAll_ok h
  · exact places_of_name hend
  · exact places_of_name hend
  · exact fun hnone => removeDirectory_ne_noEntry (x := none) (by rw [place, hnone]; rfl) hremove

theorem Places.reaches (h : d.Places p) (hdir : d.isDirectory p = true) :
    ∃ dir, d.Reaches p p.steps dir ∧ d.tree.isDirectory dir = true := by
  unfold isDirectory at hdir
  split at hdir
  · next e he =>
    obtain ⟨x, hx, hat⟩ := bind_eq_ok_iff.1 he
    cases x with
    | none => exact absurd hx h.place_ne_none
    | some l =>
        refine ⟨l, place_eq_some_iff.1 hx, ?_⟩
        cases l with
        | nil => rfl
        | cons n above =>
            unfold entryAt at hat
            dsimp only [Tree.entry?] at hat
            split at hat
            · next hfind =>
              cases hat
              rw [Tree.isDirectory_eq_of_find hfind]
              exact hdir
            · cases hat
  · cases hdir

def Bare (d : Disk) (p : Path) : Prop :=
  ∃ dir, d.Reaches p p.steps dir ∧ d.tree.isDirectory dir = true ∧
    ∀ name, d.tree.find (name :: dir) = none

theorem ensureDirectory_cases (h : d.ensureDirectory p = (.ok (), d')) :
    d.makeDirectory p = .ok d' ∨ d' = d ∧ d.isDirectory p = true := by
  unfold ensureDirectory at h
  split at h
  · next made hm =>
    cases h
    exact Or.inl hm
  · split at h
    · next hdir =>
      cases h
      exact Or.inr ⟨rfl, hdir⟩
    · cases h

/-- A directory that is asked for is new and holds nothing, or it was there. -/
theorem ensureDirectory_ok (h : d.ensureDirectory p = (.ok (), d')) :
    d'.Bare p ∨ d' = d ∧ d.isDirectory p = true := by
  refine (ensureDirectory_cases h).imp_left fun hm => ?_
  obtain ⟨name, dir, slash, hlast, hc, _, rfl⟩ := create_cases hm
  obtain ⟨hdir, _, hnone⟩ := Tree.child?_eq_ok_iff.1 hc
  have hfind := find_put_new (e := .directory newDirectoryMode)
    (isName_of_ending hlast _ _ rfl) hdir hnone
  have hnew := (hfind (name :: dir)).trans (if_pos rfl)
  refine ⟨name :: dir, ((makeDirectory_grows hm).fresh hnone hnew).2,
    Tree.isDirectory_cons_iff.2 ⟨_, hnew⟩, fun inner => ?_⟩
  rw [hfind, if_neg (by simp)]
  exact Tree.find_eq_none_of_within (Tree.isDirectory_of_find_none hnone nofun)
    (Tree.inside_cons inner _).1 (by simp)

theorem Places.reaches_ensured (h : d.Places p) (hmade : d.ensureDirectory p = (.ok (), d')) :
    ∃ dir, d'.Reaches p p.steps dir ∧ d'.tree.isDirectory dir = true := by
  rcases ensureDirectory_ok hmade with ⟨dir, hreach, hdir, _⟩ | ⟨rfl, hdir⟩
  · exact ⟨dir, hreach, hdir⟩
  · exact h.reaches hdir

theorem makeChain_cons_ok {above : List Path} (h : d.makeChain (p :: above) = (.ok (), d')) :
    p.text = "" ∧ d' = d ∨ d.ensureDirectory p = (.ok (), d') ∨
      ∃ e made, d.ensureDirectory p = (.error e, d) ∧ d.makeChain above = (.ok (), made) ∧
        made.ensureDirectory p = (.ok (), d') := by
  rw [makeChain] at h
  split at h
  · next htext =>
    cases h
    exact Or.inl ⟨htext, rfl⟩
  · split at h
    · next made hfirst =>
      cases h
      exact Or.inr (Or.inl hfirst)
    · next e left hfirst =>
      obtain rfl : left = d := by
        unfold ensureDirectory at hfirst
        split at hfirst
        · cases hfirst
        · split at hfirst <;> cases hfirst
          rfl
      split at h
      · split at h
        · cases h
        · next made habove => exact Or.inr (Or.inr ⟨e, made, hfirst, habove, h⟩)
      · cases h

theorem Places.reaches_made (h : d.Places p) (htext : p.text ≠ "")
    (hmade : d.makeDirectories p = (.ok (), d')) :
    ∃ dir, d'.Reaches p p.steps dir ∧ d'.tree.isDirectory dir = true := by
  rcases makeChain_cons_ok hmade with ⟨hempty, _⟩ | hfirst | ⟨_, above, _, habove, hlast⟩
  · exact absurd hempty htext
  · exact h.reaches_ensured hfirst
  · have hgrows := d.makeChain_grows p.ancestors
    rw [habove] at hgrows
    refine Places.reaches_ensured (fun hnone => h ?_) hlast
    rw [← hnone, start, start, hgrows.cwd, hgrows.lost]

end Disk

namespace WorkDir

/-- A directory that has been cleaned was there, and is counted and removed, or was not
there. Then it is made. -/
theorem clean_ok {dir : Path} {d d' : Disk} {n : Nat} (h : clean dir d = (.ok n, d')) :
    ∃ cleared, (d.isPresent dir = false ∧ n = 0 ∧ cleared = d ∨
        countFiles d dir = .ok n ∧ d.removeAll dir = (.ok (), cleared)) ∧
      cleared.makeDirectories dir = (.ok (), d') := by
  have hpartly : ∀ {f : Disk → Except Fault Unit × Disk} {d d' : Disk} {a : Unit},
      Disk.changePartly dir f d = (.ok a, d') → f d = (.ok (), d') := fun {f d d' a} hf => by
    unfold Disk.changePartly at hf
    split at hf
    · next hok =>
      cases hf
      exact hok
    · cases hf
  have hmake : ∀ {removed : Nat} {d : Disk},
      (Disk.changePartly dir (·.makeDirectories dir) >>= fun _ => pure removed :
        Attempt Disk Nat) d = (.ok n, d') → removed = n ∧ d.makeDirectories dir = (.ok (), d') :=
    fun hmade => by
      obtain ⟨_, _, hmade, hpure⟩ := Attempt.bind_eq_ok_iff.1 hmade
      cases hpure
      exact ⟨rfl, hpartly hmade⟩
  obtain ⟨present, _, hview, h⟩ := Attempt.bind_eq_ok_iff.1 h
  cases hview
  split at h
  · obtain ⟨count, _, hlook, h⟩ := Attempt.bind_eq_ok_iff.1 h
    obtain ⟨hcount, rfl⟩ := Prod.mk.inj hlook
    obtain ⟨_, cleared, hremove, h⟩ := Attempt.bind_eq_ok_iff.1 h
    obtain ⟨rfl, hmade⟩ := hmake h
    exact ⟨cleared, Or.inr ⟨hcount, hpartly hremove⟩, hmade⟩
  · next hno =>
    obtain ⟨hzero, hmade⟩ := hmake h
    exact ⟨d, Or.inl ⟨by simpa using hno, hzero.symm, rfl⟩, hmade⟩

theorem clean_reaches {dir q : Path} {d d' : Disk} {n : Nat} (hseen : d.foresee dir = .ok q)
    (h : clean dir d = (.ok n, d')) :
    ∃ l, d'.Reaches dir dir.steps l ∧ d'.tree.isDirectory l = true := by
  obtain ⟨cleared, hcleared, hmade⟩ := clean_ok h
  have hplaces : cleared.Places dir := by
    rcases hcleared with ⟨_, _, rfl⟩ | ⟨_, hremove⟩
    · exact Disk.places_of_sunk (Disk.sunk_of_foresee hseen)
    · exact Disk.places_of_removeAll hremove
  exact hplaces.reaches_made (Disk.text_ne_of_foresee hseen) hmade

end WorkDir

namespace Stage

open Run

variable {mode : Mode} {host : Host} {s : Setup} {w w' : World} {r : Except Failure Outcome}

theorem steady_prepare (mode : Mode) (host : Host) (s : Setup) :
    Steady ((prepare mode).run host s) := by
  cases mode with
  | full =>
      refine Steady.bind (steady_lookAtDisk _) fun _ => ?_
      refine Steady.bind (steady_tell _ _ _ _) fun _ => ?_
      exact Steady.bind (steady_onDisk _) fun _ => steady_pure _
  | fast =>
      refine Steady.bind (steady_viewDisk (·.isDirectory s.workDir)) fun present => ?_
      cases present with
      | true => exact Steady.bind (steady_onDisk _) fun _ => steady_pure _
      | false => exact steady_fail _

theorem prepare_calls (h : (prepare mode).run host s w = (r, w')) : w'.calls = w.calls := by
  have hc : World.Chains fun w w' => w'.calls = w.calls :=
    ⟨fun _ h => h, fun _ _ _ h h' => h'.trans h⟩
  have hkeeps : ((prepare mode).run host s).Keeps fun w w' => w'.calls = w.calls := by
    cases mode with
    | full =>
        refine keeps_bind hc (keeps_lookAtDisk hc _) fun _ => ?_
        refine keeps_bind hc (keeps_tell hc _ _ _ _) fun _ => ?_
        exact keeps_bind hc (fun _ => rfl) fun _ => keeps_pure hc _
    | fast =>
        refine keeps_bind hc (keeps_view hc _) fun present => ?_
        cases present with
        | true => exact keeps_bind hc (fun _ => rfl) fun _ => keeps_pure hc _
        | false => exact keeps_fail hc _
  have hw := hkeeps w
  rwa [h] at hw

theorem prepareFull_ok {outcome : Outcome} (h : prepareFull s w = (.ok outcome, w')) :
    s.config.validate w.disk = .ok () ∧ ∃ n, WorkDir.clean s.workDir w.disk = (.ok n, w'.disk) := by
  obtain ⟨_, _, hlook, h₁⟩ := Attempt.bind_eq_ok_iff.1 h
  obtain ⟨hvalid, rfl⟩ := lookAtDisk_cases hlook
  obtain ⟨_, _, htell, h₂⟩ := Attempt.bind_eq_ok_iff.1 h₁
  obtain ⟨n, _, hclean, hpure⟩ := Attempt.bind_eq_ok_iff.1 h₂
  cases hpure
  exact ⟨hvalid, n, (tell_cases htell).2.1 ▸ (onDisk_cases hclean).1⟩

theorem prepareFast_cases (h : prepareFast s w = (r, w')) :
    w'.disk = w.disk ∨ ∃ r, WorkDir.clearTuples s.workDir w.disk = (r, w'.disk) := by
  rcases Attempt.bind_cases h with ⟨present, w₁, hview, h₁⟩ | ⟨e, hview, _⟩
  · obtain ⟨_, rfl⟩ := Prod.mk.inj hview
    cases present with
    | false =>
        cases h₁
        exact Or.inl rfl
    | true =>
        rcases Attempt.bind_cases h₁ with ⟨_, w₂, hclear, h₂⟩ | ⟨e, hclear, _⟩
        · cases h₂
          exact Or.inr ⟨_, (onDisk_cases hclear).1⟩
        · exact Or.inr ⟨_, (onDisk_cases hclear).1⟩
  · cases hview

/-- Outside the working directory only directories on the way to it are new. -/
theorem prepare_find (hvalid : s.config.validate w.disk = .ok ())
    (h : (prepare mode).run host s w = (r, w')) {l : Location} (hl : ¬ w.disk.Covers s.workDir l) :
    w'.disk.tree.find l = w.disk.tree.find l ∨
      w.disk.tree.find l = none ∧ w'.disk.tree.find l = some (.directory Disk.newDirectoryMode) ∧
        ∃ p ∈ s.workDir :: s.workDir.ancestors, w'.disk.resolve p = .ok l := by
  cases mode with
  | full =>
      obtain ⟨_, hclean⟩ := prepareFull_cases hvalid h
      cases hold : w.disk.tree.find l with
      | some e =>
          refine Or.inl (WorkDir.find_clean hclean hold fun _ own hown => ?_)
          cases hw : Tree.isWithin own l with
          | false => rfl
          | true => exact absurd (Disk.covers_of_isWithin hown hw hold) hl
      | none =>
          cases hnew : w'.disk.tree.find l with
          | none => exact Or.inl rfl
          | some e =>
              obtain ⟨rfl, hp⟩ := WorkDir.find_of_find_clean hclean hold hnew
              exact Or.inr ⟨rfl, rfl, hp⟩
  | fast =>
      rcases prepareFast_cases h with hd | ⟨_, hclear⟩
      · exact Or.inl (by rw [hd])
      · rcases WorkDir.clearTuples_cases hclear with hd | ⟨names, dir, hp, hswept, _⟩
        · exact Or.inl (by rw [hd])
        · refine Or.inl ((hswept.find l).resolve_right ?_)
          rintro ⟨_, n, _, rfl⟩
          exact hl (Or.inr ⟨dir, Disk.resolve_eq_ok_iff.2 hp, Tree.inside_cons n dir⟩)

/-- Links are not made. -/
theorem prepare_link (hvalid : s.config.validate w.disk = .ok ())
    (h : (prepare mode).run host s w = (r, w')) {l : Location} {target : Path}
    (ht : w'.disk.tree.find l = some (.link target)) :
    w.disk.tree.find l = some (.link target) := by
  cases mode with
  | full =>
      obtain ⟨_, hclean⟩ := prepareFull_cases hvalid h
      exact (WorkDir.find_clean_cases hclean ht).resolve_right fun hnew => nomatch hnew.1
  | fast =>
      rcases prepareFast_cases h with hd | ⟨_, hclear⟩
      · rwa [hd] at ht
      · rcases WorkDir.clearTuples_cases hclear with hd | ⟨names, dir, _, hswept, _⟩
        · rwa [hd] at ht
        · rcases hswept.find l with hl | ⟨hl, _⟩
          · rwa [hl] at ht
          · cases hl.symm.trans ht

/-- Once it is prepared, names can be looked up in the working directory. -/
theorem prepare_enters {outcome : Outcome} (hvalid : s.config.validate w.disk = .ok ())
    (h : (prepare mode).run host s w = (.ok outcome, w')) : ∃ dir, w'.disk.Enters s.workDir dir := by
  obtain ⟨_, _, _, hseen, _⟩ := RunConfig.foresee_of_validate hvalid
  cases mode with
  | full =>
      obtain ⟨_, _, hclean⟩ := prepareFull_ok h
      obtain ⟨dir, hreach, hdir⟩ := WorkDir.clean_reaches hseen hclean
      exact ⟨dir, hreach.enters hdir⟩
  | fast =>
      obtain ⟨present, _, hview, hpresent⟩ := Attempt.bind_eq_ok_iff.1 h
      cases hview
      split at hpresent
      · next hdir =>
        obtain ⟨dir, hreach, hdir⟩ :=
          (Disk.places_of_sunk (Disk.sunk_of_foresee hseen)).reaches hdir
        obtain ⟨_, _, hclear, hpure⟩ := Attempt.bind_eq_ok_iff.1 hpresent
        cases hpure
        rcases WorkDir.clearTuples_cases (onDisk_cases hclear).1 with hd | ⟨_, _, _, _, hways, _⟩
        · exact ⟨dir, hd ▸ hreach.enters hdir⟩
        · exact ⟨dir, hways.enters (hreach.enters hdir)⟩
      · cases hpresent

end Stage
end PointsTo
