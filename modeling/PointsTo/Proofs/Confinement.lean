import PointsTo.Plan
import PointsTo.Proofs.Engine
import PointsTo.Proofs.Prepare
import PointsTo.Proofs.Relocation

/-!
What a run does outside its working directory. Every stage looks the working
directory up by its path again, so the argument is about that path: as long as
nothing inside the directory is needed to get there, an engine that works inside it
cannot make the path lead elsewhere, and the stages change nothing outside.
-/

namespace PointsTo

instance decidableForallOk {ε α : Type} {P : α → Prop} [DecidablePred P] :
    (x : Except ε α) → Decidable (∀ a, x = .ok a → P a)
  | .ok a => decidable_of_iff (P a) ⟨fun h _ he => Except.ok.inj he ▸ h, fun h => h a rfl⟩
  | .error _ => isTrue nofun

/-- What holds of each call and those before it. -/
instance decidableForallCalls (calls : List EngineCall) (P : List EngineCall → EngineCall → Prop)
    [∀ past call, Decidable (P past call)] :
    Decidable (∀ past call, past ++ [call] <+: calls → P past call) :=
  decidable_of_iff (∀ i : Fin calls.length, P (calls.take i) (calls.get i)) <| by
    refine ⟨fun h past call hcalls => ?_, fun h i => h _ _ ?_⟩
    · obtain ⟨later, rfl⟩ := hcalls
      simpa using h ⟨past.length, by simp⟩
    · rw [List.get_eq_getElem, List.take_append_getElem]
      exact List.take_prefix _ _

def Engine.left (e : Engine) (past : List EngineCall) (call : EngineCall) : Disk :=
  (e.respond past call).finalDisk call

namespace Stage

def MapIn (dir l : Location) : Prop :=
  ∃ n, l = n :: dir ∧ mapStart.toList.isPrefixOf n.toList = true

instance (dir : Location) : DecidablePred (MapIn dir)
  | [] => isFalse fun ⟨_, h, _⟩ => nomatch h
  | n :: above => decidable_of_iff (above = dir ∧ mapStart.toList.isPrefixOf n.toList = true)
      ⟨fun ⟨h, hn⟩ => ⟨n, h ▸ rfl, hn⟩, fun ⟨_, h, hn⟩ => by cases h; exact ⟨rfl, hn⟩⟩

/-- Where the working directory is, once it has been prepared: if a directory was
there before, its path led there before, and neither it nor the run root is found
with the help of what is inside. -/
structure Settled (s : Setup) (d d' : Disk) (dir : Location) : Prop where
  leads : d'.resolve s.workDir = .ok dir
  directory : d'.tree.isDirectory dir = true
  own : d.tree.isDirectory dir = true → d.resolve s.workDir = .ok dir
  direct : ∀ p ∈ [s.root, s.workDir], ∀ l, d'.resolve p = .ok l → (d'.clear dir).resolve p = .ok l

instance (s : Setup) (d d' : Disk) (dir : Location) : Decidable (Settled s d d' dir) :=
  decidable_of_iff
    (d'.resolve s.workDir = .ok dir ∧ d'.tree.isDirectory dir = true ∧
      (d.tree.isDirectory dir = true → d.resolve s.workDir = .ok dir) ∧
      ∀ p ∈ [s.root, s.workDir], ∀ l, d'.resolve p = .ok l → (d'.clear dir).resolve p = .ok l)
    ⟨fun ⟨h₁, h₂, h₃, h₄⟩ => ⟨h₁, h₂, h₃, h₄⟩, fun ⟨h₁, h₂, h₃, h₄⟩ => ⟨h₁, h₂, h₃, h₄⟩⟩

structure Held (s : Setup) (dir : Location) (w : World) : Prop where
  work : (w.disk.clear dir).Enters s.workDir dir
  root : ∀ {src}, w.disk.Reaches s.root s.root.steps src → w.disk.tree.isDirectory src = true →
    (w.disk.clear dir).Enters s.root src
  called : w.calls ≠ [] →
    ∃ src, w.disk.Reaches s.root s.root.steps src ∧ w.disk.tree.isDirectory src = true
  plain : ∀ name ∈ programFiles, w.disk.NoLink s.workDir name

section Held

variable {s : Setup} {dir : Location} {w w' : World} {gone : Location → Prop}

theorem fits_programFiles : ∀ name ∈ programFiles, FitsDirectory name := by
  decide

theorem not_programFile_of_map {n : String} (h : mapStart.toList.isPrefixOf n.toList = true) :
    n ∉ programFiles := by
  have hno : ∀ name ∈ programFiles, mapStart.toList.isPrefixOf name.toList = false := by decide
  intro hn
  cases h.symm.trans (hno n hn)

theorem Held.enters (h : Held s dir w) : w.disk.Enters s.workDir dir :=
  (w.disk.clear_keepsWays dir).enters h.work

theorem Held.noLink (h : Held s dir w)
    (htouch : Disk.Touches dir programFiles gone w.disk w'.disk)
    (hgone : ∀ {l}, gone l → w.disk.tree.IsAside l) :
    ∀ name ∈ programFiles, w'.disk.NoLink s.workDir name := fun name hn =>
  htouch.noLink h.enters
    ((w'.disk.clear_keepsWays dir).enters (htouch.enters_clear hgone h.work))
    (fits_programFiles name hn) hn (h.plain name hn)

/-- The run root stays where it is, and where it is not it does not appear. -/
theorem Held.touch {reserved : List String} (h : Held s dir w)
    (htouch : Disk.Touches dir reserved gone w.disk w'.disk)
    (hgone : ∀ {l}, gone l → w.disk.tree.IsAside l)
    (hplain : ∀ name ∈ programFiles, w'.disk.NoLink s.workDir name)
    (hroot : (∃ src, w.disk.Reaches s.root s.root.steps src ∧ w.disk.tree.isDirectory src = true) ∨
      w'.disk.KeepsWays w.disk ∧ w'.calls = w.calls) : Held s dir w' := by
  have hwork := htouch.enters_clear hgone h.work
  -- where the root was it still is
  have hstays : ∀ {src}, w.disk.Reaches s.root s.root.steps src →
      w.disk.tree.isDirectory src = true → (w'.disk.clear dir).Enters s.root src ∧
        w'.disk.Reaches s.root s.root.steps src := fun hr hdir => by
    have hroot' := htouch.enters_clear hgone (h.root hr hdir)
    exact ⟨hroot', ((w'.disk.clear_keepsWays dir).enters hroot').reaches hr.1⟩
  rcases hroot with ⟨src, hsrc, hdir⟩ | ⟨hback, hcalls⟩
  · obtain ⟨hclear, hreach⟩ := hstays hsrc hdir
    refine ⟨hwork, fun hr _ => ?_, fun _ => ⟨src, hreach, ?_⟩, hplain⟩
    · cases hreach.unique hr
      exact hclear
    · exact (w'.disk.clear_keepsWays dir).directory hclear.1
  · refine ⟨hwork, fun hr hdir => ?_, fun hne => ?_, hplain⟩
    · have hlead := hback.leadsTo hdir
      exact (hstays (hr.of_leadsTo hlead) (hlead.tree.directory hdir)).1
    · obtain ⟨src, hsrc, hdir⟩ := h.called (hcalls ▸ hne)
      obtain ⟨hclear, hreach⟩ := hstays hsrc hdir
      exact ⟨src, hreach, (w'.disk.clear_keepsWays dir).directory hclear.1⟩

theorem held_of_settled {d : Disk} (hset : Settled s d w.disk dir) (hcalls : w.calls = [])
    (hlinks : ∀ name ∈ programFiles, d.NoLink s.workDir name)
    (hlink : ∀ {l target}, w.disk.tree.find l = some (.link target) →
      d.tree.find l = some (.link target)) : Held s dir w := by
  have hdirect : ∀ {p l}, p ∈ [s.root, s.workDir] → w.disk.Reaches p p.steps l →
      w.disk.tree.isDirectory l = true → (w.disk.clear dir).Enters p l := fun {p l} hp hr hdir =>
    (Disk.resolve_eq_ok_iff.1 (hset.direct p hp l (Disk.resolve_eq_ok_iff.2 hr))).enters_clear hdir
  have hreach := Disk.resolve_eq_ok_iff.1 hset.leads
  refine ⟨hdirect (by simp) hreach hset.directory, hdirect (by simp), fun h => absurd hcalls h,
    fun name hn => ?_⟩
  cases hc : Disk.checkText (s.workDir / name) with
  | error e => exact Disk.noLink_of_checkText hc
  | ok =>
      have hfits := fits_programFiles name hn
      refine Disk.noLink_of_find hfits (hreach.enters hset.directory) fun target ht => ?_
      -- a link that is there now was there before, in the same directory
      have hold := hlink ht
      have hdir := Tree.isDirectory_of_find hold
      have hbefore := (Disk.resolve_eq_ok_iff.1 (hset.own hdir)).enters hdir
      exact (hlinks name hn).find hfits hc hbefore target hold

end Held

/-- What has become of a location outside the working directory, since the run began
on the disk `d` and prepared `d'`. -/
inductive Fate (plan : Plan) (host : Host) (s : Setup) (d d' : Disk) (w : World) (l : Location) :
    Prop where
  | kept : w.disk.tree.find l = d.tree.find l → Fate plan host s d d' w l
  /-- A directory on the way to the working directory was missing. -/
  | made {p : Path} : p ∈ s.workDir :: s.workDir.ancestors → d'.resolve p = .ok l →
      d.tree.find l = none → w.disk.tree.find l = some (.directory Disk.newDirectoryMode) →
      Fate plan host s d d' w l
  /-- The engine wrote a map. -/
  | written {past : List EngineCall} {call : EngineCall} :
      past ++ [call] <+: w.calls → MapIn call.directory l →
      (host.engine.left past call).tree.HoldsFile l →
      (host.engine.left past call).tree.find l ≠ call.disk.tree.find l →
      w.disk.tree.find l = (host.engine.left past call).tree.find l → Fate plan host s d d' w l
  /-- A map, or a link to one, was moved to the working directory. -/
  | gathered {past : List EngineCall} {call : EngineCall} {n : String} {src dir : Location} :
      plan.mode = .full → past ++ [call] <+: w.calls → call.label = Setup.relationsLabel →
      (host.engine.left past call).resolve s.root = .ok src → l = n :: src → MapIn src l →
      (host.engine.left past call).isFile (s.root / n) = true →
      d'.resolve s.workDir = .ok dir →
      (WorkDir.moveFiles s.root mapStart s.workDir (host.engine.left past call)).2.tree.find
        (n :: dir) = (host.engine.left past call).tree.find l →
      w.disk.tree.find l = none → Fate plan host s d d' w l

section Fate

variable {plan : Plan} {host : Host} {s : Setup} {d d' : Disk} {u v w : World} {l dir : Location}
  {calls : List EngineCall}

theorem Fate.stays (h : Fate plan host s d d' u l) (hcalls : u.calls <+: v.calls)
    (hfind : v.disk.tree.find l = u.disk.tree.find l) : Fate plan host s d d' v l := by
  cases h with
  | kept h => exact .kept (hfind.trans h)
  | made hp hr hnone h => exact .made hp hr hnone (hfind.trans h)
  | written hu hmap hfile hne h =>
      exact .written (hu.trans hcalls) hmap hfile hne (hfind.trans h)
  | gathered hfull hu hlabel hroot hl hmap hfile hwork hmoved h =>
      exact .gathered hfull (hu.trans hcalls) hlabel hroot hl hmap hfile hwork hmoved
        (hfind.trans h)

/-- The engine calls, each confined to the working directory it finds and to maps in
the directory it runs in. -/
def EngineConfined (host : Host) (s : Setup) (calls : List EngineCall) : Prop :=
  ∀ past call dir, past ++ [call] <+: calls → call.disk.resolve s.workDir = .ok dir →
    Action.AllConfined dir (MapIn call.directory) call.directory.toPath call.disk
      (host.engine.respond past call).actions

instance (host : Host) (s : Setup) (calls : List EngineCall) :
    Decidable (EngineConfined host s calls) :=
  decidable_of_iff
    (∀ (past : List EngineCall) (call : EngineCall), past ++ [call] <+: calls →
      ∀ dir, call.disk.resolve s.workDir = .ok dir →
        Action.AllConfined dir (MapIn call.directory) call.directory.toPath call.disk
          (host.engine.respond past call).actions)
    ⟨fun h past call dir hp => h past call hp dir, fun h past call hp dir => h past call dir hp⟩

/-- No call leaves a link under the name of a program file in the working directory. -/
def MakesNoLinks (host : Host) (s : Setup) (calls : List EngineCall) : Prop :=
  ∀ past call, past ++ [call] <+: calls →
    ∀ name ∈ programFiles, (host.engine.left past call).NoLink s.workDir name

instance (host : Host) (s : Setup) (calls : List EngineCall) :
    Decidable (MakesNoLinks host s calls) :=
  inferInstanceAs (Decidable (∀ past call, past ++ [call] <+: calls → _))

def Stays (plan : Plan) (host : Host) (s : Setup) (d d' : Disk) (dir : Location)
    (calls : List EngineCall) (u v : World) : Prop :=
  u.calls <+: v.calls ∧ (v.calls <+: calls → Held s dir u → Held s dir v ∧
    ∀ l, ¬ Tree.Inside dir l → Fate plan host s d d' u l → Fate plan host s d d' v l)

theorem stays_chains : World.Chains (Stays plan host s d d' dir calls) where
  same := fun {u v} hdisk hcalls => by
    refine ⟨hcalls ▸ List.prefix_refl _, fun _ h => ⟨?_, fun l _ hl => ?_⟩⟩
    · exact ⟨hdisk ▸ h.work, hdisk ▸ h.root, hcalls ▸ hdisk ▸ h.called, hdisk ▸ h.plain⟩
    · exact hl.stays (hcalls ▸ List.prefix_refl _) (by rw [hdisk])
  trans := fun u v w huv hvw => by
    refine ⟨huv.1.trans hvw.1, fun hw hu => ?_⟩
    obtain ⟨hv, hfate⟩ := huv.2 (hvw.1.trans hw) hu
    obtain ⟨hw', hfate'⟩ := hvw.2 hw hv
    exact ⟨hw', fun l hin hl => hfate' l hin (hfate l hin hl)⟩

/-- A change of the disk that shows in the working directory alone. -/
theorem stays_of_touches {d₁ : Disk}
    (h : Held s dir u → Disk.Touches dir programFiles (fun _ => False) u.disk d₁ ∧
      (d₁.KeepsWays u.disk ∨ u.calls ≠ [])) :
    Stays plan host s d d' dir calls u (u.withDisk d₁) := by
  refine ⟨List.prefix_refl _, fun _ hu => ?_⟩
  obtain ⟨htouch, hroot⟩ := h hu
  refine ⟨hu.touch htouch False.elim (hu.noLink htouch False.elim) ?_, fun l hin hl => ?_⟩
  · rcases hroot with hback | hcalled
    · exact Or.inr ⟨hback, rfl⟩
    · exact Or.inl (hu.called hcalled)
  · exact hl.stays (List.prefix_refl _) (htouch.same hin not_false)

/-- The engine works in the directory and writes maps. -/
theorem stays_of_called {call : EngineCall} (hengine : EngineConfined host s calls)
    (hlinks : MakesNoLinks host s calls) (hwork : Disk.checkText s.workDir = .ok ())
    (hcalled : World.Called host u v call) (hroot : u.disk.resolve s.root = .ok call.directory) :
    Stays plan host s d d' dir calls u v := by
  have hlater : u.calls ++ [call] = v.calls := hcalled.calls.symm
  refine ⟨⟨[call], hlater⟩, fun hv hu => ?_⟩
  have hleads : call.disk.resolve s.workDir = .ok dir :=
    Disk.resolve_eq_ok_iff.2 (hcalled.disk ▸ hu.enters.reaches hwork)
  have hconfined := hengine u.calls call dir (hlater ▸ hv) hleads
  have hended : v.disk = host.engine.left u.calls call := hcalled.ended
  have htouch : Disk.Touches dir [] (fun l => MapIn call.directory l ∧ call.disk.tree.Takes l)
      call.disk (host.engine.left u.calls call) := hconfined.touches
  have hplain := hlinks u.calls call (hlater ▸ hv)
  rw [hcalled.disk, ← hended] at htouch
  refine ⟨hu.touch htouch (fun hgone => hgone.2.isAside) (hended ▸ hplain)
    (Or.inl ⟨_, Disk.resolve_eq_ok_iff.1 hroot, hcalled.directory⟩), fun l hin hl => ?_⟩
  by_cases hfind : (host.engine.left u.calls call).tree.find l = call.disk.tree.find l
  · exact hl.stays ⟨[call], hlater⟩ (by rw [hended, hfind, hcalled.disk])
  · obtain ⟨hmap, hfile⟩ := ((hconfined.find l).resolve_left hin).resolve_left hfind
    exact .written (hlater ▸ List.prefix_refl _) hmap hfile hfind (by rw [hended])

/-- The maps are moved from the run root to the directory. -/
theorem stays_of_gather {call : EngineCall} (hcalled : World.Called host u v call)
    (hlabel : call.label = Setup.relationsLabel) (hfull : plan.mode = .full)
    (hwork : d'.resolve s.workDir = .ok dir) :
    Stays plan host s d d' dir calls v
      (v.withDisk (WorkDir.moveFiles s.root mapStart s.workDir v.disk).2) := by
  refine ⟨List.prefix_refl _, fun hv h => ?_⟩
  have hended : v.disk = host.engine.left u.calls call := hcalled.ended
  rcases hmove : WorkDir.moveFiles s.root mapStart s.workDir v.disk with ⟨r, moved⟩
  have hroot : ∀ {src}, v.disk.Reaches s.root s.root.steps src →
      v.disk.tree.isDirectory src = true → ∀ names,
      (v.disk.without (v.disk.overwritten dir names)).Enters s.root src := fun hp hsrc _ =>
    Disk.enters_without_inside Disk.exists_of_mem_overwritten (h.root hp hsrc)
  rcases WorkDir.moveFiles_cases hmove hroot h.work with rfl | ⟨names, src, hsrc, hgather, hnames⟩
  · exact ⟨h, fun _ _ hl => hl⟩
  · have hfree : ∀ n ∈ names, n ∉ programFiles := fun n hn =>
      not_programFile_of_map (hnames n hn).2.2.1
    have haside : ∀ {l}, (∃ n ∈ names, l = n :: src) → v.disk.tree.IsAside l := by
      rintro l ⟨n, hn, rfl⟩
      exact (hnames n hn).2.2.2
    have htouch := hgather.touches hfree
    refine ⟨h.touch htouch haside (h.noLink htouch haside) (Or.inl (h.called ?_)),
      fun l hin hl => ?_⟩
    · rw [hcalled.calls]
      simp
    · rcases hgather.find l with hfind | ⟨n, hn, hl' | hl', hnone, hmoved⟩
      · exact hl.stays (List.prefix_refl _) hfind
      · obtain ⟨_, hfile, hstart, _⟩ := hnames n hn
        rw [hended] at hmove hsrc hfile hmoved
        refine .gathered hfull (hcalled.calls ▸ List.prefix_refl _) hlabel
          (Disk.resolve_eq_ok_iff.2 hsrc) hl' ⟨n, hl', hstart⟩ hfile hwork ?_ (hl' ▸ hnone)
        rw [hmove, hl', hmoved]
      · exact absurd (hl' ▸ Tree.inside_cons n dir) hin

theorem stays_respects (hengine : EngineConfined host s calls)
    (hlinks : MakesNoLinks host s calls) (hwork : d'.resolve s.workDir = .ok dir) :
    Respects host s (fun label => label = Setup.relationsLabel → plan.mode = .full)
      (Stays plan host s d d' dir calls) where
  toChains := stays_chains
  call := fun hcalled _ hroot =>
    stays_of_called hengine hlinks (Disk.resolve_eq_ok_iff.1 hwork).1 hcalled hroot
  write := fun {name} hn {w data d₁} hwrite => stays_of_touches fun h => by
    obtain ⟨htouch, hback⟩ := Disk.touches_write h.enters (fits_programFiles name hn)
      (h.plain name hn) hwrite
    exact ⟨htouch, Or.inl hback⟩
  unlink := fun {name} hn {w d₁} hunlink => stays_of_touches fun h => by
    obtain ⟨htouch, hback⟩ := Disk.touches_unlink h.enters (fits_programFiles name hn) hunlink
    exact ⟨htouch, Or.inl hback⟩
  domains := fun w contents draws => stays_of_touches fun h => by
    obtain ⟨htouch, hback⟩ := Disk.touches_writeAtomic h.enters (by decide)
      (Prod.eta (WorkDir.writeAtomic (s.workDir / Datalog.domainFile) contents draws w.disk)).symm
    exact ⟨htouch, Or.inl hback⟩
  gather := fun hcalled hlabel _ hfull => stays_of_gather hcalled hlabel (hfull rfl) hwork
  rename := fun w hcalls => stays_of_touches fun h =>
    ⟨renameFiles_touches (by decide) h.work (Prod.eta _).symm, Or.inr hcalls⟩

end Fate
end Stage

namespace Plan

open Stage Runner

variable {plan : Plan} {host : Host} {s : Setup} {d : Disk} {w w₁ : World}
  {r : Except Failure Completed} {r₁ : Except Failure Outcome} {l : Location}

theorem fate_of_prepare (hvalid : s.config.validate d = .ok ())
    (hprepare : (prepare plan.mode).run host s (.ofDisk d) = (r₁, w₁))
    (hcovers : ¬ d.Covers s.workDir l) (hdisk : w.disk = w₁.disk) :
    Fate plan host s d w₁.disk w l := by
  rcases prepare_find hvalid hprepare hcovers with hfind | ⟨hnone, hfind, p, hp, hl⟩
  · exact .kept (hdisk ▸ hfind)
  · exact .made hp hl hnone (hdisk ▸ hfind)

theorem fate_of_work {d' : Disk} {dir : Location} {u : World} {e : Option Failure}
    (hengine : EngineConfined host s w.calls) (hlinks : MakesNoLinks host s w.calls)
    (hwork : d'.resolve s.workDir = .ok dir) (hout : ¬ Tree.Inside dir l)
    (hdest : ∀ request ∈ plan.map, w.disk.destination (s.root.join request.dest) ≠ .ok l)
    (hheld : Held s dir u) (hfate : Fate plan host s d d' u l)
    (h : Ran host s (plan.workStages ++ plan.map.toList.map .naming) u e w) :
    Fate plan host s d d' w l := by
  have hrespects : Respects host s _ (Stays plan host s d d' dir w.calls) :=
    stays_respects hengine hlinks hwork
  have hmake : ∀ w₀, Stays plan host s d d' dir w.calls w₀
      (w₀.withDisk (w₀.disk.makeDirectories s.workDir).2) := fun w₀ => stays_of_touches fun h => by
    rw [Disk.makeDirectories_of_enters h.enters]
    exact ⟨.refl _ _ _ _, Or.inl (.refl _)⟩
  have hstages : ∀ {e v}, Ran host s plan.workStages u e v → v.calls <+: w.calls →
      Fate plan host s d d' v l := fun hran hcalls => by
    have hstays := keeps_workStages hrespects (fun _ h => h) (fun w₀ _ => hmake w₀) hran
    exact (hstays.2 hcalls hheld).2 l hout hfate
  rcases h.append with ⟨_, _, hran⟩ | ⟨v, hran, hlast⟩
  · exact hstages hran (List.prefix_refl _)
  · obtain ⟨hcalls, hnaming⟩ := naming_of_ran hlast
    refine (hstages hran (hcalls ▸ List.prefix_refl _)).stays (hcalls ▸ List.prefix_refl _) ?_
    rcases hnaming with hdisk | ⟨request, hmem, data, hwrite⟩
    · rw [hdisk]
    · obtain ⟨l', hl', hsame, _⟩ := Disk.destination_of_write hwrite
      exact hsame l fun h => hdest request hmem (h ▸ hl')

/-- A run leaves everything outside its working directory alone: a missing directory
on the way there may be made, the engine may write maps to the run root, and a full
run moves maps from there. This needs the path of the working directory to lead to
its own place, and not through its own inside, once the directory is prepared. No program
file in it may be a link, neither at first nor after any call. -/
theorem run_confined_to_workDir (hrun : plan.run host s (.ofDisk d) = (r, w))
    (hprepare : (prepare plan.mode).run host s (.ofDisk d) = (r₁, w₁))
    (hlinks : ∀ name ∈ programFiles, d.NoLink s.workDir name)
    (hsettled : ∀ outcome, r₁ = .ok outcome → ∃ dir, Settled s d w₁.disk dir)
    (hengine : EngineConfined host s w.calls) (hplain : MakesNoLinks host s w.calls)
    (hcovers : ¬ d.Covers s.workDir l)
    (hinside : ∀ dir, w₁.disk.resolve s.workDir = .ok dir → ¬ Tree.Inside dir l)
    (hdest : ∀ request ∈ plan.map, w.disk.destination (s.root.join request.dest) ≠ .ok l) :
    Fate plan host s d w₁.disk w l := by
  rcases run_cases hrun with ⟨_, _, _, rfl⟩ | ⟨hvalid, hran⟩
  · exact .kept rfl
  · rw [stages_eq_workStages] at hran
    generalize failure? r = e at hran
    have hsteady := steady_prepare plan.mode host s
    cases hran with
    | failed hstage =>
        exact fate_of_prepare hvalid hprepare hcovers (hsteady.leads hstage hprepare).2.disk
    | @passed _ _ _ u _ _ hstage hrest =>
        obtain ⟨hok, halike⟩ := hsteady.leads hstage hprepare
        cases r₁ with
        | error _ => cases hok
        | ok outcome =>
            obtain ⟨dir, hset⟩ := hsettled outcome rfl
            have hout := hinside dir hset.leads
            have hheld : Held s dir u := by
              refine held_of_settled (halike.disk ▸ hset)
                (halike.calls.trans (prepare_calls hprepare)) hlinks fun ht => ?_
              exact prepare_link hvalid hprepare (halike.disk ▸ ht)
            have hfate : Fate plan host s d w₁.disk u l :=
              fate_of_prepare hvalid hprepare hcovers halike.disk
            exact fate_of_work hengine hplain hset.leads hout hdest hheld hfate hrest

/-- A run root with an old map in it. The working directory is yet to be made. -/
def mappedStore : Disk :=
  .holding
    [(["java"], .file [] 0o755), (["run"], .directory 0o755),
      (["query.dtl", "run"], .file [1] 0o644), (["map_old", "run"], .file [2] 0o644)]

def mappedSetup : Setup :=
  .working ⟨"/run"⟩ ⟨"new/out"⟩

def mappedPlan : Plan :=
  ⟨"Main", .datalog ⟨"query.dtl"⟩, .full, some ⟨⟨"tuples"⟩, ⟨"names"⟩, ⟨"named"⟩⟩⟩

def mappingHost : Host :=
  .scripted []
    [⟨[.write ⟨"new/out/deep/relation"⟩ [3], .write ⟨"map_new"⟩ [4]], false, .code 0⟩,
      ⟨[.write ⟨"map_old"⟩ [5]], false, .code 0⟩]

theorem run_confined_to_missing_workDir :
    let w := (mappedPlan.run mappingHost mappedSetup (.ofDisk mappedStore)).2
    let d := ((prepare .full).run mappingHost mappedSetup (.ofDisk mappedStore)).2.disk
    (∀ name ∈ programFiles, mappedStore.NoLink mappedSetup.workDir name) ∧
    Settled mappedSetup mappedStore d ["out", "new", "run"] ∧
    EngineConfined mappingHost mappedSetup w.calls ∧ MakesNoLinks mappingHost mappedSetup w.calls ∧
    ∀ l ∈ [["query.dtl", "run"], ["map_old", "run"], ["map_new", "run"], ["new", "run"]],
      ¬ mappedStore.Covers mappedSetup.workDir l ∧
      (∀ dir, d.resolve mappedSetup.workDir = .ok dir → ¬ Tree.Inside dir l) ∧
      w.disk.destination (mappedSetup.root.join ⟨"named"⟩) ≠ .ok l ∧
      Fate mappedPlan mappingHost mappedSetup mappedStore d w l := by
  dsimp only
  obtain ⟨hlinks, hset, hengine, hplain, hdest, hlist⟩ :
      (∀ name ∈ programFiles, mappedStore.NoLink mappedSetup.workDir name) ∧
      Settled mappedSetup mappedStore
        ((prepare .full).run mappingHost mappedSetup (.ofDisk mappedStore)).2.disk
        ["out", "new", "run"] ∧
      EngineConfined mappingHost mappedSetup
        (mappedPlan.run mappingHost mappedSetup (.ofDisk mappedStore)).2.calls ∧
      MakesNoLinks mappingHost mappedSetup
        (mappedPlan.run mappingHost mappedSetup (.ofDisk mappedStore)).2.calls ∧
      (mappedPlan.run mappingHost mappedSetup (.ofDisk mappedStore)).2.disk.destination
        (mappedSetup.root.join ⟨"named"⟩) = .ok ["named", "run"] ∧
      ∀ l ∈ [["query.dtl", "run"], ["map_old", "run"], ["map_new", "run"], ["new", "run"]],
        ¬ mappedStore.Covers mappedSetup.workDir l ∧
        ¬ Tree.Inside ["out", "new", "run"] l ∧ ["named", "run"] ≠ l := by
    decide +kernel
  rcases hrun : mappedPlan.run mappingHost mappedSetup (.ofDisk mappedStore) with ⟨r, w⟩
  rcases hprepare : (prepare .full).run mappingHost mappedSetup (.ofDisk mappedStore) with ⟨r₁, w₁⟩
  rw [hrun] at hengine hplain hdest
  rw [hprepare] at hset
  refine ⟨hlinks, hset, hengine, hplain, fun l hl => ?_⟩
  obtain ⟨hcovers, hin, hne⟩ := hlist l hl
  have hinside : ∀ dir, w₁.disk.resolve mappedSetup.workDir = .ok dir → ¬ Tree.Inside dir l := by
    intro dir hdir
    cases hset.leads.symm.trans hdir
    exact hin
  have hdest' : w.disk.destination (mappedSetup.root.join ⟨"named"⟩) ≠ .ok l := by
    rw [hdest]
    exact fun h => hne (Except.ok.inj h)
  refine ⟨hcovers, hinside, hdest', ?_⟩
  refine run_confined_to_workDir hrun hprepare hlinks (fun _ _ => ⟨_, hset⟩) hengine hplain hcovers
    hinside ?_
  rintro request ⟨⟩
  exact hdest'

/-- A file outside the working directory that is no map is another one after a run, or
gone, though the engine is confined and no program file is a link at first. -/
def Strays (plan : Plan) (host : Host) (s : Setup) (d : Disk) (l : Location) : Prop :=
  let w := (plan.run host s (.ofDisk d)).2
  s.config.validate d = .ok () ∧ (∀ name ∈ programFiles, d.NoLink s.workDir name) ∧
    EngineConfined host s w.calls ∧ plan.map = none ∧ ¬ d.Covers s.workDir l ∧
    (∀ src, d.resolve s.root = .ok src → ¬ MapIn src l) ∧
    d.tree.HoldsFile l ∧ w.disk.tree.find l ≠ d.tree.find l

instance (plan : Plan) (host : Host) (s : Setup) (d : Disk) (l : Location) :
    Decidable (Strays plan host s d l) :=
  inferInstanceAs (Decidable (_ ∧ _))

/-- Wiping takes away the link that the path starts with. It then leads to `/l`. -/
def wipedWay : Disk :=
  .holding
    [(["java"], .file [] 0o755), (["run"], .directory 0o755), (["sub", "run"], .directory 0o755),
      (["deep", "sub", "run"], .directory 0o755), (["l", "run"], .link ⟨"sub/deep"⟩),
      (["l"], .directory 0o755), (["number.dtl", "l"], .file [1] 0o644),
      (["unmunged_method.map", "l"], .file [] 0o644), (["unmunged_name.map", "l"], .file [] 0o644)]

/-- The path goes through a link in the working directory, where the engine works. -/
def innerWay : Disk :=
  .holding
    [(["java"], .file [] 0o755), (["run"], .directory 0o755), (["results", "run"], .directory 0o755),
      (["deep", "results", "run"], .directory 0o755),
      (["er", "deep", "results", "run"], .directory 0o755),
      (["sub", "results", "run"], .link ⟨"deep/er"⟩), (["numbering.dtl", "run"], .file [1] 0o644)]

/-- The path of the run root goes through such a link, which wiping does not reach. -/
def innerRoot : Disk :=
  .holding
    [(["java"], .file [] 0o755), (["run"], .directory 0o755), (["sub", "run"], .directory 0o755),
      (["l", "sub", "run"], .directory 0o755), (["l", "run"], .link ⟨"sub/l"⟩),
      (["q", "sub", "run"], .link ⟨".."⟩), (["q", "run"], .link ⟨"sub"⟩),
      (["a", "run"], .directory 0o755), (["b", "a", "run"], .directory 0o755),
      (["x", "l", "sub", "run"], .link ⟨"../../a/b"⟩), (["v", "run"], .directory 0o755),
      (["v", "sub", "run"], .directory 0o755), (["map_z", "v", "sub", "run"], .file [1] 0o644)]

/-- Beside the working directory is a file, and no link anywhere. -/
def straightWay : Disk :=
  .holding
    [(["java"], .file [] 0o755), (["run"], .directory 0o755), (["results", "run"], .directory 0o755),
      (["kept", "run"], .file [1] 0o644)]

/-- The last engine makes a link under the name of a program that is written later. -/
theorem run_strays_where_ways_cross_workDir :
    Strays ⟨"Main", .datalog ⟨"query.dtl"⟩, .full, none⟩ (.scripted [] [])
      (.working ⟨"/run"⟩ ⟨"l/../../l"⟩) wipedWay ["number.dtl", "l"] ∧
    Strays ⟨"Main", .datalog ⟨"query.dtl"⟩, .fast, none⟩
      (.scripted [] [⟨[.remove ⟨"results/sub"⟩, .makeDirectory ⟨"results/sub"⟩], false, .code 0⟩])
      (.working ⟨"/run"⟩ ⟨"results/sub/../.."⟩) innerWay ["numbering.dtl", "run"] ∧
    Strays ⟨"Main", .datalog ⟨"query.dtl"⟩, .full, none⟩
      (.scripted [] [⟨[], false, .code 0⟩,
        ⟨[.remove ⟨"/run/sub/l/x"⟩, .makeDirectory ⟨"/run/sub/l/x"⟩], false, .code 0⟩])
      (.working ⟨"/run/sub/l/x/../../v"⟩ ⟨"/run/l/../q/l"⟩) innerRoot
      ["map_z", "v", "sub", "run"] ∧
    Strays ⟨"Main", .query ⟨"query.pql"⟩, .fast, none⟩
      (.scripted [] [⟨[.makeLink ⟨"results/pql_conv.dtl"⟩ ⟨"../kept"⟩], false, .code 0⟩])
      (.working ⟨"/run"⟩ ⟨"results"⟩) straightWay ["kept", "run"] := by
  decide +kernel

end Plan
end PointsTo
