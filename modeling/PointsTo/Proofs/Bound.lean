import PointsTo.Proofs.Disk.Beside
import PointsTo.Proofs.Lists
import PointsTo.Proofs.PathCount
import PointsTo.Proofs.Runner
import PointsTo.Proofs.Text

/-!
The context bound that the numbering run sees. What the probe printed decides what
becomes of the domain file, and nothing that happens before the numbering call
changes it once more.
-/

namespace PointsTo

namespace Domains

theorem patch_of_contextLines {text : String} (bound : UInt64) (h : contextLines text = 0) :
    patch bound text = text := by
  have hsame : patchChars bound text.toList = text.toList := by
    have hlines : (Text.linePieces text.toList).map (patchLine bound) =
        Text.linePieces text.toList := by
      refine (List.map_congr_left fun piece hpiece => ?_).trans (List.map_id _)
      have hnot : isContextLine piece = false := by
        simpa using List.countP_eq_zero.1 h piece hpiece
      simp [patchLine, hnot]
    rw [patchChars, List.flatMap_def, hlines, Text.flatten_linePieces]
  rw [patch, hsame, String.ofList_toList]

end Domains

namespace Disk

theorem read_of_readText {d : Disk} {p : Path} {text : String} (h : d.readText p = .ok text) :
    d.read p = .ok (Text.encode text) := by
  obtain ⟨data, hdata, h⟩ := bind_eq_ok_iff.1 h
  split at h
  · next hdecode =>
    cases h
    rw [hdata, Text.encode_of_decode? hdecode]
  · cases h

theorem Beside.of_released {d : Disk} {p : Path} {name : String} (hn : FitsDirectory name)
    (hl : d.NoLink p name) (cleanup : Bool) : d.Beside (d.released (p / name) cleanup) p name := by
  unfold released attempt
  split
  · split
    · next hu => exact .of_unlink hn hl hu
    · exact Or.inl rfl
  · exact Or.inl rfl

end Disk

namespace Stage

variable {host : Host} {s : Setup} {w w' : World} {e : Option Failure}

/-- What becomes of the disk, and how the stage ends, once the probe has printed a
count or not. -/
inductive Settles (domains : Path) (d : Disk) :
    Except Failure PathCount → Option Failure → Disk → Prop where
  | bound {e : Failure} : Settles domains d (.error e) (some e) d
  | absent : Settles domains d (.ok .absent) none d
  | unreadable {n : UInt64} {x : Fault} : d.readText domains = .error x →
      Settles domains d (.ok (.found n)) (some (.disk domains x)) d
  | patched {n : UInt64} {text : String} {e : Option Failure} {d' : Disk}
      (draws : List TemporaryName) : d.readText domains = .ok text →
      (e = none → d' = d ∧ Domains.patch n text = text ∨
        WorkDir.writeAtomic domains (Text.encode (Domains.patch n text)) draws d = (.ok (), d')) →
      Settles domains d (.ok (.found n)) e d'

theorem patchDomainFile_cases {domains : Path} {n : UInt64} {draws : List TemporaryName}
    {r : Except Failure Nat} (h : patchDomainFile domains n draws w = (r, w')) :
    w'.calls = w.calls ∧ Settles domains w.disk (.ok (.found n)) (failure? r) w'.disk := by
  rcases Attempt.bind_cases h with ⟨text, w₁, hlook, h₁⟩ | ⟨e, hlook, rfl⟩
  · obtain ⟨htext, rfl⟩ := Run.lookAtDisk_cases hlook
    have hread := mapError_eq_ok_iff.1 htext
    dsimp only at h₁
    split at h₁
    · next hnone =>
      rcases Attempt.bind_cases h₁ with ⟨_, w₂, htell, h₂⟩ | ⟨e, htell, _⟩
      · cases h₂
        obtain ⟨_, hdisk, hcalls⟩ := Run.tell_cases htell
        refine ⟨hcalls, .patched draws hread fun _ => Or.inl ⟨hdisk, ?_⟩⟩
        exact Domains.patch_of_contextLines n hnone
      · cases (Run.tell_cases htell).1
    · rcases Attempt.bind_cases h₁ with ⟨_, w₂, hwrite, h₂⟩ | ⟨e, hwrite, rfl⟩
      · cases h₂
        obtain ⟨hatomic, hcalls⟩ := Run.onDisk_cases hwrite
        exact ⟨hcalls, .patched draws hread fun _ => Or.inr hatomic⟩
      · exact ⟨(Run.onDisk_cases hwrite).2, .patched draws hread nofun⟩
  · obtain ⟨htext, rfl⟩ := Run.lookAtDisk_cases hlook
    refine ⟨rfl, ?_⟩
    cases hr : w'.disk.readText domains with
    | error x =>
        rw [hr] at htext
        cases htext
        exact .unreadable hr
    | ok text => simp [hr, mapError_ok] at htext

theorem applyCount_cases {counted : PathCount} {r : Except Failure String}
    (h : applyCount host s counted w = (r, w')) :
    w'.calls = w.calls ∧
      Settles (s.workDir / Datalog.domainFile) w.disk (.ok counted) (failure? r) w'.disk := by
  cases counted with
  | absent =>
      rcases Attempt.bind_cases h with ⟨_, w₁, htell, h₁⟩ | ⟨e, htell, _⟩
      · cases h₁
        obtain ⟨_, hdisk, hcalls⟩ := Run.tell_cases htell
        rw [hdisk]
        exact ⟨hcalls, .absent⟩
      · cases (Run.tell_cases htell).1
  | found n =>
      rcases Attempt.bind_cases h with ⟨_, w₁, htell, h₁⟩ | ⟨e, htell, _⟩
      · obtain ⟨_, hdisk, hcalls⟩ := Run.tell_cases htell
        rw [← hdisk, ← hcalls]
        rcases Attempt.bind_cases h₁ with ⟨_, w₂, hpatch, h₂⟩ | ⟨e, hpatch, rfl⟩
        · cases h₂
          have hsettles := patchDomainFile_cases hpatch
          exact hsettles
        · exact patchDomainFile_cases hpatch
      · cases (Run.tell_cases htell).1

/-- The count stage fails before the probe, or runs it; and if the probe ends in
time, its output settles the rest. -/
theorem count_cases (h : (count.run host s).Leads w e w') :
    (e ≠ none ∧ w'.calls = w.calls) ∨
    ∃ probe, w'.calls = w.calls ++ [probe] ∧
      (s.config.timeLimit = none ∨ (host.engine.respond w.calls probe).late = false →
        Settles (s.workDir / Datalog.domainFile)
          (((host.engine.respond w.calls probe).finalDisk probe).released
            (s.workDir / probeFile) s.config.cleanup)
          (PathCount.scan (Text.lossyChars (host.engine.respond w.calls probe).printed)) e
          w'.disk) := by
  obtain ⟨w₀, w₁, r, hw, hr, hw', rfl⟩ := h
  rw [hw'.calls, hw'.disk, ← hw.calls]
  rcases Attempt.bind_cases hr with ⟨f, w₂, hsolve, h₂⟩ | ⟨x, hsolve, rfl⟩
  · rcases solveText_cases hsolve with ⟨⟨x, hx⟩, _⟩ | ⟨written, _, ⟨⟨x, hx⟩, _⟩ | ⟨probe, hprobe⟩⟩
    · cases hx
    · cases hx
    · obtain ⟨_, _, _, hcalls, hdisk, hf | ⟨_, _, x, hx⟩⟩ := hprobe
      · cases hf
        refine Or.inr ⟨probe, ?_⟩
        rw [← Response.output_merge]
        rcases Attempt.bind_cases h₂ with ⟨counted, w₃, hcounted, h₃⟩ | ⟨x, hcounted, rfl⟩
        · obtain ⟨hscan, rfl⟩ := Attempt.ofExcept_cases hcounted
          have hsettles : w₁.calls = w₃.calls ∧ Settles (s.workDir / Datalog.domainFile) w₃.disk
              (.ok counted) (failure? r) w₁.disk := by
            rcases Attempt.bind_cases h₃ with ⟨_, w₄, happly, h₄⟩ | ⟨x, happly, rfl⟩
            · cases h₄
              have hsettles := applyCount_cases happly
              exact hsettles
            · exact applyCount_cases happly
          rw [← hdisk, hscan]
          exact ⟨hsettles.1.trans hcalls, fun _ => hsettles.2⟩
        · obtain ⟨hscan, rfl⟩ := Attempt.ofExcept_cases hcounted
          rw [← hdisk, hscan]
          exact ⟨hcalls, fun _ => .bound⟩
      · cases hx
  · rcases solveText_cases hsolve with ⟨_, _, hcalls⟩ | ⟨written, _, ⟨_, hcalls, _⟩ | ⟨probe, hprobe⟩⟩
    · exact Or.inl ⟨nofun, hcalls⟩
    · exact Or.inl ⟨nofun, hcalls⟩
    · obtain ⟨_, _, _, hcalls, _, hf | ⟨hlimit, hlate, _⟩⟩ := hprobe
      · cases hf
      · refine Or.inr ⟨probe, hcalls, fun htime => ?_⟩
        rcases htime with htime | htime
        · exact absurd htime hlimit
        · simp [hlate] at htime

/-- The numbering stage fails before its call, or makes it with the program file
written and nothing else changed. -/
theorem number_cases (h : (number.run host s).Leads w e w') :
    (e ≠ none ∧ w'.calls = w.calls) ∨
    ∃ call, w'.calls = w.calls ++ [call] ∧ call.label = numberLabel ∧
      ∃ data, w.disk.write (s.workDir / numberingFile) data = .ok call.disk := by
  obtain ⟨w₀, w₁, r, hw, hr, hw', rfl⟩ := h
  rw [hw'.calls, ← hw.calls, ← hw.disk]
  have hcall : ∀ {r : Except Failure Finished} {w₂ : World} {text : String},
      solveText host s numberLabel numberingFile text .merge w₀ = (r, w₂) →
      (failure? r ≠ none ∧ w₂.calls = w₀.calls) ∨
      ∃ call, w₂.calls = w₀.calls ++ [call] ∧ call.label = numberLabel ∧
        ∃ data, w₀.disk.write (s.workDir / numberingFile) data = .ok call.disk := by
    intro r w₂ text h
    rcases solveText_cases h with ⟨⟨x, rfl⟩, _, hcalls⟩ | ⟨written, hwrite, hcall⟩
    · exact Or.inl ⟨nofun, hcalls⟩
    · rcases hcall with ⟨⟨x, rfl⟩, hcalls, _⟩ | ⟨call, hdisk, hlabel, _, hcalls, _⟩
      · exact Or.inl ⟨nofun, hcalls⟩
      · exact Or.inr ⟨call, hcalls, hlabel, _, hdisk ▸ hwrite⟩
  rcases Attempt.bind_cases hr with ⟨f, w₂, hsolve, h₂⟩ | ⟨x, hsolve, rfl⟩
  · have hcalls : w₁.calls = w₂.calls := by
      rcases Attempt.bind_cases h₂ with ⟨_, w₃, hexit, h₃⟩ | ⟨x, hexit, _⟩
      · cases h₃
        exact (checkExit_cases hexit).2
      · exact (checkExit_cases hexit).2
    rw [hcalls]
    exact (hcall hsolve).imp_left fun h => absurd rfl h.1
  · exact hcall hsolve

theorem adds_withDisk (P : EngineCall → Prop) (w : World) (d : Disk) :
    World.Adds P w (w.withDisk d) :=
  ⟨[], (List.append_nil w.calls).symm, nofun⟩

theorem keeps_onDisk_adds {α : Type} (P : EngineCall → Prop) (x : Attempt Disk α) :
    (Run.onDisk x).Keeps (World.Adds P) :=
  fun w => adds_withDisk P w _

theorem adds_respects (host : Host) (s : Setup) (P : String → Prop) :
    Respects host s P (World.Adds fun c => P c.label) where
  toChains := World.adds_chains _
  call := fun hcalled hP _ => ⟨_, hcalled.calls, by simpa using hP⟩
  write := fun _ _ _ _ _ => adds_withDisk _ _ _
  unlink := fun _ _ _ _ => adds_withDisk _ _ _
  domains := fun w _ _ => adds_withDisk _ w _
  gather := fun {_ w _} _ _ _ _ => adds_withDisk _ w _
  rename := fun w _ => adds_withDisk _ w _

theorem keeps_prepare_adds (mode : Mode) (P : EngineCall → Prop) :
    ((prepare mode).run host s).Keeps (World.Adds P) := by
  have hc := World.adds_chains P
  cases mode with
  | full =>
      refine Run.keeps_bind hc (Run.keeps_lookAtDisk hc _) fun _ => ?_
      refine Run.keeps_bind hc (Run.keeps_tell hc _ _ _ _) fun _ => ?_
      exact Run.keeps_bind hc (keeps_onDisk_adds P _) fun _ => Run.keeps_pure hc _
  | fast =>
      refine Run.keeps_bind hc (Run.keeps_view hc _) fun present => ?_
      cases present with
      | true => exact Run.keeps_bind hc (keeps_onDisk_adds P _) fun _ => Run.keeps_pure hc _
      | false => exact Run.keeps_fail hc _

end Stage

namespace Plan

open Stage Runner

variable {plan : Plan} {host : Host} {s : Setup} {w w' : World} {e : Option Failure}

def firstStages (p : Plan) : List Stage :=
  .prepare p.mode :: if p.mode = .full then [.relations p.entryPoint] else []

def lastStages (p : Plan) : List Stage :=
  p.analysisStage :: p.map.toList.map .naming

theorem stages_eq (p : Plan) :
    p.stages = p.firstStages ++ .count :: .number :: p.lastStages := by
  simp [stages, firstStages, lastStages]

theorem keeps_firstStages : ∀ stage ∈ plan.firstStages,
    (stage.run host s).Keeps (World.Adds (·.label ≠ countLabel)) := by
  have hR := adds_respects host s (· ≠ countLabel)
  intro stage hstage
  unfold firstStages at hstage
  rcases List.mem_cons.1 hstage with rfl | hstage
  · exact keeps_prepare_adds _ _
  · split at hstage
    · cases List.mem_singleton.1 hstage
      exact fun w => keeps_relations hR _ (by decide) (adds_withDisk _ w _)
    · cases hstage

theorem keeps_lastStages : ∀ stage ∈ plan.lastStages,
    (stage.run host s).Keeps (World.Adds (·.label ≠ countLabel)) := by
  have hR := adds_respects host s (· ≠ countLabel)
  intro stage hstage
  unfold lastStages at hstage
  rcases List.mem_cons.1 hstage with rfl | hstage
  · unfold analysisStage
    split
    · exact keeps_solve hR _ (by decide)
    · exact keeps_query hR _ (by decide)
  · obtain ⟨request, _, rfl⟩ := List.mem_map.1 hstage
    exact keeps_naming hR request fun _ => adds_withDisk _ _ _

theorem keeps_numberStages : ∀ stage ∈ Stage.number :: plan.lastStages,
    (stage.run host s).Keeps (World.Adds (·.label ≠ countLabel)) := by
  intro stage hstage
  rcases List.mem_cons.1 hstage with rfl | hstage
  · exact keeps_number (adds_respects host s (· ≠ countLabel)) (by decide)
  · exact keeps_lastStages stage hstage

/-- The calls begin with that of the numbering stage, which finds the file as said,
or there are none and the run has failed. -/
def Numbered (domains : Path) (contents : Except Fault Bytes) (calls : List EngineCall)
    (e : Option Failure) : Prop :=
  (calls = [] ∧ e ≠ none) ∨
  ∃ call rest, calls = call :: rest ∧ call.label = numberLabel ∧ call.disk.read domains = contents

theorem numbered_of_ran (hnumbering : w.disk.NoLink s.workDir numberingFile)
    (hdomains : w.disk.NoLink s.workDir Datalog.domainFile)
    (h : Ran host s (.number :: plan.lastStages) w e w') :
    ∃ calls, w'.calls = w.calls ++ calls ∧
      Numbered (s.workDir / Datalog.domainFile) (w.disk.read (s.workDir / Datalog.domainFile))
        calls e := by
  have hread : ∀ {data : Bytes} {d : Disk},
      w.disk.write (s.workDir / numberingFile) data = .ok d →
      d.read (s.workDir / Datalog.domainFile) = w.disk.read (s.workDir / Datalog.domainFile) :=
    fun hwrite => (Disk.Beside.of_write (by decide) hnumbering hwrite).read (by decide) (by decide)
      hdomains
  cases h with
  | failed hstage =>
      rcases number_cases hstage with ⟨he, hcalls⟩ | ⟨call, hcalls, hnumber, data, hwrite⟩
      · exact ⟨[], by simpa using hcalls, Or.inl ⟨rfl, he⟩⟩
      · exact ⟨[call], hcalls, Or.inr ⟨call, [], rfl, hnumber, hread hwrite⟩⟩
  | passed hstage hrest =>
      rcases number_cases hstage with ⟨he, _⟩ | ⟨call, hcalls, hnumber, data, hwrite⟩
      · exact absurd rfl he
      · obtain ⟨new, hnew, _⟩ := hrest.keeps (World.adds_chains _) keeps_lastStages
        refine ⟨call :: new, ?_, Or.inr ⟨call, new, rfl, hnumber, hread hwrite⟩⟩
        rw [hnew, hcalls, List.append_assoc, List.singleton_append]

section Probe

variable {d : Disk} {r : Except Failure Completed} {pre post : List EngineCall}
  {probe : EngineCall}

/-- A run with a probe that ends in time goes through the count stage, and ends with
it or goes on with the numbering. -/
theorem probe_cases (hrun : plan.run host s (.ofDisk d) = (r, w))
    (hcalls : w.calls = pre ++ probe :: post) (hprobe : probe.label = countLabel)
    (htime : s.config.timeLimit = none ∨ (host.engine.respond pre probe).late = false) :
    ∃ e w₁, Settles (s.workDir / Datalog.domainFile)
        (((host.engine.respond pre probe).finalDisk probe).released
          (s.workDir / probeFile) s.config.cleanup)
        (PathCount.scan (Text.lossyChars (host.engine.respond pre probe).printed)) e w₁.disk ∧
      ((∃ x, e = some x ∧ r = .error x ∧ post = [] ∧ w.disk = w₁.disk) ∨
        (e = none ∧ w.calls = w₁.calls ++ post ∧
          Ran host s (.number :: plan.lastStages) w₁ (failure? r) w)) := by
  have havoid : ∀ {calls : List EngineCall}, w.calls = calls →
      (∀ c ∈ calls, c.label ≠ countLabel) → False := by
    intro calls hw hall
    exact hall probe (by rw [← hw, hcalls]; simp) hprobe
  rcases run_cases hrun with ⟨_, _, _, rfl⟩ | ⟨_, hran⟩
  · exact (havoid rfl nofun).elim
  · rw [stages_eq] at hran
    rcases hran.append with ⟨_, _, hfirst⟩ | ⟨w₀, hfirst, hrest⟩
    · obtain ⟨new, hnew, hlabels⟩ := hfirst.keeps (World.adds_chains _) keeps_firstStages
      exact (havoid hnew hlabels).elim
    · obtain ⟨new, hnew, hlabels⟩ := hfirst.keeps (World.adds_chains _) keeps_firstStages
      obtain rfl : w₀.calls = new := hnew
      generalize hfail : failure? r = e at hrest ⊢
      cases hrest with
      | failed hcount =>
          rcases count_cases hcount with ⟨_, hsame⟩ | ⟨call, hcall, hsettles⟩
          · exact (havoid hsame hlabels).elim
          · obtain ⟨rfl, rfl, rfl⟩ := eq_of_split (hcall.symm.trans hcalls) hlabels nofun hprobe
            exact ⟨_, w, hsettles htime, Or.inl ⟨_, rfl, eq_error_of_failure? hfail, rfl, rfl⟩⟩
      | passed hcount hnumber =>
          rename_i w₁
          rcases count_cases hcount with ⟨hx, _⟩ | ⟨call, hcall, hsettles⟩
          · exact absurd rfl hx
          · obtain ⟨more, hmore, hlabels'⟩ :=
              hnumber.keeps (World.adds_chains _) keeps_numberStages
            have hsplit : w₀.calls ++ call :: more = pre ++ probe :: post := by
              rw [← hcalls, hmore, hcall, List.append_assoc, List.singleton_append]
            obtain ⟨rfl, rfl, rfl⟩ := eq_of_split hsplit hlabels hlabels' hprobe
            exact ⟨none, w₁, hsettles htime, Or.inr ⟨rfl, hmore, hnumber⟩⟩

/-- What comes after the count stage: with a failure the run ends on the disk `d₁` that the
stage leaves, and without one the numbering call finds the domain file as it is there. -/
structure Onward (s : Setup) (after d₁ : Disk) (e : Option Failure) (post : List EngineCall)
    (r : Except Failure Completed) (w : World) : Prop where
  stop : ∀ x, e = some x → r = .error x ∧ post = [] ∧ w.disk = d₁
  go : e = none → after.Beside d₁ s.workDir Datalog.domainFile →
    d₁.NoLink s.workDir Datalog.domainFile →
    Numbered (s.workDir / Datalog.domainFile) (d₁.read (s.workDir / Datalog.domainFile)) post
      (failure? r)

theorem onward_of_probe (hrun : plan.run host s (.ofDisk d) = (r, w))
    (hcalls : w.calls = pre ++ probe :: post) (hprobe : probe.label = countLabel)
    (htime : s.config.timeLimit = none ∨ (host.engine.respond pre probe).late = false)
    {after : Disk} (hafter : ((host.engine.respond pre probe).finalDisk probe).released
      (s.workDir / probeFile) s.config.cleanup = after)
    (hnumbering : after.NoLink s.workDir numberingFile) :
    ∃ e d₁, Settles (s.workDir / Datalog.domainFile) after
        (PathCount.scan (Text.lossyChars (host.engine.respond pre probe).printed)) e d₁ ∧
      Onward s after d₁ e post r w := by
  obtain ⟨e, w₁, hsettles, hrest⟩ := probe_cases hrun hcalls hprobe htime
  refine ⟨e, w₁.disk, hafter ▸ hsettles, ?_, ?_⟩
  · rintro x rfl
    rcases hrest with ⟨_, hx, hrest⟩ | ⟨hnone, _⟩
    · cases hx
      exact hrest
    · cases hnone
  · rintro rfl hpatched hplain
    rcases hrest with ⟨_, hx, _⟩ | ⟨_, hpost, hran⟩
    · cases hx
    · obtain ⟨calls, hcalls', hnumbered⟩ :=
        numbered_of_ran (hpatched.noLink (by decide) (by decide) hnumbering) hplain hran
      rwa [List.append_cancel_left (hpost.symm.trans hcalls')]

section Onward

variable {after d₁ : Disk} {n : UInt64}

theorem Onward.absent (h : Onward s after d₁ e post r w)
    (hsettles : Settles (s.workDir / Datalog.domainFile) after (.ok .absent) e d₁)
    (hplain : after.NoLink s.workDir Datalog.domainFile) :
    Numbered (s.workDir / Datalog.domainFile) (after.read (s.workDir / Datalog.domainFile)) post
      (failure? r) := by
  cases hsettles
  exact h.go rfl (Or.inl rfl) hplain

theorem Onward.found {text : String} (h : Onward s after d₁ e post r w)
    (hsettles : Settles (s.workDir / Datalog.domainFile) after (.ok (.found n)) e d₁)
    (hplain : after.NoLink s.workDir Datalog.domainFile)
    (htext : after.readText (s.workDir / Datalog.domainFile) = .ok text) :
    Numbered (s.workDir / Datalog.domainFile) (.ok (Text.encode (Domains.patch n text))) post
      (failure? r) := by
  cases hsettles with
  | unreadable hx => cases hx.symm.trans htext
  | patched draws htext' hdone =>
      cases htext'.symm.trans htext
      cases e with
      | some x =>
          obtain ⟨rfl, hpost, _⟩ := h.stop x rfl
          exact Or.inl ⟨hpost, nofun⟩
      | none =>
          rcases hdone rfl with ⟨rfl, hsame⟩ | hatomic
          · rw [hsame, ← Disk.read_of_readText htext]
            exact h.go rfl (Or.inl rfl) hplain
          · obtain ⟨hpatched, hplain', hcontents⟩ :=
              Disk.read_writeAtomic (by decide) hplain hatomic
            rw [← hcontents]
            exact h.go rfl hpatched hplain'

theorem Onward.unreadable {x : Fault} (h : Onward s after d₁ e post r w)
    (hsettles : Settles (s.workDir / Datalog.domainFile) after (.ok (.found n)) e d₁)
    (htext : after.readText (s.workDir / Datalog.domainFile) = .error x) :
    r = .error (.disk (s.workDir / Datalog.domainFile) x) ∧ post = [] ∧ w.disk = after := by
  cases hsettles with
  | unreadable hx =>
      cases hx.symm.trans htext
      exact h.stop _ rfl
  | patched draws htext' _ => cases htext'.symm.trans htext

theorem Onward.bound {x : Failure} (h : Onward s after d₁ e post r w)
    (hsettles : Settles (s.workDir / Datalog.domainFile) after (.error x) e d₁) :
    r = .error x ∧ post = [] ∧ w.disk = after := by
  cases hsettles
  exact h.stop x rfl

end Onward

/-- The bound that the numbering call finds. What the probe printed before it ended
decides it, whatever its exit: without a count the domain file is as the probe left
it, a count that fits is set in it, and a count that does not fit, or a file that is
no text, ends the run with the file untouched. As the probe ends, the file and the
two program files must not be links. -/
theorem numbering_finds_settled_bound (plan : Plan) (host : Host) (s : Setup) (d : Disk)
    (hrun : plan.run host s (.ofDisk d) = (r, w)) (hcalls : w.calls = pre ++ probe :: post)
    (hprobe : probe.label = countLabel)
    (htime : s.config.timeLimit = none ∨ (host.engine.respond pre probe).late = false)
    (hlinks : ∀ name ∈ [Datalog.domainFile, probeFile, numberingFile],
      ((host.engine.respond pre probe).finalDisk probe).NoLink s.workDir name) :
    let ended := (host.engine.respond pre probe).finalDisk probe
    let domains := s.workDir / Datalog.domainFile
    let output := Text.lossyChars (host.engine.respond pre probe).printed
    ((∀ before digits, ¬ PathCount.CountsAt output before digits) →
      Numbered domains (ended.read domains) post (failure? r)) ∧
    ∀ digits, PathCount.FirstCount output digits →
      (∀ n : UInt64, Decimal.value digits = n.toNat →
        (∀ text, ended.readText domains = .ok text →
          Numbered domains (.ok (Text.encode (Domains.patch n text))) post (failure? r)) ∧
        ∀ x, ended.readText domains = .error x →
          r = .error (.disk domains x) ∧ post = [] ∧ w.disk.read domains = ended.read domains) ∧
      (2 ^ 64 ≤ Decimal.value digits →
        r = .error (.bound (String.ofList digits)) ∧ post = [] ∧
          w.disk.read domains = ended.read domains) := by
  intro ended domains output
  have hdomains := hlinks Datalog.domainFile (by simp)
  have hnumbering := hlinks numberingFile (by simp)
  have hbeside := Disk.Beside.of_released (by decide) (hlinks probeFile (by simp)) s.config.cleanup
  generalize hafter : ((host.engine.respond pre probe).finalDisk probe).released
    (s.workDir / probeFile) s.config.cleanup = after at hbeside
  obtain ⟨e, d₁, hsettles, honward⟩ := onward_of_probe hrun hcalls hprobe htime hafter
    (hbeside.noLink (by decide) (by decide) hnumbering)
  have hplain := hbeside.noLink (by decide) (by decide) hdomains
  have hread : after.read domains = ended.read domains :=
    hbeside.read (by decide) (by decide) hdomains
  have htext : after.readText domains = ended.readText domains := by
    unfold Disk.readText
    rw [hread]
  refine ⟨fun habsent => ?_, fun digits hfirst => ⟨fun n hn => ⟨fun text hok => ?_, fun x hx => ?_⟩,
    fun hbig => ?_⟩⟩
  · rw [PathCount.scan_absent habsent] at hsettles
    rw [← hread]
    exact honward.absent hsettles hplain
  · rw [PathCount.scan_found hfirst hn] at hsettles
    exact honward.found hsettles hplain (htext.trans hok)
  · rw [PathCount.scan_found hfirst hn] at hsettles
    obtain ⟨hr, hpost, hw⟩ := honward.unreadable hsettles (htext.trans hx)
    exact ⟨hr, hpost, by rw [hw, hread]⟩
  · rw [PathCount.scan_bound hfirst hbig] at hsettles
    obtain ⟨hr, hpost, hw⟩ := honward.bound hsettles
    exact ⟨hr, hpost, by rw [hw, hread]⟩

end Probe

/-- A store in which a path through `link` names one of two working directories. In
the one under the run root the domain file is a link to the probe's program file. -/
def forkedStore : Disk :=
  .holding
    [(["java"], .file [] 0o755), (["run"], .directory 0o755), (["deep", "run"], .directory 0o755),
      (["dir", "deep", "run"], .directory 0o755), (["link", "run"], .link ⟨"deep/dir"⟩),
      (["out", "deep", "run"], .directory 0o755),
      (["fielddomains.pa", "out", "deep", "run"], .file (Text.encode "VC 1\n") 0o644),
      (["out", "run"], .directory 0o755),
      (["number.dtl", "out", "run"], .file (Text.encode "VC 1\n") 0o644),
      (["fielddomains.pa", "out", "run"], .link ⟨"number.dtl"⟩)]

def forkedSetup : Setup :=
  let s := Setup.working ⟨"/run"⟩ ⟨"link/../out"⟩
  { s with config := { s.config with strict := true } }

def forkedRun (probe : Response) : Except Failure Completed × World :=
  Plan.run ⟨"Main", .datalog ⟨"query.dtl"⟩, .fast, none⟩ (.scripted [] [probe]) forkedSetup
    (.ofDisk forkedStore)

def countingProbe : Response :=
  ⟨[.print .err (Text.encode "paths = "), .print .out (Text.encode "7\n")], false, .signal⟩

theorem numbering_finds_count_of_killed_probe :
    ∃ probe post, (forkedRun countingProbe).2.calls = probe :: post ∧ probe.label = countLabel ∧
      Numbered (forkedSetup.workDir / Datalog.domainFile) (.ok (Text.encode "VC 7\n")) post
        (failure? (forkedRun countingProbe).1) := by
  have hfacts : (forkedRun countingProbe).2.calls.isEmpty = false ∧
      ∀ probe ∈ (forkedRun countingProbe).2.calls.take 1, probe.label = countLabel ∧
        (∀ name ∈ [Datalog.domainFile, probeFile, numberingFile],
          (countingProbe.finalDisk probe).NoLink forkedSetup.workDir name) ∧
        (countingProbe.finalDisk probe).readText (forkedSetup.workDir / Datalog.domainFile) =
          .ok "VC 1\n" := by
    decide +kernel
  have houtput : Text.lossyChars countingProbe.printed = PathCount.label ++ ['7'] ++ ['\n'] := by
    decide +kernel
  have hpatch : Domains.patch 7 "VC 1\n" = "VC 7\n" := by decide +kernel
  rcases hrun : forkedRun countingProbe with ⟨r, w⟩
  rw [hrun] at hfacts
  unfold forkedRun at hrun
  cases hcalls : w.calls with
  | nil => simp [hcalls] at hfacts
  | cons probe post =>
      obtain ⟨hlabel, hlinks, htext⟩ := hfacts.2 probe (by simp [hcalls])
      have hanswer : (Host.scripted [] [countingProbe]).engine.respond [] probe = countingProbe :=
        rfl
      have hsettled := numbering_finds_settled_bound _ _ _ _ hrun
        (hcalls.trans (List.nil_append _).symm) hlabel (Or.inl rfl) (by rwa [hanswer])
      rw [hanswer] at hsettled
      have hfirst : PathCount.FirstCount (Text.lossyChars countingProbe.printed) ['7'] :=
        ⟨[], ⟨['\n'], houtput, nofun, List.forall_mem_singleton.2 (by decide),
          fun _ hc => by cases hc; decide⟩, fun _ _ _ => Nat.zero_le _⟩
      refine ⟨probe, post, rfl, hlabel, ?_⟩
      rw [← hpatch]
      exact ((hsettled.2 ['7'] hfirst).1 7 (by decide)).1 _ htext

def reroutingProbe : Response :=
  ⟨[.remove ⟨"link"⟩, .makeDirectory ⟨"link"⟩], false, .code 0⟩

/-- Without links in the working directory as the run starts, but with a probe that
leads its path elsewhere, the numbering call need not find what the probe left. -/
theorem numbering_misses_domains_of_rerouted_workDir :
    (∀ name ∈ [Datalog.domainFile, probeFile, numberingFile],
      forkedStore.NoLink forkedSetup.workDir name) ∧
    reroutingProbe.printed = [] ∧
    (forkedRun reroutingProbe).2.calls.map (·.label) = [countLabel, numberLabel, solveLabel] ∧
    (∀ probe ∈ (forkedRun reroutingProbe).2.calls.take 1,
      (reroutingProbe.finalDisk probe).read (forkedSetup.workDir / Datalog.domainFile) =
        .ok (Text.encode "VC 1\n")) ∧
    ∀ call ∈ ((forkedRun reroutingProbe).2.calls.drop 1).take 1,
      call.disk.read (forkedSetup.workDir / Datalog.domainFile) ≠ .ok (Text.encode "VC 1\n") := by
  decide +kernel

end Plan
end PointsTo
