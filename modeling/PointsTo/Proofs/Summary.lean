import PointsTo.Proofs.Bound
import PointsTo.Proofs.Disk.Bypass
import PointsTo.Proofs.Domains
import PointsTo.Proofs.Stroke

/-!
What the count stage says that it has done. Its summary names the count that was printed,
while the domain file has been set to that count only where it has a line to set.
-/

namespace PointsTo

namespace Domains

open Text

def HasLine (text : String) (line : List Char) : Prop :=
  ∃ lines, IsLines text.toList lines ∧ line ∈ lines

theorem hasLine_iff {text : String} {line : List Char} :
    HasLine text line ↔ line ∈ linePieces text.toList := by
  simp [HasLine, isLines_iff]

def HasContext (text : String) : Prop :=
  ∃ line, HasLine text line ∧ FirstToken line ['V', 'C']

/-- The new text has the lines of the old one, and those of the context domain say `n`. -/
structure Sets (n : Nat) (old new : String) : Prop where
  every : ∀ line, HasLine new line → FirstToken line ['V', 'C'] → ∃ ending,
    line = ['V', 'C', ' '] ++ Decimal.digits n ++ ending ∧ ∀ c ∈ ending, c = '\n' ∨ c = '\r'
  context : HasContext new ↔ HasContext old
  others : SameLines old new

theorem hasLine_patch_iff {bound : UInt64} {text : String} {line : List Char} :
    HasLine (patch bound text) line ↔ ∃ old, HasLine text old ∧ patchLine bound old = line := by
  simp only [hasLine_iff, linePieces_patch, List.mem_map]

theorem sets_patch (bound : UInt64) (text : String) :
    Sets bound.toNat text (patch bound text) where
  every line hline htoken := by
    obtain ⟨old, _, rfl⟩ := hasLine_patch_iff.1 hline
    have hold := resized_patchLine bound old
    obtain ⟨_, ending, hnew, rfl, _, _, _, hending, _⟩ := hold.context (hold.again.1 htoken)
    exact ⟨ending, hnew, hending⟩
  context := by
    constructor
    · rintro ⟨line, hline, htoken⟩
      obtain ⟨old, hold, rfl⟩ := hasLine_patch_iff.1 hline
      exact ⟨old, hold, (resized_patchLine bound old).again.1 htoken⟩
    · rintro ⟨old, hold, htoken⟩
      exact ⟨patchLine bound old, hasLine_patch_iff.2 ⟨old, hold, rfl⟩,
        (resized_patchLine bound old).again.2 htoken⟩
  others := sameLines_patch bound text

end Domains

namespace Disk

theorem readText_of_read {d : Disk} {p : Path} {text : String}
    (h : d.read p = .ok (Text.encode text)) : d.readText p = .ok text := by
  refine bind_eq_ok_iff.2 ⟨_, h, ?_⟩
  rw [Text.encode, Text.decode?_encodeChars, String.ofList_toList]

end Disk

namespace WorkDir

/-- What replaces a file that could be read is read in its place. -/
theorem read_of_writeAtomic {d d' : Disk} {path : Path} {old new : Bytes}
    {draws : List TemporaryName} (hold : d.read path = .ok old)
    (h : writeAtomic path new draws d = (.ok (), d')) :
    d'.read path = .ok new := by
  rcases writeAtomic_outcome path new draws d with ⟨_, d₁, hrun, hreplaced⟩ | ⟨_, e, hrun⟩
  · cases hrun.symm.trans h
    unfold Disk.read
    rw [hreplaced.entry.2 (Disk.standsApart_of_read hold)]
    rfl
  · cases hrun.symm.trans h

end WorkDir

namespace Stage

variable {host : Host} {s : Setup} {w w' : World} {domains : Path} {d d' : Disk} {n : UInt64}

def told : PathCount → String
  | .found n => "VC domain set to " ++ Decimal.text n.toNat
  | .absent => "no path count reported"

theorem told_of_applyCount {counted : PathCount} {summary : String}
    (h : applyCount host s counted w = (.ok summary, w')) : summary = told counted := by
  cases counted with
  | absent =>
      rcases Attempt.bind_cases h with ⟨_, _, _, h₁⟩ | ⟨_, _, he⟩
      · cases h₁
        rfl
      · cases he
  | found n =>
      rcases Attempt.bind_cases h with ⟨_, _, _, h₁⟩ | ⟨_, _, he⟩
      · rcases Attempt.bind_cases h₁ with ⟨_, _, _, h₂⟩ | ⟨_, _, he⟩
        · cases h₂
          rfl
        · cases he
      · cases he

/-- A count stage that passes has run its probe, and tells of the count that it has
applied. -/
theorem told_of_count {outcome : Outcome} (h : count.run host s w = (.ok outcome, w')) :
    ∃ probe counted, w'.calls = w.calls ++ [probe] ∧ outcome.summary = some (told counted) ∧
      Settles (s.workDir / Datalog.domainFile)
        (((host.engine.respond w.calls probe).finalDisk probe).released
          (s.workDir / probeFile) s.config.cleanup) (.ok counted) none w'.disk := by
  rcases Attempt.bind_cases h with ⟨f, w₁, hsolve, h₁⟩ | ⟨_, _, he⟩
  · rcases Attempt.bind_cases h₁ with ⟨counted, w₂, hcounted, h₂⟩ | ⟨_, _, he⟩
    · obtain ⟨_, rfl⟩ := Attempt.ofExcept_cases hcounted
      rcases Attempt.bind_cases h₂ with ⟨summary, w₃, happly, h₃⟩ | ⟨_, _, he⟩
      · cases h₃
        obtain ⟨hcalls, hsettles⟩ := applyCount_cases happly
        rcases solveText_cases hsolve with ⟨⟨_, hx⟩, _⟩ | ⟨_, _, ⟨⟨_, hx⟩, _⟩ | ⟨probe, hprobe⟩⟩
        · cases hx
        · cases hx
        · obtain ⟨_, _, _, hcall, hdisk, _⟩ := hprobe
          refine ⟨probe, counted, hcalls.trans hcall, ?_, ?_⟩
          · rw [told_of_applyCount happly]
          · rw [← hdisk]
            exact hsettles
      · cases he
    · cases he
  · cases he

/-- A count that was applied is what the lines of the context domain say. -/
theorem sets_of_settles (h : Settles domains d (.ok (.found n)) none d') :
    ∃ old new, d.readText domains = .ok old ∧ d'.readText domains = .ok new ∧
      Domains.Sets n.toNat old new := by
  cases h with
  | @patched _ text _ _ _ htext hdone =>
      refine ⟨text, Domains.patch n text, htext, ?_, Domains.sets_patch n text⟩
      rcases hdone rfl with ⟨rfl, hsame⟩ | hatomic
      · rw [hsame]
        exact htext
      · exact Disk.readText_of_read
          (WorkDir.read_of_writeAtomic (Disk.read_of_readText htext) hatomic)

theorem eq_of_settles_absent (h : Settles domains d (.ok .absent) none d') : d' = d := by
  cases h
  rfl

theorem eq_of_told {n : Nat} {bound : UInt64}
    (h : told (.found bound) = "VC domain set to " ++ Decimal.text n) : bound.toNat = n := by
  have hdigits := String.ofList_injective ((String.append_right_inj _).1 h)
  rw [← Decimal.value_digits bound.toNat, hdigits, Decimal.value_digits]

theorem told_absent_ne (n : Nat) :
    told .absent ≠ "VC domain set to " ++ Decimal.text n := by
  intro h
  have hhead := congrArg (fun text => text.toList.head?) h
  rw [String.toList_append, List.head?_append] at hhead
  have hsaid : (told .absent).toList.head? = some 'n' := by decide
  have hset : "VC domain set to ".toList.head? = some 'V' := by decide
  rw [hsaid, hset] at hhead
  cases hhead

/-- The count stage says that the context domain has been set to `n` after every line of
that domain in the file has been: there is one if the probe left one. If it says anything
else, the file is as the probe left it, unless the way to it led through the program file
of the probe and that file has been removed. -/
theorem count_summary_and_domain_file (host : Host) (s : Setup) (w w' : World)
    (outcome : Outcome) (h : count.run host s w = (.ok outcome, w')) :
    let domains := s.workDir / Datalog.domainFile
    ∃ probe, w'.calls = w.calls ++ [probe] ∧
      let ended := (host.engine.respond w.calls probe).finalDisk probe
      (∀ n, outcome.summary = some ("VC domain set to " ++ Decimal.text n) →
        ∃ old new, ended.readText domains = .ok old ∧ w'.disk.readText domains = .ok new ∧
          Domains.Sets n old new) ∧
      ((∀ n, outcome.summary ≠ some ("VC domain set to " ++ Decimal.text n)) →
        outcome.summary = some "no path count reported" ∧
        w'.disk = ended.released (s.workDir / probeFile) s.config.cleanup ∧
        (∀ data, w'.disk.read domains = .ok data → ended.read domains = .ok data) ∧
        ∀ data, ended.read domains = .ok data →
          (w'.disk.read domains = .ok data ↔
            (s.config.cleanup = true → ended.Bypasses domains (s.workDir / probeFile)))) := by
  intro domains
  obtain ⟨probe, counted, hcalls, hsummary, hsettles⟩ := told_of_count h
  refine ⟨probe, hcalls, ?_⟩
  intro ended
  rw [hsummary]
  cases counted with
  | found bound =>
      refine ⟨fun n hn => ?_, fun hother => absurd rfl (hother bound.toNat)⟩
      obtain rfl := eq_of_told (Option.some.inj hn)
      obtain ⟨old, new, hold, hnew, hsets⟩ := sets_of_settles hsettles
      -- the old text is read once the program file is gone, but it was there before
      have hread := Disk.read_of_read_released (Disk.read_of_readText hold)
      exact ⟨old, new, Disk.readText_of_read hread, hnew, hsets⟩
  | absent =>
      refine ⟨fun n hn => absurd (Option.some.inj hn) (told_absent_ne n), fun _ => ?_⟩
      rw [eq_of_settles_absent hsettles]
      exact ⟨rfl, rfl, fun _ => Disk.read_of_read_released, fun _ => Disk.read_released_iff _⟩

def countStore (domains : Entry) : Disk :=
  .holding
    [(["java"], .file [] 0o755), (["run"], .directory 0o755),
      (["results", "run"], .directory 0o755), (["fielddomains.pa", "results", "run"], domains)]

def countRun (domains : Entry) (probe : List Action) : Except Failure Outcome × World :=
  count.run (.scripted [] [⟨probe, false, .code 1⟩]) Setup.usual (.ofDisk (countStore domains))

def twoContextLines : Entry :=
  .file (Text.encode "V 2\r\n\tVC 1 x\r\nVC") 0o644

def printsSeven : List Action :=
  [.print .err (Text.encode "paths = "), .print .out (Text.encode "7\n")]

def writesEight : List Action :=
  [.write ⟨"results/number.dtl"⟩ (Text.encode "VC 8\n")]

theorem count_summary_of_two_lines :
    ∃ outcome new, (countRun twoContextLines printsSeven).1 = .ok outcome ∧
      (countRun twoContextLines printsSeven).2.disk.readText
        (Setup.usual.workDir / Datalog.domainFile) = .ok new ∧
      Domains.Sets 7 "V 2\r\n\tVC 1 x\r\nVC" new := by
  have hfacts : (countRun twoContextLines printsSeven).1 =
        .ok ⟨some ⟨Text.encode "paths = 7\n", [], some 1, false⟩,
          some ("VC domain set to " ++ Decimal.text 7)⟩ ∧
      ∀ probe ∈ (countRun twoContextLines printsSeven).2.calls,
        ((⟨printsSeven, false, .code 1⟩ : Response).finalDisk probe).readText
          (Setup.usual.workDir / Datalog.domainFile) = .ok "V 2\r\n\tVC 1 x\r\nVC" := by
    decide +kernel
  obtain ⟨hok, hended⟩ := hfacts
  rcases hrun : countRun twoContextLines printsSeven with ⟨r, w⟩
  rw [hrun] at hok hended
  cases hok
  unfold countRun at hrun
  obtain ⟨probe, hcalls, hset, _⟩ := count_summary_and_domain_file _ _ _ _ _ hrun
  obtain ⟨old, new, hold, hnew, hsets⟩ := hset 7 rfl
  have hanswer : ∀ calls, (Host.scripted [] [⟨printsSeven, false, .code 1⟩]).engine.respond
      (World.ofDisk (countStore twoContextLines)).calls calls = ⟨printsSeven, false, .code 1⟩ :=
    fun _ => rfl
  rw [hanswer, hended probe (by rw [hcalls]; simp)] at hold
  cases hold
  exact ⟨_, new, rfl, hnew, hsets⟩

/-- Without a line for the context domain the summary is the same. And where the domain
file is a link to the program file of the probe, it is gone after a probe that printed
nothing. -/
theorem count_summary_deceives :
    let domains := Setup.usual.workDir / Datalog.domainFile
    let plain := countRun (.file (Text.encode "V 10\n") 0o644) printsSeven
    let linked := countRun (.link ⟨"number.dtl"⟩) writesEight
    (plain.1.map (·.summary) = .ok (some "VC domain set to 7") ∧
      plain.2.disk.readText domains = .ok "V 10\n" ∧ Domains.contextLines "V 10\n" = 0) ∧
    linked.1.map (·.summary) = .ok (some "no path count reported") ∧
      linked.2.calls.map (fun probe =>
        ((⟨writesEight, false, .code 1⟩ : Response).finalDisk probe).read domains) =
          [.ok (Text.encode "VC 8\n")] ∧
      linked.2.disk.read domains = .error (.system .noEntry) := by
  decide +kernel

end Stage
end PointsTo
