import PointsTo.Proofs.Prepare

/-!
Which processes a run starts, and in which order. Each stage starts the processes of
its own list one after the other and stops at its first failure, so what a run has
started is always an initial piece of the lists of its stages put together.
-/

namespace PointsTo

structure Launch where
  mainClass : String
  operands : List String
deriving DecidableEq

namespace Launch

/-- How the machine reads its arguments. Options come first, and of those given here
only the class path has a value in the argument after it, which is skipped. -/
def read (skip : Bool) : List String → Option Launch
  | [] => none
  | a :: rest =>
    if skip then read false rest
    else if a = "-cp" then read true rest
    else if a.toList.head? = some '-' then read false rest
    else some ⟨a, rest⟩

def solver (program : Path) : Launch :=
  ⟨"net.sf.bddbddb.Solver", [program.text]⟩

end Launch

def EngineCall.launch? (call : EngineCall) : Option Launch :=
  Launch.read false call.args

namespace Command

variable {c c' : Command}

def launch? (c : Command) : Option Launch :=
  Launch.read false c.args

def Opens (c : Command) : Prop :=
  ∀ rest, Launch.read false (c.args ++ rest) = Launch.read false rest

theorem opens_new (label : String) (program : Path) : (new label program).Opens :=
  fun _ => rfl

theorem Opens.classPath {entries : List Path} (h : c.Opens) (hc : c.classPath entries = .ok c') :
    c'.Opens := by
  unfold Command.classPath at hc
  split at hc
  · cases hc
    intro rest
    simp only [arg, List.append_assoc]
    rw [h]
    simp [Launch.read]
  · cases hc

def IsFlag (a : String) : Prop :=
  a ≠ "-cp" ∧ a.toList.head? = some '-'

theorem isFlag_of_take {a : String} {x : Char} (ha : a.toList.take 2 = ['-', x]) (hx : x ≠ 'c') :
    IsFlag a := by
  constructor
  · rintro rfl
    have htext : "-cp".toList.take 2 = ['-', 'c'] := by decide
    cases htext.symm.trans ha
    exact hx rfl
  · have htake := List.head?_take (i := 2) (l := a.toList)
    simpa [ha] using htake.symm

theorem isFlag_property (key value : String) : IsFlag ("-D" ++ key ++ "=" ++ value) := by
  refine isFlag_of_take (x := 'D') ?_ (by decide)
  simp only [String.toList_append]
  rfl

theorem isFlag_heap {start : String} (hstart : start = "-mx" ∨ start = "-Xmx") (size : String) :
    IsFlag (start ++ size) := by
  rcases hstart with rfl | rfl
  · refine isFlag_of_take (x := 'm') ?_ (by decide)
    rw [String.toList_append]
    rfl
  · refine isFlag_of_take (x := 'X') ?_ (by decide)
    rw [String.toList_append]
    rfl

theorem Opens.flag {a : String} (h : c.Opens) (ha : IsFlag a) : (c.arg a).Opens := by
  intro rest
  simp only [arg, List.append_assoc]
  rw [h]
  simp [Launch.read, ha.1, ha.2]

theorem Opens.property (h : c.Opens) (key value : String) : (c.property key value).Opens :=
  h.flag (isFlag_property key value)

theorem Opens.heap {start : String} (h : c.Opens) (hstart : start = "-mx" ∨ start = "-Xmx")
    (size : String) : (c.arg (start ++ size)).Opens :=
  h.flag (isFlag_heap hstart size)

theorem Opens.properties (h : c.Opens) (properties : List (String × String)) :
    (properties.foldl (fun c (key, value) => c.property key value) c).Opens := by
  induction properties generalizing c with
  | nil => exact h
  | cons x properties ih => exact ih (h.property x.1 x.2)

/-- The first argument that is no option is the main class. -/
theorem Opens.launch {mainClass : String} {operands : List String} (h : c.Opens)
    (hmain : mainClass.toList.head? ≠ some '-') :
    ((c.arg mainClass).addArgs operands).launch? = some ⟨mainClass, operands⟩ := by
  have hcp : mainClass ≠ "-cp" := by
    rintro rfl
    exact hmain rfl
  simp only [launch?, addArgs, arg, List.append_assoc]
  rw [h]
  simp [Launch.read, hcp, hmain]

end Command

namespace Setup

variable {s : Setup} {c : Command}

theorem launch_solverCommand {label : String} {program : Path}
    (h : s.solverCommand label program = .ok c) : c.launch? = some (.solver program) := by
  obtain ⟨c', hc, h⟩ := bind_eq_ok_iff.1 h
  cases h
  have hopen := ((Command.opens_new _ _).classPath hc).heap (Or.inl rfl) s.config.tuning.maxHeap
  exact ((hopen.property _ _).properties _).launch (by decide)

theorem launch_dumpCommand {entryPoint : String} (h : s.dumpCommand entryPoint = .ok c) :
    c.launch? = some ⟨"joeq.Main.GenRelations", [entryPoint]⟩ := by
  obtain ⟨c', hc, h⟩ := bind_eq_ok_iff.1 h
  cases h
  have hopen := ((Command.opens_new _ _).classPath hc).heap (Or.inr rfl) s.config.tuning.maxHeap
  exact ((((hopen.property _ _).property _ _).property _ _).property _ _).launch (by decide)

theorem launch_equivalenceCommand (h : s.equivalenceCommand = .ok c) :
    c.launch? = some ⟨"net.sf.bddbddb.BuildEquivalenceRelation",
      ["H0", "H0", "heap.map", "I0", "invoke.map"]⟩ := by
  obtain ⟨c', hc, h⟩ := bind_eq_ok_iff.1 h
  cases h
  have hopen := (Command.opens_new relationsLabel s.toolchain.runtime).heap (Or.inl rfl)
    s.config.tuning.maxHeap
  exact (Command.Opens.classPath (((hopen.property _ _).property _ _).property _ _) hc).launch
    (by decide)

theorem launch_generatorCommand {query : Path} (h : s.generatorCommand query = .ok c) :
    c.launch? = some ⟨"net.sf.pql.datalog.DatalogGenerator", [query.text]⟩ := by
  obtain ⟨c', hc, h⟩ := bind_eq_ok_iff.1 h
  cases h
  exact (((Command.opens_new _ _).classPath hc).property _ _).launch (by decide)

end Setup

namespace World

/-- From `w` to `w'` exactly these processes were started, all of them in the run
root. -/
def Starts (s : Setup) (launches : List Launch) (w w' : World) : Prop :=
  ∃ made, w'.calls = w.calls ++ made ∧ made.map EngineCall.launch? = launches.map some ∧
    ∀ call ∈ made, call.disk.resolve s.root = .ok call.directory

section Starts

variable {s : Setup} {launches later : List Launch} {u v w : World}

theorem starts_nil (h : w.calls = v.calls) : Starts s [] v w :=
  ⟨[], by simp [h], rfl, nofun⟩

theorem Starts.trans (h : Starts s launches u v) (h' : Starts s later v w) :
    Starts s (launches ++ later) u w := by
  obtain ⟨made, hcalls, hmade, hroot⟩ := h
  obtain ⟨made', hcalls', hmade', hroot'⟩ := h'
  refine ⟨made ++ made', ?_, ?_, ?_⟩
  · rw [hcalls', hcalls, List.append_assoc]
  · rw [List.map_append, List.map_append, hmade, hmade']
  · exact List.forall_mem_append.2 ⟨hroot, hroot'⟩

theorem sameCalls_chains : Chains fun w w' => w'.calls = w.calls where
  same := fun _ h => h
  trans := fun _ _ _ h h' => h'.trans h

end Starts
end World

namespace Run

open World

variable {α β : Type} {host : Host} {s : Setup} {first rest protocol : List Launch} {launch : Launch}

abbrev Silent (x : Run α) : Prop :=
  x.Keeps fun w w' => w'.calls = w.calls

/-- A step that starts the given processes one after the other, and stops only where
it fails. -/
def Follows (s : Setup) (protocol : List Launch) (x : Run α) : Prop :=
  ∀ w r w', x w = (r, w') → ∃ launches, launches <+: protocol ∧ Starts s launches w w' ∧
    ∀ a, r = .ok a → launches = protocol

theorem Silent.follows {x : Run α} (h : x.Silent) : Follows s [] x := fun w r w' hx => by
  have hcalls := h w
  rw [hx] at hcalls
  exact ⟨[], List.prefix_refl _, starts_nil hcalls, fun _ _ => rfl⟩

theorem Follows.bind {x : Run α} {f : α → Run β} (hx : Follows s first x)
    (hf : ∀ a, Follows s rest (f a)) : Follows s (first ++ rest) (x >>= f) := by
  intro w r w' h
  rcases Attempt.bind_cases h with ⟨a, w₁, hxa, hfa⟩ | ⟨e, hxe, rfl⟩
  · obtain ⟨launches, _, hstarts, hall⟩ := hx _ _ _ hxa
    obtain ⟨later, hprefix, hlater, hall'⟩ := hf a _ _ _ hfa
    cases hall a rfl
    refine ⟨first ++ later, ?_, hstarts.trans hlater, fun b hb => by rw [hall' b hb]⟩
    exact (List.prefix_append_right_inj first).2 hprefix
  · obtain ⟨launches, hprefix, hstarts, _⟩ := hx _ _ _ hxe
    exact ⟨launches, hprefix.trans (List.prefix_append _ _), hstarts, nofun⟩

theorem Follows.andThen {x : Run α} {f : α → Run β} (hx : Follows s protocol x)
    (hf : ∀ a, (f a).Silent) : Follows s protocol (x >>= f) := by
  simpa using hx.bind fun a => (hf a).follows

theorem Silent.andThen {x : Run α} {f : α → Run β} (hx : x.Silent)
    (hf : ∀ a, Follows s protocol (f a)) : Follows s protocol (x >>= f) := by
  simpa using hx.follows.bind hf

theorem Silent.bind {x : Run α} {f : α → Run β} (hx : x.Silent) (hf : ∀ a, (f a).Silent) :
    (x >>= f).Silent :=
  keeps_bind sameCalls_chains hx hf

theorem Follows.later {x : Run α} (h : Follows s protocol x) (w : World) :
    w.calls <+: (x w).2.calls := by
  obtain ⟨_, _, ⟨made, hcalls, _⟩, _⟩ := h w _ _ rfl
  exact ⟨made, hcalls.symm⟩

theorem silent_tell (source : Log.Source) (level : Log.Level) (message : String)
    (fields : List Log.Field) : (tell source level message fields).Silent :=
  fun _ => rfl

theorem silent_ofExcept (x : Except Failure α) : Silent (Attempt.ofExcept x : Run α) :=
  fun _ => rfl

theorem silent_onDisk (x : Attempt Disk α) : (onDisk x).Silent :=
  fun _ => rfl

theorem silent_pure (a : α) : Silent (pure a : Run α) :=
  fun _ => rfl

/-- What is made of a value that is there. -/
theorem follows_ofExcept {x : Except Failure α} {f : α → Run β}
    (hf : ∀ a, x = .ok a → Follows s protocol (f a)) :
    Follows s protocol (Attempt.ofExcept x >>= f) := by
  intro w r w' h
  rcases Attempt.bind_cases h with ⟨a, w₁, hx, hfa⟩ | ⟨e, hx, rfl⟩
  · obtain ⟨hok, rfl⟩ := Attempt.ofExcept_cases hx
    exact hf a hok _ _ _ hfa
  · obtain ⟨_, rfl⟩ := Attempt.ofExcept_cases hx
    exact ⟨[], List.nil_prefix, starts_nil rfl, nofun⟩

theorem follows_start {command : Command} (hlaunch : command.launch? = some launch) :
    Follows s [launch] (start host command s.root) := by
  intro w r w' h
  unfold start at h
  split at h
  · cases h
    exact ⟨[], List.nil_prefix, starts_nil rfl, nofun⟩
  · next l hl =>
    cases h
    refine ⟨[launch], List.prefix_refl _, ⟨[_], rfl, ?_, ?_⟩, fun _ _ => rfl⟩
    · exact congrArg (fun l => [l]) hlaunch
    · simpa using (Disk.resolve_of_checkStart hl).1

/-- A call that has an answer was made, and ended within the limit. -/
theorem invoke_ok {limit : Option Nat} {command : Command} {directory : Path} {mode : ErrorStream}
    {w w' : World} {f : Finished} (h : invoke host limit command directory mode w = (.ok f, w')) :
    ∃ call : EngineCall, call.label = command.label ∧ call.args = command.args ∧
      w'.calls = w.calls ++ [call] ∧ f = (host.engine.respond w.calls call).finished mode ∧
      (limit.isSome && (host.engine.respond w.calls call).late) = false := by
  obtain ⟨_, w₁, htell, h₁⟩ := Attempt.bind_eq_ok_iff.1 h
  rw [← (tell_cases htell).2.2]
  obtain ⟨response, w₂, hstart, h₂⟩ := Attempt.bind_eq_ok_iff.1 h₁
  unfold start at hstart
  split at hstart
  · cases hstart
  · next l hl =>
    cases hstart
    refine ⟨⟨command.label, command.program, command.args, l, w₁.disk⟩, rfl, rfl, ?_⟩
    cases limit with
    | none =>
        cases h₂
        exact ⟨rfl, rfl, rfl⟩
    | some n =>
        cases hlate : (host.engine.respond w₁.calls
            ⟨command.label, command.program, command.args, l, w₁.disk⟩).late with
        | true =>
            rw [hlate] at h₂
            obtain ⟨_, _, _, h₃⟩ := Attempt.bind_eq_ok_iff.1 h₂
            cases h₃
        | false =>
            rw [hlate] at h₂
            cases h₂
            exact ⟨rfl, rfl, rfl⟩

end Run

namespace Stage

open Run World

variable {host : Host} {s : Setup} {mode : ErrorStream} {launch : Launch} {protocol : List Launch}

theorem follows_call {command : Command} (hlaunch : command.launch? = some launch) :
    Follows s [launch] (call host s command mode) := by
  refine (silent_tell _ _ _ _).andThen fun _ => ?_
  refine (follows_start hlaunch).andThen fun response => ?_
  split
  · exact (silent_tell _ _ _ _).bind fun _ _ => rfl
  · exact silent_pure _

/-- The call of a command, if there is one, and what follows it. -/
theorem follows_calls {β : Type} {command : Except Failure Command} {f : Finished → Run β}
    (hlaunch : ∀ c, command = .ok c → c.launch? = some launch)
    (hf : ∀ x, Follows s protocol (f x)) :
    Follows s (launch :: protocol)
      (Attempt.ofExcept command >>= fun c => call host s c mode >>= f : Run β) :=
  follows_ofExcept fun c hc => (follows_call (hlaunch c hc)).bind hf

theorem follows_lastCall {β : Type} {command : Except Failure Command} {f : Finished → Run β}
    (hlaunch : ∀ c, command = .ok c → c.launch? = some launch) (hf : ∀ x, (f x).Silent) :
    Follows s [launch]
      (Attempt.ofExcept command >>= fun c => call host s c mode >>= f : Run β) :=
  follows_calls hlaunch fun x => (hf x).follows

theorem silent_materialize (path : Path) (text : String) :
    (ProgramFile.materialize path text).Silent :=
  (silent_onDisk _).bind fun _ => silent_tell _ _ _ _

theorem follows_solveText (label fileName text : String) :
    Follows s [.solver (s.workDir / fileName)] (solveText host s label fileName text mode) := by
  refine (silent_materialize _ text).andThen fun _ w r w' h => ?_
  obtain ⟨w₁, hcall, rfl⟩ := Attempt.ensuring_cases h
  have hfollows : Follows s [.solver (s.workDir / fileName)]
      (Attempt.ofExcept (s.solverCommand label (s.workDir / fileName)) >>= fun c =>
        call host s c mode) :=
    follows_ofExcept fun _ hc => follows_call (Setup.launch_solverCommand hc)
  obtain ⟨launches, hprefix, ⟨made, hcalls, hmade⟩, hall⟩ := hfollows _ _ _ hcall
  refine ⟨launches, hprefix, ⟨made, ?_, hmade⟩, hall⟩
  exact (ProgramFile.release_eq _ _ _).2.trans hcalls

theorem silent_checkExit (label : String) (f : Finished) : (checkExit s label f).Silent :=
  fun _ => (checkExit_cases (Prod.eta _).symm).2

theorem follows_prepare (mode : Mode) : Follows s [] ((prepare mode).run host s) :=
  Silent.follows fun _ => prepare_calls (Prod.eta _).symm

theorem follows_relations (entryPoint : String) :
    Follows s [⟨"joeq.Main.GenRelations", [entryPoint]⟩,
      ⟨"net.sf.bddbddb.BuildEquivalenceRelation", ["H0", "H0", "heap.map", "I0", "invoke.map"]⟩]
      ((relations entryPoint).run host s) := by
  refine (silent_onDisk _).andThen fun _ => (silent_tell _ _ _ _).andThen fun _ => ?_
  refine follows_calls (fun _ => Setup.launch_dumpCommand) fun dump => ?_
  refine (silent_ofExcept _).andThen fun _ => (silent_tell _ _ _ _).andThen fun _ => ?_
  refine follows_lastCall (fun _ => Setup.launch_equivalenceCommand) fun equivalence => ?_
  refine (silent_ofExcept _).bind fun _ => (silent_onDisk _).bind fun _ => ?_
  refine (silent_tell _ _ _ _).bind fun _ => (silent_tell _ _ _ _).bind fun _ => ?_
  exact (silent_onDisk _).bind fun _ => silent_pure _

theorem follows_number :
    Follows s [.solver (s.workDir / "numbering.dtl")] (number.run host s) :=
  (follows_solveText _ _ _).andThen fun _ =>
    (silent_checkExit _ _).bind fun _ => silent_pure _

theorem silent_patchDomainFile (path : Path) (bound : UInt64) (draws : List TemporaryName) :
    (patchDomainFile path bound draws).Silent := by
  refine Silent.bind (fun _ => rfl) fun text => ?_
  dsimp only
  split
  · exact (silent_tell _ _ _ _).bind fun _ => silent_pure _
  · exact (silent_onDisk _).bind fun _ => silent_pure _

theorem silent_applyCount (counted : PathCount) : (applyCount host s counted).Silent := by
  cases counted with
  | absent => exact (silent_tell _ _ _ _).bind fun _ => silent_pure _
  | found n =>
      refine (silent_tell _ _ _ _).bind fun _ => ?_
      exact (silent_patchDomainFile _ n _).bind fun _ => silent_pure _

theorem follows_count : Follows s [.solver (s.workDir / "number.dtl")] (count.run host s) := by
  refine (follows_solveText _ _ _).andThen fun f => ?_
  exact (silent_ofExcept _).bind fun counted => (silent_applyCount counted).bind fun _ => silent_pure _

theorem follows_solve (program : Path) : Follows s [.solver program] ((solve program).run host s) := by
  refine (silent_tell _ _ _ _).andThen fun _ => ?_
  refine follows_lastCall (fun _ => Setup.launch_solverCommand) fun f => ?_
  exact (silent_checkExit _ _).bind fun _ => silent_pure _

def translation (f : Finished) : Run String := do
  if !(Text.trim (Text.lossyChars f.stderr)).isEmpty then
    Run.tell .stages .warn ("query translation reported:\n" ++ f.stderrText)
  .ofExcept (f.requireSuccess Setup.queryLabel)
  pure f.outputText

theorem compileQuery_eq (host : Host) (s : Setup) (query : Path) :
    compileQuery host s query =
      (Run.tell .stages .info "translating query" [.plain "query" query.text] >>= fun _ =>
        Attempt.ofExcept (s.generatorCommand query) >>= fun command =>
          call host s command .separate >>= translation) := rfl

theorem translation_apply (f : Finished) (w : World) :
    ∃ w', w'.calls = w.calls ∧ w'.disk = w.disk ∧
      translation f w = ((f.requireSuccess Setup.queryLabel).map fun _ => f.outputText, w') := by
  have hrest : ∀ w : World, (Attempt.ofExcept (f.requireSuccess Setup.queryLabel) >>= fun _ =>
      pure f.outputText : Run String) w =
      ((f.requireSuccess Setup.queryLabel).map fun _ => f.outputText, w) := fun w => by
    cases hf : f.requireSuccess Setup.queryLabel <;> rfl
  unfold translation
  dsimp only
  split
  · exact ⟨w.tell _, rfl, rfl, hrest _⟩
  · exact ⟨w, rfl, rfl, hrest w⟩

theorem silent_translation (f : Finished) : (translation f).Silent := fun w => by
  obtain ⟨w', hcalls, _, h⟩ := translation_apply f w
  rw [h]
  exact hcalls

theorem follows_compileQuery (query : Path) :
    Follows s [⟨"net.sf.pql.datalog.DatalogGenerator", [query.text]⟩]
      (compileQuery host s query) := by
  rw [compileQuery_eq]
  refine (silent_tell _ _ _ _).andThen fun _ => ?_
  exact follows_lastCall (fun _ => Setup.launch_generatorCommand) silent_translation

theorem follows_query (query : Path) :
    Follows s [.solver (s.workDir / "dumpat.dtl"),
      ⟨"net.sf.pql.datalog.DatalogGenerator", [query.text]⟩,
      .solver (s.workDir / "pql_conv.dtl")] ((Stage.query query).run host s) := by
  refine (follows_solveText _ _ _).bind fun types => (silent_checkExit _ _).andThen fun _ => ?_
  refine (follows_compileQuery query).bind fun program => ?_
  refine (follows_solveText _ _ _).andThen fun f => ?_
  exact (silent_checkExit _ _).bind fun _ => silent_pure _

theorem silent_naming (request : MapRequest) : ((naming request).run host s).Silent :=
  fun _ => (naming_cases (Prod.eta _).symm).1

end Stage

namespace Runner

open Run World

variable {host : Host} {s : Setup} {stages : List Stage} {w w' : World} {e : Option Failure}

theorem Follows.leads {stage : Stage} {protocol : List Launch}
    (h : Follows s protocol (stage.run host s)) (hleads : (stage.run host s).Leads w e w') :
    ∃ launches, launches <+: protocol ∧ Starts s launches w w' ∧
      (e = none → launches = protocol) := by
  obtain ⟨w₀, w₁, r, hw, hr, hw', he⟩ := hleads
  obtain ⟨launches, hprefix, ⟨made, hcalls, hmade⟩, hall⟩ := h _ _ _ hr
  rw [hw.calls, ← hw'.calls] at hcalls
  refine ⟨launches, hprefix, ⟨made, hcalls, hmade⟩, fun hnone => ?_⟩
  cases r with
  | error e' => cases he.trans hnone
  | ok a => exact hall a rfl

/-- Stages that each have a list of their own. -/
theorem Ran.follows {schedule : List (Stage × List Launch)}
    (h : Ran host s (schedule.map Prod.fst) w e w')
    (hstages : ∀ x ∈ schedule, Follows s x.2 (x.1.run host s)) :
    ∃ launches, launches <+: schedule.flatMap Prod.snd ∧ Starts s launches w w' ∧
      (e = none → launches = schedule.flatMap Prod.snd) := by
  induction schedule generalizing w with
  | nil =>
      cases h with
      | done hw => exact ⟨[], List.prefix_refl _, starts_nil hw.calls, fun _ => rfl⟩
  | cons x schedule ih =>
      have hfirst := hstages x List.mem_cons_self
      rw [List.flatMap_cons]
      cases h with
      | failed hstage =>
          obtain ⟨launches, hprefix, hstarts, _⟩ := Follows.leads hfirst hstage
          exact ⟨launches, hprefix.trans (List.prefix_append _ _), hstarts, nofun⟩
      | passed hstage hrest =>
          obtain ⟨launches, _, hstarts, hall⟩ := Follows.leads hfirst hstage
          obtain ⟨later, hprefix, hlater, hall'⟩ :=
            ih hrest fun y hy => hstages y (List.mem_cons_of_mem x hy)
          cases hall rfl
          refine ⟨x.2 ++ later, ?_, hstarts.trans hlater, fun he => by rw [hall' he]⟩
          exact (List.prefix_append_right_inj x.2).2 hprefix

end Runner

namespace Plan

open Run Runner Stage World

def relationsProtocol (plan : Plan) : List Launch :=
  [⟨"joeq.Main.GenRelations", [plan.entryPoint]⟩,
    ⟨"net.sf.bddbddb.BuildEquivalenceRelation", ["H0", "H0", "heap.map", "I0", "invoke.map"]⟩]

def analysisProtocol (plan : Plan) (s : Setup) : List Launch :=
  match plan.analysis with
  | .datalog program => [.solver program]
  | .query query =>
    [.solver (s.workDir / "dumpat.dtl"), ⟨"net.sf.pql.datalog.DatalogGenerator", [query.text]⟩,
      .solver (s.workDir / "pql_conv.dtl")]

def protocol (plan : Plan) (s : Setup) : List Launch :=
  (if plan.mode = .full then plan.relationsProtocol else []) ++
    [.solver (s.workDir / "number.dtl"), .solver (s.workDir / "numbering.dtl")] ++
    plan.analysisProtocol s

def schedule (plan : Plan) (s : Setup) : List (Stage × List Launch) :=
  [(.prepare plan.mode, [])] ++
    (if plan.mode = .full then [(.relations plan.entryPoint, plan.relationsProtocol)] else []) ++
    [(.count, [.solver (s.workDir / "number.dtl")]),
      (.number, [.solver (s.workDir / "numbering.dtl")]),
      (plan.analysisStage, plan.analysisProtocol s)] ++
    plan.map.toList.map fun request => (.naming request, [])

theorem stages_eq_schedule (plan : Plan) (s : Setup) :
    plan.stages = (plan.schedule s).map Prod.fst := by
  unfold stages schedule
  split <;> simp [Function.comp_def]

theorem flatMap_schedule (plan : Plan) (s : Setup) :
    (plan.schedule s).flatMap Prod.snd = plan.protocol s := by
  have hmap : (plan.map.toList.map fun request => (Stage.naming request, ([] : List Launch))).flatMap
      Prod.snd = [] := by
    simp [List.flatMap_map]
  unfold schedule protocol
  rw [List.flatMap_append, hmap]
  split <;> simp

theorem follows_analysisStage (plan : Plan) (host : Host) (s : Setup) :
    Follows s (plan.analysisProtocol s) (plan.analysisStage.run host s) := by
  unfold analysisProtocol analysisStage
  cases plan.analysis with
  | datalog program => exact follows_solve program
  | query query => exact follows_query query

theorem follows_schedule (plan : Plan) (host : Host) (s : Setup) :
    ∀ x ∈ plan.schedule s, Follows s x.2 (x.1.run host s) := by
  unfold schedule
  simp only [List.forall_mem_append, List.forall_mem_cons, List.not_mem_nil, false_implies,
    implies_true, and_true, List.forall_mem_map]
  refine ⟨⟨⟨follows_prepare _, ?_⟩, follows_count, follows_number, follows_analysisStage plan host s⟩,
    fun request _ => (silent_naming request).follows⟩
  split
  · exact List.forall_mem_singleton.2 (follows_relations plan.entryPoint)
  · nofun

/-- A run starts the processes of its plan in their order, each in the run root, and
stops early only where it fails. -/
theorem run_follows_protocol (plan : Plan) (host : Host) (s : Setup) (w : World) :
    ∃ made, (plan.run host s w).2.calls = w.calls ++ made ∧
      made.map EngineCall.launch? <+: (plan.protocol s).map some ∧
      (∀ call ∈ made, call.disk.resolve s.root = .ok call.directory) ∧
      ∀ done, (plan.run host s w).1 = .ok done →
        made.map EngineCall.launch? = (plan.protocol s).map some := by
  rcases run_cases (Prod.eta (plan.run host s w)).symm with ⟨e, _, hr, hw⟩ | ⟨_, hran⟩
  · refine ⟨[], by simp [hw], List.nil_prefix, nofun, fun done hdone => ?_⟩
    cases hr.symm.trans hdone
  · rw [stages_eq_schedule plan s] at hran
    obtain ⟨launches, hprefix, ⟨made, hcalls, hmade, hroot⟩, hall⟩ :=
      hran.follows (follows_schedule plan host s)
    rw [flatMap_schedule] at hprefix hall
    refine ⟨made, hcalls, hmade ▸ hprefix.map some, hroot, fun done hdone => ?_⟩
    rw [hmade, hall (by rw [hdone]; rfl)]

end Plan
end PointsTo
