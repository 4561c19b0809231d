import Mathlib.Data.List.Basic
import PointsTo.Proofs.Checked
import PointsTo.Proofs.Lines
import PointsTo.Proofs.Mirror
import PointsTo.Proofs.Text

/-!
A query on its way to the solver. The program that is solved is what the compiler printed
on its output, whatever it said on the error stream, and a compiler that fails leaves no
program behind.
-/

namespace PointsTo

theorem Text.lossy_encode (text : String) : Text.lossy (Text.encode text) = text := by
  have hpieces : Text.pieces (Text.encode text) = text.toList.map some :=
    (Text.cuts_pieces (Text.encodeChars text.toList)).eq_map
  rw [Text.lossy, Text.lossyChars, hpieces, List.map_map]
  simp [Function.comp_def]

def Launch.compiler (query : Path) : Launch :=
  ⟨"net.sf.pql.datalog.DatalogGenerator", [query.text]⟩

theorem Launch.solver_ne_compiler (program query : Path) : solver program ≠ compiler query := by
  intro h
  have hclass : "net.sf.bddbddb.Solver" = "net.sf.pql.datalog.DatalogGenerator" :=
    congrArg Launch.mainClass h
  revert hclass
  decide

namespace Disk

variable {d d' : Disk} {p : Path} {k : Location} {name : String} {data : Bytes}

/-- A file holds the text of some bytes, and the bytes themselves if they are UTF-8. -/
structure HoldsText (d : Disk) (p : Path) (printed : Bytes) : Prop where
  lossy : d.read p = .ok (Text.encode (Text.lossy printed))
  exact : ∀ text, Text.encode text = printed → d.read p = .ok printed

theorem holdsText_of_write {printed : Bytes}
    (h : d.write p (Text.encode (Text.lossy printed)) = .ok d') : d'.HoldsText p printed where
  lossy := read_of_write h
  exact := fun text htext => by
    rw [read_of_write h, ← htext, Text.lossy_encode]

theorem find_of_write (h : d.write p data = .ok d') (hk : d.destination p ≠ .ok k) :
    d'.tree.find k = d.tree.find k := by
  obtain ⟨l, hl, rfl⟩ := written_of_write h
  obtain ⟨_, hfind, _⟩ := find_written hl data
  rw [hfind, if_neg]
  rintro rfl
  exact hk hl

theorem find_released (hn : IsName name) (hk : k.head? ≠ some name) (cleanup : Bool) :
    (d.released (p / name) cleanup).tree.find k = d.tree.find k := by
  unfold released attempt
  cases cleanup with
  | false => rfl
  | true =>
      cases hunlink : d.unlink (p / name) with
      | error e => simp
      | ok d' =>
          obtain ⟨m, dir, e, hlast, hchild, he, rfl⟩ := unlink_cases hunlink
          obtain ⟨_, _, hm⟩ := (resolveLast_div_iff hn).1 hlast
          cases hm
          have hdir := (Tree.isDirectory_eq_of_find (Tree.child?_eq_ok_iff.1 hchild).2.2).trans he
          rw [if_pos rfl, tree_remove, Tree.find_remove_of_not_directory hdir, if_neg]
          rintro rfl
          exact hk rfl

end Disk

def Action.complains : Action → Bool
  | .print .err _ => true
  | _ => false

namespace Response

def withoutErrors (r : Response) : Response :=
  { r with actions := r.actions.filter (!·.complains) }

theorem finalDisk_withoutErrors (r : Response) (call : EngineCall) :
    r.withoutErrors.finalDisk call = r.finalDisk call := by
  unfold finalDisk withoutErrors
  dsimp only
  generalize call.disk = d
  induction r.actions generalizing d with
  | nil => rfl
  | cons action actions ih =>
      cases action with
      | print stream data => cases stream <;> exact ih d
      | write path data | makeDirectory path | makeLink path target | remove path => exact ih _

theorem shown_withoutErrors (r : Response) : r.withoutErrors.shown .separate = r.shown .separate := by
  unfold shown withoutErrors
  dsimp only
  induction r.actions with
  | nil => rfl
  | cons action actions ih =>
      cases action with
      | print stream data =>
          cases stream with
          | out => simpa [Action.shown, Action.complains] using ih
          | err => simpa [Action.shown, Action.complains] using ih
      | write path data | makeDirectory path | makeLink path target | remove path =>
          simpa [Action.shown, Action.complains] using ih

end Response

/-- Two engines answer alike the calls that are made after those of `before`, but for what
the compiler of the query says on the error stream. -/
structure Engine.Agrees (e e' : Engine) (query : Path) (before calls : List EngineCall) : Prop where
  image : e'.image = e.image
  compiler : ∀ past call, past ++ [call] <+: calls → before <+: past →
    (e'.respond past call).withoutErrors = (e.respond past call).withoutErrors
  solver : ∀ past call, past ++ [call] <+: calls → before <+: past →
    call.launch? ≠ some (.compiler query) → e'.respond past call = e.respond past call

namespace Stage

open Disk Run World

variable {host host' : Host} {s : Setup} {w w' : World} {q : Path}

section Cases

variable {label fileName text : String} {mode : ErrorStream}

structure Solved (host : Host) (s : Setup) (fileName text : String) (w : World) (c : EngineCall)
    (w' : World) : Prop where
  written : w.disk.write (s.workDir / fileName) (Text.encode text) = .ok c.disk
  calls : w'.calls = w.calls ++ [c]
  disk : w'.disk = (host.engine.left w.calls c).released (s.workDir / fileName) s.config.cleanup

theorem solveText_then {α : Type} {f : Finished → Run α} {r : Except Failure α}
    (h : (solveText host s label fileName text mode >>= fun a => checkExit s label a >>= fun _ => f a)
      w = (r, w')) :
    ((∃ e, r = .error e) ∧ w'.calls = w.calls) ∨
    ∃ c v, Solved host s fileName text w c v ∧
      (((∃ e, r = .error e) ∧ w'.calls = v.calls) ∨ ∃ a, f a v = (r, w')) := by
  rcases Attempt.bind_cases h with ⟨a, w₁, hsolve, h₁⟩ | ⟨e, hsolve, rfl⟩
  · rcases solveText_cases hsolve with ⟨⟨_, he⟩, _⟩ |
      ⟨_, hwritten, ⟨⟨_, he⟩, _⟩ | ⟨c, rfl, _, _, hcalls, hdisk, _⟩⟩
    · cases he
    · cases he
    · rcases Attempt.bind_cases h₁ with ⟨_, w₂, hcheck, h₂⟩ | ⟨e, hcheck, rfl⟩
      · obtain ⟨hdisk', hcalls'⟩ := checkExit_cases hcheck
        exact Or.inr ⟨c, w₂, ⟨hwritten, hcalls'.trans hcalls, hdisk'.trans hdisk⟩, Or.inr ⟨a, h₂⟩⟩
      · exact Or.inr ⟨c, w₁, ⟨hwritten, hcalls, hdisk⟩, Or.inl ⟨⟨e, rfl⟩, (checkExit_cases hcheck).2⟩⟩
  · rcases solveText_cases hsolve with ⟨_, _, hcalls⟩ |
      ⟨_, hwritten, ⟨_, hcalls, _⟩ | ⟨c, rfl, _, _, hcalls, hdisk, _⟩⟩
    · exact Or.inl ⟨⟨e, rfl⟩, hcalls⟩
    · exact Or.inl ⟨⟨e, rfl⟩, hcalls⟩
    · exact Or.inr ⟨c, w', ⟨hwritten, hcalls, hdisk⟩, Or.inl ⟨⟨e, rfl⟩, rfl⟩⟩

theorem compileQuery_cases {r : Except Failure String} (h : compileQuery host s q w = (r, w')) :
    ((∃ e, r = .error e) ∧ w'.calls = w.calls) ∨
    ∃ b, b.disk = w.disk ∧ w'.calls = w.calls ++ [b] ∧
      (Stopped host s .separate Setup.queryLabel w.calls b r w' ∨
        (host.engine.respond w.calls b).succeeds s.config.timeLimit = true ∧
        r = .ok (Text.lossy ((host.engine.respond w.calls b).shown .separate))) := by
  rw [compileQuery_eq] at h
  obtain ⟨w₁, hdisk₁, hcalls₁, h₁⟩ := tell_then h
  rw [← bind_assoc] at h₁
  rw [← hcalls₁, ← hdisk₁]
  rcases Attempt.bind_cases h₁ with ⟨f, w₂, hcall, h₂⟩ | ⟨e, hcall, rfl⟩
  · rcases call_ends (fun _ => Setup.label_generatorCommand) hcall with
      ⟨⟨_, he⟩, _⟩ | ⟨b, hcalled, ⟨_, _, he⟩ | ⟨hlate, hf⟩⟩
    · cases he
    · cases he
    · cases hf
      obtain ⟨w₃, hcalls, hdisk, htranslation⟩ := translation_apply
        ((host.engine.respond w₁.calls b).finished .separate) w₂
      obtain ⟨rfl, rfl⟩ := Prod.mk.inj (h₂.symm.trans htranslation)
      rw [hcalled.calls] at hcalls
      refine Or.inr ⟨b, hcalled.disk, hcalls, ?_⟩
      rcases Response.requireSuccess_cases (host.engine.respond w₁.calls b) .separate
        Setup.queryLabel with ⟨hexit, hr⟩ | ⟨_, hr⟩
      · refine Or.inr ⟨by simp [Response.succeeds, hlate, hexit], ?_⟩
        rw [hr, ← Response.output_finished]
        rfl
      · rw [hr]
        exact Or.inl ⟨⟨_, rfl⟩, hcalls, hdisk.trans hcalled.ended, fun _ => rfl⟩
  · rcases call_ends (fun _ => Setup.label_generatorCommand) hcall with
      ⟨_, _, hcalls⟩ | ⟨b, hcalled, ⟨hkilled, _⟩ | ⟨_, hf⟩⟩
    · exact Or.inl ⟨⟨e, rfl⟩, hcalls⟩
    · exact Or.inr ⟨b, hcalled.disk, hcalled.calls,
        Or.inl (stopped_of_killed ⟨e, rfl⟩ hcalled hkilled)⟩
    · cases hf

/-- How far a query gets: the first program is solved, the query is compiled, and what the
compiler printed is solved. Only the last of these ends can be a success. -/
inductive QueryEnds (host : Host) (s : Setup) (w : World) (r : Except Failure Outcome)
    (w' : World) : Prop where
  | begun : (∃ e, r = .error e) → w'.calls = w.calls → QueryEnds host s w r w'
  | dumped {a : EngineCall} : (∃ e, r = .error e) → w'.calls = w.calls ++ [a] →
      QueryEnds host s w r w'
  | stopped {a b : EngineCall} {v : World} :
      Solved host s dumpTypesFile (Datalog.render Datalog.dumpTypes s.workDir) w a v →
      b.disk = v.disk → Stopped host s .separate Setup.queryLabel (w.calls ++ [a]) b r w' →
      QueryEnds host s w r w'
  | compiled {a b : EngineCall} :
      (host.engine.respond (w.calls ++ [a]) b).succeeds s.config.timeLimit = true →
      (∃ e, r = .error e) → w'.calls = w.calls ++ [a, b] → QueryEnds host s w r w'
  | solved {a b c : EngineCall} :
      (host.engine.respond (w.calls ++ [a]) b).succeeds s.config.timeLimit = true →
      c.disk.HoldsText (s.workDir / compiledFile)
        ((host.engine.respond (w.calls ++ [a]) b).shown .separate) →
      w'.calls = w.calls ++ [a, b, c] →
      (∀ outcome, r = .ok outcome → outcome.summary = some ("translated " ++ Decimal.text
        (Text.lines
          (Text.lossy ((host.engine.respond (w.calls ++ [a]) b).shown .separate)).toList).length
        ++ " lines of Datalog")) →
      QueryEnds host s w r w'

theorem queryEnds_of_run {r : Except Failure Outcome} (h : (query q).run host s w = (r, w')) :
    QueryEnds host s w r w' := by
  rcases solveText_then h with ⟨he, hcalls⟩ | ⟨a, v, hsolved, ⟨he, hcalls⟩ | ⟨_, h₁⟩⟩
  · exact .begun he hcalls
  · exact .dumped he (hcalls.trans hsolved.calls)
  · have hcalls := hsolved.calls
    rcases Attempt.bind_cases h₁ with ⟨text, v₁, hcompile, h₂⟩ | ⟨e, hcompile, rfl⟩
    · rcases compileQuery_cases hcompile with
        ⟨⟨_, he⟩, _⟩ | ⟨b, _, hcalls₁, hstopped | ⟨hsucceeds, htext⟩⟩
      · cases he
      · obtain ⟨_, he⟩ := hstopped.failed
        cases he
      · cases htext
        rw [hcalls, List.append_assoc, List.singleton_append] at hcalls₁
        rw [hcalls] at hsucceeds h₂
        rcases solveText_then h₂ with ⟨he, hcalls₂⟩ | ⟨c, v₂, hsolved', hrest⟩
        · exact .compiled hsucceeds he (hcalls₂.trans hcalls₁)
        · have hholds := holdsText_of_write hsolved'.written
          have hcalls₂ : v₂.calls = w.calls ++ [a, b, c] := by simp [hsolved'.calls, hcalls₁]
          rcases hrest with ⟨⟨e, rfl⟩, hcalls₃⟩ | ⟨f, h₃⟩
          · exact .solved hsucceeds hholds (hcalls₃.trans hcalls₂) nofun
          · cases h₃
            refine .solved hsucceeds hholds hcalls₂ fun outcome hok => ?_
            cases hok
            rfl
    · rcases compileQuery_cases hcompile with ⟨_, hcalls₁⟩ | ⟨b, hb, _, hstopped | ⟨_, htext⟩⟩
      · exact .dumped ⟨e, rfl⟩ (hcalls₁.trans hcalls)
      · rw [hcalls] at hstopped
        refine .stopped hsolved hb ⟨⟨e, rfl⟩, hstopped.calls, hstopped.disk, fun hfails => ?_⟩
        cases hstopped.shown hfails
        rfl
      · cases htext

end Cases

section Agrees

variable {α : Type} {C : Coupling} {P : α → α → Prop} {x y : Run α}
  {before left right : List EngineCall} {R : Response → Response → Prop} {command : Command}

theorem mirrors_ensuring {change : World → World} (h : Mirrors C P x y)
    (hcalls : ∀ w, (change w).calls = w.calls)
    (hstop : ∀ {v w}, C.stop v w → C.stop (change v) (change w))
    (hrel : ∀ {v w}, C.rel v w → C.rel (change v) (change w)) :
    Mirrors C P (x.ensuring change) (y.ensuring change) where
  later := h.later.ensuring extends_chains.trans fun w => hcalls w ▸ List.prefix_refl _
  later' := h.later'.ensuring extends_chains.trans fun w => hcalls w ▸ List.prefix_refl _
  same := fun {v w} hvw hleft hright => by
    rw [Attempt.ensuring_apply, hcalls] at hleft hright
    obtain ⟨hends, hstops, hgo⟩ := h.same hvw hleft hright
    exact ⟨hends, hstop hstops, fun a ha => hrel (hgo a ha)⟩

theorem prefix_of_calls (h : before <+: w.calls) (hw : w'.calls = w.calls) : before <+: w'.calls :=
  hw ▸ h

abbrev goingOn (before left right : List EngineCall) : Coupling :=
  .holding (fun w => before <+: w.calls) (fun h hw => prefix_of_calls h hw.calls) left right

theorem mirrors_steady (h : Steady x) (hlater : x.Extends) :
    Mirrors (goingOn before left right) Eq x x :=
  @Steady.holding _ _ _ (fun h hw => prefix_of_calls h hw.calls) _ _ h hlater fun hw _ =>
    hw.trans (hlater _)

/-- What is known of answers that are related: they leave the same disk, and the ends of
the two processes are related too. -/
structure Compares (R : Response → Response → Prop) (mode : ErrorStream)
    (Q : Finished → Finished → Prop) : Prop where
  refl : ∀ r, R r r
  disk : ∀ {r r'}, R r r' → ∀ call, r'.finalDisk call = r.finalDisk call
  late : ∀ {r r'}, R r r' → r'.late = r.late
  finished : ∀ {r r'}, R r r' → Q (r.finished mode) (r'.finished mode)

theorem compares_eq (mode : ErrorStream) : Compares Eq mode Eq where
  refl := fun _ => rfl
  disk := fun h _ => h ▸ rfl
  late := fun h => h ▸ rfl
  finished := fun h => h ▸ rfl

theorem compares_withoutErrors : Compares (fun r r' => r'.withoutErrors = r.withoutErrors) .separate
    (fun f f' => f'.output = f.output ∧ f'.code = f.code ∧ f'.success = f.success) where
  refl := fun _ => rfl
  disk := fun {r r'} h call => by
    rw [← r'.finalDisk_withoutErrors, h, r.finalDisk_withoutErrors]
  late := fun {r r'} h => (congrArg Response.late h : r'.withoutErrors.late = r.withoutErrors.late)
  finished := fun {r r'} h => by
    have hexit : r'.exitCode? = r.exitCode? :=
      (congrArg Response.exitCode? h : r'.withoutErrors.exitCode? = r.withoutErrors.exitCode?)
    refine ⟨?_, hexit, by simp only [Response.finished, hexit]⟩
    rw [Response.output_finished, Response.output_finished, ← r'.shown_withoutErrors, h,
      r.shown_withoutErrors]

theorem extends_start (host : Host) (command : Command) (directory : Path) :
    (Run.start host command directory).Extends := fun w => by
  rcases start_cases (Prod.eta (Run.start host command directory w)).symm with
    ⟨_, _, hw⟩ | ⟨call, hcalled, _⟩
  · simp only [hw, List.prefix_refl]
  · simp only [hcalled.calls, List.prefix_append]

/-- A process is started on two engines, and their answers are related. -/
theorem mirrors_start {mode : ErrorStream} {Q : Finished → Finished → Prop}
    (hcompares : Compares R mode Q) (himage : host'.engine.image = host.engine.image)
    (hR : ∀ past call, past ++ [call] <+: left → before <+: past → call.args = command.args →
      R (host.engine.respond past call) (host'.engine.respond past call)) (directory : Path) :
    Mirrors (goingOn before left right) R (Run.start host command directory)
      (Run.start host' command directory) where
  later := extends_start host command directory
  later' := extends_start host' command directory
  same := fun {v w} ⟨halike, hbefore⟩ hleft _ => by
    unfold Run.start at hleft ⊢
    rw [himage, halike.disk, halike.calls]
    cases hcheck : v.disk.checkStart host.engine.image command directory with
    | error e => exact ⟨rfl, ⟨halike, hbefore⟩, nofun⟩
    | ok l =>
        rw [hcheck] at hleft
        have hprefix : before <+: v.calls := halike.calls ▸ hbefore
        have hrelated := hR _ _ hleft hprefix rfl
        have halike' :=
          hcompares.disk hrelated ⟨command.label, command.program, command.args, l, v.disk⟩
        have hprefix' := hprefix.trans (List.prefix_append v.calls
          [⟨command.label, command.program, command.args, l, v.disk⟩])
        exact ⟨hrelated, ⟨⟨halike', rfl⟩, hprefix'⟩, fun _ _ => ⟨⟨halike', rfl⟩, hprefix'⟩⟩

theorem mirrors_call {mode : ErrorStream} {Q : Finished → Finished → Prop}
    (hcompares : Compares R mode Q) (himage : host'.engine.image = host.engine.image)
    (hR : ∀ past call, past ++ [call] <+: left → before <+: past → call.args = command.args →
      R (host.engine.respond past call) (host'.engine.respond past call)) :
    Mirrors (goingOn before left right) Q (call host s command mode) (call host' s command mode) := by
  refine (mirrors_tell _ _ _ _ _ _ _ (by simp) (by simp)).bind fun _ =>
    (mirrors_start hcompares himage hR s.root).bindUpTo hcompares.refl fun r r' hr => ?_
  rw [hcompares.late hr]
  split
  · exact (mirrors_tell _ _ _ _ _ _ _ (by simp) (by simp)).bind fun _ =>
      mirrors_of_like .refl .refl fun _ _ => rfl
  · exact mirrors_pure (hcompares.finished hr)

theorem mirrors_solveText {label fileName text : String} {mode : ErrorStream}
    (hagrees : host.engine.Agrees host'.engine q before left) :
    Mirrors (goingOn before left right) Eq (solveText host s label fileName text mode)
      (solveText host' s label fileName text mode) := by
  have hrelease : ∀ {v w}, (goingOn before left right).rel v w → (goingOn before left right).rel
      (ProgramFile.release (s.workDir / fileName) s.config.cleanup v)
      (ProgramFile.release (s.workDir / fileName) s.config.cleanup w) := fun ⟨halike, hbefore⟩ =>
    ⟨alike_release halike _ _, prefix_of_calls hbefore (ProgramFile.release_eq _ _ _).2⟩
  refine (mirrors_steady (steady_materialize _ _) (silent_materialize _ _).extends).bind fun _ =>
    mirrors_ensuring ?_ (fun w => (ProgramFile.release_eq _ _ w).2) hrelease hrelease
  refine mirrors_ofExcept_bind fun command hc =>
    mirrors_call (compares_eq mode) hagrees.image fun past call hcall hpast hargs => ?_
  have hlaunch : call.launch? = some (.solver (s.workDir / fileName)) := by
    rw [EngineCall.launch?, hargs]
    exact Setup.launch_solverCommand hc
  refine (hagrees.solver past call hcall hpast ?_).symm
  rw [hlaunch]
  exact fun h => Launch.solver_ne_compiler _ _ (Option.some.inj h)

/-- What the compiler said on the error stream is passed on, and decides nothing. -/
theorem mirrors_translation_of_same {f f' : Finished}
    (h : f'.output = f.output ∧ f'.code = f.code ∧ f'.success = f.success) :
    Mirrors (goingOn before left right) Eq (translation f) (translation f') where
  later := (silent_translation f).extends
  later' := (silent_translation f').extends
  same := fun {v w} ⟨halike, hbefore⟩ _ _ => by
    obtain ⟨v', hcalls, hdisk, hv⟩ := translation_apply f v
    obtain ⟨w', hcalls', hdisk', hw⟩ := translation_apply f' w
    have hrel : (goingOn before left right).rel v' w' :=
      ⟨⟨by rw [hdisk', hdisk, halike.disk], by rw [hcalls', hcalls, halike.calls]⟩,
        prefix_of_calls hbefore hcalls'⟩
    rw [hv, hw]
    refine ⟨ends_eq_iff.2 ?_, hrel, fun _ _ => hrel⟩
    obtain ⟨output, errors, code, success⟩ := f
    obtain ⟨output', errors', code', success'⟩ := f'
    obtain ⟨rfl, rfl, rfl⟩ := h
    rfl

theorem mirrors_query (hagrees : host.engine.Agrees host'.engine q before left) :
    Mirrors (goingOn before left right) Eq ((query q).run host s) ((query q).run host' s) := by
  refine (mirrors_solveText hagrees).bind fun types => (mirrors_checkExit _ types).bind fun _ =>
    Mirrors.bind (x := compileQuery host s q) ?_ fun program => ?_
  · rw [compileQuery_eq, compileQuery_eq]
    refine (mirrors_tell _ _ _ _ _ _ _ (by simp) (by simp)).bind fun _ =>
      mirrors_ofExcept_bind fun command _ => ?_
    exact (mirrors_call compares_withoutErrors hagrees.image fun past call hcall hpast _ =>
      hagrees.compiler past call hcall hpast).bindUpTo (fun _ => ⟨rfl, rfl, rfl⟩) fun f f' =>
        mirrors_translation_of_same
  · exact (mirrors_solveText hagrees).bind fun f => (mirrors_checkExit _ f).bind fun _ =>
      mirrors_pure rfl

end Agrees

section Query

variable {a b c : EngineCall} {rest : List EngineCall} {r : Except Failure Outcome}

theorem holdsText_of_query (h : (query q).run host s w = (r, w'))
    (hcalls : w'.calls = w.calls ++ [a, b, c]) :
    c.disk.HoldsText (s.workDir / compiledFile)
      ((host.engine.respond (w.calls ++ [a]) b).shown .separate) := by
  cases queryEnds_of_run h with
  | begun _ hmade | dumped _ hmade | compiled _ _ hmade => simp [hcalls] at hmade
  | stopped _ _ hstopped => simpa [hcalls] using hstopped.calls
  | solved _ hholds hmade _ =>
      rw [hcalls, List.append_cancel_left_eq] at hmade
      cases hmade
      exact hholds

theorem summary_of_query {outcome : Outcome} (h : (query q).run host s w = (.ok outcome, w')) :
    ∃ a b c lines, w'.calls = w.calls ++ [a, b, c] ∧
      Text.IsLines (Text.lossy ((host.engine.respond (w.calls ++ [a]) b).shown .separate)).toList
        lines ∧
      outcome.summary = some ("translated " ++ Decimal.text lines.length ++ " lines of Datalog") := by
  have hno : ∀ e, (.ok outcome : Except Failure Outcome) ≠ .error e := nofun
  cases queryEnds_of_run h with
  | begun hfailed _ | dumped hfailed _ | compiled _ hfailed _ =>
      obtain ⟨e, he⟩ := hfailed
      exact absurd he (hno e)
  | stopped _ _ hstopped =>
      obtain ⟨e, he⟩ := hstopped.failed
      exact absurd he (hno e)
  | solved _ _ hmade hsummary =>
      refine ⟨_, _, _, _, hmade, Text.isLines_iff.2 rfl, ?_⟩
      rw [hsummary outcome rfl, Text.lines, List.length_map]

theorem same_of_query {r' : Except Failure Outcome} {v : World}
    (h : (query q).run host s w = (r, w'))
    (hagrees : host.engine.Agrees host'.engine q w.calls w'.calls)
    (h' : (query q).run host' s w = (r', v)) : r' = r ∧ v.calls = w'.calls ∧ v.disk = w'.disk := by
  have hmirrors : Mirrors (goingOn w.calls w'.calls v.calls) Eq ((query q).run host s)
    ((query q).run host' s) := mirrors_query hagrees
  have hstart : (goingOn w.calls w'.calls v.calls).rel w w := ⟨.refl w, List.prefix_refl _⟩
  have hsame := hmirrors.same hstart
  rw [h, h'] at hsame
  obtain ⟨hends, hstop, _⟩ := hsame (List.prefix_refl _) (List.prefix_refl _)
  exact ⟨(ends_eq_iff.1 hends).symm, hstop.1.calls, hstop.1.disk⟩

/-- A compiler that fails is the last thing that is called. -/
theorem failed_of_query (h : (query q).run host s w = (r, w'))
    (hcalls : w'.calls = w.calls ++ a :: b :: rest)
    (hfails : (host.engine.respond (w.calls ++ [a]) b).Fails s.config.timeLimit) :
    rest = [] ∧ Stopped host s .separate Setup.queryLabel (w.calls ++ [a]) b r w' ∧
      ∃ v, Solved host s dumpTypesFile (Datalog.render Datalog.dumpTypes s.workDir) w a v ∧
        b.disk = v.disk := by
  cases queryEnds_of_run h with
  | begun _ hmade | dumped _ hmade => simp [hcalls] at hmade
  | stopped hsolved hb hstopped =>
      have hmade := hstopped.calls
      rw [hcalls, List.append_assoc, List.append_cancel_left_eq] at hmade
      cases hmade
      exact ⟨rfl, hstopped, _, hsolved, hb⟩
  | compiled hsucceeds _ hmade | solved hsucceeds _ hmade _ =>
      rw [hcalls, List.append_cancel_left_eq] at hmade
      cases hmade
      exact absurd hfails (Response.not_fails_of_succeeds hsucceeds)

/-- What no call touches and the first program is not written to stays as it is. -/
theorem find_of_stopped {v : World} {k : Location} {text : String}
    (hsolved : Solved host s dumpTypesFile text w a v) (hb : b.disk = v.disk)
    (hstopped : Stopped host s .separate Setup.queryLabel (w.calls ++ [a]) b r w')
    (hk : k.head? = some compiledFile)
    (hdumped : w.disk.destination (s.workDir / dumpTypesFile) ≠ .ok k)
    (ha : (host.engine.left w.calls a).tree.find k = a.disk.tree.find k)
    (hb' : (host.engine.left (w.calls ++ [a]) b).tree.find k = b.disk.tree.find k) :
    ∀ d ∈ [a.disk, b.disk, w'.disk], d.tree.find k = w.disk.tree.find k := by
  have hfirst : a.disk.tree.find k = w.disk.tree.find k := find_of_write hsolved.written hdumped
  have hsecond : b.disk.tree.find k = w.disk.tree.find k := by
    rw [hb, hsolved.disk, find_released (by decide) (by rw [hk]; decide), ha, hfirst]
  have hlast : w'.disk.tree.find k = w.disk.tree.find k := by
    rw [hstopped.disk, hb', hsecond]
  simp [hfirst, hsecond, hlast]

/-- A query makes at most three calls. The third one finds the program that the compiler
printed on its output, of which the summary counts the lines. What the compiler says on
the error stream changes nothing. If it fails, that was the last call, the failure shows
its output, and no file was made for the program, unless the file of the first program is
a link to it. -/
theorem query_solves_compiled_text (h : (query q).run host s w = (r, w')) :
    ∃ made, w'.calls = w.calls ++ made ∧
      made.map EngineCall.launch? <+: [some (.solver (s.workDir / dumpTypesFile)),
        some (.compiler q), some (.solver (s.workDir / compiledFile))] ∧
      (∀ a b c, made = [a, b, c] → c.disk.HoldsText (s.workDir / compiledFile)
        ((host.engine.respond (w.calls ++ [a]) b).shown .separate)) ∧
      (∀ outcome, r = .ok outcome → ∃ a b c lines, made = [a, b, c] ∧
        Text.IsLines (Text.lossy ((host.engine.respond (w.calls ++ [a]) b).shown .separate)).toList
          lines ∧
        outcome.summary = some ("translated " ++ Decimal.text lines.length ++ " lines of Datalog")) ∧
      (∀ host' : Host, host.engine.Agrees host'.engine q w.calls w'.calls →
        ∀ r' v, (query q).run host' s w = (r', v) → r' = r ∧ v.calls = w'.calls ∧ v.disk = w'.disk) ∧
      ∀ a b rest, made = a :: b :: rest →
        (host.engine.respond (w.calls ++ [a]) b).Fails s.config.timeLimit →
        rest = [] ∧
        r = .error ((host.engine.respond (w.calls ++ [a]) b).failure .separate Setup.queryLabel) ∧
        ∀ k, k.head? = some compiledFile →
          w.disk.destination (s.workDir / dumpTypesFile) ≠ .ok k →
          (host.engine.left w.calls a).tree.find k = a.disk.tree.find k →
          (host.engine.left (w.calls ++ [a]) b).tree.find k = b.disk.tree.find k →
          ∀ d ∈ [a.disk, b.disk, w'.disk], d.tree.find k = w.disk.tree.find k := by
  obtain ⟨launches, hprefix, ⟨made, hcalls, hmade, _⟩, _⟩ := follows_query q _ _ _ h
  refine ⟨made, hcalls, hmade ▸ hprefix.map some, fun a b c habc => ?_, fun outcome hok => ?_,
    fun host' hagrees r' v h' => ?_, fun a b rest hrest hfails => ?_⟩
  · exact holdsText_of_query h (habc ▸ hcalls)
  · obtain ⟨a, b, c, lines, hcalls', hlines⟩ := summary_of_query (hok ▸ h)
    rw [hcalls, List.append_cancel_left_eq] at hcalls'
    exact ⟨a, b, c, lines, hcalls', hlines⟩
  · exact same_of_query h hagrees h'
  · obtain ⟨hlast, hstopped, v, hsolved, hb⟩ := failed_of_query h (hrest ▸ hcalls) hfails
    exact ⟨hlast, hstopped.shown hfails, fun k hk hdumped ha hb' =>
      find_of_stopped hsolved hb hstopped hk hdumped ha hb'⟩

def twoLines (errors : Bytes) (exit : Exit) : Response :=
  ⟨[.print .out [97, 10], .print .err errors, .print .out [255, 98]], false, exit⟩

def compilerHost (errors : Bytes) (exit : Exit) : Host :=
  .scripted [] [⟨[], false, .code 0⟩, twoLines errors exit]

theorem agrees_compilerHost {calls : List EngineCall}
    (h : ∀ past call, past ++ [call] <+: calls → past.length = 1 → call.launch? = some (.compiler q))
    {errors : Bytes} (errors' : Bytes) (exit : Exit) :
    (compilerHost errors exit).engine.Agrees (compilerHost errors' exit).engine q [] calls := by
  refine ⟨rfl, fun past call _ _ => ?_, fun past call hcall _ hlaunch => ?_⟩
  · rcases past with _ | ⟨_, _ | ⟨_, _⟩⟩ <;> rfl
  · rcases past with _ | ⟨_, _ | ⟨_, _⟩⟩
    · rfl
    · exact absurd (h _ _ hcall rfl) hlaunch
    · rfl

def compiledStore (inside : List (Location × Entry)) : Disk :=
  .holding ([(["java"], .file [] 0o755), (["run"], .directory 0o755),
    (["results", "run"], .directory 0o755)] ++ inside)

theorem query_solves_two_lines :
    let run := fun host => (query ⟨"leak.pql"⟩).run host Setup.usual (.ofDisk (compiledStore []))
    let told := run (compilerHost [33] (.code 0))
    let untold := run (compilerHost [] (.code 0))
    let failed := run (compilerHost [33] (.code 1))
    (∃ a b c, told.2.calls = [a, b, c] ∧
      c.disk.read (Setup.usual.workDir / compiledFile) = .ok [97, 10, 0xEF, 0xBF, 0xBD, 98]) ∧
    told.1 = .ok ⟨some ⟨[], [], some 0, true⟩, some "translated 2 lines of Datalog"⟩ ∧
    untold.1 = told.1 ∧ untold.2.calls = told.2.calls ∧ untold.2.disk = told.2.disk ∧
    failed.1 = .error (.stage "pql" "exit code 1" "a\n\ufffdb") ∧
    failed.2.disk.tree.find ["pql_conv.dtl", "results", "run"] = none := by
  intro run told untold failed
  have htold : told.1 = .ok ⟨some ⟨[], [], some 0, true⟩, some "translated 2 lines of Datalog"⟩ ∧
      ∀ past call, past ++ [call] <+: told.2.calls → past.length = 1 →
        call.launch? = some (.compiler ⟨"leak.pql"⟩) := by
    decide +kernel
  have hfailed : failed.2.calls.length = 2 ∧ ∀ past call, past ++ [call] <+: failed.2.calls →
      ((compilerHost [33] (.code 1)).engine.left past call).tree.find
        ["pql_conv.dtl", "results", "run"] = none ∧
      call.disk.tree.find ["pql_conv.dtl", "results", "run"] = none := by
    decide +kernel
  have hdumped : (compiledStore []).destination (Setup.usual.workDir / dumpTypesFile) ≠
      .ok ["pql_conv.dtl", "results", "run"] := by
    decide +kernel
  have hshown : Text.encode (Text.lossy [97, 10, 255, 98]) = [97, 10, 0xEF, 0xBF, 0xBD, 98] := by
    decide +kernel
  obtain ⟨made, hcalls, _, hholds, hok, hsame, _⟩ := query_solves_compiled_text (Prod.eta told).symm
  obtain ⟨made', hcalls', _, _, _, _, hfails⟩ := query_solves_compiled_text (Prod.eta failed).symm
  obtain ⟨a, b, c, _, rfl, _⟩ := hok _ htold.1
  have hread := (hholds a b c rfl).lossy
  obtain ⟨huntold, huntold', huntold''⟩ :=
    hsame _ (agrees_compilerHost htold.2 [] (.code 0)) _ _ (Prod.eta untold).symm
  obtain ⟨a', b', rfl⟩ : ∃ a' b', made' = [a', b'] :=
    List.length_eq_two.1 ((congrArg List.length hcalls').symm.trans hfailed.1)
  have hexit : (twoLines [33] (.code 1)).Fails none := by decide
  have hfailure : (twoLines [33] (.code 1)).failure .separate Setup.queryLabel =
      .stage "pql" "exit code 1" "a\n\ufffdb" := by
    decide +kernel
  obtain ⟨_, hr, hspared⟩ := hfails a' b' [] rfl hexit
  obtain ⟨hfirst, hfirst'⟩ := hfailed.2 [] a' (by rw [hcalls']; exact List.prefix_append [a'] [b'])
  obtain ⟨hsecond, hsecond'⟩ := hfailed.2 [a'] b' (by rw [hcalls']; exact List.prefix_refl _)
  refine ⟨⟨a, b, c, hcalls, hread.trans (congrArg _ hshown)⟩, htold.1, huntold, huntold',
    huntold'', ?_, ?_⟩
  · exact hr.trans (congrArg _ hfailure)
  · exact hspared _ rfl hdumped (hfirst.trans hfirst'.symm) (hsecond.trans hsecond'.symm) _ (by simp)

/-- The first program is written through a link, and so makes the file for the second one. -/
theorem query_fails_with_file_made :
    let d := compiledStore [(["dumpat.dtl", "results", "run"], .link ⟨"pql_conv.dtl"⟩)]
    let run := (query ⟨"leak.pql"⟩).run (compilerHost [] (.code 1)) Setup.usual (.ofDisk d)
    Setup.usual.config.validate d = .ok () ∧
      run.1 = .error (.stage "pql" "exit code 1" "a\n\ufffdb") ∧ run.2.calls.length = 2 ∧
      d.tree.find ["pql_conv.dtl", "results", "run"] = none ∧
      (run.2.disk.tree.find ["pql_conv.dtl", "results", "run"]).isSome = true := by
  decide +kernel

end Query
end Stage
end PointsTo
