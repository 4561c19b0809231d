import PointsTo.Proofs.Protocol

/-!
Two runs side by side. Their worlds are related as long as both go on, and the steps
of one mirror those of the other: from related worlds they end alike, in worlds that
are related again. So two whole runs are compared by comparing what their stages do to
the disk and how they call the engine.
-/

namespace PointsTo

def ProgramFile.note (path : Path) : Log.Event :=
  ⟨.stages, .debug, "program materialized", [.plain "path" path.text]⟩

namespace World

def Materialized (w : World) (path : Path) : Prop :=
  ProgramFile.note path ∈ w.events

instance (w : World) (path : Path) : Decidable (w.Materialized path) :=
  inferInstanceAs (Decidable (_ ∈ _))

/-- The same disk and the same calls, and no other program written. -/
structure Like (v w : World) : Prop extends Alike v w where
  materialized : ∀ path, w.Materialized path ↔ v.Materialized path

theorem Like.refl (w : World) : w.Like w :=
  ⟨.refl w, fun _ => Iff.rfl⟩

theorem Like.trans {u v w : World} (h : u.Like v) (h' : v.Like w) : u.Like w :=
  ⟨h.toAlike.trans h'.toAlike, fun path => (h'.materialized path).trans (h.materialized path)⟩

theorem like_tell (w : World) {e : Log.Event}
    (h : e.source ≠ .stages ∨ e.level ≠ .debug ∨ e.fields = []) : w.Like (w.tell e) := by
  refine ⟨⟨rfl, rfl⟩, fun path => ?_⟩
  unfold Materialized tell
  rw [List.mem_append, List.mem_singleton]
  refine or_iff_left ?_
  rintro rfl
  simp [ProgramFile.note] at h

end World

/-- How two runs are compared. -/
structure Coupling where
  /-- What relates their worlds while both go on. -/
  rel : World → World → Prop
  /-- What relates the worlds that they end in. -/
  stop : World → World → Prop
  /-- All the calls of the one run, and all those of the other. -/
  left : List EngineCall
  right : List EngineCall
  stop_of_rel : ∀ {v w}, rel v w → stop v w
  rel_like : ∀ {v w v' w'}, rel v w → v.Like v' → w.Like w' → rel v' w'
  stop_like : ∀ {v w v' w'}, stop v w → v.Like v' → w.Like w' → stop v' w'

theorem World.Alike.like {v w v' w' : World} (h : v.Alike w) (hv : v.Like v') (hw : w.Like w') :
    v'.Alike w' :=
  ⟨by rw [hw.disk, h.disk, hv.disk], by rw [hw.calls, h.calls, hv.calls]⟩

def Coupling.alike (left right : List EngineCall) : Coupling where
  rel := World.Alike
  stop := World.Alike
  left := left
  right := right
  stop_of_rel := id
  rel_like := fun h hv hw => h.like hv hw
  stop_like := fun h hv hw => h.like hv hw

def Coupling.holding (Inv : World → Prop) (hInv : ∀ {w w'}, Inv w → w.Like w' → Inv w')
    (left right : List EngineCall) : Coupling where
  rel := fun v w => v.Alike w ∧ Inv w
  stop := fun v w => v.Alike w ∧ Inv w
  left := left
  right := right
  stop_of_rel := id
  rel_like := fun ⟨h, hw⟩ hv hw' => ⟨h.like hv hw', hInv hw hw'⟩
  stop_like := fun ⟨h, hw⟩ hv hw' => ⟨h.like hv hw', hInv hw hw'⟩

/-- The same failure, or two values that belong together. -/
def Ends {α β : Type} (P : α → β → Prop) : Except Failure α → Except Failure β → Prop
  | .ok a, .ok b => P a b
  | .error e, .error e' => e = e'
  | _, _ => False

theorem ends_eq_iff {α : Type} {r r' : Except Failure α} : Ends Eq r r' ↔ r = r' := by
  cases r <;> cases r' <;> simp [Ends]

theorem ends_map_iff {α γ : Type} {f : α → γ} {r r' : Except Failure α} :
    Ends (fun a b => f a = f b) r r' ↔ r.map f = r'.map f := by
  cases r <;> cases r' <;> simp [Ends, Except.map]

namespace Run

open World

abbrev Extends {α : Type} (x : Run α) : Prop :=
  x.Keeps fun w w' => w.calls <+: w'.calls

theorem extends_chains : Chains fun w w' => w.calls <+: w'.calls where
  same := fun _ h => h ▸ List.prefix_refl _
  trans := fun _ _ _ h h' => h.trans h'

variable {α β : Type} {C : Coupling} {P : α → α → Prop} {Q : β → β → Prop} {x y : Run α}

structure MirrorsAt (C : Coupling) (P : α → α → Prop) (p q : Except Failure α × World) : Prop where
  ends : Ends P p.1 q.1
  stop : C.stop p.2 q.2
  rel : ∀ a, p.1 = .ok a → C.rel p.2 q.2

/-- From related worlds two steps end alike, if the calls that they make are among
those of the two runs. -/
structure Mirrors (C : Coupling) (P : α → α → Prop) (x y : Run α) : Prop where
  later : x.Extends
  later' : y.Extends
  same : ∀ {v w}, C.rel v w → (x v).2.calls <+: C.left → (y w).2.calls <+: C.right →
    MirrorsAt C P (x v) (y w)

theorem prefix_bind {f : α → Run β} (hf : ∀ a, (f a).Extends) (x : Run α) (w : World) :
    (x w).2.calls <+: ((x >>= f) w).2.calls := by
  rw [Attempt.bind_apply]
  rcases x w with ⟨_ | a, w₁⟩
  · exact List.prefix_refl _
  · exact hf a w₁

/-- What is done with values that belong together. From there on the worlds may be
compared in another way. -/
theorem Mirrors.switch {C' : Coupling} {f g : α → Run β} {v w : World} (hx : Mirrors C P x y)
    (hlater : ∀ a, (f a).Extends) (hlater' : ∀ a, (g a).Extends)
    (hf : ∀ a b, P a b → Mirrors C' Q (f a) (g b)) (hleft : C'.left = C.left)
    (hright : C'.right = C.right) (hstop : ∀ {v w}, C.stop v w → C'.stop v w)
    (hgo : ∀ {b v' w'}, y w = (.ok b, w') → C.rel v' w' → C'.rel v' w') (hrel : C.rel v w)
    (hcalls : ((x >>= f) v).2.calls <+: C.left) (hcalls' : ((y >>= g) w).2.calls <+: C.right) :
    MirrorsAt C' Q ((x >>= f) v) ((y >>= g) w) := by
  obtain ⟨hends, hstops, hrels⟩ := hx.same hrel ((prefix_bind hlater x v).trans hcalls)
    ((prefix_bind hlater' y w).trans hcalls')
  rw [Attempt.bind_apply] at hcalls ⊢
  rw [Attempt.bind_apply] at hcalls' ⊢
  rcases hxv : x v with ⟨r, v₁⟩
  rcases hyw : y w with ⟨r', w₁⟩
  rw [hxv] at hcalls hends hstops hrels
  rw [hyw] at hcalls' hends hstops hrels
  cases r with
  | error e =>
      cases r' with
      | error e' => exact ⟨hends, hstop hstops, nofun⟩
      | ok b => exact hends.elim
  | ok a =>
      cases r' with
      | error e' => exact hends.elim
      | ok b => exact (hf a b hends).same (hgo hyw (hrels a rfl)) (hleft ▸ hcalls) (hright ▸ hcalls')

theorem Mirrors.follow {f g : α → Run β} (hx : Mirrors C P x y) (hlater : ∀ a, (f a).Extends)
    (hlater' : ∀ a, (g a).Extends) (hf : ∀ a b, P a b → Mirrors C Q (f a) (g b)) :
    Mirrors C Q (x >>= f) (y >>= g) where
  later := keeps_bind extends_chains hx.later hlater
  later' := keeps_bind extends_chains hx.later' hlater'
  same := hx.switch hlater hlater' hf rfl rfl id fun _ hrel => hrel

theorem Mirrors.bindUpTo {f g : α → Run β} (hx : Mirrors C P x y) (hrefl : ∀ a, P a a)
    (hf : ∀ a b, P a b → Mirrors C Q (f a) (g b)) : Mirrors C Q (x >>= f) (y >>= g) :=
  hx.follow (fun a => (hf a a (hrefl a)).later) (fun a => (hf a a (hrefl a)).later') hf

theorem Mirrors.bind {f g : α → Run β} (hx : Mirrors C Eq x y)
    (hf : ∀ a, Mirrors C Q (f a) (g a)) : Mirrors C Q (x >>= f) (y >>= g) :=
  hx.bindUpTo (fun _ => rfl) fun a _ hab => hab ▸ hf a

/-- A step that depends on nothing that differs and changes nothing that is compared. -/
theorem mirrors_of_like (hx : ∀ v : World, v.Like (x v).2)
    (hy : ∀ w : World, w.Like (y w).2)
    (h : ∀ v w, Ends P (x v).1 (y w).1) : Mirrors C P x y where
  later := fun v => extends_chains.same (hx v).disk (hx v).calls
  later' := fun w => extends_chains.same (hy w).disk (hy w).calls
  same := fun {v w} hrel _ _ =>
    have hends := C.rel_like hrel (hx v) (hy w)
    ⟨h v w, C.stop_of_rel hends, fun _ _ => hends⟩

theorem mirrors_pure {a b : α} (h : P a b) : Mirrors C P (pure a) (pure b) :=
  mirrors_of_like .refl .refl fun _ _ => h

theorem mirrors_ofExcept (x : Except Failure α) :
    Mirrors C Eq (Attempt.ofExcept x) (Attempt.ofExcept x) :=
  mirrors_of_like .refl .refl fun _ _ => ends_eq_iff.2 rfl

theorem mirrors_ofExcept_bind {x : Except Failure α} {f g : α → Run β}
    (hf : ∀ a, x = .ok a → Mirrors C Q (f a) (g a)) :
    Mirrors C Q (Attempt.ofExcept x >>= f) (Attempt.ofExcept x >>= g) := by
  cases x with
  | error e => exact mirrors_of_like .refl .refl fun _ _ => rfl
  | ok a => exact hf a rfl

theorem mirrors_tell (source : Log.Source) (level level' : Log.Level) (message message' : String)
    (fields fields' : List Log.Field)
    (h : source ≠ .stages ∨ level ≠ .debug ∨ fields = [])
    (h' : source ≠ .stages ∨ level' ≠ .debug ∨ fields' = []) :
    Mirrors C Eq (tell source level message fields) (tell source level' message' fields') :=
  mirrors_of_like (fun v => v.like_tell h) (fun w => w.like_tell h') fun _ _ => rfl

theorem mirrors_readTicks (host : Host) :
    Mirrors C (fun _ _ => True) (readTicks host) (readTicks host) :=
  mirrors_of_like (fun _ => ⟨⟨rfl, rfl⟩, fun _ => Iff.rfl⟩)
    (fun _ => ⟨⟨rfl, rfl⟩, fun _ => Iff.rfl⟩) fun _ _ => trivial

/-- What each of two steps says about its own answer. -/
theorem Mirrors.also {R : α → Prop} (h : Mirrors C P x y)
    (hR : ∀ {w w' a}, y w = (.ok a, w') → w'.calls <+: C.right → R a) :
    Mirrors C (fun a b => P a b ∧ R b) x y where
  later := h.later
  later' := h.later'
  same := fun {v w} hrel hleft hright => by
    obtain ⟨hends, hstop, hgo⟩ := h.same hrel hleft hright
    refine ⟨?_, hstop, hgo⟩
    rcases hyw : y w with ⟨r', w₁⟩
    rw [hyw] at hends hright
    cases hxv : (x v).1 with
    | error e =>
        rw [hxv] at hends
        cases r' with
        | error e' => exact hends
        | ok b => exact hends
    | ok a =>
        rw [hxv] at hends
        cases r' with
        | error e' => exact hends
        | ok b => exact ⟨hends, hR hyw hright⟩

theorem extends_invoke (host : Host) (limit : Option Nat) (command : Command) (directory : Path)
    (mode : ErrorStream) : (invoke host limit command directory mode).Extends := fun w => by
  rcases invoke_cases (Prod.eta (invoke host limit command directory mode w)).symm with
    ⟨_, _, hcalls⟩ | ⟨call, hcalled, _⟩
  · simp only [hcalls, List.prefix_refl]
  · simp only [hcalled.calls, List.prefix_append]

theorem Silent.extends (h : x.Silent) : x.Extends := fun w => by
  simp only [h w, List.prefix_refl]

theorem Steady.mirrors {left right : List EngineCall} (h : Steady x) (hlater : x.Extends) :
    Mirrors (.alike left right) Eq x x where
  later := hlater
  later' := hlater
  same := fun {v w} hrel _ _ =>
    have ⟨hr, hw⟩ := h v w hrel
    ⟨ends_eq_iff.2 hr.symm, hw, fun _ _ => hw⟩

theorem Steady.holding {Inv : World → Prop} {hInv : ∀ {w w'}, Inv w → w.Like w' → Inv w'}
    {left right : List EngineCall} (h : Steady x) (hlater : x.Extends)
    (hkeeps : ∀ {w}, Inv w → (x w).2.calls <+: right → Inv (x w).2) :
    Mirrors (.holding Inv hInv left right) Eq x x where
  later := hlater
  later' := hlater
  same := fun {v w} ⟨halike, hw⟩ _ hright =>
    have ⟨hr, hend⟩ := h v w halike
    have hboth := ⟨hend, hkeeps hw hright⟩
    ⟨ends_eq_iff.2 hr.symm, hboth, fun _ _ => hboth⟩

theorem steady_ofExcept (a : Except Failure α) : Steady (Attempt.ofExcept a : Run α) :=
  fun _ _ h => ⟨rfl, h⟩

theorem steady_start (host : Host) (command : Command) (directory : Path) :
    Steady (start host command directory) := by
  intro w w' h
  unfold start
  rw [h.disk, h.calls]
  split
  · exact ⟨rfl, h⟩
  · exact ⟨rfl, rfl, rfl⟩

theorem steady_invoke (host : Host) (limit : Option Nat) (command : Command) (directory : Path)
    (mode : ErrorStream) : Steady (invoke host limit command directory mode) := by
  refine (steady_tell _ _ _ _).bind fun _ => (steady_start host command directory).bind fun r => ?_
  split
  · exact (steady_tell _ _ _ _).bind fun _ => steady_fail _
  · exact steady_pure _

theorem Steady.ensuring {after : World → World} (hx : Steady x)
    (hafter : ∀ v w, v.Alike w → (after v).Alike (after w)) : Steady (x.ensuring after) :=
  fun v w h => ⟨(hx v w h).1, hafter _ _ (hx v w h).2⟩

end Run

def Setup.tidying (s : Setup) (cleanup : Bool) : Setup :=
  { s with config := { s.config with cleanup := cleanup } }

namespace Stage

open Run World

/-- The programs that stages write to files of the working directory. That of a query
is what the compiler printed in one of the calls. -/
inductive Writes (host : Host) (s : Setup) (calls : List EngineCall) : String → String → Prop where
  | probe : Writes host s calls probeFile (Datalog.render Datalog.numbering s.workDir)
  | numbering : Writes host s calls numberingFile (Datalog.render Datalog.numbering s.workDir)
  | dumpTypes : Writes host s calls dumpTypesFile (Datalog.render Datalog.dumpTypes s.workDir)
  | compiled {past : List EngineCall} {call : EngineCall} {query : Path} :
      past ++ [call] <+: calls →
      call.launch? = some ⟨"net.sf.pql.datalog.DatalogGenerator", [query.text]⟩ →
      Writes host s calls compiledFile
        ((host.engine.respond past call).finished .separate).outputText

theorem Writes.mem_programFiles {host : Host} {s : Setup} {calls : List EngineCall}
    {fileName text : String} (h : Writes host s calls fileName text) : fileName ∈ programFiles := by
  cases h <;> decide

theorem compileQuery_ok {host : Host} {s : Setup} {query : Path} {w w' : World} {text : String}
    (h : compileQuery host s query w = (.ok text, w')) :
    ∃ call : EngineCall, w'.calls = w.calls ++ [call] ∧
      call.launch? = some ⟨"net.sf.pql.datalog.DatalogGenerator", [query.text]⟩ ∧
      text = ((host.engine.respond w.calls call).finished .separate).outputText := by
  rw [compileQuery_eq] at h
  obtain ⟨_, w₁, htell, h₁⟩ := Attempt.bind_eq_ok_iff.1 h
  obtain ⟨command, _, hcommand, h₂⟩ := Attempt.bind_eq_ok_iff.1 h₁
  obtain ⟨hc, rfl⟩ := Attempt.ofExcept_cases hcommand
  obtain ⟨f, w₃, hcall, h₃⟩ := Attempt.bind_eq_ok_iff.1 h₂
  obtain ⟨call, _, hargs, hcalls, hf, _⟩ := invoke_ok hcall
  obtain ⟨w₄, hcalls', _, htranslation⟩ := translation_apply f w₃
  rw [h₃] at htranslation
  obtain ⟨htext, rfl⟩ := Prod.mk.inj htranslation
  rw [(tell_cases htell).2.2] at hcalls hf
  refine ⟨call, hcalls'.trans hcalls, ?_, ?_⟩
  · rw [EngineCall.launch?, hargs]
    exact Setup.launch_generatorCommand hc
  · rw [← hf]
    cases hsuccess : f.requireSuccess Setup.queryLabel with
    | error e =>
        rw [hsuccess] at htext
        cases htext
    | ok _ =>
        rw [hsuccess] at htext
        exact Except.ok.inj htext

/-- What the stages that solve programs are made of, in two runs that may differ in
whether program files are kept. -/
structure Couples (C : Coupling) (host : Host) (s : Setup) (cleanup cleanup' : Bool) : Prop where
  call : ∀ {command mode}, command.label ≠ Setup.relationsLabel →
    command.program = s.toolchain.runtime →
    Mirrors C Eq (Stage.call host s command mode) (Stage.call host s command mode)
  solveText : ∀ {label fileName text mode}, label ≠ Setup.relationsLabel →
    Writes host s C.right fileName text →
    Mirrors C Eq (Stage.solveText host (s.tidying cleanup) label fileName text mode)
      (Stage.solveText host (s.tidying cleanup') label fileName text mode)
  patch : ∀ bound, Mirrors C Eq
    (patchDomainFile (s.workDir / Datalog.domainFile) bound host.draws)
    (patchDomainFile (s.workDir / Datalog.domainFile) bound host.draws)

section Couples

variable {C : Coupling} {host : Host} {s : Setup} {cleanup cleanup' : Bool}

theorem mirrors_checkExit (label : String) (f : Finished) :
    Mirrors C Eq (checkExit s label f) (checkExit s label f) := by
  unfold checkExit
  split
  · exact mirrors_ofExcept _
  · split
    · exact mirrors_pure rfl
    · exact mirrors_tell _ _ _ _ _ _ _ (by simp) (by simp)

theorem mirrors_translation (f : Finished) : Mirrors C Eq (translation f) (translation f) := by
  have hend : Mirrors C Eq
      (Attempt.ofExcept (f.requireSuccess Setup.queryLabel) >>= fun _ => pure f.outputText)
      (Attempt.ofExcept (f.requireSuccess Setup.queryLabel) >>= fun _ => pure f.outputText) :=
    (mirrors_ofExcept _).bind fun _ => mirrors_pure rfl
  unfold translation
  split
  · exact (mirrors_tell _ _ _ _ _ _ _ (by simp) (by simp)).bind fun _ => hend
  · exact hend

variable (hC : Couples C host s cleanup cleanup')

include hC

theorem Couples.mirrors_count :
    Mirrors C Eq (count.run host (s.tidying cleanup)) (count.run host (s.tidying cleanup')) := by
  refine (hC.solveText (by decide) .probe).bind fun f => (mirrors_ofExcept _).bind fun counted => ?_
  refine Mirrors.bind
    (?_ : Mirrors C Eq (applyCount host s counted) (applyCount host s counted)) fun _ =>
    mirrors_pure rfl
  cases counted with
  | absent => exact (mirrors_tell _ _ _ _ _ _ _ (by simp) (by simp)).bind fun _ => mirrors_pure rfl
  | found n =>
      refine (mirrors_tell _ _ _ _ _ _ _ (by simp) (by simp)).bind fun _ => ?_
      exact (hC.patch n).bind fun _ => mirrors_pure rfl

theorem Couples.mirrors_number :
    Mirrors C Eq (number.run host (s.tidying cleanup)) (number.run host (s.tidying cleanup')) :=
  (hC.solveText (by decide) .numbering).bind fun f =>
    (mirrors_checkExit (s := s) numberLabel f).bind fun _ => mirrors_pure rfl

theorem Couples.mirrors_solve (program : Path) :
    Mirrors C Eq ((solve program).run host (s.tidying cleanup))
      ((solve program).run host (s.tidying cleanup')) := by
  refine (mirrors_tell _ _ _ _ _ _ _ (by simp) (by simp)).bind fun _ => ?_
  refine mirrors_ofExcept_bind fun command hc => ?_
  have hlabel : command.label = solveLabel := Setup.label_solverCommand (s := s) hc
  refine (hC.call (by rw [hlabel]; decide) (Setup.program_solverCommand (s := s) hc)).bind fun f => ?_
  exact (mirrors_checkExit (s := s) solveLabel f).bind fun _ => mirrors_pure rfl

theorem Couples.mirrors_compileQuery (query : Path) :
    Mirrors C (fun a b => a = b ∧ Writes host s C.right compiledFile b) (compileQuery host s query)
      (compileQuery host s query) := by
  have hsame : Mirrors C Eq (compileQuery host s query) (compileQuery host s query) := by
    rw [compileQuery_eq]
    refine (mirrors_tell _ _ _ _ _ _ _ (by simp) (by simp)).bind fun _ => ?_
    refine mirrors_ofExcept_bind fun command hc => ?_
    have hlabel := Setup.label_generatorCommand hc
    exact (hC.call (by rw [hlabel]; decide) (Setup.program_generatorCommand hc)).bind
      mirrors_translation
  refine hsame.also fun {w w' text} htext hcalls => ?_
  obtain ⟨call, hcall, hlaunch, rfl⟩ := compileQuery_ok htext
  exact .compiled (hcall ▸ hcalls) hlaunch

theorem Couples.mirrors_query (query : Path) :
    Mirrors C Eq ((Stage.query query).run host (s.tidying cleanup))
      ((Stage.query query).run host (s.tidying cleanup')) := by
  refine (hC.solveText (by decide) .dumpTypes).bind fun types =>
    (mirrors_checkExit (s := s) Setup.queryLabel types).bind fun _ => ?_
  have hlater : ∀ (s : Setup) (program : String),
      (Stage.solveText host s Setup.queryLabel compiledFile program .merge >>= fun f =>
        checkExit s Setup.queryLabel f >>= fun _ => pure (⟨some f, some ("translated " ++
          Decimal.text (Text.lines program.toList).length ++ " lines of Datalog")⟩ : Outcome)
        : Run Outcome).Extends := fun s program =>
    Follows.later ((follows_solveText _ _ _).andThen fun f =>
      (silent_checkExit (s := s) _ f).bind fun _ => silent_pure _)
  refine (hC.mirrors_compileQuery query).follow (hlater _) (hlater _) fun program _ hwrites => ?_
  obtain ⟨rfl, hwrites⟩ := hwrites
  refine (hC.solveText (by decide) hwrites).bind fun f => ?_
  exact (mirrors_checkExit (s := s) Setup.queryLabel f).bind fun _ => mirrors_pure rfl

end Couples
section Steady

variable (host : Host) (s : Setup)

theorem steady_materialize (path : Path) (text : String) :
    Steady (ProgramFile.materialize path text) :=
  (steady_onDisk _).bind fun _ => steady_tell _ _ _ _

theorem alike_release {v w : World} (h : v.Alike w) (path : Path) (cleanup : Bool) :
    (ProgramFile.release path cleanup v).Alike (ProgramFile.release path cleanup w) := by
  obtain ⟨hv, hv'⟩ := ProgramFile.release_eq path cleanup v
  obtain ⟨hw, hw'⟩ := ProgramFile.release_eq path cleanup w
  exact ⟨by rw [hv, hw, h.disk], by rw [hv', hw', h.calls]⟩

theorem steady_solveText (label fileName text : String) (mode : ErrorStream) :
    Steady (solveText host s label fileName text mode) := by
  refine (steady_materialize _ text).bind fun _ => Steady.ensuring ?_ fun v w h => ?_
  · exact (steady_ofExcept _).bind fun command => steady_invoke _ _ _ _ _
  · exact alike_release h _ _

theorem steady_patchDomainFile (path : Path) (bound : UInt64) (draws : List TemporaryName) :
    Steady (patchDomainFile path bound draws) := by
  refine (steady_lookAtDisk _).bind fun text => ?_
  dsimp only
  split
  · exact (steady_tell _ _ _ _).bind fun _ => steady_pure _
  · exact (steady_onDisk _).bind fun _ => steady_pure _

theorem steady_relations (entryPoint : String) : Steady ((relations entryPoint).run host s) := by
  refine (steady_onDisk _).bind fun _ => (steady_tell _ _ _ _).bind fun _ => ?_
  refine (steady_ofExcept _).bind fun _ => (steady_invoke _ _ _ _ _).bind fun dump => ?_
  refine (steady_ofExcept _).bind fun _ => (steady_tell _ _ _ _).bind fun _ => ?_
  refine (steady_ofExcept _).bind fun _ => (steady_invoke _ _ _ _ _).bind fun equivalence => ?_
  refine (steady_ofExcept _).bind fun _ => (steady_onDisk _).bind fun _ => ?_
  refine (steady_tell _ _ _ _).bind fun _ => (steady_tell _ _ _ _).bind fun _ => ?_
  exact (steady_onDisk _).bind fun _ => steady_pure _

theorem steady_naming (request : MapRequest) : Steady ((naming request).run host s) := by
  refine (steady_onDisk _).bind fun mapped => ?_
  dsimp only
  split
  · exact (steady_tell _ _ _ _).bind fun _ => steady_pure _
  · exact steady_pure _

theorem couples_alike (left right : List EngineCall) :
    Couples (.alike left right) host s s.config.cleanup s.config.cleanup where
  call := fun _ _ => (steady_invoke _ _ _ _ _).mirrors (extends_invoke _ _ _ _ _)
  solveText := fun _ _ => (steady_solveText host s _ _ _ _).mirrors (follows_solveText _ _ _).later
  patch := fun bound =>
    (steady_patchDomainFile _ bound _).mirrors (silent_patchDomainFile _ _ _).extends

/-- What each call, each program that is solved and the patching of the domain file
keeps, the stages that solve programs keep. -/
theorem couples_holding {Inv : World → Prop} {hInv : ∀ {w w'}, Inv w → w.Like w' → Inv w'}
    {left right : List EngineCall}
    (hcall : ∀ {command mode w}, Inv w → (Stage.call host s command mode w).2.calls <+: right →
      Inv (Stage.call host s command mode w).2)
    (hsolve : ∀ {label fileName text mode w}, Writes host s right fileName text → Inv w →
      (solveText host s label fileName text mode w).2.calls <+: right →
      Inv (solveText host s label fileName text mode w).2)
    (hpatch : ∀ {bound w}, Inv w →
      Inv (patchDomainFile (s.workDir / Datalog.domainFile) bound host.draws w).2) :
    Couples (.holding Inv hInv left right) host s s.config.cleanup s.config.cleanup where
  call := fun _ _ => (steady_invoke _ _ _ _ _).holding (extends_invoke _ _ _ _ _) hcall
  solveText := fun _ hwrites =>
    (steady_solveText host s _ _ _ _).holding (follows_solveText _ _ _).later (hsolve hwrites)
  patch := fun bound => (steady_patchDomainFile _ bound _).holding
    (silent_patchDomainFile _ _ _).extends fun hw _ => hpatch hw

end Steady
end Stage

namespace Runner

open Run

variable {C : Coupling} {host : Host} {s s' : Setup} {stages : List Stage}

theorem mirrors_tellFailure {α : Type} {P : α → α → Prop} {id : String} {x y : Run α}
    (h : Mirrors C P x y) : Mirrors C P (tellFailure id x) (tellFailure id y) := by
  have hend : ∀ (z : Run α) (w : World), (tellFailure id z w).1 = (z w).1 ∧
      (z w).2.Like (tellFailure id z w).2 := fun z w => by
    unfold tellFailure
    rcases z w with ⟨_ | _, v⟩
    · exact ⟨rfl, v.like_tell (by simp)⟩
    · exact ⟨rfl, .refl v⟩
  refine ⟨fun v => ?_, fun w => ?_, fun {v w} hrel hleft hright => ?_⟩
  · simpa only [(hend x v).2.calls] using h.later v
  · simpa only [(hend y w).2.calls] using h.later' w
  · obtain ⟨hx, hx'⟩ := hend x v
    obtain ⟨hy, hy'⟩ := hend y w
    rw [hx'.calls] at hleft
    rw [hy'.calls] at hright
    obtain ⟨hends, hstop, hgo⟩ := h.same hrel hleft hright
    refine ⟨by rwa [hx, hy], C.stop_like hstop hx' hy', fun a ha => ?_⟩
    exact C.rel_like (hgo a (hx ▸ ha)) hx' hy'

/-- The times of a stage may differ, its outcome does not. -/
theorem mirrors_runStage {stage : Stage}
    (h : Mirrors C Eq (stage.run host s) (stage.run host s')) :
    Mirrors C (fun a b => a.2 = b.2) (runStage host s stage) (runStage host s' stage) := by
  refine (mirrors_readTicks host).bindUpTo (fun _ => trivial) fun start start' _ => ?_
  refine (mirrors_tell _ _ _ _ _ _ _ (by simp) (by simp)).bind fun _ => ?_
  refine (mirrors_tellFailure h).bind fun outcome => ?_
  refine (mirrors_readTicks host).bindUpTo (fun _ => trivial) fun finish finish' _ => ?_
  have hlast : Mirrors C (fun a b : StageReport × String × Outcome => a.2 = b.2)
      (do
        tell .core .info "stage finished"
          [.inQuotes "stage" stage.id, .plain "latency_ms" (Decimal.text (finish - start)),
            .inQuotes "summary" (outcome.summary.getD "")]
        pure (stageReport stage.id (finish - start) outcome, stage.id, outcome))
      (do
        tell .core .info "stage finished"
          [.inQuotes "stage" stage.id, .plain "latency_ms" (Decimal.text (finish' - start')),
            .inQuotes "summary" (outcome.summary.getD "")]
        pure (stageReport stage.id (finish' - start') outcome, stage.id, outcome)) :=
    (mirrors_tell _ _ _ _ _ _ _ (by simp) (by simp)).bind fun _ => mirrors_pure rfl
  dsimp only
  split
  · exact (mirrors_tell _ _ _ _ _ _ _ (by simp) (by simp)).bind fun _ => hlast
  · exact hlast

theorem mirrors_runStages (h : ∀ stage ∈ stages, Mirrors C Eq (stage.run host s) (stage.run host s')) :
    Mirrors C (fun as bs => as.map Prod.snd = bs.map Prod.snd) (runStages host s stages)
      (runStages host s' stages) := by
  induction stages with
  | nil => exact mirrors_pure rfl
  | cons stage stages ih =>
      refine (mirrors_runStage (h stage List.mem_cons_self)).bindUpTo (fun _ => rfl) fun a b hab => ?_
      refine Mirrors.bindUpTo (ih fun x hx => h x (List.mem_cons_of_mem stage hx)) (fun _ => rfl)
        fun as bs habs => mirrors_pure ?_
      rw [List.map_cons, List.map_cons, hab, habs]

theorem runStages_append (host : Host) (s : Setup) (stages rest : List Stage) :
    runStages host s (stages ++ rest) = runStages host s stages >>= fun first =>
      runStages host s rest >>= fun more => pure (first ++ more) := by
  induction stages with
  | nil => simp [runStages]
  | cons stage stages ih => simp [runStages, ih, bind_assoc]

theorem runStages_append_ok {w w' : World} {first : List (StageReport × String × Outcome)}
    (h : runStages host s stages w = (.ok first, w')) (rest : List Stage) :
    runStages host s (stages ++ rest) w =
      ((runStages host s rest w').1.map (first ++ ·), (runStages host s rest w').2) := by
  rw [runStages_append, Attempt.bind_ok h]
  rcases hrest : runStages host s rest w' with ⟨r, w''⟩
  cases r with
  | error e => exact Attempt.bind_error hrest
  | ok more => exact Attempt.bind_ok hrest

theorem runStages_append_error {w w' : World} {e : Failure}
    (h : runStages host s stages w = (.error e, w')) (rest : List Stage) :
    runStages host s (stages ++ rest) w = (.error e, w') := by
  rw [runStages_append, Attempt.bind_error h]

def begun (s : Setup) (stages : List Stage) (w : World) : World :=
  { w with clockReadings := w.clockReadings + 1 }.tell ⟨.core, .info, "pipeline started",
    [.plain "run_id" s.runId, .plain "pipeline" (pipelineId stages)]⟩

theorem like_begun (s : Setup) (stages : List Stage) (w : World) : w.Like (begun s stages w) := by
  have hclock : w.Like { w with clockReadings := w.clockReadings + 1 } :=
    ⟨⟨rfl, rfl⟩, fun _ => Iff.rfl⟩
  exact hclock.trans (World.like_tell _ (by simp))

/-- Up to times, a run of an accepted configuration is that of its stages. -/
theorem run_of_valid {w : World} (hvalid : s.config.validate w.disk = .ok ()) (host : Host)
    (stages : List Stage) :
    (runStages host s stages (begun s stages w)).2.Like (Runner.run host s stages w).2 ∧
      (Runner.run host s stages w).1.map Completed.outcomes =
        (runStages host s stages (begun s stages w)).1.map (List.map Prod.snd) := by
  have hlook : lookAtDisk s.config.validate w = (.ok (), w) := Prod.ext hvalid rfl
  have hstart : Runner.run host s stages w = (runStages host s stages >>= fun done => do
      let finishedAt ← readClock host
      pure
        { report := ⟨s.runId, pipelineId stages, host.now w.clockReadings, finishedAt,
            done.map Prod.fst⟩
          outcomes := done.map Prod.snd }) (begun s stages w) :=
    Attempt.bind_ok hlook
  rw [hstart]
  rcases hrun : runStages host s stages (begun s stages w) with ⟨r, w₃⟩
  cases r with
  | error e =>
      rw [Attempt.bind_error hrun]
      exact ⟨.refl _, rfl⟩
  | ok done =>
      rw [Attempt.bind_ok hrun]
      exact ⟨⟨⟨rfl, rfl⟩, fun _ => Iff.rfl⟩, rfl⟩

/-- A run whose first stage is known to succeed. -/
theorem run_after_first {w w' : World} {stage : Stage} {outcome : Outcome}
    (hvalid : s.config.validate w.disk = .ok ()) (hsteady : Steady (stage.run host s))
    (hstage : stage.run host s w = (.ok outcome, w')) (stages : List Stage) :
    ∃ v : World, w'.Alike v ∧
      (runStages host s stages v).2.Alike (Runner.run host s (stage :: stages) w).2 ∧
      (Runner.run host s (stage :: stages) w).1.map (·.outcomes.tail) =
        (runStages host s stages v).1.map (List.map Prod.snd) := by
  obtain ⟨hend, houtcomes⟩ := run_of_valid hvalid host (stage :: stages)
  have hw₀ := like_begun s (stage :: stages) w
  generalize begun s (stage :: stages) w = w₀ at hend houtcomes hw₀
  rcases hfirst : runStage host s stage w₀ with ⟨r, v⟩
  obtain ⟨hr, hv⟩ := hsteady.leads ((leads_of_runStage hfirst).before hw₀.toAlike) hstage
  cases r with
  | error e => cases hr
  | ok first =>
      have hrun : runStages host s (stage :: stages) w₀ =
          ((runStages host s stages v).1.map (first :: ·), (runStages host s stages v).2) := by
        rw [runStages, Attempt.bind_ok hfirst]
        rcases hrest : runStages host s stages v with ⟨r, v'⟩
        cases r with
        | error e => exact Attempt.bind_error hrest
        | ok rest => exact Attempt.bind_ok hrest
      rw [hrun] at hend houtcomes
      refine ⟨v, hv, hend.toAlike, ?_⟩
      calc (Runner.run host s (stage :: stages) w).1.map (·.outcomes.tail)
          = ((Runner.run host s (stage :: stages) w).1.map Completed.outcomes).map List.tail := by
            cases (Runner.run host s (stage :: stages) w).1 <;> rfl
        _ = (runStages host s stages v).1.map (List.map Prod.snd) := by
            rw [houtcomes]
            cases (runStages host s stages v).1 <;> rfl

end Runner

namespace Plan

open Run Stage

variable {C : Coupling} {host : Host} {s : Setup} {cleanup cleanup' : Bool}

def solvingStages (plan : Plan) : List Stage :=
  [.count, .number, plan.analysisStage]

theorem mirrors_solvingStages (hC : Couples C host s cleanup cleanup') (plan : Plan) :
    ∀ stage ∈ plan.solvingStages,
      Mirrors C Eq (stage.run host (s.tidying cleanup)) (stage.run host (s.tidying cleanup')) := by
  have hanalysis : Mirrors C Eq (plan.analysisStage.run host (s.tidying cleanup))
      (plan.analysisStage.run host (s.tidying cleanup')) := by
    unfold analysisStage
    cases plan.analysis with
    | datalog program => exact hC.mirrors_solve program
    | query query => exact hC.mirrors_query query
  unfold solvingStages
  simp only [List.forall_mem_cons, List.not_mem_nil, false_implies, implies_true, and_true]
  exact ⟨hC.mirrors_count, hC.mirrors_number, hanalysis⟩

end Plan
end PointsTo
