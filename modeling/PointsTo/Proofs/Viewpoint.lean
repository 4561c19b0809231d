import PointsTo.Proofs.Disk.TwinStroke
import PointsTo.Proofs.Lines
import PointsTo.Proofs.Options

/-!
What a solver call finds under the paths that it is given. They are written for the
directory of the caller, and the engine looks them up from the run root: a path that is
relative there leads elsewhere.
-/

namespace PointsTo

open PointsTo.Path (Step)

namespace Path

/-- Between the two parts of a joined path stands a separator or nothing. -/
theorem text_join (p : Path) {q : Path} (h : q.isAbsolute = false) :
    ∃ separator, (p.join q).text = p.text ++ separator ++ q.text := by
  rw [join, if_neg (by simp [h])]
  split
  · exact ⟨"", by simp⟩
  · exact ⟨"/", rfl⟩

theorem text_join_ne {p : Path} (h : p.text ≠ "") (q : Path) : (p.join q).text ≠ "" := by
  cases hq : q.isAbsolute with
  | true =>
      rw [join, if_pos hq]
      intro hempty
      simp [isAbsolute, hempty] at hq
  | false =>
      obtain ⟨separator, htext⟩ := text_join p hq
      simp [htext, h]

/-- A directory that is handed over as text has its file names put right behind it. -/
theorem dirText_append {p : Path} {name : String} (hp : p.text ≠ "") (hn : IsName name) :
    (⟨Command.dirText p ++ name⟩ : Path) = p / name := by
  change _ = p.join ⟨name⟩
  rw [join, if_neg (by simp [isAbsolute_of_isName hn]), Command.dirText]
  rcases List.eq_nil_or_concat p.text.toList with hnil | ⟨front, c, hlast⟩
  · exact absurd (by simpa using hnil) hp
  · by_cases hc : c = '/'
    · simp [hlast, hc]
    · simp [hlast, hc]

end Path

namespace Disk

section Agree

variable {d d' : Disk} {p q : Path} {steps : List Step} {l base dir : Location} {name : String}
  {data : Bytes}

structure Agree (d d' : Disk) (p : Path) : Prop where
  tree : d'.tree = d.tree
  origin : d'.origin p = d.origin p
  sunk : d'.sunk p = d.sunk p

theorem Agree.reaches (h : Agree d d' p) (hp : d.Reaches p steps l) : d'.Reaches p steps l := by
  unfold Reaches WalksTo at *
  rwa [h.tree, h.origin, h.sunk]

theorem Agree.read (h : Agree d d' p) (hp : d.read p = .ok data) : d'.read p = .ok data := by
  obtain ⟨l, mode, hl, hfile⟩ := read_eq_ok_iff.1 hp
  exact read_eq_ok_iff.2 ⟨l, mode, h.reaches hl, h.tree ▸ hfile⟩

theorem Agree.resolveLast {slash : Bool} (h : Agree d d' p)
    (hp : d.resolveLast p = .ok (dir, .name name slash)) :
    d'.resolveLast p = .ok (dir, .name name slash) := by
  obtain ⟨hend, hr, hdir⟩ := resolveLast_eq_name_iff.1 hp
  exact resolveLast_eq_name_iff.2 ⟨hend, h.reaches hr, h.tree ▸ hdir⟩

/-- From another directory an absolute path leads where it led, and so does every path if
it is the same directory. -/
theorem agree_enter (hl : d.tree.isDirectory l = true)
    (h : p.isAbsolute = true ∨ d.lost = 0 ∧ l = d.cwd) : Agree d (d.enter l) p := by
  obtain ⟨htree, hcwd, hlost⟩ := d.enter_fields l
  rw [if_pos hl] at hcwd hlost
  rcases h with habs | ⟨hzero, rfl⟩
  · exact ⟨htree, by simp [origin, habs], by simp [sunk, habs]⟩
  · exact ⟨htree, by rw [origin, origin, hcwd], by rw [sunk, sunk, hlost, hzero]⟩

/-- What is part of a path that the system takes may be a path. -/
theorem checkText_part (before : String) {text : String} (after : String) (hne : text ≠ "")
    (h : checkText ⟨before ++ text ++ after⟩ = .ok ()) : checkText ⟨text⟩ = .ok () := by
  unfold checkText at h ⊢
  split at h
  · cases h
  · next hzero =>
    split at h
    · cases h
    · next hfits =>
      simp only [String.toList_append, List.contains_append, Bool.or_eq_true, not_or] at hzero
      rw [if_neg hzero.1.2, if_neg, if_neg hne]
      simp only [Path.fits, String.utf8ByteSize_append, Bool.not_eq_true', decide_eq_false_iff_not,
        Classical.not_not] at hfits ⊢
      omega

/-- What a path names after another one is found under it from there. -/
theorem resolve_enter_of_join (hbase : d.resolve p = .ok base)
    (hdir : d.tree.isDirectory base = true) (hq : q.text ≠ "")
    (h : d.resolve (p.join q) = .ok l) : (d.enter base).resolve q = .ok l := by
  have hreach := resolve_eq_ok_iff.1 h
  cases hrel : q.isAbsolute with
  | true =>
      rw [Path.join, if_pos hrel] at hreach
      exact resolve_eq_ok_iff.2 ((agree_enter hdir (Or.inl hrel)).reaches hreach)
  | false =>
      obtain ⟨hc, hwalks⟩ := hreach
      have habs : (p.join q).isAbsolute = p.isAbsolute := by
        rw [Path.isAbsolute_join_eq, hrel, Bool.or_false]
      rw [Path.steps_join p hrel, walksTo_iff_of_isAbsolute_eq habs] at hwalks
      -- the first moves of the joined path lead into the directory, the others on from there
      obtain ⟨rest, hrest, hwalk⟩ := hwalks
      obtain ⟨_, first, hfirst, hinto⟩ := (resolve_eq_ok_iff.1 hbase).enters hdir
      cases (surface_append_ok q.steps hfirst).symm.trans hrest
      obtain ⟨mid, hmid, hon⟩ := Tree.walkWithin_append hwalk
      cases Tree.walkWithin_unique hmid hinto
      have hc' : checkText q = .ok () := by
        obtain ⟨separator, htext⟩ := Path.text_join p hrel
        refine checkText_part (p.text ++ separator) "" hq ?_
        rw [String.append_empty, ← htext]
        exact hc
      obtain ⟨htree, hcwd, hlost⟩ := d.enter_fields base
      rw [if_pos hdir] at hcwd hlost
      refine resolve_eq_ok_iff.2 ⟨hc', q.steps, ?_, ?_⟩
      · simp [sunk, hrel, hlost]
      · rw [htree, origin, if_neg (by simp [hrel]), hcwd]
        exact hon

theorem checkText_of_div (hp : p.text ≠ "") (hn : IsName name)
    (h : checkText (p / name) = .ok ()) : checkText p = .ok () := by
  obtain ⟨separator, htext⟩ := Path.text_join p (Path.isAbsolute_of_isName hn)
  refine checkText_part "" (separator ++ name) hp ?_
  rw [String.empty_append, ← String.append_assoc, ← htext]
  exact h

theorem text_ne_of_resolve (h : d.resolve p = .ok l) : p.text ≠ "" := by
  intro hempty
  have hc := (resolve_eq_ok_iff.1 h).1
  simp [checkText, Path.fits, hempty] at hc

/-- A write leads no path to a directory astray. -/
theorem keepsWays_write (h : d.write p data = .ok d') :
    d.KeepsWays d' ∧ d'.cwd = d.cwd ∧ d'.lost = d.lost := by
  obtain ⟨_, _, name, dir, x, mode, _, _, _, hchild, hfile, rfl⟩ := write_cases h
  exact ⟨keepsWays_put (isAside_of_child? hchild hfile), rfl, rfl⟩

end Agree
end Disk

/-- The disk as a call finds it, seen from the directory that the call is started in. -/
def EngineCall.view (call : EngineCall) : Disk :=
  call.disk.enter call.directory

def EngineCall.HasProperty (call : EngineCall) (key value : String) : Prop :=
  ("-D" ++ key ++ "=" ++ value, none) ∈ call.options

namespace Command

/-- The first equals sign ends the key. -/
theorem property_inj {key key' value value' : String} (hkey : '=' ∉ key.toList)
    (hkey' : '=' ∉ key'.toList)
    (h : "-D" ++ key ++ "=" ++ value = "-D" ++ key' ++ "=" ++ value') :
    key = key' ∧ value = value' := by
  have hchars : key.toList ++ '=' :: value.toList = key'.toList ++ '=' :: value'.toList := by
    simpa using congrArg String.toList h
  have hopens : ∀ (key value : String), '=' ∉ key.toList →
      (key.toList ++ '=' :: value.toList).takeWhile (· != '=') = key.toList := fun key value hkey =>
    Text.takeWhile_run (fun c hc => bne_iff_ne.2 fun he => hkey (he ▸ hc)) (by simp)
  have hsame : key.toList = key'.toList := by
    rw [← hopens key value hkey, hchars, hopens key' value' hkey']
  rw [hsame] at hchars
  have hvalue := (List.cons.inj (List.append_cancel_left hchars)).2
  exact ⟨String.toList_inj.1 hsame, String.toList_inj.1 hvalue⟩

end Command

namespace Setup

variable {s : Setup} {c : Command} {label : String} {program : Path}

theorem keys_solverProperties (t : Tuning) :
    ∀ x ∈ t.solverProperties, '=' ∉ x.1.toList ∧ x.1 ≠ "basedir" := by
  have hkeys : ∀ key ∈ t.solverProperties.map Prod.fst, '=' ∉ key.toList ∧ key ≠ "basedir" := by
    change ∀ key ∈ ["learnbestorder", "singleignore", "bddcache", "bddnodes", "numberingtype",
      "pa.clinit", "pa.filternull", "pa.unknowntypes"], _
    decide
  exact fun x hx => hkeys x.1 (List.mem_map_of_mem hx)

/-- A solver has one base directory. -/
theorem basedir_solverCommand (h : s.solverCommand label program = .ok c) (value : String) :
    ("-D" ++ "basedir" ++ "=" ++ value, none) ∈ c.options ↔
      value = Command.dirText s.workDir := by
  obtain ⟨text, hoptions⟩ := options_solverCommand h
  have hbasedir : '=' ∉ "basedir".toList := by decide
  rw [hoptions]
  constructor
  · intro hmem
    rcases List.mem_append.1 hmem with hfirst | hlater
    · simp only [List.mem_cons, List.not_mem_nil, or_false, Prod.mk.injEq, and_true] at hfirst
      rcases hfirst with ⟨_, hnone⟩ | hheap | hbase
      · cases hnone
      · have hsecond := congrArg (fun text => text.toList.drop 1) hheap
        simp at hsecond
      · exact (Command.property_inj hbasedir hbasedir hbase).2
    · obtain ⟨x, hx, heq⟩ := List.mem_map.1 hlater
      obtain ⟨hkey, hne⟩ := keys_solverProperties _ x hx
      exact absurd (Command.property_inj hkey hbasedir (Prod.mk.inj heq).1).1 hne
  · rintro rfl
    simp

theorem getLast?_solverCommand (h : s.solverCommand label program = .ok c) :
    c.args.getLast? = some program.text := by
  obtain ⟨c', _, h⟩ := bind_eq_ok_iff.1 h
  cases h
  simp [Command.arg]

end Setup

def EngineCall.Makes (call : EngineCall) (c : Command) : Prop :=
  call.args = c.args ∧ call.disk.tree.isDirectory call.directory = true

theorem Run.keeps_invoke_makes (host : Host) (limit : Option Nat) (command : Command)
    (directory : Path) (mode : ErrorStream) :
    (invoke host limit command directory mode).Keeps (World.Adds (·.Makes command)) := by
  have hc := World.adds_chains (·.Makes command)
  refine keeps_bind hc (keeps_tell hc _ _ _ _) fun _ => keeps_bind hc (fun w => ?_) fun _ => ?_
  · unfold start
    split
    · exact hc.same rfl rfl
    · next l hl => exact ⟨[_], rfl, by simpa using ⟨rfl, (Disk.resolve_of_checkStart hl).2⟩⟩
  · split
    · exact keeps_bind hc (keeps_tell hc _ _ _ _) fun _ => keeps_fail hc _
    · exact keeps_pure hc _

namespace Stage

variable {host : Host} {s : Setup} {label fileName text : String} {mode : ErrorStream}
  {w w' : World} {r : Except Failure Finished} {call : EngineCall}

theorem makes_of_solveText (h : solveText host s label fileName text mode w = (r, w'))
    (hcalls : w'.calls = w.calls ++ [call]) :
    ∃ c, s.solverCommand label (s.workDir / fileName) = .ok c ∧ call.Makes c := by
  have hmade : ∀ {u : World}, u.calls = w.calls → u.calls ≠ w.calls ++ [call] :=
    fun hsame => by simp [hsame]
  unfold solveText ProgramFile.during at h
  rcases Attempt.bind_cases h with ⟨_, w₁, hwrite, h₁⟩ | ⟨e, hwrite, rfl⟩
  · have hwritten : w₁.calls = w.calls := by
      rcases ProgramFile.materialize_cases hwrite with ⟨_, _, hsame⟩ | ⟨_, _, hsame⟩
      · exact hsame
      · exact hsame
    obtain ⟨w₂, h₂, rfl⟩ := Attempt.ensuring_cases h₁
    rw [(ProgramFile.release_eq _ _ w₂).2] at hcalls
    rcases Attempt.bind_cases h₂ with ⟨c, w₃, hc, h₃⟩ | ⟨e, hc, rfl⟩
    · obtain ⟨hcommand, rfl⟩ := Attempt.ofExcept_cases hc
      obtain ⟨new, hnew, hmakes⟩ := Run.keeps_invoke_makes host s.config.timeLimit c s.root mode w₃
      rw [show Run.invoke host s.config.timeLimit c s.root mode w₃ = (r, w₂) from h₃, hwritten,
        hcalls] at hnew
      cases List.append_cancel_left hnew
      exact ⟨c, hcommand, hmakes call (by simp)⟩
    · obtain ⟨_, rfl⟩ := Attempt.ofExcept_cases hc
      exact absurd hcalls (hmade hwritten)
  · rcases ProgramFile.materialize_cases hwrite with ⟨_, _, hsame⟩ | ⟨hr, _⟩
    · exact absurd hcalls (hmade hsame)
    · cases hr

/-- The run root or the working directory is given as an absolute path, or the run root is
the current directory. -/
def Anchored (s : Setup) (dir : Path) (d : Disk) : Prop :=
  s.root.isAbsolute = true ∨ dir.isAbsolute = true ∨
    d.lost = 0 ∧ d.resolve s.root = .ok d.cwd

/-- From the run root, paths in the working directory then lead where they lead from the
current directory. -/
theorem agree_of_anchored {dir p : Path} {data : Bytes} (hwork : s.workDir = s.root.join dir)
    (hanchored : Anchored s dir w.disk) (hwrite : w.disk.write p data = .ok call.disk)
    (hroot : call.disk.resolve s.root = .ok call.directory)
    (hdir : call.disk.tree.isDirectory call.directory = true) {name : String} (hn : IsName name) :
    call.disk.Agree call.view (s.workDir / name) := by
  obtain ⟨hways, hcwd, hlost⟩ := Disk.keepsWays_write hwrite
  refine Disk.agree_enter hdir ?_
  rw [Path.isAbsolute_div _ hn, hwork, Path.isAbsolute_join_eq]
  rcases hanchored with habs | habs | ⟨hzero, hhere⟩
  · exact Or.inl (by simp [habs])
  · exact Or.inl (by simp [habs])
  · have hstill := (Disk.resolve_eq_ok_iff.1 hhere).of_leadsTo
      (hways.leadsTo w.disk.cwd_isDirectory)
    have hsame := hstill.unique (Disk.resolve_eq_ok_iff.1 hroot)
    exact Or.inr ⟨hlost.trans hzero, by rw [hcwd, hsame]⟩

/-- A solver call looks for its program from the run root, wherever that is. If the run
root or the working directory is absolute, or the run root is the current directory, it
finds the file that has just been written; and the base directory with a name behind it
names that file of the working directory. -/
theorem solver_call_finds_program (host : Host) (s : Setup) (dir : Path)
    (label fileName text : String) (mode : ErrorStream) (w w' : World)
    (r : Except Failure Finished) (hwork : s.workDir = s.root.join dir) (hname : IsName fileName)
    (h : solveText host s label fileName text mode w = (r, w')) :
    w'.calls = w.calls ∨ ∃ call arg base,
      w'.calls = w.calls ++ [call] ∧ call.disk.resolve s.root = .ok call.directory ∧
      call.args.getLast? = some arg ∧ (∀ value, call.HasProperty "basedir" value ↔ value = base) ∧
      (∀ l, call.disk.resolve (s.root.join ⟨arg⟩) = .ok l → call.view.resolve ⟨arg⟩ = .ok l) ∧
      (Anchored s dir w.disk →
        (∃ l, w.disk.destination (s.workDir / fileName) = .ok l ∧
          call.view.resolve ⟨arg⟩ = .ok l) ∧
        call.view.read ⟨arg⟩ = .ok (Text.encode text) ∧
        ∃ place, call.disk.resolve s.workDir = .ok place ∧
          ∀ name, IsName name → Disk.checkText ⟨base ++ name⟩ = .ok () →
            call.view.resolveLast ⟨base ++ name⟩ = .ok (place, .name name false)) := by
  rcases solveText_cases h with
    ⟨_, _, hcalls⟩ | ⟨_, hwrite, ⟨_, hcalls, _⟩ | ⟨call, rfl, _, hroot, hcalls, _⟩⟩
  · exact Or.inl hcalls
  · exact Or.inl hcalls
  obtain ⟨c, hc, hargs, hdir⟩ := makes_of_solveText h hcalls
  obtain ⟨l, hl, hwritten⟩ := Disk.written_of_write hwrite
  obtain ⟨hdest, hreach⟩ := Disk.leads_written hl (Text.encode text)
  rw [← hwritten] at hdest hreach
  have hne : s.workDir.text ≠ "" := hwork ▸ Path.text_join_ne (Disk.text_ne_of_resolve hroot) dir
  obtain ⟨place, _, hlast⟩ := Disk.resolveLast_of_destination hdest
  obtain ⟨htext, henters, _⟩ := (Disk.resolveLast_div_iff hname).1 hlast
  refine Or.inr ⟨call, (s.workDir / fileName).text, Command.dirText s.workDir, hcalls, hroot,
    ?_, ?_, fun k hk => ?_, fun hanchored => ?_⟩
  · rw [hargs, Setup.getLast?_solverCommand hc]
  · intro value
    rw [EngineCall.HasProperty, EngineCall.options, hargs]
    exact Setup.basedir_solverCommand hc value
  · exact Disk.resolve_enter_of_join hroot hdir (Path.text_join_ne hne _) hk
  · have hagree := fun {name : String} (hn : IsName name) =>
      agree_of_anchored hwork hanchored hwrite hroot hdir hn
    have hfile := (hagree hname).reaches hreach
    refine ⟨⟨l, hl, Disk.resolve_eq_ok_iff.2 hfile⟩, ?_, place, ?_, fun name hn hc' => ?_⟩
    · exact (hagree hname).read (Disk.read_of_write hwrite)
    · exact Disk.resolve_eq_ok_iff.2 (henters.reaches (Disk.checkText_of_div hne hname htext))
    · rw [Path.dirText_append hne hn] at hc' ⊢
      exact (hagree hn).resolveLast ((Disk.resolveLast_div_iff hn).2 ⟨hc', henters, rfl⟩)

/-- A current directory with a working directory in it, and one more with its own. -/
def nestedStore : Disk :=
  Disk.enter
    (.holding
      [(["java"], .file [] 0o755), (["run"], .directory 0o755),
        (["results", "run"], .directory 0o755), (["sub", "run"], .directory 0o755),
        (["results", "sub", "run"], .directory 0o755)]) ["run"]

def nestedSolve (root : Path) : Except Failure Finished × World :=
  solveText (.scripted [] []) (.working root ⟨"results"⟩) numberLabel numberingFile "rules" .merge
    (.ofDisk nestedStore)

theorem solver_call_finds_program_in_current_directory :
    let s := Setup.working ⟨"sub/.."⟩ ⟨"results"⟩
    s.workDir = s.root.join ⟨"results"⟩ ∧
    ∃ call arg, (nestedSolve ⟨"sub/.."⟩).2.calls = [call] ∧ call.args.getLast? = some arg ∧
      call.view.read ⟨arg⟩ = .ok (Text.encode "rules") := by
  intro s
  have hfacts : (nestedSolve ⟨"sub/.."⟩).2.calls.isEmpty = false ∧ nestedStore.lost = 0 ∧
      nestedStore.resolve ⟨"sub/.."⟩ = .ok nestedStore.cwd := by
    decide +kernel
  obtain ⟨hcalled, hhere⟩ := hfacts
  refine ⟨Setup.workDir_working _ _, ?_⟩
  rcases hrun : nestedSolve ⟨"sub/.."⟩ with ⟨r, w⟩
  rw [hrun] at hcalled
  unfold nestedSolve at hrun
  have hname : IsName numberingFile := by decide
  rcases solver_call_finds_program _ s ⟨"results"⟩ _ _ _ _ _ _ _ (Setup.workDir_working _ _) hname
    hrun with hnone | ⟨call, arg, _, hcalls, _, harg, _, _, hfinds⟩
  · simp [hnone, World.ofDisk] at hcalled
  · exact ⟨call, arg, hcalls, harg, (hfinds (Or.inr (Or.inr hhere))).2.1⟩

/-- From a relative run root that is not the current directory, the program is looked for
below that root once more. -/
theorem solver_call_misses_program_below_current_directory :
    (nestedSolve ⟨"sub"⟩).2.calls.map (fun call =>
        (call.disk.read ⟨"sub/results/numbering.dtl"⟩, call.args.getLast?,
          call.view.read ⟨"sub/results/numbering.dtl"⟩)) =
      [(.ok (Text.encode "rules"), some "sub/results/numbering.dtl",
        .error (.system .noEntry))] := by
  decide +kernel

end Stage
end PointsTo
