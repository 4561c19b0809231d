import PointsTo.Proofs.Preflight

/-!
The options of a command as the virtual machine reads them, and the class path among
them. A class path is the one text of a list of entries: it can be taken apart again, and
a text that was taken apart is put together as it was.
-/

namespace PointsTo

namespace Path

section SearchList

variable {entries : List Path} {text : String}

theorem joinSearchList?_eq_some_iff : joinSearchList? entries = some text ↔
    Command.Joinable entries ∧
      text.toList = [':'].intercalate (entries.map fun p => p.text.toList) := by
  have htext : (String.intercalate ":" (entries.map Path.text)).toList =
      [':'].intercalate (entries.map fun p => p.text.toList) := by
    simp [Function.comp_def]
  unfold joinSearchList?
  split
  · next h =>
    have hnot : ¬ Command.Joinable entries := by simpa [Command.Joinable] using h
    simp [hnot]
  · next h =>
    have hjoinable : Command.Joinable entries := by simpa [Command.Joinable] using h
    rw [Option.some.injEq, String.ext_iff, htext]
    exact ⟨fun heq => ⟨hjoinable, heq.symm⟩, fun hboth => hboth.2.symm⟩

theorem splitSearchList_join (hne : entries ≠ []) (h : joinSearchList? entries = some text) :
    splitSearchList text = entries := by
  obtain ⟨hjoinable, htext⟩ := joinSearchList?_eq_some_iff.1 h
  have hsplit := List.splitOn_intercalate ':'
    (by simpa [Command.Joinable] using hjoinable : ∀ cs ∈ entries.map fun p => p.text.toList, ':' ∉ cs)
    (by simpa using hne)
  rw [splitSearchList, htext, hsplit, List.map_map]
  simp [Function.comp_def]

theorem joinSearchList?_split (text : String) :
    joinSearchList? (splitSearchList text) = some text := by
  refine joinSearchList?_eq_some_iff.2 ⟨?_, ?_⟩
  · have hpieces : ∀ cs ∈ text.toList.splitOn ':', ':' ∉ cs := fun cs => not_mem_of_mem_splitOn
    simpa [Command.Joinable, splitSearchList] using hpieces
  · simp [splitSearchList, Function.comp_def, List.intercalate_splitOn]

theorem joinSearchList?_cons {p : Path} (hp : ':' ∉ p.text.toList) (hne : entries ≠ [])
    (h : joinSearchList? entries = some text) :
    joinSearchList? (p :: entries) = some (p.text ++ ":" ++ text) := by
  obtain ⟨hjoinable, htext⟩ := joinSearchList?_eq_some_iff.1 h
  refine joinSearchList?_eq_some_iff.2 ⟨List.forall_mem_cons.2 ⟨hp, hjoinable⟩, ?_⟩
  cases entries with
  | nil => exact absurd rfl hne
  | cons q entries => simp [htext, List.intercalate]

end SearchList

end Path

/-- The options before the main class, each with the value that it has in the argument
after it. Only the class path has one, and `awaited` says that it comes next. -/
def Launch.options (awaited : Bool) : List String → List (String × Option String)
  | [] => []
  | a :: rest =>
    if awaited then ("-cp", some a) :: options false rest
    else if a = "-cp" then options true rest
    else if a.toList.head? = some '-' then (a, none) :: options false rest
    else []

def EngineCall.options (call : EngineCall) : List (String × Option String) :=
  Launch.options false call.args

namespace Command

def options (c : Command) : List (String × Option String) :=
  Launch.options false c.args

def Carries (c : Command) (given : List (String × Option String)) : Prop :=
  ∀ rest, Launch.options false (c.args ++ rest) = given ++ Launch.options false rest

section Carries

variable {c c' : Command} {given : List (String × Option String)}

theorem carries_new (label : String) (program : Path) : (new label program).Carries [] :=
  fun _ => rfl

theorem Carries.classPath {entries : List Path} (h : c.Carries given)
    (hc : c.classPath entries = .ok c') :
    ∃ text, Path.joinSearchList? entries = some text ∧
      c'.Carries (given ++ [("-cp", some text)]) := by
  unfold Command.classPath at hc
  split at hc
  · next text htext =>
    cases hc
    refine ⟨text, htext, fun rest => ?_⟩
    simp only [arg, List.append_assoc]
    rw [h]
    simp [Launch.options]
  · cases hc

theorem Carries.flag {a : String} (h : c.Carries given) (ha : IsFlag a) :
    (c.arg a).Carries (given ++ [(a, none)]) := by
  intro rest
  simp only [arg, List.append_assoc]
  rw [h]
  simp [Launch.options, ha.1, ha.2]

theorem Carries.property (h : c.Carries given) (key value : String) :
    (c.property key value).Carries (given ++ [("-D" ++ key ++ "=" ++ value, none)]) :=
  h.flag (isFlag_property key value)

theorem Carries.properties (h : c.Carries given) (properties : List (String × String)) :
    (properties.foldl (fun c (key, value) => c.property key value) c).Carries
      (given ++ properties.map fun (key, value) => ("-D" ++ key ++ "=" ++ value, none)) := by
  induction properties generalizing c given with
  | nil => simpa using h
  | cons x properties ih =>
      have hrest := ih (h.property x.1 x.2)
      rw [List.append_assoc] at hrest
      exact hrest

/-- The main class ends the options. -/
theorem Carries.launch {mainClass : String} (h : c.Carries given)
    (hmain : mainClass.toList.head? ≠ some '-') (operands : List String) :
    ((c.arg mainClass).addArgs operands).options = given := by
  have hcp : mainClass ≠ "-cp" := by
    rintro rfl
    exact hmain rfl
  simp only [options, addArgs, arg, List.append_assoc]
  rw [h]
  simp [Launch.options, hcp, hmain]

end Carries

theorem exists_joinSearchList?_iff {entries : List Path} :
    (∃ text, Path.joinSearchList? entries = some text) ↔ Joinable entries := by
  rw [← Option.isSome_iff_exists, Option.isSome_iff_ne_none, ne_eq, joinSearchList?_eq_none_iff,
    Classical.not_not]

theorem classPath_error_iff {c : Command} {entries : List Path} :
    (∃ problem, c.classPath entries = .error (.configuration problem)) ↔
      ∃ p ∈ entries, ':' ∈ p.text.toList := by
  have hnot : (∃ p ∈ entries, ':' ∈ p.text.toList) ↔ ¬ Joinable entries := by
    simp [Joinable]
  rw [hnot, ← joinSearchList?_eq_none_iff]
  unfold classPath
  cases Path.joinSearchList? entries <;> simp

end Command

namespace Setup

open Command

variable {s : Setup} {c : Command} {text : String}

theorem exists_dumpCommand (h : Joinable s.relationsClassPath) (entryPoint : String) :
    ∃ c, s.dumpCommand entryPoint = .ok c := by
  obtain ⟨c, hc⟩ := exists_classPath_iff.2 h
  exact ⟨_, bind_eq_ok_iff.2 ⟨c, hc, rfl⟩⟩

theorem options_dumpCommand {entryPoint : String} (h : s.dumpCommand entryPoint = .ok c) :
    ∃ text, Path.joinSearchList? s.relationsClassPath = some text ∧
      c.options = [("-cp", some text), ("-Xmx" ++ s.config.tuning.maxHeap, none),
        ("-D" ++ "pa.dumppath" ++ "=" ++ dirText s.workDir, none),
        ("-D" ++ "pa.specialmapinfo" ++ "=" ++ "yes", none),
        ("-D" ++ "pa.dumpunmunged" ++ "=" ++ "yes", none),
        ("-D" ++ "pa.signaturesinlocs" ++ "=" ++ "yes", none)] := by
  obtain ⟨c', hc, h⟩ := bind_eq_ok_iff.1 h
  cases h
  obtain ⟨text, htext, hopen⟩ := (carries_new _ _).classPath hc
  have hheap := hopen.flag (isFlag_heap (Or.inr rfl) s.config.tuning.maxHeap)
  refine ⟨text, htext, ?_⟩
  exact ((((hheap.property _ _).property _ _).property _ _).property _ _).launch (by decide) _

theorem options_equivalenceCommand (h : s.equivalenceCommand = .ok c) :
    ∃ text, Path.joinSearchList? s.relationsClassPath = some text ∧
      c.options = [("-mx" ++ s.config.tuning.maxHeap, none),
        ("-D" ++ "basedir" ++ "=" ++ dirText s.workDir, none),
        ("-D" ++ "resultdir" ++ "=" ++ dirText s.workDir, none),
        ("-D" ++ "pa.discovercallgraph" ++ "=" ++ "yes", none), ("-cp", some text)] := by
  obtain ⟨c', hc, h⟩ := bind_eq_ok_iff.1 h
  cases h
  have hheap := (carries_new relationsLabel s.toolchain.runtime).flag
    (isFlag_heap (Or.inl rfl) s.config.tuning.maxHeap)
  obtain ⟨text, htext, hopen⟩ :=
    Carries.classPath (((hheap.property _ _).property _ _).property _ _) hc
  exact ⟨text, htext, hopen.launch (by decide) _⟩

theorem options_solverCommand {label : String} {program : Path}
    (h : s.solverCommand label program = .ok c) :
    ∃ text, c.options = [("-cp", some text), ("-mx" ++ s.config.tuning.maxHeap, none),
        ("-D" ++ "basedir" ++ "=" ++ dirText s.workDir, none)] ++
      s.config.tuning.solverProperties.map fun (key, value) =>
        ("-D" ++ key ++ "=" ++ value, none) := by
  obtain ⟨c', hc, h⟩ := bind_eq_ok_iff.1 h
  cases h
  obtain ⟨text, _, hopen⟩ := (carries_new _ _).classPath hc
  have hheap := hopen.flag (isFlag_heap (Or.inl rfl) s.config.tuning.maxHeap)
  exact ⟨text, ((hheap.property _ _).properties _).launch (by decide) _⟩

end Setup

namespace Path

theorem not_mem_div {c : Char} {p : Path} {name : String} (hp : c ∉ p.text.toList)
    (hname : c ∉ name.toList) (hc : c ≠ '/') : c ∉ (p / name).text.toList := by
  change c ∉ (p.join ⟨name⟩).text.toList
  unfold join
  split
  · exact hname
  · split
    · simp [hp, hname]
    · simp [hp, hname, hc]

end Path

namespace Toolchain

theorem parts_of_resolve {d : Disk} {given : Overrides} {ownDir : Path} {tc : Toolchain}
    (h : resolve d given ownDir = .ok tc) :
    tc.pqlJar = tc.home / pqlJarName ∧
      ∀ text, given.classPath = some text → text ≠ "" →
        tc.baseClassPath = Path.splitSearchList text := by
  unfold resolve at h
  cases hruntime : given.runtimeHome with
  | none =>
      rw [hruntime] at h
      cases h
  | some runtimeHome =>
      rw [hruntime] at h
      obtain ⟨_, _, h⟩ := bind_eq_ok_iff.1 h
      dsimp only at h
      split at h
      · cases h
      · obtain ⟨pqlJar, hjar, h⟩ := bind_eq_ok_iff.1 h
        obtain ⟨jlineJar, _, h⟩ := bind_eq_ok_iff.1 h
        cases h
        refine ⟨?_, fun text htext hne => by simp [htext, hne]⟩
        unfold requireFile at hjar
        split at hjar
        · cases hjar
          rfl
        · cases hjar

end Toolchain

namespace Setup

/-- The class path for the relations, as one text. -/
theorem joinSearchList?_relations {s : Setup} {text : String}
    (hjar : s.toolchain.pqlJar = s.toolchain.home / Toolchain.pqlJarName)
    (hbase : s.toolchain.baseClassPath = Path.splitSearchList text)
    (hhome : ':' ∉ s.toolchain.home.text.toList) :
    Path.joinSearchList? s.relationsClassPath =
      some (s.toolchain.home.text ++ ":" ++ (s.toolchain.pqlJar.text ++ ":" ++ text)) := by
  have hpql : ':' ∉ s.toolchain.pqlJar.text.toList := by
    rw [hjar]
    exact Path.not_mem_div hhome (by decide) (by decide)
  have hne : Path.splitSearchList text ≠ [] := by
    simp [Path.splitSearchList, List.splitOn_ne_nil]
  rw [relationsClassPath, hbase]
  exact Path.joinSearchList?_cons hhome (by simp)
    (Path.joinSearchList?_cons hpql hne (Path.joinSearchList?_split text))

end Setup

namespace Command

open Setup

/-- A class path that comes from a text goes into the commands as that text, and one that
comes from a list of entries can be taken apart into that list. Only an entry with a
separator in it is refused. -/
theorem classPath_splits_and_joins :
    (∀ (d : Disk) (given : Toolchain.Overrides) (ownDir : Path) (text : String) (s : Setup),
      given.classPath = some text → text ≠ "" →
      Toolchain.resolve d given ownDir = .ok s.toolchain →
      ':' ∉ s.toolchain.home.text.toList →
      ∀ entryPoint, ∃ dump equivalence, s.dumpCommand entryPoint = .ok dump ∧
        s.equivalenceCommand = .ok equivalence ∧
        ∀ c ∈ [dump, equivalence], ∀ value, ("-cp", some value) ∈ c.options ↔
          value = s.toolchain.home.text ++ ":" ++ (s.toolchain.home / Toolchain.pqlJarName).text ++
            ":" ++ text) ∧
    ∀ (c : Command) (entries : List Path), entries ≠ [] →
      ((∃ problem, c.classPath entries = .error (.configuration problem)) ↔
        ∃ p ∈ entries, ':' ∈ p.text.toList) ∧
      ((∀ p ∈ entries, ':' ∉ p.text.toList) →
        ∃ joined, c.classPath entries = .ok { c with args := c.args ++ ["-cp", joined] } ∧
          Path.splitSearchList joined = entries) := by
  constructor
  · intro d given ownDir text s hgiven hne hresolve hhome entryPoint
    obtain ⟨hjar, hbase⟩ := Toolchain.parts_of_resolve hresolve
    have hjoined := joinSearchList?_relations hjar (hbase text hgiven hne) hhome
    have hjoinable := (Path.joinSearchList?_eq_some_iff.1 hjoined).1
    obtain ⟨dump, hdump⟩ := exists_dumpCommand hjoinable entryPoint
    obtain ⟨equivalence, hequivalence⟩ := exists_equivalenceCommand hdump
    obtain ⟨_, hjoined', hoptions⟩ := options_dumpCommand hdump
    obtain ⟨_, hjoined'', hoptions'⟩ := options_equivalenceCommand hequivalence
    cases hjoined.symm.trans hjoined'
    cases hjoined.symm.trans hjoined''
    refine ⟨dump, equivalence, hdump, hequivalence, List.forall_mem_cons.2
      ⟨fun value => ?_, List.forall_mem_singleton.2 fun value => ?_⟩⟩
    · simp [hoptions, hjar, String.append_assoc]
    · simp [hoptions', hjar, String.append_assoc]
  · intro c entries hne
    refine ⟨classPath_error_iff, fun hjoinable => ?_⟩
    obtain ⟨joined, hjoined⟩ := exists_joinSearchList?_iff.2 hjoinable
    refine ⟨joined, ?_, Path.splitSearchList_join hne hjoined⟩
    simp [classPath, hjoined, arg]

def plainInstallation : Disk :=
  .holding [(["pql"], .directory 0o755), (["PQL-0.2.jar", "pql"], .file [] 0o644),
    (["jline.jar", "pql"], .file [] 0o644)]

/-- Separators at both ends and next to each other are kept. -/
theorem classPath_keeps_empty_entries :
    ∃ s : Setup, ':' ∉ s.toolchain.home.text.toList ∧
      Toolchain.resolve plainInstallation ⟨some ⟨"/pql"⟩, some ⟨"/jdk"⟩, some ":a::b:"⟩ ⟨"/exe"⟩ =
        .ok s.toolchain ∧
      s.toolchain.baseClassPath = [⟨""⟩, ⟨"a"⟩, ⟨""⟩, ⟨"b"⟩, ⟨""⟩] ∧
      ∃ dump equivalence, s.dumpCommand "Main" = .ok dump ∧
        s.equivalenceCommand = .ok equivalence ∧
        ∀ c ∈ [dump, equivalence], ∀ value, ("-cp", some value) ∈ c.options ↔
          value = "/pql:/pql/PQL-0.2.jar::a::b:" := by
  let toolchain : Toolchain :=
    ⟨⟨"/pql"⟩, ⟨"/pql/PQL-0.2.jar"⟩, ⟨"/pql/jline.jar"⟩, ⟨"/jdk/bin/java"⟩,
      [⟨""⟩, ⟨"a"⟩, ⟨""⟩, ⟨"b"⟩, ⟨""⟩]⟩
  have hresolve : Toolchain.resolve plainInstallation
      ⟨some ⟨"/pql"⟩, some ⟨"/jdk"⟩, some ":a::b:"⟩ ⟨"/exe"⟩ = .ok toolchain := by
    decide +kernel
  have htext : toolchain.home.text ++ ":" ++ (toolchain.home / Toolchain.pqlJarName).text ++ ":" ++
      ":a::b:" = "/pql:/pql/PQL-0.2.jar::a::b:" := by
    decide +kernel
  obtain ⟨dump, equivalence, hdump, hequivalence, hoptions⟩ := classPath_splits_and_joins.1 _ _ _ _
    ⟨toolchain, .new ⟨"/run"⟩, "odd"⟩ rfl (by decide) hresolve (by decide) "Main"
  refine ⟨_, by decide, hresolve, rfl, dump, equivalence, hdump, hequivalence, fun c hc value => ?_⟩
  rw [← htext]
  exact hoptions c hc value

end Command
end PointsTo
