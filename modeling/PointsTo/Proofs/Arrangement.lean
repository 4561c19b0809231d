import Mathlib.Data.List.Pairwise
import Mathlib.Data.List.Perm.Basic
import Mathlib.Data.List.Permutation
import PointsTo.Arguments
import PointsTo.Proofs.Decimal

/-!
Command lines in any order. A command line that consists of whole groups, options with
their values and positional words, is read group by group: what is settled in the end is
a fold over the groups. The order of the groups then matters only for the two positional
words, and for mappings, which may be given more than once.
-/

namespace PointsTo

theorem Request.mapRequest?_of_length {r : Request} (h : r.map.length ≠ 3) :
    r.mapRequest? = none := by
  unfold mapRequest?
  split
  · next hmap => simp [hmap] at h
  · rfl

namespace Arguments

/-- A word that starts no option: there is something in it, and no dash in front. -/
structure Value where
  text : String
  nonempty : text ≠ ""
  undashed : text.toList.head? ≠ some '-'
deriving DecidableEq

structure Seconds where
  digits : List Char
  isNumeral : Decimal.isNumeral digits = true
  fits : Decimal.value digits < UInt64.size
deriving DecidableEq

namespace Seconds

def text (s : Seconds) : String :=
  String.ofList s.digits

def word (s : Seconds) : UInt64 :=
  UInt64.ofNatLT (Decimal.value s.digits) s.fits

theorem readWord?_text (s : Seconds) : Decimal.readWord? s.text.toList = some s.word := by
  rw [text, String.toList_ofList, Decimal.readWord?_eq_some_iff s.isNumeral]
  exact UInt64.toNat_ofNatLT.symm

def value (s : Seconds) : Value where
  text := s.text
  nonempty := by
    intro h
    have hdigits : s.digits = [] := by simpa [text] using congrArg String.toList h
    exact (Decimal.isNumeral_iff.1 s.isNumeral).1 hdigits
  undashed := by
    rw [text, String.toList_ofList]
    exact Decimal.head?_ne_of_isNumeral s.isNumeral (by decide)

end Seconds

inductive Group where
  | flag (f : Flag)
  /-- The short form of a flag. -/
  | shortVerbose
  | config (file : Value)
  | workDir (dir : Value)
  | stageTimeout (seconds : Seconds)
  | map (tuples names dest : Value)
deriving DecidableEq

def Flag.word : Flag → String
  | fast => "--fast"
  | pql => "--pql"
  | noCleanup => "--no-cleanup"
  | strict => "--strict"
  | verbose => "--verbose"

def Setting.word : Setting → String
  | config => "--config"
  | workDir => "--work-dir"
  | stageTimeout => "--stage-timeout"
  | map => "--map"

namespace Group

def switch : Group → Switch
  | flag f => .flag f
  | shortVerbose => .flag .verbose
  | config _ => .setting .config
  | workDir _ => .setting .workDir
  | stageTimeout _ => .setting .stageTimeout
  | map .. => .setting .map

def values : Group → List Value
  | flag _ | shortVerbose => []
  | config file => [file]
  | workDir dir => [dir]
  | stageTimeout seconds => [seconds.value]
  | map tuples names dest => [tuples, names, dest]

def word : Group → String
  | flag f => f.word
  | shortVerbose => "-v"
  | config _ => Setting.config.word
  | workDir _ => Setting.workDir.word
  | stageTimeout _ => Setting.stageTimeout.word
  | map .. => Setting.map.word

def words (g : Group) : List String :=
  g.word :: g.values.map Value.text

def isMap (g : Group) : Bool :=
  g.switch = .setting .map

def mapPaths (g : Group) : List Path :=
  if g.isMap then g.values.map fun v => ⟨v.text⟩ else []

def applyFlag (r : Request) : Flag → Request
  | .fast => { r with fast := true }
  | .pql => { r with pql := true }
  | .noCleanup => { r with noCleanup := true }
  | .strict => { r with strict := true }
  | .verbose => { r with verbose := true }

def apply (r : Request) (g : Group) : Request :=
  match g with
  | flag f => applyFlag r f
  | shortVerbose => applyFlag r .verbose
  | config file => { r with config := some ⟨file.text⟩ }
  | workDir dir => { r with workDir := ⟨dir.text⟩ }
  | stageTimeout seconds => { r with stageTimeout := some seconds.word }
  | map .. => { r with map := r.map ++ g.mapPaths }

end Group

def plainRequest (entryPoint program : Value) : Request where
  entryPoint := entryPoint.text
  program := ⟨program.text⟩
  fast := false
  pql := false
  config := none
  workDir := ⟨"results"⟩
  noCleanup := false
  strict := false
  stageTimeout := none
  map := []
  verbose := false

def requestOf (entryPoint program : Value) (groups : List Group) : Request :=
  groups.foldl Group.apply (plainRequest entryPoint program)

inductive Item where
  | positional (v : Value)
  | option (g : Group)
deriving DecidableEq

namespace Item

def words : Item → List String
  | positional v => [v.text]
  | option g => g.words

def positional? : Item → Option Value
  | positional v => some v
  | option _ => none

def group? : Item → Option Group
  | positional _ => none
  | option g => some g

end Item

/-- The words of two positionals and of options in some order, where the entry point
comes before the program. -/
def Arranges (entryPoint program : Value) (groups : List Group) (args : List String) : Prop :=
  ∃ items : List Item, items.filterMap Item.positional? = [entryPoint, program] ∧
    (items.filterMap Item.group?).Perm groups ∧ args = items.flatMap Item.words

def Given.take (g : Given) : Item → Except UsageError Given
  | .positional v => g.addPositional v.text
  | .option o =>
    match o.switch with
    | .flag f => g.addFlag f
    | .setting s => g.addSetting s (o.values.map Value.text)
    | .info answer => .error answer

namespace Group

/-- Only mappings may be given more than once. -/
def Apart (o o' : Group) : Prop :=
  o.switch = o'.switch → o.isMap = true

theorem Apart.symm {o o' : Group} (h : o.Apart o') : o'.Apart o := by
  intro hsame
  rw [isMap, hsame]
  exact h hsame.symm

instance : Std.Symm Apart :=
  ⟨fun _ _ => Apart.symm⟩

theorem switch_ne_info (g : Group) {answer : UsageError} : g.switch ≠ .info answer := by
  cases g <;> nofun

theorem values_flag (g : Group) {f : Flag} (h : g.switch = .flag f) : g.values = [] := by
  cases g <;> first | rfl | cases h

theorem values_setting (g : Group) {s : Setting} (h : g.switch = .setting s) :
    g.values.length = s.arity := by
  cases g <;> cases h <;> rfl

end Group

namespace Reader

def settled (r : Reader) : Except UsageError Given :=
  r.given.settle r.pending

/-- The reader is between two items. -/
structure Between (r : Reader) : Prop where
  onlyPositionals : r.onlyPositionals = false
  complete : ∀ s values, r.pending = some (.setting s values) → values.length = s.arity

section Step

variable {r r' : Reader}

/-- What holds of all readers that an item may leave. -/
theorem read_then (x : Except UsageError Given) (leave : Given → Reader)
    {next : Given → Except UsageError Given} {n : Nat} (hnext : ∀ g, (leave g).settled = next g)
    (hbetween : ∀ g, (leave g).Between) (hn : ∀ g, (leave g).positionals = n) :
    ((x >>= fun g => .ok (leave g)) >>= settled) = (x >>= next) ∧
      ∀ r', (x >>= fun g => .ok (leave g)) = .ok r' → r'.Between ∧ r'.positionals = n := by
  cases x with
  | error e => exact ⟨rfl, nofun⟩
  | ok g =>
      refine ⟨hnext g, fun r' hr' => ?_⟩
      cases hr'
      exact ⟨hbetween g, hn g⟩

theorem words_append (r : Reader) (before after : List String) :
    r.words (before ++ after) = r.words before >>= fun r' => r'.words after := by
  induction before generalizing r with
  | nil => rfl
  | cons w before ih =>
      rw [List.cons_append, words, words, bind_assoc]
      exact congrArg _ (funext ih)

theorem word_flag (h : r.onlyPositionals = false) (f : Flag) :
    r.word f.word = r.switch (.flag f) := by
  cases f <;> (rw [word, h]; rfl)

theorem word_setting (h : r.onlyPositionals = false) (s : Setting) :
    r.word s.word = r.switch (.setting s) := by
  cases s <;> (rw [word, h]; rfl)

theorem word_group (h : r.onlyPositionals = false) (g : Group) :
    r.word g.word = r.switch g.switch := by
  cases g with
  | flag f => exact word_flag h f
  | shortVerbose =>
      rw [word, h]
      exact bind_pure (r.switch (.flag .verbose))
  | config _ => exact word_setting h .config
  | workDir _ => exact word_setting h .workDir
  | stageTimeout _ => exact word_setting h .stageTimeout
  | map _ _ _ => exact word_setting h .map

theorem word_value (h : r.onlyPositionals = false) (v : Value) : r.word v.text = r.plain v.text := by
  rw [word, h, if_neg Bool.false_ne_true]
  have hdash := v.undashed
  split
  · next htext => simp [htext] at hdash
  · next htext => simp [htext] at hdash
  · next htext => simp [htext] at hdash
  · rfl

/-- Values are taken as long as the option waits for some. -/
theorem words_values (h : r.onlyPositionals = false) {s : Setting} (vs : List Value)
    {before : List String} (hpending : r.pending = some (.setting s before))
    (hroom : before.length + vs.length ≤ s.arity) :
    r.words (vs.map Value.text) =
      .ok { r with pending := some (.setting s (before ++ vs.map Value.text)) } := by
  induction vs generalizing r before with
  | nil =>
      rw [List.map_nil, List.append_nil, ← hpending]
      rfl
  | cons v vs ih =>
      rw [List.length_cons] at hroom
      have hplain : r.plain v.text =
          .ok { r with pending := some (.setting s (before ++ [v.text])) } := by
        rw [plain, hpending]
        exact if_pos (by omega)
      rw [List.map_cons, words, word_value h, hplain]
      have hrest := ih (r := { r with pending := some (.setting s (before ++ [v.text])) }) h rfl
        (by rw [List.length_append, List.length_singleton]; omega)
      rw [List.append_assoc] at hrest
      exact hrest

theorem begin_eq (r : Reader) (next : Option Pending) :
    r.begin next = r.settled >>= fun g => .ok { r with given := g, pending := next } := rfl

/-- A word that starts no option is a positional one if no option waits for values. -/
theorem words_positional (h : r.Between) (v : Value) (hroom : r.positionals < 2) :
    r.words [v.text] = r.settled >>= fun g => .ok
      { r with
        given := g
        pending := some (.positional v.text)
        positionals := r.positionals + 1 } := by
  have hplain : r.plain v.text = r.positional v.text := by
    rw [plain]
    split
    · next s values hpending => exact if_neg (by rw [h.complete s values hpending]; omega)
    · rfl
  rw [words, word_value h.onlyPositionals, hplain, positional, if_neg (by omega), begin_eq]
  cases r.settled <;> rfl

theorem words_flag (h : r.onlyPositionals = false) {o : Group} {f : Flag}
    (ho : o.switch = .flag f) :
    r.words o.words = (r.settled >>= fun g => g.addFlag f) >>= fun g =>
      .ok { r with given := g, pending := none } := by
  rw [Group.words, o.values_flag ho, words, word_group h, ho, switch, begin_eq, bind_assoc]
  cases r.settled with
  | error e => rfl
  | ok g =>
      cases hadd : g.addFlag f with
      | error e => simp [Bind.bind, Except.bind, hadd]
      | ok g' => simp [Bind.bind, Except.bind, hadd, words]

theorem words_setting (h : r.onlyPositionals = false) {o : Group} {s : Setting}
    (ho : o.switch = .setting s) :
    r.words o.words = r.settled >>= fun g =>
      .ok { r with given := g, pending := some (.setting s (o.values.map Value.text)) } := by
  rw [Group.words, words, word_group h, ho, switch, begin_eq, bind_assoc]
  refine congrArg _ (funext fun g => ?_)
  exact words_values (r := { r with given := g, pending := some (.setting s []) }) h o.values rfl
    (by simp [o.values_setting ho])

/-- One item read from between two items: what was pending is settled first. -/
theorem words_item (h : r.Between) (item : Item)
    (hroom : r.positionals + item.positional?.toList.length ≤ 2) :
    (r.words item.words >>= settled) = (r.settled >>= fun g => g.take item) ∧
      ∀ r', r.words item.words = .ok r' → r'.Between ∧
        r'.positionals = r.positionals + item.positional?.toList.length := by
  cases item with
  | positional v =>
      rw [Item.words, words_positional h v (Nat.lt_of_succ_le hroom)]
      exact read_then _ _ (fun _ => rfl) (fun _ => ⟨h.onlyPositionals, nofun⟩) fun _ => rfl
  | option o =>
      cases ho : o.switch with
      | info answer => exact absurd ho o.switch_ne_info
      | flag f =>
          have htake : (fun g : Given => g.take (.option o)) = fun g => g.addFlag f := by
            simp [Given.take, ho]
          have hread := read_then (r.settled >>= fun g => g.addFlag f)
            (fun g => { r with given := g, pending := none }) (fun _ => rfl)
            (fun _ => ⟨h.onlyPositionals, nofun⟩) fun _ => rfl
          rw [Item.words, words_flag h.onlyPositionals ho, htake]
          exact ⟨hread.1.trans (bind_pure _), hread.2⟩
      | setting s =>
          have htake : (fun g : Given => g.take (.option o)) =
              fun g => g.addSetting s (o.values.map Value.text) := by
            simp [Given.take, ho]
          rw [Item.words, words_setting h.onlyPositionals ho, htake]
          refine read_then _ _ (fun _ => rfl) (fun _ => ⟨h.onlyPositionals, ?_⟩) fun _ => rfl
          intro s' values heq
          cases heq
          simpa using o.values_setting ho

/-- A command line of whole items is read as a fold over them. -/
theorem words_items (h : r.Between) (items : List Item)
    (hroom : r.positionals + (items.filterMap Item.positional?).length ≤ 2) :
    (r.words (items.flatMap Item.words) >>= settled) = (r.settled >>= items.foldlM Given.take) := by
  induction items generalizing r with
  | nil => exact (bind_pure r.settled).symm
  | cons item items ih =>
      have hsplit : (item :: items).filterMap Item.positional? =
          item.positional?.toList ++ items.filterMap Item.positional? := by
        cases item <;> rfl
      rw [hsplit, List.length_append] at hroom
      obtain ⟨hitem, hleft⟩ := words_item h item (by omega)
      have hfold : (r.settled >>= (item :: items).foldlM Given.take) =
          (r.words item.words >>= settled) >>= items.foldlM Given.take := by
        rw [hitem, bind_assoc]
        rfl
      rw [List.flatMap_cons, words_append, bind_assoc, hfold, bind_assoc]
      -- the items that are left start from between two items again
      cases hr : r.words item.words with
      | error e => rfl
      | ok r' =>
          obtain ⟨hbetween, hpositionals⟩ := hleft r' hr
          exact ih hbetween (by omega)

end Step
end Reader

theorem parse_items (items : List Item) (h : (items.filterMap Item.positional?).length ≤ 2) :
    parse (items.flatMap Item.words) = items.foldlM Given.take { } >>= Given.request := by
  have hrun := Reader.words_items (r := { }) ⟨rfl, nofun⟩ items (by simpa using h)
  have hparse : parse (items.flatMap Item.words) =
      (({ } : Reader).words (items.flatMap Item.words) >>= Reader.settled) >>= Given.request := by
    rw [bind_assoc]
    rfl
  rw [hparse, hrun]
  rfl

namespace Given

def has (g : Given) : Switch → Bool
  | .flag f => g.flags.contains f
  | .setting s => g.hasSetting s
  | .info _ => false

/-- The request that is settled so far, once its positional words are there. -/
def view (g : Given) (entryPoint program : Value) : Request where
  entryPoint := entryPoint.text
  program := ⟨program.text⟩
  fast := g.flags.contains .fast
  pql := g.flags.contains .pql
  config := g.config
  workDir := g.workDir.getD ⟨"results"⟩
  noCleanup := g.flags.contains .noCleanup
  strict := g.flags.contains .strict
  stageTimeout := g.stageTimeout
  map := g.map
  verbose := g.flags.contains .verbose

theorem path_value (v : Value) : path v.text = .ok ⟨v.text⟩ :=
  if_neg v.nonempty

variable {g g' : Given}

theorem addSetting_conflict {s : Setting} {values : List String} (h : values.length = s.arity)
    (hs : g.hasSetting s = true) : g.addSetting s values = .error .conflict := by
  have hsome : values.isEmpty = false := by
    cases values with
    | nil => cases s <;> cases h
    | cons _ _ => rfl
  simp [addSetting, hsome, h, hs]

theorem take_conflict {o : Group} (h : g.has o.switch = true) :
    g.take (.option o) = .error .conflict := by
  cases ho : o.switch with
  | info answer => exact absurd ho o.switch_ne_info
  | flag f =>
      rw [ho] at h
      simp only [take, ho, addFlag]
      exact if_pos h
  | setting s =>
      rw [ho] at h
      simp only [take, ho]
      exact addSetting_conflict (by simpa using o.values_setting ho) h

structure Adds (g : Given) (o : Group) (g' : Given) : Prop where
  has : ∀ s, g'.has s = (g.has s || (s = o.switch && !o.isMap))
  entryPoint : g'.entryPoint = g.entryPoint
  program : g'.program = g.program
  view : ∀ entryPoint program, g'.view entryPoint program = o.apply (g.view entryPoint program)

theorem adds_flag {o : Group} {f : Flag} (ho : o.switch = .flag f) :
    g.Adds o { g with flags := f :: g.flags } where
  has := by
    intro s
    cases s with
    | flag f' => simp [has, ho, Group.isMap, Bool.or_comm]
    | setting s | info answer => simp [has, ho, hasSetting]
  entryPoint := rfl
  program := rfl
  view := by
    intro entryPoint program
    cases o with
    | flag f =>
        cases ho
        cases f <;> simp [view, Group.apply, Group.applyFlag]
    | shortVerbose =>
        cases ho
        simp [view, Group.apply, Group.applyFlag]
    | config _ | workDir _ | stageTimeout _ | map _ _ _ => cases ho

theorem adds_setting {o : Group} {s : Setting} (ho : o.switch = .setting s)
    (hflags : g'.flags = g.flags)
    (hsettings : ∀ s', g'.hasSetting s' = (g.hasSetting s' || (s' = s && !o.isMap)))
    (hentry : g'.entryPoint = g.entryPoint) (hprogram : g'.program = g.program)
    (hview : ∀ entryPoint program,
      g'.view entryPoint program = o.apply (g.view entryPoint program)) : g.Adds o g' where
  has := by
    intro s'
    cases s' with
    | setting s' => simpa [has, ho] using hsettings s'
    | flag f | info answer => simp [has, ho, hflags]
  entryPoint := hentry
  program := hprogram
  view := hview

theorem take_adds {o : Group} (h : g.has o.switch = false) :
    ∃ g', g.take (.option o) = .ok g' ∧ g.Adds o g' := by
  cases o with
  | flag f => exact ⟨_, if_neg (ne_true_of_eq_false h), adds_flag rfl⟩
  | shortVerbose => exact ⟨_, if_neg (ne_true_of_eq_false h), adds_flag rfl⟩
  | config file =>
      have hs : g.hasSetting .config = false := h
      refine ⟨{ g with config := some ⟨file.text⟩ }, ?_, adds_setting rfl rfl ?_ rfl rfl fun _ _ => rfl⟩
      · simp [take, Group.switch, Group.values, addSetting, Setting.arity, hs, path_value]
        rfl
      · intro s
        cases s <;> simp [hasSetting, Group.isMap, Group.switch]
  | workDir dir =>
      have hs : g.hasSetting .workDir = false := h
      refine ⟨{ g with workDir := some ⟨dir.text⟩ }, ?_, adds_setting rfl rfl ?_ rfl rfl fun _ _ => rfl⟩
      · simp [take, Group.switch, Group.values, addSetting, Setting.arity, hs, path_value]
        rfl
      · intro s
        cases s <;> simp [hasSetting, Group.isMap, Group.switch]
  | stageTimeout seconds =>
      have hs : g.hasSetting .stageTimeout = false := h
      refine ⟨{ g with stageTimeout := some seconds.word }, ?_,
        adds_setting rfl rfl ?_ rfl rfl fun _ _ => rfl⟩
      · simp [take, Group.switch, Group.values, addSetting, Setting.arity, hs, Seconds.value,
          seconds.readWord?_text]
      · intro s
        cases s <;> simp [hasSetting, Group.isMap, Group.switch]
  | map tuples names dest =>
      refine ⟨{ g with map := g.map ++ [⟨tuples.text⟩, ⟨names.text⟩, ⟨dest.text⟩] }, ?_,
        adds_setting rfl rfl ?_ rfl rfl fun _ _ => rfl⟩
      · simp [take, Group.switch, Group.values, addSetting, Setting.arity, hasSetting, path_value]
        rfl
      · intro s
        cases s <;> simp [hasSetting, Group.isMap, Group.switch]

inductive Awaits (g : Given) (entryPoint program : Value) : List Value → Prop where
  | both : g.entryPoint = none → g.program = none → Awaits g entryPoint program [entryPoint, program]
  | second : g.entryPoint = some entryPoint.text → g.program = none →
      Awaits g entryPoint program [program]
  | nothing : g.entryPoint = some entryPoint.text → g.program = some ⟨program.text⟩ →
      Awaits g entryPoint program []

section Fold

variable {entryPoint program : Value} {vs : List Value}

theorem Awaits.congr (h : g.Awaits entryPoint program vs) (hentry : g'.entryPoint = g.entryPoint)
    (hprogram : g'.program = g.program) : g'.Awaits entryPoint program vs := by
  cases h with
  | both h h' => exact .both (hentry.trans h) (hprogram.trans h')
  | second h h' => exact .second (hentry.trans h) (hprogram.trans h')
  | nothing h h' => exact .nothing (hentry.trans h) (hprogram.trans h')

theorem Awaits.request (h : g.Awaits entryPoint program []) :
    g.request = .ok (g.view entryPoint program) := by
  cases h with
  | nothing h h' => simp [Given.request, h, h', view, RunConfig.defaultWorkDir]

theorem take_positional {v : Value} (h : g.Awaits entryPoint program (v :: vs)) :
    ∃ g', g.take (.positional v) = .ok g' ∧ g'.Awaits entryPoint program vs ∧
      g'.has = g.has ∧ g'.view = g.view := by
  cases h with
  | both h h' =>
      refine ⟨{ g with entryPoint := some entryPoint.text }, ?_, .second rfl h', ?_, rfl⟩
      · simp [take, addPositional, h]
      · funext s
        cases s <;> rfl
  | second h h' =>
      refine ⟨{ g with program := some ⟨program.text⟩ }, ?_, .nothing h rfl, ?_, rfl⟩
      · simp [take, addPositional, h, path_value]
        rfl
      · funext s
        cases s <;> rfl

/-- Items whose options may stand together are all taken, and each does its part. -/
theorem foldlM_take {items : List Item}
    (h : g.Awaits entryPoint program (items.filterMap Item.positional?))
    (hnew : ∀ o ∈ items.filterMap Item.group?, g.has o.switch = false)
    (hapart : (items.filterMap Item.group?).Pairwise Group.Apart) :
    ∃ g', items.foldlM take g = .ok g' ∧ g'.Awaits entryPoint program [] ∧
      g'.view entryPoint program =
        (items.filterMap Item.group?).foldl Group.apply (g.view entryPoint program) := by
  induction items generalizing g with
  | nil => exact ⟨g, rfl, h, rfl⟩
  | cons item items ih =>
      cases item with
      | positional v =>
          obtain ⟨g', htake, hawaits, hhas, hview⟩ := take_positional h
          obtain ⟨last, hfold, hlast, hresult⟩ := ih hawaits (by rwa [hhas]) hapart
          refine ⟨last, ?_, hlast, ?_⟩
          · rw [List.foldlM_cons, htake]
            exact hfold
          · rw [hresult, hview]
            rfl
      | option o =>
          have hrest := List.pairwise_cons.1 hapart
          obtain ⟨g', htake, hadds⟩ := take_adds (hnew o List.mem_cons_self)
          have hnew' : ∀ o' ∈ items.filterMap Item.group?, g'.has o'.switch = false := by
            intro o' ho'
            rw [hadds.has, hnew o' (List.mem_cons_of_mem _ ho'), Bool.false_or]
            by_cases hsame : o.switch = o'.switch
            · simp [hrest.1 o' ho' hsame]
            · simp [Ne.symm hsame]
          obtain ⟨last, hfold, hlast, hresult⟩ :=
            ih (h.congr hadds.entryPoint hadds.program) hnew' hrest.2
          refine ⟨last, ?_, hlast, ?_⟩
          · rw [List.foldlM_cons, htake]
            exact hfold
          · rw [hresult, hadds.view]
            rfl

/-- Of options that may not stand together the later one is in conflict. -/
theorem foldlM_take_conflict {items : List Item}
    (h : g.Awaits entryPoint program (items.filterMap Item.positional?))
    (hclash : (∃ o ∈ items.filterMap Item.group?, g.has o.switch = true) ∨
      ¬ (items.filterMap Item.group?).Pairwise Group.Apart) :
    items.foldlM take g = .error .conflict := by
  induction items generalizing g with
  | nil => simp at hclash
  | cons item items ih =>
      rw [List.foldlM_cons]
      cases item with
      | positional v =>
          obtain ⟨g', htake, hawaits, hhas, _⟩ := take_positional h
          rw [htake]
          exact ih hawaits (by rwa [hhas])
      | option o =>
          cases hhas : g.has o.switch with
          | true =>
              rw [take_conflict hhas]
              rfl
          | false =>
              obtain ⟨g', htake, hadds⟩ := take_adds hhas
              rw [htake]
              refine ih (h.congr hadds.entryPoint hadds.program) ?_
              rcases hclash with ⟨o', ho', hold⟩ | hclash
              · rcases List.mem_cons.1 ho' with rfl | ho'
                · simp [hhas] at hold
                · exact Or.inl ⟨o', ho', by rw [hadds.has, hold, Bool.true_or]⟩
              · by_cases hfirst : ∀ o' ∈ items.filterMap Item.group?, o.Apart o'
                · exact Or.inr fun hrest => hclash (List.pairwise_cons.2 ⟨hfirst, hrest⟩)
                · simp only [Group.Apart, not_forall] at hfirst
                  obtain ⟨o', ho', hsame, hmap⟩ := hfirst
                  exact Or.inl ⟨o', ho', by simp [hadds.has, hsame, hmap]⟩

end Fold

end Given

section Arrangement

variable {entryPoint program : Value} {groups : List Group} {args : List String}

namespace Group

theorem applyFlag_comm (r : Request) (f f' : Flag) :
    applyFlag (applyFlag r f) f' = applyFlag (applyFlag r f') f := by
  cases f <;> cases f' <;> rfl

theorem apply_applyFlag (r : Request) (f : Flag) (o : Group) :
    apply (applyFlag r f) o = applyFlag (apply r o) f := by
  cases o with
  | flag f' => exact applyFlag_comm r f f'
  | shortVerbose => exact applyFlag_comm r f .verbose
  | config _ | workDir _ | stageTimeout _ | map _ _ _ => cases f <;> rfl

/-- Different options concern different parts of a request. -/
theorem apply_comm {o o' : Group} (h : o.switch ≠ o'.switch) (r : Request) :
    apply (apply r o) o' = apply (apply r o') o := by
  cases o with
  | flag f => exact apply_applyFlag r f o'
  | shortVerbose => exact apply_applyFlag r .verbose o'
  | config _ | workDir _ | stageTimeout _ | map _ _ _ =>
      cases o' with
      | flag f => exact (apply_applyFlag r f _).symm
      | shortVerbose => exact (apply_applyFlag r .verbose _).symm
      | config _ | workDir _ | stageTimeout _ | map _ _ _ => first | rfl | exact absurd rfl h

theorem length_mapPaths {o : Group} (h : o.isMap = true) : o.mapPaths.length = 3 := by
  rw [mapPaths, if_pos h, List.length_map, o.values_setting (of_decide_eq_true h)]
  rfl

theorem map_apply (r : Request) (o : Group) : (apply r o).map = r.map ++ o.mapPaths := by
  cases o with
  | flag f => cases f <;> exact (List.append_nil _).symm
  | shortVerbose | config _ | workDir _ | stageTimeout _ => exact (List.append_nil _).symm
  | map _ _ _ => rfl

theorem map_foldl_apply (r : Request) (os : List Group) :
    (os.foldl apply r).map = r.map ++ os.flatMap mapPaths := by
  induction os generalizing r with
  | nil => exact (List.append_nil _).symm
  | cons o os ih => rw [List.foldl_cons, ih, map_apply, List.append_assoc, List.flatMap_cons]

def applyRest (r : Request) (o : Group) : Request :=
  { apply r o with map := [] }

theorem applyRest_of_isMap {o : Group} (h : o.isMap = true) (r : Request) :
    applyRest r o = { r with map := [] } := by
  cases o with
  | map _ _ _ => rfl
  | flag _ | shortVerbose | config _ | workDir _ | stageTimeout _ => cases h

theorem forget_apply (r : Request) (o : Group) :
    { apply r o with map := [] } = applyRest { r with map := [] } o := by
  cases o with
  | flag f => cases f <;> rfl
  | shortVerbose | config _ | workDir _ | stageTimeout _ | map _ _ _ => rfl

theorem forget_foldl_apply (r : Request) (os : List Group) :
    { os.foldl apply r with map := [] } = os.foldl applyRest { r with map := [] } := by
  induction os generalizing r with
  | nil => rfl
  | cons o os ih => rw [List.foldl_cons, ih, forget_apply, List.foldl_cons]

theorem applyRest_comm {o o' : Group} (h : o.Apart o') (r : Request) :
    applyRest (applyRest r o) o' = applyRest (applyRest r o') o := by
  have hforget : ∀ o o' : Group,
      applyRest (applyRest r o) o' = { apply (apply r o) o' with map := [] } := fun o o' =>
    (forget_apply (apply r o) o').symm
  by_cases hsame : o.switch = o'.switch
  · have hmap : o'.isMap = true := by
      rw [isMap, ← hsame]
      exact h hsame
    rw [applyRest_of_isMap hmap, applyRest_of_isMap (h hsame), applyRest_of_isMap hmap,
      applyRest_of_isMap (h hsame)]
  · rw [hforget, hforget, apply_comm hsame]

/-- One more mapping changes nothing but the mappings. -/
theorem forget_foldl_of_perm {os : List Group} {again : Group} (hagain : again.isMap = true)
    (hperm : os.Perm (again :: groups)) (hapart : os.Pairwise Apart) (r : Request) :
    { os.foldl apply r with map := [] } = { groups.foldl apply r with map := [] } := by
  have hcomm : ∀ o ∈ os, ∀ o' ∈ os, ∀ r,
      applyRest (applyRest r o) o' = applyRest (applyRest r o') o := by
    intro o ho o' ho' r
    by_cases hsame : o = o'
    · rw [hsame]
    · exact applyRest_comm (hapart.forall ho ho' hsame) r
  rw [forget_foldl_apply, hperm.foldl_eq' hcomm, List.foldl_cons, applyRest_of_isMap hagain,
    forget_foldl_apply]

end Group

theorem requestOf_perm {os : List Group} (hperm : os.Perm groups)
    (hdistinct : (groups.map Group.switch).Nodup) :
    requestOf entryPoint program os = requestOf entryPoint program groups := by
  refine hperm.foldl_eq' (fun o ho o' ho' r => ?_) _
  by_cases hsame : o = o'
  · rw [hsame]
  · refine Group.apply_comm (fun hswitch => hsame ?_) r
    exact List.inj_on_of_nodup_map hdistinct (hperm.mem_iff.1 ho) (hperm.mem_iff.1 ho') hswitch

/-- What a command line of whole groups asks for. -/
theorem parse_arranged {items : List Item}
    (hpositional : items.filterMap Item.positional? = [entryPoint, program]) :
    ((items.filterMap Item.group?).Pairwise Group.Apart →
      parse (items.flatMap Item.words) =
        .ok (requestOf entryPoint program (items.filterMap Item.group?))) ∧
    (¬ (items.filterMap Item.group?).Pairwise Group.Apart →
      parse (items.flatMap Item.words) = .error .conflict) := by
  have hparse := parse_items items (by simp [hpositional])
  have hawaits : ({ } : Given).Awaits entryPoint program (items.filterMap Item.positional?) :=
    hpositional ▸ .both rfl rfl
  constructor
  · intro hapart
    obtain ⟨g, hfold, hlast, hview⟩ := Given.foldlM_take hawaits
      (fun o _ => by cases o.switch with | setting s => cases s <;> rfl | _ => rfl) hapart
    rw [hparse, hfold]
    exact hlast.request.trans (congrArg _ hview)
  · intro hapart
    rw [hparse, Given.foldlM_take_conflict hawaits (Or.inr hapart)]
    rfl

theorem requestOf_again {os : List Group} {again : Group} (hagain : again.isMap = true)
    (hperm : os.Perm (again :: groups)) (hapart : os.Pairwise Group.Apart) :
    requestOf entryPoint program os =
      { requestOf entryPoint program groups with map := os.flatMap Group.mapPaths } := by
  have hrest := Group.forget_foldl_of_perm hagain hperm hapart (plainRequest entryPoint program)
  have hmap := Group.map_foldl_apply (plainRequest entryPoint program) os
  calc
    requestOf entryPoint program os
        = { ({ requestOf entryPoint program os with map := [] } : Request) with
            map := (requestOf entryPoint program os).map } := rfl
    _ = { requestOf entryPoint program groups with map := os.flatMap Group.mapPaths } := by
          rw [requestOf, hrest, hmap]
          rfl

theorem apart_of_nodup (hdistinct : (groups.map Group.switch).Nodup) :
    groups.Pairwise Group.Apart :=
  (List.pairwise_map.1 hdistinct).imp fun hne hsame => absurd hsame hne

/-- With a second mapping the paths of both are there, in the order of the two groups. -/
theorem mapPaths_of_perm {os : List Group} {g again : Group}
    (hdistinct : (groups.map Group.switch).Nodup) (hg : g ∈ groups) (hmap : g.isMap = true)
    (hagain : again.isMap = true) (hperm : os.Perm (again :: groups)) :
    os.flatMap Group.mapPaths = g.mapPaths ++ again.mapPaths ∨
      os.flatMap Group.mapPaths = again.mapPaths ++ g.mapPaths := by
  have hflat : ∀ os : List Group,
      os.flatMap Group.mapPaths = (os.filter Group.isMap).flatMap Group.mapPaths := by
    intro os
    induction os with
    | nil => rfl
    | cons o os ih => cases ho : o.isMap <;> simp [ho, ih, Group.mapPaths]
  have hone : groups.filter Group.isMap = [g] := by
    have hsame : ∀ o ∈ groups, o.isMap = (o == g) := by
      intro o ho
      cases hmapo : o.isMap with
      | false => exact (beq_false_of_ne fun h => by simp [h, hmap] at hmapo).symm
      | true =>
          have hswitch : o.switch = g.switch :=
            (of_decide_eq_true hmapo).trans (of_decide_eq_true hmap).symm
          exact (beq_iff_eq.2 (List.inj_on_of_nodup_map hdistinct ho hg hswitch)).symm
    rw [List.filter_congr hsame, List.filter_beq, List.count_eq_one_of_mem hdistinct.of_map hg]
    rfl
  have hpair : (os.filter Group.isMap).Perm [again, g] := by
    have hfilter := hperm.filter Group.isMap
    rwa [List.filter_cons_of_pos hagain, hone] at hfilter
  rw [hflat]
  cases List.perm_pair.1 hpair with
  | inl horder => exact Or.inr (by simp [horder])
  | inr horder => exact Or.inl (by simp [horder])

/-- The order of a command line does not matter, as long as the entry point comes before
the program. An option that is given again is a conflict, except for a mapping: with two of
them no mapping is done. -/
theorem parse_in_any_order (entryPoint program : Value) (groups : List Group)
    (hdistinct : (groups.map Group.switch).Nodup) :
    (∀ args, Arranges entryPoint program groups args →
      parse args = .ok (requestOf entryPoint program groups)) ∧
    ∀ g ∈ groups, ∀ again : Group, again.switch = g.switch →
      ∀ args, Arranges entryPoint program (again :: groups) args →
        if g.isMap then
          ∃ both, (both = g.mapPaths ++ again.mapPaths ∨ both = again.mapPaths ++ g.mapPaths) ∧
            parse args = .ok { requestOf entryPoint program groups with map := both } ∧
            ({ requestOf entryPoint program groups with map := both } : Request).plan =
              { (requestOf entryPoint program groups).plan with map := none }
        else parse args = .error .conflict := by
  have hapart := apart_of_nodup hdistinct
  constructor
  · rintro _ ⟨items, hpositional, hperm, rfl⟩
    rw [(parse_arranged hpositional).1 (hperm.symm.pairwise hapart Group.Apart.symm),
      requestOf_perm hperm hdistinct]
  · rintro g hg again hsame _ ⟨items, hpositional, hperm, rfl⟩
    have hkind : again.isMap = g.isMap := by rw [Group.isMap, hsame, Group.isMap]
    split
    · next hmap =>
      have hapart' : (again :: groups).Pairwise Group.Apart :=
        List.pairwise_cons.2 ⟨fun _ _ _ => hkind.trans hmap, hapart⟩
      have hitems := hperm.symm.pairwise hapart' Group.Apart.symm
      refine ⟨_, mapPaths_of_perm hdistinct hg hmap (hkind.trans hmap) hperm, ?_, ?_⟩
      · rw [(parse_arranged hpositional).1 hitems, requestOf_again (hkind.trans hmap) hperm hitems]
      · refine congrArg (fun m => ({ (requestOf entryPoint program groups).plan with map := m } : Plan))
          (Request.mapRequest?_of_length ?_)
        rcases mapPaths_of_perm hdistinct hg hmap (hkind.trans hmap) hperm with hboth | hboth <;>
          simp [hboth, Group.length_mapPaths hmap, Group.length_mapPaths (hkind.trans hmap)]
    · next hmap =>
      refine (parse_arranged hpositional).2 fun hitems => hmap ?_
      have hall := hperm.pairwise hitems Group.Apart.symm
      exact hkind.symm.trans ((List.pairwise_cons.1 hall).1 g hg hsame)

/-- A mapping with three values, a numeral with a zero in front, and a flag in its short form. -/
def leakGroups : List Group :=
  [.flag .pql, .stageTimeout ⟨['0', '6', '0', '0'], by decide, by decide⟩, .shortVerbose,
    .map ⟨"r.tuples", by decide, by decide⟩ ⟨"name.map", by decide, by decide⟩
      ⟨"out.txt", by decide, by decide⟩]

def leakEntry : Value := ⟨"test.Main", by decide, by decide⟩

def leakProgram : Value := ⟨"leak.pql", by decide, by decide⟩

theorem parse_mapping_first :
    (leakGroups.map Group.switch).Nodup ∧
    parse ["--map", "r.tuples", "name.map", "out.txt", "test.Main", "-v", "--stage-timeout", "0600",
        "leak.pql", "--pql"] =
      .ok
        { entryPoint := "test.Main", program := ⟨"leak.pql"⟩, fast := false, pql := true,
          config := none, workDir := ⟨"results"⟩, noCleanup := false, strict := false,
          stageTimeout := some 600, map := [⟨"r.tuples"⟩, ⟨"name.map"⟩, ⟨"out.txt"⟩],
          verbose := true } ∧
    parse ["--verbose", "--map", "r.tuples", "name.map", "out.txt", "test.Main", "-v",
        "--stage-timeout", "0600", "leak.pql", "--pql"] = .error .conflict := by
  have hdistinct : (leakGroups.map Group.switch).Nodup := by decide
  have hboth := parse_in_any_order leakEntry leakProgram leakGroups hdistinct
  refine ⟨hdistinct, hboth.1 _ ⟨[.option leakGroups[3], .positional leakEntry,
    .option leakGroups[2], .option leakGroups[1], .positional leakProgram, .option leakGroups[0]],
    rfl, by decide, rfl⟩, ?_⟩
  exact hboth.2 .shortVerbose (by decide) (.flag .verbose) rfl _ ⟨[.option (.flag .verbose),
    .option leakGroups[3], .positional leakEntry, .option leakGroups[2], .option leakGroups[1],
    .positional leakProgram, .option leakGroups[0]], rfl, by decide, rfl⟩

/-- Two mappings are no conflict, and neither is done. -/
theorem parse_two_mappings :
    ¬ ∀ g ∈ leakGroups, ∀ args, Arranges leakEntry leakProgram (g :: leakGroups) args →
      parse args = .error .conflict := by
  intro h
  have hconflict := h leakGroups[3] (by decide) _ ⟨[.option leakGroups[3], .option leakGroups[3],
    .positional leakEntry, .option leakGroups[2], .option leakGroups[1], .positional leakProgram,
    .option leakGroups[0]], rfl, by decide, rfl⟩
  cases hconflict

end Arrangement

end Arguments
end PointsTo
