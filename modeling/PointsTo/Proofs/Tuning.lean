import PointsTo.Proofs.Decimal
import PointsTo.Proofs.Preflight
import PointsTo.Proofs.Yaml
import PointsTo.Tuning.Reader

/-!
Tuning files of lines, each with a key and a value, and the command line of the solver
that follows from them. Every known key may be left out or given once, in any order and
with unknown keys in between.
-/

namespace PointsTo
namespace Tuning

inductive TextKey where
  | maxHeap
  | numberingType
deriving DecidableEq

inductive SizeKey where
  | bddCache
  | bddNodes
deriving DecidableEq

inductive FlagKey where
  | learnBestOrder
  | singleIgnore
  | clinit
  | filterNull
  | unknownTypes
deriving DecidableEq

inductive Key where
  | text (k : TextKey)
  | size (k : SizeKey)
  | flag (k : FlagKey)
deriving DecidableEq

inductive Value where
  | text (s : String)
  | size (n : Nat)
  | flag (b : Bool)
deriving DecidableEq

namespace Key

def name : Key → String
  | text .maxHeap => "max_heap"
  | text .numberingType => "numbering_type"
  | size .bddCache => "bdd_cache"
  | size .bddNodes => "bdd_nodes"
  | flag .learnBestOrder => "learn_best_order"
  | flag .singleIgnore => "single_ignore"
  | flag .clinit => "clinit"
  | flag .filterNull => "filter_null"
  | flag .unknownTypes => "unknown_types"

theorem name_injective {k k' : Key} (h : k.name = k'.name) : k = k' := by
  rcases k with ⟨⟨⟩⟩ | ⟨⟨⟩⟩ | ⟨⟨⟩⟩ <;> rcases k' with ⟨⟨⟩⟩ | ⟨⟨⟩⟩ | ⟨⟨⟩⟩ <;>
    first | rfl | exact absurd h (by decide)

end Key

def get (t : Tuning) : Key → Value
  | .text .maxHeap => .text t.maxHeap
  | .text .numberingType => .text t.numberingType
  | .size .bddCache => .size t.bddCache.toNat
  | .size .bddNodes => .size t.bddNodes.toNat
  | .flag .learnBestOrder => .flag t.learnBestOrder
  | .flag .singleIgnore => .flag t.singleIgnore
  | .flag .clinit => .flag t.clinit
  | .flag .filterNull => .flag t.filterNull
  | .flag .unknownTypes => .flag t.unknownTypes

def Key.read? : Key → Yaml.Node → Option Value
  | .text _, n => (textOf? n).map .text
  | .size _, n => (wordOf? n).map fun v => .size v.toNat
  | .flag _, n => (flagOf? n).map .flag

theorem set?_name (t : Tuning) (k : Key) (n : Yaml.Node) :
    ∃ changed, t.set? k.name n = some changed ∧ changed.map (·.get k) = k.read? n ∧
      ∀ t', changed = some t' → ∀ k' ≠ k, t'.get k' = t.get k' := by
  rcases k with ⟨⟨⟩⟩ | ⟨⟨⟩⟩ | ⟨⟨⟩⟩
  all_goals
    refine ⟨_, rfl, by simp [Key.read?, get, Function.comp_def], ?_⟩
    intro t' h k' hne
    obtain ⟨v, -, rfl⟩ := Option.map_eq_some_iff.1 h
    rcases k' with ⟨⟨⟩⟩ | ⟨⟨⟩⟩ | ⟨⟨⟩⟩ <;> first | rfl | exact absurd rfl hne

theorem set?_unknown (t : Tuning) {name : String} (h : ∀ k : Key, k.name ≠ name) (n : Yaml.Node) :
    t.set? name n = none := by
  unfold set?
  split
  · exact absurd rfl (h (.text .maxHeap))
  · exact absurd rfl (h (.size .bddCache))
  · exact absurd rfl (h (.size .bddNodes))
  · exact absurd rfl (h (.text .numberingType))
  · exact absurd rfl (h (.flag .learnBestOrder))
  · exact absurd rfl (h (.flag .singleIgnore))
  · exact absurd rfl (h (.flag .clinit))
  · exact absurd rfl (h (.flag .filterNull))
  · exact absurd rfl (h (.flag .unknownTypes))
  · rfl

inductive Entry where
  | text (k : TextKey) (w : Yaml.Word)
  | size (k : SizeKey) (n : Nat)
  | flag (k : FlagKey) (b : Bool)
  | other (name value : Yaml.Word) (unknown : ∀ k : Key, k.name ≠ name.text)
      (fits : name.chars.length ≤ Yaml.Scanner.keyLimit)

namespace Key

def word (k : Key) : Yaml.Word :=
  .ofText k.name (by rcases k with ⟨⟨⟩⟩ | ⟨⟨⟩⟩ | ⟨⟨⟩⟩ <;> decide)

theorem text_word (k : Key) : k.word.text = k.name := by
  rw [word, Yaml.Word.text_ofText]

theorem word_fits (k : Key) : k.word.chars.length ≤ Yaml.Scanner.keyLimit := by
  rcases k with ⟨⟨⟩⟩ | ⟨⟨⟩⟩ | ⟨⟨⟩⟩ <;> decide

end Key

namespace Entry

def setting : Entry → Option (Key × Value)
  | text k w => some (.text k, .text w.text)
  | size k n => some (.size k, .size n)
  | flag k b => some (.flag k, .flag b)
  | other .. => none

/-- Only a size can be too large. -/
def Fits : Entry → Prop
  | size _ n => n < UInt64.size
  | _ => True

theorem isOrdinary_of_isDigit {c : Char} (h : c.isDigit = true) : Yaml.isOrdinary c = true := by
  simp [Yaml.isOrdinary, Char.isAlphanum, h]

def line : Entry → Yaml.Line
  | text k w => ⟨(Key.text k).word, w, (Key.text k).word_fits⟩
  | size k n =>
    ⟨(Key.size k).word, ⟨Decimal.digits n, Decimal.digits_ne_nil n, fun _ hc =>
      isOrdinary_of_isDigit (Decimal.isDigit_of_mem_digits hc)⟩, (Key.size k).word_fits⟩
  | flag k true => ⟨(Key.flag k).word, .ofText "true" (by decide), (Key.flag k).word_fits⟩
  | flag k false => ⟨(Key.flag k).word, .ofText "false" (by decide), (Key.flag k).word_fits⟩
  | other name value _ fits => ⟨name, value, fits⟩

variable {e : Entry} {k : Key} {v : Value}

theorem key_of_setting (h : e.setting = some (k, v)) : e.line.key.text = k.name := by
  rcases e with _ | _ | ⟨_, _ | _⟩ | _ <;> cases h <;> exact Key.text_word _

theorem unknown_of_setting (h : e.setting = none) (k : Key) : k.name ≠ e.line.key.text := by
  rcases e with _ | _ | ⟨_, _ | _⟩ | ⟨name, value, unknown, fits⟩ <;> cases h
  exact unknown k

end Entry

theorem word?_digits (n : Nat) : word? (Decimal.digits n) = Decimal.toWord? n := by
  by_cases hn : n = 0
  · subst hn
    rfl
  · have hplus := Decimal.head?_ne_of_isNumeral (c := '+') (Decimal.isNumeral_digits n) (by decide)
    have hzero := Decimal.head?_digits_ne_zero hn
    have hread : Decimal.read? (Decimal.digits n) = some n := by
      rw [Decimal.read?, if_pos (Decimal.isNumeral_digits n), Decimal.value_digits]
    obtain ⟨c, cs, hcs⟩ := List.exists_cons_of_ne_nil (Decimal.digits_ne_nil n)
    rw [hcs] at hread hplus hzero ⊢
    simp only [List.head?_cons, ne_eq, Option.some.injEq] at hplus hzero
    simp [word?, hplus, hzero, hread]

namespace Entry

variable {e : Entry} {k : Key} {v v' : Value}

theorem read?_eq_some_iff (h : e.setting = some (k, v)) :
    k.read? e.line.pair.2 = some v' ↔ e.Fits ∧ v' = v := by
  cases e with
  | text key w =>
      cases h
      simp [Key.read?, line, Yaml.Line.pair, textOf?, Fits, eq_comm]
  | size key n =>
      cases h
      simp [Key.read?, line, Yaml.Line.pair, wordOf?, isReadable, Yaml.Word.text, word?_digits, Fits,
        Decimal.toWord?]
      exact fun _ => eq_comm
  | flag key b =>
      cases h
      cases b
      all_goals simp [Key.read?, line, Yaml.Line.pair, flagOf?, isReadable, flag?, Fits, eq_comm]
  | other => cases h

end Entry

section SetAll

variable {e : Entry} {k : Key} {v : Value} {seen : List Key} {t t' : Tuning}
  {pairs : List (Yaml.Node × Yaml.Node)}

theorem setAll_other (h : e.setting = none) (seen : List String) :
    setAll (e.line.pair :: pairs) seen t = setAll pairs seen t := by
  simp [setAll, Yaml.Line.pair, textOf?, set?_unknown t (Entry.unknown_of_setting h)]

theorem contains_name (k : Key) : (seen.map Key.name).contains k.name = true ↔ k ∈ seen := by
  simpa using ⟨fun ⟨k', hk', hname⟩ => Key.name_injective hname ▸ hk', fun hk => ⟨k, hk, rfl⟩⟩

theorem setAll_known {changed : Option Tuning} (h : e.setting = some (k, v))
    (hset : t.set? k.name e.line.pair.2 = some changed) :
    setAll (e.line.pair :: pairs) (seen.map Key.name) t =
      if (seen.map Key.name).contains k.name then .error (.repeated k.name)
      else match changed with
        | some t => setAll pairs ((k :: seen).map Key.name) t
        | none => .error (.badValue k.name) := by
  have htext : textOf? e.line.pair.1 = some k.name := congrArg some (Entry.key_of_setting h)
  rw [setAll, htext]
  simp only [hset]
  cases changed <;> rfl

/-- A known key has to be new, and its value one that it can have. -/
theorem new_of_setAll (h : e.setting = some (k, v))
    (hok : setAll (e.line.pair :: pairs) (seen.map Key.name) t = .ok t') : k ∉ seen ∧ e.Fits := by
  obtain ⟨changed, hset, hread, -⟩ := set?_name t k e.line.pair.2
  rw [setAll_known h hset] at hok
  split at hok
  next => cases hok
  next hnew =>
    refine ⟨fun hk => hnew ((contains_name k).2 hk), ?_⟩
    cases changed with
    | none => cases hok
    | some t₁ => exact ((Entry.read?_eq_some_iff h).1 hread.symm).1

/-- Such a key is set, and nothing else changes. -/
theorem exists_setAll_eq (h : e.setting = some (k, v)) (hnew : k ∉ seen) (hfits : e.Fits) :
    ∃ t₁ : Tuning, t₁.get k = v ∧ (∀ k' ≠ k, t₁.get k' = t.get k') ∧
      setAll (e.line.pair :: pairs) (seen.map Key.name) t =
        setAll pairs ((k :: seen).map Key.name) t₁ := by
  obtain ⟨changed, hset, hread, hframe⟩ := set?_name t k e.line.pair.2
  rw [(Entry.read?_eq_some_iff h).2 ⟨hfits, rfl⟩, Option.map_eq_some_iff] at hread
  obtain ⟨t₁, rfl, hget⟩ := hread
  refine ⟨t₁, hget, hframe t₁ rfl, ?_⟩
  rw [setAll_known h hset, if_neg fun hk => hnew ((contains_name k).1 hk)]

end SetAll

/-- A tuning that has what is given, and what another one has for the rest. -/
def Follows (t : Tuning) (given : List (Key × Value)) (base : Tuning) : Prop :=
  (∀ k v, (k, v) ∈ given → t.get k = v) ∧ ∀ k, k ∉ given.map Prod.fst → t.get k = base.get k

/-- The keys that are given are new, all different, and have values that they can have. -/
def Acceptable (seen : List Key) (es : List Entry) : Prop :=
  ((es.filterMap Entry.setting).map Prod.fst).Nodup ∧
    (∀ k ∈ (es.filterMap Entry.setting).map Prod.fst, k ∉ seen) ∧ ∀ e ∈ es, e.Fits

section Run

variable {e : Entry} {es : List Entry} {k : Key} {v : Value} {seen : List Key} {t t₁ t' : Tuning}

theorem Follows.cons {given : List (Key × Value)} (h : t'.Follows given t₁) (hk : t₁.get k = v)
    (hframe : ∀ k' ≠ k, t₁.get k' = t.get k') (hnew : k ∉ given.map Prod.fst) :
    t'.Follows ((k, v) :: given) t := by
  constructor
  · intro k' v' hmem
    rcases List.mem_cons.1 hmem with heq | hmem
    · cases heq
      exact (h.2 k hnew).trans hk
    · exact h.1 k' v' hmem
  · intro k' hk'
    rw [List.map_cons, List.mem_cons, not_or] at hk'
    exact (h.2 k' hk'.2).trans (hframe k' hk'.1)

theorem acceptable_other (h : e.setting = none) :
    Acceptable seen (e :: es) ↔ Acceptable seen es := by
  have hfits : e.Fits := by
    rcases e with _ | _ | _ | _ <;> cases h
    trivial
  simp [Acceptable, List.filterMap_cons_none h, hfits]

theorem acceptable_known (h : e.setting = some (k, v)) :
    Acceptable seen (e :: es) ↔ (k ∉ seen ∧ e.Fits) ∧ Acceptable (k :: seen) es := by
  simp only [Acceptable, List.filterMap_cons_some h, List.map_cons, List.nodup_cons,
    List.forall_mem_cons]
  simp only [List.mem_cons, not_or]
  constructor
  · rintro ⟨⟨hk, hnodup⟩, ⟨hnew, hseen⟩, hfits, hall⟩
    exact ⟨⟨hnew, hfits⟩, hnodup, fun k' hk' => ⟨fun heq => hk (heq ▸ hk'), hseen k' hk'⟩, hall⟩
  · rintro ⟨⟨hnew, hfits⟩, hnodup, hseen, hall⟩
    exact ⟨⟨fun hk => (hseen k hk).1 rfl, hnodup⟩, ⟨hnew, fun k' hk' => (hseen k' hk').2⟩, hfits, hall⟩

theorem acceptable_of_setAll
    (hok : setAll (es.map fun e => e.line.pair) (seen.map Key.name) t = .ok t') :
    Acceptable seen es ∧ t'.Follows (es.filterMap Entry.setting) t := by
  induction es generalizing seen t with
  | nil =>
      cases hok
      simp [Acceptable, Follows]
  | cons e es ih =>
      rw [List.map_cons] at hok
      cases h : e.setting with
      | none =>
          rw [setAll_other h] at hok
          rw [acceptable_other h, List.filterMap_cons_none h]
          exact ih hok
      | some kv =>
          obtain ⟨k, v⟩ := kv
          have hnew := new_of_setAll h hok
          obtain ⟨t₁, hk, hframe, heq⟩ := exists_setAll_eq (t := t) h hnew.1 hnew.2
          rw [heq] at hok
          obtain ⟨hrest, hfollows⟩ := ih hok
          rw [acceptable_known h, List.filterMap_cons_some h]
          exact ⟨⟨hnew, hrest⟩, hfollows.cons hk hframe fun hmem => hrest.2.1 k hmem List.mem_cons_self⟩

theorem exists_setAll (h : Acceptable seen es) (t : Tuning) :
    ∃ t', setAll (es.map fun e => e.line.pair) (seen.map Key.name) t = .ok t' := by
  induction es generalizing seen t with
  | nil => exact ⟨t, rfl⟩
  | cons e es ih =>
      rw [List.map_cons]
      cases hsetting : e.setting with
      | none =>
          rw [setAll_other hsetting]
          exact ih ((acceptable_other hsetting).1 h) t
      | some kv =>
          obtain ⟨k, v⟩ := kv
          obtain ⟨hnew, hrest⟩ := (acceptable_known hsetting).1 h
          obtain ⟨t₁, -, -, heq⟩ := exists_setAll_eq (t := t) hsetting hnew.1 hnew.2
          rw [heq]
          exact ih hrest t₁

end Run

/-- A text of lines is read line by line. -/
theorem ofYaml_lines (final : Bool) (es : List Entry) :
    ofYaml (String.ofList (Yaml.linesText final (es.map Entry.line))) =
      setAll (es.map fun e => e.line.pair) [] { } := by
  rw [ofYaml, Yaml.parse_linesText]
  cases es with
  | nil => rfl
  | cons e es => simp [Yaml.linesNode, mapError_ok, Bind.bind, Except.bind, ofNode, Function.comp_def]

end Tuning

namespace Setup

open Command

variable {s : Setup} {c : Command} {label : String} {program : Path}

theorem args_solverCommand (h : s.solverCommand label program = .ok c) :
    ∃ classPath, c.args = ["-cp", classPath, "-mx" ++ s.config.tuning.maxHeap,
      "-Dbasedir=" ++ dirText s.workDir,
      "-Dlearnbestorder=" ++ Tuning.yesNo s.config.tuning.learnBestOrder,
      "-Dsingleignore=" ++ Tuning.yesNo s.config.tuning.singleIgnore,
      "-Dbddcache=" ++ Decimal.text s.config.tuning.bddCache.toNat,
      "-Dbddnodes=" ++ Decimal.text s.config.tuning.bddNodes.toNat,
      "-Dnumberingtype=" ++ s.config.tuning.numberingType,
      "-Dpa.clinit=" ++ Tuning.yesNo s.config.tuning.clinit,
      "-Dpa.filternull=" ++ Tuning.yesNo s.config.tuning.filterNull,
      "-Dpa.unknowntypes=" ++ Tuning.yesNo s.config.tuning.unknownTypes,
      "net.sf.bddbddb.Solver", program.text] := by
  obtain ⟨c', hc, h⟩ := bind_eq_ok_iff.1 h
  cases h
  unfold Command.classPath at hc
  split at hc
  next text _ =>
    cases hc
    refine ⟨text, ?_⟩
    simp [Tuning.solverProperties, engineCommand, new, arg, property, dirProperty]
  next => cases hc

theorem exists_solverCommand_iff : (∃ c, s.solverCommand label program = .ok c) ↔ s.Sound :=
  ⟨fun ⟨_, h⟩ => sound_of_solverCommand h, fun h => exists_solverCommand h label program⟩

end Setup

namespace Tuning

/-- A file of lines is a tuning exactly if no known key is given twice and no size is too
large. It has the values that are given and the defaults for the rest, and the solver is
called with these values, each in its place. -/
theorem lines_reach_the_solver (final : Bool) (es : List Entry) :
    let text := String.ofList (Yaml.linesText final (es.map Entry.line))
    let given := es.filterMap Entry.setting
    ((∃ t, ofYaml text = .ok t) ↔ (given.map Prod.fst).Nodup ∧ ∀ e ∈ es, e.Fits) ∧
    ∀ t, ofYaml text = .ok t →
      (∀ k v, (k, v) ∈ given → t.get k = v) ∧
      (∀ k, k ∉ given.map Prod.fst → t.get k = ({ } : Tuning).get k) ∧
      ∀ (s : Setup) (label : String) (program : Path), s.config.tuning = t →
        ((∃ c, s.solverCommand label program = .ok c) ↔ s.Sound) ∧
        ∀ c, s.solverCommand label program = .ok c → ∃ classPath cache nodes,
          c.args = ["-cp", classPath, "-mx" ++ t.maxHeap, "-Dbasedir=" ++ Command.dirText s.workDir,
            "-Dlearnbestorder=" ++ yesNo t.learnBestOrder, "-Dsingleignore=" ++ yesNo t.singleIgnore,
            "-Dbddcache=" ++ cache, "-Dbddnodes=" ++ nodes, "-Dnumberingtype=" ++ t.numberingType,
            "-Dpa.clinit=" ++ yesNo t.clinit, "-Dpa.filternull=" ++ yesNo t.filterNull,
            "-Dpa.unknowntypes=" ++ yesNo t.unknownTypes, "net.sf.bddbddb.Solver", program.text] ∧
          Decimal.readWord? cache.toList = some t.bddCache ∧
          Decimal.readWord? nodes.toList = some t.bddNodes := by
  intro text given
  have hacceptable : Acceptable [] es ↔ (given.map Prod.fst).Nodup ∧ ∀ e ∈ es, e.Fits := by
    simp [Acceptable, given]
  have hread : ofYaml text = setAll (es.map fun e => e.line.pair) ([].map Key.name) { } :=
    ofYaml_lines final es
  rw [hread, ← hacceptable]
  refine ⟨⟨fun ⟨t, ht⟩ => (acceptable_of_setAll ht).1, fun h => exists_setAll h _⟩, ?_⟩
  intro t ht
  obtain ⟨hgiven, hdefault⟩ := (acceptable_of_setAll ht).2
  refine ⟨hgiven, hdefault, fun s label program hs => ⟨Setup.exists_solverCommand_iff, ?_⟩⟩
  intro c hc
  obtain ⟨classPath, hargs⟩ := Setup.args_solverCommand hc
  subst hs
  refine ⟨classPath, _, _, hargs, ?_, ?_⟩
  all_goals
    rw [Decimal.text, String.toList_ofList]
    exact Decimal.readWord?_digits _

/-- A heap that looks like nothing, a key that is not known and the largest size. -/
theorem largest_size_reaches_the_tuning :
    ∃ t, ofYaml "max_heap: null\nspare: 7\nbdd_nodes: 18446744073709551615\n" = .ok t ∧
      t.get (.text .maxHeap) = .text "null" ∧ t.get (.size .bddCache) = .size 1500000 ∧
      t.get (.size .bddNodes) = .size 18446744073709551615 := by
  let es : List Entry := [.text .maxHeap (.ofText "null" (by decide)),
    .other (.ofText "spare" (by decide)) (.ofText "7" (by decide))
      (by rintro (⟨⟨⟩⟩ | ⟨⟨⟩⟩ | ⟨⟨⟩⟩) <;> decide) (by decide),
    .size .bddNodes 18446744073709551615]
  have htext : String.ofList (Yaml.linesText true (es.map Entry.line)) =
      "max_heap: null\nspare: 7\nbdd_nodes: 18446744073709551615\n" := by
    decide +kernel
  have hfits : ∀ e ∈ es, e.Fits := by
    simp [es, Entry.Fits, UInt64.size]
  obtain ⟨hok, hvalues⟩ := lines_reach_the_solver true es
  obtain ⟨t, ht⟩ := hok.2 ⟨by decide, hfits⟩
  obtain ⟨hgiven, hdefault, -⟩ := hvalues t ht
  rw [htext] at ht
  exact ⟨t, ht, hgiven _ _ (by decide), hdefault _ (by decide), hgiven _ _ (by decide)⟩

theorem name_ne_of_long {name : Yaml.Word} (hlong : Yaml.Scanner.keyLimit < name.chars.length)
    (k : Key) : k.name ≠ name.text := by
  intro h
  have hchars : k.word.chars = name.chars := String.ofList_injective (k.text_word.trans h)
  have hfits := k.word_fits
  rw [hchars] at hfits
  omega

/-- A file of one line whose key is a letter too long. -/
theorem longName_is_refused :
    ∃ name : Yaml.Word, (∀ c ∈ name.chars, c.isAlpha = true) ∧ (∀ k : Key, k.name ≠ name.text) ∧
      ofYaml (String.ofList (name.chars ++ [':', ' ', 'x', '\n'])) = .error (.yaml .valuePlace) := by
  have hletter : ∀ c ∈ List.replicate 1025 'a', c = 'a' := fun _ => List.eq_of_mem_replicate
  have hlength : (List.replicate 1025 'a').length = 1025 := List.length_replicate
  let name : Yaml.Word := ⟨List.replicate 1025 'a', List.cons_ne_nil 'a' (List.replicate 1024 'a'),
    fun c hc => by rw [hletter c hc]; decide⟩
  have hlong : Yaml.Scanner.keyLimit < name.chars.length := by
    rw [hlength]
    decide
  refine ⟨name, fun c hc => by rw [hletter c hc]; decide, name_ne_of_long hlong, ?_⟩
  rw [ofYaml, Yaml.parse_longKey ['x', '\n'] hlong (by decide)]
  rfl

end Tuning
end PointsTo
