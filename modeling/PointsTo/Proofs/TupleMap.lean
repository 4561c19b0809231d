import Mathlib.Algebra.Group.Nat.Defs
import Mathlib.Data.List.Forall2
import PointsTo.Proofs.Decimal
import PointsTo.Proofs.Disk.Files
import PointsTo.Proofs.Lines
import PointsTo.Proofs.Text
import PointsTo.TupleMap

/-!
Indices turned back into names. What a line of a tuple file says is told without the
functions that read it, and the file that is written is told from what the lines say.
-/

namespace PointsTo

namespace TupleMap

open Text Decimal

/-- What a line of a tuple file says. -/
inductive Reads (line : List Char) : Line → Prop where
  | blank : Trims line [] → Reads line .ignored
  | comment : line.head? = some '#' → Reads line .ignored
  | index {sign digits : List Char} : Trims line (sign ++ digits) → sign = [] ∨ sign = ['+'] →
      isNumeral digits = true → value digits < 2 ^ 64 → Reads line (.index (value digits))
  | oversized {digits : List Char} : Trims line digits → isNumeral digits = true →
      2 ^ 64 ≤ value digits → Reads line .oversized
  | malformed : ¬ Trims line [] → line.head? ≠ some '#' →
      (∀ digits, isNumeral digits = true → ¬ Trims line digits) →
      (∀ digits, isNumeral digits = true → Trims line ('+' :: digits) → 2 ^ 64 ≤ value digits) →
      Reads line .malformed

section Line

variable {line : List Char} {said : Line}

/-- A line that starts with the comment mark does not trim to anything else. -/
theorem head?_of_trims {entry : List Char} (h : Trims line entry) (hline : line.head? = some '#') :
    entry.head? = some '#' := by
  obtain ⟨lead, tail, rfl, hlead, htail⟩ := h.around
  cases lead with
  | cons c lead =>
      cases hline
      exact absurd (hlead '#' List.mem_cons_self) (by decide)
  | nil =>
      cases entry with
      | nil =>
          have hmem : '#' ∈ tail := List.mem_of_mem_head? hline
          exact absurd (htail '#' hmem) (by decide)
      | cons c entry => exact hline

theorem toNat_lt_of_word {digits : List Char} {n : UInt64}
    (h : (read? digits).bind toWord? = some n) : value digits < 2 ^ 64 := by
  rw [(word_eq_some_iff.1 h).2]
  exact n.toNat_lt

theorem classify_of_word {n : UInt64} (hne : trim line ≠ []) (hmark : line.head? ≠ some '#')
    (h : readWord? (trim line) = some n) : classify line = .index n.toNat := by
  simp [classify, commentMark, hne, hmark, h]

theorem classify_of_no_word (hne : trim line ≠ []) (hmark : line.head? ≠ some '#')
    (h : readWord? (trim line) = none) :
    classify line = if isNumeral (trim line) then .oversized else .malformed := by
  simp [classify, commentMark, hne, hmark, h]

/-- A numeral, with a sign or without, is neither nothing nor a comment. -/
theorem not_ignored_of_trims {sign digits : List Char} (h : Trims line (sign ++ digits))
    (hsign : sign = [] ∨ sign = ['+']) (hdigits : isNumeral digits = true) :
    trim line ≠ [] ∧ line.head? ≠ some '#' := by
  constructor
  · rw [trims_iff.1 h]
    exact fun hnil => (isNumeral_iff.1 hdigits).1 (List.append_eq_nil_iff.1 hnil).2
  · intro hline
    have hhead := head?_of_trims h hline
    rcases hsign with rfl | rfl
    · exact head?_ne_of_isNumeral hdigits (by decide) hhead
    · cases hhead

/-- Every line is read as what it says. -/
theorem Reads.eq_classify (h : Reads line said) : classify line = said := by
  cases h with
  | blank htrims => simp [classify, trims_iff.1 htrims]
  | comment hline => simp [classify, commentMark, hline]
  | @index sign digits htrims hsign hdigits hvalue =>
      obtain ⟨hne, hmark⟩ := not_ignored_of_trims htrims hsign hdigits
      have hword : (read? digits).bind toWord? = some (UInt64.ofNatLT (value digits) hvalue) :=
        word_eq_some_iff.2 ⟨hdigits, UInt64.toNat_ofNatLT.symm⟩
      have hread : readWord? (trim line) = some (UInt64.ofNatLT (value digits) hvalue) := by
        rw [trims_iff.1 htrims]
        rcases hsign with rfl | rfl
        · rw [List.nil_append, readWord?_of_head (head?_ne_of_isNumeral hdigits (by decide)), hword]
        · exact hword
      rw [classify_of_word hne hmark hread, UInt64.toNat_ofNatLT]
  | @oversized digits htrims hdigits hvalue =>
      obtain ⟨hne, hmark⟩ := not_ignored_of_trims htrims (Or.inl rfl : [] = [] ∨ _) hdigits
      have hread : readWord? (trim line) = none := by
        rw [trims_iff.1 htrims, readWord?_of_head (head?_ne_of_isNumeral hdigits (by decide))]
        refine Option.eq_none_iff_forall_ne_some.2 fun n hn => ?_
        have hlt := toNat_lt_of_word hn
        omega
      rw [classify_of_no_word hne hmark hread, trims_iff.1 htrims, if_pos hdigits]
  | malformed hblank hmark hplain hplus =>
      have hentry : Trims line (trim line) := trims_iff.2 rfl
      have hnumeral : isNumeral (trim line) ≠ true := fun hn => hplain _ hn hentry
      have hread : readWord? (trim line) = none := by
        refine Option.eq_none_iff_forall_ne_some.2 fun n hn => ?_
        by_cases hhead : (trim line).head? = some '+'
        · obtain ⟨digits, hdigits⟩ := List.head?_eq_some_iff.1 hhead
          rw [hdigits] at hn hentry
          have hle := hplus digits (word_eq_some_iff.1 hn).1 hentry
          have hlt := toNat_lt_of_word hn
          omega
        · rw [readWord?_of_head hhead] at hn
          exact hnumeral (word_eq_some_iff.1 hn).1
      rw [classify_of_no_word (fun hnil => hblank (trims_iff.2 hnil)) hmark hread, if_neg hnumeral]

theorem reads_total (line : List Char) : ∃ said, Reads line said := by
  by_cases hblank : Trims line []
  · exact ⟨_, .blank hblank⟩
  by_cases hmark : line.head? = some '#'
  · exact ⟨_, .comment hmark⟩
  by_cases hplain : ∃ digits, isNumeral digits = true ∧ Trims line digits
  · obtain ⟨digits, hdigits, htrims⟩ := hplain
    by_cases hvalue : value digits < 2 ^ 64
    · exact ⟨_, @Reads.index line [] digits htrims (Or.inl rfl) hdigits hvalue⟩
    · exact ⟨_, .oversized htrims hdigits (by omega)⟩
  by_cases hplus : ∃ digits, isNumeral digits = true ∧ Trims line ('+' :: digits) ∧
      value digits < 2 ^ 64
  · obtain ⟨digits, hdigits, htrims, hvalue⟩ := hplus
    exact ⟨_, @Reads.index line ['+'] digits htrims (Or.inr rfl) hdigits hvalue⟩
  refine ⟨_, .malformed hblank hmark (fun digits hdigits htrims => hplain ⟨digits, hdigits, htrims⟩)
    fun digits hdigits htrims => ?_⟩
  by_contra hvalue
  exact hplus ⟨digits, hdigits, htrims, by omega⟩

theorem reads_iff : Reads line said ↔ classify line = said := by
  constructor
  · exact fun h => h.eq_classify
  · rintro rfl
    obtain ⟨said, h⟩ := reads_total line
    rwa [h.eq_classify]

theorem forall₂_reads_iff {lines : List (List Char)} {said : List Line} :
    List.Forall₂ Reads lines said ↔ said = lines.map classify := by
  constructor
  · intro h
    induction h with
    | nil => rfl
    | cons hline _ ih => rw [List.map_cons, hline.eq_classify, ← ih]
  · rintro rfl
    induction lines with
    | nil => exact .nil
    | cons line lines ih => exact .cons (reads_iff.2 rfl) ih

end Line

def Line.name? (names : List (List Char)) : Line → Option (List Char)
  | .index i => names[i]?
  | _ => none

def Line.isPastEnd (names : List (List Char)) : Line → Bool
  | .index i => names.length ≤ i
  | .oversized => true
  | _ => false

section Mapping

variable {tuples : Path} {names : List (List Char)} {m : Mapped}

/-- One line adds its name or counts. -/
theorem mapLine_ok {line : List Char × Nat} (h : classify line.1 ≠ .malformed) :
    mapLine tuples names.toArray m line =
      .ok ⟨((classify line.1).name? names).toList ++ m.found,
        m.skipped + if (classify line.1).isPastEnd names then 1 else 0⟩ := by
  unfold mapLine
  cases hline : classify line.1 with
  | ignored => rfl
  | oversized => rfl
  | malformed => exact absurd hline h
  | index i =>
      by_cases hi : i < names.length
      · simp [Line.name?, Line.isPastEnd, hi]
      · simp [Line.name?, Line.isPastEnd, Nat.not_lt.1 hi]

theorem foldlM_mapLine {lines : List (List Char × Nat)}
    (h : ∀ line ∈ lines, classify line.1 ≠ .malformed) :
    lines.foldlM (mapLine tuples names.toArray) m =
      .ok ⟨(lines.filterMap fun line => (classify line.1).name? names).reverse ++ m.found,
        m.skipped + lines.countP fun line => (classify line.1).isPastEnd names⟩ := by
  induction lines generalizing m with
  | nil => rfl
  | cons line lines ih =>
      rw [List.forall_mem_cons] at h
      rw [List.foldlM_cons, mapLine_ok h.1]
      refine (ih h.2).trans ?_
      rw [List.filterMap_cons, List.countP_cons]
      cases (classify line.1).name? names with
      | none => simp; omega
      | some name => simp; omega

/-- The first line that cannot be read ends the mapping. -/
theorem foldlM_mapLine_error {before after : List (List Char × Nat)} {line : List Char × Nat}
    (h : ∀ line ∈ before, classify line.1 ≠ .malformed) (hline : classify line.1 = .malformed) :
    (before ++ line :: after).foldlM (mapLine tuples names.toArray) m =
      .error (.tuple tuples line.2 (String.ofList line.1)) := by
  rw [List.foldlM_append, foldlM_mapLine h]
  change (mapLine tuples names.toArray _ line >>= _) = _
  rw [mapLine, hline]
  rfl

def nameList (namesText : String) : List (List Char) :=
  (lines namesText.toList).map trim

def saidBy (tuplesText : String) : List Line :=
  (lines tuplesText.toList).map classify

theorem mapText_ok {namesText tuplesText : String} (h : .malformed ∉ saidBy tuplesText) :
    mapText tuples namesText tuplesText =
      .ok ⟨((saidBy tuplesText).filterMap (·.name? (nameList namesText))).reverse,
        (saidBy tuplesText).countP (·.isPastEnd (nameList namesText))⟩ := by
  have hlines : saidBy tuplesText =
      ((lines tuplesText.toList).zipIdx 1).map fun line => classify line.1 := by
    have hfst := congrArg (List.map classify) (List.zipIdx_map_fst 1 (lines tuplesText.toList))
    rw [List.map_map] at hfst
    exact hfst.symm
  have hall : ∀ line ∈ (lines tuplesText.toList).zipIdx 1, classify line.1 ≠ .malformed :=
    fun line hline hm => h (hlines ▸ hm ▸ List.mem_map_of_mem hline)
  refine (foldlM_mapLine hall).trans ?_
  rw [hlines, List.filterMap_map, List.countP_map, List.append_nil, Nat.zero_add]
  rfl

theorem mapText_error {namesText tuplesText : String} {before after : List (List Char)}
    {line : List Char} (hlines : lines tuplesText.toList = before ++ line :: after)
    (h : .malformed ∉ before.map classify) (hline : classify line = .malformed) :
    mapText tuples namesText tuplesText =
      .error (.tuple tuples (before.length + 1) (String.ofList line)) := by
  have hall : ∀ line ∈ before.zipIdx 1, classify line.1 ≠ .malformed := fun line hmem hm =>
    h (hm ▸ List.mem_map_of_mem (List.fst_mem_of_mem_zipIdx hmem))
  rw [mapText, hlines, List.zipIdx_append, List.zipIdx_cons]
  exact (foldlM_mapLine_error hall hline).trans (by rw [Nat.add_comm])

end Mapping

/-- What a mapping leaves: the names of the indices in their order, one a line, at the place
of the file, and all else as it was. -/
structure Named (d d' : Disk) (dest : Path) (l : Location) (names : List (List Char))
    (said : List Line) (mapped : Mapped) : Prop where
  text : d'.readText dest =
    .ok (String.ofList ((said.filterMap (·.name? names)).flatMap (· ++ ['\n'])))
  written : mapped.written = (said.filterMap (·.name? names)).length
  lineFeeds : ((said.filterMap (·.name? names)).flatMap (· ++ ['\n'])).count '\n' = mapped.written
  skipped : mapped.skipped = said.countP (·.isPastEnd names)
  mode : ∀ data mode, d.tree.find l = some (.file data mode) →
    ∃ data', d'.tree.find l = some (.file data' mode)
  rest : ∀ k, k ≠ l → d'.tree.find k = d.tree.find k
  cwd : d'.cwd = d.cwd
  lost : d'.lost = d.lost

section Files

variable {tuples names dest : Path} {d d' : Disk} {namesText tuplesText : String}

theorem look_readText {α : Type} {p : Path} {text : String} {f : String → Attempt Disk α}
    (h : d.readText p = .ok text) :
    (Attempt.look (fun d => (d.readText p).mapError (.disk p)) >>= f) d = f text d :=
  Attempt.bind_ok (by rw [Attempt.look, h]; rfl)

theorem look_readText_error {α : Type} {p : Path} {e : Fault} {f : String → Attempt Disk α}
    (h : d.readText p = .error e) :
    (Attempt.look (fun d => (d.readText p).mapError (.disk p)) >>= f) d = (.error (.disk p e), d) :=
  Attempt.bind_error (by rw [Attempt.look, h]; rfl)

theorem mapFiles_of_error {e : Failure} (hnames : d.readText names = .ok namesText)
    (htuples : d.readText tuples = .ok tuplesText)
    (h : mapText tuples namesText tuplesText = .error e) :
    mapFiles tuples names dest d = (.error e, d) := by
  rw [mapFiles, look_readText hnames, look_readText htuples]
  exact Attempt.bind_error (by rw [h]; rfl)

theorem mapFiles_of_ok {mapped : Mapped} (hnames : d.readText names = .ok namesText)
    (htuples : d.readText tuples = .ok tuplesText)
    (h : mapText tuples namesText tuplesText = .ok mapped) :
    mapFiles tuples names dest d =
      (Disk.change dest (·.write dest (encodeChars mapped.text)) >>= fun _ => pure mapped) d := by
  rw [mapFiles, look_readText hnames, look_readText htuples]
  exact Attempt.bind_ok (by rw [h]; rfl)

/-- A name holds no line feed, so there are as many of them as names. -/
theorem count_flatMap {found : List (List Char)} (h : ∀ name ∈ found, '\n' ∉ name) :
    (found.flatMap (· ++ ['\n'])).count '\n' = found.length := by
  induction found with
  | nil => rfl
  | cons name found ih =>
      rw [List.forall_mem_cons] at h
      rw [List.flatMap_cons, List.count_append, ih h.2, List.count_append,
        List.count_eq_zero_of_not_mem h.1, List.length_cons, List.count_singleton_self]
      omega

theorem not_mem_name {said : Line} {name : List Char}
    (h : said.name? (nameList namesText) = some name) : '\n' ∉ name := by
  cases said with
  | ignored | oversized | malformed => cases h
  | index i =>
      obtain ⟨line, hline, rfl⟩ := List.mem_map.1 (List.mem_of_getElem? h)
      exact fun hmem => not_mem_of_mem_lines hline (mem_of_mem_trim hmem)

theorem named_written {said : List Line} {l : Location} (hl : d.destination dest = .ok l) :
    let mapped : Mapped := ⟨(said.filterMap (·.name? (nameList namesText))).reverse,
      said.countP (·.isPastEnd (nameList namesText))⟩
    Named d (d.written l (encodeChars mapped.text)) dest l (nameList namesText) said mapped := by
  intro mapped
  have htext : mapped.text =
      (said.filterMap (·.name? (nameList namesText))).flatMap (· ++ ['\n']) := by
    rw [Mapped.text, List.reverse_reverse]
  have hwritten : mapped.written = (said.filterMap (·.name? (nameList namesText))).length :=
    List.length_reverse
  obtain ⟨mode, hfind, hmode⟩ := Disk.find_written hl (encodeChars mapped.text)
  refine ⟨?_, hwritten, ?_, rfl, fun data mode' hold => ?_, fun k hk => ?_, rfl, rfl⟩
  · rw [Disk.readText, Disk.read_written hl, htext]
    simp [Bind.bind, Except.bind, decode?_encodeChars]
  · rw [hwritten, count_flatMap]
    intro name hname
    obtain ⟨line, _, hline⟩ := List.mem_filterMap.1 hname
    exact not_mem_name hline
  · exact ⟨_, by rw [hfind, if_pos rfl, hmode data mode' hold]⟩
  · rw [hfind, if_neg (Ne.symm hk)]

/-- Indices are turned into names, from the two files to the third. If every line can be
read and the third file can be written, it holds the names of the indices that have one, in
their order, and nothing else changes. The first line that cannot be read is named in the
failure, and whatever fails leaves the disk as it was. -/
theorem mapFiles_names_indices (tuples names dest : Path) (d : Disk) :
    (∀ namesText tuplesText said, d.readText names = .ok namesText →
      d.readText tuples = .ok tuplesText → List.Forall₂ Reads (lines tuplesText.toList) said →
      (.malformed ∉ said →
        (∀ l, d.Admits dest l → ∃ mapped d', mapFiles tuples names dest d = (.ok mapped, d') ∧
          Named d d' dest l ((lines namesText.toList).map trim) said mapped) ∧
        ((∀ l, ¬ d.Admits dest l) →
          ∃ e, mapFiles tuples names dest d = (.error (.disk dest e), d))) ∧
      ∀ before line after, lines tuplesText.toList = before ++ line :: after →
        (∀ other ∈ before, ¬ Reads other .malformed) → Reads line .malformed →
        mapFiles tuples names dest d =
          (.error (.tuple tuples (before.length + 1) (String.ofList line)), d)) ∧
    (∀ e, d.readText names = .error e →
      mapFiles tuples names dest d = (.error (.disk names e), d)) ∧
    ∀ namesText e, d.readText names = .ok namesText → d.readText tuples = .error e →
      mapFiles tuples names dest d = (.error (.disk tuples e), d) := by
  refine ⟨fun namesText tuplesText said hnames htuples hsaid => ⟨fun hread => ?_, ?_⟩,
    fun e hnames => ?_, fun namesText e hnames htuples => ?_⟩
  · obtain rfl : said = saidBy tuplesText := forall₂_reads_iff.1 hsaid
    have hmap := @mapFiles_of_ok tuples names dest d _ _ _ hnames htuples (mapText_ok hread)
    refine ⟨fun l hl => ?_, fun hno => ?_⟩
    · have hdest := Disk.admits_iff.1 hl
      refine ⟨_, _, hmap.trans (Attempt.bind_ok (a := ()) ?_), named_written hdest⟩
      rw [Disk.change, Disk.write_of_destination hdest]
    · cases hdest : d.destination dest with
      | ok l => exact absurd (Disk.admits_iff.2 hdest) (hno l)
      | error e =>
          refine ⟨e, hmap.trans (Attempt.bind_error ?_)⟩
          rw [Disk.change, Disk.write_eq, hdest]
          rfl
  · intro before line after hlines hbefore hline
    refine mapFiles_of_error hnames htuples (mapText_error hlines (fun hmem => ?_)
      (reads_iff.1 hline))
    obtain ⟨other, hother, hclass⟩ := List.mem_map.1 hmem
    exact hbefore other hother (reads_iff.2 hclass)
  · rw [mapFiles, look_readText_error hnames]
  · rw [mapFiles, look_readText hnames, look_readText_error htuples]

def tupleRoot : Disk :=
  .holding
    [(["name.map"], .file (encode " A.f\nB.g \r\nC.h") 0o644),
      (["vP.tuples"], .file (encode "# V0\n 2\r\n\n+0\n3\n18446744073709551616\n2") 0o644),
      (["named"], .file (encode "old") 0o600)]

theorem mapFiles_names_indices_in_order :
    ∃ mapped d', mapFiles ⟨"vP.tuples"⟩ ⟨"name.map"⟩ ⟨"/named"⟩ tupleRoot = (.ok mapped, d') ∧
      d'.readText ⟨"/named"⟩ = .ok "C.h\nA.f\nC.h\n" ∧ mapped.written = 3 ∧ mapped.skipped = 2 := by
  have hnames : tupleRoot.readText ⟨"name.map"⟩ = .ok " A.f\nB.g \r\nC.h" := by decide +kernel
  have htuples : tupleRoot.readText ⟨"vP.tuples"⟩ =
      .ok "# V0\n 2\r\n\n+0\n3\n18446744073709551616\n2" := by decide +kernel
  have hdest : tupleRoot.destination ⟨"/named"⟩ = .ok ["named"] := by decide +kernel
  have hread : Line.malformed ∉ saidBy "# V0\n 2\r\n\n+0\n3\n18446744073709551616\n2" := by
    decide +kernel
  obtain ⟨mapped, d', hmapped, hnamed⟩ :=
    ((mapFiles_names_indices ⟨"vP.tuples"⟩ ⟨"name.map"⟩ ⟨"/named"⟩ tupleRoot).1 _ _ _ hnames htuples
      (forall₂_reads_iff.2 rfl)).1 hread |>.1 _ (Disk.admits_iff.2 hdest)
  refine ⟨mapped, d', hmapped, hnamed.text.trans ?_, hnamed.written.trans ?_,
    hnamed.skipped.trans ?_⟩
  · decide +kernel
  · decide +kernel
  · decide +kernel

end Files
end TupleMap
end PointsTo
