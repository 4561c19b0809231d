import PointsTo.Proofs.TupleMap

/-!
Indices of any size. Whether a line holds an index is told by what stands around its
digits, except for a plus sign, which is taken only before digits that a word can hold.
-/

namespace PointsTo

namespace Text

/-- A line of a text loses at most a carriage return. -/
theorem lines_around {before line after : List Char} (hbefore : ∀ c ∈ before.getLast?, c = '\n')
    (hafter : ∀ c ∈ after.head?, c = '\n') (hne : line ≠ []) (hline : '\n' ∉ line) :
    ∃ cut, lines (before ++ (line ++ after)) = lines before ++ cut :: lines after.tail ∧
      (line = cut ∨ line = cut ++ ['\r']) := by
  rw [lines_append hbefore]
  cases after with
  | nil =>
      refine ⟨line, ?_, Or.inl rfl⟩
      rw [List.append_nil, lines_last hne hline]
      rfl
  | cons c after =>
      obtain rfl := hafter c rfl
      refine ⟨dropTerminator (line ++ ['\n']), ?_, ?_⟩
      · rw [lines_line hline]
        rfl
      · rcases dropTerminator_line line with hd | ⟨front, hfront, hd⟩
        · exact Or.inl hd.symm
        · exact Or.inr (by rw [hd, hfront])

/-- Without it there is an empty line, or none at the end of the text. -/
theorem lines_without {before after : List Char} (hbefore : ∀ c ∈ before.getLast?, c = '\n')
    (hafter : ∀ c ∈ after.head?, c = '\n') :
    lines (before ++ after) = lines before ++ lines after.tail ∧ lines after.tail = [] ∨
      lines (before ++ after) = lines before ++ [] :: lines after.tail := by
  rw [lines_append hbefore]
  cases after with
  | nil => exact Or.inl ⟨rfl, rfl⟩
  | cons c after =>
      obtain rfl := hafter c rfl
      exact Or.inr rfl

end Text

namespace TupleMap

open Text Decimal

/-- What may stand around the digits of an index: blanks, and in front a plus sign. -/
structure Surrounds (sign p s : List Char) : Prop where
  lead : ∃ lead, p = lead ++ sign ∧ ∀ c ∈ lead, isBlank c = true
  tail : ∀ c ∈ s, isBlank c = true
  sign : sign = [] ∨ sign = ['+']

section Digits

variable {sign p s digits digits' : List Char} {said : Line}

theorem not_isBlank_of_isNumeral {c : Char} (h : isNumeral digits = true) (hc : c ∈ digits) :
    isBlank c = false := by
  cases hb : isBlank c with
  | false => rfl
  | true =>
      have hdigit := (isNumeral_iff.1 h).2 c hc
      rw [not_isDigit_of_isBlank hb] at hdigit
      cases hdigit

theorem Surrounds.trims (h : Surrounds sign p s) (hdigits : isNumeral digits = true) :
    Trims (p ++ (digits ++ s)) (sign ++ digits) := by
  obtain ⟨lead, rfl, hlead⟩ := h.lead
  have hne := (isNumeral_iff.1 hdigits).1
  refine ⟨⟨lead, s, by simp, hlead, h.tail⟩, fun c hc => ?_, fun c hc => ?_⟩
  · rcases h.sign with rfl | rfl
    · exact not_isBlank_of_isNumeral hdigits (List.mem_of_mem_head? hc)
    · cases hc
      decide
  · rw [List.getLast?_append_of_ne_nil _ hne] at hc
    exact not_isBlank_of_isNumeral hdigits (List.mem_of_getLast? hc)

/-- A line trims to a sign and digits only if that is all there is but blanks. -/
theorem surrounds_of_trims (hp : ∀ c ∈ p, c.isDigit = false) (hs : ∀ c ∈ s, c.isDigit = false)
    (hdigits : isNumeral digits = true) (hdigits' : isNumeral digits' = true)
    (hsign : sign = [] ∨ sign = ['+']) (h : Trims (p ++ (digits ++ s)) (sign ++ digits')) :
    Surrounds sign p s := by
  obtain ⟨lead, tail, heq, hlead, htail⟩ := h.around
  have hfirst : ∀ {ds more : List Char}, isNumeral ds = true →
      ∀ c ∈ (ds ++ more).head?, (!c.isDigit) = false := fun {ds more} hds c hc => by
    cases ds with
    | nil => cases hds
    | cons d ds =>
        cases hc
        simp [(isNumeral_iff.1 hds).2 c]
  have hnot : ∀ c ∈ lead ++ sign, (!c.isDigit) = true := fun c hc => by
    rcases List.mem_append.1 hc with hc | hc
    · simp [not_isDigit_of_isBlank (hlead c hc)]
    · rcases hsign with rfl | rfl
      · cases hc
      · rw [List.mem_singleton.1 hc]
        decide
  have heq' : p ++ (digits ++ s) = (lead ++ sign) ++ (digits' ++ tail) := by
    rw [heq]
    simp
  -- both sides are cut before the first digit and after the last one
  have hfront : p = lead ++ sign := by
    have hcut := congrArg (List.takeWhile fun c => !c.isDigit) heq'
    rwa [takeWhile_run (by simpa using hp) (hfirst hdigits),
      takeWhile_run hnot (hfirst hdigits')] at hcut
  have hrest : digits ++ s = digits' ++ tail := by
    rw [hfront] at heq'
    exact List.append_cancel_left heq'
  have hstop : ∀ {more : List Char}, (∀ c ∈ more, c.isDigit = false) →
      ∀ c ∈ more.head?, c.isDigit = false := fun hmore c hc =>
    hmore c (List.mem_of_mem_head? hc)
  have hsame : digits = digits' := by
    have hcut := congrArg (List.takeWhile Char.isDigit) hrest
    rwa [takeWhile_run (isNumeral_iff.1 hdigits).2 (hstop hs),
      takeWhile_run (isNumeral_iff.1 hdigits').2
        (hstop fun c hc => not_isDigit_of_isBlank (htail c hc))] at hcut
  have hback : s = tail := by
    rw [hsame] at hrest
    exact List.append_cancel_left hrest
  exact ⟨⟨lead, hfront, hlead⟩, hback ▸ htail, hsign⟩

/-- What such a line says is told by the value of its digits. -/
theorem Surrounds.reads (h : Surrounds sign p s) (hdigits : isNumeral digits = true)
    (hvalue : sign = [] ∨ value digits < 2 ^ 64) :
    Reads (p ++ (digits ++ s))
      (if value digits < 2 ^ 64 then .index (value digits) else .oversized) := by
  split
  · next hlt => exact .index (h.trims hdigits) h.sign hdigits hlt
  · next hle =>
    obtain rfl : sign = [] := hvalue.resolve_right hle
    exact .oversized (h.trims hdigits) hdigits (Nat.not_lt.1 hle)

/-- Whether a line holds an index does not depend on its digits, unless a plus sign stands
before more than a word can hold. -/
theorem reads_malformed_of_digits (hp : ∀ c ∈ p, c.isDigit = false)
    (hs : ∀ c ∈ s, c.isDigit = false) (hdigits : isNumeral digits = true)
    (hdigits' : isNumeral digits' = true)
    (hbad : Reads (p ++ (digits' ++ s)) .malformed) :
    Reads (p ++ (digits ++ s)) .malformed ∨ Surrounds ['+'] p s ∧ 2 ^ 64 ≤ value digits' := by
  have hindex : ∀ {sign ds}, sign = [] ∨ sign = ['+'] → isNumeral ds = true →
      Trims (p ++ (digits ++ s)) (sign ++ ds) →
      Surrounds ['+'] p s ∧ 2 ^ 64 ≤ value digits' := fun {sign ds} hsign hds htrims => by
    have hsurrounds := surrounds_of_trims hp hs hdigits hds hsign htrims
    have hlarge : ¬ (sign = [] ∨ value digits' < 2 ^ 64) := fun hvalue => by
      have hread := reads_iff.1 (hsurrounds.reads hdigits' hvalue)
      rw [reads_iff.1 hbad] at hread
      split at hread <;> cases hread
    rw [not_or] at hlarge
    rw [hsign.resolve_left hlarge.1] at hsurrounds
    exact ⟨hsurrounds, Nat.not_lt.1 hlarge.2⟩
  obtain ⟨said, hsaid⟩ := reads_total (p ++ (digits ++ s))
  cases hsaid with
  | malformed hblank hmark hplain hplus => exact Or.inl (.malformed hblank hmark hplain hplus)
  | index htrims hsign hds _ => exact Or.inr (hindex hsign hds htrims)
  | oversized htrims hds _ => exact Or.inr (hindex (Or.inl rfl) hds htrims)
  | blank htrims =>
      obtain ⟨lead, tail, heq, hlead, htail⟩ := htrims.around
      obtain ⟨c, ds, rfl⟩ := List.exists_cons_of_ne_nil (isNumeral_iff.1 hdigits).1
      have hmem : c ∈ lead ++ [] ++ tail := by
        rw [← heq]
        simp
      have hblank : isBlank c = true := by
        rcases List.mem_append.1 hmem with hc | hc
        · exact hlead c (by simpa using hc)
        · exact htail c hc
      rw [not_isBlank_of_isNumeral hdigits List.mem_cons_self] at hblank
      cases hblank
  | comment hmark =>
      have hmark' : (p ++ (digits' ++ s)).head? = some '#' := by
        cases p with
        | cons c p => exact hmark
        | nil =>
            rw [List.nil_append, List.head?_append_of_ne_nil _ (isNumeral_iff.1 hdigits).1] at hmark
            exact absurd hmark (head?_ne_of_isNumeral hdigits (by decide))
      cases (reads_iff.1 hbad).symm.trans (reads_iff.1 (.comment hmark'))

end Digits

section Text

variable {tuples : Path} {namesText tuplesText : String} {before line after cut : List Char}

/-- A carriage return at the end of a line says nothing. -/
theorem classify_return (hne : cut ≠ []) : classify (cut ++ ['\r']) = classify cut := by
  have htrim : trim (cut ++ ['\r']) = trim cut := by
    have hcut : Trims cut (trim cut) := trims_iff.2 rfl
    obtain ⟨lead, tail, heq, hlead, htail⟩ := hcut.around
    refine trims_iff.1 ⟨⟨lead, tail ++ ['\r'], ?_, hlead, fun c hc => ?_⟩, hcut.first, hcut.last⟩
    · rw [← List.append_assoc, ← heq]
    · rcases List.mem_append.1 hc with hc | hc
      · exact htail c hc
      · rw [List.mem_singleton.1 hc]
        decide
  rw [classify, classify, htrim, List.head?_append_of_ne_nil _ hne]

theorem mapText_eq_error_iff {e : Failure} :
    mapText tuples namesText tuplesText = .error e ↔
      ∃ before line after, lines tuplesText.toList = before ++ line :: after ∧
        .malformed ∉ before.map classify ∧ classify line = .malformed ∧
        e = .tuple tuples (before.length + 1) (String.ofList line) := by
  constructor
  · intro h
    by_cases hall : Line.malformed ∈ saidBy tuplesText
    · obtain ⟨said, more, hsaid, hfirst⟩ := List.eq_append_cons_of_mem hall
      obtain ⟨before, rest, hlines, rfl, hrest⟩ := List.map_eq_append_iff.1 hsaid
      obtain ⟨line, after, rfl, hline, _⟩ := List.map_eq_cons_iff.1 hrest
      refine ⟨before, line, after, hlines, hfirst, hline, ?_⟩
      rw [mapText_error hlines hfirst hline] at h
      exact (Except.error.inj h).symm
    · rw [mapText_ok hall] at h
      cases h
  · rintro ⟨before, line, after, hlines, hfirst, hline, rfl⟩
    exact mapText_error hlines hfirst hline

/-- A line is named in the failure if it is the first one that cannot be read. -/
theorem mapText_names_line_iff {before after : List (List Char)}
    (hlines : lines tuplesText.toList = before ++ cut :: after) :
    (∃ content, mapText tuples namesText tuplesText =
        .error (.tuple tuples (before.length + 1) content)) ↔
      .malformed ∉ before.map classify ∧ classify cut = .malformed := by
  constructor
  · rintro ⟨content, h⟩
    obtain ⟨first, line, rest, hlines', hfirst, hline, heq⟩ := mapText_eq_error_iff.1 h
    have hlength : before.length = first.length := by
      injection heq with _ hnumber
      omega
    obtain ⟨rfl, hrest⟩ := List.append_inj (hlines.symm.trans hlines') hlength
    obtain ⟨rfl, _⟩ := List.cons.inj hrest
    exact ⟨hfirst, hline⟩
  · rintro ⟨hfirst, hline⟩
    exact ⟨_, mapText_error hlines hfirst hline⟩

def Mapped.bump (m : Mapped) : Mapped :=
  { m with skipped := m.skipped + 1 }

theorem mapLine_bump (names : Array (List Char)) (m : Mapped) (line : List Char × Nat) :
    mapLine tuples names m.bump line = (mapLine tuples names m line).map Mapped.bump := by
  unfold mapLine
  cases classify line.1 with
  | ignored | oversized | malformed => rfl
  | index i =>
      dsimp only
      cases names[i]? <;> rfl

theorem foldlM_bump (names : Array (List Char)) (m : Mapped) (lines : List (List Char × Nat)) :
    lines.foldlM (mapLine tuples names) m.bump =
      (lines.foldlM (mapLine tuples names) m).map Mapped.bump := by
  induction lines generalizing m with
  | nil => rfl
  | cons line lines ih =>
      rw [List.foldlM_cons, List.foldlM_cons, mapLine_bump]
      cases mapLine tuples names m line with
      | error e => rfl
      | ok m' => exact ih m'

/-- Where a line is exchanged for one with an index that has no name, one more is counted. -/
theorem mapText_bump {text text' : String} {before after : List (List Char)}
    (htext : lines text.toList = before ++ cut :: after)
    (htext' : lines text'.toList = before ++ after ∧ after = [] ∨
      lines text'.toList = before ++ [] :: after)
    (hcut : (classify cut).isPastEnd (nameList namesText) = true) :
    mapText tuples namesText text = (mapText tuples namesText text').map Mapped.bump := by
  have hline : ∀ m k, mapLine tuples (nameList namesText).toArray m (cut, k) = .ok m.bump :=
    fun m k => by
      rw [mapLine_ok, hcut]
      · cases hc : classify cut with
        | ignored | malformed =>
            rw [hc] at hcut
            cases hcut
        | oversized => rfl
        | index i =>
            rw [hc] at hcut
            simp [Line.name?, Mapped.bump, List.getElem?_eq_none (of_decide_eq_true hcut)]
      · rintro hm
        rw [hm] at hcut
        cases hcut
  unfold mapText
  change List.foldlM (mapLine tuples (nameList namesText).toArray) _ _ =
    (List.foldlM (mapLine tuples (nameList namesText).toArray) _ _).map _
  rw [htext, List.zipIdx_append, List.foldlM_append]
  cases hm : (before.zipIdx 1).foldlM (mapLine tuples (nameList namesText).toArray) ⟨[], 0⟩ with
  | error e =>
      rcases htext' with ⟨htext', rfl⟩ | htext'
      · rw [htext', List.append_nil, hm]
        rfl
      · rw [htext', List.zipIdx_append, List.foldlM_append, hm]
        rfl
  | ok m =>
      have hdone : ∀ k, ((cut, k) :: after.zipIdx (k + 1)).foldlM
          (mapLine tuples (nameList namesText).toArray) m =
          ((after.zipIdx (k + 1)).foldlM (mapLine tuples (nameList namesText).toArray) m).map
            Mapped.bump := fun k => by
        rw [List.foldlM_cons, hline]
        exact foldlM_bump _ m _
      rcases htext' with ⟨htext', rfl⟩ | htext'
      · rw [htext', List.append_nil, hm]
        exact hdone _
      · rw [htext', List.zipIdx_append, List.foldlM_append, hm]
        exact hdone _

/-- A line with digits in it is read as if it stood alone. -/
theorem lines_around_digits {before after p s digits : List Char}
    (hbefore : ∀ c ∈ before.getLast?, c = '\n') (hafter : ∀ c ∈ after.head?, c = '\n')
    (hp : ∀ c ∈ p, c.isDigit = false ∧ c ≠ '\n') (hs : ∀ c ∈ s, c.isDigit = false ∧ c ≠ '\n')
    (hdigits : isNumeral digits = true) :
    ∃ cut, lines (before ++ (p ++ (digits ++ s) ++ after)) = lines before ++ cut :: lines after.tail ∧
      classify cut = classify (p ++ (digits ++ s)) := by
  obtain ⟨hne, hall⟩ := isNumeral_iff.1 hdigits
  obtain ⟨digit, more, rfl⟩ := List.exists_cons_of_ne_nil hne
  have hfeed : '\n' ∉ p ++ (digit :: more ++ s) := fun hmem => by
    rcases List.mem_append.1 hmem with hc | hc
    · exact (hp _ hc).2 rfl
    · rcases List.mem_append.1 hc with hc | hc
      · exact absurd (hall _ hc) (by decide)
      · exact (hs _ hc).2 rfl
  obtain ⟨cut, hlines, hcut⟩ := lines_around hbefore hafter (by simp) hfeed
  refine ⟨cut, hlines, ?_⟩
  rcases hcut with heq | heq
  · rw [heq]
  · have hmem : digit ∈ cut ++ ['\r'] := by
      rw [← heq]
      simp
    have hcut : cut ≠ [] := by
      rintro rfl
      rw [List.nil_append, List.mem_singleton] at hmem
      exact absurd (hall digit List.mem_cons_self) (by rw [hmem]; decide)
    rw [heq, classify_return hcut]

end Text

/-- The mapping fails and names a line of the tuple file. -/
def Reports (tuples : Path) (line : Nat) (x : Except Failure Mapped) : Prop :=
  ∃ content, x = .error (.tuple tuples line content)

theorem reports_mapFiles_iff {tuples names dest : Path} {d : Disk} {namesText tuplesText : String}
    {line : Nat} (hnames : d.readText names = .ok namesText)
    (htuples : d.readText tuples = .ok tuplesText) :
    Reports tuples line (mapFiles tuples names dest d).1 ↔
      Reports tuples line (mapText tuples namesText tuplesText) := by
  cases hmap : mapText tuples namesText tuplesText with
  | error e => rw [mapFiles_of_error hnames htuples hmap]
  | ok mapped =>
      rw [mapFiles_of_ok hnames htuples hmap, Attempt.bind_apply, Disk.change]
      constructor
      · intro h
        obtain ⟨content, h⟩ := h
        cases hwrite : d.write dest (encodeChars mapped.text) <;> simp [hwrite] at h
      · intro h
        obtain ⟨content, h⟩ := h
        cases h

/-- Whether a line holds an index does not depend on its size. If a line with some digits
is not reported, then with other digits in their place it is reported only where a plus sign
stands before more than a word can hold. An index past the end of the names is counted,
however long it is, and changes nothing else. -/
theorem index_of_any_size (tuples names dest : Path) (namesText : String)
    (before after p s : List Char) (hbefore : ∀ c ∈ before.getLast?, c = '\n')
    (hafter : ∀ c ∈ after.head?, c = '\n') (hp : ∀ c ∈ p, c.isDigit = false ∧ c ≠ '\n')
    (hs : ∀ c ∈ s, c.isDigit = false ∧ c ≠ '\n') :
    (∀ (d d' : Disk) (digits digits' : List Char), isNumeral digits = true →
      isNumeral digits' = true → d.readText names = .ok namesText →
      d'.readText names = .ok namesText →
      d.readText tuples = .ok (String.ofList (before ++ (p ++ (digits ++ s) ++ after))) →
      d'.readText tuples = .ok (String.ofList (before ++ (p ++ (digits' ++ s) ++ after))) →
      ¬ Reports tuples ((lines before).length + 1) (mapFiles tuples names dest d).1 →
      Reports tuples ((lines before).length + 1) (mapFiles tuples names dest d').1 →
      Surrounds ['+'] p s ∧ 2 ^ 64 ≤ value digits') ∧
    ∀ (sign digits : List Char), Surrounds sign p s → isNumeral digits = true →
      sign = [] ∨ value digits < 2 ^ 64 →
      ((lines namesText.toList).map trim).length ≤ value digits →
      mapText tuples namesText (String.ofList (before ++ (p ++ (digits ++ s) ++ after))) =
        (mapText tuples namesText (String.ofList (before ++ after))).map
          fun m => { m with skipped := m.skipped + 1 } := by
  have hlines : ∀ {digits}, isNumeral digits = true → _ := fun hdigits =>
    lines_around_digits hbefore hafter hp hs hdigits
  constructor
  · intro d d' digits digits' hdigits hdigits' hnames hnames' htuples htuples' hfine hbad
    rw [reports_mapFiles_iff hnames htuples] at hfine
    rw [reports_mapFiles_iff hnames' htuples'] at hbad
    obtain ⟨cut, hcut, hread⟩ := hlines hdigits
    obtain ⟨cut', hcut', hread'⟩ := hlines hdigits'
    rw [← String.toList_ofList (l := before ++ (p ++ (digits ++ s) ++ after))] at hcut
    rw [← String.toList_ofList (l := before ++ (p ++ (digits' ++ s) ++ after))] at hcut'
    obtain ⟨hfirst, hmalformed⟩ := (mapText_names_line_iff hcut').1 hbad
    have hline : Reads (p ++ (digits' ++ s)) .malformed :=
      reads_iff.2 (hread'.symm.trans hmalformed)
    rcases reads_malformed_of_digits (fun c hc => (hp c hc).1) (fun c hc => (hs c hc).1) hdigits
      hdigits' hline with hother | hplus
    · exact absurd ((mapText_names_line_iff hcut).2
        ⟨hfirst, hread.trans (reads_iff.1 hother)⟩) hfine
    · exact hplus
  · intro sign digits hsurrounds hdigits hvalue hpast
    obtain ⟨cut, hcut, hread⟩ := hlines hdigits
    rw [← String.toList_ofList (l := before ++ (p ++ (digits ++ s) ++ after))] at hcut
    refine mapText_bump hcut ?_ ?_
    · rw [String.toList_ofList]
      exact lines_without hbefore hafter
    · rw [hread, reads_iff.1 (hsurrounds.reads hdigits hvalue)]
      split
      · exact decide_eq_true hpast
      · rfl

def indexRoot (tuplesText : String) : Disk :=
  .holding
    [(["name.map"], .file (encode "A.f\nB.g\n") 0o644),
      (["vP.tuples"], .file (encode tuplesText) 0o644)]

theorem index_of_many_digits :
    ¬ Reports ⟨"vP.tuples"⟩ 2 (mapFiles ⟨"vP.tuples"⟩ ⟨"name.map"⟩ ⟨"named"⟩
        (indexRoot "0\n 99999999999999999999 \n1\n")).1 ∧
      mapText ⟨"vP.tuples"⟩ "A.f\nB.g\n" "0\n 99999999999999999999 \n1\n" =
        .ok ⟨["B.g".toList, "A.f".toList], 1⟩ := by
  have hany := index_of_any_size ⟨"vP.tuples"⟩ ⟨"name.map"⟩ ⟨"named"⟩ "A.f\nB.g\n" ['0', '\n']
    ['\n', '1', '\n'] [' '] [' '] (by simp) (by simp) (by simp) (by simp)
  have hblank : Surrounds [] [' '] [' '] :=
    ⟨⟨[' '], rfl, by simp [isBlank, blankRanges]⟩, by simp [isBlank, blankRanges], Or.inl rfl⟩
  refine ⟨fun hbad => ?_, ?_⟩
  · have hfine : ¬ Reports ⟨"vP.tuples"⟩ 2
        (mapFiles ⟨"vP.tuples"⟩ ⟨"name.map"⟩ ⟨"named"⟩ (indexRoot "0\n 7 \n1\n")).1 := by
      have hok : (mapFiles ⟨"vP.tuples"⟩ ⟨"name.map"⟩ ⟨"named"⟩ (indexRoot "0\n 7 \n1\n")).1 =
          .ok ⟨["B.g".toList, "A.f".toList], 1⟩ := by decide +kernel
      rintro ⟨content, hcontent⟩
      cases hok.symm.trans hcontent
    obtain ⟨hplus, _⟩ := hany.1 (indexRoot "0\n 7 \n1\n")
      (indexRoot "0\n 99999999999999999999 \n1\n") ['7'] (List.replicate 20 '9') (by decide)
      (by decide) (by decide +kernel) (by decide +kernel) (by decide +kernel) (by decide +kernel)
      hfine hbad
    obtain ⟨lead, hlead, _⟩ := hplus.lead
    simpa using congrArg List.getLast? hlead
  · refine (hany.2 [] (List.replicate 20 '9') hblank (by decide) (Or.inl rfl)
      (by decide +kernel)).trans ?_
    decide +kernel

/-- A plus sign is taken before one index and not before another. -/
theorem plus_sign_before_one_word :
    (mapFiles ⟨"vP.tuples"⟩ ⟨"name.map"⟩ ⟨"named"⟩ (indexRoot "0\n+18446744073709551615\n")).1 =
        .ok ⟨["A.f".toList], 1⟩ ∧
      (mapFiles ⟨"vP.tuples"⟩ ⟨"name.map"⟩ ⟨"named"⟩ (indexRoot "0\n+18446744073709551616\n")).1 =
        .error (.tuple ⟨"vP.tuples"⟩ 2 "+18446744073709551616") := by
  decide +kernel

end TupleMap
end PointsTo
