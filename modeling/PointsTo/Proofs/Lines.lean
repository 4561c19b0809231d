import PointsTo.Text.Blank
import PointsTo.Text.Lines

/-!
The lines of a text, each kept with its terminator, the line feeds and carriage returns
that end a line, and its first word, said without the functions that find them.
-/

namespace PointsTo
namespace Text

section Runs

variable {p : Char → Bool} {run rest : List Char}

/-- A run of characters of one kind is what stands before the first one of another kind. -/
theorem takeWhile_run (hrun : ∀ c ∈ run, p c = true) (hrest : ∀ c ∈ rest.head?, p c = false) :
    (run ++ rest).takeWhile p = run := by
  rw [List.takeWhile_append_of_pos hrun]
  cases rest with
  | nil => simp
  | cons c rest => simp [hrest c rfl]

theorem head?_dropWhile : ∀ c ∈ (run.dropWhile p).head?, p c = false := by
  intro c hc
  have hnot := List.head?_dropWhile_not p run
  rw [hc] at hnot
  simpa using hnot

end Runs

/-- Each piece ends at its first line feed, and only the last one may have none. -/
inductive Pieces : List (List Char) → Prop where
  | nil : Pieces []
  | last {piece : List Char} : piece ≠ [] → '\n' ∉ piece → Pieces [piece]
  | cons {body : List Char} {rest : List (List Char)} : '\n' ∉ body → Pieces rest →
      Pieces ((body ++ ['\n']) :: rest)

theorem pieces_linePieces (cs : List Char) : Pieces (linePieces cs) := by
  induction cs with
  | nil => exact .nil
  | cons c cs ih =>
      rw [linePieces, List.foldr_cons, ← linePieces]
      split
      · next hc =>
        rw [hc]
        exact Pieces.cons (List.not_mem_nil) ih
      · next hc =>
        generalize linePieces cs = pieces at ih
        cases ih with
        | nil => exact .last (List.cons_ne_nil c []) (by simpa using Ne.symm hc)
        | @last piece _ hpiece =>
            exact .last (List.cons_ne_nil c piece) (by simp [Ne.symm hc, hpiece])
        | @cons body rest hbody hrest =>
            exact @Pieces.cons (c :: body) rest (by simp [Ne.symm hc, hbody]) hrest

theorem linePieces_cons_of_ne {c : Char} (hc : c ≠ '\n') (cs : List Char) :
    linePieces (c :: cs) = match linePieces cs with
      | [] => [[c]]
      | piece :: more => (c :: piece) :: more := by
  rw [linePieces, List.foldr_cons, ← linePieces]
  exact if_neg hc

theorem linePieces_line {body : List Char} (h : '\n' ∉ body) (cs : List Char) :
    linePieces (body ++ '\n' :: cs) = (body ++ ['\n']) :: linePieces cs := by
  induction body with
  | nil => simp [linePieces]
  | cons c body ih =>
      rw [List.mem_cons, not_or] at h
      rw [List.cons_append, linePieces_cons_of_ne (Ne.symm h.1), ih h.2]
      rfl

theorem linePieces_last {piece : List Char} (hne : piece ≠ []) (h : '\n' ∉ piece) :
    linePieces piece = [piece] := by
  induction piece with
  | nil => exact absurd rfl hne
  | cons c piece ih =>
      rw [List.mem_cons, not_or] at h
      rw [linePieces_cons_of_ne (Ne.symm h.1)]
      cases piece with
      | nil => rfl
      | cons c' piece => rw [ih nofun h.2]

theorem Pieces.linePieces_flatten {pieces : List (List Char)} (h : Pieces pieces) :
    linePieces pieces.flatten = pieces := by
  induction h with
  | nil => rfl
  | last hne hpiece => simpa using linePieces_last hne hpiece
  | cons hbody _ ih =>
      rw [List.flatten_cons, List.append_assoc, List.singleton_append, linePieces_line hbody, ih]

theorem lineEnd_line (body : List Char) : lineEnd (body ++ ['\n']) = lineEnd body ++ ['\n'] := by
  simp [lineEnd, isLineEnd]

theorem not_mem_lineEnd {piece : List Char} (h : '\n' ∉ piece) : '\n' ∉ lineEnd piece := by
  intro hmem
  have hsub := (List.takeWhile_sublist isLineEnd).subset (List.mem_reverse.1 hmem)
  exact h (List.mem_reverse.1 hsub)

structure IsLines (cs : List Char) (lines : List (List Char)) : Prop where
  whole : lines.flatten = cs
  pieces : Pieces lines

theorem isLines_iff {cs : List Char} {lines : List (List Char)} :
    IsLines cs lines ↔ lines = linePieces cs := by
  constructor
  · intro h
    rw [← h.whole, h.pieces.linePieces_flatten]
  · rintro rfl
    exact ⟨flatten_linePieces cs, pieces_linePieces cs⟩

/-- Texts are put together line by line where the first one ends a line. -/
theorem linePieces_append {cs : List Char} (h : ∀ c ∈ cs.getLast?, c = '\n') (ds : List Char) :
    linePieces (cs ++ ds) = linePieces cs ++ linePieces ds := by
  rw [← flatten_linePieces cs] at h
  have hpieces := pieces_linePieces cs
  conv => lhs; rw [← flatten_linePieces cs]
  generalize linePieces cs = pieces at h hpieces
  induction hpieces with
  | nil => rfl
  | @last piece hne hpiece =>
      rw [List.flatten_singleton] at h
      exact absurd (h _ (List.getLast?_eq_some_getLast hne) ▸ List.getLast_mem hne) hpiece
  | @cons body rest hbody _ ih =>
      rw [List.flatten_cons, List.append_assoc, List.append_assoc, List.singleton_append,
        linePieces_line hbody, ih, List.cons_append]
      intro c hc
      refine h c ?_
      rw [List.flatten_cons, List.getLast?_append, hc]
      rfl

/-- A line loses its line feed, and a carriage return before that. -/
theorem dropTerminator_line (body : List Char) :
    dropTerminator (body ++ ['\n']) = body ∨
      ∃ front, body = front ++ ['\r'] ∧ dropTerminator (body ++ ['\n']) = front := by
  rcases List.eq_nil_or_concat body with rfl | ⟨front, c, rfl⟩
  · exact Or.inl rfl
  · rw [List.concat_eq_append]
    by_cases hc : c = '\r'
    · subst hc
      exact Or.inr ⟨front, rfl, by simp [dropTerminator]⟩
    · left
      simp [dropTerminator, hc]

theorem dropTerminator_of_not_mem {piece : List Char} (h : '\n' ∉ piece) :
    dropTerminator piece = piece := by
  have hback : '\n' ∉ piece.reverse := fun hmem => h (List.mem_reverse.1 hmem)
  unfold dropTerminator
  split
  · next heq => simp [heq] at hback
  · next heq => simp [heq] at hback
  · rfl

theorem lines_append {before : List Char} (h : ∀ c ∈ before.getLast?, c = '\n')
    (more : List Char) : lines (before ++ more) = lines before ++ lines more := by
  rw [lines, linePieces_append h, List.map_append]
  rfl

theorem lines_line {line : List Char} (h : '\n' ∉ line) (cs : List Char) :
    lines (line ++ '\n' :: cs) = dropTerminator (line ++ ['\n']) :: lines cs := by
  rw [lines, linePieces_line h, List.map_cons]
  rfl

theorem lines_last {line : List Char} (hne : line ≠ []) (h : '\n' ∉ line) :
    lines line = [line] := by
  rw [lines, linePieces_last hne h, List.map_singleton, dropTerminator_of_not_mem h]

theorem not_mem_of_mem_lines {cs line : List Char} (h : line ∈ lines cs) : '\n' ∉ line := by
  have hpieces := pieces_linePieces cs
  obtain ⟨piece, hmem, rfl⟩ := List.mem_map.1 h
  generalize linePieces cs = pieces at hpieces hmem
  induction hpieces with
  | nil => cases hmem
  | last _ hpiece =>
      rw [List.mem_singleton] at hmem
      rw [hmem, dropTerminator_of_not_mem hpiece]
      exact hpiece
  | @cons body rest hbody _ ih =>
      rcases List.mem_cons.1 hmem with rfl | hmem
      · rcases dropTerminator_line body with hd | ⟨front, rfl, hd⟩
        · rwa [hd]
        · rw [hd]
          exact fun hn => hbody (List.mem_append_left _ hn)
      · exact ih hmem

def EndsWith (line ending : List Char) : Prop :=
  ∃ body, line = body ++ ending ∧ (∀ c ∈ ending, c = '\n' ∨ c = '\r') ∧
    ∀ c ∈ body.getLast?, c ≠ '\n' ∧ c ≠ '\r'

theorem isLineEnd_iff {c : Char} : isLineEnd c = true ↔ c = '\n' ∨ c = '\r' := by
  simp [isLineEnd]

theorem endsWith_lineEnd (line : List Char) : EndsWith line (lineEnd line) := by
  refine ⟨(line.reverse.dropWhile isLineEnd).reverse, ?_, fun c hc => ?_, fun c hc => ?_⟩
  · rw [lineEnd, ← List.reverse_append, List.takeWhile_append_dropWhile, List.reverse_reverse]
  · exact isLineEnd_iff.1 (List.all_eq_true.1 List.all_takeWhile c (List.mem_reverse.1 hc))
  · rw [List.getLast?_reverse] at hc
    simpa [isLineEnd] using head?_dropWhile c hc

theorem EndsWith.eq_lineEnd {line ending : List Char} (h : EndsWith line ending) :
    lineEnd line = ending := by
  obtain ⟨body, rfl, hending, hbody⟩ := h
  rw [lineEnd, List.reverse_append, takeWhile_run, List.reverse_reverse]
  · exact fun c hc => isLineEnd_iff.2 (hending c (List.mem_reverse.1 hc))
  · intro c hc
    rw [List.head?_reverse] at hc
    simp [isLineEnd, hbody c hc]

def FirstToken (line word : List Char) : Prop :=
  ∃ lead rest, line = lead ++ word ++ rest ∧ word ≠ [] ∧ (∀ c ∈ lead, isBlank c = true) ∧
    (∀ c ∈ word, isBlank c = false) ∧ ∀ c ∈ rest.head?, isBlank c = true

theorem firstToken_iff {line word : List Char} :
    FirstToken line word ↔ word ≠ [] ∧ firstWord line = word := by
  constructor
  · rintro ⟨lead, rest, rfl, hne, hlead, hword, hrest⟩
    obtain ⟨c, more, rfl⟩ := List.exists_cons_of_ne_nil hne
    have hfirst : ((c :: more) ++ rest).dropWhile isBlank = (c :: more) ++ rest :=
      List.dropWhile_cons_of_neg (by simp [hword c])
    refine ⟨hne, ?_⟩
    rw [firstWord, List.append_assoc, List.dropWhile_append_of_pos hlead, hfirst, takeWhile_run]
    · simpa using hword
    · simpa using hrest
  · rintro ⟨hne, rfl⟩
    refine ⟨line.takeWhile isBlank, (line.dropWhile isBlank).dropWhile fun c => !isBlank c, ?_, hne,
      List.all_eq_true.1 List.all_takeWhile, fun c hc => ?_, fun c hc => ?_⟩
    · rw [firstWord, List.append_assoc, List.takeWhile_append_dropWhile,
        List.takeWhile_append_dropWhile]
    · simpa using List.all_eq_true.1 List.all_takeWhile c hc
    · simpa using head?_dropWhile c hc

structure Trims (line entry : List Char) : Prop where
  around : ∃ lead tail, line = lead ++ entry ++ tail ∧ (∀ c ∈ lead, isBlank c = true) ∧
    ∀ c ∈ tail, isBlank c = true
  first : ∀ c ∈ entry.head?, isBlank c = false
  last : ∀ c ∈ entry.getLast?, isBlank c = false

theorem dropWhile_eq_self {p : Char → Bool} {cs : List Char} (h : ∀ c ∈ cs.head?, p c = false) :
    cs.dropWhile p = cs := by
  cases cs with
  | nil => rfl
  | cons c cs => exact List.dropWhile_cons_of_neg (by simp [h c rfl])

theorem trims_iff {line entry : List Char} : Trims line entry ↔ trim line = entry := by
  constructor
  · rintro ⟨⟨lead, tail, rfl, hlead, htail⟩, hfirst, hlast⟩
    have hopen : ((lead ++ entry ++ tail).dropWhile isBlank).reverse.dropWhile isBlank =
        (entry.dropWhile isBlank).reverse.dropWhile isBlank := by
      rw [List.append_assoc, List.dropWhile_append_of_pos hlead]
      cases entry with
      | nil =>
          have hnone := @List.dropWhile_append_of_pos _ isBlank tail [] htail
          rw [List.append_nil] at hnone
          simp [hnone]
      | cons c entry =>
          have hkeep : ∀ more, (c :: (entry ++ more)).dropWhile isBlank = c :: (entry ++ more) :=
            fun more => List.dropWhile_cons_of_neg (by simp [hfirst c rfl])
          have hback : ∀ c ∈ tail.reverse, isBlank c = true :=
            fun c hc => htail c (List.mem_reverse.1 hc)
          have hempty := hkeep []
          rw [List.append_nil] at hempty
          rw [List.cons_append, hkeep tail, hempty, ← List.cons_append, List.reverse_append,
            List.dropWhile_append_of_pos hback]
    rw [trim, hopen, dropWhile_eq_self hfirst, dropWhile_eq_self, List.reverse_reverse]
    rw [List.head?_reverse]
    exact hlast
  · rintro rfl
    have hsplit : line.dropWhile isBlank =
        trim line ++ ((line.dropWhile isBlank).reverse.takeWhile isBlank).reverse := by
      rw [trim, ← List.reverse_append, List.takeWhile_append_dropWhile, List.reverse_reverse]
    refine ⟨⟨line.takeWhile isBlank, ((line.dropWhile isBlank).reverse.takeWhile isBlank).reverse,
      ?_, List.all_eq_true.1 List.all_takeWhile, fun c hc => ?_⟩, fun c hc => ?_, fun c hc => ?_⟩
    · rw [List.append_assoc, ← hsplit, List.takeWhile_append_dropWhile]
    · exact List.all_eq_true.1 List.all_takeWhile c (List.mem_reverse.1 hc)
    · have hfirst : c ∈ (line.dropWhile isBlank).head? := by
        rw [hsplit, List.head?_append, hc]
        rfl
      exact head?_dropWhile c hfirst
    · rw [trim, List.getLast?_reverse] at hc
      exact head?_dropWhile c hc

theorem mem_of_mem_trim {line : List Char} {c : Char} (h : c ∈ trim line) : c ∈ line := by
  have hopen := (List.dropWhile_sublist _).subset (List.mem_reverse.1 h)
  exact (List.dropWhile_sublist _).subset (List.mem_reverse.1 hopen)

theorem not_isDigit_of_isBlank {c : Char} (h : isBlank c = true) : c.isDigit = false := by
  cases hc : c.isDigit with
  | false => rfl
  | true =>
      have hrange : 48 ≤ c.toNat ∧ c.toNat ≤ 57 := by
        simpa [Char.isDigit, UInt32.le_iff_toNat_le] using hc
      simp [isBlank, blankRanges] at h
      omega

instance (line word : List Char) : Decidable (FirstToken line word) :=
  decidable_of_iff (word ≠ [] ∧ firstWord line = word) firstToken_iff.symm

end Text
end PointsTo
