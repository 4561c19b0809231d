import Mathlib.Algebra.Group.Nat.Defs
import PointsTo.Engine.Engine
import PointsTo.PathCount
import PointsTo.Proofs.Lines

/-!
The path count in what a process prints, said without the scan: the first place with
the label and a digit right after it, and all the digits there.
-/

namespace PointsTo
namespace PathCount

/-- After `before` stand the label and, right after it, `digits` and no further digit. -/
def CountsAt (text before digits : List Char) : Prop :=
  ∃ rest, text = before ++ label ++ digits ++ rest ∧ digits ≠ [] ∧
    (∀ c ∈ digits, c.isDigit = true) ∧ ∀ c ∈ rest.head?, c.isDigit = false

def FirstCount (text digits : List Char) : Prop :=
  ∃ before, CountsAt text before digits ∧
    ∀ before' digits', CountsAt text before' digits' → before.length ≤ before'.length

section CountsAt

variable {text before digits : List Char} {c : Char}

/-- The test that the scan makes at one place. -/
theorem countsAt_nil_iff : CountsAt text [] digits ↔
    label.isPrefixOf text = true ∧ digits ≠ [] ∧
      (text.drop label.length).takeWhile Char.isDigit = digits := by
  constructor
  · rintro ⟨rest, rfl, hne, hd, hr⟩
    refine ⟨by simp, hne, ?_⟩
    rw [List.nil_append, List.append_assoc, List.drop_left, Text.takeWhile_run hd hr]
  · rintro ⟨hlabel, hne, rfl⟩
    obtain ⟨rest, rfl⟩ := List.isPrefixOf_iff_prefix.1 hlabel
    rw [List.drop_left] at hne ⊢
    refine ⟨rest.dropWhile Char.isDigit, ?_, hne, List.all_eq_true.1 List.all_takeWhile,
      Text.head?_dropWhile⟩
    rw [List.nil_append, List.append_assoc, List.takeWhile_append_dropWhile]

theorem countsAt_cons_iff : CountsAt (c :: text) (c :: before) digits ↔
    CountsAt text before digits := by
  simp [CountsAt]

theorem not_countsAt_nil : ¬ CountsAt [] before digits := by
  rintro ⟨rest, h, hne, _⟩
  simp [hne] at h

theorem digits?_of_countsAt (h : CountsAt text [] digits) : digits? text = some digits := by
  obtain ⟨hlabel, hne, rfl⟩ := countsAt_nil_iff.1 h
  cases text with
  | nil => exact absurd h not_countsAt_nil
  | cons c cs => simp [digits?, hlabel, hne]

theorem digits?_cons (h : ∀ digits, ¬ CountsAt (c :: text) [] digits) :
    digits? (c :: text) = digits? text := by
  have hnot := h (((c :: text).drop label.length).takeWhile Char.isDigit)
  rw [countsAt_nil_iff] at hnot
  rw [digits?, if_neg]
  intro hif
  simp only [Bool.and_eq_true, Bool.not_eq_true', List.isEmpty_eq_false_iff] at hif
  exact hnot ⟨hif.1, hif.2, rfl⟩

end CountsAt

theorem digits?_eq_none {text : List Char} (h : ∀ before digits, ¬ CountsAt text before digits) :
    digits? text = none := by
  induction text with
  | nil => rfl
  | cons c text ih =>
      rw [digits?_cons (h [])]
      exact ih fun before digits hc => h (c :: before) digits (countsAt_cons_iff.2 hc)

theorem digits?_eq_some {text digits : List Char} (h : FirstCount text digits) :
    digits? text = some digits := by
  obtain ⟨before, hcount, hfirst⟩ := h
  induction before generalizing text with
  | nil => exact digits?_of_countsAt hcount
  | cons c before ih =>
      obtain ⟨rest, rfl, _⟩ := id hcount
      simp only [List.cons_append] at hcount hfirst ⊢
      rw [digits?_cons fun digits' h' => by simpa using hfirst [] digits' h']
      refine ih (countsAt_cons_iff.1 hcount) fun before' digits' h' => ?_
      simpa using hfirst (c :: before') digits' (countsAt_cons_iff.2 h')

theorem scan_absent {text : List Char} (h : ∀ before digits, ¬ CountsAt text before digits) :
    scan text = .ok .absent := by
  rw [scan, digits?_eq_none h]

theorem scan_found {text digits : List Char} {n : UInt64} (h : FirstCount text digits)
    (hn : Decimal.value digits = n.toNat) : scan text = .ok (.found n) := by
  rw [scan, digits?_eq_some h]
  have hword : Decimal.toWord? (Decimal.value digits) = some n := by
    rw [hn, Decimal.toWord?, dif_pos n.toNat_lt_size]
    simp
  simp [hword]

theorem scan_bound {text digits : List Char} (h : FirstCount text digits)
    (hn : 2 ^ 64 ≤ Decimal.value digits) :
    scan text = .error (.bound (String.ofList digits)) := by
  rw [scan, digits?_eq_some h]
  have hword : Decimal.toWord? (Decimal.value digits) = none :=
    dif_neg (Nat.not_lt.2 hn)
  simp [hword]

end PathCount

def Action.printed : Action → Bytes
  | .print _ data => data
  | _ => []

def Action.shown (mode : ErrorStream) : Action → Bytes
  | .print .out data => data
  | .print .err data => if mode = .merge then data else []
  | _ => []

namespace Response

def printed (r : Response) : Bytes :=
  r.actions.flatMap Action.printed

def shown (r : Response) (mode : ErrorStream) : Bytes :=
  r.actions.flatMap (Action.shown mode)

theorem shown_merge (r : Response) : r.shown .merge = r.printed := by
  have h : Action.shown .merge = Action.printed := by
    funext action
    cases action with
    | print stream data => cases stream <;> rfl
    | write path data | makeDirectory path | makeLink path target | remove path => rfl
  rw [shown, h, printed]

theorem collect_shown (mode : ErrorStream) (actions : List Action) (output errors : Bytes) :
    ∃ errors', (actions.filterMap Action.arrival?).foldl (Capture.step mode)
      ⟨output, errors, true, mode ≠ .discard⟩ =
      ⟨output ++ actions.flatMap (Action.shown mode), errors', true, mode ≠ .discard⟩ := by
  induction actions generalizing output errors with
  | nil => exact ⟨errors, by simp⟩
  | cons action actions ih =>
      cases action with
      | print stream data =>
          cases stream with
          | out => simpa [Action.arrival?, Action.shown, Capture.step] using ih (output ++ data) errors
          | err =>
              cases mode with
              | merge =>
                  simpa [Action.arrival?, Action.shown, Capture.step] using ih (output ++ data) errors
              | discard => simpa [Action.arrival?, Action.shown, Capture.step] using ih output errors
              | separate =>
                  simpa [Action.arrival?, Action.shown, Capture.step] using ih output (errors ++ data)
      | write path data | makeDirectory path | makeLink path target | remove path =>
          exact ih output errors

theorem output_finished (r : Response) (mode : ErrorStream) :
    (r.finished mode).output = r.shown mode := by
  obtain ⟨errors, h⟩ := collect_shown mode r.actions [] []
  have hstart : (r.actions.filterMap Action.arrival?).foldl (Capture.step mode) (.start mode) =
      ⟨r.shown mode, errors, true, mode ≠ .discard⟩ := h
  simp [finished, Capture.collect, arrivals, List.foldl_append, hstart, Capture.step]

/-- Merged streams show everything that was printed, in the order it was. -/
theorem output_merge (r : Response) : (r.finished .merge).output = r.printed := by
  rw [output_finished, shown_merge]

end Response
end PointsTo
