import Mathlib.Data.List.Forall2
import PointsTo.Domains
import PointsTo.Proofs.Decimal
import PointsTo.Proofs.Lines

/-!
Giving the context domain a size, line by line: which lines of a domain file change, what
they become, and why a second size replaces the first one.
-/

namespace PointsTo
namespace Domains

open Text

theorem not_mem_setLine (bound : UInt64) :
    '\n' ∉ contextTag ++ [' '] ++ Decimal.digits bound.toNat := by
  have hdigits : '\n' ∉ Decimal.digits bound.toNat := fun h =>
    absurd (Decimal.isDigit_of_mem_digits h) (by decide)
  simp [contextTag, hdigits]

/-- Lines stay lines when sizes are set. -/
theorem pieces_patch (bound : UInt64) {pieces : List (List Char)} (h : Pieces pieces) :
    Pieces (pieces.map (patchLine bound)) := by
  have hset := not_mem_setLine bound
  induction h with
  | nil => exact .nil
  | last hne hpiece =>
      rw [List.map_singleton]
      unfold patchLine contextLine
      split
      · refine .last (by simp [contextTag]) ?_
        rw [List.mem_append, not_or]
        exact ⟨hset, not_mem_lineEnd hpiece⟩
      · exact .last hne hpiece
  | @cons body rest hbody _ ih =>
      rw [List.map_cons]
      unfold patchLine contextLine
      split
      · rw [lineEnd_line, ← List.append_assoc]
        refine .cons ?_ ih
        rw [List.mem_append, not_or]
        exact ⟨hset, not_mem_lineEnd hbody⟩
      · exact .cons hbody ih

theorem linePieces_patch (bound : UInt64) (text : String) :
    linePieces (patch bound text).toList = (linePieces text.toList).map (patchLine bound) := by
  rw [patch, String.toList_ofList, patchChars, List.flatMap_def]
  exact (pieces_patch bound (pieces_linePieces _)).linePieces_flatten

/-- The lines of the two texts are the same, but for those of the context domain. -/
def SameLines (old new : String) : Prop :=
  List.Forall₂ (fun o n => isContextLine o = false → n = o) (linePieces old.toList)
    (linePieces new.toList)

theorem sameLines_patch (bound : UInt64) (text : String) : SameLines text (patch bound text) := by
  unfold SameLines
  rw [linePieces_patch, List.forall₂_map_right_iff, List.forall₂_same]
  intro piece _ hpiece
  simp [patchLine, hpiece]

theorem SameLines.trans {a b c : String} (h : SameLines a b) (h' : SameLines b c) :
    SameLines a c := by
  unfold SameLines at *
  generalize linePieces a.toList = as at *
  generalize linePieces b.toList = bs at *
  generalize linePieces c.toList = cs at *
  induction h generalizing cs with
  | nil => exact h'
  | cons hab _ ih =>
      cases h' with
      | cons hbc hrest =>
          refine .cons (fun ho => ?_) (ih _ hrest)
          obtain rfl := hab ho
          exact hbc ho

theorem isContextLine_iff {line : List Char} :
    isContextLine line = true ↔ FirstToken line ['V', 'C'] := by
  rw [isContextLine, decide_eq_true_iff, firstToken_iff, contextTag]
  exact ⟨fun h => ⟨nofun, h⟩, And.right⟩

theorem firstToken_contextLine (bound : UInt64) (line : List Char) :
    FirstToken (contextLine bound line) ['V', 'C'] := by
  refine ⟨[], [' '] ++ Decimal.digits bound.toNat ++ lineEnd line, ?_, nofun, nofun, ?_, ?_⟩
  · simp [contextLine, contextTag]
  · exact List.forall_mem_cons.2 ⟨by decide, List.forall_mem_singleton.2 (by decide)⟩
  · rintro c ⟨⟩
    decide

/-- A numeral is never empty and ends in a digit, so that nothing is added to the line end. -/
theorem lineEnd_contextLine (bound : UInt64) (line : List Char) :
    lineEnd (contextLine bound line) = lineEnd line := by
  obtain ⟨_, _, hending, _⟩ := endsWith_lineEnd line
  refine EndsWith.eq_lineEnd ⟨contextTag ++ [' '] ++ Decimal.digits bound.toNat, rfl, hending, ?_⟩
  intro c hc
  rw [List.getLast?_append_of_ne_nil _ (Decimal.digits_ne_nil _)] at hc
  have hdigit := Decimal.isDigit_of_mem_digits (List.mem_of_getLast? hc)
  constructor <;> rintro rfl <;> exact absurd hdigit (by decide)

theorem isContextLine_patchLine (bound : UInt64) (line : List Char) :
    isContextLine (patchLine bound line) = isContextLine line := by
  unfold patchLine
  split
  · next h => rw [h, isContextLine_iff.2 (firstToken_contextLine bound line)]
  · rfl

theorem patchLine_patchLine (a b : UInt64) (line : List Char) :
    patchLine b (patchLine a line) = patchLine b line := by
  conv => lhs; rw [patchLine, isContextLine_patchLine]
  conv => rhs; rw [patchLine]
  split
  · next h => rw [patchLine, if_pos h, contextLine, lineEnd_contextLine, contextLine]
  · next h => rw [patchLine, if_neg h]

/-- What a line becomes when the context domain is given a size. -/
structure Resized (bound : UInt64) (old new : List Char) : Prop where
  other : ¬FirstToken old ['V', 'C'] → new = old
  context : FirstToken old ['V', 'C'] → ∃ numeral ending,
    new = ['V', 'C', ' '] ++ numeral ++ ending ∧ numeral = Decimal.digits bound.toNat ∧
    Decimal.readWord? numeral = some bound ∧ EndsWith old ending
  again : FirstToken new ['V', 'C'] ↔ FirstToken old ['V', 'C']

theorem resized_patchLine (bound : UInt64) (line : List Char) :
    Resized bound line (patchLine bound line) where
  other h := if_neg fun h' => h (isContextLine_iff.1 h')
  context h := by
    refine ⟨Decimal.digits bound.toNat, lineEnd line, ?_, rfl, Decimal.readWord?_digits bound,
      endsWith_lineEnd line⟩
    rw [patchLine, if_pos (isContextLine_iff.2 h), contextLine, contextTag]
    rfl
  again := by rw [← isContextLine_iff, ← isContextLine_iff, isContextLine_patchLine]

/-- Line by line, exactly the lines of the context domain are set, and they are the ones
counted. -/
theorem patch_resizes_context_lines (bound : UInt64) (text : String) :
    ∃ old new, (∀ lines, IsLines text.toList lines ↔ lines = old) ∧
      (∀ lines, IsLines (patch bound text).toList lines ↔ lines = new) ∧
      new.length = old.length ∧ List.Forall₂ (Resized bound) old new ∧
      contextLines text = old.countP fun line => FirstToken line ['V', 'C'] := by
  refine ⟨linePieces text.toList, linePieces (patch bound text).toList, fun _ => isLines_iff,
    fun _ => isLines_iff, ?_, ?_, ?_⟩
  · rw [linePieces_patch, List.length_map]
  · rw [linePieces_patch, List.forall₂_map_right_iff, List.forall₂_same]
    exact fun line _ => resized_patchLine bound line
  · refine List.countP_congr fun line _ => ?_
    rw [isContextLine_iff, decide_eq_true_iff]

theorem patch_patch (a b : UInt64) (text : String) : patch b (patch a text) = patch b text := by
  rw [patch, patchChars, linePieces_patch, List.flatMap_map, patch, patchChars]
  simp only [patchLine_patchLine]

theorem contextLines_patch (bound : UInt64) (text : String) :
    contextLines (patch bound text) = contextLines text := by
  rw [contextLines, linePieces_patch, List.countP_map, contextLines]
  exact List.countP_congr fun line _ => by rw [Function.comp_apply, isContextLine_patchLine]

section Append

variable {t₁ : String} (h : ∀ c ∈ t₁.toList.getLast?, c = '\n') (t₂ : String)
include h

theorem patch_append (bound : UInt64) :
    patch bound (t₁ ++ t₂) = patch bound t₁ ++ patch bound t₂ := by
  rw [patch, patchChars, String.toList_append, linePieces_append h, List.flatMap_append,
    String.ofList_append]
  rfl

theorem contextLines_append : contextLines (t₁ ++ t₂) = contextLines t₁ + contextLines t₂ := by
  rw [contextLines, String.toList_append, linePieces_append h, List.countP_append]
  rfl

end Append

/-- A later size replaces an earlier one, and a text may be cut at the end of a line and
set in parts. -/
theorem patch_absorbs_and_concatenates (a b : UInt64) :
    (∀ text, patch b (patch a text) = patch b text ∧
      contextLines (patch a text) = contextLines text) ∧
    (∀ text, patch a (patch a text) = patch a text) ∧
    ∀ t₁ t₂ : String, t₁ = "" ∨ t₁.toList.getLast? = some '\n' →
      patch a (t₁ ++ t₂) = patch a t₁ ++ patch a t₂ ∧
      contextLines (t₁ ++ t₂) = contextLines t₁ + contextLines t₂ := by
  refine ⟨fun text => ⟨patch_patch a b text, contextLines_patch a text⟩, patch_patch a a, ?_⟩
  intro t₁ t₂ ht
  have hlast : ∀ c ∈ t₁.toList.getLast?, c = '\n' := by
    rcases ht with rfl | ht
    · simp
    · simp [ht]
  exact ⟨patch_append hlast t₂ a, contextLines_append hlast t₂⟩

theorem patch_in_parts :
    patch 7 ("V 2\nVC 1\r\n" ++ "VC") = patch 7 "V 2\nVC 1\r\n" ++ patch 7 "VC" ∧
      contextLines ("V 2\nVC 1\r\n" ++ "VC") =
        contextLines "V 2\nVC 1\r\n" + contextLines "VC" :=
  (patch_absorbs_and_concatenates 7 0).2.2 "V 2\nVC 1\r\n" "VC" (.inr (by decide))

end Domains
end PointsTo
