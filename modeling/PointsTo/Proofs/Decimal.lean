import PointsTo.Text.Decimal

/-!
Numerals and the words that they stand for. A word is written without leading zeros and
is read back from what is written; with leading zeros it is read as well.
-/

namespace PointsTo
namespace Decimal

variable {cs : List Char}

theorem isNumeral_iff : isNumeral cs = true ↔ cs ≠ [] ∧ ∀ c ∈ cs, c.isDigit = true := by
  simp [isNumeral]

theorem readWord?_of_head (h : cs.head? ≠ some '+') :
    readWord? cs = (read? cs).bind toWord? := by
  unfold readWord?
  split
  · exact absurd rfl h
  · rfl

/-- A numeral is read if its value is that of a word. -/
theorem word_eq_some_iff {n : UInt64} :
    (read? cs).bind toWord? = some n ↔ isNumeral cs = true ∧ value cs = n.toNat := by
  rw [Option.bind_eq_some_iff]
  constructor
  · rintro ⟨v, hread, hword⟩
    unfold read? at hread
    unfold toWord? at hword
    split at hread
    · next hnumeral =>
      cases hread
      split at hword
      · cases hword
        exact ⟨hnumeral, (UInt64.toNat_ofNatLT).symm⟩
      · cases hword
    · cases hread
  · rintro ⟨hnumeral, hvalue⟩
    refine ⟨value cs, by rw [read?, if_pos hnumeral], ?_⟩
    rw [hvalue, toWord?, dif_pos n.toNat_lt_size]
    simp

theorem head?_ne_of_isNumeral {c : Char} (h : isNumeral cs = true) (hc : c.isDigit = false) :
    cs.head? ≠ some c := by
  intro hhead
  have hdigit := (isNumeral_iff.1 h).2 c (List.mem_of_mem_head? hhead)
  simp [hc] at hdigit

/-- A plus sign is no digit, so it does not stand before a numeral's own digits. -/
theorem readWord?_eq_some_iff {n : UInt64} (h : isNumeral cs = true) :
    readWord? cs = some n ↔ value cs = n.toNat := by
  rw [readWord?_of_head (head?_ne_of_isNumeral h (by decide)), word_eq_some_iff]
  simp [h]

theorem digits_ne_nil (n : Nat) : digits n ≠ [] :=
  Nat.toDigits_ne_nil

theorem isDigit_of_mem_digits {n : Nat} {c : Char} (h : c ∈ digits n) : c.isDigit = true :=
  Nat.isDigit_of_mem_toDigits (by decide) (by decide) h

theorem exists_digits_eq_cons (n : Nat) : ∃ c cs, digits n = c :: cs ∧ c.isDigit = true := by
  obtain ⟨c, cs, hcs⟩ := List.exists_cons_of_ne_nil (digits_ne_nil n)
  exact ⟨c, cs, hcs, isDigit_of_mem_digits (by rw [hcs]; exact List.mem_cons_self)⟩

/-- A run of digits ends where something else stands. -/
theorem span_isDigit (ds rest : List Char) (hds : ∀ c ∈ ds, c.isDigit = true)
    (hrest : ∀ c ∈ rest.head?, c.isDigit = false) :
    (ds ++ rest).takeWhile Char.isDigit = ds ∧ (ds ++ rest).dropWhile Char.isDigit = rest := by
  rw [List.takeWhile_append_of_pos hds, List.dropWhile_append_of_pos hds]
  cases rest with
  | nil => simp
  | cons c rest => simp [hrest c rfl]

theorem isNumeral_digits (n : Nat) : isNumeral (digits n) = true :=
  isNumeral_iff.2 ⟨digits_ne_nil n, fun _ => isDigit_of_mem_digits⟩

/-- No leading zeros. -/
theorem head?_digits_ne_zero {n : Nat} (h : n ≠ 0) : (digits n).head? ≠ some '0' := by
  induction n using Nat.strongRecOn with
  | ind n ih =>
      by_cases hn : n < 10
      · have hdigit : ∀ m < 10, m ≠ 0 → (digits m).head? ≠ some '0' := by decide
        exact hdigit n hn h
      · have hhead := ih (n / 10) (by omega) (by omega)
        obtain ⟨c, cs, hcs⟩ := List.exists_cons_of_ne_nil (digits_ne_nil (n / 10))
        rw [hcs] at hhead
        rw [digits, Nat.toDigits_of_base_le (by decide) (by omega), ← digits, hcs]
        exact hhead

theorem readWord?_digits (n : UInt64) : readWord? (digits n.toNat) = some n :=
  (readWord?_eq_some_iff (isNumeral_digits n.toNat)).2 (value_digits n.toNat)

end Decimal
end PointsTo
