import PointsTo.Proofs.Calendar
import PointsTo.Proofs.Decimal

/-!
The reading of a time from its text, after RFC 3339, but with a sign before years that
need more than four digits and with a second 60 in every minute. What is written for a
time is read as that time, if it has a leap second at the end of a minute only.
-/

namespace PointsTo
namespace Timestamp

/-- A leap second comes at the end of a minute only. -/
def Proper (t : Timestamp) : Prop :=
  t.nanos < 1000000000 ∨ t.nanos < 2000000000 ∧ t.seconds % 60 = 59

instance (d : Date) : Decidable d.Valid := by
  unfold Date.Valid
  infer_instance

section Reader

def readDigits? (cs : List Char) : Option (Nat × List Char) :=
  let ds := cs.takeWhile Char.isDigit
  if 4 ≤ ds.length then some (Decimal.value ds, cs.dropWhile Char.isDigit) else none

def readYear? (cs : List Char) : Option (Int × List Char) :=
  if cs.head? = some '-' then (readDigits? cs.tail).map fun (n, rest) => (-(n : Int), rest)
  else if cs.head? = some '+' then (readDigits? cs.tail).map fun (n, rest) => ((n : Int), rest)
  else (readDigits? cs).map fun (n, rest) => ((n : Int), rest)

def readFraction? (cs : List Char) : Option Nat :=
  if cs = ['Z'] then some 0
  else
    let ds := cs.tail.takeWhile Char.isDigit
    if cs.head? = some '.' ∧ cs.tail.dropWhile Char.isDigit = ['Z'] ∧ 1 ≤ ds.length ∧ ds.length ≤ 9 then
      some (Decimal.value ds * 10 ^ (9 - ds.length))
    else none

/-- The time of a date and a clock. The second 60 is the leap second behind the second 59. -/
def ofParts? (date : Date) (hour minute second nanos : Nat) : Option Timestamp :=
  if date.Valid ∧ hour ≤ 23 ∧ minute ≤ 59 ∧ second ≤ 60 then
    let start := date.dayNumber * 86400 + hour * 3600 + minute * 60
    if second = 60 then some ⟨start + 59, 1000000000 + nanos⟩ else some ⟨start + second, nanos⟩
  else none

def read? (cs : List Char) : Option Timestamp := do
  let (year, rest) ← readYear? cs
  match rest with
  | '-' :: a :: b :: '-' :: c :: d :: 'T' :: e :: f :: ':' :: g :: h :: ':' :: i :: j :: rest =>
    let month ← Decimal.read? [a, b]
    let day ← Decimal.read? [c, d]
    let hour ← Decimal.read? [e, f]
    let minute ← Decimal.read? [g, h]
    let second ← Decimal.read? [i, j]
    let nanos ← readFraction? rest
    ofParts? ⟨year, month, day⟩ hour minute second nanos
  | _ => none

end Reader

section Padded

theorem toList_padded (width n : Nat) :
    (padded width n).toList =
      List.replicate (width - (Decimal.digits n).length) '0' ++ Decimal.digits n := by
  rw [padded, String.toList_ofList]
  rfl

theorem isDigit_of_mem_padded {width n : Nat} {c : Char} (h : c ∈ (padded width n).toList) :
    c.isDigit = true := by
  rw [toList_padded, List.mem_append] at h
  rcases h with h | h
  · rw [List.eq_of_mem_replicate h]
    decide
  · exact Decimal.isDigit_of_mem_digits h

theorem value_padded (width n : Nat) : Decimal.value (padded width n).toList = n := by
  rw [toList_padded, Decimal.value, Nat.ofDigitChars_append, Nat.ofDigitChars_replicate_zero,
    Nat.mul_zero]
  exact Decimal.value_digits n

theorem length_padded {width n : Nat} (hwidth : 0 < width) (hn : n < 10 ^ width) :
    (padded width n).toList.length = width := by
  have hle := (Nat.length_toDigits_le_iff (b := 10) (by decide) hwidth).2 hn
  rw [padded, String.toList_ofList, List.length_leftpad]
  exact Nat.max_eq_left hle

theorem le_length_padded (width n : Nat) : width ≤ (padded width n).toList.length := by
  rw [padded, String.toList_ofList, List.length_leftpad]
  exact Nat.le_max_left _ _

theorem padded_two {n : Nat} (hn : n < 100) :
    ∃ a b, (padded 2 n).toList = [a, b] ∧ Decimal.read? [a, b] = some n := by
  obtain ⟨a, b, hab⟩ : ∃ a b, (padded 2 n).toList = [a, b] := by
    have hlength : (padded 2 n).toList.length = 2 := length_padded (by decide) hn
    generalize (padded 2 n).toList = cs at hlength
    rcases cs with _ | ⟨a, _ | ⟨b, _ | _⟩⟩
    · cases hlength
    · cases hlength
    · exact ⟨a, b, rfl⟩
    · cases hlength
  refine ⟨a, b, hab, ?_⟩
  have hnumeral : Decimal.isNumeral [a, b] = true :=
    Decimal.isNumeral_iff.2 ⟨by simp, fun c hc => isDigit_of_mem_padded (hab ▸ hc)⟩
  rw [Decimal.read?, if_pos hnumeral, ← hab, value_padded]

end Padded

section Text

variable {rest : List Char}

theorem readDigits?_padded (n : Nat) (hrest : ∀ c ∈ rest.head?, c.isDigit = false) :
    readDigits? ((padded 4 n).toList ++ rest) = some (n, rest) := by
  obtain ⟨htake, hdrop⟩ := Decimal.span_isDigit (padded 4 n).toList rest
    (fun _ => isDigit_of_mem_padded) hrest
  simp only [readDigits?, htake, hdrop, value_padded, if_pos (le_length_padded 4 n)]

theorem head?_padded_ne (width n : Nat) {c : Char} (hwidth : 0 < width) (hc : c.isDigit = false) :
    ((padded width n).toList ++ rest).head? ≠ some c := by
  obtain ⟨d, ds, hds⟩ := List.exists_cons_of_length_pos
    (Nat.lt_of_lt_of_le hwidth (le_length_padded width n))
  have hd : d.isDigit = true := isDigit_of_mem_padded (by rw [hds]; exact List.mem_cons_self)
  rw [hds, List.cons_append, List.head?_cons]
  rintro ⟨rfl⟩
  simp [hd] at hc

theorem readYear?_yearText (year : Int) (hrest : ∀ c ∈ rest.head?, c.isDigit = false) :
    readYear? ((yearText year).toList ++ rest) = some (year, rest) := by
  have hread := readDigits?_padded year.natAbs hrest
  unfold yearText
  split
  · next h =>
    rw [readYear?, if_neg (head?_padded_ne 4 _ (by decide) (by decide)),
      if_neg (head?_padded_ne 4 _ (by decide) (by decide)), hread, Option.map_some]
    simp only [Int.natAbs_of_nonneg h.1]
  · next h =>
    split
    · next hneg =>
      have hyear : -(year.natAbs : Int) = year := by omega
      have hcons : ("-" ++ padded 4 year.natAbs).toList ++ rest =
          '-' :: ((padded 4 year.natAbs).toList ++ rest) := by
        simp
      rw [hcons, readYear?, List.head?_cons, if_pos rfl, List.tail_cons, hread, Option.map_some]
      simp only [hyear]
    · next hneg =>
      have hyear : (year.natAbs : Int) = year := by omega
      have hcons : ("+" ++ padded 4 year.natAbs).toList ++ rest =
          '+' :: ((padded 4 year.natAbs).toList ++ rest) := by
        simp
      rw [hcons, readYear?, List.head?_cons, if_neg (by decide), if_pos rfl, List.tail_cons, hread,
        Option.map_some]
      simp only [hyear]

theorem readFraction?_padded {width n : Nat} (hwidth : 0 < width ∧ width ≤ 9) (hn : n < 10 ^ width) :
    readFraction? (("." ++ padded width n).toList ++ ['Z']) = some (n * 10 ^ (9 - width)) := by
  obtain ⟨htake, hdrop⟩ := Decimal.span_isDigit (padded width n).toList ['Z']
    (fun _ => isDigit_of_mem_padded) fun c hc => by cases hc; rfl
  have hlength := length_padded hwidth.1 hn
  have hcons : ("." ++ padded width n).toList ++ ['Z'] = '.' :: ((padded width n).toList ++ ['Z']) := by
    simp
  rw [hcons, readFraction?, if_neg (by simp), List.tail_cons, htake, hdrop]
  simp only [hlength, value_padded]
  exact if_pos ⟨rfl, trivial, hwidth⟩

theorem readFraction?_fractionText {nanos : Nat} (h : nanos < 1000000000) :
    readFraction? ((fractionText nanos).toList ++ ['Z']) = some nanos := by
  unfold fractionText
  split
  · next h => rw [h]; rfl
  · split
    · next hmilli =>
      rw [readFraction?_padded (by decide) (by omega)]
      congr 1
      omega
    · split
      · next hmicro =>
        rw [readFraction?_padded (by decide) (by omega)]
        congr 1
        omega
      · rw [readFraction?_padded (by decide) (by omega), Nat.sub_self, Nat.pow_zero, Nat.mul_one]

/-- The leap second is read as such, and so is every other second. -/
theorem ofParts?_second {date : Date} {hour minute second nanos : Nat} {leap : Nat} (hdate : date.Valid)
    (hhour : hour ≤ 23) (hminute : minute ≤ 59) (hsecond : second ≤ 59)
    (hleap : leap = 0 ∨ leap = 1 ∧ second = 59) :
    ofParts? date hour minute (second + leap) nanos =
      some ⟨date.dayNumber * 86400 + hour * 3600 + minute * 60 + second, 1000000000 * leap + nanos⟩ := by
  rw [ofParts?, if_pos ⟨hdate, hhour, hminute, by omega⟩]
  rcases hleap with rfl | ⟨rfl, rfl⟩
  · simp only [if_neg (show second + 0 ≠ 60 by omega)]
    simp
  · rfl

theorem read?_text {t : Timestamp} (h : t.Proper) : read? t.text.toList = some t := by
  obtain ⟨seconds, nanos⟩ := t
  have hproper : nanos < 1000000000 ∨ nanos < 2000000000 ∧ seconds % 60 = 59 := h
  obtain ⟨hday, hvalid⟩ := dayNumber_dateOfDay (seconds / 86400)
  have hlength := monthLength_le (dateOfDay (seconds / 86400)).year (dateOfDay (seconds / 86400)).month
  obtain ⟨date, hdate⟩ : ∃ date, date = dateOfDay (seconds / 86400) := ⟨_, rfl⟩
  obtain ⟨clock, hclock⟩ : ∃ clock, clock = (seconds % 86400).toNat := ⟨_, rfl⟩
  obtain ⟨leap, hleap⟩ : ∃ leap, leap = if 1000000000 ≤ nanos then 1 else 0 := ⟨_, rfl⟩
  rw [← hdate] at hday hvalid hlength
  have hend : leap = 0 ∧ nanos < 1000000000 ∨
      leap = 1 ∧ clock % 60 = 59 ∧ 1000000000 ≤ nanos ∧ nanos < 2000000000 := by
    split at hleap <;> omega
  obtain ⟨⟨_, hmonths⟩, _, hdays⟩ := id hvalid
  obtain ⟨a, b, hab, hmonth⟩ := padded_two (n := date.month) (by omega)
  obtain ⟨c, d, hcd, hdom⟩ := padded_two (n := date.day) (by omega)
  obtain ⟨e, f, hef, hhour⟩ := padded_two (n := clock / 3600) (by omega)
  obtain ⟨g, h, hgh, hminute⟩ := padded_two (n := clock / 60 % 60) (by omega)
  obtain ⟨i, j, hij, hsecond⟩ := padded_two (n := clock % 60 + leap) (by omega)
  have htext : (text ⟨seconds, nanos⟩).toList = (yearText date.year).toList ++
      ('-' :: a :: b :: '-' :: c :: d :: 'T' :: e :: f :: ':' :: g :: h :: ':' :: i :: j ::
        ((fractionText (nanos % 1000000000)).toList ++ ['Z'])) := by
    simp only [text, ← hdate, ← hclock, ← hleap, String.toList_append, hab, hcd, hef, hgh, hij]
    simp
  rw [htext, read?, readYear?_yearText _ (by simp)]
  have hfraction := readFraction?_fractionText (Nat.mod_lt nanos (show 0 < 1000000000 by decide))
  simp only [hmonth, hdom, hhour, hminute, hsecond, hfraction, Option.bind_eq_bind, Option.bind_some]
  have hseconds : seconds / 86400 * 86400 + (clock / 3600 : Nat) * 3600 +
      (clock / 60 % 60 : Nat) * 60 + (clock % 60 : Nat) = seconds := by
    omega
  have hnanos : 1000000000 * leap + nanos % 1000000000 = nanos := by omega
  rw [ofParts?_second hvalid (by omega) (by omega) (by omega) (by omega), hday, hseconds, hnanos]

/-- Behind any other second than the last of a minute, a leap second has the text of the
second that follows. -/
theorem text_of_stray_leap {seconds : Int} {nanos : Nat} (hseconds : seconds % 60 ≠ 59)
    (hnanos : nanos < 1000000000) :
    text ⟨seconds, 1000000000 + nanos⟩ = text ⟨seconds + 1, nanos⟩ := by
  have hday : (seconds + 1) / 86400 = seconds / 86400 := by omega
  obtain ⟨clock, hclock⟩ : ∃ clock, clock = (seconds % 86400).toNat := ⟨_, rfl⟩
  have hnext : ((seconds + 1) % 86400).toNat = clock + 1 := by omega
  have hhour : (clock + 1) / 3600 = clock / 3600 := by omega
  have hminute : (clock + 1) / 60 % 60 = clock / 60 % 60 := by omega
  have hsecond : (clock + 1) % 60 = clock % 60 + 1 := by omega
  simp only [text, hday, ← hclock, hnext, hhour, hminute, hsecond, Nat.add_mod_left,
    if_pos (show 1000000000 ≤ 1000000000 + nanos by omega), if_neg (Nat.not_le.2 hnanos),
    Nat.add_zero]

end Text

end Timestamp
end PointsTo
