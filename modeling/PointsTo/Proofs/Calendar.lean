import Mathlib.Algebra.GroupWithZero.Nat
import PointsTo.Timestamp

/-!
The Gregorian calendar, by leap years and lengths of months, and the dates that are found
for days: each is a date of the calendar, and it is the date of that day.
-/

namespace PointsTo
namespace Timestamp

def isLeap (year : Int) : Bool :=
  year % 4 = 0 && (year % 100 ≠ 0 || year % 400 = 0)

def monthLength (year : Int) (month : Nat) : Nat :=
  if month = 2 then if isLeap year then 29 else 28
  else if [4, 6, 9, 11].contains month then 30
  else 31

theorem monthLength_le (year : Int) (month : Nat) : monthLength year month ≤ 31 := by
  unfold monthLength
  split
  · split <;> decide
  · split <;> decide

def daysBeforeMonth (year : Int) (month : Nat) : Nat :=
  ((List.range' 1 (month - 1)).map (monthLength year)).sum

/-- The days from the first day of year 0 to that of a year: every fourth year has a day
more, but not every hundredth, and yet every four hundredth. -/
def daysBeforeYear (year : Int) : Int :=
  365 * year + (year + 3) / 4 - (year + 99) / 100 + (year + 399) / 400

theorem daysBeforeYear_succ (year : Int) :
    daysBeforeYear (year + 1) = daysBeforeYear year + if isLeap year then 366 else 365 := by
  unfold daysBeforeYear
  cases h : isLeap year <;> simp [isLeap] at h ⊢ <;> omega

namespace Date

def Valid (d : Date) : Prop :=
  (1 ≤ d.month ∧ d.month ≤ 12) ∧ 1 ≤ d.day ∧ d.day ≤ monthLength d.year d.month

def dayNumber (d : Date) : Int :=
  daysBeforeYear d.year - daysBeforeYear 1970 + daysBeforeMonth d.year d.month + d.day - 1

end Date

/-- The days of an era before one of its years, where years start in March. -/
def daysBeforeYearOfEra (year : Nat) : Nat :=
  365 * year + year / 4 - year / 100

def yearOfEra (dayOfEra : Nat) : Nat :=
  (dayOfEra - dayOfEra / 1460 + dayOfEra / 36524 - dayOfEra / 146096) / 365

theorem yearOfEra_spec {e : Nat} (he : e < 146097) :
    yearOfEra e < 400 ∧ daysBeforeYearOfEra (yearOfEra e) ≤ e ∧
      e ≤ daysBeforeYearOfEra (yearOfEra e) + 365 ∧
      (e = daysBeforeYearOfEra (yearOfEra e) + 365 → (yearOfEra e + 1) % 4 = 0 ∧
        ((yearOfEra e + 1) % 100 ≠ 0 ∨ yearOfEra e + 1 = 400)) := by
  by_cases hlast : e = 146096
  · subst hlast
    decide
  · -- Whole centuries first, then whole groups of four years. The last day of four years is
    -- the one where the two quotients part.
    obtain ⟨c, r, hr, rfl⟩ : ∃ c r, r < 36524 ∧ e = 36524 * c + r :=
      ⟨e / 36524, e % 36524, by omega, by omega⟩
    obtain ⟨q, s, hs, rfl⟩ : ∃ q s, s < 1461 ∧ r = 1461 * q + s :=
      ⟨r / 1461, r % 1461, by omega, by omega⟩
    have hcentury : (36524 * c + (1461 * q + s)) / 36524 = c := by omega
    have hzero : (36524 * c + (1461 * q + s)) / 146096 = 0 := by omega
    have hfour : (36524 * c + (1461 * q + s)) / 1460 = 25 * c + q ∧ s < 1460 ∨
        (36524 * c + (1461 * q + s)) / 1460 = 25 * c + q + 1 ∧ 1095 < s := by
      omega
    obtain ⟨y, hy⟩ : ∃ y, y = yearOfEra (36524 * c + (1461 * q + s)) := ⟨_, rfl⟩
    obtain ⟨t, rfl, ht, hlow, hhigh, hend⟩ : ∃ t, y = 100 * c + 4 * q + t ∧ t < 4 ∧ 365 * t ≤ s ∧
        s ≤ 365 * t + 365 ∧ (s = 365 * t + 365 → t = 3) := by
      refine ⟨y - 100 * c - 4 * q, ?_⟩
      rw [yearOfEra, hcentury, hzero] at hy
      rcases hfour with ⟨hfour, hlt⟩ | ⟨hfour, hlt⟩
      · rw [hfour] at hy
        omega
      · rw [hfour] at hy
        omega
    have hquarter : (100 * c + 4 * q + t) / 4 = 25 * c + q := by omega
    have hhundredth : (100 * c + 4 * q + t) / 100 = c := by omega
    rw [← hy, daysBeforeYearOfEra, hquarter, hhundredth]
    refine ⟨by omega, by omega, by omega, fun heq => ?_⟩
    have ht3 : t = 3 := hend (by omega)
    omega

/-- The months from March on have the same lengths in every year. -/
theorem monthLength_march (year : Int) {s : Nat} (hs : s < 10) :
    monthLength year (s + 3) = (153 * (s + 1) + 2) / 5 - (153 * s + 2) / 5 := by
  have hall : ∀ s < 10, (if [4, 6, 9, 11].contains (s + 3) then 30 else 31) =
      (153 * (s + 1) + 2) / 5 - (153 * s + 2) / 5 := by
    decide
  rw [monthLength, if_neg (by omega), hall s hs]

theorem daysBeforeMonth_succ (year : Int) (month : Nat) :
    daysBeforeMonth year (month + 2) =
      daysBeforeMonth year (month + 1) + monthLength year (month + 1) := by
  simp [daysBeforeMonth, List.range'_concat, Nat.add_comm]

theorem daysBeforeMonth_march (year : Int) {s : Nat} (hs : s < 10) :
    daysBeforeMonth year (s + 3) =
      (153 * s + 2) / 5 + 59 + if isLeap year then 1 else 0 := by
  induction s with
  | zero => cases h : isLeap year <;> simp [daysBeforeMonth, monthLength, h, List.range']
  | succ s ih =>
      rw [daysBeforeMonth_succ year (s + 2), ih (by omega), monthLength_march year (by omega)]
      omega

def daysBeforeMarch (year : Int) : Int :=
  365 * year + year / 4 - year / 100 + year / 400 + 60

theorem daysBeforeYear_add_leap (year : Int) :
    daysBeforeYear year + 59 + (if isLeap year then 1 else 0) = daysBeforeMarch year := by
  unfold daysBeforeYear daysBeforeMarch
  cases h : isLeap year <;> simp [isLeap] at h ⊢ <;> omega

theorem daysBeforeYear_succ_eq (year : Int) :
    daysBeforeYear (year + 1) = daysBeforeMarch year + 306 := by
  rw [daysBeforeYear_succ, ← daysBeforeYear_add_leap]
  split <;> omega

def dateFromMarch (year : Int) (day : Nat) : Date :=
  let shifted := (5 * day + 2) / 153
  let month := if shifted < 10 then shifted + 3 else shifted - 9
  ⟨if month ≤ 2 then year + 1 else year, month, day - (153 * shifted + 2) / 5 + 1⟩

theorem dayNumber_dateFromMarch (year : Int) {d : Nat} (hd : d ≤ 365)
    (hleap : d = 365 → isLeap (year + 1) = true) :
    (dateFromMarch year d).dayNumber = daysBeforeMarch year - daysBeforeYear 1970 + d ∧
      (dateFromMarch year d).Valid := by
  obtain ⟨s, hs⟩ : ∃ s, s = (5 * d + 2) / 153 := ⟨_, rfl⟩
  by_cases hmarch : s < 10
  · have hdate : dateFromMarch year d = ⟨year, s + 3, d - (153 * s + 2) / 5 + 1⟩ := by
      rw [dateFromMarch, ← hs]
      simp [hmarch]
    have hmonth := daysBeforeMonth_march year hmarch
    have hlength := monthLength_march year hmarch
    have hyear := daysBeforeYear_add_leap year
    rw [hdate, Date.dayNumber, Date.Valid]
    dsimp only
    rw [hmonth, hlength, ← hyear]
    constructor
    · split <;> omega
    · omega
  · have hdate : dateFromMarch year d = ⟨year + 1, s - 9, d - (153 * s + 2) / 5 + 1⟩ := by
      rw [dateFromMarch, ← hs]
      simp only [if_neg hmarch]
      rw [if_pos (by omega)]
    rw [hdate, Date.dayNumber, Date.Valid]
    dsimp only
    rw [daysBeforeYear_succ_eq]
    rcases (by omega : s = 10 ∨ s = 11) with rfl | rfl
    · have hmonth : daysBeforeMonth (year + 1) (10 - 9) = 0 := rfl
      have hlength : monthLength (year + 1) (10 - 9) = 31 := rfl
      rw [hmonth, hlength]
      omega
    · have hmonth : daysBeforeMonth (year + 1) (11 - 9) = 31 := rfl
      have hlength : monthLength (year + 1) (11 - 9) = if isLeap (year + 1) then 29 else 28 := rfl
      rw [hmonth, hlength]
      split
      · omega
      · next h =>
        have hne : d ≠ 365 := fun heq => h (hleap heq)
        omega

theorem dateOfDay_eq (era : Int) {e : Nat} (he : e < 146097) :
    dateOfDay (146097 * era + e - 719468) =
      dateFromMarch (era * 400 + yearOfEra e) (e - daysBeforeYearOfEra (yearOfEra e)) := by
  have hera : (146097 * era + e - 719468 + 719468) / 146097 = era := by omega
  have hday : ((146097 * era + e - 719468 + 719468) % 146097).toNat = e := by omega
  rw [dateOfDay, hera, hday]
  rfl

theorem dayNumber_dateOfDay (n : Int) : (dateOfDay n).dayNumber = n ∧ (dateOfDay n).Valid := by
  obtain ⟨era, e, he, rfl⟩ : ∃ (era : Int) (e : Nat), e < 146097 ∧ n = 146097 * era + e - 719468 :=
    ⟨(n + 719468) / 146097, ((n + 719468) % 146097).toNat, by omega, by omega⟩
  obtain ⟨hyear, hle, hge, hleap⟩ := yearOfEra_spec he
  rw [dateOfDay_eq era he]
  obtain ⟨hnumber, hvalid⟩ := dayNumber_dateFromMarch (era * 400 + yearOfEra e)
    (d := e - daysBeforeYearOfEra (yearOfEra e)) (by omega) fun heq => by
      have := hleap (by omega)
      simp [isLeap]
      omega
  refine ⟨?_, hvalid⟩
  have hfour : (era * 400 + yearOfEra e) / 4 = 100 * era + (yearOfEra e / 4 : Nat) := by omega
  have hhundred : (era * 400 + yearOfEra e) / 100 = 4 * era + (yearOfEra e / 100 : Nat) := by omega
  have hera : (era * 400 + yearOfEra e) / 400 = era := by omega
  have hepoch : daysBeforeYear 1970 = 719528 := by decide
  rw [hnumber, daysBeforeMarch, hfour, hhundred, hera, hepoch]
  unfold daysBeforeYearOfEra at *
  omega

end Timestamp
end PointsTo
