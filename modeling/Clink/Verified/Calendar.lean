import Mathlib.Tactic.IntervalCases

/-!
# The proleptic Gregorian calendar by eras

Years that begin in March, in eras of 400 years: 146097 days, numbered from 0.  A year of
an era begins at `yearStart`, a month of a year at `monthStart`; both have an inverse by
division, `yearOfEra` and `monthOfYear`.  The day that a leap year has more is the last of
its year.

That `yearOfEra` is right is read off the first and the last day of each year, as it is
monotone between them.
-/

namespace Clink.Verified.Calendar

/-! ## Years of an era -/

def isLeap (y : Int) : Bool := y % 4 = 0 ∧ (y % 100 ≠ 0 ∨ y % 400 = 0)

/-- The days of an era before its year `y`. -/
def yearStart (y : Nat) : Nat := y * 365 + y / 4 - y / 100

/-- The year `y` of an era ends with the February of the year after it. -/
def yearLength (y : Nat) : Nat := if isLeap (y + 1) then 366 else 365

def yearOfEra (doe : Nat) : Nat := (doe - doe / 1460 + doe / 36524 - doe / 146096) / 365

theorem yearStart_succ {y : Nat} (h : y < 399) :
    yearStart (y + 1) = yearStart y + yearLength y := by
  unfold yearStart yearLength isLeap
  split
  · rename_i hleap
    simp only [decide_eq_true_eq] at hleap
    omega
  · rename_i hplain
    simp only [decide_eq_true_eq] at hplain
    omega

theorem yearLength_le (y : Nat) : 365 ≤ yearLength y ∧ yearLength y ≤ 366 := by
  unfold yearLength
  split <;> omega

private theorem ends_of_years : ∀ y < 400, yearOfEra (yearStart y) = y ∧
    yearOfEra (yearStart y + (yearLength y - 1)) = y := by
  decide +kernel

theorem yearOfEra_mono : Monotone yearOfEra := by
  have hstep : Monotone fun doe => doe - doe / 1460 + doe / 36524 - doe / 146096 := by
    refine monotone_nat_of_le_succ fun n => ?_
    omega
  exact fun a b hle => Nat.div_le_div_right (hstep hle)

theorem yearOfEra_eq {y doy : Nat} (hy : y < 400) (h : doy < yearLength y) :
    yearOfEra (yearStart y + doy) = y := by
  obtain ⟨hfirst, hlast⟩ := ends_of_years y hy
  have hlow := yearOfEra_mono (show yearStart y ≤ yearStart y + doy by omega)
  have hhigh := yearOfEra_mono (show yearStart y + doy ≤ yearStart y + (yearLength y - 1) by omega)
  omega

theorem exists_year {n doe : Nat} (hn : n < 400) (h : doe < yearStart n + yearLength n) :
    ∃ y ≤ n, yearStart y ≤ doe ∧ doe < yearStart y + yearLength y := by
  induction n with
  | zero => exact ⟨0, le_rfl, Nat.zero_le _, h⟩
  | succ n ih =>
      by_cases hlater : yearStart (n + 1) ≤ doe
      · exact ⟨n + 1, le_rfl, hlater, h⟩
      · have hearly : doe < yearStart n + yearLength n := by
          rw [← yearStart_succ (by omega)]
          omega
        obtain ⟨y, hle, hinside⟩ := ih (by omega) hearly
        exact ⟨y, by omega, hinside⟩

theorem yearOfEra_spec {doe : Nat} (h : doe < 146097) :
    yearOfEra doe < 400 ∧ yearStart (yearOfEra doe) ≤ doe ∧
      doe < yearStart (yearOfEra doe) + yearLength (yearOfEra doe) := by
  have hwhole : yearStart 399 + yearLength 399 = 146097 := by decide
  obtain ⟨y, hle, hlow, hhigh⟩ := exists_year (show 399 < 400 by omega)
    (show doe < yearStart 399 + yearLength 399 by omega)
  have heq : yearOfEra doe = y := by
    have hinside := yearOfEra_eq (show y < 400 by omega)
      (show doe - yearStart y < yearLength y by omega)
    rwa [Nat.add_sub_cancel' hlow] at hinside
  rw [heq]
  exact ⟨by omega, hlow, hhigh⟩

theorem yearStart_add_lt {y doy : Nat} (hy : y < 400) (h : doy < yearLength y) :
    yearStart y + doy < 146097 := by
  have hbounds : ∀ y < 400, yearStart y + yearLength y ≤ 146097 := by decide +kernel
  have hbound := hbounds y hy
  omega

/-! ## Months of a year -/

/-- The days of a year before its month `mp`, March being 0. -/
def monthStart (mp : Nat) : Nat := (153 * mp + 2) / 5

def monthOfYear (doy : Nat) : Nat := (5 * doy + 2) / 153

/-- The days of a month that begins `mp` months after March, of February in a leap year. -/
def monthSpan (mp : Nat) : Nat := if mp = 11 then 29 else monthStart (mp + 1) - monthStart mp

theorem monthOfYear_eq {mp d : Nat} (hmp : mp < 12) (h : d < monthSpan mp) :
    monthOfYear (monthStart mp + d) = mp := by
  have hall : ∀ mp < 12, ∀ d < monthSpan mp, monthOfYear (monthStart mp + d) = mp := by
    decide +kernel
  exact hall mp hmp d h

theorem monthOfYear_spec {doy : Nat} (h : doy < 366) :
    monthOfYear doy < 12 ∧ monthStart (monthOfYear doy) ≤ doy ∧
      doy - monthStart (monthOfYear doy) < monthSpan (monthOfYear doy) := by
  have hall : ∀ doy < 366, monthOfYear doy < 12 ∧ monthStart (monthOfYear doy) ≤ doy ∧
      doy - monthStart (monthOfYear doy) < monthSpan (monthOfYear doy) := by decide +kernel
  exact hall doy h

/-! ## Dates -/

def daysInMonth (y : Int) (m : Nat) : Nat :=
  match m with
  | 2 => if isLeap y then 29 else 28
  | 4 | 6 | 9 | 11 => 30
  | _ => 31

/-- A date of the calendar. -/
def RealDate (y : Int) (m d : Nat) : Prop :=
  1 ≤ m ∧ m ≤ 12 ∧ 1 ≤ d ∧ d ≤ daysInMonth y m

instance (y : Int) (m d : Nat) : Decidable (RealDate y m d) :=
  inferInstanceAs (Decidable (_ ∧ _))

/-- The months after March of a month. -/
def sinceMarch (m : Nat) : Nat := if 2 < m then m - 3 else m + 9

/-- The month that begins so many months after March. -/
def ofMarch (mp : Nat) : Nat := if mp < 10 then mp + 3 else mp - 9

theorem isLeap_emod (y : Int) : isLeap (y % 400 + 1) = isLeap (y + 1) := by
  unfold isLeap
  congr 1
  simp only [eq_iff_iff]
  omega

/-- A year begins where the one before it, of a leap February or not, has ended. -/
theorem yearStart_pred (y : Int) :
    y / 400 * 146097 + yearStart (y % 400).toNat =
      (y - 1) / 400 * 146097 + yearStart ((y - 1) % 400).toNat +
        (if isLeap y then 366 else 365 : Nat) := by
  by_cases hfirst : y % 400 = 0
  · -- the last year of the era before is a leap year
    have hleap : isLeap y = true := by
      unfold isLeap
      rw [decide_eq_true_iff]
      omega
    have hzero : (y % 400).toNat = 0 := by omega
    have hlast : ((y - 1) % 400).toNat = 399 := by omega
    have hbegins : yearStart 0 = 0 ∧ yearStart 399 = 145731 := by decide
    rw [hleap, if_pos rfl, hzero, hlast, hbegins.1, hbegins.2]
    omega
  · have hnext : (y % 400).toNat = ((y - 1) % 400).toNat + 1 := by omega
    have hyear : (((y - 1) % 400).toNat : Int) = (y - 1) % 400 := by omega
    have hlength : yearLength ((y - 1) % 400).toNat = if isLeap y then 366 else 365 := by
      unfold yearLength
      rw [hyear, isLeap_emod, Int.sub_add_cancel]
    rw [hnext, yearStart_succ (by omega), hlength]
    omega

/-- A date has its place in the year of its era, and no other date has it. -/
theorem realDate_iff {y : Int} {m d : Nat} (hm : 1 ≤ m ∧ m ≤ 12) (hd : 1 ≤ d) :
    RealDate y m d ↔ d - 1 < monthSpan (sinceMarch m) ∧
      monthStart (sinceMarch m) + (d - 1) <
        yearLength (((y - if m ≤ 2 then 1 else 0) % 400).toNat) := by
  obtain ⟨hlow, hhigh⟩ := hm
  have hyear : (((y - if m ≤ 2 then 1 else 0) % 400).toNat : Int) =
      (y - if m ≤ 2 then 1 else 0) % 400 := Int.toNat_of_nonneg (by omega)
  have hlength : yearLength (((y - if m ≤ 2 then 1 else 0) % 400).toNat) =
      if isLeap (y - (if m ≤ 2 then 1 else 0) + 1) then 366 else 365 := by
    unfold yearLength
    rw [hyear, isLeap_emod]
  rw [hlength]
  unfold RealDate
  by_cases hfebruary : m = 2
  · subst hfebruary
    have hspan : monthSpan (sinceMarch 2) = 29 := rfl
    have hstart : monthStart (sinceMarch 2) = 337 := rfl
    rw [hspan, hstart]
    simp only [daysInMonth, le_refl, if_true, Int.sub_add_cancel]
    split <;> omega
  · -- every other month ends before the day that a leap year has more
    have hspan : daysInMonth y m = monthSpan (sinceMarch m) := by
      interval_cases m <;> first | rfl | contradiction
    have hfits : monthStart (sinceMarch m) + monthSpan (sinceMarch m) ≤ 337 := by
      interval_cases m <;> first | decide | contradiction
    rw [hspan]
    generalize isLeap _ = leap
    cases leap <;> simp only [if_true, Bool.false_eq_true, if_false] <;> omega

end Clink.Verified.Calendar
