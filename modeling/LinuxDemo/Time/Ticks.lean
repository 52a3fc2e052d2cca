import Mathlib.Data.Rat.Floor
import LinuxDemo.Time.Timespec

/-!
# Milliseconds of a time

`timespec2MS` of `time/posix/ticks/main.c` and `timer/linux/main.c` rounds a time to the nearest
millisecond. `costTimeTest` of the former prints the CPU time of the process with it, and once more
from `clock`, whose microseconds it multiplies by 1000 as an `int`.

* `timespec2MS_eq`: the result, as a quotient of integers.
* `agree_iff`: the two values are defined and differ by at most 1 if and only if the process has
  used no more than 2147483 microseconds.
* `clock_overflows`: three seconds.
-/

namespace LinuxDemo

/-- `timespec2MS`. The division by `1000000.` is exact. -/
def timespec2MS (tp : Timespec) : Option ℤ := do
  let ms ← truncUnsigned 64 ((tp.tvNsec : ℚ) / 1000000 + 1 / 2)
  return toUnsigned 64 (toUnsigned 64 (toUnsigned 64 tp.tvSec * 1000) + ms)

/-- A time that a clock may show: its milliseconds fit 63 bits. -/
structure Timespec.Reading (t : Timespec) : Prop where
  normalised : t.Normalised
  tvSec_nonneg : 0 ≤ t.tvSec
  tvSec_lt : t.tvSec * 1000 < 2 ^ 63

/-- The nearest millisecond, halves up. -/
def Timespec.ms (t : Timespec) : ℤ := (t.ns + 500000) / 1000000

/-- The nanoseconds are rounded to the nearest millisecond. -/
theorem truncUnsigned_nsec {n : ℤ} (h₀ : 0 ≤ n) (h : n < 10 ^ 9) :
    truncUnsigned 64 ((n : ℚ) / 1000000 + 1 / 2) = some ((n + 500000) / 1000000) := by
  have hsum : (n : ℚ) / 1000000 + 1 / 2 = ((n + 500000 : ℤ) : ℚ) / ((1000000 : ℕ) : ℚ) := by
    push_cast
    ring
  have hn₀ : (0 : ℚ) ≤ n := by exact_mod_cast h₀
  have hn : (n : ℚ) < 10 ^ 9 := by exact_mod_cast h
  rw [truncUnsigned_of_nonneg (by linarith) (by linarith), hsum, Rat.floor_intCast_div_natCast]
  rfl

/-- The milliseconds of a second and its fraction. -/
theorem Timespec.ms_eq (t : Timespec) : t.ms = t.tvSec * 1000 + (t.tvNsec + 500000) / 1000000 := by
  unfold Timespec.ms Timespec.ns
  omega

namespace Timespec.Reading

variable {t : Timespec} (h : t.Reading)
include h

theorem ms_nonneg : 0 ≤ t.ms := by
  have := h.tvSec_nonneg
  have := h.normalised.1
  rw [ms_eq]
  omega

theorem ms_lt : t.ms < 2 ^ 64 := by
  have := h.tvSec_lt
  have := h.normalised.2
  rw [ms_eq]
  omega

theorem truncUnsigned_eq : truncUnsigned 64 ((t.tvNsec : ℚ) / 1000000 + 1 / 2) =
    some ((t.tvNsec + 500000) / 1000000) :=
  truncUnsigned_nsec h.normalised.1 h.normalised.2

/-- The sum of the seconds and the rounded fraction fits 64 bits. -/
theorem toUnsigned_sum :
    toUnsigned 64 (toUnsigned 64 (t.tvSec * 1000) + (t.tvNsec + 500000) / 1000000) = t.ms := by
  have hsec₀ := h.tvSec_nonneg
  have hsec := h.tvSec_lt
  have hprod : toUnsigned 64 (t.tvSec * 1000) = t.tvSec * 1000 :=
    toUnsigned_of_lt (by omega) (by omega)
  rw [hprod, ← t.ms_eq]
  exact toUnsigned_of_lt h.ms_nonneg h.ms_lt

/-- **The result of `timespec2MS`.** -/
theorem timespec2MS_eq : timespec2MS t = some t.ms := by
  have hsec := h.tvSec_lt
  have htv : toUnsigned 64 t.tvSec = t.tvSec := toUnsigned_of_lt h.tvSec_nonneg (by omega)
  simp only [timespec2MS, h.truncUnsigned_eq, htv, Option.bind_eq_bind, Option.bind_some]
  exact congrArg some h.toUnsigned_sum

end Timespec.Reading

/-! ## The CPU time -/

namespace CpuTime

/-- `CLOCKS_PER_SEC`. -/
def clocksPerSec : ℤ := 1000000

/-- `clock()`, when the process has used the CPU time `t`. -/
def clock (t : Timespec) : ℤ := t.tvSec * clocksPerSec + t.tvNsec / 1000

/-- `ret * 1000 / CLOCKS_PER_SEC`. -/
def clockMs (ret : ℤ) : Option ℤ := (signed 32 (ret * 1000)).map (·.tdiv clocksPerSec)

/-- What `costTimeTest` prints of the CPU time. -/
structure Report where
  processCpu : ℤ
  /-- Nothing when `clock` fails. -/
  clock : Option ℤ
  deriving DecidableEq

/-- `costTimeTest`, on what `clock_gettime` and `clock` give; it fails where the arithmetic is
undefined. -/
def costTimeTest (tp : Timespec) (clock : ℤ) : Option Report := do
  let processCpu ← timespec2MS tp
  let ret := toSigned 32 clock
  if ret = -1 then return ⟨processCpu, none⟩
  let ms ← clockMs ret
  return ⟨processCpu, some ms⟩

/-- The two values are defined, and differ by at most a millisecond. -/
def Agree (t : Timespec) : Prop :=
  ∃ processCpu ms, costTimeTest t (clock t) = some ⟨processCpu, some ms⟩ ∧ |processCpu - ms| ≤ 1

section

variable {t : Timespec} (h : t.Normalised) (hsec : 0 ≤ t.tvSec) (hint : clock t < 2 ^ 31)
include h hsec hint

theorem reading : t.Reading := by
  unfold clock clocksPerSec at hint
  have := h.1
  exact ⟨h, hsec, by omega⟩

theorem costTimeTest_eq :
    costTimeTest t (clock t) = (clockMs (clock t)).map fun ms => ⟨t.ms, some ms⟩ := by
  have hclock : 0 ≤ clock t := by
    have := h.1
    unfold clock clocksPerSec
    omega
  have hret : toSigned 32 (clock t) = clock t := toSigned_of_lt (by decide) hclock hint
  have hfails : ¬clock t = -1 := by omega
  simp only [costTimeTest, (reading h hsec hint).timespec2MS_eq, hret, hfails, if_false,
    Option.bind_eq_bind, Option.bind_some]
  exact (Option.map_eq_bind ..).symm

/-- **The two values agree** if and only if the multiplication does not overflow, that is up to
2147483 microseconds. -/
theorem agree_iff : Agree t ↔ clock t ≤ 2147483 := by
  have h₀ := h.1
  have h₁ := h.2
  have hclock : clock t = t.tvSec * 1000000 + t.tvNsec / 1000 := rfl
  unfold Agree
  rw [costTimeTest_eq h hsec hint]
  constructor
  · rintro ⟨processCpu, ms, hreport, -⟩
    obtain ⟨ret, hret, -⟩ := Option.map_eq_some_iff.1 hreport
    obtain ⟨product, hproduct, -⟩ := Option.map_eq_some_iff.1 hret
    have hlt := (signed_eq_some hproduct).2.2
    simp only [Nat.reduceSub] at hlt
    omega
  · intro hle
    have hsigned : signed 32 (clock t * 1000) = some (clock t * 1000) :=
      signed_of_lt 31 (by omega) (by omega)
    have hms : clockMs (clock t) = some (clock t * 1000 / 1000000) := by
      unfold clockMs clocksPerSec
      rw [hsigned, Option.map_some, Int.tdiv_eq_ediv_of_nonneg (by omega)]
    refine ⟨t.ms, clock t * 1000 / 1000000, by rw [hms]; rfl, ?_⟩
    rw [t.ms_eq, hclock, abs_le]
    omega

end

theorem agree_iff_second : Agree ⟨1, 999999999⟩ :=
  (agree_iff (by decide) (by decide) (by decide)).2 (by decide)

/-- **Three seconds of CPU time** are too many for `ret * 1000`. -/
theorem clock_overflows :
    ¬∀ t : Timespec, t.Normalised → 0 ≤ t.tvSec → clock t < 2 ^ 31 → Agree t := by
  intro h
  obtain ⟨processCpu, ms, hreport, -⟩ := h ⟨3, 0⟩ (by decide) (by decide) (by decide)
  rw [costTimeTest_eq (by decide) (by decide) (by decide)] at hreport
  have hnone : clockMs (clock ⟨3, 0⟩) = none := by decide
  rw [hnone] at hreport
  cases hreport

end CpuTime

end LinuxDemo
