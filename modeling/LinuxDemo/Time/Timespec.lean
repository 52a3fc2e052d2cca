import Mathlib.Tactic.Linarith
import Mathlib.Tactic.Ring
import LinuxDemo.Lib.CInt

/-!
# Times in seconds and nanoseconds

`struct timespec` and the interval between two of them, as `timeInterval` computes it in
`time/sleep/main.c`, `time/posix/ticks/main.c` and `time/unix/ticks/main.c` (the three are the
same).

`timeInterval` rounds the difference of the nanoseconds on its own. That difference is negative
when the interval crosses the end of a second, and then there is nothing below zero to round to.

* `interval_iff`: the result is the elapsed time, rounded to the nearest millisecond, if and only
  if the nanoseconds have not gone back by more than half a millisecond.
* `interval_undefined`: an interval of one nanosecond.
-/

namespace LinuxDemo

/-- `struct timespec`. -/
structure Timespec where
  tvSec : ℤ
  tvNsec : ℤ
  deriving DecidableEq

namespace Timespec

/-- The nanoseconds are less than a second. -/
def Normalised (t : Timespec) : Prop := 0 ≤ t.tvNsec ∧ t.tvNsec < 10 ^ 9

instance (t : Timespec) : Decidable t.Normalised := inferInstanceAs (Decidable (_ ∧ _))

/-- The time in nanoseconds. -/
def ns (t : Timespec) : ℤ := t.tvSec * 10 ^ 9 + t.tvNsec

end Timespec

namespace Interval

/-- `timeInterval`. The division by `1000000.` is exact. -/
def timeInterval (tp1 tp2 : Timespec) : Option ℤ := do
  let sec ← signed 64 (tp2.tvSec - tp1.tvSec)
  let nsec ← signed 64 (tp2.tvNsec - tp1.tvNsec)
  let ms ← truncUnsigned 64 ((nsec : ℚ) / 1000000 + 1 / 2)
  return toUnsigned 64 (toUnsigned 64 (toUnsigned 64 sec * 1000) + ms)

/-- The elapsed time in milliseconds, rounded to the nearest integer (halves up). -/
def elapsed (tp1 tp2 : Timespec) : ℤ := round (((tp2.ns - tp1.ns : ℤ) : ℚ) / 10 ^ 6)

section

variable {tp1 tp2 : Timespec}

theorem tvSec_le (h₁ : tp1.Normalised) (h₂ : tp2.Normalised) (hle : tp1.ns ≤ tp2.ns) :
    tp1.tvSec ≤ tp2.tvSec := by
  unfold Timespec.Normalised at h₁ h₂
  unfold Timespec.ns at hle
  omega

/-- Whole seconds are whole milliseconds. -/
theorem elapsed_eq (tp1 tp2 : Timespec) :
    elapsed tp1 tp2 = (tp2.tvSec - tp1.tvSec) * 1000 +
      round (((tp2.tvNsec - tp1.tvNsec : ℤ) : ℚ) / 1000000) := by
  unfold elapsed Timespec.ns
  rw [← round_intCast_add]
  congr 1
  push_cast
  ring

/-- The nanoseconds of an interval are less than a second. -/
theorem nsec_lt (h₁ : tp1.Normalised) (h₂ : tp2.Normalised) :
    ((tp2.tvNsec - tp1.tvNsec : ℤ) : ℚ) / 1000000 + 1 / 2 < (1000 : ℤ) + 1 := by
  have hlt : ((tp2.tvNsec - tp1.tvNsec : ℤ) : ℚ) < 10 ^ 9 := by
    unfold Timespec.Normalised at h₁ h₂
    exact_mod_cast show tp2.tvNsec - tp1.tvNsec < 10 ^ 9 by omega
  push_cast at hlt ⊢
  linarith

/-- The result is the whole seconds, and the nanoseconds as they are converted. -/
theorem timeInterval_eq (h₁ : tp1.Normalised) (h₂ : tp2.Normalised) (hle : tp1.ns ≤ tp2.ns)
    (hsec₁ : 0 ≤ tp1.tvSec) (hsec₂ : tp2.tvSec < 2 ^ 53) :
    timeInterval tp1 tp2 =
      (truncUnsigned 64 (((tp2.tvNsec - tp1.tvNsec : ℤ) : ℚ) / 1000000 + 1 / 2)).map
        ((tp2.tvSec - tp1.tvSec) * 1000 + ·) := by
  have hsec := tvSec_le h₁ h₂ hle
  have hx := nsec_lt h₁ h₂
  unfold Timespec.Normalised at h₁ h₂
  have hds : signed 64 (tp2.tvSec - tp1.tvSec) = some (tp2.tvSec - tp1.tvSec) :=
    signed_of_lt 63 (by omega) (by omega)
  have hdn : signed 64 (tp2.tvNsec - tp1.tvNsec) = some (tp2.tvNsec - tp1.tvNsec) :=
    signed_of_lt 63 (by omega) (by omega)
  simp only [timeInterval, hds, hdn, Option.bind_eq_bind, Option.bind_some]
  cases hm : truncUnsigned 64 (((tp2.tvNsec - tp1.tvNsec : ℤ) : ℚ) / 1000000 + 1 / 2) with
  | none => rfl
  | some m =>
    obtain ⟨hm₀, hm₁⟩ := truncUnsigned_bounds hm (by decide) hx
    have hsec₀ : toUnsigned 64 (tp2.tvSec - tp1.tvSec) = tp2.tvSec - tp1.tvSec :=
      toUnsigned_of_lt (by omega) (by omega)
    have hms : toUnsigned 64 ((tp2.tvSec - tp1.tvSec) * 1000) = (tp2.tvSec - tp1.tvSec) * 1000 :=
      toUnsigned_of_lt (by omega) (by omega)
    show some (toUnsigned 64 _) = some _
    rw [hsec₀, hms, toUnsigned_of_lt (by omega) (by omega)]

/-- **The result is the elapsed time** if and only if the nanoseconds have not gone back by more
than half a millisecond. -/
theorem interval_iff (h₁ : tp1.Normalised) (h₂ : tp2.Normalised) (hle : tp1.ns ≤ tp2.ns)
    (hsec₁ : 0 ≤ tp1.tvSec) (hsec₂ : tp2.tvSec < 2 ^ 53) :
    timeInterval tp1 tp2 = some (elapsed tp1 tp2) ↔ -500000 ≤ tp2.tvNsec - tp1.tvNsec := by
  have hlt : ((tp2.tvNsec - tp1.tvNsec : ℤ) : ℚ) / 1000000 + 1 / 2 < 2 ^ 64 :=
    (nsec_lt h₁ h₂).trans (by norm_num)
  rw [timeInterval_eq h₁ h₂ hle hsec₁ hsec₂, elapsed_eq]
  calc (truncUnsigned 64 (((tp2.tvNsec - tp1.tvNsec : ℤ) : ℚ) / 1000000 + 1 / 2)).map
          ((tp2.tvSec - tp1.tvSec) * 1000 + ·) =
        some ((tp2.tvSec - tp1.tvSec) * 1000 +
          round (((tp2.tvNsec - tp1.tvNsec : ℤ) : ℚ) / 1000000))
      ↔ truncUnsigned 64 (((tp2.tvNsec - tp1.tvNsec : ℤ) : ℚ) / 1000000 + 1 / 2) =
          some (round (((tp2.tvNsec - tp1.tvNsec : ℤ) : ℚ) / 1000000)) := by
        simp [Option.map_eq_some_iff]
    _ ↔ 0 ≤ ((tp2.tvNsec - tp1.tvNsec : ℤ) : ℚ) / 1000000 + 1 / 2 := truncUnsigned_add_half hlt
    _ ↔ -500000 ≤ ((tp2.tvNsec - tp1.tvNsec : ℤ) : ℚ) := by
        constructor <;> intro h <;> linarith
    _ ↔ -500000 ≤ tp2.tvNsec - tp1.tvNsec := by exact_mod_cast Iff.rfl

end

theorem interval_iff_forward :
    timeInterval ⟨1, 200⟩ ⟨3, 700000000⟩ = some (elapsed ⟨1, 200⟩ ⟨3, 700000000⟩) :=
  (interval_iff (by decide) (by decide) (by decide) (by decide) (by decide)).2 (by decide)

/-- **An interval of one nanosecond**, across the end of a second: a negative number would have to
be converted. -/
theorem interval_undefined :
    ¬∀ tp1 tp2 : Timespec, tp1.Normalised → tp2.Normalised → tp1.ns ≤ tp2.ns → 0 ≤ tp1.tvSec →
      tp2.tvSec < 2 ^ 53 → timeInterval tp1 tp2 = some (elapsed tp1 tp2) := by
  intro h
  have hsome := h ⟨0, 999999999⟩ ⟨1, 0⟩ (by decide) (by decide) (by decide) (by decide) (by decide)
  have hnone : timeInterval ⟨0, 999999999⟩ ⟨1, 0⟩ = none := by
    rw [timeInterval_eq (by decide) (by decide) (by decide) (by decide) (by decide),
      truncUnsigned_of_neg (by norm_num), if_neg (by norm_num)]
    rfl
  rw [hnone] at hsome
  cases hsome

end Interval

end LinuxDemo
