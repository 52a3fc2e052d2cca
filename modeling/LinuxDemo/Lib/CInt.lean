import Mathlib.Algebra.Order.Ring.Int
import Mathlib.Algebra.Order.Round
import Mathlib.Data.Rat.Floor

/-!
# C integers

Values of the integer types of C are integers in a range. Converting a value to a type brings it
into the range of that type; signed arithmetic is undefined when the result is outside.

* `toUnsigned`, `toSigned`: conversion to `w` bits.
* `signed`: the result of signed arithmetic in `w` bits.
* `truncUnsigned`: conversion of a fraction, which is cut off towards zero. It is undefined for
  -1 and below; `truncUnsigned_add_half` says when adding a half first rounds to the nearest
  integer.
-/

namespace LinuxDemo

/-- `x` converted to an unsigned type of `w` bits. -/
def toUnsigned (w : ℕ) (x : ℤ) : ℤ := x % 2 ^ w

/-- `x` converted to a signed type of `w` bits. -/
def toSigned (w : ℕ) (x : ℤ) : ℤ := x.bmod (2 ^ w)

/-- The result `x` of arithmetic in a signed type of `w` bits; undefined outside its range. -/
def signed (w : ℕ) (x : ℤ) : Option ℤ :=
  if -2 ^ (w - 1) ≤ x ∧ x < 2 ^ (w - 1) then some x else none

theorem toUnsigned_of_lt {w : ℕ} {x : ℤ} (h₀ : 0 ≤ x) (h : x < 2 ^ w) : toUnsigned w x = x :=
  Int.emod_eq_of_lt h₀ h

theorem toSigned_of_lt {w : ℕ} {x : ℤ} (hw : 0 < w) (h₀ : 0 ≤ x) (h : x < 2 ^ (w - 1)) :
    toSigned w x = x := by
  obtain ⟨k, rfl⟩ : ∃ k, w = k + 1 := ⟨w - 1, by omega⟩
  rw [Nat.add_sub_cancel] at h
  unfold toSigned
  apply Int.bmod_eq_of_le_mul_two
  · push_cast
    rw [pow_succ]
    omega
  · push_cast
    rw [pow_succ]
    omega

theorem signed_of_lt (k : ℕ) {x : ℤ} (h₀ : -2 ^ k ≤ x) (h : x < 2 ^ k) :
    signed (k + 1) x = some x :=
  if_pos ⟨h₀, h⟩

theorem signed_eq_some {w : ℕ} {x y : ℤ} (h : signed w x = some y) :
    y = x ∧ -2 ^ (w - 1) ≤ x ∧ x < 2 ^ (w - 1) := by
  unfold signed at h
  split_ifs at h with hx
  exact ⟨(Option.some.inj h).symm, hx⟩

/-! ## Fractions -/

/-- `x` without its fractional part. -/
def trunc (x : ℚ) : ℤ := if 0 ≤ x then ⌊x⌋ else ⌈x⌉

/-- `x` converted to an unsigned type of `w` bits; undefined when its integral part is no value of
the type. -/
def truncUnsigned (w : ℕ) (x : ℚ) : Option ℤ := if -1 < x ∧ x < 2 ^ w then some (trunc x) else none

theorem truncUnsigned_of_nonneg {w : ℕ} {x : ℚ} (h₀ : 0 ≤ x) (h : x < 2 ^ w) :
    truncUnsigned w x = some ⌊x⌋ := by
  unfold truncUnsigned trunc
  rw [if_pos ⟨lt_of_lt_of_le (by norm_num) h₀, h⟩, if_pos h₀]

/-- Between -1 and 0 the conversion yields 0. -/
theorem truncUnsigned_of_neg {w : ℕ} {x : ℚ} (h : x < 0) :
    truncUnsigned w x = if -1 < x then some 0 else none := by
  have hlt : x < 2 ^ w := h.trans (by positivity)
  unfold truncUnsigned trunc
  rw [if_neg (not_le.2 h)]
  by_cases h₁ : -1 < x
  · have hceil : ⌈x⌉ = 0 := by
      rw [Int.ceil_eq_iff]
      exact ⟨by simpa using h₁, by simpa using h.le⟩
    rw [if_pos ⟨h₁, hlt⟩, if_pos h₁, hceil]
  · rw [if_neg fun hx => h₁ hx.1, if_neg h₁]

theorem truncUnsigned_bounds {w : ℕ} {x : ℚ} {m n : ℤ} (h : truncUnsigned w x = some m)
    (hn : 0 ≤ n) (hx : x < n + 1) : 0 ≤ m ∧ m ≤ n := by
  by_cases h₀ : 0 ≤ x
  · unfold truncUnsigned trunc at h
    rw [if_pos h₀] at h
    split_ifs at h
    rw [← Option.some.inj h]
    refine ⟨Int.floor_nonneg.2 h₀, Int.lt_add_one_iff.1 (Int.floor_lt.2 ?_)⟩
    exact_mod_cast hx
  · rw [truncUnsigned_of_neg (not_le.1 h₀)] at h
    split_ifs at h
    rw [← Option.some.inj h]
    exact ⟨le_rfl, hn⟩

/-- **Adding a half and converting rounds to the nearest integer** if and only if there is nothing
negative to convert. -/
theorem truncUnsigned_add_half {w : ℕ} {x : ℚ} (h : x + 1 / 2 < 2 ^ w) :
    truncUnsigned w (x + 1 / 2) = some (round x) ↔ 0 ≤ x + 1 / 2 := by
  rw [round_eq]
  by_cases h₀ : 0 ≤ x + 1 / 2
  · rw [truncUnsigned_of_nonneg h₀ h]
    exact ⟨fun _ => h₀, fun _ => rfl⟩
  · refine ⟨fun heq => ?_, fun hx => absurd hx h₀⟩
    have hneg := not_le.1 h₀
    rw [truncUnsigned_of_neg hneg] at heq
    split_ifs at heq
    have hfloor : ⌊x + 1 / 2⌋ < 0 := Int.floor_lt.2 (by simpa using hneg)
    rw [← Option.some.inj heq] at hfloor
    exact absurd hfloor (lt_irrefl 0)

end LinuxDemo
