import LinuxDemo.Lib.Buffer
import LinuxDemo.Lib.CInt

/-!
# Strings given to a C program

The arguments of a program are zero-terminated strings. The terminator may be read, what is behind
it may not.

* `CString`: the bytes of a string, none of them zero.
* `CString.char`: `s[i]`, which fails behind the terminator.
* `strchr`: finds the terminator too.
* `atoi`: white space, a sign and decimal digits; the value is that of `strtol`, cut to an `int`.
-/

namespace LinuxDemo

/-- The bytes of a string constant. -/
def literal (cs : List Char) : List Byte := cs.map Char.toUInt8

/-- A zero-terminated string. -/
structure CString where
  bytes : List Byte
  nonzero : 0 ∉ bytes
  deriving DecidableEq

/-- An argument vector written out; texts with a zero are left out. -/
def arguments (argv : List (List Char)) : List CString :=
  argv.filterMap fun cs => if h : 0 ∉ literal cs then some ⟨literal cs, h⟩ else none

namespace CString

/-- `s[i]`; `none` behind the terminator. -/
def char (s : CString) (i : ℕ) : Option Byte := (s.bytes ++ [0])[i]?

theorem char_zero (s : CString) : s.char 0 = some (s.bytes.headD 0) := by
  unfold char
  cases s.bytes <;> rfl

/-- What follows a character of the string may be read. -/
theorem char_succ {s : CString} {i : ℕ} {c : Byte} (h : s.char i = some c) (hc : c ≠ 0) :
    ∃ d, s.char (i + 1) = some d := by
  unfold char at h ⊢
  have hi : i < s.bytes.length := by
    by_contra hi
    rw [List.getElem?_append_right (Nat.le_of_not_lt hi), List.getElem?_singleton] at h
    split_ifs at h
    · exact hc (Option.some.inj h).symm
  have hlt : i + 1 < (s.bytes ++ [0]).length := by simpa using hi
  exact ⟨_, List.getElem?_eq_getElem hlt⟩

end CString

/-- `strchr(s, c)`: the place of `c` in `s`, the terminator included. -/
def strchr (s : List Byte) (c : Byte) : Option ℕ := (s ++ [0]).findIdx? (· == c)

theorem strchr_eq_none {s : List Byte} {c : Byte} : strchr s c = none ↔ c ∉ s ∧ c ≠ 0 := by
  unfold strchr
  rw [List.findIdx?_eq_none_iff]
  constructor
  · intro h
    refine ⟨fun hc => ?_, fun hc => ?_⟩
    · simpa using h c (List.mem_append_left _ hc)
    · simpa [hc] using h 0 (by simp)
  · rintro ⟨hs, hz⟩ a ha
    rw [beq_eq_false_iff_ne]
    rintro rfl
    rcases List.mem_append.1 ha with ha | ha
    · exact hs ha
    · exact hz (by simpa using ha)

/-! ## Numbers -/

def isspace (b : Byte) : Bool := b == 32 || (9 ≤ b && b ≤ 13)

def isdigit (b : Byte) : Bool := 48 ≤ b && b ≤ 57

/-- The value of decimal digits. -/
def digits (l : List Byte) : ℤ := l.foldl (fun n b => 10 * n + (b.toNat - 48)) 0

/-- `strtol(s, NULL, 10)`, which stops at the ends of a `long`. -/
def strtol (s : List Byte) : ℤ :=
  let value : ℤ :=
    match s.dropWhile isspace with
    | 45 :: l => -digits (l.takeWhile isdigit)
    | 43 :: l => digits (l.takeWhile isdigit)
    | l => digits (l.takeWhile isdigit)
  max (-2 ^ 63) (min value (2 ^ 63 - 1))

/-- `atoi(s)`. -/
def atoi (s : CString) : ℤ := toSigned 32 (strtol s.bytes)

end LinuxDemo
