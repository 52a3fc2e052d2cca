import Mathlib.Data.List.Basic
import Mathlib.Data.List.TakeWhile

/-!
# Buffers, C strings and lines

A C buffer is a list of fixed length that is overwritten from its beginning and never cleared, so
the question is always which part of it is fresh and which part is left from earlier.

* `overlay w buf`: `buf` after `w` has been written over its beginning.
* `store`: one assignment, which fails outside the buffer.
* `strlen`, `cstr`: the zero-terminated string at the beginning of a buffer.
* `firstLine`, `afterLine`, `lines`: a byte sequence cut after every separator.
-/

namespace LinuxDemo

abbrev Byte := UInt8

section Overlay

variable {α : Type*}

/-- The buffer after `w` has been written over its beginning. -/
def overlay (w buf : List α) : List α := w ++ buf.drop w.length

/-- `buf[i] = a`; `none` when `i` is outside the buffer. -/
def store (buf : List α) (i : ℕ) (a : α) : Option (List α) :=
  if i < buf.length then some (buf.set i a) else none

@[simp] theorem overlay_nil (buf : List α) : overlay [] buf = buf := rfl

theorem length_overlay {w buf : List α} (h : w.length ≤ buf.length) :
    (overlay w buf).length = buf.length := by
  unfold overlay
  rw [List.length_append, List.length_drop]
  omega

theorem take_overlay (w buf : List α) : (overlay w buf).take w.length = w :=
  List.take_left

theorem drop_overlay {w buf : List α} {k : ℕ} (h : w.length ≤ k) :
    (overlay w buf).drop k = buf.drop k := by
  unfold overlay
  rw [List.drop_append, List.drop_eq_nil_of_le h, List.nil_append, List.drop_drop,
    Nat.add_sub_cancel' h]

/-- Writing only the first `k` elements of `w` leaves the old ones behind them. -/
theorem take_overlay_take (w buf : List α) (k : ℕ) :
    (overlay (w.take k) buf).take w.length = w.take k ++ (buf.take w.length).drop k := by
  unfold overlay
  by_cases hk : w.length ≤ k
  · have hnil : (buf.take w.length).drop k = [] :=
      List.drop_eq_nil_of_le ((List.length_take_le _ _).trans hk)
    rw [hnil, List.take_of_length_le hk, List.take_left, List.append_nil]
  · have hlen : (w.take k).length = k := List.length_take_of_le (by omega)
    rw [List.take_append, hlen, List.drop_take, List.take_of_length_le (by omega)]

/-- That makes no difference when the old elements are the missing ones. -/
theorem overlay_take_eq {w buf : List α} {k : ℕ} (h : (buf.take w.length).drop k = w.drop k) :
    overlay (w.take k) buf = overlay w buf := by
  have htake := take_overlay_take w buf k
  rw [h, List.take_append_drop] at htake
  have hdrop : (overlay (w.take k) buf).drop w.length = buf.drop w.length :=
    drop_overlay (by rw [List.length_take]; exact min_le_right _ _)
  calc overlay (w.take k) buf
      = (overlay (w.take k) buf).take w.length ++ (overlay (w.take k) buf).drop w.length :=
        (List.take_append_drop _ _).symm
    _ = overlay w buf := by rw [htake, hdrop, overlay]

/-- Storing right after the fresh part extends it. -/
theorem store_overlay {w buf : List α} {a : α} (h : w.length < buf.length) :
    store (overlay w buf) w.length a = some (overlay (w ++ [a]) buf) := by
  have hlen : w.length < (overlay w buf).length := by rwa [length_overlay h.le]
  have hdrop : buf.drop w.length = buf[w.length] :: buf.drop (w.length + 1) :=
    List.drop_eq_getElem_cons h
  rw [store, if_pos hlen]
  unfold overlay
  rw [List.set_append_right _ _ le_rfl, Nat.sub_self, hdrop, List.set_cons_zero]
  simp

end Overlay

/-! ## C strings -/

/-- The number of bytes before the first zero; `none` when the buffer has no zero, so that the
scan would leave it. -/
def strlen (buf : List Byte) : Option ℕ := buf.findIdx? (· == 0)

/-- The bytes before the first zero. -/
def cstr (w : List Byte) : List Byte := w.takeWhile (· != 0)

theorem cstr_eq_self_iff (w : List Byte) : cstr w = w ↔ 0 ∉ w := by
  unfold cstr
  rw [List.takeWhile_eq_self_iff]
  constructor
  · intro h hz
    simpa using h 0 hz
  · intro h a ha
    have : a ≠ 0 := fun h0 => h (h0 ▸ ha)
    simpa using this

/-- A string that fills all but the last place of its buffer is followed by a zero there. -/
theorem cstr_eq_iff {w buf : List Byte} (hw : 0 ∉ w) (hlen : buf.length = w.length + 1) :
    cstr buf = w ↔ buf = w ++ [0] := by
  constructor
  · intro h
    have hsplit : w ++ buf.dropWhile (· != 0) = buf := by
      rw [← h]
      exact List.takeWhile_append_dropWhile
    have hone : (buf.dropWhile (· != 0)).length = 1 := by
      have := congrArg List.length hsplit
      rw [List.length_append] at this
      omega
    obtain ⟨b, hb⟩ := List.length_eq_one_iff.mp hone
    have hzero : b = 0 := by
      have hne : buf.dropWhile (· != 0) ≠ [] := by simp [hb]
      have := List.head_dropWhile_not (· != (0 : Byte)) hne
      simpa [hb] using this
    rw [← hsplit, hb, hzero]
  · intro h
    rw [h]
    unfold cstr
    rw [List.takeWhile_append_of_pos]
    · simp
    · intro a ha
      have : a ≠ 0 := fun h0 => hw (h0 ▸ ha)
      simpa using this

theorem length_cstr_le (w : List Byte) : (cstr w).length ≤ w.length :=
  (List.takeWhile_sublist _).length_le

theorem strlen_append_zero (w rest : List Byte) :
    strlen (w ++ 0 :: rest) = some (cstr w).length := by
  unfold strlen cstr
  induction w with
  | nil => simp [List.findIdx?_cons]
  | cons a w ih =>
    rw [List.cons_append, List.findIdx?_cons, List.takeWhile_cons]
    by_cases ha : a = 0
    · simp [ha]
    · rw [ih]
      simp [ha]

/-- The string of a buffer that was terminated after `w` depends on `w` only. -/
theorem strlen_terminated (w buf : List Byte) :
    strlen (overlay (w ++ [0]) buf) = some (cstr w).length := by
  unfold overlay
  rw [List.append_assoc]
  exact strlen_append_zero w _

theorem take_terminated (w buf : List Byte) :
    (overlay (w ++ [0]) buf).take (cstr w).length = cstr w := by
  have hpre : cstr w <+: overlay (w ++ [0]) buf := by
    unfold overlay
    rw [List.append_assoc]
    exact (List.takeWhile_prefix _).trans (List.prefix_append _ _)
  exact (List.prefix_iff_eq_take.mp hpre).symm

/-! ## Lines -/

section Lines

variable {α : Type*} [DecidableEq α]

/-- The part up to and including the first `nl`, or everything. -/
def firstLine (nl : α) : List α → List α
  | [] => []
  | a :: l => if a = nl then [a] else a :: firstLine nl l

/-- What follows the first line. -/
def afterLine (nl : α) : List α → List α
  | [] => []
  | a :: l => if a = nl then l else afterLine nl l

/-- All lines, each with its `nl`; the last one may lack it. -/
def lines (nl : α) : List α → List (List α)
  | [] => []
  | a :: l =>
    if a = nl then [a] :: lines nl l
    else
      match lines nl l with
      | [] => [[a]]
      | line :: rest => (a :: line) :: rest

theorem firstLine_append_afterLine (nl : α) (l : List α) :
    firstLine nl l ++ afterLine nl l = l := by
  induction l with
  | nil => rfl
  | cons a l ih =>
    unfold firstLine afterLine
    split_ifs with h
    · rfl
    · rw [List.cons_append, ih]

theorem firstLine_ne_nil (nl : α) {l : List α} (h : l ≠ []) : firstLine nl l ≠ [] := by
  cases l with
  | nil => exact absurd rfl h
  | cons a l =>
    unfold firstLine
    split_ifs <;> simp

theorem firstLine_isPrefix (nl : α) (l : List α) : firstLine nl l <+: l :=
  ⟨_, firstLine_append_afterLine nl l⟩

theorem firstLine_append_cons {nl : α} {c : List α} (h : nl ∉ c) (rest : List α) :
    firstLine nl (c ++ nl :: rest) = c ++ [nl] := by
  induction c with
  | nil => simp [firstLine]
  | cons a c ih =>
    rw [List.mem_cons, not_or] at h
    rw [List.cons_append, firstLine, if_neg (Ne.symm h.1), ih h.2, List.cons_append]

/-- In a first line, nothing follows a separator. -/
theorem eq_nil_of_prefix_firstLine {nl : α} {l d rest : List α}
    (h : d ++ nl :: rest <+: firstLine nl l) : rest = [] := by
  induction l generalizing d with
  | nil => simp [firstLine] at h
  | cons a l ih =>
    unfold firstLine at h
    split_ifs at h with ha
    · cases d with
      | nil => exact List.prefix_nil.mp (List.cons_prefix_cons.mp h).2
      | cons b d => simp at h
    · cases d with
      | nil => exact absurd (List.cons_prefix_cons.mp h).1.symm ha
      | cons b d => exact ih (List.cons_prefix_cons.mp h).2

/-- `lines` cuts off one first line after the other. -/
theorem lines_eq_cons (nl : α) {l : List α} (h : l ≠ []) :
    lines nl l = firstLine nl l :: lines nl (afterLine nl l) := by
  induction l with
  | nil => exact absurd rfl h
  | cons a l ih =>
    rw [lines, firstLine, afterLine]
    by_cases ha : a = nl
    · rw [if_pos ha, if_pos ha, if_pos ha]
    · rw [if_neg ha, if_neg ha, if_neg ha]
      by_cases hl : l = []
      · subst hl
        rfl
      · rw [ih hl]

end Lines

end LinuxDemo
