import LinuxDemo.Lib.CString
import LinuxDemo.Lib.Memory

/-!
# The output of a command

`io/popen/main.c` reads what `ls` prints with `fgets`, into a buffer of 512 bytes, and prints the buffer
with `%s`. `fgets` stops behind a newline, or when the buffer is full but for its terminator. The buffer is
not cleared between two calls. All of the output arrives, and no read fails.

* `loop_shown`: the loop ends, and of each piece it prints the part in front of the first zero.
* `copies_iff`: the program prints the output of the command if and only if there is no zero in it.
-/

namespace LinuxDemo.Popen

/-- `'\n'`. -/
def newline : Byte := 10

/-- The bytes that `fgets(buffer, n, fp)` reads, where `rest` has not been read. -/
def piece (n : ℕ) (rest : List Byte) : List Byte := firstLine newline (rest.take (n - 1))

/-- `fgets`: the buffer then, and what is left to read. `none` is `NULL`. -/
def fgets (n : ℕ) (buffer rest : List Byte) : Option (List Byte × List Byte) :=
  if rest = [] then none
  else some (overlay (piece n rest ++ [0]) buffer, rest.drop (piece n rest).length)

/-- `512`. -/
def bufferSize : ℕ := 512

/-- The `while` loop, with what it prints. It fails without fuel, when `fgets` may leave the buffer, and
when the buffer has no zero. -/
def loop : ℕ → List Byte → List Byte → Option (List Byte)
  | 0, _, _ => none
  | fuel + 1, buffer, rest =>
    if buffer.length < bufferSize then none
    else
      match fgets bufferSize buffer rest with
      | none => some []
      | some (buffer, rest) => do
        let shown ← stringAt buffer
        let more ← loop fuel buffer rest
        return shown ++ more

/-- `main`: its status and what it prints. `output` is what the command prints, `none` when `popen` has
failed, and `memory` is the buffer before the first call. -/
def main (fuel : ℕ) (memory : List Byte) : Option (List Byte) → Option (ℕ × List Byte)
  | none => some (1, literal "popen return NULL\n".toList)
  | some output => (loop fuel memory output).map fun shown => (0, shown)

/-! ## One call -/

section Call

variable {n : ℕ} {buffer rest : List Byte}

theorem fgets_eq_none (h : fgets n buffer rest = none) : rest = [] := by
  by_contra hne
  rw [fgets, if_neg hne] at h
  cases h

/-- A call reads a piece of what is left, and the buffer is then a string: the piece up to its first zero.
What the calls before have left in the buffer is behind it. -/
theorem fgets_eq_some {buffer' rest' : List Byte} (hn : 2 ≤ n) (hlen : buffer.length = n)
    (h : fgets n buffer rest = some (buffer', rest')) :
    ∃ text, text ≠ [] ∧ rest = text ++ rest' ∧ stringAt buffer' = some (cstr text) ∧
      buffer'.length = n := by
  unfold fgets at h
  split_ifs at h with hrest
  cases h
  have hprefix : piece n rest <+: rest := (firstLine_isPrefix _ _).trans (List.take_prefix _ _)
  have hpiece : (piece n rest).length ≤ n - 1 :=
    (firstLine_isPrefix _ _).length_le.trans (List.length_take_le _ _)
  refine ⟨piece n rest, ?_, (List.prefix_iff_eq_append.1 hprefix).symm, ?_, ?_⟩
  · refine firstLine_ne_nil _ fun hnil => ?_
    rcases List.take_eq_nil_iff.1 hnil with hzero | hnil
    · omega
    · exact hrest hnil
  · rw [overlay, List.append_assoc]
    exact stringAt_terminated _ _
  · rw [length_overlay, hlen]
    rw [List.length_append, List.length_singleton, hlen]
    omega

end Call

/-! ## The loop -/

/-- A string that was cut, with a part of what follows it, is not the whole. -/
theorem cstr_append_eq_iff {w rest more : List Byte} (h : more.length ≤ rest.length) :
    cstr w ++ more = w ++ rest ↔ cstr w = w ∧ more = rest := by
  constructor
  · intro heq
    have hcstr := length_cstr_le w
    have hlen := congrArg List.length heq
    rw [List.length_append, List.length_append] at hlen
    exact List.append_inj heq (by omega)
  · rintro ⟨hw, rfl⟩
    rw [hw]

/-- **The loop ends**, and prints a part of what there is to read: all of it if and only if there is no
zero in it. -/
theorem loop_shown {fuel : ℕ} {buffer rest : List Byte} (h : rest.length < fuel)
    (hlen : buffer.length = bufferSize) :
    ∃ shown, loop fuel buffer rest = some shown ∧ shown.Sublist rest ∧ (shown = rest ↔ 0 ∉ rest) := by
  induction fuel generalizing buffer rest with
  | zero => omega
  | succ fuel ih =>
    rw [loop, if_neg (by omega)]
    cases hcall : fgets bufferSize buffer rest with
    | none =>
      obtain rfl := fgets_eq_none hcall
      exact ⟨[], rfl, List.nil_sublist _, iff_of_true rfl List.not_mem_nil⟩
    | some found =>
      obtain ⟨text, htext, rfl, hstring, hlen'⟩ := fgets_eq_some (by decide) hlen hcall
      have hpos := List.length_pos_iff.2 htext
      rw [List.length_append] at h
      have hrest : found.2.length < fuel := by omega
      obtain ⟨more, hmore, hsub, hiff⟩ := ih hrest hlen'
      refine ⟨cstr text ++ more, ?_, (List.takeWhile_sublist _).append hsub, ?_⟩
      · simp only [hstring, hmore, Option.bind_eq_bind, Option.bind_some]
        rfl
      · rw [cstr_append_eq_iff hsub.length_le, cstr_eq_self_iff, hiff, List.mem_append, not_or]

/-- **The program prints what the command prints** if and only if there is no zero in it, whatever the
lengths of its lines and whatever was in the buffer. Otherwise some bytes are missing. -/
theorem copies_iff {fuel : ℕ} {memory output : List Byte} (h : output.length < fuel)
    (hlen : memory.length = bufferSize) :
    ∃ shown, main fuel memory (some output) = some (0, shown) ∧ shown.Sublist output ∧
      (shown = output ↔ 0 ∉ output) := by
  obtain ⟨shown, hloop, hsub, hiff⟩ := loop_shown h hlen
  exact ⟨shown, by rw [main, hloop, Option.map_some], hsub, hiff⟩

theorem copies_iff_ab :
    ∃ shown, main 4 (List.replicate bufferSize 0) (some [97, 10, 98]) = some (0, shown) ∧
      shown.Sublist [97, 10, 98] ∧ (shown = [97, 10, 98] ↔ 0 ∉ ([97, 10, 98] : List Byte)) :=
  copies_iff (by decide) List.length_replicate

end LinuxDemo.Popen
