import Mathlib.Data.UInt
import LinuxDemo.Lib.CString
import LinuxDemo.Lib.Lts
import LinuxDemo.Lib.OpenFile

/-!
# Two streams in one file

`io/redirect/main.c` prints every number to `stdout` and to `stderr`, and its comment shows two ways to
send both to one file: `> test.log 2>test.log` opens the file twice, `> test.log 2>&1` once. `stdout` is
then buffered, and what is in the buffer may be written, in any portions, whenever something is printed to
it, and when the program ends. `stderr` is not: what is printed is written before `fprintf` returns, in one
`write` or in several. No `write` fails.

* `inv_invariant`: what was written and what is still in the buffer are what was printed, for any
  relation between what was written and the file that a `write` keeps.
* `all_kept`: with `2>&1` the file is a merge of the two texts, with two lines for each number.
* `overwritten`: with `2>test.log` the texts lie over each other, and the file is as long as one of them.
-/

namespace LinuxDemo.Redirect

open Lts

/-! ## The program -/

inductive Stream where
  | stdout
  | stderr
  deriving DecidableEq

instance : Fintype Stream := ⟨{.stdout, .stderr}, fun s => by cases s <;> simp⟩

/-- The open file description behind each stream. -/
def descriptions (twice : Bool) : Stream → Stream
  | .stdout => .stdout
  | .stderr => if twice then .stderr else .stdout

/-- `"%d\n"`. -/
def outText (i : ℕ) : List Byte := literal (Nat.toDigits 10 i ++ ['\n'])

/-- `"\t%d\n"`. -/
def errText (i : ℕ) : List Byte := literal ('\t' :: Nat.toDigits 10 i ++ ['\n'])

/-- What is printed for the numbers below `n`. -/
def texts (n : ℕ) : Stream → List Byte
  | .stdout => (List.range n).flatMap outText
  | .stderr => (List.range n).flatMap errText

inductive Pc where
  /-- The test of the loop, and the call of `fprintf(stdout, ..)`. -/
  | print (i : ℕ)
  /-- In that call, with the text in the buffer. -/
  | printing (i : ℕ)
  /-- In `fprintf(stderr, ..)`, with `rest` still to be written. -/
  | error (i : ℕ) (rest : List Byte)
  /-- `main` has returned, and the buffer is flushed. -/
  | exiting
  | exited
  deriving DecidableEq

structure World where
  pc : Pc
  /-- The buffer of `stdout`. -/
  buffer : List Byte
  file : OpenFile Byte Stream

inductive Event where
  | print
  /-- `k` bytes of the buffer are written. -/
  | flush (k : ℕ)
  | printed
  /-- `k` bytes are written to `stderr`. -/
  | error (k : ℕ)
  | errorPrinted
  | exit
  deriving DecidableEq

def initial : World := ⟨.print 0, [], ⟨[], fun _ => 0⟩⟩

/-- In a call that may write what is in the buffer. -/
def Pc.flushes : Pc → Bool
  | .printing _ | .exiting => true
  | _ => false

/-- One step of the program that prints the numbers below `count`. -/
def next (desc : Stream → Stream) (count : ℕ) (w : World) : Event → Option World
  | .print =>
    match w.pc with
    | .print i =>
      some (if i < count then { w with pc := .printing i, buffer := w.buffer ++ outText i }
        else { w with pc := .exiting })
    | _ => none
  | .flush k =>
    if w.pc.flushes then
      some { w with
        buffer := w.buffer.drop k, file := w.file.write (desc .stdout) (w.buffer.take k) }
    else none
  | .printed =>
    match w.pc with
    | .printing i => some { w with pc := .error i (errText i) }
    | _ => none
  | .error k =>
    match w.pc with
    | .error i rest =>
      some { w with pc := .error i (rest.drop k), file := w.file.write (desc .stderr) (rest.take k) }
    | _ => none
  | .errorPrinted =>
    match w.pc with
    | .error i [] => some { w with pc := .print (i + 1) }
    | _ => none
  | .exit => if w.pc = .exiting ∧ w.buffer = [] then some { w with pc := .exited } else none

def system (twice : Bool) (count : ℕ) : Lts World Event :=
  ofNext initial (next (descriptions twice) count)

/-! ## What was written -/

/-- What was written to the two streams, where the program is at `pc` with `buffer`. -/
def Wrote (count : ℕ) (parts : Stream → List Byte) (buffer : List Byte) : Pc → Prop
  | .print i =>
    i ≤ count ∧ parts .stdout ++ buffer = texts i .stdout ∧ parts .stderr = texts i .stderr
  | .printing i =>
    i < count ∧ parts .stdout ++ buffer = texts (i + 1) .stdout ∧ parts .stderr = texts i .stderr
  | .error i rest =>
    i < count ∧ parts .stdout ++ buffer = texts (i + 1) .stdout ∧
      parts .stderr ++ rest = texts (i + 1) .stderr
  | .exiting => parts .stdout ++ buffer = texts count .stdout ∧ parts .stderr = texts count .stderr
  | .exited => parts = texts count

/-- The file is related by `Ok` to what was written. -/
def Inv (Ok : (Stream → List Byte) → OpenFile Byte Stream → Prop) (count : ℕ) (w : World) : Prop :=
  ∃ parts, Ok parts w.file ∧ Wrote count parts w.buffer w.pc

theorem texts_succ (i : ℕ) :
    texts (i + 1) .stdout = texts i .stdout ++ outText i ∧
      texts (i + 1) .stderr = texts i .stderr ++ errText i := by
  simp only [texts, List.range_succ, List.flatMap_append, List.flatMap_cons, List.flatMap_nil,
    List.append_nil, and_self]

section Step

variable {Ok : (Stream → List Byte) → OpenFile Byte Stream → Prop} {desc : Stream → Stream} {count : ℕ}
  (hOk : ∀ parts f s bs, Ok parts f →
    Ok (Function.update parts s (parts s ++ bs)) (f.write (desc s) bs))
include hOk

theorem inv_step {w w' : World} {e : Event} (h : Inv Ok count w) (hs : next desc count w e = some w') :
    Inv Ok count w' := by
  obtain ⟨parts, hfile, hwrote⟩ := h
  cases e with
  | print =>
    simp only [next] at hs
    split at hs
    case h_1 i hpc =>
      cases hs
      rw [hpc] at hwrote
      obtain ⟨hi, hout, herr⟩ := hwrote
      split_ifs with hlt
      · refine ⟨parts, hfile, hlt, ?_, herr⟩
        rw [← List.append_assoc, hout, (texts_succ i).1]
      · obtain rfl : i = count := by omega
        exact ⟨parts, hfile, hout, herr⟩
    case h_2 => cases hs
  | flush k =>
    simp only [next] at hs
    split_ifs at hs with hflushes
    cases hs
    refine ⟨_, hOk parts w.file .stdout (w.buffer.take k) hfile, ?_⟩
    have hout : Function.update parts .stdout (parts .stdout ++ w.buffer.take k) .stdout ++
        w.buffer.drop k = parts .stdout ++ w.buffer := by
      rw [Function.update_self, List.append_assoc, List.take_append_drop]
    have herr : Function.update parts .stdout (parts .stdout ++ w.buffer.take k) .stderr =
        parts .stderr := Function.update_of_ne (by decide) _ _
    cases hpc : w.pc with
    | printing i =>
      rw [hpc] at hwrote
      exact ⟨hwrote.1, hout.trans hwrote.2.1, herr.trans hwrote.2.2⟩
    | exiting =>
      rw [hpc] at hwrote
      exact ⟨hout.trans hwrote.1, herr.trans hwrote.2⟩
    | _ =>
      rw [hpc] at hflushes
      cases hflushes
  | printed =>
    simp only [next] at hs
    split at hs
    case h_1 i hpc =>
      cases hs
      rw [hpc] at hwrote
      obtain ⟨hi, hout, herr⟩ := hwrote
      refine ⟨parts, hfile, hi, hout, ?_⟩
      rw [herr, (texts_succ i).2]
    case h_2 => cases hs
  | error k =>
    simp only [next] at hs
    split at hs
    case h_1 i rest hpc =>
      cases hs
      rw [hpc] at hwrote
      obtain ⟨hi, hout, herr⟩ := hwrote
      refine ⟨_, hOk parts w.file .stderr (rest.take k) hfile, hi, ?_, ?_⟩
      · rwa [Function.update_of_ne (by decide)]
      · rw [Function.update_self, List.append_assoc, List.take_append_drop, herr]
    case h_2 => cases hs
  | errorPrinted =>
    simp only [next] at hs
    split at hs
    case h_1 i hpc =>
      cases hs
      rw [hpc] at hwrote
      obtain ⟨hi, hout, herr⟩ := hwrote
      rw [List.append_nil] at herr
      exact ⟨parts, hfile, hi, hout, herr⟩
    case h_2 => cases hs
  | exit =>
    simp only [next] at hs
    split_ifs at hs with hexit
    cases hs
    rw [hexit.1, hexit.2] at hwrote
    refine ⟨parts, hfile, funext fun s => ?_⟩
    cases s with
    | stdout => exact (List.append_nil _).symm.trans hwrote.1
    | stderr => exact hwrote.2

theorem inv_invariant (h₀ : Ok (fun _ => []) initial.file) :
    (ofNext initial (next desc count)).Invariant (Inv Ok count) where
  init w hw := by
    rw [hw]
    exact ⟨fun _ => [], h₀, Nat.zero_le _, rfl, rfl⟩
  step _ _ _ h hs := inv_step hOk h hs

end Step

/-! ## The texts -/

theorem newline_not_mem_digits {i : ℕ} : (10 : Byte) ∉ literal (Nat.toDigits 10 i) := by
  intro h
  obtain ⟨c, hc, heq⟩ := List.mem_map.1 h
  have hdigit : 48 ≤ c.toNat ∧ c.toNat ≤ 57 :=
    Char.isDigit_iff_toNat.1 (Nat.isDigit_of_mem_toDigits (b := 10) (by decide) (by decide) hc)
  have hmod : c.toNat % 256 = 10 := congrArg UInt8.toNat heq
  omega

/-- Every text is a line. -/
theorem count_newline (n : ℕ) (s : Stream) : (texts n s).count 10 = n := by
  have hout : ∀ i, (outText i).count 10 = 1 := by
    intro i
    have hdigits := List.count_eq_zero.2 (newline_not_mem_digits (i := i))
    have hsplit : outText i = literal (Nat.toDigits 10 i) ++ [10] := List.map_append
    rw [hsplit, List.count_append, hdigits]
    rfl
  have herr : ∀ i, (errText i).count 10 = 1 := by
    intro i
    have hsplit : errText i = [9] ++ outText i := rfl
    rw [hsplit, List.count_append, hout]
    rfl
  induction n with
  | zero => cases s <;> rfl
  | succ n ih =>
    cases s with
    | stdout => rw [(texts_succ n).1, List.count_append, ih, hout]
    | stderr => rw [(texts_succ n).2, List.count_append, ih, herr]

theorem length_texts (n : ℕ) : (texts n .stderr).length = (texts n .stdout).length + n := by
  induction n with
  | zero => rfl
  | succ n ih =>
    have hone : (errText n).length = (outText n).length + 1 := rfl
    rw [(texts_succ n).1, (texts_succ n).2, List.length_append, List.length_append, ih, hone]
    omega

/-! ## Results -/

/-- **With `2>&1` nothing is lost**, in every run. When the program has ended the file is a merge of the
two texts, and it has two lines for each number. -/
theorem all_kept {count : ℕ} {tr : List Event} {w : World} (h : (system false count).Run tr w)
    (hexit : w.pc = .exited) :
    Merged (texts count) w.file.content ∧ w.file.content.count 10 = 2 * count := by
  have hOk : ∀ (parts : Stream → List Byte) (f : OpenFile Byte Stream) (s : Stream) (bs : List Byte),
      Merged parts f.content ∧ f.offset .stdout = f.content.length →
      Merged (Function.update parts s (parts s ++ bs))
          (f.write (descriptions false s) bs).content ∧
        (f.write (descriptions false s) bs).offset .stdout =
          (f.write (descriptions false s) bs).content.length := by
    rintro parts f s bs ⟨hmerged, hoffset⟩
    have hdesc : descriptions false s = .stdout := by cases s <;> rfl
    have hcontent : (f.write .stdout bs).content = f.content ++ bs := by
      show writeAt f.content (f.offset .stdout) bs = _
      rw [hoffset, writeAt_length]
    rw [hdesc, hcontent]
    refine ⟨hmerged.append s bs, ?_⟩
    show Function.update f.offset .stdout (f.offset .stdout + bs.length) .stdout = _
    rw [Function.update_self, List.length_append, hoffset]
  obtain ⟨parts, ⟨hmerged, -⟩, hwrote⟩ := (inv_invariant hOk ⟨Merged.nil, rfl⟩).run h
  rw [hexit] at hwrote
  rw [show parts = texts count from hwrote] at hmerged
  refine ⟨hmerged, ?_⟩
  have hsum : ∑ s, (texts count s).count 10 = count + count := by
    rw [Finset.sum_congr rfl fun s _ => count_newline count s]
    rfl
  rw [hmerged.count_eq, hsum, Nat.two_mul]

/-- The run of one number, in which the buffer is written at the end. -/
def oneNumber : List Event :=
  [.print, .printed, .error 3, .errorPrinted, .print, .flush 2, .exit]

theorem all_kept_oneNumber : ∃ w, (system false 1).Run oneNumber w ∧
    Merged (texts 1) w.file.content ∧ w.file.content.count 10 = 2 * 1 := by
  obtain ⟨w, hw, hp⟩ := exists_run_of_exec initial (next (descriptions false) 1) oneNumber
    (fun w => decide (w.pc = .exited)) (by decide)
  exact ⟨w, hw, all_kept hw (of_decide_eq_true hp)⟩

/-- **With `2>test.log` the texts overwrite each other**, in every run. When the program has ended every
byte of the file is one of the two texts' at its place, and the file is as long as the text of `stderr`
and ends like it: as many bytes are lost as `stdout` got. -/
theorem overwritten {count : ℕ} {tr : List Event} {w : World} (h : (system true count).Run tr w)
    (hexit : w.pc = .exited) :
    Overlaid (texts count) w.file.content ∧ w.file.content.length = (texts count .stderr).length ∧
      w.file.content.drop (texts count .stdout).length =
        (texts count .stderr).drop (texts count .stdout).length := by
  have hOk : ∀ (parts : Stream → List Byte) (f : OpenFile Byte Stream) (s : Stream) (bs : List Byte),
      (Overlaid parts f.content ∧ ∀ s, f.offset s = (parts s).length) →
      Overlaid (Function.update parts s (parts s ++ bs)) (f.write (descriptions true s) bs).content ∧
        ∀ r, (f.write (descriptions true s) bs).offset r =
          (Function.update parts s (parts s ++ bs) r).length := by
    rintro parts f s bs ⟨hoverlaid, hoffset⟩
    have hdesc : descriptions true s = s := by cases s <;> rfl
    rw [hdesc]
    constructor
    · show Overlaid _ (writeAt f.content (f.offset s) bs)
      rw [hoffset]
      exact hoverlaid.writeAt s bs
    · intro r
      show Function.update f.offset s (f.offset s + bs.length) r = _
      by_cases hr : r = s
      · rw [hr, Function.update_self, Function.update_self, hoffset, List.length_append]
      · rw [Function.update_of_ne hr, Function.update_of_ne hr, hoffset]
  obtain ⟨parts, ⟨hoverlaid, -⟩, hwrote⟩ := (inv_invariant hOk ⟨Overlaid.nil, fun _ => rfl⟩).run h
  rw [hexit] at hwrote
  rw [show parts = texts count from hwrote] at hoverlaid
  have hlonger := length_texts count
  have hlength : w.file.content.length = (texts count .stderr).length := by
    have hle := hoverlaid.le_length .stderr
    by_cases hnil : w.file.content = []
    · rw [hnil] at hle ⊢
      exact (Nat.le_zero.1 hle).symm
    · obtain ⟨s, hs⟩ := hoverlaid.length_eq hnil
      cases s with
      | stdout => omega
      | stderr => exact hs
  refine ⟨hoverlaid, hlength, List.ext_getElem? fun i => ?_⟩
  rw [List.getElem?_drop, List.getElem?_drop]
  cases hb : w.file.content[(texts count .stdout).length + i]? with
  | none =>
    rw [List.getElem?_eq_none_iff] at hb
    rw [List.getElem?_eq_none (by omega)]
  | some b =>
    obtain ⟨s, hs⟩ := hoverlaid.mem _ b hb
    cases s with
    | stdout =>
      have hlt := (List.getElem?_eq_some_iff.1 hs).1
      omega
    | stderr => exact hs.symm

theorem overwritten_oneNumber : ∃ w, (system true 1).Run oneNumber w ∧
    Overlaid (texts 1) w.file.content ∧ w.file.content.length = (texts 1 .stderr).length ∧
      w.file.content.drop (texts 1 .stdout).length =
        (texts 1 .stderr).drop (texts 1 .stdout).length := by
  obtain ⟨w, hw, hp⟩ := exists_run_of_exec initial (next (descriptions true) 1) oneNumber
    (fun w => decide (w.pc = .exited)) (by decide)
  exact ⟨w, hw, overwritten hw (of_decide_eq_true hp)⟩

end LinuxDemo.Redirect
