import Mathlib.Control.Monad.Basic
import Mathlib.Order.Interval.Set.Basic
import LinuxDemo.Lib.Buffer

/-!
# Words and strings in memory

A word of 32 bits lies in memory with its least significant byte first. Code that reads from
memory logs the addresses it reads and fails outside the memory.

* `wordBytes`, `wordAt`: the four bytes of a word, and the word at the beginning of some memory.
* `stringAt`: the zero-terminated string at the beginning of some memory.
* `strncmp`: compares two strings in memory.
* `Access`, `loadWord`, `loadString`: logged accesses.
* `Yields m a S`: `m` ends with the result `a` and reads addresses in `S` only.
-/

namespace LinuxDemo

/-- Byte `i` of a word. -/
def wordByte (v : BitVec 32) (i : ℕ) : Byte := ⟨v.extractLsb' (8 * i) 8⟩

/-- The bytes of a word. -/
def wordBytes (v : BitVec 32) : List Byte :=
  [wordByte v 0, wordByte v 1, wordByte v 2, wordByte v 3]

/-- The word at the beginning of the memory, if there is so much of it. -/
def wordAt : List Byte → Option (BitVec 32)
  | b₀ :: b₁ :: b₂ :: b₃ :: _ =>
    some (b₃.toBitVec ++ b₂.toBitVec ++ b₁.toBitVec ++ b₀.toBitVec)
  | _ => none

/-- The string at the beginning of the memory, if there is a terminator. -/
def stringAt (mem : List Byte) : Option (List Byte) := (strlen mem).map (mem.take ·)

@[simp] theorem length_wordBytes (v : BitVec 32) : (wordBytes v).length = 4 := rfl

theorem wordAt_wordBytes (v : BitVec 32) (rest : List Byte) :
    wordAt (wordBytes v ++ rest) = some v := by
  simp only [wordBytes, wordByte, List.cons_append, wordAt, Option.some.injEq]
  ext i hi
  -- the slices are 8 bits wide, so bit `i` comes from slice `i / 8`
  simp only [BitVec.getElem_append, BitVec.getElem_extractLsb']
  split_ifs <;>
  · rw [BitVec.getLsbD_eq_getElem (by omega)]
    congr 1
    omega

/-- Behind a part of the memory. -/
theorem drop_add_length {α : Type*} {mem w rest : List α} {i : ℕ} (h : mem.drop i = w ++ rest) :
    mem.drop (i + w.length) = rest := by
  rw [← List.drop_drop, h, List.drop_left]

theorem stringAt_append_zero {w : List Byte} (h : 0 ∉ w) (rest : List Byte) :
    stringAt (w ++ 0 :: rest) = some w := by
  unfold stringAt
  rw [strlen_append_zero, (cstr_eq_self_iff w).2 h, Option.map_some, List.take_left]

/-- A terminated string is read up to its first zero. -/
theorem stringAt_terminated (w rest : List Byte) : stringAt (w ++ 0 :: rest) = some (cstr w) := by
  have hprefix : cstr w <+: w ++ 0 :: rest := (List.takeWhile_prefix _).trans (List.prefix_append _ _)
  rw [stringAt, strlen_append_zero, Option.map_some, ← List.prefix_iff_eq_take.1 hprefix]

theorem stringAt_eq_none {w : List Byte} (h : 0 ∉ w) : stringAt w = none := by
  rw [stringAt, Option.map_eq_none_iff, strlen, List.findIdx?_eq_none_iff]
  intro b hb
  rw [beq_eq_false_iff_ne]
  rintro rfl
  exact h hb

/-! ## Comparing -/

/-- `strncmp(s, t, n)`; `none` when it gets to the end of the memory. -/
def strncmp : ℕ → List Byte → List Byte → Option ℤ
  | 0, _, _ => some 0
  | n + 1, a :: s, b :: t =>
    if a ≠ b then some (a.toNat - b.toNat)
    else if a = 0 then some 0
    else strncmp n s t
  | _ + 1, _, _ => none

/-- Compared with a text that has no zero in it, all bytes count. -/
theorem strncmp_eq_zero_iff {mem text : List Byte} (hzero : 0 ∉ text)
    (hlen : text.length ≤ mem.length) :
    ∃ v, strncmp text.length mem text = some v ∧ (v = 0 ↔ text <+: mem) := by
  induction text generalizing mem with
  | nil => exact ⟨0, rfl, by simp⟩
  | cons b text ih =>
    cases mem with
    | nil => simp at hlen
    | cons a mem =>
      rw [List.mem_cons, not_or] at hzero
      rw [List.length_cons, strncmp, List.cons_prefix_cons]
      by_cases hab : a = b
      · obtain ⟨v, hv, hiff⟩ := ih hzero.2 (Nat.le_of_succ_le_succ hlen)
        have ha : a ≠ 0 := fun h0 => hzero.1 (h0.symm.trans hab)
        rw [if_neg (not_not.2 hab), if_neg ha]
        exact ⟨v, hv, by rw [hiff, and_iff_right hab.symm]⟩
      · refine ⟨_, if_pos hab, ?_⟩
        have hne : a.toNat ≠ b.toNat := fun h => hab (UInt8.toNat_inj.1 h)
        constructor
        · intro h
          omega
        · intro h
          exact absurd h.1.symm hab

/-! ## Logged accesses -/

/-- Code that reads from memory; the state is the list of the addresses read so far. -/
abbrev Access := StateT (List ℕ) Option

def loadWord (mem : List Byte) (i : ℕ) : Access (BitVec 32) := fun log =>
  (wordAt (mem.drop i)).map fun v => (v, log ++ List.range' i 4)

/-- The string at `i`, read up to its terminator. -/
def loadString (mem : List Byte) (i : ℕ) : Access (List Byte) := fun log =>
  (stringAt (mem.drop i)).map fun s => (s, log ++ List.range' i (s.length + 1))

section Yields

variable {α β : Type}

/-- The code ends with the result `a`, and all addresses it reads are in `S`. -/
def Yields (m : Access α) (a : α) (S : Set ℕ) : Prop :=
  ∀ log, ∃ reads, m.run log = some (a, log ++ reads) ∧ ∀ i ∈ reads, i ∈ S

variable {m : Access α} {a : α} {S T : Set ℕ}

theorem Yields.mono (h : Yields m a S) (hST : S ⊆ T) : Yields m a T := by
  intro log
  obtain ⟨reads, hrun, hmem⟩ := h log
  exact ⟨reads, hrun, fun i hi => hST (hmem i hi)⟩

theorem yields_pure (a : α) (S : Set ℕ) : Yields (pure a) a S := by
  intro log
  exact ⟨[], by simp, by simp⟩

theorem Yields.bind {f : α → Access β} {b : β} (h : Yields m a S) (hf : Yields (f a) b S) :
    Yields (m >>= f) b S := by
  intro log
  obtain ⟨reads, hrun, hmem⟩ := h log
  obtain ⟨more, hmore, hmem'⟩ := hf (log ++ reads)
  refine ⟨reads ++ more, ?_, ?_⟩
  · rw [StateT.run_bind, hrun, ← List.append_assoc]
    exact hmore
  · intro i hi
    rcases List.mem_append.1 hi with hi | hi
    · exact hmem i hi
    · exact hmem' i hi

theorem Yields.map (f : α → β) (h : Yields m a S) : Yields (f <$> m) (f a) S := by
  rw [map_eq_pure_bind]
  exact h.bind (yields_pure (f a) S)

end Yields

theorem yields_loadWord {mem rest : List Byte} {i : ℕ} {v : BitVec 32} {S : Set ℕ}
    (hmem : mem.drop i = wordBytes v ++ rest) (hS : Set.Ico i (i + 4) ⊆ S) :
    Yields (loadWord mem i) v S := by
  intro log
  refine ⟨List.range' i 4, ?_, ?_⟩
  · simp [loadWord, StateT.run, hmem, wordAt_wordBytes]
  · intro j hj
    exact hS (by simpa using hj)

theorem yields_loadString {mem w rest : List Byte} {i : ℕ} {S : Set ℕ} (hw : 0 ∉ w)
    (hmem : mem.drop i = w ++ 0 :: rest) (hS : Set.Ico i (i + (w.length + 1)) ⊆ S) :
    Yields (loadString mem i) w S := by
  intro log
  refine ⟨List.range' i (w.length + 1), ?_, ?_⟩
  · simp [loadString, StateT.run, hmem, stringAt_append_zero hw]
  · intro j hj
    exact hS (by simpa using hj)

end LinuxDemo
