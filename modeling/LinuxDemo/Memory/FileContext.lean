import Mathlib.Algebra.BigOperators.Group.List.Basic
import Mathlib.Algebra.Order.Ring.Nat
import LinuxDemo.Lib.Buffer

/-!
# `_fileContext` of `memory/mmap_file/main.c`

`_fileContext` reads a whole file into memory of its own. `read` may deliver the file in any number
of pieces, and every call of it is given the beginning of the buffer, so a piece overwrites the one
before it.

* `loop_positive`: what the loop leaves in the buffer: behind the longest piece, the memory as
  `malloc` returned it.
* `returnsFile_iff`: whatever `malloc` returns, the result is the file if and only if the file came
  in one piece.
* `not_returnsFile`: a file of two bytes that came in two pieces.
-/

namespace LinuxDemo.FileContext

/-- What a call of `read` returns. -/
inductive ReadResult where
  | error
  /-- The number of bytes delivered; 0 at the end of the file. -/
  | size (n : ℕ)
  deriving DecidableEq

/-- The locals of the loop. -/
structure Locals where
  totalReadSize : ℕ
  buffer : List Byte
  /-- What the descriptor has not delivered yet. -/
  unread : List Byte
  deriving DecidableEq

/-- The `while` loop, on the results of its calls of `read`. `none` when there are not enough of
them, or when one has more bytes than were asked for or than the file has left. -/
def loop (fileSize : ℕ) : List ReadResult → Locals → Option Locals
  | [], l => if l.totalReadSize < fileSize then none else some l
  | r :: rs, l =>
    if l.totalReadSize < fileSize then
      match r with
      | .error => some l
      | .size 0 => some l
      | .size n =>
        if n ≤ fileSize - l.totalReadSize ∧ n ≤ l.unread.length then
          loop fileSize rs
            ⟨l.totalReadSize + n, overlay (l.unread.take n) l.buffer, l.unread.drop n⟩
        else none
    else some l

/-- `_fileContext` on a file that can be opened, or not; `some none` is `NULL`. `memory` is what
`malloc` returns. -/
def fileContext (file : Option (List Byte)) (memory : ℕ → Byte) (results : List ReadResult) :
    Option (Option (List Byte)) :=
  match file with
  | none => some none
  | some file => do
    let fileSize := file.length
    let buffer := (List.range (fileSize + 1)).map memory
    let l ← loop fileSize results ⟨0, buffer, file⟩
    let buffer ← store l.buffer l.totalReadSize 0
    return some buffer

/-- The result holds the file, and a zero behind it. -/
def ReturnsFile (file : List Byte) (sizes : List ℕ) (memory : ℕ → Byte) : Prop :=
  ∃ buffer, fileContext (some file) memory (sizes.map .size) = some (some buffer) ∧
    buffer.take file.length = file ∧ buffer[file.length]? = some 0

/-! ## The loop -/

theorem loop_size {fileSize n : ℕ} {rs : List ReadResult} {l : Locals}
    (hl : l.totalReadSize < fileSize) (hn : 0 < n) (hfits : n ≤ fileSize - l.totalReadSize)
    (hunread : n ≤ l.unread.length) :
    loop fileSize (.size n :: rs) l =
      loop fileSize rs
        ⟨l.totalReadSize + n, overlay (l.unread.take n) l.buffer, l.unread.drop n⟩ := by
  rw [loop, if_pos hl, if_pos ⟨hfits, hunread⟩]
  exact hn.ne'

theorem fileContext_eq {file : List Byte} {memory : ℕ → Byte} {results : List ReadResult}
    {l : Locals}
    (h : loop file.length results ⟨0, (List.range (file.length + 1)).map memory, file⟩ = some l) :
    fileContext (some file) memory results = (store l.buffer l.totalReadSize 0).map some := by
  simp only [fileContext, h, Option.bind_eq_bind, Option.bind_some]
  exact (Option.map_eq_bind ..).symm

/-- Positive results that add up to the rest of the file end the loop. No piece has more than `m`
bytes, so the buffer is as before from there on. -/
theorem loop_positive (fileSize : ℕ) {m : ℕ} {sizes : List ℕ} (hpos : ∀ n ∈ sizes, 0 < n)
    (hm : ∀ n ∈ sizes, n ≤ m) :
    ∀ l : Locals, l.totalReadSize + sizes.sum = fileSize → l.unread.length = sizes.sum →
      fileSize < l.buffer.length →
      ∃ l', loop fileSize (sizes.map .size) l = some l' ∧ l'.totalReadSize = fileSize ∧
        l'.buffer.length = l.buffer.length ∧ l'.buffer.drop m = l.buffer.drop m := by
  induction sizes with
  | nil =>
    intro l htotal _ _
    rw [List.sum_nil, Nat.add_zero] at htotal
    refine ⟨l, ?_, htotal, rfl, rfl⟩
    rw [List.map_nil, loop, if_neg (by omega)]
  | cons n sizes ih =>
    intro l htotal hunread hbuffer
    have hn : 0 < n := hpos n List.mem_cons_self
    rw [List.sum_cons] at htotal hunread
    have htake : (l.unread.take n).length = n := List.length_take_of_le (by omega)
    have hlen : (overlay (l.unread.take n) l.buffer).length = l.buffer.length :=
      length_overlay (by omega)
    rw [List.map_cons, loop_size (by omega) hn (by omega) (by omega)]
    obtain ⟨l', hloop, htotal', hlen', hdrop⟩ :=
      ih (fun k hk => hpos k (List.mem_cons_of_mem n hk))
        (fun k hk => hm k (List.mem_cons_of_mem n hk))
        ⟨l.totalReadSize + n, overlay (l.unread.take n) l.buffer, l.unread.drop n⟩
        (by show l.totalReadSize + n + sizes.sum = fileSize; omega)
        (by show (l.unread.drop n).length = sizes.sum; rw [List.length_drop]; omega)
        (by show fileSize < (overlay (l.unread.take n) l.buffer).length; omega)
    refine ⟨l', hloop, htotal', hlen'.trans hlen, hdrop.trans ?_⟩
    exact drop_overlay (by rw [htake]; exact hm n List.mem_cons_self)

/-! ## Files in one piece -/

theorem returnsFile_nil (memory : ℕ → Byte) : ReturnsFile [] [] memory :=
  ⟨[0], rfl, rfl, rfl⟩

theorem returnsFile_one {file : List Byte} (hfile : file ≠ []) (memory : ℕ → Byte) :
    ReturnsFile file [file.length] memory := by
  have hpos : 0 < file.length := List.length_pos_iff.2 hfile
  have hbuffer : ((List.range (file.length + 1)).map memory).length = file.length + 1 := by simp
  refine ⟨overlay (file ++ [0]) ((List.range (file.length + 1)).map memory), ?_, ?_, ?_⟩
  · have hloop : loop file.length ([file.length].map .size)
        ⟨0, (List.range (file.length + 1)).map memory, file⟩ =
        some ⟨file.length, overlay file ((List.range (file.length + 1)).map memory), []⟩ := by
      rw [List.map_singleton, loop_size hpos hpos le_rfl le_rfl, loop, if_neg (by simp)]
      simp
    rw [fileContext_eq hloop, store_overlay (by omega)]
    rfl
  · unfold overlay
    rw [List.append_assoc]
    exact List.take_left
  · unfold overlay
    simp

/-! ## Files in several pieces -/

/-- A piece of a file in several pieces is shorter than the file. -/
theorem size_lt_sum {sizes : List ℕ} (hpos : ∀ n ∈ sizes, 0 < n) (hlen : 2 ≤ sizes.length) :
    ∀ n ∈ sizes, n < sizes.sum := by
  intro n hn
  obtain ⟨s, t, rfl⟩ := List.append_of_mem hn
  simp only [List.length_append, List.length_cons] at hlen
  rw [List.sum_append, List.sum_cons]
  have hother : 0 < s.sum ∨ 0 < t.sum := by
    cases s with
    | cons a s =>
      have := hpos a (by simp)
      left
      rw [List.sum_cons]
      omega
    | nil =>
      cases t with
      | cons a t =>
        have := hpos a (by simp)
        right
        rw [List.sum_cons]
        omega
      | nil => simp at hlen
  omega

/-- The last byte is what `malloc` has left there. -/
theorem last_of_returnsFile {file : List Byte} {sizes : List ℕ} {memory : ℕ → Byte}
    (hpos : ∀ n ∈ sizes, 0 < n) (hsum : sizes.sum = file.length) (hlen : 2 ≤ sizes.length)
    (h : ReturnsFile file sizes memory) :
    file[file.length - 1]? = some (memory (file.length - 1)) := by
  obtain ⟨buffer, hresult, htake, -⟩ := h
  have hlt := size_lt_sum hpos hlen
  have hfile : 0 < file.length := by
    obtain ⟨n, hn⟩ : ∃ n, n ∈ sizes := List.exists_mem_of_length_pos (by omega)
    have := hlt n hn
    omega
  have hm : ∀ n ∈ sizes, n ≤ file.length - 1 := by
    intro n hn
    have := hlt n hn
    omega
  obtain ⟨l, hloop, htotal, -, hdrop⟩ := loop_positive file.length hpos hm
    ⟨0, (List.range (file.length + 1)).map memory, file⟩ (by simpa using hsum) hsum.symm (by simp)
  rw [fileContext_eq hloop, store, htotal] at hresult
  split_ifs at hresult with hstore
  · cases hresult
    calc file[file.length - 1]?
        = ((l.buffer.set file.length 0).take file.length)[file.length - 1]? := by rw [htake]
      _ = l.buffer[file.length - 1]? := by
        rw [List.getElem?_take_of_lt (by omega), List.getElem?_set_ne (by omega)]
      _ = (l.buffer.drop (file.length - 1))[0]? := by rw [List.getElem?_drop, Nat.add_zero]
      _ = some (memory (file.length - 1)) := by
        rw [hdrop, List.getElem?_drop, Nat.add_zero, List.getElem?_map,
          List.getElem?_range (by omega)]
        rfl
  · cases hresult

/-- **The result is the file if and only if it came in one piece** (or has nothing to read),
whatever the memory that `malloc` returns held before. -/
theorem returnsFile_iff {file : List Byte} {sizes : List ℕ} (hpos : ∀ n ∈ sizes, 0 < n)
    (hsum : sizes.sum = file.length) :
    (∀ memory, ReturnsFile file sizes memory) ↔ sizes.length ≤ 1 := by
  constructor
  · intro h
    by_contra hlen
    have hlast := fun memory => last_of_returnsFile hpos hsum (by omega) (h memory)
    have hne := (hlast fun _ => 0).symm.trans (hlast fun _ => 1)
    cases hne
  · intro hlen memory
    match sizes, hlen with
    | [], _ =>
      have hnil : file = [] := List.length_eq_zero_iff.1 hsum.symm
      rw [hnil]
      exact returnsFile_nil memory
    | [n], _ =>
      have hn : n = file.length := by simpa using hsum
      rw [hn]
      apply returnsFile_one
      intro hnil
      have := hpos n List.mem_cons_self
      simp [hn, hnil] at this

theorem returnsFile_iff_onePiece :
    (∀ memory, ReturnsFile [97, 98] [2] memory) ∧ ¬∀ memory, ReturnsFile [97, 98] [1, 1] memory :=
  ⟨(returnsFile_iff (by decide) rfl).2 (by decide),
    fun h => absurd ((returnsFile_iff (by decide) rfl).1 h) (by decide)⟩

/-- **The second byte overwrites the first** when a file of two bytes comes in two pieces. -/
theorem not_returnsFile :
    ¬∀ (file : List Byte) (sizes : List ℕ) (memory : ℕ → Byte), (∀ n ∈ sizes, 0 < n) →
      sizes.sum = file.length → ReturnsFile file sizes memory := by
  intro h
  obtain ⟨buffer, hresult, htake, -⟩ := h [97, 98] [1, 1] (fun _ => 0) (by decide) rfl
  have hbuffer : fileContext (some [97, 98]) (fun _ => 0) ([1, 1].map .size) =
      some (some [98, 0, 0]) := by decide
  rw [hbuffer] at hresult
  cases hresult
  cases htake

end LinuxDemo.FileContext
