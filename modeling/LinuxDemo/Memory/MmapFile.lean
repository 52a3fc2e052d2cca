import LinuxDemo.Lib.Memory
import LinuxDemo.Memory.FileContext

/-!
# `memory/mmap_file/main.c`

`main` maps a file with a text in it, shared or private, and forks. The child prints the mapping as a
string, adds `'A' - 'a'` to every byte of it, and reads the file with `_fileContext`; the parent waits for
the child and reads the file too. The other `printf`s are left out.

A private mapping is a copy of the file from the start here; nobody else writes to the file, so this is no
different from a copy of a page at its first change. The page behind the end of the file is filled with
zeros; behind that page nothing may be read.

* `upcase_eq`: the loop of the child changes every byte of the mapping, and nothing else.
* `main_exact`: the program works if and only if the text ends inside a page, or has a zero. Both processes
  then read the changed text from the file of a shared mapping, and the text as it was from the other.
-/

namespace LinuxDemo.MmapFile

open FileContext

/-! ## The program -/

/-- A file, and all of it mapped to memory. -/
structure Mapping where
  shared : Bool
  file : List Byte
  /-- The copy that a private mapping is. -/
  own : List Byte
  deriving DecidableEq

def Mapping.bytes (m : Mapping) : List Byte := if m.shared then m.file else m.own

def Mapping.write (m : Mapping) (bs : List Byte) : Mapping :=
  if m.shared then { m with file := bs } else { m with own := bs }

/-- `p[i] = b`. -/
def Mapping.store (m : Mapping) (i : ℕ) (b : Byte) : Option Mapping :=
  (LinuxDemo.store m.bytes i b).map m.write

/-- `p`, as a string: what is in memory from there to the end of the last page. -/
def Mapping.string (pageSize : ℕ) (m : Mapping) : Option (List Byte) :=
  stringAt (m.bytes ++ List.replicate ((pageSize - m.bytes.length % pageSize) % pageSize) 0)

/-- `'A' - 'a'`. -/
def shift : Byte := 65 - 97

/-- The `for` loop of `_childFunc`, for `n` more bytes. -/
def upcase : ℕ → ℕ → Mapping → Option Mapping
  | 0, _, m => some m
  | n + 1, i, m => do
    let b ← m.bytes[i]?
    let m ← m.store i (b + shift)
    upcase n (i + 1) m

/-- What the system calls of a run give. -/
structure Env where
  pageSize : ℕ
  opened : Bool
  mapped : Bool
  forked : Bool
  /-- The new memory and the results of `read`, in `_fileContext` of the child. -/
  childMemory : ℕ → Byte
  childReads : List ReadResult
  parentMemory : ℕ → Byte
  parentReads : List ReadResult

/-- What the child prints, and the file then. Whether `msync` and `munmap` fail makes no difference to
the file, and what `_childFunc` returns is not used. -/
def child (env : Env) (mapSize : ℕ) (m : Mapping) : Option ((List Byte × List Byte) × List Byte) := do
  let before ← m.string env.pageSize
  let m ← upcase mapSize 0 m
  let some buff ← fileContext (some m.file) env.childMemory env.childReads | none
  let context ← stringAt buff
  return ((before, context), m.file)

/-- What the program prints. -/
structure Output where
  /-- `before modify is [..]`. -/
  before : List Byte
  /-- `child: file context is [..]`. -/
  child : List Byte
  /-- `parent: file context is [..]`. -/
  parent : List Byte
  deriving DecidableEq

/-- `main`, with the text of `buffer`. It fails where the program reads memory that it has not got; an
inner `none` is a return of -1. -/
def main (env : Env) (usePrivate : Bool) (text : List Byte) : Option (Option Output) :=
  -- `mmap` fails for a `mapSize` of 0.
  if env.opened && env.mapped && !text.isEmpty && env.forked then do
    let ((before, context), file) ← child env text.length ⟨!usePrivate, text, text⟩
    let some buff ← fileContext (some file) env.parentMemory env.parentReads | none
    let parent ← stringAt buff
    return some ⟨before, context, parent⟩
  else some none

/-! ## The mapping -/

theorem cstr_append_zero (w rest : List Byte) : cstr (w ++ 0 :: rest) = cstr w := by
  unfold cstr
  rw [List.takeWhile_append]
  split_ifs with h
  · rw [List.takeWhile_cons_of_neg (by decide), List.append_nil]
    exact ((List.takeWhile_prefix _).eq_of_length h).symm
  · rfl

section Mapping

variable (m : Mapping)

@[simp] theorem write_shared (bs : List Byte) : (m.write bs).shared = m.shared := by
  unfold Mapping.write
  split_ifs <;> rfl

@[simp] theorem write_bytes (bs : List Byte) : (m.write bs).bytes = bs := by
  unfold Mapping.bytes
  rw [write_shared]
  unfold Mapping.write
  split_ifs <;> rfl

@[simp] theorem write_write (bs bs' : List Byte) : (m.write bs).write bs' = m.write bs' := by
  obtain ⟨shared, file, own⟩ := m
  cases shared <;> rfl

@[simp] theorem write_self : m.write m.bytes = m := by
  obtain ⟨shared, file, own⟩ := m
  cases shared <;> rfl

/-- **The loop of the child**, entered behind `done`, changes the bytes that are left. -/
theorem upcase_eq (done rest : List Byte) {m : Mapping} (h : m.bytes = done ++ rest) :
    upcase rest.length done.length m = some (m.write (done ++ rest.map (· + shift))) := by
  induction rest generalizing done m with
  | nil =>
    rw [List.map_nil, ← h, write_self]
    rfl
  | cons b rest ih =>
    have hload : m.bytes[done.length]? = some b := by
      rw [h, List.getElem?_append_right le_rfl, Nat.sub_self]
      rfl
    have hlt : done.length < m.bytes.length := by
      rw [h, List.length_append, List.length_cons]
      omega
    have hset : m.bytes.set done.length (b + shift) = (done ++ [b + shift]) ++ rest := by
      rw [h, List.set_append_right _ _ le_rfl, Nat.sub_self, List.set_cons_zero, List.append_assoc,
        List.singleton_append]
    have hstore : m.store done.length (b + shift) = some (m.write ((done ++ [b + shift]) ++ rest)) := by
      rw [Mapping.store, LinuxDemo.store, if_pos hlt, Option.map_some, hset]
    have hnext := ih (done ++ [b + shift]) (write_bytes m ((done ++ [b + shift]) ++ rest))
    rw [List.length_append, List.length_singleton, write_write, List.append_assoc done,
      List.append_assoc done] at hnext
    rw [List.append_assoc done] at hstore
    rw [List.length_cons, upcase, hload, List.map_cons]
    simp only [hstore, Option.bind_eq_bind, Option.bind_some]
    exact hnext

/-- The mapping is a string when it has a zero, or one follows in its last page. -/
theorem string_eq {pageSize : ℕ} (hpos : 0 < pageSize) :
    m.string pageSize = if 0 ∈ m.bytes ∨ ¬pageSize ∣ m.bytes.length then some (cstr m.bytes) else none := by
  unfold Mapping.string
  by_cases hdvd : pageSize ∣ m.bytes.length
  · rw [Nat.mod_eq_zero_of_dvd hdvd, Nat.sub_zero, Nat.mod_self, List.replicate_zero, List.append_nil]
    by_cases hzero : 0 ∈ m.bytes
    · obtain ⟨w, rest, hsplit, -⟩ := List.eq_append_cons_of_mem hzero
      rw [if_pos (Or.inl hzero), hsplit, stringAt_terminated, cstr_append_zero]
    · rw [if_neg (by simp [hzero, hdvd]), stringAt_eq_none hzero]
  · have hmod : 0 < m.bytes.length % pageSize := Nat.pos_of_ne_zero fun h => hdvd (Nat.dvd_of_mod_eq_zero h)
    have hlt := Nat.mod_lt m.bytes.length hpos
    have hfill : pageSize - m.bytes.length % pageSize < pageSize := by omega
    obtain ⟨k, hk⟩ : ∃ k, pageSize - m.bytes.length % pageSize = k + 1 :=
      Nat.exists_eq_succ_of_ne_zero (by omega)
    rw [Nat.mod_eq_of_lt hfill, hk, List.replicate_succ, stringAt_terminated, if_pos (Or.inr hdvd)]

end Mapping

/-! ## Results -/

/-- A file that comes in one piece is printed up to its first zero. -/
theorem fileContext_onePiece {file : List Byte} (hfile : file ≠ []) (memory : ℕ → Byte) :
    ∃ buffer, fileContext (some file) memory [.size file.length] = some (some buffer) ∧
      stringAt buffer = some (cstr file) := by
  obtain ⟨buffer, hresult, htake, hzero⟩ := returnsFile_one hfile memory
  refine ⟨buffer, hresult, ?_⟩
  obtain ⟨hlt, hget⟩ := List.getElem?_eq_some_iff.1 hzero
  have hsplit : buffer = file ++ 0 :: buffer.drop (file.length + 1) := by
    rw [← hget, ← List.drop_eq_getElem_cons hlt]
    conv_rhs => rw [← htake]
    rw [List.length_take_of_le hlt.le, List.take_append_drop]
  rw [hsplit, stringAt_terminated]

/-- The file when the child has ended. -/
def fileAfter (usePrivate : Bool) (text : List Byte) : List Byte :=
  if usePrivate then text else text.map (· + shift)

theorem length_fileAfter (usePrivate : Bool) (text : List Byte) :
    (fileAfter usePrivate text).length = text.length := by
  cases usePrivate with
  | true => rfl
  | false => exact List.length_map _

/-- **The child's changes are in the file of a shared mapping only.** The program works, for any text, if
and only if the text ends inside a page or has a zero; both processes then print the file, which was
changed by the child or not. -/
theorem main_exact {env : Env} {usePrivate : Bool} {text : List Byte} (hopened : env.opened = true)
    (hmapped : env.mapped = true) (hforked : env.forked = true) (htext : text ≠ [])
    (hpage : 0 < env.pageSize) (hchild : env.childReads = [.size text.length])
    (hparent : env.parentReads = [.size text.length]) :
    main env usePrivate text =
      if 0 ∈ text ∨ ¬env.pageSize ∣ text.length then
        some (some ⟨cstr text, cstr (fileAfter usePrivate text), cstr (fileAfter usePrivate text)⟩)
      else none := by
  obtain ⟨m, hm⟩ : ∃ m : Mapping, m = ⟨!usePrivate, text, text⟩ := ⟨_, rfl⟩
  have hbytes : m.bytes = text := by
    rw [hm]
    cases usePrivate <;> rfl
  have hfile : (m.write (text.map (· + shift))).file = fileAfter usePrivate text := by
    rw [hm]
    cases usePrivate <;> rfl
  have hupcase : upcase text.length 0 m = some (m.write (text.map (· + shift))) :=
    upcase_eq [] text hbytes
  have hlength := length_fileAfter usePrivate text
  have hne : fileAfter usePrivate text ≠ [] := by
    rw [← List.length_pos_iff, hlength]
    exact List.length_pos_iff.2 htext
  obtain ⟨buff, hbuff, hcontext⟩ := fileContext_onePiece hne env.childMemory
  obtain ⟨buff', hbuff', hcontext'⟩ := fileContext_onePiece hne env.parentMemory
  rw [hlength] at hbuff hbuff'
  have hstring := string_eq m hpage
  rw [hbytes] at hstring
  have henv : (env.opened && env.mapped && !text.isEmpty && env.forked) = true := by
    rw [hopened, hmapped, hforked]
    simpa using htext
  rw [main, if_pos henv, ← hm, child, hstring]
  by_cases hends : 0 ∈ text ∨ ¬env.pageSize ∣ text.length
  · rw [if_pos hends, if_pos hends, hchild, hparent]
    simp only [Option.bind_eq_bind, Option.bind_some, Option.pure_def, hupcase, hfile, hbuff, hcontext,
      hbuff', hcontext']
  · rw [if_neg hends, if_neg hends]
    rfl

end LinuxDemo.MmapFile
