import LinuxDemo.Lib.Memory

/-!
# The header loop of `socket/http_client/main.c` and `socket/http_client/old.c`

Both programs read the answer of a server one byte at a time, print it, and stop behind the empty
line that ends the header, or when the buffer is full. The loop counts its rounds, not its bytes: a
round at the end of the stream stores nothing.

**Theorem (`header_read`).** Of every stream, the loop prints and consumes the shortest part that
ends with the delimiter, or the first 1024 bytes if there is no such part among them.

The bytes `c` that were read determine the state: `i` is their number, and the buffer holds them
with zeros behind. The four bytes that are compared are then the last four of `c`.
-/

namespace LinuxDemo.HttpClient

/-- What `read(fd, &ch, 1)` gives. -/
inductive ReadResult where
  | byte (ch : Byte)
  /-- `0`. -/
  | eof
  /-- `-1`. -/
  | error
  deriving DecidableEq

/-- `sizeof(buffer)`. -/
def bufferSize : ℕ := 1024

/-- `"\r\n\r\n"`. -/
def delimiter : List Byte := [13, 10, 13, 10]

/-- What the loop has printed, and what it has left to be read. -/
structure Outcome where
  printed : List Byte
  rest : List ReadResult
  deriving DecidableEq

/-- The test after `buffer[i] = ch`. -/
def atEnd (buffer : List Byte) (i : ℕ) : Option Bool :=
  if i ≥ 3 then (strncmp 4 (buffer.drop (i - 3)) delimiter).map (· == 0) else some false

/-- The loop. At the end of the list the descriptor is at end of file, where every further read
gives 0. It fails where it would leave the buffer. -/
def loop (i : ℕ) (buffer : List Byte) (s : List ReadResult) : Option Outcome :=
  if i < bufferSize then
    match s with
    | [] => loop (i + 1) buffer []
    | .error :: s => some ⟨[], s⟩
    | .eof :: s => loop (i + 1) buffer s
    | .byte ch :: s => do
      let buffer ← store buffer i ch
      if ← atEnd buffer i then return ⟨[ch], s⟩
      let o ← loop (i + 1) buffer s
      return { o with printed := ch :: o.printed }
  else
    some ⟨[], s⟩
termination_by bufferSize - i

/-- The loop of `main`, with a buffer full of zeros. -/
def header (s : List ReadResult) : Option Outcome := loop 0 (List.replicate bufferSize 0) s

/-! ## What is to be read -/

/-- A part of the stream that ends with the delimiter. -/
def Ends (s p : List Byte) : Prop := p <+: s ∧ delimiter <:+ p

/-- The header: the shortest such part. -/
def Shortest (s p : List Byte) : Prop := Ends s p ∧ ∀ q, Ends s q → p.length ≤ q.length

/-- What the loop should print: the header if it fits the buffer, or as much as fits. -/
def Read (s p : List Byte) : Prop :=
  (Shortest s p ∧ p.length ≤ bufferSize) ∨
    ((∀ q, Shortest s q → bufferSize < q.length) ∧ p = s.take bufferSize)

/-! ## The window -/

theorem delimiter_nonzero : 0 ∉ delimiter := by decide

/-- The test finds the delimiter at the end of what was read. -/
theorem atEnd_overlay (buf : List Byte) {c : List Byte} {i : ℕ} (hi : c.length = i + 1) :
    ∃ b, atEnd (overlay c buf) i = some b ∧ (b = true ↔ delimiter <:+ c) := by
  unfold atEnd
  split_ifs with h3
  · have hmem : (overlay c buf).drop (i - 3) = c.drop (i - 3) ++ buf.drop c.length := by
      unfold overlay
      exact List.drop_append_of_le_length (by omega)
    have hwindow : (c.drop (i - 3)).length = delimiter.length := by
      rw [List.length_drop]
      show c.length - (i - 3) = 4
      omega
    have hlen : delimiter.length ≤ (c.drop (i - 3) ++ buf.drop c.length).length := by
      rw [List.length_append, hwindow]
      exact Nat.le_add_right _ _
    obtain ⟨v, hv, hiff⟩ := strncmp_eq_zero_iff delimiter_nonzero hlen
    refine ⟨v == 0, ?_, ?_⟩
    · rw [hmem, show (4 : ℕ) = delimiter.length from rfl, hv]
      rfl
    · have hlast : c.length - delimiter.length = i - 3 := by
        show c.length - 4 = i - 3
        omega
      rw [beq_iff_eq, hiff, List.prefix_iff_eq_take, ← hwindow, List.take_left,
        List.suffix_iff_eq_drop, hlast]
  · refine ⟨false, rfl, iff_of_false Bool.false_ne_true ?_⟩
    intro hsuffix
    have : 4 ≤ c.length := hsuffix.length_le
    omega

/-! ## The loop -/

/-- At the end of the stream the rest of the rounds does nothing. -/
theorem loop_nil (i : ℕ) (buffer : List Byte) : loop i buffer [] = some ⟨[], []⟩ := by
  induction hk : bufferSize - i generalizing i with
  | zero => rw [loop, if_neg (by omega)]
  | succ k ih =>
    rw [loop, if_pos (by omega)]
    exact ih (i + 1) (by omega)

/-- No part of the bytes read so far ends with the delimiter. -/
def Unended (c : List Byte) : Prop := ∀ q, ¬Ends c q

theorem Unended.snoc {c : List Byte} {ch : Byte} (h : Unended c) (hend : ¬delimiter <:+ c ++ [ch]) :
    Unended (c ++ [ch]) := by
  rintro q ⟨hq, hdelim⟩
  rcases List.prefix_concat_iff.1 hq with rfl | hq
  · exact hend hdelim
  · exact h q ⟨hq, hdelim⟩

/-- Whatever ends with the delimiter ends later. -/
theorem Unended.length_lt {c s q : List Byte} (h : Unended c) (hq : Ends (c ++ s) q) :
    c.length < q.length := by
  by_contra hle
  have hq' : q <+: c :=
    List.prefix_of_prefix_length_le hq.1 (List.prefix_append c s) (not_lt.1 hle)
  exact h q ⟨hq', hq.2⟩

/-- The first part that ends with the delimiter is the shortest. -/
theorem Unended.shortest_snoc {c : List Byte} {ch : Byte} (h : Unended c)
    (hend : delimiter <:+ c ++ [ch]) (s : List Byte) : Shortest (c ++ ch :: s) (c ++ [ch]) := by
  refine ⟨⟨⟨s, by simp⟩, hend⟩, ?_⟩
  intro q hq
  rw [List.length_append, List.length_singleton]
  exact h.length_lt hq

/-- The loop, entered after `c` was read. The induction is over the bytes to come. -/
theorem loop_spec {c : List Byte} (s : List Byte) (hc : Unended c) (hlen : c.length ≤ bufferSize)
    {buf : List Byte} (hbuf : buf.length = bufferSize) :
    ∃ p, loop c.length (overlay c buf) (s.map .byte) =
        some ⟨p, (s.drop p.length).map .byte⟩ ∧
      p <+: s ∧ Read (c ++ s) (c ++ p) := by
  induction s generalizing c with
  | nil =>
    refine ⟨[], loop_nil _ _, List.prefix_rfl, Or.inr ⟨?_, ?_⟩⟩
    · intro q hq
      rw [List.append_nil] at hq
      exact absurd hq.1 (hc q)
    · rw [List.append_nil, List.take_of_length_le hlen]
  | cons ch s ih =>
    by_cases hfull : c.length < bufferSize
    · have hstore : store (overlay c buf) c.length ch = some (overlay (c ++ [ch]) buf) :=
        store_overlay (hbuf ▸ hfull)
      have hsnoc : (c ++ [ch]).length = c.length + 1 := by simp
      obtain ⟨b, hb, hiff⟩ := atEnd_overlay buf hsnoc
      rw [List.map_cons, loop, if_pos hfull]
      simp only [hstore, hb, Option.bind_eq_bind, Option.bind_some]
      by_cases hend : delimiter <:+ c ++ [ch]
      · rw [if_pos (hiff.2 hend)]
        refine ⟨[ch], rfl, by simp, Or.inl ⟨hc.shortest_snoc hend s, ?_⟩⟩
        rw [hsnoc]
        exact hfull
      · rw [if_neg (mt hiff.1 hend)]
        obtain ⟨p, hp, hpre, hread⟩ := ih (hc.snoc hend) (hsnoc.le.trans hfull)
        rw [hsnoc] at hp
        refine ⟨ch :: p, ?_, List.cons_prefix_cons.2 ⟨rfl, hpre⟩, ?_⟩
        · rw [hp]
          rfl
        · simpa using hread
    · rw [List.map_cons, loop, if_neg hfull]
      refine ⟨[], rfl, List.nil_prefix, Or.inr ⟨?_, ?_⟩⟩
      · intro q hq
        exact lt_of_le_of_lt (not_lt.1 hfull) (hc.length_lt hq.1)
      · have hsize : bufferSize = c.length := le_antisymm (not_lt.1 hfull) hlen
        rw [List.append_nil, hsize, List.take_left]

theorem unended_nil : Unended [] := by
  rintro q ⟨hq, hdelim⟩
  rw [List.prefix_nil.1 hq] at hdelim
  cases List.suffix_nil.1 hdelim

/-- What is printed is part of the header. -/
theorem Read.isPrefix {s p q : List Byte} (h : Read s p) (hp : p <+: s) (hq : Shortest s q) :
    p <+: q := by
  refine List.prefix_of_prefix_length_le hp hq.1.1 ?_
  rcases h with ⟨hshort, -⟩ | ⟨hlong, rfl⟩
  · exact hshort.2 q hq.1
  · exact (List.length_take_le _ _).trans (hlong q hq).le

/-- **The loop reads the header.** For every stream, what is printed is what is consumed: the
shortest part that ends with the delimiter if it has at most 1024 bytes, and otherwise the first
1024 bytes, or all of a shorter stream. Nothing behind the header is consumed. -/
theorem header_read (s : List Byte) :
    ∃ p, header (s.map .byte) = some ⟨p, (s.drop p.length).map .byte⟩ ∧ p <+: s ∧ Read s p ∧
      ∀ q, Shortest s q → p <+: q := by
  have hbuf : (List.replicate bufferSize (0 : Byte)).length = bufferSize := List.length_replicate
  obtain ⟨p, hp, hpre, hread⟩ := loop_spec s unended_nil (Nat.zero_le _) hbuf
  exact ⟨p, hp, hpre, hread, fun q hq => hread.isPrefix hpre hq⟩

end LinuxDemo.HttpClient
