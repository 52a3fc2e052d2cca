import LinuxDemo.Lib.Buffer
import Mathlib.Tactic.SplitIfs

/-!
# `readLine` of `socket/internet_tcp/common.c`

`readLine` reads a descriptor one byte at a time up to a newline or the end of file, keeps the
first `n - 1` bytes in the caller's buffer and discards the rest of the line. A `read` may also be
interrupted, which is retried, or fail, which ends the call.

* `readLine_spec`: the result of a call, for every outcome of its reads, in terms of what was
  there to read (`gather`).
* `readLines_eq`: repeated calls split a stream into its lines.
* `terminates_iff`: a call that has consumed a byte terminates the buffer, unless the buffer has one
  byte only and the stream ends without a newline.
-/

namespace LinuxDemo.ReadLine

/-- What `read(fd, &ch, 1)` gives. -/
inductive ReadResult where
  | byte (ch : Byte)
  /-- `0`. -/
  | eof
  /-- `-1` with `errno == EINTR`. -/
  | eintr
  /-- `-1` with any other `errno`. -/
  | error
  deriving DecidableEq

/-- The outcomes of the coming reads of a descriptor; at the end of the list, every further read
gives end of file. -/
abbrev Stream := List ReadResult

/-- `'\n'`. -/
def newline : Byte := 10

/-! ## The function -/

/-- The variables of the loop; `p` as an index into `buffer`. -/
structure Locals where
  totalReadSize : ℕ
  p : ℕ
  buffer : List Byte
  deriving DecidableEq

/-- One round of the loop goes on or returns. -/
inductive Round where
  | again (l : Locals)
  | done (ret : ℤ) (buffer : List Byte)
  deriving DecidableEq

/-- `*p = 0; return totalReadSize;`. A store outside the buffer gives `none`. -/
def terminate (l : Locals) : Option Round := do
  let buffer ← store l.buffer l.p 0
  return .done l.totalReadSize buffer

/-- `if (totalReadSize < n - 1) { totalReadSize++; *p++ = ch; }`. -/
def keep (n : ℕ) (l : Locals) (ch : Byte) : Option Locals :=
  if l.totalReadSize < n - 1 then do
    let buffer ← store l.buffer l.p ch
    return { totalReadSize := l.totalReadSize + 1, p := l.p + 1, buffer }
  else some l

/-- One round of the loop, on the outcome of its `read`. -/
def round (n : ℕ) (l : Locals) : ReadResult → Option Round
  | .eintr => some (.again l)
  | .error => some (.done (-1) l.buffer)
  | .eof => if l.totalReadSize = 0 then some (.done 0 l.buffer) else terminate l
  | .byte ch => do
    let l ← keep n l ch
    if ch = newline then terminate l else return .again l

/-- What a call returns, leaves in the buffer, and leaves to be read. -/
structure Return where
  ret : ℤ
  buffer : List Byte
  rest : Stream
  deriving DecidableEq

/-- The loop. At the end of the stream the descriptor is at end of file, where every round
returns. -/
def loop (n : ℕ) (l : Locals) : Stream → Option Return
  | [] =>
    match round n l .eof with
    | some (.done ret buffer) => some ⟨ret, buffer, []⟩
    | _ => none
  | r :: s =>
    match round n l r with
    | some (.done ret buffer) => some ⟨ret, buffer, s⟩
    | some (.again l) => loop n l s
    | none => none

/-- `readLine(fd, buffer, n)` with `s` to be read from `fd`. -/
def readLine (s : Stream) (buffer : List Byte) (n : ℕ) : Option Return :=
  if n ≤ 0 then some ⟨-1, buffer, s⟩ else loop n ⟨0, 0, buffer⟩ s

/-! ## The rounds of the loop

After a call has consumed the bytes `c`, its variables depend on the first `n - 1` of them. -/

/-- The variables after `c` has been consumed. -/
def locals (n : ℕ) (c buf : List Byte) : Locals where
  totalReadSize := (c.take (n - 1)).length
  p := (c.take (n - 1)).length
  buffer := overlay (c.take (n - 1)) buf

@[simp] theorem locals_nil (n : ℕ) (buf : List Byte) : locals n [] buf = ⟨0, 0, buf⟩ := by
  simp [locals]

/-- The buffer with the first `n - 1` bytes of `line` and a terminator. -/
def filled (n : ℕ) (line buf : List Byte) : List Byte := overlay (line.take (n - 1) ++ [0]) buf

/-- The return that stored and terminated `line`. -/
def stored (n : ℕ) (line buf : List Byte) : Round :=
  .done (line.take (n - 1)).length (filled n line buf)

section Filled

variable {n : ℕ} {line buf : List Byte} (hn : 1 ≤ n) (hbuf : n ≤ buf.length)
include hn

theorem length_take_append_zero_le : (line.take (n - 1) ++ [(0 : Byte)]).length ≤ n := by
  have := List.length_take_le (n - 1) line
  rw [List.length_append, List.length_singleton]
  omega

theorem drop_filled : (filled n line buf).drop n = buf.drop n :=
  drop_overlay (length_take_append_zero_le hn)

include hbuf in
theorem length_filled : (filled n line buf).length = buf.length :=
  length_overlay ((length_take_append_zero_le hn).trans hbuf)

omit hn in
theorem take_filled : (filled n line buf).take (line.take (n - 1)).length = line.take (n - 1) := by
  unfold filled overlay
  rw [List.append_assoc, List.take_left]

omit hn in
theorem getElem_filled : (filled n line buf)[(line.take (n - 1)).length]? = some 0 := by
  unfold filled overlay
  rw [List.append_assoc, List.getElem?_append_right le_rfl, Nat.sub_self]
  rfl

end Filled

section Rounds

variable {n : ℕ} {c buf : List Byte} (hn : 1 ≤ n) (hbuf : n ≤ buf.length)
include hn hbuf

theorem terminate_locals : terminate (locals n c buf) = some (stored n c buf) := by
  have hw : (c.take (n - 1)).length < buf.length := by
    have := List.length_take_le (n - 1) c
    omega
  unfold terminate locals
  rw [store_overlay hw]
  rfl

omit hn in
theorem keep_locals (ch : Byte) :
    keep n (locals n c buf) ch = some (locals n (c ++ [ch]) buf) := by
  by_cases hc : c.length < n - 1
  · have htake : c.take (n - 1) = c := List.take_of_length_le hc.le
    have htake' : (c ++ [ch]).take (n - 1) = c ++ [ch] :=
      List.take_of_length_le (by rw [List.length_append]; exact hc)
    have hst : store (overlay c buf) c.length ch = some (overlay (c ++ [ch]) buf) :=
      store_overlay (by omega)
    unfold keep locals
    rw [htake, htake', if_pos hc, hst, List.length_append]
    rfl
  · have htake : (c ++ [ch]).take (n - 1) = c.take (n - 1) :=
      List.take_append_of_le_length (by omega)
    have hlen : (c.take (n - 1)).length = n - 1 := List.length_take_of_le (by omega)
    unfold keep locals
    rw [htake, hlen, if_neg (lt_irrefl _)]

theorem round_byte (ch : Byte) :
    round n (locals n c buf) (.byte ch) =
      if ch = newline then some (stored n (c ++ [ch]) buf)
      else some (.again (locals n (c ++ [ch]) buf)) := by
  unfold round
  simp only [keep_locals hbuf, Option.bind_eq_bind, Option.bind_some]
  rw [terminate_locals hn hbuf]
  rfl

theorem round_eof :
    round n (locals n c buf) .eof =
      if c.take (n - 1) = [] then some (.done 0 buf)
      else some (stored n c buf) := by
  unfold round
  simp only [terminate_locals hn hbuf]
  by_cases hc : c.take (n - 1) = []
  · simp [locals, hc]
  · have hpos : (locals n c buf).totalReadSize ≠ 0 := by
      unfold locals
      simpa using hc
    rw [if_neg hpos, if_neg hc]

end Rounds

/-! ## One call -/

/-- How a call stops reading. -/
inductive Ending where
  | newline
  | eof
  | error
  deriving DecidableEq

/-- What a call finds to read: the bytes it consumes, the reason it stops, and what is left. -/
structure Gathered where
  line : List Byte
  ending : Ending
  rest : Stream

def gather : Stream → Gathered
  | [] => ⟨[], .eof, []⟩
  | .eof :: s => ⟨[], .eof, s⟩
  | .error :: s => ⟨[], .error, s⟩
  | .eintr :: s => gather s
  | .byte ch :: s =>
    if ch = newline then ⟨[ch], .newline, s⟩
    else { gather s with line := ch :: (gather s).line }

/-- What `readLine` makes of it. -/
def Gathered.result (n : ℕ) (buf : List Byte) (g : Gathered) : Return :=
  match g.ending with
  | .newline => ⟨(g.line.take (n - 1)).length, filled n g.line buf, g.rest⟩
  | .eof =>
    if g.line.take (n - 1) = [] then ⟨0, buf, g.rest⟩
    else ⟨(g.line.take (n - 1)).length, filled n g.line buf, g.rest⟩
  | .error => ⟨-1, overlay (g.line.take (n - 1)) buf, g.rest⟩

/-- The same, with `c` consumed before. -/
def Gathered.after (c : List Byte) (g : Gathered) : Gathered := { g with line := c ++ g.line }

section Calls

variable {n : ℕ} {buf : List Byte} (hn : 1 ≤ n) (hbuf : n ≤ buf.length)
include hn hbuf

/-- The loop, entered after `c` has been consumed. The induction is over the outcomes of the
reads; an interruption changes nothing. -/
theorem loop_spec (c : List Byte) (s : Stream) :
    loop n (locals n c buf) s = some (((gather s).after c).result n buf) := by
  induction s generalizing c with
  | nil =>
    unfold loop
    rw [round_eof hn hbuf]
    by_cases hc : c.take (n - 1) = [] <;>
      simp [stored, gather, Gathered.after, Gathered.result, hc]
  | cons r s ih =>
    unfold loop
    cases r with
    | eintr => exact ih c
    | error => simp [round, locals, gather, Gathered.after, Gathered.result]
    | eof =>
      rw [round_eof hn hbuf]
      by_cases hc : c.take (n - 1) = [] <;>
        simp [stored, gather, Gathered.after, Gathered.result, hc]
    | byte ch =>
      rw [round_byte hn hbuf]
      by_cases hch : ch = newline
      · simp [hch, stored, gather, Gathered.after, Gathered.result]
      · simp [hch, ih, gather, Gathered.after]

/-- **What `readLine` returns**, for every outcome of its reads. -/
theorem readLine_spec (s : Stream) :
    readLine s buf n = some ((gather s).result n buf) := by
  unfold readLine
  rw [if_neg (by omega), ← locals_nil n buf, loop_spec hn hbuf]
  rfl

end Calls

theorem gather_line_ne_nil {s : Stream} (h : (gather s).ending = .newline) :
    (gather s).line ≠ [] := by
  induction s with
  | nil => cases h
  | cons r s ih =>
    cases r with
    | eof => cases h
    | error => cases h
    | eintr => exact ih h
    | byte ch =>
      unfold gather
      split_ifs <;> exact List.cons_ne_nil _ _

/-- For a buffer of two bytes or more, a call that has consumed anything has terminated the
buffer. -/
theorem readLine_eq {n : ℕ} (hn : 2 ≤ n) {buf : List Byte} (hbuf : n ≤ buf.length) (s : Stream) :
    readLine s buf n =
      if (gather s).ending = .error then
        some ⟨-1, overlay ((gather s).line.take (n - 1)) buf, (gather s).rest⟩
      else if (gather s).line = [] then some ⟨0, buf, (gather s).rest⟩
      else some ⟨((gather s).line.take (n - 1)).length, filled n (gather s).line buf,
        (gather s).rest⟩ := by
  have htake : (gather s).line.take (n - 1) = [] ↔ (gather s).line = [] := by
    have hn0 : n - 1 ≠ 0 := by omega
    simp [List.take_eq_nil_iff, hn0]
  rw [readLine_spec (by omega) hbuf, Gathered.result]
  cases hg : (gather s).ending with
  | newline => simp [gather_line_ne_nil hg]
  | error => simp
  | eof => by_cases hl : (gather s).line = [] <;> simp [htake, hl]

/-! ## Streams without failures -/

/-- Bytes, and interruptions between them. -/
def Clean (s : Stream) : Prop := ∀ r ∈ s, r ≠ .eof ∧ r ≠ .error

instance : DecidablePred Clean := fun s =>
  inferInstanceAs (Decidable (∀ r ∈ s, r ≠ .eof ∧ r ≠ .error))

/-- The bytes of a stream. -/
def bytes (s : Stream) : List Byte :=
  s.filterMap fun
    | .byte ch => some ch
    | _ => none

theorem bytes_byte (ch : Byte) (s : Stream) : bytes (.byte ch :: s) = ch :: bytes s := rfl

theorem bytes_append (s t : Stream) : bytes (s ++ t) = bytes s ++ bytes t :=
  List.filterMap_append

theorem Clean.tail {r : ReadResult} {s : Stream} (h : Clean (r :: s)) : Clean s :=
  fun r' hr => h r' (List.mem_cons_of_mem _ hr)

theorem gather_rest_suffix (s : Stream) : (gather s).rest <:+ s := by
  induction s with
  | nil => exact List.suffix_rfl
  | cons r s ih =>
    cases r with
    | eof => exact List.suffix_cons _ _
    | error => exact List.suffix_cons _ _
    | eintr => exact ih.trans (List.suffix_cons _ _)
    | byte ch =>
      unfold gather
      split_ifs
      · exact List.suffix_cons _ _
      · exact ih.trans (List.suffix_cons _ _)

/-- On a clean stream, a call finds the first line. -/
theorem gather_clean {s : Stream} (hs : Clean s) :
    (gather s).line = firstLine newline (bytes s) ∧ (gather s).ending ≠ .error ∧
      bytes (gather s).rest = afterLine newline (bytes s) := by
  induction s with
  | nil => exact ⟨rfl, by decide, rfl⟩
  | cons r s ih =>
    obtain ⟨hline, hend, hrest⟩ := ih hs.tail
    cases r with
    | eof => exact absurd rfl (hs _ List.mem_cons_self).1
    | error => exact absurd rfl (hs _ List.mem_cons_self).2
    | eintr => exact ⟨hline, hend, hrest⟩
    | byte ch =>
      unfold gather
      rw [bytes_byte, firstLine, afterLine]
      split_ifs
      · exact ⟨rfl, by simp, rfl⟩
      · exact ⟨by rw [hline], hend, hrest⟩

section CleanCalls

variable {n : ℕ} {buf : List Byte} (hn : 2 ≤ n) (hbuf : n ≤ buf.length) {s : Stream}
  (hs : Clean s)
include hn hbuf hs

theorem readLine_eof (h : bytes s = []) : readLine s buf n = some ⟨0, buf, (gather s).rest⟩ := by
  obtain ⟨hline, hend, -⟩ := gather_clean hs
  rw [h, firstLine] at hline
  rw [readLine_eq hn hbuf, if_neg hend, if_pos hline]

/-- **One line**: the call returns and terminates the first `n - 1` bytes of it. -/
theorem readLine_line (h : bytes s ≠ []) :
    readLine s buf n =
      some ⟨((firstLine newline (bytes s)).take (n - 1)).length,
        filled n (firstLine newline (bytes s)) buf, (gather s).rest⟩ := by
  obtain ⟨hline, hend, -⟩ := gather_clean hs
  rw [readLine_eq hn hbuf, if_neg hend, hline, if_neg (firstLine_ne_nil newline h)]

end CleanCalls

/-! ## Repeated calls -/

/-- What one call returned, left in the buffer, and consumed of the stream. -/
structure Call where
  ret : ℤ
  buffer : List Byte
  consumed : List Byte
  deriving DecidableEq

/-- The calls `readLine(fd, buffer, n)` up to the one that returns 0, with a bound on their
number. -/
def readLines (n : ℕ) : ℕ → Stream → List Byte → Option (List Call)
  | 0, _, _ => none
  | fuel + 1, s, buffer => do
    let r ← readLine s buffer n
    if r.ret = 0 then return []
    let calls ← readLines n fuel r.rest r.buffer
    return ⟨r.ret, r.buffer, bytes (s.take (s.length - r.rest.length))⟩ :: calls

/-- The calls that deliver the given lines one by one into the same buffer. -/
def deliver (n : ℕ) (buf : List Byte) : List (List Byte) → List Call
  | [] => []
  | line :: rest =>
    ⟨(line.take (n - 1)).length, filled n line buf, line⟩ :: deliver n (filled n line buf) rest

/-- The part of a clean stream that a call consumes. -/
theorem gather_split {s : Stream} (hs : Clean s) :
    ∃ pre, s = pre ++ (gather s).rest ∧ bytes pre = firstLine newline (bytes s) := by
  obtain ⟨pre, hpre⟩ := gather_rest_suffix s
  refine ⟨pre, hpre.symm, ?_⟩
  have hbytes : bytes pre ++ afterLine newline (bytes s) = bytes s := by
    rw [← (gather_clean hs).2.2, ← bytes_append, hpre]
  have hsplit := firstLine_append_afterLine newline (bytes s)
  exact List.append_cancel_right (hbytes.trans hsplit.symm)

theorem bytes_consumed {s : Stream} (hs : Clean s) :
    bytes (s.take (s.length - (gather s).rest.length)) = firstLine newline (bytes s) := by
  obtain ⟨pre, hpre, hbytes⟩ := gather_split hs
  rw [← hbytes]
  generalize (gather s).rest = rest at hpre
  rw [hpre, List.length_append, Nat.add_sub_cancel, List.take_left]

theorem length_gather_rest_lt {s : Stream} (hs : Clean s) (h : bytes s ≠ []) :
    (gather s).rest.length < s.length := by
  obtain ⟨pre, hpre, hbytes⟩ := gather_split hs
  have hne : pre ≠ [] := by
    intro h0
    rw [h0] at hbytes
    exact firstLine_ne_nil newline h hbytes.symm
  have hpos := List.length_pos_iff.mpr hne
  have hlen := congrArg List.length hpre
  rw [List.length_append] at hlen
  omega

/-- **Repeated calls split a stream into its lines.** -/
theorem readLines_eq {n : ℕ} (hn : 2 ≤ n) :
    ∀ (fuel : ℕ) (s : Stream) (buf : List Byte), n ≤ buf.length → Clean s → s.length < fuel →
      readLines n fuel s buf = some (deliver n buf (lines newline (bytes s))) := by
  intro fuel
  induction fuel with
  | zero =>
    intro s buf _ _ hfuel
    omega
  | succ fuel ih =>
    intro s buf hbuf hs hfuel
    unfold readLines
    by_cases hb : bytes s = []
    · rw [readLine_eof hn hbuf hs hb, hb]
      rfl
    · have hrest : Clean (gather s).rest := fun r hr =>
        hs r ((gather_rest_suffix s).subset hr)
      have hshort := length_gather_rest_lt hs hb
      have hbuf' : n ≤ (filled n (firstLine newline (bytes s)) buf).length := by
        rwa [length_filled (by omega) hbuf]
      have hpos : (((firstLine newline (bytes s)).take (n - 1)).length : ℤ) ≠ 0 := by
        have := List.length_pos_iff.mpr (firstLine_ne_nil newline hb)
        rw [List.length_take]
        omega
      rw [readLine_line hn hbuf hs hb, lines_eq_cons newline hb]
      simp only [Option.bind_eq_bind, Option.bind_some, deliver]
      rw [if_neg hpos, ih _ _ hbuf' hrest (by omega), (gather_clean hs).2.2,
        bytes_consumed hs]
      rfl

theorem deliver_consumed (n : ℕ) (buf : List Byte) (ls : List (List Byte)) :
    (deliver n buf ls).map Call.consumed = ls := by
  induction ls generalizing buf with
  | nil => rfl
  | cons line ls ih =>
    unfold deliver
    rw [List.map_cons, ih]

/-- A call that delivered its line: the count, the bytes and the terminator; nothing from index
`n` on has changed since `buf`. -/
structure Delivered (n : ℕ) (buf : List Byte) (c : Call) : Prop where
  ret : c.ret = min (n - 1) c.consumed.length
  stored : c.buffer.take (min (n - 1) c.consumed.length) = c.consumed.take (n - 1)
  terminated : c.buffer[min (n - 1) c.consumed.length]? = some 0
  beyond : c.buffer.drop n = buf.drop n

theorem delivered_of_mem {n : ℕ} (hn : 1 ≤ n) {ls : List (List Byte)} {buf : List Byte} {c : Call}
    (hc : c ∈ deliver n buf ls) : Delivered n buf c := by
  induction ls generalizing buf with
  | nil => simp [deliver] at hc
  | cons line ls ih =>
    unfold deliver at hc
    rcases List.mem_cons.mp hc with rfl | hc
    · refine ⟨?_, ?_, ?_, drop_filled hn⟩
      · simp
      · simpa using take_filled
      · simpa using getElem_filled
    · have h := ih hc
      exact ⟨h.ret, h.stored, h.terminated, h.beyond.trans (drop_filled hn)⟩

/-- **`readLine` splits a stream.** For every buffer size `n ≥ 2`, every clean stream and a buffer
of at least `n` bytes (of exactly `n`, where a store at an index `≥ n` would fail), the calls up to
the one that returns 0 deliver the lines of the stream in order, each call consumes its own
line, and the calls are the same for every other placement of the interruptions. -/
theorem readLine_splits {n : ℕ} (hn : 2 ≤ n) {buf : List Byte} (hbuf : n ≤ buf.length) {s : Stream}
    (hs : Clean s) {fuel : ℕ} (hfuel : s.length < fuel) :
    ∃ calls, readLines n fuel s buf = some calls ∧
      calls.map Call.consumed = lines newline (bytes s) ∧
      (∀ c ∈ calls, Delivered n buf c) ∧
      ∀ (s' : Stream) (fuel' : ℕ), Clean s' → bytes s' = bytes s → s'.length < fuel' →
        readLines n fuel' s' buf = some calls := by
  refine ⟨_, readLines_eq hn fuel s buf hbuf hs hfuel, deliver_consumed _ _ _, ?_, ?_⟩
  · intro c hc
    exact delivered_of_mem (by omega) hc
  · intro s' fuel' hs' hbytes hfuel'
    rw [readLines_eq hn fuel' s' buf hbuf hs' hfuel', hbytes]

/-- `"abcd\n"` and `"\0e"`, with an interruption after the first byte. -/
def twoLines : Stream :=
  [.byte 97, .eintr, .byte 98, .byte 99, .byte 100, .byte 10, .byte 0, .byte 101]

theorem readLine_splits_twoLines :
    Clean twoLines ∧ ∃ calls, readLines 4 9 twoLines [7, 7, 7, 7] = some calls ∧
      calls.map Call.consumed = [[97, 98, 99, 100, 10], [0, 101]] := by
  have hs : Clean twoLines := by decide
  have hbuf : 4 ≤ ([7, 7, 7, 7] : List Byte).length := by decide
  obtain ⟨calls, hcalls, hlines, -, -⟩ :=
    readLine_splits (by decide) hbuf hs (show twoLines.length < 9 by decide)
  exact ⟨hs, calls, hcalls, hlines⟩

/-! ## Buffers of one byte

The end of the stream is taken for an empty one when no byte was *stored*, and nothing is ever
stored in a buffer of one byte. -/

/-- What the comment of `readLine` promises: if anything was consumed, the bytes that the result
counts are in the buffer, and a zero behind them. -/
def Keeps (n : ℕ) (s : Stream) (buf : List Byte) : Prop :=
  ∃ r, readLine s buf n = some r ∧
    let consumed := bytes (s.take (s.length - r.rest.length))
    (consumed ≠ [] → 0 ≤ r.ret →
      r.ret.toNat ≤ consumed.length ∧ r.buffer.take r.ret.toNat = consumed.take r.ret.toNat ∧
        r.buffer[r.ret.toNat]? = some 0)

/-- On a clean stream, the end of a line is a newline if there is one. -/
theorem gather_ending {s : Stream} (hs : Clean s) :
    (gather s).ending = .newline ↔ newline ∈ bytes s := by
  induction s with
  | nil => simp [gather, bytes]
  | cons r s ih =>
    have ih := ih hs.tail
    cases r with
    | eof => exact absurd rfl (hs _ List.mem_cons_self).1
    | error => exact absurd rfl (hs _ List.mem_cons_self).2
    | eintr => exact ih
    | byte ch =>
      unfold gather
      rw [bytes_byte, List.mem_cons]
      split_ifs with hch
      · simp [hch]
      · rw [or_iff_right (Ne.symm hch)]
        exact ih

/-- A line that was stored. -/
theorem keeps_of_filled {n : ℕ} {s : Stream} (hs : Clean s) {buf : List Byte}
    (h : readLine s buf n = some ⟨((gather s).line.take (n - 1)).length,
      filled n (gather s).line buf, (gather s).rest⟩) : Keeps n s buf := by
  refine ⟨_, h, fun _ _ => ?_⟩
  have hline : bytes (s.take (s.length - (gather s).rest.length)) = (gather s).line :=
    (bytes_consumed hs).trans (gather_clean hs).1.symm
  dsimp only
  rw [hline, Int.toNat_natCast]
  refine ⟨?_, ?_, getElem_filled⟩
  · rw [List.length_take]
    exact min_le_right _ _
  · rw [take_filled, List.length_take, ← List.take_take, List.take_length]

/-- A line without a newline, in a buffer of one byte: the call returns as at the end of an empty
stream. -/
theorem readLine_one {s : Stream} (hs : Clean s) (hnl : newline ∉ bytes s) {buf : List Byte}
    (hbuf : 1 ≤ buf.length) : readLine s buf 1 = some ⟨0, buf, (gather s).rest⟩ := by
  have hend : (gather s).ending = .eof := by
    cases hg : (gather s).ending with
    | newline => exact absurd ((gather_ending hs).1 hg) hnl
    | error => exact absurd hg (gather_clean hs).2.1
    | eof => rfl
  rw [readLine_spec le_rfl hbuf, Gathered.result, hend]
  rfl

/-- **A call that has consumed a byte terminates the buffer**, whatever was in it, if and only if
the buffer has more than one byte, or the line ends with a newline. -/
theorem terminates_iff {n : ℕ} (hn : 1 ≤ n) {s : Stream} (hs : Clean s) :
    (∀ buf, n ≤ buf.length → Keeps n s buf) ↔ 2 ≤ n ∨ bytes s = [] ∨ newline ∈ bytes s := by
  constructor
  · intro h
    by_contra hcond
    rw [not_or, not_or] at hcond
    obtain ⟨hn2, hne, hnl⟩ := hcond
    obtain rfl : n = 1 := by omega
    obtain ⟨r, hr, hkeeps⟩ := h [7] le_rfl
    rw [readLine_one hs hnl le_rfl] at hr
    cases hr
    have hconsumed : bytes (s.take (s.length - (gather s).rest.length)) ≠ [] := by
      rw [bytes_consumed hs]
      exact firstLine_ne_nil newline hne
    obtain ⟨-, -, hzero⟩ := hkeeps hconsumed (Int.le_refl 0)
    cases hzero
  · intro hcond buf hbuf
    by_cases hnil : bytes s = []
    · refine ⟨_, readLine_spec hn hbuf s, fun hconsumed => ?_⟩
      have hrest : ((gather s).result n buf).rest = (gather s).rest := by
        unfold Gathered.result
        split
        · rfl
        · split_ifs <;> rfl
        · rfl
      rw [hrest, bytes_consumed hs, hnil] at hconsumed
      exact absurd rfl hconsumed
    · apply keeps_of_filled hs
      rcases hcond with hn2 | hnil' | hnl
      · rw [readLine_line hn2 hbuf hs hnil, (gather_clean hs).1]
      · exact absurd hnil' hnil
      · rw [readLine_spec hn hbuf, Gathered.result, (gather_ending hs).2 hnl]

theorem terminates_iff_newline : Keeps 1 [.eintr, .byte 97, .byte 10] [7] :=
  (terminates_iff le_rfl (by decide)).2 (Or.inr (Or.inr (by decide))) [7] le_rfl

/-- **A byte is lost**: the stream has one byte and no newline, and the buffer is left as it was. -/
theorem not_terminated :
    ¬∀ (n : ℕ) (s : Stream) (buf : List Byte), 1 ≤ n → Clean s → n ≤ buf.length →
      Keeps n s buf := by
  intro h
  obtain ⟨r, hr, hkeeps⟩ := h 1 [.byte 97] [7] le_rfl (by decide) le_rfl
  have hreturn : readLine [.byte 97] [7] 1 = some ⟨0, [7], []⟩ := by decide
  rw [hreturn] at hr
  cases hr
  obtain ⟨-, -, hzero⟩ := hkeeps (by decide) (Int.le_refl 0)
  cases hzero

end LinuxDemo.ReadLine
