import LinuxDemo.Socket.ReadLine

/-!
# The serve loop of `socket/internet_tcp/server.c`

The server accepts one connection after the other, reads a line of it into its one 64-byte
`buffer`, which is never cleared, and writes `strlen(buffer)` bytes of it back.

* `serve_spec`: what is written is the C string of the line, cut to 63 bytes.
* `echo_exact_iff`: it is the line `readLine` delivered exactly when that has no zero byte.
* `no_leak`: what is written on a connection depends on that connection only.
-/

namespace LinuxDemo.TcpServer

open ReadLine

/-- `g_buffSize`. -/
def gBuffSize : ℕ := 64

/-- What serving one connection did: the result of `readLine`, the buffer after it, and the bytes
passed to `write`, if it was called. -/
structure Served where
  readSize : ℤ
  buffer : List Byte
  written : Option (List Byte)
  deriving DecidableEq

/-- What is passed to `write` after `readLine` has returned `readSize`: nothing when it is not
positive, else `strlen(buffer)` bytes of `buffer`. -/
def answer (readSize : ℤ) (buffer : List Byte) : Option (Option (List Byte)) :=
  if readSize ≤ 0 then some none
  else (strlen buffer).map fun len => some (buffer.take len)

/-- One accepted connection, from `readLine` to `close`. What `write` and `close` return changes
only the messages the server prints. -/
def serve (buffer : List Byte) (s : Stream) : Option Served := do
  let r ← readLine s buffer gBuffSize
  let written ← answer r.ret r.buffer
  return ⟨r.ret, r.buffer, written⟩

/-- What `accept` gives: an error, or a connection with what can be read from it. -/
inductive Accept where
  | error
  | connection (s : Stream)
  deriving DecidableEq

/-- The loop, over the results of its `accept` calls; one entry for each connection. -/
def serveLoop (buffer : List Byte) : List Accept → Option (List Served)
  | [] => some []
  | .error :: as => serveLoop buffer as
  | .connection s :: as => do
    let o ← serve buffer s
    let os ← serveLoop o.buffer as
    return o :: os

/-! ## One connection -/

/-- The answer to a connection: nothing when the read fails or there is nothing to read, else the
C string of the first 63 bytes of the line. -/
def reply (s : Stream) : Option (List Byte) :=
  if (gather s).ending = .error ∨ (gather s).line = [] then none
  else some (cstr ((gather s).line.take (gBuffSize - 1)))

/-- The value `readLine` returns for a connection. -/
def readSize (s : Stream) : ℤ :=
  if (gather s).ending = .error then -1 else ((gather s).line.take (gBuffSize - 1)).length

theorem answer_filled {line buf : List Byte} (h : line ≠ []) :
    answer (line.take (gBuffSize - 1)).length (filled gBuffSize line buf) =
      some (some (cstr (line.take (gBuffSize - 1)))) := by
  have hpos : ¬((line.take (gBuffSize - 1)).length : ℤ) ≤ 0 := by
    have := List.length_pos_iff.mpr h
    rw [List.length_take, gBuffSize]
    omega
  unfold answer filled
  rw [if_neg hpos, strlen_terminated, Option.map_some, take_terminated]

/-- **What serving a connection does**: what is returned and written depends on the connection
only, although the buffer keeps what it held. -/
theorem serve_spec {buf : List Byte} (hbuf : buf.length = gBuffSize) (s : Stream) :
    ∃ o, serve buf s = some o ∧ o.readSize = readSize s ∧ o.written = reply s ∧
      o.buffer.length = gBuffSize ∧
      (reply s ≠ none → o.buffer = filled gBuffSize (gather s).line buf) := by
  have hwlen : ((gather s).line.take (gBuffSize - 1)).length ≤ buf.length := by
    have := List.length_take_le (gBuffSize - 1) (gather s).line
    omega
  have hread := readLine_eq (by decide) hbuf.ge s
  unfold serve
  by_cases hend : (gather s).ending = .error
  · rw [if_pos hend] at hread
    rw [hread]
    refine ⟨_, rfl, ?_, ?_, ?_, ?_⟩
    · simp [readSize, hend]
    · simp [reply, hend]
    · exact (length_overlay hwlen).trans hbuf
    · simp [reply, hend]
  rw [if_neg hend] at hread
  by_cases hline : (gather s).line = []
  · rw [if_pos hline] at hread
    rw [hread]
    refine ⟨_, rfl, ?_, ?_, hbuf, ?_⟩
    · simp [readSize, hend, hline]
    · simp [reply, hline]
    · simp [reply, hline]
  · rw [if_neg hline] at hread
    rw [hread]
    simp only [Option.bind_eq_bind, Option.bind_some]
    rw [answer_filled hline]
    refine ⟨_, rfl, ?_, ?_, (length_filled (by decide) hbuf.ge).trans hbuf, fun _ => rfl⟩
    · simp [readSize, hend]
    · simp [reply, hend, hline]

/-- **When the echo is exact.** The server answers a line with the bytes `readLine` delivered, the
first 63 of the line, exactly when none of these is zero: it sends `strlen(buffer)` bytes where
`readLine` has returned their number. -/
theorem echo_exact_iff {buf : List Byte} (hbuf : buf.length = gBuffSize) {s : Stream}
    (hs : Clean s) (hline : firstLine newline (bytes s) ≠ []) :
    (∃ o, serve buf s = some o ∧ o.readSize = min 63 (firstLine newline (bytes s)).length ∧
      o.written = some ((firstLine newline (bytes s)).take 63)) ↔
      0 ∉ (firstLine newline (bytes s)).take 63 := by
  obtain ⟨o, ho, hsize, hwritten, -⟩ := serve_spec hbuf s
  obtain ⟨hgather, hend, -⟩ := gather_clean hs
  have hreply : reply s = some (cstr ((firstLine newline (bytes s)).take 63)) := by
    unfold reply
    rw [hgather, if_neg (not_or.mpr ⟨hend, hline⟩)]
    rfl
  have hread : readSize s = min 63 (firstLine newline (bytes s)).length := by
    unfold readSize
    rw [hgather, if_neg hend, List.length_take]
    rfl
  rw [← cstr_eq_self_iff]
  constructor
  · intro ⟨o', ho', _, hw⟩
    rw [ho, Option.some.injEq] at ho'
    subst ho'
    rw [hwritten, hreply, Option.some.injEq] at hw
    exact hw
  · intro hzero
    refine ⟨o, ho, hsize.trans hread, ?_⟩
    rw [hwritten, hreply, hzero]

/-- `"hi\n"`. -/
def hiLine : Stream := [.byte 104, .eintr, .byte 105, .byte 10]

theorem echo_exact_hiLine :
    Clean hiLine ∧ firstLine newline (bytes hiLine) = [104, 105, 10] ∧
      ∃ o, serve (List.replicate 64 7) hiLine = some o ∧ o.readSize = 3 ∧
        o.written = some [104, 105, 10] :=
  ⟨by decide, by decide,
    (echo_exact_iff (by decide) (by decide) (by decide)).mpr (by decide)⟩

/-- `"a\0b\n"`. -/
def zeroLine : Stream := [.byte 97, .byte 0, .byte 98, .byte 10]

/-- Of a line with a zero byte, only the part before it is sent back. -/
theorem echo_cut_zeroLine :
    Clean zeroLine ∧ (firstLine newline (bytes zeroLine)).take 63 = [97, 0, 98, 10] ∧
      (serve (List.replicate 64 7) zeroLine).map Served.readSize = some 4 ∧
      (serve (List.replicate 64 7) zeroLine).map Served.written = some (some [97]) := by
  decide

/-! ## Many connections -/

/-- The connections that were accepted. -/
def connections (as : List Accept) : List Stream :=
  as.filterMap fun
    | .error => none
    | .connection s => some s

/-- `strlen(buffer)` stopped within the bytes of this connection: there is a terminator right
after the `readSize` bytes `readLine` has stored, and the scan ended there or before. -/
def Served.WithinLine (o : Served) : Prop :=
  ∀ w, o.written = some w →
    strlen o.buffer = some w.length ∧ (w.length : ℤ) ≤ o.readSize ∧
      o.buffer[o.readSize.toNat]? = some 0

theorem serve_withinLine {buf : List Byte} (hbuf : buf.length = gBuffSize) {s : Stream} {o : Served}
    (ho : serve buf s = some o) : o.WithinLine := by
  intro w hw
  obtain ⟨o', ho', hsize, hwritten, -, hbuffer⟩ := serve_spec hbuf s
  obtain rfl : o' = o := Option.some.inj (ho'.symm.trans ho)
  rw [hwritten] at hw
  rw [hsize, hbuffer (by rw [hw]; exact Option.some_ne_none w)]
  unfold reply at hw
  split_ifs at hw with hnone
  rw [not_or] at hnone
  rw [Option.some.injEq] at hw
  subst hw
  rw [readSize, if_neg hnone.1, Int.toNat_natCast]
  refine ⟨strlen_terminated _ _, ?_, getElem_filled⟩
  exact_mod_cast length_cstr_le _

/-- The whole loop: every connection gets its own answer. The induction is over the results of
`accept`; all that a connection leaves to the next is a buffer of the same length. -/
theorem serveLoop_spec {buf : List Byte} (hbuf : buf.length = gBuffSize) (as : List Accept) :
    ∃ os, serveLoop buf as = some os ∧ os.map Served.written = (connections as).map reply ∧
      ∀ o ∈ os, o.WithinLine := by
  induction as generalizing buf with
  | nil => exact ⟨[], rfl, rfl, by simp⟩
  | cons a as ih =>
    cases a with
    | error => exact ih hbuf
    | connection s =>
      obtain ⟨o, ho, -, hwritten, hlen, -⟩ := serve_spec hbuf s
      obtain ⟨os, hos, hall, hwithin⟩ := ih hlen
      refine ⟨o :: os, ?_, ?_, ?_⟩
      · rw [serveLoop, ho, Option.bind_eq_bind, Option.bind_some, hos]
        rfl
      · rw [List.map_cons, hwritten, hall]
        rfl
      · intro o' ho'
        rcases List.mem_cons.mp ho' with rfl | hmem
        · exact serve_withinLine hbuf ho
        · exact hwithin o' hmem

/-- **Nothing leaks between connections.** Two runs of the server whose `k`-th connections agree
write the same on them, whatever the other connections, the failed `accept` calls and the initial
buffers were, and `strlen` stays within the line of the connection that is served. -/
theorem no_leak {buf buf' : List Byte} (hbuf : buf.length = gBuffSize)
    (hbuf' : buf'.length = gBuffSize) {as as' : List Accept} {k : ℕ}
    (hk : (connections as)[k]? = (connections as')[k]?) :
    ∃ os os', serveLoop buf as = some os ∧ serveLoop buf' as' = some os' ∧
      os[k]?.map Served.written = os'[k]?.map Served.written ∧ ∀ o ∈ os, o.WithinLine := by
  obtain ⟨os, hos, hall, hwithin⟩ := serveLoop_spec hbuf as
  obtain ⟨os', hos', hall', -⟩ := serveLoop_spec hbuf' as'
  refine ⟨os, os', hos, hos', ?_, hwithin⟩
  calc os[k]?.map Served.written
      = (connections as)[k]?.map reply := by rw [← List.getElem?_map, hall, List.getElem?_map]
    _ = (connections as')[k]?.map reply := by rw [hk]
    _ = os'[k]?.map Served.written := by rw [← List.getElem?_map, ← hall', List.getElem?_map]

/-- The same short line after a longer one with other bytes, and after a failed read. -/
theorem no_leak_hiLine :
    ∃ os os', serveLoop (List.replicate 64 7)
          [.connection (List.replicate 30 (.byte 65)), .error, .connection hiLine] = some os ∧
        serveLoop (List.replicate 64 9) [.connection [.error], .connection hiLine] = some os' ∧
        os[1]?.map Served.written = os'[1]?.map Served.written := by
  have hbuf : (List.replicate 64 (7 : Byte)).length = gBuffSize := by decide
  have hbuf' : (List.replicate 64 (9 : Byte)).length = gBuffSize := by decide
  have hk : (connections
      [.connection (List.replicate 30 (.byte 65)), .error, .connection hiLine])[1]? =
      (connections [.connection [.error], .connection hiLine])[1]? := by decide
  obtain ⟨os, os', hos, hos', hw, -⟩ := no_leak hbuf hbuf' hk
  exact ⟨os, os', hos, hos', hw⟩

end LinuxDemo.TcpServer
