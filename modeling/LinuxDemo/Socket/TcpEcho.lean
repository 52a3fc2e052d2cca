import LinuxDemo.Lib.Lts
import LinuxDemo.Socket.TcpServer

/-!
# The TCP echo, client and server together

The client of `socket/internet_tcp/client.c` writes its message and a newline, reads one line
back and prints it; the server is the one of `socket/internet_tcp/server.c`, at the connection of
this client. Between them are two reliable byte streams. A `write` hands its bytes over in
portions, every `read` takes one byte, and the steps of the two programs interleave in any order.

A `write` of the server fails before it has handed over anything, or it is complete. That it returns
with a smaller number is left out: it writes at most 63 bytes to a socket whose buffer is empty.

* `inv_invariant`: while the client has not failed, no byte is lost, and the server sends back
  nothing or the first line cut to 63 bytes.
* `round_trip`: a client that finishes has printed exactly that.
-/

namespace LinuxDemo.TcpEcho

open Lts
open ReadLine
open TcpServer (gBuffSize answer)

/-- What is given when the programs meet: the message `argv[3]`, a C string, and the two buffers,
of which nothing is known but their size. The one of the server holds what earlier connections
left in it. -/
structure Setup where
  message : List Byte
  zeroFree : 0 ∉ message
  clientBuffer : List Byte
  clientBuffer_length : clientBuffer.length = gBuffSize
  serverBuffer : List Byte
  serverBuffer_length : serverBuffer.length = gBuffSize

/-! ## The system -/

inductive ClientPc where
  /-- In `write(cfd, argv[3], msgLen)`, with `rest` not yet handed over. -/
  | writing (rest : List Byte)
  /-- About to call `write(cfd, "\n", 1)`. -/
  | writeNewline
  /-- In `readLine`. -/
  | reading (l : Locals)
  /-- Has printed the length and the string and closed the socket. -/
  | finished (len : ℤ) (text : List Byte)
  /-- Has left through `fatalError`, which closes the socket too. -/
  | failed
  /-- Has accessed memory outside its buffer. -/
  | fault
  deriving DecidableEq

inductive ServerPc where
  /-- The connection waits for `accept`. -/
  | accepting
  /-- In `readLine`. -/
  | reading (l : Locals)
  /-- About to call `write` with these bytes. -/
  | write (w : List Byte)
  /-- In `write`, with `rest` not yet handed over. -/
  | writing (rest : List Byte)
  /-- About to call `close(cltFd)`. -/
  | closing
  | closed
  /-- Has accessed memory outside its buffer. -/
  | fault
  deriving DecidableEq

structure State where
  client : ClientPc
  server : ServerPc
  /-- Written by the client, not yet read by the server. -/
  toServer : List Byte
  toClient : List Byte
  deriving DecidableEq

inductive Action where
  /-- The first `write` hands over `k` more bytes. -/
  | clientSend (k : ℕ)
  /-- The first `write` returns `msgLen`. -/
  | clientSent
  /-- The second `write`. -/
  | clientNewline
  /-- A `write` of the client fails or is short. -/
  | clientWriteError
  | clientRead (r : ReadResult)
  | accept
  | serverRead (r : ReadResult)
  | serverWrite
  /-- The `write` of the server fails before anything is handed over. -/
  | serverWriteError
  /-- The `write` of the server hands over `k` more bytes. -/
  | serverSend (k : ℕ)
  /-- The `write` of the server returns. -/
  | serverSent
  | serverClose
  deriving DecidableEq

/-- What `chan` holds after a `read` from it that gave `r`. End of file comes only after the last
byte of a peer that has closed; interruptions and errors may come at any time. -/
def receive (chan : List Byte) (peerClosed : Bool) : ReadResult → Option (List Byte)
  | .byte ch => if chan.head? = some ch then some chan.tail else none
  | .eof => if chan = [] ∧ peerClosed then some [] else none
  | .eintr => some chan
  | .error => some chan

theorem receive_byte {chan chan' : List Byte} {peerClosed : Bool} {ch : Byte} :
    receive chan peerClosed (.byte ch) = some chan' ↔ chan = ch :: chan' := by
  cases chan with
  | nil => simp [receive]
  | cons a chan => simp [receive]

theorem receive_eof {chan chan' : List Byte} {peerClosed : Bool} :
    receive chan peerClosed .eof = some chan' ↔ chan = [] ∧ peerClosed = true ∧ chan' = [] := by
  simp [receive, and_assoc, eq_comm]

def ClientPc.closed : ClientPc → Bool
  | .finished _ _ => true
  | .failed => true
  | _ => false

def ServerPc.isClosed : ServerPc → Bool
  | .closed => true
  | _ => false

/-- The client after a round of its `readLine`: `if (readSize <= 0) fatalError`, else it prints
`readSize` and the string in `buffer`. -/
def clientAfter : Option Round → ClientPc
  | none => .fault
  | some (.again l) => .reading l
  | some (.done ret buffer) =>
    if ret ≤ 0 then .failed
    else
      match strlen buffer with
      | none => .fault
      | some len => .finished ret (buffer.take len)

/-- The server after a round of its `readLine`. -/
def serverAfter : Option Round → ServerPc
  | none => .fault
  | some (.again l) => .reading l
  | some (.done ret buffer) =>
    match answer ret buffer with
    | none => .fault
    | some none => .closing
    | some (some w) => .write w

/-- The step function; `none` when the action is not possible. -/
def next (p : Setup) (s : State) : Action → Option State
  | .clientSend k =>
    match s.client with
    | .writing rest =>
      some { s with client := .writing (rest.drop k), toServer := s.toServer ++ rest.take k }
    | _ => none
  | .clientSent =>
    match s.client with
    | .writing [] => some { s with client := .writeNewline }
    | _ => none
  | .clientNewline =>
    match s.client with
    | .writeNewline =>
      some { s with
        client := .reading ⟨0, 0, p.clientBuffer⟩, toServer := s.toServer ++ [newline] }
    | _ => none
  | .clientWriteError =>
    match s.client with
    | .writing _ => some { s with client := .failed }
    | .writeNewline => some { s with client := .failed }
    | _ => none
  | .clientRead r =>
    match s.client with
    | .reading l => do
      let chan ← receive s.toClient s.server.isClosed r
      return { s with client := clientAfter (round gBuffSize l r), toClient := chan }
    | _ => none
  | .accept =>
    match s.server with
    | .accepting => some { s with server := .reading ⟨0, 0, p.serverBuffer⟩ }
    | _ => none
  | .serverRead r =>
    match s.server with
    | .reading l => do
      let chan ← receive s.toServer s.client.closed r
      return { s with server := serverAfter (round gBuffSize l r), toServer := chan }
    | _ => none
  | .serverWrite =>
    match s.server with
    | .write w => some { s with server := .writing w }
    | _ => none
  | .serverWriteError =>
    match s.server with
    | .write _ => some { s with server := .closing }
    | _ => none
  | .serverSend k =>
    match s.server with
    | .writing rest =>
      some { s with server := .writing (rest.drop k), toClient := s.toClient ++ rest.take k }
    | _ => none
  | .serverSent =>
    match s.server with
    | .writing [] => some { s with server := .closing }
    | _ => none
  | .serverClose =>
    match s.server with
    | .closing => some { s with server := .closed }
    | _ => none

def start (p : Setup) : State where
  client := .writing p.message
  server := .accepting
  toServer := []
  toClient := []

def system (p : Setup) : Lts State Action := ofNext (start p) (next p)

/-- What a step does, action by action. -/
inductive Step (p : Setup) (s : State) : State → Prop
  | clientSend {rest : List Byte} (k : ℕ) : s.client = .writing rest →
      Step p s { s with client := .writing (rest.drop k), toServer := s.toServer ++ rest.take k }
  | clientSent : s.client = .writing [] → Step p s { s with client := .writeNewline }
  | clientNewline : s.client = .writeNewline →
      Step p s { s with
        client := .reading ⟨0, 0, p.clientBuffer⟩, toServer := s.toServer ++ [newline] }
  | clientWriteError : Step p s { s with client := .failed }
  | clientRead {l : Locals} {r : ReadResult} {chan : List Byte} : s.client = .reading l →
      receive s.toClient s.server.isClosed r = some chan →
      Step p s { s with client := clientAfter (round gBuffSize l r), toClient := chan }
  | accept : s.server = .accepting →
      Step p s { s with server := .reading ⟨0, 0, p.serverBuffer⟩ }
  | serverRead {l : Locals} {r : ReadResult} {chan : List Byte} : s.server = .reading l →
      receive s.toServer s.client.closed r = some chan →
      Step p s { s with server := serverAfter (round gBuffSize l r), toServer := chan }
  | serverWrite {w : List Byte} : s.server = .write w → Step p s { s with server := .writing w }
  | serverWriteError {w : List Byte} : s.server = .write w →
      Step p s { s with server := .closing }
  | serverSend {rest : List Byte} (k : ℕ) : s.server = .writing rest →
      Step p s { s with server := .writing (rest.drop k), toClient := s.toClient ++ rest.take k }
  | serverSent : s.server = .writing [] → Step p s { s with server := .closing }
  | serverClose : s.server = .closing → Step p s { s with server := .closed }

theorem next_cases {p : Setup} {s s' : State} {a : Action} (h : next p s a = some s') :
    Step p s s' := by
  cases a with
  | clientRead r =>
    simp only [next] at h
    split at h
    case h_1 l heq =>
      obtain ⟨chan, hchan, h⟩ := Option.bind_eq_some_iff.mp h
      cases h
      exact .clientRead heq hchan
    case h_2 => cases h
  | serverRead r =>
    simp only [next] at h
    split at h
    case h_1 l heq =>
      obtain ⟨chan, hchan, h⟩ := Option.bind_eq_some_iff.mp h
      cases h
      exact .serverRead heq hchan
    case h_2 => cases h
  | serverSent =>
    simp only [next] at h
    split at h
    case h_1 heq =>
      cases h
      exact .serverSent heq
    case h_2 => cases h
  | _ =>
    simp only [next] at h
    split at h <;> cases h <;> constructor <;> assumption

/-! ## The expected answer -/

/-- The shortest prefix of the message and its newline that ends in a newline. -/
def Setup.line (p : Setup) : List Byte := firstLine newline (p.message ++ [newline])

/-- What the client is to print. -/
def Setup.echo (p : Setup) : List Byte := p.line.take (gBuffSize - 1)

theorem Setup.zero_not_mem_line (p : Setup) : 0 ∉ p.line := by
  intro h
  have hmem := (firstLine_isPrefix newline (p.message ++ [newline])).subset h
  rcases List.mem_append.mp hmem with hm | hm
  · exact p.zeroFree hm
  · exact absurd (List.mem_singleton.mp hm) (by decide)

theorem Setup.cstr_echo (p : Setup) : cstr p.echo = p.echo := by
  rw [cstr_eq_self_iff]
  intro h
  exact p.zero_not_mem_line (List.mem_of_mem_take h)

theorem Setup.line_ne_nil (p : Setup) : p.line ≠ [] :=
  firstLine_ne_nil newline (by simp)

theorem Setup.echo_ne_nil (p : Setup) : p.echo ≠ [] := by
  unfold Setup.echo
  simp [List.take_eq_nil_iff, gBuffSize, p.line_ne_nil]

theorem Setup.take_echo (p : Setup) : p.echo.take (gBuffSize - 1) = p.echo := by
  unfold Setup.echo
  rw [List.take_take, min_self]

/-- A newline is the end of the answer. -/
theorem Setup.echo_eq_of_newline (p : Setup) {d rest : List Byte}
    (h : d ++ newline :: rest <+: p.echo) : p.echo = d ++ [newline] ∧ rest = [] := by
  obtain ⟨more, hmore⟩ := h
  have hpre : d ++ newline :: (rest ++ more) <+: p.line := by
    have : d ++ newline :: (rest ++ more) = p.echo := by simpa using hmore
    rw [this]
    exact List.take_prefix _ _
  obtain ⟨rfl, rfl⟩ := List.append_eq_nil_iff.mp (eq_nil_of_prefix_firstLine hpre)
  exact ⟨by simpa using hmore.symm, rfl⟩

/-! ## The invariant -/

/-- What the client knows when it has still to send `unsent` and has read `received`. -/
def ClientOk (p : Setup) (unsent received : List Byte) : ClientPc → Prop
  | .writing rest => unsent = rest ++ [newline] ∧ received = []
  | .writeNewline => unsent = [newline] ∧ received = []
  | .reading l =>
    unsent = [] ∧ newline ∉ received ∧ l = locals gBuffSize received p.clientBuffer
  | .finished len text =>
    unsent = [] ∧ received = p.echo ∧ len = p.echo.length ∧ text = p.echo
  | .failed => False
  | .fault => False

/-- What the server knows when `coming` is still to be read and `sent` has been written. -/
def ServerOk (p : Setup) (coming sent : List Byte) : ServerPc → Prop
  | .accepting => coming = p.message ++ [newline] ∧ sent = []
  | .reading l =>
    sent = [] ∧ ∃ c, newline ∉ c ∧ c ++ coming = p.message ++ [newline] ∧
      l = locals gBuffSize c p.serverBuffer
  | .write w => w = p.echo ∧ sent = []
  | .writing rest => sent ++ rest = p.echo
  | .closing => sent = p.echo ∨ sent = []
  | .closed => sent = p.echo ∨ sent = []
  | .fault => False

/-- No byte is lost, and both programs are where the bytes put them. -/
def Good (p : Setup) (s : State) : Prop :=
  ∃ unsent received, ClientOk p unsent received s.client ∧
    ServerOk p (s.toServer ++ unsent) (received ++ s.toClient) s.server

/-- Nothing is promised to a client that has failed. -/
def Inv (p : Setup) (s : State) : Prop := s.client = .failed ∨ Good p s

theorem ServerOk.sent_isPrefix {p : Setup} {coming sent : List Byte} {pc : ServerPc}
    (h : ServerOk p coming sent pc) : sent <+: p.echo := by
  cases pc with
  | accepting => exact h.2 ▸ List.nil_prefix
  | reading l => exact h.1 ▸ List.nil_prefix
  | write w => exact h.2 ▸ List.nil_prefix
  | writing rest => exact ⟨rest, h⟩
  | closing =>
    rcases h with rfl | rfl
    · exact List.prefix_rfl
    · exact List.nil_prefix
  | closed =>
    rcases h with rfl | rfl
    · exact List.prefix_rfl
    · exact List.nil_prefix
  | fault => exact h.elim

/-! ## Rounds of the two `readLine` calls -/

theorem clientAfter_stored (p : Setup) :
    clientAfter (some (stored gBuffSize p.echo p.clientBuffer)) =
      .finished p.echo.length p.echo := by
  have hpos : ¬(p.echo.length : ℤ) ≤ 0 := by
    have := List.length_pos_iff.mpr p.echo_ne_nil
    omega
  unfold clientAfter stored filled
  simp only [p.take_echo]
  rw [if_neg hpos, strlen_terminated]
  simp only [take_terminated]
  rw [p.cstr_echo]

/-- A `read` of the client takes the next byte of the answer, or ends it. -/
theorem client_read {p : Setup} {d toClient chan : List Byte} {closed : Bool} {r : ReadResult}
    (hd : newline ∉ d) (hpre : d ++ toClient <+: p.echo)
    (hclosed : closed = true → d ++ toClient = p.echo ∨ d ++ toClient = [])
    (htake : receive toClient closed r = some chan) :
    clientAfter (round gBuffSize (locals gBuffSize d p.clientBuffer) r) = .failed ∨
      ∃ d', d' ++ chan = d ++ toClient ∧
        ClientOk p [] d' (clientAfter (round gBuffSize (locals gBuffSize d p.clientBuffer) r)) := by
  have hn : 1 ≤ gBuffSize := by decide
  have hbuf := p.clientBuffer_length.ge
  cases r with
  | byte ch =>
    obtain rfl := receive_byte.mp htake
    right
    refine ⟨d ++ [ch], by simp, ?_⟩
    rw [round_byte hn hbuf]
    by_cases hch : ch = newline
    · subst hch
      obtain ⟨hecho, -⟩ := p.echo_eq_of_newline hpre
      rw [if_pos rfl, ← hecho, clientAfter_stored]
      exact ⟨rfl, rfl, rfl, rfl⟩
    · rw [if_neg hch]
      exact ⟨rfl, by simp [hd, Ne.symm hch], rfl⟩
  | eof =>
    obtain ⟨rfl, hc, rfl⟩ := receive_eof.mp htake
    rw [List.append_nil] at hclosed
    rw [round_eof hn hbuf]
    rcases hclosed hc with hecho | rfl
    · right
      subst hecho
      rw [p.take_echo, if_neg p.echo_ne_nil, clientAfter_stored]
      exact ⟨p.echo, rfl, rfl, rfl, rfl, rfl⟩
    · left
      rfl
  | eintr =>
    obtain rfl : toClient = chan := Option.some.inj htake
    exact .inr ⟨d, rfl, rfl, hd, rfl⟩
  | error => exact .inl rfl

/-- A `read` of the server takes the next byte of the message. -/
theorem server_read {p : Setup} {c toServer unsent chan : List Byte} {closed : Bool}
    {r : ReadResult} (hc : newline ∉ c)
    (hcoming : c ++ (toServer ++ unsent) = p.message ++ [newline])
    (hclosed : closed = false) (htake : receive toServer closed r = some chan) :
    ServerOk p (chan ++ unsent) []
      (serverAfter (round gBuffSize (locals gBuffSize c p.serverBuffer) r)) := by
  have hn : 1 ≤ gBuffSize := by decide
  have hbuf := p.serverBuffer_length.ge
  cases r with
  | byte ch =>
    obtain rfl := receive_byte.mp htake
    rw [round_byte hn hbuf]
    by_cases hch : ch = newline
    · subst hch
      have hline : c ++ [newline] = p.line := by
        unfold Setup.line
        rw [← hcoming]
        exact (firstLine_append_cons hc _).symm
      rw [if_pos rfl, hline]
      unfold serverAfter stored
      simp only [TcpServer.answer_filled p.line_ne_nil]
      exact ⟨p.cstr_echo, rfl⟩
    · rw [if_neg hch]
      refine ⟨rfl, c ++ [ch], by simp [hc, Ne.symm hch], ?_, rfl⟩
      rw [← hcoming]
      simp
  | eof => simp [receive, hclosed] at htake
  | eintr =>
    obtain rfl : toServer = chan := Option.some.inj htake
    exact ⟨rfl, c, hc, hcoming, rfl⟩
  | error => exact .inr rfl

/-! ## Every step keeps the invariant -/

/-- A client whose socket is closed has failed or has read the answer; the server is then past
its `readLine`. -/
theorem client_open_of_reading {p : Setup} {unsent received coming toClient : List Byte}
    {pc : ClientPc} {l : Locals} (hc : ClientOk p unsent received pc)
    (hs : ServerOk p coming (received ++ toClient) (.reading l)) : pc.closed = false := by
  cases pc with
  | finished len text =>
    obtain ⟨-, rfl, -⟩ := hc
    exact absurd (List.append_eq_nil_iff.mp hs.1).1 p.echo_ne_nil
  | failed => exact hc.elim
  | _ => rfl

theorem inv_step {p : Setup} {s s' : State} (h : Inv p s) (hstep : Step p s s') : Inv p s' := by
  rcases h with hfailed | ⟨unsent, received, hc, hs⟩
  · left
    cases hstep <;> simp_all
  cases hstep with
  | @clientSend rest k hpc =>
    rw [hpc] at hc
    obtain ⟨rfl, rfl⟩ := hc
    refine .inr ⟨rest.drop k ++ [newline], [], ⟨rfl, rfl⟩, ?_⟩
    have hsame : s.toServer ++ rest.take k ++ (rest.drop k ++ [newline]) =
        s.toServer ++ (rest ++ [newline]) := by
      rw [List.append_assoc, ← List.append_assoc (rest.take k), List.take_append_drop]
    show ServerOk p (s.toServer ++ rest.take k ++ (rest.drop k ++ [newline])) _ _
    rw [hsame]
    exact hs
  | clientSent hpc =>
    rw [hpc] at hc
    exact .inr ⟨unsent, received, hc, hs⟩
  | clientNewline hpc =>
    rw [hpc] at hc
    obtain ⟨rfl, rfl⟩ := hc
    refine .inr ⟨[], [], ⟨rfl, List.not_mem_nil, (locals_nil _ _).symm⟩, ?_⟩
    rw [List.append_nil]
    exact hs
  | clientWriteError => exact .inl rfl
  | clientRead hpc hchan =>
    rw [hpc] at hc
    obtain ⟨rfl, hnl, rfl⟩ := hc
    have hclosed : s.server.isClosed = true →
        received ++ s.toClient = p.echo ∨ received ++ s.toClient = [] := by
      intro hcl
      cases hsrv : s.server with
      | closed =>
        rw [hsrv] at hs
        exact hs
      | _ => simp [hsrv, ServerPc.isClosed] at hcl
    rcases client_read hnl hs.sent_isPrefix hclosed hchan with hfail | ⟨d, hd, hok⟩
    · exact .inl hfail
    · refine .inr ⟨[], d, hok, ?_⟩
      rw [hd]
      exact hs
  | accept hpc =>
    rw [hpc] at hs
    exact .inr ⟨unsent, received, hc, hs.2, [], List.not_mem_nil, hs.1, (locals_nil _ _).symm⟩
  | serverRead hpc hchan =>
    rw [hpc] at hs
    have hopen := client_open_of_reading hc hs
    obtain ⟨hsent, c, hnl, hcoming, rfl⟩ := hs
    refine .inr ⟨unsent, received, hc, ?_⟩
    rw [hsent]
    exact server_read hnl hcoming hopen hchan
  | serverWrite hpc =>
    rw [hpc] at hs
    obtain ⟨rfl, hsent⟩ := hs
    refine .inr ⟨unsent, received, hc, ?_⟩
    show received ++ s.toClient ++ p.echo = p.echo
    rw [hsent, List.nil_append]
  | serverWriteError hpc =>
    rw [hpc] at hs
    exact .inr ⟨unsent, received, hc, .inr hs.2⟩
  | @serverSend rest k hpc =>
    rw [hpc] at hs
    refine .inr ⟨unsent, received, hc, ?_⟩
    show received ++ (s.toClient ++ rest.take k) ++ rest.drop k = p.echo
    rw [List.append_assoc, List.append_assoc, List.take_append_drop, ← List.append_assoc]
    exact hs
  | serverSent hpc =>
    rw [hpc] at hs
    refine .inr ⟨unsent, received, hc, .inl ?_⟩
    exact (List.append_nil _).symm.trans hs
  | serverClose hpc =>
    rw [hpc] at hs
    exact .inr ⟨unsent, received, hc, hs⟩

theorem inv_invariant (p : Setup) : (system p).Invariant (Inv p) where
  init s h := by
    obtain rfl : s = start p := h
    exact .inr ⟨p.message ++ [newline], [], ⟨rfl, rfl⟩, rfl, rfl⟩
  step s a s' h hstep := inv_step h (next_cases hstep)

/-- **The round trip.** In every order of the steps, a client that has finished without
`fatalError` has printed the first 63 bytes of the first line of its message, newline included,
and their number. -/
theorem round_trip (p : Setup) {tr : List Action} {s : State} (h : (system p).Run tr s) {len : ℤ}
    {text : List Byte} (hfin : s.client = .finished len text) :
    text = (firstLine newline (p.message ++ [newline])).take 63 ∧
      len = min 63 (firstLine newline (p.message ++ [newline])).length := by
  rcases (inv_invariant p).run h with hfailed | ⟨unsent, received, hc, -⟩
  · rw [hfin] at hfailed
    cases hfailed
  · rw [hfin] at hc
    obtain ⟨-, -, hlen, htext⟩ := hc
    refine ⟨htext, ?_⟩
    rw [hlen, Setup.echo, List.length_take]
    rfl

/-- The message `"hi"`. -/
def hiSetup : Setup where
  message := [104, 105]
  zeroFree := by decide
  clientBuffer := List.replicate 64 7
  clientBuffer_length := by decide
  serverBuffer := List.replicate 64 9
  serverBuffer_length := by decide

/-- The server reads while the client is still writing, and the client while the server is. -/
def hiSchedule : List Action :=
  [.clientSend 1, .accept, .serverRead (.byte 104), .serverRead .eintr, .clientSend 1, .clientSent,
    .serverRead (.byte 105), .clientNewline, .serverRead (.byte 10), .serverWrite, .serverSend 2,
    .clientRead (.byte 104), .serverSend 1, .serverSent, .clientRead .eintr,
    .clientRead (.byte 105), .serverClose, .clientRead (.byte 10)]

theorem round_trip_hi :
    ∃ s, (system hiSetup).Run hiSchedule s ∧ s.client = .finished 3 [104, 105, 10] ∧
      [104, 105, 10] = (firstLine newline (hiSetup.message ++ [newline])).take 63 := by
  obtain ⟨s, hrun, hfin⟩ := exists_run_of_exec (start hiSetup) (next hiSetup) hiSchedule
    (fun s => s.client = .finished 3 [104, 105, 10]) (by decide)
  have hfin' : s.client = .finished 3 [104, 105, 10] := by simpa using hfin
  exact ⟨s, hrun, hfin', (round_trip hiSetup hrun hfin').1⟩

end LinuxDemo.TcpEcho
