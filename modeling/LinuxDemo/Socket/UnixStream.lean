import LinuxDemo.Lib.Buffer
import LinuxDemo.Lib.Lts

/-!
# The UNIX-domain stream copy

`socket/unix_domain_tcp`: any number of clients copy their standard input to a stream socket, and
the server accepts one connection after another and copies each to its standard output. Both
sides read up to 64 bytes at a time; how many is up to the kernel. A short or failed `write` and a
failed `read` end in `fatalError`.

A connection is a queue of bytes: what a client has written and the server has not read. Clients
may write before they are accepted and while another connection is being drained.

* `Inv`: what the server has written of a connection, what it holds, the queue, and what the client
  has still to write are together the input of the client.
* `stream_copy`: the output of the server is the data of the accepted connections, one after the
  other, in every run in which it has not called `fatalError`.
-/

namespace LinuxDemo.UnixStream

open Lts

/-- `g_buffSize`. -/
def buffSize : ℕ := 64

/-- What a client executes next. -/
inductive ClientPc where
  | connect
  /-- `read(STDIN_FILENO, buff, g_buffSize)`. -/
  | read
  /-- `write(sfd, buff, readSize)`. -/
  | write
  /-- Has closed its socket and exited with `EXIT_SUCCESS`. -/
  | exited
  /-- Has called `fatalError` after `connect` had succeeded, which closes its socket too. -/
  | failed
  /-- Has called `fatalError` because `connect` failed. -/
  | refused
  deriving DecidableEq

/-- A client: what is left of its input, and what it has read but not written. -/
structure Client where
  pc : ClientPc
  stdin : List Byte
  pending : List Byte
  deriving DecidableEq

/-- What the server executes next, with the client of its `cfd`. -/
inductive ServerPc (ι : Type*) where
  | accept
  | read (c : ι)
  /-- `write(STDOUT_FILENO, buff, readSize)`. -/
  | write (c : ι) (chunk : List Byte)
  | close (c : ι)
  /-- Has called `fatalError`. -/
  | failed
  deriving DecidableEq

/-- The server: the connections it has accepted, in this order, and what it has written to
`STDOUT_FILENO`. -/
structure Server (ι : Type*) where
  pc : ServerPc ι
  accepted : List ι
  written : List Byte
  deriving DecidableEq

structure World (ι : Type*) where
  client : ι → Client
  /-- The bytes on their way from each client. -/
  queue : ι → List Byte
  server : Server ι

/-- What happens next; `n` is the result of a `read` or `write`. -/
inductive Event (ι : Type*) where
  | connect (c : ι) (ok : Bool)
  | clientRead (c : ι) (n : ℕ)
  | clientReadFails (c : ι)
  | clientWrite (c : ι) (n : ℕ)
  | accept (c : ι)
  | acceptFails
  | serverRead (n : ℕ)
  | serverReadFails
  | serverWrite (n : ℕ)
  | serverClose (ok : Bool)
  deriving DecidableEq

/-- A `read` may return `n > 0` bytes of those that are there. -/
def mayRead (n : ℕ) (available : List Byte) : Prop :=
  0 < n ∧ n ≤ buffSize ∧ n ≤ available.length

instance (n : ℕ) (available : List Byte) : Decidable (mayRead n available) :=
  inferInstanceAs (Decidable (_ ∧ _))

/-- Has the socket of a connected client open, or has closed it. -/
def ClientPc.connected : ClientPc → Bool
  | .connect | .refused => false
  | _ => true

/-- The client has closed its end. -/
def ClientPc.ended : ClientPc → Bool
  | .exited | .failed => true
  | _ => false

/-- `read` of a client returns `n`. -/
def Client.read (x : Client) (n : ℕ) : Option Client :=
  if x.pc = .read ∧ n = 0 ∧ x.stdin = [] then some { x with pc := .exited }
  else if x.pc = .read ∧ mayRead n x.stdin then
    some ⟨.write, x.stdin.drop n, x.stdin.take n⟩
  else none

/-- `write` of a client has written `n` bytes; a short write is an error. -/
def Client.wrote (x : Client) (n : ℕ) : Client :=
  { x with
    pc := if n = x.pending.length then .read else .failed
    pending := x.pending.drop n }

variable {ι : Type*} [DecidableEq ι]

/-- Client `c` goes on as `x`. -/
def World.setClient (w : World ι) (c : ι) (x : Client) : World ι :=
  { w with client := Function.update w.client c x }

/-- The server goes on at `y`. -/
def World.goto (w : World ι) (y : ServerPc ι) : World ι :=
  { w with server := { w.server with pc := y } }

/-- The server executes `read`, which returns `n`, on the connection of `c`. -/
def World.serverRead (w : World ι) (c : ι) (n : ℕ) : Option (World ι) :=
  if mayRead n (w.queue c) then
    some { w.goto (.write c ((w.queue c).take n)) with
      queue := Function.update w.queue c ((w.queue c).drop n) }
  else if n = 0 ∧ w.queue c = [] ∧ (w.client c).pc.ended = true then
    -- End of file.
    some (w.goto (.close c))
  else none

/-- The server has written `n` bytes of its chunk; a short write is an error. -/
def World.serverWrote (w : World ι) (c : ι) (chunk : List Byte) (n : ℕ) : World ι :=
  { w with
    server := ⟨if n = chunk.length then .read c else .failed, w.server.accepted,
      w.server.written ++ chunk.take n⟩ }

/-- The step of an event. -/
def next (w : World ι) : Event ι → Option (World ι)
  | .connect c ok =>
    if (w.client c).pc = .connect then
      some (w.setClient c { w.client c with pc := if ok then .read else .refused })
    else none
  | .clientRead c n => ((w.client c).read n).map (w.setClient c)
  | .clientReadFails c =>
    if (w.client c).pc = .read then some (w.setClient c { w.client c with pc := .failed })
    else none
  | .clientWrite c n =>
    if (w.client c).pc = .write ∧ n ≤ (w.client c).pending.length then
      some { w.setClient c ((w.client c).wrote n) with
        queue := Function.update w.queue c (w.queue c ++ (w.client c).pending.take n) }
    else none
  | .accept c =>
    if w.server.pc = .accept ∧ (w.client c).pc.connected = true ∧ c ∉ w.server.accepted then
      some { w with server := ⟨.read c, w.server.accepted ++ [c], w.server.written⟩ }
    else none
  | .acceptFails => if w.server.pc = .accept then some (w.goto .failed) else none
  | .serverRead n =>
    match w.server.pc with
    | .read c => w.serverRead c n
    | _ => none
  | .serverReadFails =>
    match w.server.pc with
    | .read _ => some (w.goto .failed)
    | _ => none
  | .serverWrite n =>
    match w.server.pc with
    | .write c chunk => if n ≤ chunk.length then some (w.serverWrote c chunk n) else none
    | _ => none
  | .serverClose ok =>
    match w.server.pc with
    | .close _ => some (w.goto (if ok then .accept else .failed))
    | _ => none

/-- The clients are yet to connect, with their standard input. -/
def initial (input : ι → List Byte) : World ι :=
  ⟨fun c => ⟨.connect, input c, []⟩, fun _ => [], ⟨.accept, [], []⟩⟩

def system (input : ι → List Byte) : Lts (World ι) (Event ι) := ofNext (initial input) next

/-! ## What one step does -/

/-- The steps of a client that write nothing. -/
inductive ClientMove (x : Client) : Client → Prop
  | connect (h : x.pc = .connect) : ClientMove x { x with pc := .read }
  | refused (h : x.pc = .connect) : ClientMove x { x with pc := .refused }
  | endOfFile (h : x.pc = .read) (hin : x.stdin = []) : ClientMove x { x with pc := .exited }
  | read {n : ℕ} (h : x.pc = .read) : ClientMove x ⟨.write, x.stdin.drop n, x.stdin.take n⟩
  | readFails (h : x.pc = .read) : ClientMove x { x with pc := .failed }

/-- Everything a step can do. -/
inductive Step (w : World ι) : World ι → Prop
  | client {c : ι} {x : Client} (h : ClientMove (w.client c) x) : Step w (w.setClient c x)
  | clientWrite {c : ι} {n : ℕ} (h : (w.client c).pc = .write)
      (hn : n ≤ (w.client c).pending.length) :
      Step w { w.setClient c ((w.client c).wrote n) with
        queue := Function.update w.queue c (w.queue c ++ (w.client c).pending.take n) }
  | accept {c : ι} (h : w.server.pc = .accept) (hc : c ∉ w.server.accepted) :
      Step w { w with server := ⟨.read c, w.server.accepted ++ [c], w.server.written⟩ }
  | serverRead {c : ι} {n : ℕ} (h : w.server.pc = .read c) :
      Step w { w.goto (.write c ((w.queue c).take n)) with
        queue := Function.update w.queue c ((w.queue c).drop n) }
  | endOfFile {c : ι} (h : w.server.pc = .read c) (hq : w.queue c = [])
      (hc : (w.client c).pc.ended = true) : Step w (w.goto (.close c))
  | serverWrite {c : ι} {chunk : List Byte} (h : w.server.pc = .write c chunk) :
      Step w { w with server := ⟨.read c, w.server.accepted, w.server.written ++ chunk⟩ }
  | close {c : ι} (h : w.server.pc = .close c) : Step w (w.goto .accept)
  | fatal {w' : World ι} (h : w'.server.pc = .failed) : Step w w'

theorem next_cases {w w' : World ι} {e : Event ι} (h : next w e = some w') : Step w w' := by
  unfold next at h
  split at h
  case h_1 =>
    split_ifs at h with hpc hok
    · cases h
      exact .client (.connect hpc)
    · cases h
      exact .client (.refused hpc)
  case h_2 c n =>
    obtain ⟨x, hx, rfl⟩ := Option.map_eq_some_iff.1 h
    unfold Client.read at hx
    split_ifs at hx with hz hn
    · cases hx
      exact .client (.endOfFile hz.1 hz.2.2)
    · cases hx
      exact .client (.read hn.1)
  case h_3 =>
    split_ifs at h with hpc
    cases h
    exact .client (.readFails hpc)
  case h_4 =>
    split_ifs at h with hpc
    cases h
    exact .clientWrite hpc.1 hpc.2
  case h_5 =>
    split_ifs at h with hpc
    cases h
    exact .accept hpc.1 hpc.2.2
  case h_6 =>
    split_ifs at h
    cases h
    exact .fatal rfl
  case h_7 n =>
    split at h
    · rename_i c hpc
      unfold World.serverRead at h
      split_ifs at h with hn hz
      · cases h
        exact .serverRead hpc
      · cases h
        exact .endOfFile hpc hz.2.1 hz.2.2
    · cases h
  case h_8 =>
    split at h
    · cases h
      exact .fatal rfl
    · cases h
  case h_9 n =>
    split at h
    · rename_i c chunk hpc
      split_ifs at h with hn
      cases h
      unfold World.serverWrote
      by_cases hfull : n = chunk.length
      · rw [if_pos hfull, hfull, List.take_length]
        exact .serverWrite hpc
      · rw [if_neg hfull]
        exact .fatal rfl
    · cases h
  case h_10 ok =>
    split at h
    · rename_i c hpc
      cases h
      cases ok with
      | true => exact .close hpc
      | false => exact .fatal rfl
    · cases h

/-! ## Bytes on their way -/

/-- What the server has read of a connection and not written. -/
def ServerPc.held : ServerPc ι → ι → List Byte
  | .write c' chunk, c => if c' = c then chunk else []
  | _, _ => []

/-- The connection that the server copies. -/
def ServerPc.draining : ServerPc ι → Option ι
  | .read c | .write c _ => some c
  | _ => none

/-- Between two rounds of its loop a client has written what it has read. -/
def Client.Ok (x : Client) : Prop :=
  match x.pc with
  | .write | .failed => True
  | .exited => x.pending = [] ∧ x.stdin = []
  | _ => x.pending = []

/-- What has become of the input of each client; `data c` is what the server has written of it. -/
structure Inv (input data : ι → List Byte) (w : World ι) : Prop where
  clients : ∀ c, (w.client c).Ok
  flow : ∀ c, data c ++ (w.server.pc.held c ++ (w.queue c ++
    ((w.client c).pending ++ (w.client c).stdin))) = input c
  fresh : ∀ c, c ∉ w.server.accepted → data c = []
  nodup : w.server.accepted.Nodup
  written : w.server.written = (w.server.accepted.map data).flatten
  current : ∀ c, w.server.pc.draining = some c → ∃ front, w.server.accepted = front ++ [c]
  drained : ∀ c ∈ w.server.accepted, w.server.pc.draining ≠ some c →
    w.queue c = [] ∧ (w.client c).pc.ended = true

theorem ClientMove.keeps {x y : Client} (h : ClientMove x y) (hx : x.Ok) :
    y.Ok ∧ y.pending ++ y.stdin = x.pending ++ x.stdin ∧ x.pc.ended = false := by
  unfold Client.Ok at hx
  cases h with
  | connect h =>
    rw [h] at hx
    exact ⟨hx, rfl, by rw [h]; rfl⟩
  | refused h =>
    rw [h] at hx
    exact ⟨hx, rfl, by rw [h]; rfl⟩
  | endOfFile h hin =>
    rw [h] at hx
    exact ⟨⟨hx, hin⟩, rfl, by rw [h]; rfl⟩
  | read h =>
    rw [h] at hx
    refine ⟨trivial, ?_, by rw [h]; rfl⟩
    rw [show x.pending = [] from hx, List.nil_append]
    exact List.take_append_drop _ _
  | readFails h => exact ⟨trivial, rfl, by rw [h]; rfl⟩

section Keep

variable {input data : ι → List Byte} {w : World ι} {c : ι}

/-- A client that has not closed its end moves bytes of its own towards the server. -/
theorem Inv.client (h : Inv input data w) {x : Client} {q : List Byte} (hx : x.Ok)
    (hbytes : q ++ (x.pending ++ x.stdin) =
      w.queue c ++ ((w.client c).pending ++ (w.client c).stdin))
    (hended : (w.client c).pc.ended = false) :
    Inv input data { w.setClient c x with queue := Function.update w.queue c q } where
  clients := (Function.forall_update_iff _ fun _ (x : Client) => x.Ok).2
    ⟨hx, fun d _ => h.clients d⟩
  flow := by
    intro d
    by_cases hd : d = c
    · subst hd
      simpa [World.setClient, hbytes] using h.flow d
    · simpa [World.setClient, hd] using h.flow d
  fresh := h.fresh
  nodup := h.nodup
  written := h.written
  current := h.current
  drained := by
    intro d hd hne
    have hdc : d ≠ c := by
      intro heq
      subst heq
      rw [(h.drained d hd hne).2] at hended
      cases hended
    simpa [World.setClient, hdc] using h.drained d hd hne

theorem Inv.accept (h : Inv input data w) (hpc : w.server.pc = .accept)
    (hc : c ∉ w.server.accepted) :
    Inv input data { w with
      server := ⟨.read c, w.server.accepted ++ [c], w.server.written⟩ } where
  clients := h.clients
  flow := by
    intro d
    have := h.flow d
    rw [hpc] at this
    exact this
  fresh := fun d hd => h.fresh d fun hd' => hd (List.mem_append_left _ hd')
  nodup := by
    refine List.nodup_append.2 ⟨h.nodup, by simp, ?_⟩
    intro a ha b hb hab
    rw [List.mem_singleton.1 hb] at hab
    exact hc (hab ▸ ha)
  written := by
    show w.server.written = _
    rw [h.written]
    simp [h.fresh c hc]
  current := by
    intro d hd
    cases hd
    exact ⟨_, rfl⟩
  drained := by
    intro d hd hne
    rcases List.mem_append.1 hd with hd | hd
    · exact h.drained d hd (by rw [hpc]; simp [ServerPc.draining])
    · exact absurd (by rw [List.mem_singleton.1 hd]; rfl) hne

theorem Inv.serverRead (h : Inv input data w) {n : ℕ} (hpc : w.server.pc = .read c) :
    Inv input data { w.goto (.write c ((w.queue c).take n)) with
      queue := Function.update w.queue c ((w.queue c).drop n) } where
  clients := h.clients
  flow := by
    intro d
    have := h.flow d
    rw [hpc] at this
    by_cases hd : d = c
    · subst hd
      simpa [World.goto, ServerPc.held, ← List.append_assoc] using this
    · simpa [World.goto, ServerPc.held, hd, Ne.symm hd] using this
  fresh := h.fresh
  nodup := h.nodup
  written := h.written
  current := by
    intro d hd
    cases hd
    exact h.current c (by rw [hpc]; rfl)
  drained := by
    intro d hd hne
    have hdc : d ≠ c := by
      intro heq
      subst heq
      exact hne rfl
    have hbefore : w.server.pc.draining ≠ some d := by
      rw [hpc]
      simpa [ServerPc.draining] using hdc.symm
    simpa [World.goto, hdc] using h.drained d hd hbefore

theorem Inv.endOfFile (h : Inv input data w) (hpc : w.server.pc = .read c)
    (hq : w.queue c = []) (hc : (w.client c).pc.ended = true) :
    Inv input data (w.goto (.close c)) where
  clients := h.clients
  flow := by
    intro d
    have := h.flow d
    rw [hpc] at this
    exact this
  fresh := h.fresh
  nodup := h.nodup
  written := h.written
  current := by
    intro d hd
    cases hd
  drained := by
    intro d hd _
    by_cases hdc : d = c
    · subst hdc
      exact ⟨hq, hc⟩
    · exact h.drained d hd (by rw [hpc]; simpa [ServerPc.draining] using Ne.symm hdc)

theorem Inv.serverWrite (h : Inv input data w) {chunk : List Byte}
    (hpc : w.server.pc = .write c chunk) :
    Inv input (Function.update data c (data c ++ chunk)) { w with
      server := ⟨.read c, w.server.accepted, w.server.written ++ chunk⟩ } := by
  obtain ⟨front, hfront⟩ := h.current c (by rw [hpc]; rfl)
  have hmem : c ∈ w.server.accepted := by simp [hfront]
  have hnot : c ∉ front := by
    have := h.nodup
    rw [hfront] at this
    exact fun hc => (List.nodup_append.1 this).2.2 c hc c (by simp) rfl
  refine ⟨h.clients, ?_, ?_, h.nodup, ?_, ?_, ?_⟩
  · intro d
    have := h.flow d
    rw [hpc] at this
    by_cases hd : d = c
    · subst hd
      simpa [ServerPc.held] using this
    · simpa [ServerPc.held, hd, Ne.symm hd] using this
  · intro d hd
    have hdc : d ≠ c := fun heq => hd (heq ▸ hmem)
    rw [Function.update_of_ne hdc]
    exact h.fresh d hd
  · show w.server.written ++ chunk = _
    rw [h.written, hfront]
    have hsame : front.map (Function.update data c (data c ++ chunk)) = front.map data := by
      apply List.map_congr_left
      intro d hd
      have hdc : d ≠ c := fun heq => hnot (heq ▸ hd)
      exact Function.update_of_ne hdc _ _
    simp [hsame]
  · intro d hd
    cases hd
    exact ⟨front, hfront⟩
  · intro d hd hne
    exact h.drained d hd (by rw [hpc]; exact hne)

theorem Inv.close (h : Inv input data w) (hpc : w.server.pc = .close c) :
    Inv input data (w.goto .accept) where
  clients := h.clients
  flow := by
    intro d
    have := h.flow d
    rw [hpc] at this
    exact this
  fresh := h.fresh
  nodup := h.nodup
  written := h.written
  current := by
    intro d hd
    cases hd
  drained := by
    intro d hd _
    exact h.drained d hd (by rw [hpc]; simp [ServerPc.draining])

/-- Until the server has called `fatalError`. -/
def Copying (input : ι → List Byte) (w : World ι) : Prop :=
  w.server.pc ≠ .failed → ∃ data, Inv input data w

theorem copying_step {w' : World ι} (h : Copying input w) (hs : Step w w') :
    Copying input w' := by
  intro hw'
  -- Every step but `fatalError` starts with a server that has not failed.
  have hinv : w.server.pc ≠ .failed → ∃ data, Inv input data w' := by
    intro hw
    obtain ⟨data, hd⟩ := h hw
    cases hs with
    | @client c x hm =>
      obtain ⟨hx, hbytes, hended⟩ := hm.keeps (hd.clients c)
      refine ⟨data, ?_⟩
      have := hd.client (q := w.queue c) hx (by rw [hbytes]) hended
      rwa [Function.update_eq_self] at this
    | @clientWrite c n hpc hn =>
      refine ⟨data, hd.client ?_ ?_ (by rw [hpc]; rfl)⟩
      · unfold Client.Ok Client.wrote
        by_cases hfull : n = (w.client c).pending.length
        · simp [hfull]
        · simp [hfull]
      · show _ ++ ((w.client c).pending.drop n ++ (w.client c).stdin) = _
        rw [List.append_assoc, ← List.append_assoc ((w.client c).pending.take n),
          List.take_append_drop]
    | accept hpc hc => exact ⟨data, hd.accept hpc hc⟩
    | serverRead hpc => exact ⟨data, hd.serverRead hpc⟩
    | endOfFile hpc hq hc => exact ⟨data, hd.endOfFile hpc hq hc⟩
    | serverWrite hpc => exact ⟨_, hd.serverWrite hpc⟩
    | close hpc => exact ⟨data, hd.close hpc⟩
    | fatal hf => exact absurd hf hw'
  apply hinv
  intro hf
  cases hs with
  | client => exact hw' hf
  | clientWrite => exact hw' hf
  | accept hpc => rw [hpc] at hf; cases hf
  | serverRead hpc => rw [hpc] at hf; cases hf
  | endOfFile hpc => rw [hpc] at hf; cases hf
  | serverWrite hpc => rw [hpc] at hf; cases hf
  | close hpc => rw [hpc] at hf; cases hf
  | fatal hf' => exact hw' hf'

theorem copying_invariant : (system input).Invariant (Copying input) where
  init w h := by
    rw [h]
    intro _
    refine ⟨fun _ => [], ⟨fun _ => rfl, fun _ => rfl, fun _ _ => rfl, List.nodup_nil, rfl, ?_, ?_⟩⟩
    · intro c hc
      cases hc
    · intro c hc
      cases hc
  step w e w' h hs := copying_step h (next_cases hs)

/-- **The copy**, in every run in which the server has not called `fatalError`. Its output is the
data of the accepted connections in the order in which they were accepted. Of each it has written a
prefix of the input of the client; when the connection is finished the client has ended, and if it
ended normally its whole input has been written. -/
theorem stream_copy {tr : List (Event ι)} (h : (system input).Run tr w)
    (hw : w.server.pc ≠ .failed) :
    ∃ data : ι → List Byte, w.server.accepted.Nodup ∧
      w.server.written = (w.server.accepted.map data).flatten ∧
      ∀ c ∈ w.server.accepted, data c <+: input c ∧
        (w.server.pc.draining ≠ some c → (w.client c).pc.ended = true ∧
          ((w.client c).pc = .exited → data c = input c)) := by
  obtain ⟨data, hd⟩ := copying_invariant.run h hw
  refine ⟨data, hd.nodup, hd.written, ?_⟩
  intro c hc
  refine ⟨⟨_, hd.flow c⟩, ?_⟩
  intro hne
  obtain ⟨hq, hended⟩ := hd.drained c hc hne
  refine ⟨hended, ?_⟩
  intro hexit
  have hok := hd.clients c
  unfold Client.Ok at hok
  rw [hexit] at hok
  have hheld : w.server.pc.held c = [] := by
    generalize w.server.pc = y at hne
    cases y with
    | write d chunk =>
      have hdc : d ≠ c := by simpa [ServerPc.draining] using hne
      simp [ServerPc.held, hdc]
    | _ => rfl
  have hflow := hd.flow c
  rw [hheld, hq, hok.1, hok.2] at hflow
  simpa using hflow

end Keep

/-- Client `c` writes one byte and ends, then client `d`; the server accepts client `d` first. -/
def oneByteEach (c d : Fin 2) : List (Event (Fin 2)) :=
  [.connect c true, .clientRead c 1, .clientWrite c 1, .clientRead c 0,
   .connect d true, .clientRead d 1, .clientWrite d 1, .clientRead d 0,
   .accept d, .serverRead 1, .serverWrite 1, .serverRead 0, .serverClose true,
   .accept c, .serverRead 1, .serverWrite 1, .serverRead 0, .serverClose true]

theorem stream_copy_oneByteEach :
    ∃ w, (system fun c : Fin 2 => [if c = 0 then 97 else 98]).Run (oneByteEach 0 1) w ∧
      w.server.accepted = [1, 0] ∧ w.server.written = [98, 97] ∧
      ∃ data : Fin 2 → List Byte, w.server.written = (w.server.accepted.map data).flatten := by
  obtain ⟨w, hw, hp⟩ := exists_run_of_exec (initial fun c : Fin 2 => [if c = 0 then 97 else 98])
    next (oneByteEach 0 1) (fun w => w.server = ⟨.accept, [1, 0], [98, 97]⟩) (by decide)
  have hserver : w.server = ⟨.accept, [1, 0], [98, 97]⟩ := by simpa using hp
  obtain ⟨data, -, hwritten, -⟩ := stream_copy hw (by rw [hserver]; simp)
  exact ⟨w, hw, by rw [hserver], by rw [hserver], data, hwritten⟩

end LinuxDemo.UnixStream
