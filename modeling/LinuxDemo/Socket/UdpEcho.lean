import Mathlib.Data.Multiset.AddSub
import Mathlib.Data.Multiset.Count
import LinuxDemo.Lib.Buffer
import LinuxDemo.Lib.Lts

/-!
# The UDP echo client and server

`socket/internet_udp`: any number of clients, each of which sends its arguments one by one and
waits for a datagram after each, and one server that sends back what it receives, cut to its 64-byte
buffer. The network keeps, delays, drops and reorders datagrams; it does not duplicate or forge
them. Neither side looks at sequence numbers or sender addresses.

* `Ok`: a client that is about to send has nothing on its way; one that waits has at most one
  datagram on its way, in the network or in the server, and it is about the message it waits for.
* `echo_pairing`: every printed response is the first 64 bytes of its own message, and at most one
  datagram of each client is in flight, in every run.
-/

namespace LinuxDemo.UdpEcho

open Lts

/-- `g_buffSize`. -/
def buffSize : ℕ := 64

/-- The arguments of the clients, and what the buffers hold before their first use. -/
structure Setup (ι : Type*) where
  messages : ι → List (List Byte)
  /-- Arguments are C strings. -/
  nonzero : ∀ c, ∀ m ∈ messages c, 0 ∉ m
  clientBuffer : ι → List Byte
  serverBuffer : List Byte

/-- A datagram from a client to the server, or back. -/
structure Packet (ι : Type*) where
  client : ι
  toServer : Bool
  data : List Byte
  deriving DecidableEq

/-- What a client executes next, for its message `i`. -/
inductive ClientPc where
  | send (i : ℕ)
  | recv (i : ℕ)
  | exited
  deriving DecidableEq

/-- A client: its buffer, and the responses it has printed with the message each is for. -/
structure Client where
  pc : ClientPc
  buffer : List Byte
  printed : List (ℕ × List Byte)
  deriving DecidableEq

/-- What the server executes next. -/
inductive ServerPc (ι : Type*) where
  | recv
  | send (recvSize : ℕ) (cltAddr : ι)
  | exited
  deriving DecidableEq

structure Server (ι : Type*) where
  pc : ServerPc ι
  buffer : List Byte
  deriving DecidableEq

structure World (ι : Type*) where
  net : Multiset (Packet ι)
  server : Server ι
  client : ι → Client

/-- What happens next; a call that fails ends its process. -/
inductive Event (ι : Type*) where
  | clientSend (c : ι) (ok : Bool)
  | clientRecv (c : ι) (data : List Byte)
  | clientRecvFails (c : ι)
  /-- The loop is over. -/
  | clientExit (c : ι)
  | serverRecv (c : ι) (data : List Byte)
  | serverRecvFails
  | serverSend (ok : Bool)
  | drop (k : Packet ι)
  deriving DecidableEq

/-- `recvfrom(sfd, buffer, g_buffSize, ..)`: the buffer and the number of bytes received. -/
def recvfrom (buffer data : List Byte) : List Byte × ℕ :=
  (overlay (data.take buffSize) buffer, (data.take buffSize).length)

variable {ι : Type*}

/-- `printf("response %d: %.*s\n", i - 1, (int)recvSize, buffer)` and the next round. -/
def Client.respond (x : Client) (i : ℕ) (r : List Byte × ℕ) : Client :=
  ⟨.send (i + 1), r.1, (i, cstr (r.1.take r.2)) :: x.printed⟩

/-- Client `c` goes on as `x`. -/
def World.setClient [DecidableEq ι] (w : World ι) (c : ι) (x : Client) : World ι :=
  { w with client := Function.update w.client c x }

@[simp] theorem World.setClient_self [DecidableEq ι] (w : World ι) (c : ι) (x : Client) :
    (w.setClient c x).client c = x := Function.update_self _ _ _

theorem World.setClient_of_ne [DecidableEq ι] (w : World ι) {c d : ι} (h : d ≠ c) (x : Client) :
    (w.setClient c x).client d = w.client d := Function.update_of_ne h _ _

/-- The step of an event. -/
def next [DecidableEq ι] (S : Setup ι) (w : World ι) : Event ι → Option (World ι)
  | .clientSend c ok =>
    match (w.client c).pc with
    | .send i =>
      ((S.messages c)[i]?).map fun m =>
        if ok then
          { w.setClient c { w.client c with pc := .recv i } with net := ⟨c, true, m⟩ ::ₘ w.net }
        else w.setClient c { w.client c with pc := .exited }
    | _ => none
  | .clientRecv c data =>
    match (w.client c).pc with
    | .recv i =>
      if ⟨c, false, data⟩ ∈ w.net then
        some { w.setClient c ((w.client c).respond i (recvfrom (w.client c).buffer data)) with
          net := w.net.erase ⟨c, false, data⟩ }
      else none
    | _ => none
  | .clientRecvFails c =>
    match (w.client c).pc with
    | .recv _ => some (w.setClient c { w.client c with pc := .exited })
    | _ => none
  | .clientExit c =>
    match (w.client c).pc with
    | .send i =>
      if (S.messages c).length ≤ i then some (w.setClient c { w.client c with pc := .exited })
      else none
    | _ => none
  | .serverRecv c data =>
    if w.server.pc = .recv ∧ ⟨c, true, data⟩ ∈ w.net then
      let r := recvfrom w.server.buffer data
      some { w with net := w.net.erase ⟨c, true, data⟩, server := ⟨.send r.2 c, r.1⟩ }
    else none
  | .serverRecvFails =>
    if w.server.pc = .recv then some { w with server := { w.server with pc := .exited } } else none
  | .serverSend ok =>
    match w.server.pc with
    | .send n c =>
      if ok then
        some { w with
          net := ⟨c, false, w.server.buffer.take n⟩ ::ₘ w.net
          server := { w.server with pc := .recv } }
      else some { w with server := { w.server with pc := .exited } }
    | _ => none
  | .drop k => if k ∈ w.net then some { w with net := w.net.erase k } else none

/-- Nothing is on its way. -/
def initial (S : Setup ι) : World ι :=
  ⟨0, ⟨.recv, S.serverBuffer⟩, fun c => ⟨.send 0, S.clientBuffer c, []⟩⟩

def system [DecidableEq ι] (S : Setup ι) : Lts (World ι) (Event ι) :=
  ofNext (initial S) (next S)

/-! ## What one step does -/

/-- Everything a step can do. A datagram that is received or dropped leaves the network. -/
inductive Step [DecidableEq ι] (S : Setup ι) (w : World ι) : World ι → Prop
  | clientSend {c : ι} {i : ℕ} {m : List Byte} (hpc : (w.client c).pc = .send i)
      (hm : (S.messages c)[i]? = some m) :
      Step S w { w.setClient c { w.client c with pc := .recv i } with
        net := ⟨c, true, m⟩ ::ₘ w.net }
  | clientRecv {c : ι} {i : ℕ} {data : List Byte} {rest : Multiset (Packet ι)}
      (hpc : (w.client c).pc = .recv i) (hnet : w.net = ⟨c, false, data⟩ ::ₘ rest) :
      Step S w { w.setClient c ((w.client c).respond i (recvfrom (w.client c).buffer data)) with
        net := rest }
  | clientQuit {c : ι} : Step S w (w.setClient c { w.client c with pc := .exited })
  | serverRecv {c : ι} {data : List Byte} {rest : Multiset (Packet ι)}
      (hpc : w.server.pc = .recv) (hnet : w.net = ⟨c, true, data⟩ ::ₘ rest) :
      Step S w { w with
        net := rest
        server := ⟨.send (recvfrom w.server.buffer data).2 c,
          (recvfrom w.server.buffer data).1⟩ }
  | serverSend {c : ι} {n : ℕ} (hpc : w.server.pc = .send n c) :
      Step S w { w with
        net := ⟨c, false, w.server.buffer.take n⟩ ::ₘ w.net
        server := { w.server with pc := .recv } }
  | serverQuit : Step S w { w with server := { w.server with pc := .exited } }
  | drop {k : Packet ι} {rest : Multiset (Packet ι)} (hnet : w.net = k ::ₘ rest) :
      Step S w { w with net := rest }

theorem next_cases [DecidableEq ι] {S : Setup ι} {w w' : World ι} {e : Event ι}
    (h : next S w e = some w') : Step S w w' := by
  unfold next at h
  split at h
  · split at h
    · rename_i hpc
      obtain ⟨m, hm, rfl⟩ := Option.map_eq_some_iff.1 h
      split_ifs
      · exact .clientSend hpc hm
      · exact .clientQuit
    · cases h
  · split at h
    · rename_i hpc
      split_ifs at h with hk
      cases h
      exact .clientRecv hpc (Multiset.cons_erase hk).symm
    · cases h
  · split at h
    · cases h
      exact .clientQuit
    · cases h
  · split at h
    · split_ifs at h
      cases h
      exact .clientQuit
    · cases h
  · split_ifs at h with hk
    cases h
    exact .serverRecv hk.1 (Multiset.cons_erase hk.2).symm
  · split_ifs at h
    cases h
    exact .serverQuit
  · split at h
    · rename_i hpc
      split_ifs at h
      · cases h
        exact .serverSend hpc
      · cases h
        exact .serverQuit
    · cases h
  · split_ifs at h with hk
    cases h
    exact .drop (Multiset.cons_erase hk).symm

/-! ## Pairing -/

/-- The datagrams of a client that the network has. -/
def inNet [DecidableEq ι] (net : Multiset (Packet ι)) (c : ι) : ℕ := net.countP (·.client = c)

/-- The server is about to answer the client. -/
def ServerPc.serves [DecidableEq ι] : ServerPc ι → ι → ℕ
  | .send _ c', c => if c' = c then 1 else 0
  | _, _ => 0

/-- The datagrams of a client on their way, one that the server is about to send back included. -/
def inFlight [DecidableEq ι] (w : World ι) (c : ι) : ℕ := inNet w.net c + w.server.pc.serves c

/-- What a datagram about message `m` carries. -/
def Packet.About (k : Packet ι) (m : List Byte) : Prop :=
  k.data = if k.toServer then m else m.take buffSize

/-- What is known of client `c`. -/
structure Ok [DecidableEq ι] (S : Setup ι) (w : World ι) (c : ι) : Prop where
  one : inFlight w c ≤ 1
  none_at_send : ∀ i, (w.client c).pc = .send i → inFlight w c = 0
  net : ∀ k ∈ w.net, k.client = c → ∀ i, (w.client c).pc = .recv i →
    ∃ m, (S.messages c)[i]? = some m ∧ k.About m
  server : ∀ n, w.server.pc = .send n c → ∀ i, (w.client c).pc = .recv i →
    ∃ m, (S.messages c)[i]? = some m ∧ w.server.buffer.take n = m.take buffSize
  printed : ∀ x ∈ (w.client c).printed,
    ∃ m, (S.messages c)[x.1]? = some m ∧ x.2 = m.take buffSize

theorem recvfrom_take (buffer data : List Byte) :
    (recvfrom buffer data).1.take (recvfrom buffer data).2 = data.take buffSize :=
  take_overlay _ _

theorem inNet_cons [DecidableEq ι] (k : Packet ι) (net : Multiset (Packet ι)) (c : ι) :
    inNet (k ::ₘ net) c = inNet net c + if k.client = c then 1 else 0 := by
  unfold inNet
  exact Multiset.countP_cons _ k net

section Keep

variable [DecidableEq ι] {S : Setup ι} {w w' : World ι} {c : ι} {i : ℕ}

/-- A datagram leaves the network. -/
theorem inNet_le_inFlight {k : Packet ι} {rest : Multiset (Packet ι)} (hk : w.net = k ::ₘ rest)
    (d : ι) : inNet rest d + w.server.pc.serves d ≤ inFlight w d := by
  unfold inFlight
  rw [hk, inNet_cons]
  omega

/-- A step that leaves the client alone and puts nothing new on its way. -/
theorem Ok.of_le (h : Ok S w c) (hclient : w'.client c = w.client c)
    (hle : inFlight w' c ≤ inFlight w c)
    (hnet : ∀ k ∈ w'.net, k.client = c → k ∈ w.net ∨ ∀ i, (w.client c).pc = .recv i →
      ∃ m, (S.messages c)[i]? = some m ∧ k.About m)
    (hserver : ∀ n, w'.server.pc = .send n c → ∀ i, (w.client c).pc = .recv i →
      ∃ m, (S.messages c)[i]? = some m ∧ w'.server.buffer.take n = m.take buffSize) :
    Ok S w' c where
  one := hle.trans h.one
  none_at_send := by
    intro i hi
    rw [hclient] at hi
    exact Nat.le_zero.1 (hle.trans (h.none_at_send i hi).le)
  net := by
    intro k hk hc i hi
    rw [hclient] at hi
    rcases hnet k hk hc with hold | hnew
    · exact h.net k hold hc i hi
    · exact hnew i hi
  server := by
    intro n hn i hi
    rw [hclient] at hi
    exact hserver n hn i hi
  printed := by
    rw [hclient]
    exact h.printed

/-- Nothing of a client that has nothing on its way is in the network or in the server. -/
theorem not_mem_of_inFlight (h : inFlight w c = 0) :
    (∀ k ∈ w.net, k.client ≠ c) ∧ ∀ n, w.server.pc ≠ .send n c := by
  obtain ⟨hnet, hserver⟩ := Nat.add_eq_zero_iff.1 h
  constructor
  · intro k hk hc
    have hpos : 0 < inNet w.net c := Multiset.countP_pos.2 ⟨k, hk, hc⟩
    omega
  · intro n hn
    rw [hn] at hserver
    simp [ServerPc.serves] at hserver

/-- A client that does not wait for an answer. -/
theorem Ok.of_not_recv (hpc : ∀ i, (w.client c).pc ≠ .recv i) (hone : inFlight w c ≤ 1)
    (hsend : ∀ i, (w.client c).pc = .send i → inFlight w c = 0)
    (hprinted : ∀ x ∈ (w.client c).printed,
      ∃ m, (S.messages c)[x.1]? = some m ∧ x.2 = m.take buffSize) :
    Ok S w c where
  one := hone
  none_at_send := hsend
  net := fun _ _ _ i hi => absurd hi (hpc i)
  server := fun _ _ i hi => absurd hi (hpc i)
  printed := hprinted

theorem Ok.clientSend (h : Ok S w c) {m : List Byte} (hpc : (w.client c).pc = .send i)
    (hm : (S.messages c)[i]? = some m) :
    Ok S { w.setClient c { w.client c with pc := .recv i } with
      net := ⟨c, true, m⟩ ::ₘ w.net } c := by
  have hzero := h.none_at_send i hpc
  obtain ⟨hnet, hserver⟩ := not_mem_of_inFlight hzero
  refine ⟨?_, ?_, ?_, ?_, ?_⟩
  · show inNet (⟨c, true, m⟩ ::ₘ w.net) c + w.server.pc.serves c ≤ 1
    rw [inNet_cons, if_pos rfl]
    unfold inFlight at hzero
    omega
  · intro j hj
    simp only [World.setClient_self] at hj
    cases hj
  · intro k hk hc j hj
    simp only [World.setClient_self] at hj
    cases hj
    rcases Multiset.mem_cons.1 hk with rfl | hk
    · exact ⟨m, hm, rfl⟩
    · exact absurd hc (hnet k hk)
  · intro n hn
    exact absurd hn (hserver n)
  · simpa using h.printed

theorem Ok.clientRecv (h : Ok S w c) {data : List Byte} {rest : Multiset (Packet ι)}
    (hpc : (w.client c).pc = .recv i) (hk : w.net = ⟨c, false, data⟩ ::ₘ rest) :
    Ok S { w.setClient c ((w.client c).respond i (recvfrom (w.client c).buffer data)) with
      net := rest } c := by
  obtain ⟨m, hm, hdata⟩ := h.net ⟨c, false, data⟩ (by simp [hk]) rfl i hpc
  have hzero : inNet rest c + w.server.pc.serves c = 0 := by
    have hone := h.one
    unfold inFlight at hone
    rw [hk, inNet_cons, if_pos rfl] at hone
    omega
  refine Ok.of_not_recv ?_ (hzero.le.trans (Nat.zero_le 1)) (fun _ _ => hzero) ?_
  · intro j hj
    simp only [World.setClient_self] at hj
    cases hj
  · intro x hx
    simp only [World.setClient_self] at hx
    rcases List.mem_cons.1 hx with rfl | hx
    · refine ⟨m, hm, ?_⟩
      have hnz : 0 ∉ m.take buffSize := fun hz =>
        S.nonzero c m (List.mem_of_getElem? hm) (List.mem_of_mem_take hz)
      have hdata' : data = m.take buffSize := hdata
      show cstr ((recvfrom (w.client c).buffer data).1.take
        (recvfrom (w.client c).buffer data).2) = _
      rw [recvfrom_take, hdata', List.take_take, min_self]
      exact (cstr_eq_self_iff _).2 hnz
    · exact h.printed x hx

theorem Ok.clientQuit (h : Ok S w c) :
    Ok S (w.setClient c { w.client c with pc := .exited }) c := by
  refine Ok.of_not_recv ?_ h.one ?_ ?_
  · intro j hj
    simp only [World.setClient_self] at hj
    cases hj
  · intro j hj
    simp only [World.setClient_self] at hj
    cases hj
  · simpa using h.printed

theorem ok_step (h : ∀ d, Ok S w d) (hs : Step S w w') (d : ι) : Ok S w' d := by
  cases hs with
  | @clientSend c i m hpc hm =>
    by_cases hd : d = c
    · subst hd
      exact (h d).clientSend hpc hm
    · refine (h d).of_le (w.setClient_of_ne hd _) ?_ ?_ fun n hn i hi => (h d).server n hn i hi
      · show inNet (⟨c, true, m⟩ ::ₘ w.net) d + w.server.pc.serves d ≤ inFlight w d
        rw [inNet_cons, if_neg (Ne.symm hd)]
        exact le_rfl
      · intro k hk hkd
        rcases Multiset.mem_cons.1 hk with rfl | hk
        · exact absurd hkd.symm hd
        · exact Or.inl hk
  | @clientRecv c i data rest hpc hk =>
    by_cases hd : d = c
    · subst hd
      exact (h d).clientRecv hpc hk
    · refine (h d).of_le (w.setClient_of_ne hd _) (inNet_le_inFlight hk d) ?_
        fun n hn i hi => (h d).server n hn i hi
      intro k hrest _
      exact Or.inl (by rw [hk]; exact Multiset.mem_cons_of_mem hrest)
  | @clientQuit c =>
    by_cases hd : d = c
    · subst hd
      exact (h d).clientQuit
    · exact (h d).of_le (w.setClient_of_ne hd _) le_rfl (fun k hk _ => Or.inl hk)
        fun n hn i hi => (h d).server n hn i hi
  | @serverRecv c data rest hpc hk =>
    refine (h d).of_le rfl ?_ ?_ ?_
    · show inNet rest d + (if c = d then 1 else 0) ≤ inFlight w d
      unfold inFlight
      rw [hk, inNet_cons]
      exact Nat.le_add_right _ _
    · intro k hrest _
      exact Or.inl (by rw [hk]; exact Multiset.mem_cons_of_mem hrest)
    · intro n hn i hi
      cases hn
      obtain ⟨m, hm, hdata⟩ := (h d).net ⟨d, true, data⟩ (by simp [hk]) rfl i hi
      refine ⟨m, hm, ?_⟩
      rw [recvfrom_take, show data = m from hdata]
  | @serverSend c n hpc =>
    refine (h d).of_le rfl ?_ ?_ fun n hn => by cases hn
    · show inNet (⟨c, false, w.server.buffer.take n⟩ ::ₘ w.net) d + 0 ≤ inFlight w d
      unfold inFlight
      rw [inNet_cons, hpc]
      exact le_rfl
    · intro k hk hkd
      rcases Multiset.mem_cons.1 hk with rfl | hk
      · subst hkd
        exact Or.inr fun i hi => (h c).server n hpc i hi
      · exact Or.inl hk
  | serverQuit =>
    refine (h d).of_le rfl ?_ (fun k hk _ => Or.inl hk) fun n hn => by cases hn
    exact Nat.add_le_add_left (Nat.zero_le _) _
  | @drop k rest hk =>
    refine (h d).of_le rfl (inNet_le_inFlight hk d) ?_
      fun n hn i hi => (h d).server n hn i hi
    intro k' hrest _
    exact Or.inl (by rw [hk]; exact Multiset.mem_cons_of_mem hrest)

theorem ok_invariant : (system S).Invariant fun w => ∀ d, Ok S w d where
  init w h := by
    rw [h]
    intro d
    refine ⟨Nat.zero_le 1, fun _ _ => rfl, ?_, ?_, ?_⟩
    · intro k hk
      cases Multiset.notMem_zero k hk
    · intro n hn
      cases hn
    · intro x hx
      cases hx
  step w e w' h hs := ok_step h (next_cases hs)

/-- **Pairing**, in every run: a client prints for each message the first 64 bytes of this
message, and never has more than one datagram on its way. -/
theorem echo_pairing {tr : List (Event ι)} (h : (system S).Run tr w) (c : ι) :
    (∀ x ∈ (w.client c).printed,
      ∃ m, (S.messages c)[x.1]? = some m ∧ x.2 = m.take buffSize) ∧
      inFlight w c ≤ 1 :=
  ⟨(ok_invariant.run h c).printed, (ok_invariant.run h c).one⟩

end Keep

/-- Two clients with one message each. -/
def twoClients : Setup (Fin 2) where
  messages c := if c.val = 0 then [[104, 105]] else [[]]
  nonzero := by decide
  clientBuffer _ := []
  serverBuffer := []

/-- The request of client `c` overtakes that of client `d`. -/
def overtake (c d : Fin 2) : List (Event (Fin 2)) :=
  [.clientSend d true, .clientSend c true, .serverRecv c [104, 105], .serverSend true,
   .serverRecv d [], .serverSend true, .clientRecv c [104, 105]]

theorem echo_pairing_overtake :
    ∃ w, (system twoClients).Run (overtake 0 1) w ∧ (w.client 0).printed = [(0, [104, 105])] ∧
      ∀ c, (∀ x ∈ (w.client c).printed,
        ∃ m, (twoClients.messages c)[x.1]? = some m ∧ x.2 = m.take buffSize) ∧
        inFlight w c ≤ 1 := by
  obtain ⟨w, hw, hp⟩ := exists_run_of_exec (initial twoClients) (next twoClients)
    (overtake 0 1) (fun w => (w.client 0).printed = [(0, [104, 105])]) (by decide)
  exact ⟨w, hw, by simpa using hp, echo_pairing hw⟩

end LinuxDemo.UdpEcho
