import LinuxDemo.Lib.Buffer

/-!
# The datagram server of `socket/unix_domain_udp/server.c`

The server sends every datagram back to the address `recvfrom` has stored in `cltAddr`.
`socketSize` is passed to `recvfrom` by reference: it says how many bytes of the address may be
stored and is overwritten with the length the address has. It is set once, before the loop, so
each address is cut to the length of the one before, and the rest of `cltAddr` is what earlier
datagrams left there.

* `loop_data`: every datagram is answered with its own bytes.
* `reply_to_sender_iff`: every answer goes back to its sender exactly when no address is cut, or
  what is cut off happens to be in `cltAddr` already (`Covered`).
* `covered_of_shrinking`: so it is when no name is longer than the one before.
-/

namespace LinuxDemo.UnixDatagram

/-- `g_buffSize`. -/
def gBuffSize : ℕ := 64

/-- `sizeof(svrAddr.sun_path)`. -/
def sunPathSize : ℕ := 108

/-- `sizeof(struct sockaddr_un)`: the family and `sun_path`. -/
def sockaddrUnSize : ℕ := 2 + sunPathSize

/-- A path name that fits `sun_path` with its terminating zero. -/
structure Name where
  path : List Byte
  zeroFree : 0 ∉ path
  fits : path.length < sunPathSize

/-- The address of a socket bound to a name: `AF_UNIX`, the path, and a zero. -/
def Name.address (a : Name) : List Byte := [1, 0] ++ (a.path ++ [0])

theorem Name.length_address (a : Name) : a.address.length = a.path.length + 3 := by
  simp [Name.address]

structure Datagram where
  source : Name
  payload : List Byte
  /-- Whether the `sendto` that answers it returns `recvSiz`. -/
  answered : Bool

/-- What `recvfrom` gives. -/
inductive Recv where
  /-- `-1`. -/
  | error
  | datagram (d : Datagram)

/-- The variables of the loop. -/
structure Locals where
  cltAddr : List Byte
  socketSize : ℕ
  buff : List Byte
  recvSiz : ℕ

/-- `recvfrom(sfd, buff, g_buffSize, 0, &cltAddr, &socketSize)` when `d` arrives: at most
`socketSize` bytes of its address are stored, and then `socketSize` is the length it has. -/
def recvfrom (l : Locals) (d : Datagram) : Locals where
  cltAddr := overlay (d.source.address.take l.socketSize) l.cltAddr
  socketSize := d.source.address.length
  buff := overlay (d.payload.take gBuffSize) l.buff
  recvSiz := (d.payload.take gBuffSize).length

/-- What is passed to `sendto`. -/
structure Reply where
  address : List Byte
  data : List Byte
  deriving DecidableEq

/-- `sendto(sfd, buff, recvSiz, 0, &cltAddr, socketSize)`. -/
def sendto (l : Locals) : Reply where
  address := l.cltAddr.take l.socketSize
  data := l.buff.take l.recvSiz

/-- The path an address is read as, up to its first zero. -/
def Reply.path (r : Reply) : List Byte := cstr (r.address.drop 2)

/-- The loop over the results of `recvfrom`; it ends in `fatalError` when `recvfrom` fails or a
reply is not sent whole. -/
def loop (l : Locals) : List Recv → List Reply
  | [] => []
  | .error :: _ => []
  | .datagram d :: rs =>
    sendto (recvfrom l d) :: if d.answered then loop (recvfrom l d) rs else []

/-- Before the loop; nothing is known of what `cltAddr` and `buff` hold. -/
def start (cltAddr buff : List Byte) : Locals where
  cltAddr := cltAddr
  socketSize := sockaddrUnSize
  buff := buff
  recvSiz := 0

/-- The datagrams the loop receives before it ends. -/
def received : List Recv → List Datagram
  | [] => []
  | .error :: _ => []
  | .datagram d :: rs => d :: if d.answered then received rs else []

/-! ## What is sent -/

/-- **Every answer carries the bytes of its datagram**, cut to 64. -/
theorem loop_data (l : Locals) (rs : List Recv) :
    (loop l rs).map Reply.data = (received rs).map fun d => d.payload.take gBuffSize := by
  induction rs generalizing l with
  | nil => rfl
  | cons r rs ih =>
    cases r with
    | error => rfl
    | datagram d =>
      have hdata : (sendto (recvfrom l d)).data = d.payload.take gBuffSize := take_overlay _ _
      rw [loop, received, List.map_cons, List.map_cons, hdata]
      by_cases hd : d.answered
      · rw [if_pos hd, if_pos hd, ih]
      · rw [if_neg hd, if_neg hd]
        rfl

/-! ## Where it is sent -/

/-- `mem` is what whole addresses have left in `cltAddr`, `size` the length of the last one: each
address ends within that length, or continues in `mem` as it has to. -/
def Covered (mem : List Byte) (size : ℕ) : List Name → Prop
  | [] => True
  | a :: as =>
    (mem.take a.address.length).drop size = a.address.drop size ∧
      Covered (overlay a.address mem) a.address.length as

instance decidableCovered : (mem : List Byte) → (size : ℕ) → (as : List Name) →
    Decidable (Covered mem size as)
  | _, _, [] => isTrue trivial
  | mem, _, a :: as =>
    have := decidableCovered (overlay a.address mem) a.address.length as
    inferInstanceAs (Decidable (_ ∧ _))

theorem Name.length_address_le (a : Name) : a.address.length ≤ sockaddrUnSize := by
  have := a.fits
  rw [a.length_address, sockaddrUnSize]
  omega

/-- Nothing is cut off when no name is longer than one before it. -/
theorem covered_of_shrinking {mem : List Byte} {size : ℕ} {as : List Name}
    (hfirst : ∀ a ∈ as, a.address.length ≤ size)
    (h : as.Pairwise fun a b => b.path.length ≤ a.path.length) : Covered mem size as := by
  induction as generalizing mem size with
  | nil => trivial
  | cons a as ih =>
    have hsize : a.address.length ≤ size := hfirst a List.mem_cons_self
    obtain ⟨hle, htail⟩ := List.pairwise_cons.mp h
    refine ⟨?_, ih ?_ htail⟩
    · rw [List.drop_eq_nil_of_le ((List.length_take_le _ _).trans hsize),
        List.drop_eq_nil_of_le hsize]
    · intro b hb
      have := hle b hb
      rw [a.length_address, b.length_address]
      omega

section OneReply

variable {l : Locals} {d : Datagram} (hlen : l.cltAddr.length = sockaddrUnSize)

/-- The address of an answer: what `recvfrom` has stored, then what it found. -/
theorem reply_address :
    (sendto (recvfrom l d)).address = d.source.address.take l.socketSize ++
      (l.cltAddr.take d.source.address.length).drop l.socketSize :=
  take_overlay_take _ _ _

include hlen

theorem length_cltAddr : (recvfrom l d).cltAddr.length = sockaddrUnSize := by
  have hle := d.source.length_address_le
  have htake : (d.source.address.take l.socketSize).length ≤ l.cltAddr.length := by
    rw [List.length_take, hlen]
    omega
  exact (length_overlay htake).trans hlen

theorem length_reply_address :
    (sendto (recvfrom l d)).address.length = d.source.address.length := by
  show ((recvfrom l d).cltAddr.take d.source.address.length).length = _
  rw [List.length_take, length_cltAddr hlen]
  exact min_eq_left d.source.length_address_le

variable (hsize : 2 ≤ l.socketSize)
include hsize

/-- The path of an answer is right only if its whole address is. -/
theorem reply_path_eq_iff :
    (sendto (recvfrom l d)).path = d.source.path ↔
      (sendto (recvfrom l d)).address = d.source.address := by
  have hfamily : (sendto (recvfrom l d)).address.take 2 = [1, 0] := by
    rw [reply_address, List.take_append_of_le_length, List.take_take, min_eq_left hsize]
    · rfl
    · rw [List.length_take, d.source.length_address]
      omega
  have hpath : (sendto (recvfrom l d)).address =
      [1, 0] ++ (sendto (recvfrom l d)).address.drop 2 := by
    rw [← hfamily, List.take_append_drop]
  have hrest : ((sendto (recvfrom l d)).address.drop 2).length = d.source.path.length + 1 := by
    rw [List.length_drop, length_reply_address hlen, d.source.length_address]
    omega
  rw [Reply.path, cstr_eq_iff d.source.zeroFree hrest]
  constructor
  · intro h
    rw [hpath, h]
    rfl
  · intro h
    rw [h]
    rfl

/-- One answer goes back to its sender exactly when the part of the address that was cut off is in
`cltAddr`. -/
theorem reply_path_iff :
    (sendto (recvfrom l d)).path = d.source.path ↔
      (l.cltAddr.take d.source.address.length).drop l.socketSize =
        d.source.address.drop l.socketSize := by
  rw [reply_path_eq_iff hlen hsize, reply_address]
  constructor
  · intro h
    exact List.append_cancel_left (h.trans (List.take_append_drop _ _).symm)
  · intro h
    rw [h, List.take_append_drop]

end OneReply

/-- The loop from any of its states. Once an address has been stored right, `cltAddr` is as if it
had not been cut. -/
theorem loop_path_iff {l : Locals} (hlen : l.cltAddr.length = sockaddrUnSize)
    (hsize : 2 ≤ l.socketSize) (rs : List Recv) :
    (loop l rs).map Reply.path = (received rs).map (fun d => d.source.path) ↔
      Covered l.cltAddr l.socketSize ((received rs).map Datagram.source) := by
  induction rs generalizing l with
  | nil => simp [loop, received, Covered]
  | cons r rs ih =>
    cases r with
    | error => simp [loop, received, Covered]
    | datagram d =>
      rw [loop, received, List.map_cons, List.map_cons, List.map_cons, List.cons_eq_cons,
        reply_path_iff hlen hsize, Covered]
      apply and_congr_right
      intro hcov
      by_cases hd : d.answered
      · have hmem : (recvfrom l d).cltAddr = overlay d.source.address l.cltAddr :=
          overlay_take_eq hcov
        have hsize' : 2 ≤ (recvfrom l d).socketSize := by
          show 2 ≤ d.source.address.length
          rw [d.source.length_address]
          omega
        rw [if_pos hd, if_pos hd, ih (length_cltAddr hlen) hsize', hmem]
        rfl
      · simp [hd, Covered]

/-- **Where the answers go.** For every content of `cltAddr` and every sequence of datagrams, all
answers go back to their senders if and only if every address is covered. -/
theorem reply_to_sender_iff {cltAddr buff : List Byte} (hlen : cltAddr.length = sockaddrUnSize)
    (rs : List Recv) :
    (loop (start cltAddr buff) rs).map Reply.path = (received rs).map (fun d => d.source.path) ↔
      Covered cltAddr sockaddrUnSize ((received rs).map Datagram.source) :=
  loop_path_iff hlen (show 2 ≤ sockaddrUnSize by decide) rs

/-- `"/tmp/ud_cl.99"`, as `client.c` names its socket. -/
def shortName : Name where
  path := [47, 116, 109, 112, 47, 117, 100, 95, 99, 108, 46, 57, 57]
  zeroFree := by decide
  fits := by decide

/-- `"/tmp/ud_cl.1000"`. -/
def longName : Name where
  path := [47, 116, 109, 112, 47, 117, 100, 95, 99, 108, 46, 49, 48, 48, 48]
  zeroFree := by decide
  fits := by decide

/-- A datagram `"hi"` that is answered. -/
def hiFrom (a : Name) : Recv := .datagram ⟨a, [104, 105], true⟩

/-- The long name comes first, the short one next, and the long one finds its end still there. -/
theorem reply_to_sender_longShortLong :
    (loop (start (List.replicate 110 7) (List.replicate 64 7))
        [hiFrom longName, hiFrom shortName, hiFrom longName]).map Reply.path =
      [longName.path, shortName.path, longName.path] :=
  (reply_to_sender_iff (by decide) [hiFrom longName, hiFrom shortName, hiFrom longName]).mpr
    (by decide)

/-- The server answers `"/tmp/ud_cl.1000"`, after `"/tmp/ud_cl.99"`, at `"/tmp/ud_cl.100"`. -/
theorem reply_astray_shortLong :
    (loop (start (List.replicate 110 0) (List.replicate 64 0))
        [hiFrom shortName, hiFrom longName]).map Reply.path =
        [shortName.path, [47, 116, 109, 112, 47, 117, 100, 95, 99, 108, 46, 49, 48, 48]] ∧
      (received [hiFrom shortName, hiFrom longName]).map (fun d => d.source.path) =
        [shortName.path, longName.path] ∧
      [47, 116, 109, 112, 47, 117, 100, 95, 99, 108, 46, 49, 48, 48] ≠ longName.path := by
  decide

end LinuxDemo.UnixDatagram
