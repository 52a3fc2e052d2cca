import Mathlib.Data.List.ReduceOption
import LinuxDemo.Lib.Buffer
import LinuxDemo.Socket.TcpServerDescriptors

/-!
# The addresses of `socket/internet_tcp/server.c`

`main` asks for the address of its socket (`getsockname`) and for those of its clients (`accept`),
and passes each of them to `getnameinfo`. The kernel stores as much of an address as the caller says
there is room for, and sets the length to what the whole address has.

`localAddr` is a `struct sockaddr` and `cltAddr` a `struct sockaddr_in`, both with room for an IPv4
address. The length given for `cltAddr` is that of a `struct sockaddr_storage`. `getaddrinfo` may
come up with IPv6 addresses, which are longer.

* `main`: the program, with what `getnameinfo` is asked to describe. It fails where an object is
  overrun.
* `described_iff`: every address is stored and described whole if and only if the first address that
  can be bound is an IPv4 address.
* `acceptLoop_inet6`: the loop alone overruns `cltAddr` as soon as an IPv6 client is accepted.
-/

namespace LinuxDemo.TcpServerAddresses

open TcpServerDescriptors (Attempt firstBound)

/-- `AF_INET`, `AF_INET6`. -/
inductive Family where
  | inet
  | inet6
  deriving DecidableEq

/-- `sizeof(struct sockaddr_in)`, `sizeof(struct sockaddr_in6)`. -/
def Family.size : Family → ℕ
  | .inet => 16
  | .inet6 => 28

/-- An address as the kernel has it. -/
structure Address where
  family : Family
  bytes : List Byte
  length_bytes : bytes.length = family.size

/-- `sizeof(struct sockaddr)`. -/
def sockaddrSize : ℕ := 16

/-- `sizeof(struct sockaddr_in)`. -/
def sockaddrInSize : ℕ := 16

/-- `sizeof(struct sockaddr_storage)`. -/
def sockaddrStorageSize : ℕ := 128

/-! ## The program -/

/-- An object with the given size, which holds what was in the memory before. -/
def object (size : ℕ) (memory : ℕ → Byte) : List Byte := (List.range size).map memory

/-- What `getsockname` and `accept` do to an object and the length given for it; `none` when more is
stored than the object has room for. -/
def storeAddress (object : List Byte) (addrLen : ℕ) (a : Address) : Option (List Byte × ℕ) :=
  let stored := a.bytes.take addrLen
  if stored.length ≤ object.length then some (overlay stored object, a.bytes.length) else none

/-- The bytes that `getnameinfo` describes; `none` when they are not all in the object. -/
def getnameinfo (object : List Byte) (addrLen : ℕ) : Option (List Byte) :=
  if addrLen ≤ object.length then some (object.take addrLen) else none

/-- The loop over `result`: the address that `lfd` is bound to. -/
def bindLoop : List (Address × Attempt) → Option Address
  | [] => none
  | (a, .succeeds) :: _ => some a
  | (_, .socketFails) :: rp => bindLoop rp
  | (_, .bindFails) :: rp => bindLoop rp

/-- The `for` loop over the results of `accept`, `none` for -1, with `cltAddr` and `addrLen`: the
addresses that are described. -/
def acceptLoop (cltAddr : List Byte) (addrLen : ℕ) :
    List (Option Address) → Option (List (List Byte))
  | [] => some []
  | none :: peers => acceptLoop cltAddr addrLen peers
  | some peer :: peers => do
    let (cltAddr, addrLen) ← storeAddress cltAddr addrLen peer
    let described ← getnameinfo cltAddr addrLen
    let rest ← acceptLoop cltAddr addrLen peers
    return described :: rest

/-- What is described in a run of `main`. -/
inductive Outcome where
  /-- `"couldn't bind socket to any address"`. -/
  | fatal
  | serves (localAddr : List Byte) (peers : List (List Byte))
  deriving DecidableEq

/-- `main` from the `bind` loop on. -/
def main (memory : ℕ → Byte) (result : List (Address × Attempt)) (peers : List (Option Address)) :
    Option Outcome :=
  match bindLoop result with
  | none => some .fatal
  | some a => do
    let (localAddr, addrLen1) ← storeAddress (object sockaddrSize memory) sockaddrSize a
    let described ← getnameinfo localAddr addrLen1
    let rest ← acceptLoop (object sockaddrInSize memory) sockaddrStorageSize peers
    return .serves described rest

/-- Nothing is overrun, and the described addresses are those of the socket and of its clients. -/
def Described (memory : ℕ → Byte) (result : List (Address × Attempt)) (a : Address)
    (peers : List (Option Address)) : Prop :=
  main memory result peers = some (.serves a.bytes (peers.reduceOption.map Address.bytes))

/-! ## Storing an address -/

/-- The address of the socket is the first one for which `socket` and `bind` succeed. -/
theorem bindLoop_eq_firstBound (result : List (Address × Attempt)) :
    bindLoop result = firstBound result := by
  induction result with
  | nil => rfl
  | cons x result ih =>
    obtain ⟨a, attempt⟩ := x
    cases attempt with
    | succeeds => rfl
    | socketFails => exact ih.trans (TcpServerDescriptors.firstBound_cons (by decide)).symm
    | bindFails => exact ih.trans (TcpServerDescriptors.firstBound_cons (by decide)).symm

@[simp] theorem length_object (size : ℕ) (memory : ℕ → Byte) :
    (object size memory).length = size := by
  simp [object]

theorem Address.length_of {a : Address} {f : Family} (h : a.family = f) :
    a.bytes.length = f.size := by
  rw [a.length_bytes, h]

section Store

variable {obj : List Byte} {addrLen : ℕ} {a : Address}

theorem storeAddress_eq (h : (a.bytes.take addrLen).length ≤ obj.length) :
    storeAddress obj addrLen a = some (overlay (a.bytes.take addrLen) obj, a.bytes.length) :=
  if_pos h

/-- An address that fits the object and the given length is stored whole. -/
theorem storeAddress_fits (hlen : a.bytes.length ≤ addrLen) (hobj : a.bytes.length ≤ obj.length) :
    storeAddress obj addrLen a = some (overlay a.bytes obj, a.bytes.length) := by
  have htake : a.bytes.take addrLen = a.bytes := List.take_of_length_le hlen
  rw [storeAddress_eq (by rwa [htake]), htake]

/-- And described whole. -/
theorem getnameinfo_overlay (hobj : a.bytes.length ≤ obj.length) :
    getnameinfo (overlay a.bytes obj) a.bytes.length = some a.bytes := by
  unfold getnameinfo
  rw [length_overlay hobj, if_pos hobj, take_overlay]

/-- An address that fits the given length but not the object overruns the object. -/
theorem storeAddress_overrun (hlen : a.bytes.length ≤ addrLen)
    (hobj : obj.length < a.bytes.length) :
    storeAddress obj addrLen a = none := by
  unfold storeAddress
  rw [List.take_of_length_le hlen]
  exact if_neg (not_le.2 hobj)

end Store

/-! ## The loop over the clients -/

/-- With IPv4 clients, `addrLen` is never less than what their addresses need. -/
theorem acceptLoop_inet {peers : List (Option Address)}
    (hpeers : ∀ peer ∈ peers.reduceOption, peer.family = .inet) {cltAddr : List Byte}
    (hclt : cltAddr.length = sockaddrInSize) {addrLen : ℕ} (hlen : sockaddrInSize ≤ addrLen) :
    acceptLoop cltAddr addrLen peers = some (peers.reduceOption.map Address.bytes) := by
  induction peers generalizing cltAddr addrLen with
  | nil => rfl
  | cons peer peers ih =>
    cases peer with
    | none => exact ih hpeers hclt hlen
    | some peer =>
      have hsize : peer.bytes.length = sockaddrInSize :=
        Address.length_of (hpeers peer (by simp))
      have hfits : peer.bytes.length ≤ cltAddr.length := hsize.le.trans hclt.ge
      have hrest := ih (fun q hq => hpeers q (by simp [hq]))
        ((length_overlay hfits).trans hclt) hsize.ge
      simp only [acceptLoop, storeAddress_fits (hsize.le.trans hlen) hfits,
        getnameinfo_overlay hfits, hrest, Option.bind_eq_bind, Option.bind_some]
      simp

/-- **`cltAddr` is overrun** by the first IPv6 client, whatever failed before. -/
theorem acceptLoop_inet6 {peer : Address} (hpeer : peer.family = .inet6) (failures : ℕ)
    (peers : List (Option Address)) (memory : ℕ → Byte) :
    acceptLoop (object sockaddrInSize memory) sockaddrStorageSize
      (List.replicate failures none ++ some peer :: peers) = none := by
  have hsize : peer.bytes.length = 28 := Address.length_of hpeer
  induction failures with
  | zero =>
    have hover : storeAddress (object sockaddrInSize memory) sockaddrStorageSize peer = none := by
      apply storeAddress_overrun
      · rw [hsize]
        decide
      · rw [hsize, length_object]
        decide
    simp [acceptLoop, hover]
  | succ failures ih => exact ih

/-! ## The whole program -/

/-- `getnameinfo` is given more than `localAddr` has, when that is the address of an IPv6 socket. -/
theorem main_inet6 {memory : ℕ → Byte} {result : List (Address × Attempt)} {a : Address}
    (ha : bindLoop result = some a) (hfamily : a.family = .inet6) (peers : List (Option Address)) :
    main memory result peers = none := by
  have hsize : a.bytes.length = 28 := Address.length_of hfamily
  have hstored : (a.bytes.take sockaddrSize).length = sockaddrSize := by
    rw [List.length_take, hsize]
    rfl
  have hobject := length_object sockaddrSize memory
  have hlocal : storeAddress (object sockaddrSize memory) sockaddrSize a =
      some (overlay (a.bytes.take sockaddrSize) (object sockaddrSize memory), 28) := by
    rw [storeAddress_eq (hstored.le.trans hobject.ge), hsize]
  have hname : getnameinfo
      (overlay (a.bytes.take sockaddrSize) (object sockaddrSize memory)) 28 = none := by
    unfold getnameinfo
    rw [length_overlay (hstored.le.trans hobject.ge), hobject]
    rfl
  simp [main, ha, hlocal, hname]

theorem main_inet {memory : ℕ → Byte} {result : List (Address × Attempt)} {a : Address}
    (ha : bindLoop result = some a) (hfamily : a.family = .inet) {peers : List (Option Address)}
    (hpeers : ∀ peer ∈ peers.reduceOption, peer.family = .inet) :
    Described memory result a peers := by
  have hsize : a.bytes.length = sockaddrSize := Address.length_of hfamily
  have hfits : a.bytes.length ≤ (object sockaddrSize memory).length := by
    rw [hsize, length_object]
  have hrest := acceptLoop_inet hpeers (length_object sockaddrInSize memory)
    (show sockaddrInSize ≤ sockaddrStorageSize by decide)
  simp only [Described, main, ha, storeAddress_fits hsize.le hfits, getnameinfo_overlay hfits,
    hrest, Option.bind_eq_bind, Option.bind_some]
  rfl

/-- **Every address is stored and described whole** if and only if the socket is bound to an IPv4
address. -/
theorem described_iff {memory : ℕ → Byte} {result : List (Address × Attempt)} {a : Address}
    (ha : bindLoop result = some a) {peers : List (Option Address)}
    (hpeers : ∀ peer ∈ peers.reduceOption, peer.family = a.family) :
    Described memory result a peers ↔ a.family = .inet := by
  constructor
  · intro h
    cases hfamily : a.family with
    | inet => rfl
    | inet6 =>
      unfold Described at h
      rw [main_inet6 ha hfamily] at h
      cases h
  · intro hfamily
    exact main_inet ha hfamily fun peer hpeer => (hpeers peer hpeer).trans hfamily

/-- 0.0.0.0, port 5000. -/
def anyAddress : Address := ⟨.inet, [2, 0, 19, 136] ++ List.replicate 12 0, rfl⟩

/-- ::, port 5000. -/
def anyAddress6 : Address := ⟨.inet6, [10, 0, 19, 136] ++ List.replicate 24 0, rfl⟩

theorem described_iff_anyAddress :
    Described (fun _ => 7) [(anyAddress6, .socketFails), (anyAddress, .succeeds)] anyAddress
      [some anyAddress, none, some anyAddress] :=
  (described_iff rfl (by simp [anyAddress])).2 rfl

/-- **An IPv6 socket**: `getnameinfo` is told that `localAddr` has 28 bytes, and the address of a
client overruns `cltAddr`. -/
theorem not_described :
    (¬∀ (memory : ℕ → Byte) (result : List (Address × Attempt)) (a : Address)
      (peers : List (Option Address)), bindLoop result = some a →
      (∀ peer ∈ peers.reduceOption, peer.family = a.family) → Described memory result a peers) ∧
    acceptLoop (object sockaddrInSize fun _ => 0) sockaddrStorageSize [some anyAddress6] =
      none := by
  refine ⟨fun h => ?_, acceptLoop_inet6 rfl 0 [] _⟩
  have hmain := h (fun _ => 0) [(anyAddress6, .succeeds)] anyAddress6 [] rfl (by simp)
  unfold Described at hmain
  rw [main_inet6 rfl rfl] at hmain
  cases hmain

end LinuxDemo.TcpServerAddresses
