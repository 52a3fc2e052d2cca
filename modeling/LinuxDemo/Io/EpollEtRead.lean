import LinuxDemo.Io.EventLoops
import LinuxDemo.Lib.Buffer
import LinuxDemo.Lib.Fifo

/-!
# The edge-triggered reader and its FIFO

`io/epoll/et-read` registers a FIFO with `EPOLLET` and reads one byte for each event. The loop is
the one of `EventLoops`; here it runs against the kernel: other processes write to the FIFO, which
holds at most `capacity` bytes, and `epoll_wait` reports it once after a wake-up, however many there
were. Only this program reads.

**Writes.** A `write` of at most `PIPE_BUF` bytes is atomic and wakes `epoll_wait` up once. One of
more bytes goes in by portions and can be cut short by a signal; the kernel may wake up after every
portion and at the return. It may also do so without any bytes, for a `write` that fails because of
a signal or a full FIFO, or when a process closes the FIFO.

* `reads_prefix`: the program reads what was written, in order, at most one byte for each wake-up. A
  `read` always finds its byte, so that every terminator is stored in the buffer.
* `asleep`: with nothing to report, nothing more is read until there is a wake-up.
* `writes_bounded`: writers of two bytes or more, up to `PIPE_BUF`, fill the FIFO, and then all wait
  until there is a wake-up without bytes.
-/

namespace LinuxDemo.EpollEtRead

open Lts EventLoops

/-- `PIPE_BUF` of Linux. -/
def pipeBuf : ℕ := 4096

/-- The program and the FIFO, with any writers `ι`. -/
structure World (ι : Type*) where
  loop : EventLoops.State
  fifo : Fifo Byte
  /-- `epoll_ctl` was called. -/
  registered : Bool
  /-- There was a wake-up since the FIFO was last reported. -/
  edge : Bool
  /-- What the program has read. -/
  received : List Byte
  /-- What is left of the writes of more than `PIPE_BUF` bytes. -/
  pending : ι → Option (List Byte)

inductive Event (ι : Type*) where
  /-- `epoll_ctl`. -/
  | register
  /-- Some process writes at most `PIPE_BUF` bytes. -/
  | write (bs : List Byte)
  /-- Process `p` calls `write` with more. -/
  | begin (p : ι) (bs : List Byte)
  /-- A portion of these goes into the FIFO. -/
  | put (p : ι) (bs : List Byte) (wakes : Bool)
  /-- The `write` of process `p` returns, perhaps with a smaller number, after a signal. -/
  | finish (p : ι) (wakes : Bool)
  /-- A wake-up that brings no bytes: a `write` has failed, or a process has closed the FIFO. -/
  | wake
  | wait (ret : Wait)
  /-- `read(fd, buffer, 1)`. -/
  | read
  deriving DecidableEq

variable {ι : Type*}

section Model

variable (fd : ℤ) (capacity : ℕ)

/-- The descriptors that the loop is given; `et-read` closes one only when it has hung up. -/
def setup : Setup := ⟨(fd, -1), -1⟩

/-- The FIFO in the list of events. The program has it open for writing too, so it does not hang
up. -/
def readable : Entry := ⟨fd, true, false⟩

/-- Before `epoll_ctl`. The FIFO was opened with `O_RDWR`. -/
def initial : World ι :=
  ⟨start .epollEtRead (setup fd), Fifo.unused.openRead.openWrite, false, false, [], fun _ => none⟩

/-- What `epoll_wait` may return. It does not report a FIFO that is empty. -/
def reports (w : World ι) : Wait → Bool
  | .failed _ => true
  | .timeout => !w.edge || w.fifo.data.isEmpty
  | .ready found => w.edge && !w.fifo.data.isEmpty && found = [readable fd]

variable [DecidableEq ι]

def next (w : World ι) : Event ι → Option (World ι)
  | .register =>
    -- A FIFO that has data already is reported once.
    if w.registered then none else some { w with registered := true, edge := !w.fifo.data.isEmpty }
  | .write bs =>
    if bs = [] ∨ pipeBuf < bs.length then none
    else (w.fifo.write capacity bs).map fun fifo => { w with fifo := fifo, edge := true }
  | .begin p bs =>
    if w.pending p = none ∧ pipeBuf < bs.length then
      some { w with pending := Function.update w.pending p (some bs) }
    else none
  | .put p bs wakes =>
    (w.pending p).bind fun rest =>
      -- The kernel wakes up at least when the FIFO was empty.
      if bs ≠ [] ∧ bs <+: rest ∧ (w.fifo.data = [] → wakes = true) then
        (w.fifo.write capacity bs).map fun fifo =>
          { w with
            fifo := fifo, edge := w.edge || wakes
            pending := Function.update w.pending p (some (rest.drop bs.length)) }
      else none
  | .finish p wakes =>
    if w.pending p = none then none
    else
      some { w with edge := w.edge || wakes, pending := Function.update w.pending p none }
  | .wake => some { w with edge := true }
  | .wait ret =>
    if w.registered && reports fd w ret then
      (EventLoops.next .epollEtRead (setup fd) w.loop (.wait ret)).map fun loop =>
        { w with loop := loop, edge := w.edge && ret != .ready [readable fd] }
    else none
  | .read =>
    match w.fifo.data with
    | [] =>
      (EventLoops.next .epollEtRead (setup fd) w.loop (.read .failed)).map fun loop =>
        { w with loop := loop }
    | b :: data =>
      (EventLoops.next .epollEtRead (setup fd) w.loop (.read (.size 1))).map fun loop =>
        { w with loop := loop, fifo := { w.fifo with data := data }, received := w.received ++ [b] }

def system (ι : Type*) [DecidableEq ι] : Lts (World ι) (Event ι) :=
  ofNext (initial fd) (next fd capacity)

end Model

/-! ## The history of the FIFO -/

namespace Event

/-- The bytes that go into the FIFO. -/
def bytes : Event ι → List Byte
  | write bs | put _ bs _ => bs
  | _ => []

/-- The step wakes `epoll_wait` up. -/
def wakes : Event ι → Bool
  | write _ | wake => true
  | put _ _ b | finish _ b => b
  | _ => false

/-- The step belongs to a write of more than `PIPE_BUF` bytes. -/
def beyond : Event ι → Bool
  | begin _ _ | put _ _ _ | finish _ _ => true
  | _ => false

def isWrite : Event ι → Bool
  | write _ => true
  | _ => false

def isWake : Event ι → Bool
  | wake => true
  | _ => false

theorem wakes_of_not_beyond {e : Event ι} (h : e.beyond = false) :
    e.wakes.toNat = e.isWrite.toNat + e.isWake.toNat := by
  cases e with
  | begin | put | finish => cases h
  | _ => rfl

end Event

/-- What has gone into the FIFO, in order. -/
def written (tr : List (Event ι)) : List Byte := tr.flatMap Event.bytes

def wakeups (tr : List (Event ι)) : ℕ := tr.countP Event.wakes

def writes (tr : List (Event ι)) : ℕ := tr.countP Event.isWrite

/-- The wake-ups without bytes, apart from those at the return of a long `write`. -/
def extraWakeups (tr : List (Event ι)) : ℕ := tr.countP Event.isWake

theorem written_snoc (tr : List (Event ι)) (e : Event ι) :
    written (tr ++ [e]) = written tr ++ e.bytes := by
  simp only [written, List.flatMap_append, List.flatMap_cons, List.flatMap_nil, List.append_nil]

theorem countP_cons_toNat (f : Event ι → Bool) (e : Event ι) (tr : List (Event ι)) :
    (e :: tr).countP f = tr.countP f + (f e).toNat := by
  rw [List.countP_cons]
  cases f e <;> rfl

/-- Without writes of more than `PIPE_BUF` bytes. -/
theorem wakeups_eq {tr : List (Event ι)} (h : ∀ e ∈ tr, e.beyond = false) :
    wakeups tr = writes tr + extraWakeups tr := by
  induction tr with
  | nil => rfl
  | cons e tr ih =>
    rw [List.forall_mem_cons] at h
    have hrest := ih h.2
    have hone := Event.wakes_of_not_beyond h.1
    unfold wakeups writes extraWakeups at hrest ⊢
    rw [countP_cons_toNat, countP_cons_toNat, countP_cons_toNat]
    omega

theorem wakeups_snoc (tr : List (Event ι)) (e : Event ι) :
    wakeups (tr ++ [e]) = wakeups tr + e.wakes.toNat := by
  unfold wakeups
  rw [List.countP_append, List.countP_singleton]
  cases e.wakes <;> rfl

/-! ## What a step does -/

section Step

variable {fd : ℤ} {capacity : ℕ}

/-- The loop waits again, or has the FIFO to read. -/
theorem loop_wait {s s' : EventLoops.State} {ret : Wait} (hs : s.pc = .wait)
    (h : EventLoops.next .epollEtRead (setup fd) s (.wait ret) = some s')
    (hret : ∀ found, ret = .ready found → found = [readable fd]) :
    s'.stored = s.stored ∧
      (ret ≠ .ready [readable fd] ∧ s'.pc = .wait ∨
        ret = .ready [readable fd] ∧ s'.pc = .visit [readable fd]) := by
  unfold EventLoops.next at h
  rw [hs] at h
  refine ⟨switch_stored _ _ h, ?_⟩
  cases ret with
  | failed eintr =>
    cases h
    refine Or.inl ⟨by simp, ?_⟩
    cases eintr <;> rfl
  | timeout =>
    cases h
    exact Or.inl ⟨by simp, rfl⟩
  | ready found =>
    cases hret found rfl
    cases h
    exact Or.inr ⟨rfl, rfl⟩

theorem loop_read {s s' : EventLoops.State} {n : ℕ} (hs : s.pc = .visit [readable fd])
    (h : EventLoops.next .epollEtRead (setup fd) s (.read (.size n)) = some s') :
    s'.stored = s.stored ++ [(n : ℤ)] ∧ s'.pc = .wait := by
  unfold EventLoops.next at h
  rw [hs] at h
  simp only [readable, if_true, ReadResult.readSize] at h
  split_ifs at h
  · cases h
    exact ⟨rfl, rfl⟩
  · cases h

theorem fifo_write {f f' : Fifo Byte} {bs : List Byte} (h : f.write capacity bs = some f') :
    f'.data = f.data ++ bs ∧ f'.data.length ≤ capacity := by
  unfold Fifo.write at h
  split_ifs at h with hroom
  cases h
  exact ⟨rfl, by rwa [List.length_append]⟩

end Step

/-! ## The invariant -/

/-- The reads that are due: one for an edge, and one while the event is handled. -/
def World.due (w : World ι) : ℕ := w.edge.toNat + if w.loop.pc = .wait then 0 else 1

structure Inv (fd : ℤ) (capacity : ℕ) (tr : List (Event ι)) (w : World ι) : Prop where
  stream : w.received ++ w.fifo.data = written tr
  stored : w.loop.stored = List.replicate w.received.length 1
  room : w.fifo.data.length ≤ capacity
  reads_le : w.received.length + w.due ≤ wakeups tr
  /-- A read that is due finds a byte. -/
  pc : w.loop.pc = .wait ∨ w.loop.pc = .visit [readable fd] ∧ w.fifo.data ≠ []
  unregistered : w.registered = false → w.loop.pc = .wait ∧ (w.fifo.data ≠ [] → w.edge = true)

section Run

variable {fd : ℤ} {capacity : ℕ}

theorem inv_initial : Inv fd capacity [] (initial fd : World ι) :=
  ⟨rfl, rfl, Nat.zero_le _, le_rfl, Or.inl rfl, fun _ => ⟨rfl, fun h => absurd rfl h⟩⟩

/-- Bytes go into the FIFO, or none, and the step may wake up. -/
theorem Inv.put {tr : List (Event ι)} {w : World ι} {e : Event ι} {fifo : Fifo Byte} {edge : Bool}
    {pending : ι → Option (List Byte)} (h : Inv fd capacity tr w)
    (hdata : fifo.data = w.fifo.data ++ e.bytes) (hroom : fifo.data.length ≤ capacity)
    (hedge : edge = (w.edge || e.wakes))
    (hwakes : w.fifo.data = [] → e.bytes ≠ [] → e.wakes = true) :
    Inv fd capacity (tr ++ [e]) { w with fifo, edge, pending } := by
  have hreads := h.reads_le
  unfold World.due at hreads
  have hle : edge.toNat ≤ w.edge.toNat + e.wakes.toNat := by
    rw [hedge]
    cases w.edge <;> cases e.wakes <;> decide
  refine ⟨?_, h.stored, hroom, ?_, ?_, fun hreg => ⟨(h.unregistered hreg).1, fun hne => ?_⟩⟩
  · show w.received ++ fifo.data = _
    rw [hdata, ← List.append_assoc, h.stream, written_snoc]
  · rw [wakeups_snoc]
    unfold World.due
    dsimp only
    omega
  · refine h.pc.imp id fun hvisit => ⟨hvisit.1, fun hnil => hvisit.2 ?_⟩
    exact (List.append_eq_nil_iff.1 (hdata.symm.trans hnil)).1
  · show edge = true
    by_cases hold : w.fifo.data = []
    · rw [hedge, hwakes hold fun hnil => hne (by rw [hdata, hold, hnil]; rfl), Bool.or_true]
    · rw [hedge, (h.unregistered hreg).2 hold, Bool.true_or]

theorem inv_register {tr : List (Event ι)} {w : World ι} (h : Inv fd capacity tr w)
    (hreg : w.registered = false) :
    Inv fd capacity (tr ++ [.register])
      { w with registered := true, edge := !w.fifo.data.isEmpty } := by
  obtain ⟨hpc, hedge⟩ := h.unregistered hreg
  have hreads := h.reads_le
  have hle : (!w.fifo.data.isEmpty).toNat ≤ w.edge.toNat := by
    cases hdata : w.fifo.data with
    | nil => exact Nat.zero_le _
    | cons b data =>
      rw [hedge (by simp [hdata])]
      exact le_rfl
  simp only [World.due, hpc, if_true] at hreads
  refine ⟨?_, h.stored, h.room, ?_, h.pc, fun hfalse => by cases hfalse⟩
  · rw [h.stream, written_snoc]
    exact (List.append_nil _).symm
  · rw [wakeups_snoc]
    simp only [World.due, hpc, if_true]
    omega

variable [DecidableEq ι]

theorem inv_wait {tr : List (Event ι)} {w w' : World ι} {ret : Wait} (h : Inv fd capacity tr w)
    (hs : next fd capacity w (.wait ret) = some w') : Inv fd capacity (tr ++ [.wait ret]) w' := by
  simp only [next] at hs
  split_ifs at hs with hguard
  obtain ⟨loop, hloop, rfl⟩ := Option.map_eq_some_iff.1 hs
  rw [Bool.and_eq_true] at hguard
  obtain ⟨hreg, hreports⟩ := hguard
  have hpc : w.loop.pc = .wait := by
    rcases h.pc with hpc | ⟨hpc, -⟩
    · exact hpc
    · unfold EventLoops.next at hloop
      rw [hpc] at hloop
      cases hloop
  have hfound : ∀ found, ret = .ready found → found = [readable fd] := by
    rintro found rfl
    simp only [reports, Bool.and_eq_true, decide_eq_true_eq] at hreports
    exact hreports.2
  obtain ⟨hstored, hcase⟩ := loop_wait hpc hloop hfound
  have hreads := h.reads_le
  unfold World.due at hreads
  rw [if_pos hpc] at hreads
  refine ⟨?_, hstored.trans h.stored, h.room, ?_, ?_, fun hfalse => ?_⟩
  · rw [written_snoc]
    exact h.stream.trans (List.append_nil _).symm
  · -- What is due stays the same: an edge that is reported becomes the event that is handled.
    have hsame : World.due { w with loop := loop, edge := w.edge && ret != .ready [readable fd] } =
        w.edge.toNat := by
      unfold World.due
      rcases hcase with ⟨hret, hpc'⟩ | ⟨rfl, hpc'⟩
      · simp only [hpc', if_true, bne_iff_ne.2 hret, Bool.and_true, Nat.add_zero]
      · simp only [reports, Bool.and_eq_true] at hreports
        simp [hpc', hreports.1.1]
    rw [hsame, wakeups_snoc]
    exact hreads
  · rcases hcase with ⟨-, hpc'⟩ | ⟨rfl, hpc'⟩
    · exact Or.inl hpc'
    · simp only [reports, Bool.and_eq_true, Bool.not_eq_true', List.isEmpty_eq_false_iff] at hreports
      exact Or.inr ⟨hpc', hreports.1.2⟩
  · rw [hreg] at hfalse
    cases hfalse

/-- An event was reported, so there is a byte. -/
theorem inv_read {tr : List (Event ι)} {w w' : World ι} (h : Inv fd capacity tr w)
    (hs : next fd capacity w .read = some w') : Inv fd capacity (tr ++ [.read]) w' := by
  obtain ⟨hpc, hne⟩ : w.loop.pc = .visit [readable fd] ∧ w.fifo.data ≠ [] := by
    rcases h.pc with hpc | hvisit
    · simp only [next, EventLoops.next, hpc] at hs
      split at hs <;> cases hs
    · exact hvisit
  have hwait : w.loop.pc ≠ .wait := by
    rw [hpc]
    simp
  have hreads := h.reads_le
  unfold World.due at hreads
  rw [if_neg hwait] at hreads
  simp only [next] at hs
  split at hs
  case h_1 hdata => exact absurd hdata hne
  case h_2 b data hdata =>
    obtain ⟨loop, hloop, rfl⟩ := Option.map_eq_some_iff.1 hs
    obtain ⟨hstored, hpc'⟩ := loop_read hpc hloop
    have hroom := h.room
    rw [hdata, List.length_cons] at hroom
    refine ⟨?_, ?_, ?_, ?_, Or.inl hpc', fun hreg => absurd (h.unregistered hreg).1 hwait⟩
    · show w.received ++ [b] ++ data = _
      rw [List.append_assoc, List.singleton_append, ← hdata, h.stream, written_snoc]
      exact (List.append_nil _).symm
    · rw [hstored, h.stored, List.length_append, List.length_singleton, List.replicate_succ']
      rfl
    · show data.length ≤ capacity
      omega
    · rw [wakeups_snoc]
      simp only [World.due, hpc', if_true, List.length_append, List.length_singleton]
      omega

theorem inv_step {tr : List (Event ι)} {w w' : World ι} {e : Event ι} (h : Inv fd capacity tr w)
    (hs : next fd capacity w e = some w') : Inv fd capacity (tr ++ [e]) w' := by
  cases e with
  | register =>
    simp only [next] at hs
    split_ifs at hs with hreg
    cases hs
    exact inv_register h (by simpa using hreg)
  | write bs =>
    simp only [next] at hs
    split_ifs at hs
    obtain ⟨fifo, hfifo, rfl⟩ := Option.map_eq_some_iff.1 hs
    obtain ⟨hdata, hroom⟩ := fifo_write hfifo
    exact h.put hdata hroom (Bool.or_true _).symm fun _ _ => rfl
  | begin p bs =>
    simp only [next] at hs
    split_ifs at hs
    cases hs
    exact h.put (e := .begin p bs) (List.append_nil _).symm h.room (Bool.or_false _).symm
      fun _ hbytes => absurd rfl hbytes
  | put p bs wakes =>
    obtain ⟨rest, -, hs⟩ := Option.bind_eq_some_iff.1 hs
    split_ifs at hs with hguard
    obtain ⟨fifo, hfifo, rfl⟩ := Option.map_eq_some_iff.1 hs
    obtain ⟨hdata, hroom⟩ := fifo_write hfifo
    exact h.put hdata hroom rfl fun hnil _ => hguard.2.2 hnil
  | finish p wakes =>
    simp only [next] at hs
    split_ifs at hs
    cases hs
    exact h.put (e := .finish p wakes) (List.append_nil _).symm h.room rfl
      fun _ hbytes => absurd rfl hbytes
  | wake =>
    cases hs
    exact h.put (e := .wake) (List.append_nil _).symm h.room (Bool.or_true _).symm fun _ _ => rfl
  | wait ret => exact inv_wait h hs
  | read => exact inv_read h hs

theorem inv_run {tr : List (Event ι)} {w : World ι} (h : (system fd capacity ι).Run tr w) :
    Inv fd capacity tr w := by
  refine Run.induct (I := Inv fd capacity) ?_ (fun _ _ _ _ => inv_step) h
  rintro w rfl
  exact inv_initial

/-! ## Results -/

/-- **At most one byte for each wake-up**, in every run. What the program has read is the beginning
of what went into the FIFO, the rest is still there, and every terminator was stored at
`buffer[1]`. -/
theorem reads_prefix {tr : List (Event ι)} {w : World ι} (h : (system fd capacity ι).Run tr w) :
    w.received ++ w.fifo.data = written tr ∧ w.received.length ≤ wakeups tr ∧
      w.loop.stored = List.replicate w.received.length 1 := by
  have hinv := inv_run h
  have hreads := hinv.reads_le
  exact ⟨hinv.stream, by omega, hinv.stored⟩

/-- A FIFO of one page. Two bytes are written at once, and one of them stays. Then of a long write
one byte goes in before a signal cuts it short, and its return wakes the program up once more. -/
def cutShort : List (Event Unit) :=
  [.register, .write [97, 98], .wait (.ready [readable 3]), .read, .wait .timeout,
    .begin () (List.replicate 4097 99), .put () [99] false, .wait .timeout, .finish () true,
    .wait (.ready [readable 3]), .read, .wait .timeout]

theorem reads_prefix_cutShort : ∃ w, (system 3 4096 Unit).Run cutShort w ∧
    w.received ++ w.fifo.data = [97, 98, 99] ∧ w.received.length ≤ 2 ∧
      w.loop.stored = List.replicate w.received.length 1 := by
  obtain ⟨w, hw, -⟩ := exists_run_of_exec (initial 3) (next 3 4096) cutShort (fun _ => true)
    (by decide +kernel)
  exact ⟨w, hw, reads_prefix hw⟩

/-- **With nothing to report the program sleeps**, whatever the FIFO holds. Without a wake-up
nothing more is read, and nothing leaves the FIFO. -/
theorem asleep {w : World ι} (hpc : w.loop.pc = .wait) (hreg : w.registered = true)
    (hedge : w.edge = false) : ∀ {tr : List (Event ι)} {w' : World ι},
      (∀ e ∈ tr, e.wakes = false) → exec (next fd capacity) w tr = some w' →
      w'.received = w.received ∧ w.fifo.data <+: w'.fifo.data := by
  intro tr
  induction tr generalizing w with
  | nil =>
    intro w' _ hexec
    cases hexec
    exact ⟨rfl, List.prefix_rfl⟩
  | cons e tr ih =>
    intro w' hquiet hexec
    obtain ⟨w₁, hstep, hrest⟩ := Option.bind_eq_some_iff.1 hexec
    rw [List.forall_mem_cons] at hquiet
    have hsame : w₁.loop.pc = .wait ∧ w₁.registered = true ∧ w₁.edge = false ∧
        w₁.received = w.received ∧ w.fifo.data <+: w₁.fifo.data := by
      cases e with
      | register => simp [next, hreg] at hstep
      | write | wake => cases hquiet.1
      | begin p bs =>
        simp only [next] at hstep
        split_ifs at hstep
        cases hstep
        exact ⟨hpc, hreg, hedge, rfl, List.prefix_rfl⟩
      | put p bs wakes =>
        obtain ⟨rest, -, hstep⟩ := Option.bind_eq_some_iff.1 hstep
        split_ifs at hstep
        obtain ⟨fifo, hfifo, rfl⟩ := Option.map_eq_some_iff.1 hstep
        obtain rfl : wakes = false := hquiet.1
        exact ⟨hpc, hreg, by rw [hedge]; rfl, rfl, bs, (fifo_write hfifo).1.symm⟩
      | finish p wakes =>
        simp only [next] at hstep
        split_ifs at hstep
        cases hstep
        obtain rfl : wakes = false := hquiet.1
        exact ⟨hpc, hreg, by rw [hedge]; rfl, rfl, List.prefix_rfl⟩
      | wait ret =>
        simp only [next] at hstep
        split_ifs at hstep with hguard
        obtain ⟨loop, hloop, rfl⟩ := Option.map_eq_some_iff.1 hstep
        have hret : ∀ found, ret ≠ .ready found := by
          rintro found rfl
          simp [reports, hedge] at hguard
        obtain ⟨-, ⟨-, hpc'⟩ | ⟨hready, -⟩⟩ :=
          loop_wait hpc hloop fun found hfound => absurd hfound (hret found)
        · exact ⟨hpc', hreg, by rw [hedge, Bool.false_and], rfl, List.prefix_rfl⟩
        · exact absurd hready (hret _)
      | read =>
        simp only [next, EventLoops.next, hpc] at hstep
        split at hstep <;> cases hstep
    obtain ⟨hpc₁, hreg₁, hedge₁, hreceived, hfifo⟩ := hsame
    obtain ⟨hlast, hmore⟩ := ih hpc₁ hreg₁ hedge₁ hquiet.2 hrest
    exact ⟨hlast.trans hreceived, hfifo.trans hmore⟩

omit [DecidableEq ι] in
theorem length_written {m : ℕ} {tr : List (Event ι)}
    (hlong : ∀ e ∈ tr, e.isWrite = true → m ≤ e.bytes.length) :
    m * writes tr ≤ (written tr).length := by
  induction tr with
  | nil => exact le_rfl
  | cons e tr ih =>
    rw [List.forall_mem_cons] at hlong
    have hrest := ih hlong.2
    have hbytes : (written (e :: tr)).length = e.bytes.length + (written tr).length :=
      List.length_append
    rw [hbytes, writes, countP_cons_toNat, Nat.mul_add]
    unfold writes at hrest
    cases hwrite : e.isWrite with
    | false => simpa using Nat.le_add_left_of_le hrest
    | true =>
      have hone := hlong.1 hwrite
      rw [Bool.toNat_true, Nat.mul_one]
      omega

/-- **What fits besides the wake-ups.** All that was written is read or in the FIFO. -/
theorem length_written_le {tr : List (Event ι)} {w : World ι} (h : (system fd capacity ι).Run tr w) :
    (written tr).length ≤ capacity + wakeups tr := by
  have hinv := inv_run h
  have hreads := hinv.reads_le
  have hroom := hinv.room
  rw [← hinv.stream, List.length_append]
  omega

/-- **The writers get stuck.** If every write has more than `m` bytes and at most `PIPE_BUF`, then
in every run, however long, the number of completed writes times `m` is at most the capacity of the
FIFO and the number of wake-ups without bytes. The program reads no more bytes than there were
writes and such wake-ups. -/
theorem writes_bounded {m : ℕ} {tr : List (Event ι)} {w : World ι}
    (h : (system fd capacity ι).Run tr w) (hshort : ∀ e ∈ tr, e.beyond = false)
    (hlong : ∀ e ∈ tr, e.isWrite = true → m < e.bytes.length) :
    m * writes tr ≤ capacity + extraWakeups tr ∧
      w.received.length ≤ writes tr + extraWakeups tr := by
  have hlength : (m + 1) * writes tr ≤ (written tr).length := length_written hlong
  have hfits := length_written_le h
  have hreads := (inv_run h).reads_le
  rw [wakeups_eq hshort] at hfits hreads
  rw [Nat.succ_mul] at hlength
  exact ⟨by omega, by omega⟩

/-- Two writes of two bytes, each of which is reported. -/
def twoWrites : List (Event Unit) :=
  [.register, .write [97, 98], .wait (.ready [readable 3]), .read, .write [99, 100],
    .wait (.ready [readable 3]), .read, .wait .timeout]

theorem writes_bounded_twoWrites : ∃ w, (system 3 4096 Unit).Run twoWrites w ∧
    1 * writes twoWrites ≤ 4096 + extraWakeups twoWrites ∧
      w.received.length ≤ writes twoWrites + extraWakeups twoWrites := by
  obtain ⟨w, hw, -⟩ := exists_run_of_exec (initial 3) (next 3 4096) twoWrites (fun _ => true)
    (by decide)
  exact ⟨w, hw, writes_bounded hw (by decide) (by decide)⟩

end Run

end LinuxDemo.EpollEtRead
