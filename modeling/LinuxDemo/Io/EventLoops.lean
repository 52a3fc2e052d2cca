import Mathlib.Data.Int.Notation
import Mathlib.Data.Nat.Notation
import Mathlib.Order.Basic
import LinuxDemo.Lib.Lts

/-!
# The event loops of `io/select`, `io/poll`, `io/epoll/base` and `io/epoll/et-read`

**The code.** Each program waits for descriptors to become ready, visits what was reported, and
reads from the ready ones into a buffer of 1024 bytes. It then stores a terminator at
`buffer[readSize]`. What `read` returns is not looked at.

**The model.** One transition system for each loop. A label is what `select`, `poll` or `epoll_wait`
reports, what one `read` returns, or that an entry is passed over. The state keeps the indices at
which terminators were stored.

* `in_buffer_iff`: all of them are in the buffer if and only if no `read` of the run has failed.
* `outside_buffer`: in each of the four loops, the first `read` may fail.
-/

namespace LinuxDemo.EventLoops

open Lts

/-- The four programs. -/
inductive Loop where
  | select
  | poll
  | epollBase
  | epollEtRead
  deriving DecidableEq

/-- `sizeof(buffer)`. -/
def bufferSize : ℤ := 1024

/-- The bytes asked for. -/
def Loop.count : Loop → ℕ
  | .epollEtRead => 1
  | _ => 1023

/-- An entry that is visited: a descriptor, and whether it is readable (in the set, or `POLLIN`, or
`EPOLLIN`) or has one of `EPOLLHUP` and `EPOLLERR`. -/
structure Entry where
  fd : ℤ
  input : Bool
  hangup : Bool
  deriving DecidableEq

/-- What `select`, `poll` or `epoll_wait` returns. -/
inductive Wait where
  /-- `-1`; `errno` is `EINTR`, or not. -/
  | failed (eintr : Bool)
  /-- `0`. -/
  | timeout
  | ready (found : List Entry)
  deriving DecidableEq

/-- What `read` returns. -/
inductive ReadResult where
  /-- `-1`. -/
  | failed
  | size (n : ℕ)
  deriving DecidableEq

inductive Event where
  | wait (ret : Wait)
  | read (result : ReadResult)
  /-- An entry that is not readable. -/
  | pass
  deriving DecidableEq

/-- What a program executes next. -/
inductive Pc where
  | wait
  /-- The entries that are left. -/
  | visit (entries : List Entry)
  | ended
  deriving DecidableEq

structure State where
  pc : Pc
  timeoutCount : ℤ
  pipeFds : ℤ × ℤ
  /-- The descriptors that were closed. -/
  closed : List ℤ
  /-- The indices of the terminators. -/
  stored : List ℤ
  deriving DecidableEq

/-- The descriptors before the loop, -1 when they could not be opened. -/
structure Setup where
  pipeFds : ℤ × ℤ
  /-- Of `select` only. -/
  normalFd : ℤ
  deriving DecidableEq

/-- `timeoutCount` before the loop; `epoll/et-read` has none. -/
def Loop.timeoutCount : Loop → ℤ
  | .select | .poll => 5
  | .epollBase => 3
  | .epollEtRead => 1

def start (loop : Loop) (S : Setup) : State := ⟨.wait, loop.timeoutCount, S.pipeFds, [], []⟩

/-! ## Waiting -/

/-- The set given to `select`: the pipe, the standard input and the file. -/
def watched (S : Setup) (s : State) : List ℤ :=
  s.pipeFds.1 :: 0 :: if S.normalFd > 0 then [S.normalFd] else []

/-- `maxFd` of `select`. -/
def maxFd (S : Setup) (s : State) : ℤ := (watched S s).foldl max 0

/-- The entries that the `for` loop visits. It fails for what cannot be reported, and where `FD_SET`
is undefined. -/
def Loop.entries (loop : Loop) (S : Setup) (s : State) (found : List Entry) : Option (List Entry) :=
  match loop with
  | .select =>
    if (∀ fd ∈ watched S s, 0 ≤ fd) ∧ ∀ x ∈ found, x.fd ∈ watched S s then
      some <| (List.range (maxFd S s + 1).toNat).map fun i : ℕ =>
        ⟨i, found.any fun x => x.fd = i && x.input, false⟩
    else none
  -- `revents` of both elements of `pollFd`.
  | .poll => if found.map Entry.fd = [s.pipeFds.1, 0] then some found else none
  -- `eventNumber` is 10.
  | .epollBase | .epollEtRead => if found.length ≤ 10 then some found else none

/-- Where a program goes on after the `switch`. -/
def Loop.afterSwitch (loop : Loop) (timeoutCount : ℤ) : Pc :=
  match loop with
  | .select => .ended
  | .poll | .epollBase => if timeoutCount ≤ 0 then .ended else .wait
  | .epollEtRead => .wait

/-- `case 0`. -/
def Loop.timeout (loop : Loop) (s : State) : State :=
  match loop with
  | .select | .poll => { s with timeoutCount := s.timeoutCount - 1 }
  | .epollBase =>
    let s := { s with timeoutCount := s.timeoutCount - 1 }
    if s.timeoutCount = 2 then
      { s with closed := s.closed ++ [s.pipeFds.2], pipeFds := (s.pipeFds.1, -1) }
    else s
  | .epollEtRead => s

/-- `case -1`. -/
def Loop.failed (loop : Loop) (eintr : Bool) (s : State) : Pc :=
  match loop with
  | .select | .poll => loop.afterSwitch s.timeoutCount
  | .epollBase | .epollEtRead => if eintr then .wait else loop.afterSwitch s.timeoutCount

/-- The rest of the entries is to be visited. -/
def Loop.visit (loop : Loop) (s : State) (entries : List Entry) : State :=
  { s with pc := if entries = [] then loop.afterSwitch s.timeoutCount else .visit entries }

/-- The `switch` on what was reported. -/
def Loop.switch (loop : Loop) (S : Setup) (s : State) : Wait → Option State
  | .failed eintr => some { s with pc := loop.failed eintr s }
  | .timeout =>
    let s := loop.timeout s
    some { s with pc := loop.afterSwitch s.timeoutCount }
  | .ready found => (loop.entries S s found).map (loop.visit s)

/-! ## Visiting the entries -/

/-- `readSize`; it fails for more bytes than were asked for. -/
def ReadResult.readSize (count : ℕ) : ReadResult → Option ℤ
  | .failed => some (-1)
  | .size n => if n ≤ count then some n else none

/-- `buffer[readSize] = 0`. -/
def State.store (s : State) (readSize : ℤ) : State := { s with stored := s.stored ++ [readSize] }

/-- An entry that is not readable; the `epoll` programs close it when it has hung up. -/
def Loop.hangup (loop : Loop) (s : State) (x : Entry) : State :=
  match loop with
  | .select | .poll => s
  | .epollBase =>
    if x.hangup then
      { s with
        closed := s.closed ++ [x.fd]
        pipeFds := if x.fd = s.pipeFds.1 then (-1, s.pipeFds.2) else s.pipeFds }
    else s
  | .epollEtRead => if x.hangup then { s with closed := s.closed ++ [x.fd] } else s

/-- The step of an event. -/
def next (loop : Loop) (S : Setup) (s : State) (e : Event) : Option State :=
  match s.pc, e with
  | .wait, .wait ret => loop.switch S s ret
  | .visit (x :: entries), .read result =>
    if x.input then
      (result.readSize loop.count).map fun readSize => loop.visit (s.store readSize) entries
    else none
  | .visit (x :: entries), .pass =>
    if x.input then none else some (loop.visit (loop.hangup s x) entries)
  | _, _ => none

/-- The loop of a program. -/
def system (loop : Loop) (S : Setup) : Lts State Event := ofNext (start loop S) (next loop S)

/-! ## What one step stores -/

section Stored

variable (loop : Loop) (S : Setup) (s : State)

@[simp] theorem visit_stored (entries : List Entry) :
    (loop.visit s entries).stored = s.stored := rfl

@[simp] theorem store_stored (readSize : ℤ) :
    (s.store readSize).stored = s.stored ++ [readSize] := rfl

@[simp] theorem timeout_stored : (loop.timeout s).stored = s.stored := by
  cases loop with
  | epollBase =>
    unfold Loop.timeout
    dsimp only
    split_ifs <;> rfl
  | _ => rfl

@[simp] theorem hangup_stored (x : Entry) : (loop.hangup s x).stored = s.stored := by
  cases loop with
  | select | poll => rfl
  | epollBase | epollEtRead =>
    unfold Loop.hangup
    dsimp only
    split_ifs <;> rfl

theorem switch_stored {s s' : State} {ret : Wait} (h : loop.switch S s ret = some s') :
    s'.stored = s.stored := by
  cases ret with
  | failed eintr =>
    cases h
    rfl
  | timeout =>
    cases h
    exact timeout_stored loop s
  | ready found =>
    obtain ⟨entries, -, rfl⟩ := Option.map_eq_some_iff.1 h
    rfl

end Stored

/-- Every step stores at most one terminator, at the result of its `read`. -/
theorem next_stored {loop : Loop} {S : Setup} {s s' : State} {e : Event}
    (h : next loop S s e = some s') :
    (s'.stored = s.stored ∧ ∀ result, e ≠ .read result) ∨
      ∃ result readSize, e = .read result ∧ result.readSize loop.count = some readSize ∧
        s'.stored = s.stored ++ [readSize] := by
  unfold next at h
  split at h
  · exact Or.inl ⟨switch_stored loop S h, fun _ he => by cases he⟩
  · split_ifs at h
    obtain ⟨readSize, hread, rfl⟩ := Option.map_eq_some_iff.1 h
    exact Or.inr ⟨_, readSize, rfl, hread, by simp⟩
  · split_ifs at h
    cases h
    exact Or.inl ⟨by simp, fun _ he => by cases he⟩
  · cases h

/-- A result of `read` is an index of the buffer, unless it says that `read` has failed. -/
theorem readSize_in_buffer {loop : Loop} {result : ReadResult} {readSize : ℤ}
    (h : result.readSize loop.count = some readSize) :
    0 ≤ readSize ∧ readSize < bufferSize ↔ result ≠ .failed := by
  cases result with
  | failed =>
    cases h
    exact iff_of_false (fun hle => absurd hle.1 (by decide)) fun hne => hne rfl
  | size n =>
    unfold ReadResult.readSize at h
    dsimp only at h
    split_ifs at h with hn
    cases h
    have hcount : loop.count ≤ 1023 := by cases loop <;> decide
    unfold bufferSize
    exact iff_of_true ⟨by omega, by omega⟩ (by simp)

/-! ## Runs -/

/-- **Every terminator is stored in the buffer** if and only if no `read` of the run has failed. -/
theorem in_buffer_iff {loop : Loop} {S : Setup} {tr : List Event} {s : State}
    (h : (system loop S).Run tr s) :
    (∀ i ∈ s.stored, 0 ≤ i ∧ i < bufferSize) ↔ ∀ e ∈ tr, e ≠ .read .failed := by
  refine Run.induct (I := fun tr s =>
    (∀ i ∈ s.stored, 0 ≤ i ∧ i < bufferSize) ↔ ∀ e ∈ tr, e ≠ .read .failed) ?_ ?_ h
  · rintro s rfl
    exact iff_of_true (by simp [start]) (by simp)
  · intro tr s e s' ih hs
    rw [List.forall_mem_append, ← ih, List.forall_mem_singleton]
    rcases next_stored hs with ⟨hstored, he⟩ | ⟨result, readSize, rfl, hread, hstored⟩
    · rw [hstored, and_iff_left (he .failed)]
    · rw [hstored, List.forall_mem_append, List.forall_mem_singleton, readSize_in_buffer hread]
      exact and_congr_right fun _ => not_congr ⟨fun h => by rw [h], fun h => by cases h; rfl⟩

/-- The pipe is 3 and 4, and the file of `select` 5. -/
def setup : Setup := ⟨(3, 4), 5⟩

/-- What each program may find first: of the entries it visits, the first one is readable. -/
def Loop.firstReady : Loop → List Entry
  | .select => [⟨0, true, false⟩]
  | .poll => [⟨3, true, false⟩, ⟨0, false, false⟩]
  | .epollBase | .epollEtRead => [⟨3, true, false⟩]

theorem in_buffer_iff_abcd :
    ∃ s, (system .poll setup).Run [.wait (.ready Loop.poll.firstReady), .read (.size 4), .pass] s ∧
      ∀ i ∈ s.stored, 0 ≤ i ∧ i < bufferSize := by
  obtain ⟨s, hs, -⟩ := exists_run_of_exec (start .poll setup) (next .poll setup)
    [.wait (.ready Loop.poll.firstReady), .read (.size 4), .pass] (fun _ => true) (by decide)
  exact ⟨s, hs, (in_buffer_iff hs).2 (by decide)⟩

/-- **None of the four loops checks `readSize`**: when the first `read` fails, the terminator is
stored in front of the buffer. -/
theorem outside_buffer :
    ¬∃ loop : Loop, ∀ tr s, (system loop setup).Run tr s →
      ∀ i ∈ s.stored, 0 ≤ i ∧ i < bufferSize := by
  rintro ⟨loop, h⟩
  obtain ⟨s, hs, hp⟩ := exists_run_of_exec (start loop setup) (next loop setup)
    [.wait (.ready loop.firstReady), .read .failed] (fun s => s.stored = [-1])
    (by cases loop <;> decide)
  have hstored : s.stored = [-1] := by simpa using hp
  have hindex := h _ s hs (-1) (by rw [hstored]; exact List.mem_singleton_self _)
  exact absurd hindex.1 (by decide)

end LinuxDemo.EventLoops
