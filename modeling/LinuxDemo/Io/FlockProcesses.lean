import LinuxDemo.Lib.FileLock
import LinuxDemo.Lib.Threads

/-!
# The processes of `io/file_lock/flock/main.c`

Any number of processes run `main` on one file. Each of them locks the file in the way its arguments
say, sleeps, unlocks it and then calls `_otherTest` three times. `_otherTest` opens the file twice,
locks it through `fd1` and tries to lock it through `fd2`. Before that it unlocks a duplicate of `fd1`
(`testDup`) or closes `fd1` (`testClose`).

The locks belong to the open file descriptions. So the two descriptors of one process keep each other
out, a duplicate stands for the same lock, and `close` of the last descriptor gives the lock up.

* `sleeps_alone`: the processes keep each other out, and nothing stays locked.
* `second_lock_iff`: when the lock of `fd2` is granted. The text that is printed after the close of
  `fd1` ("will not unlock fd1") does not hold.
-/

namespace LinuxDemo.FlockProcesses

open Lts Threads

variable {ι : Type*}

/-! ## The program -/

/-- The arguments of `_otherTest`. -/
structure Call where
  testDup : Bool
  testClose : Bool
  deriving DecidableEq

/-- The calls of `main`. -/
def calls : List Call := [⟨false, false⟩, ⟨true, false⟩, ⟨false, true⟩]

/-- What a process executes next. A descriptor is given by its open file description. In
`_otherTest`, `c` is the call that is running and `cs` are those to come; `unlocked` says that the lock
was given up through `fd3`. -/
inductive Pc where
  /-- `open(fileName, O_RDONLY)`. -/
  | openFile
  /-- `flock(fd, lockType)`. -/
  | flock (fd : ℕ)
  | sleep (fd : ℕ)
  /-- `flock(fd, LOCK_UN)`. -/
  | unlock (fd : ℕ)
  | close (fd : ℕ)
  /-- The first `open` of `_otherTest`. -/
  | open1 (c : Call) (cs : List Call)
  /-- The second `open`. -/
  | open2 (c : Call) (cs : List Call) (fd1 : Option ℕ)
  /-- `flock(fd1, LOCK_EX | LOCK_NB)`. -/
  | lock1 (c : Call) (cs : List Call) (fd1 fd2 : ℕ)
  /-- `dup(fd1)`. -/
  | dup (c : Call) (cs : List Call) (fd1 fd2 : ℕ)
  /-- `flock(fd3, LOCK_UN)`. -/
  | unlock3 (c : Call) (cs : List Call) (fd1 fd2 fd3 : ℕ)
  /-- `close(fd1)`. -/
  | close1 (c : Call) (cs : List Call) (fd1 fd2 : ℕ) (fd3 : Option ℕ) (unlocked : Bool)
  /-- `flock(fd2, LOCK_EX | LOCK_NB)`. -/
  | lock2 (c : Call) (cs : List Call) (fd1 : Option ℕ) (fd2 : ℕ) (fd3 : Option ℕ)
      (unlocked : Bool)
  /-- The descriptors that `_otherTest` is still to close. -/
  | closing (cs : List Call) (fds : List ℕ)
  /-- `main` has returned, with these descriptors open. -/
  | returned (fds : List ℕ)
  | ended
  deriving DecidableEq

/-- What a process does in one step. -/
inductive Op where
  | openFile (ok : Bool)
  /-- `flock` grants the lock. -/
  | lock
  /-- `EWOULDBLOCK`. -/
  | refused
  /-- `flock` fails for another reason. -/
  | lockFails
  | wake
  | unlock (ok : Bool)
  | dup (ok : Bool)
  | close
  | exit
  deriving DecidableEq

/-- The call of `_otherTest` is over. -/
def nextCall : List Call → Pc
  | [] => .returned []
  | c :: cs => .open1 c cs

/-- `_otherTest` goes on with these descriptors to close. -/
def afterClose (cs : List Call) : List ℕ → Pc
  | [] => nextCall cs
  | fd :: fds => .closing cs (fd :: fds)

/-- What follows the block of `testDup`. -/
def afterDup (c : Call) (cs : List Call) (fd1 fd2 : ℕ) (fd3 : Option ℕ) (unlocked : Bool) : Pc :=
  if c.testClose then .close1 c cs fd1 fd2 fd3 unlocked
  else .lock2 c cs (some fd1) fd2 fd3 unlocked

/-- What follows the lock of `fd1`. -/
def afterLock1 (c : Call) (cs : List Call) (fd1 fd2 : ℕ) : Pc :=
  if c.testDup then .dup c cs fd1 fd2 else afterDup c cs fd1 fd2 none false

/-- The descriptors that are closed at the end. -/
def openFds (fd1 : Option ℕ) (fd2 : ℕ) (fd3 : Option ℕ) : List ℕ :=
  fd1.toList ++ fd2 :: fd3.toList

/-- Process `p` executes one step. It asks for the lock `mode p`, and does not wait if
`nonblock p`. -/
def step [DecidableEq ι] [Fintype ι] (mode : ι → LockMode) (nonblock : ι → Bool) (p : ι) :
    Op → FileLocks ι → Pc → Option (FileLocks ι × Pc)
  | .openFile true, f, .openFile => some (f.openFile p, .flock f.fresh)
  | .openFile false, f, .openFile => some (f, .returned [])
  | .lock, f, .flock fd =>
    if f.Grants fd (mode p) then some (f.setMode fd (some (mode p)), .sleep fd) else none
  | .refused, f, .flock fd =>
    if nonblock p = true ∧ ¬f.Grants fd (mode p) then some (f, .returned [fd]) else none
  | .lockFails, f, .flock fd => some (f, .returned [fd])
  | .wake, f, .sleep fd => some (f, .unlock fd)
  | .unlock true, f, .unlock fd => some (f.setMode fd none, .close fd)
  | .unlock false, f, .unlock fd => some (f, .returned [fd])
  | .close, f, .close fd => some (f.close p fd, nextCall calls)
  | .openFile true, f, .open1 c cs => some (f.openFile p, .open2 c cs (some f.fresh))
  | .openFile false, f, .open1 c cs => some (f, .open2 c cs none)
  | .openFile true, f, .open2 c cs (some fd1) => some (f.openFile p, .lock1 c cs fd1 f.fresh)
  -- `fd1 or fd2 < 0`: the other one stays open.
  | .openFile true, f, .open2 _ cs none => some (f.openFile p, nextCall cs)
  | .openFile false, f, .open2 _ cs _ => some (f, nextCall cs)
  | .lock, f, .lock1 c cs fd1 fd2 =>
    if f.Grants fd1 .exclusive then
      some (f.setMode fd1 (some .exclusive), afterLock1 c cs fd1 fd2)
    else none
  | .refused, f, .lock1 _ cs fd1 fd2 =>
    if f.Grants fd1 .exclusive then none else some (f, .closing cs [fd1, fd2])
  | .lockFails, f, .lock1 _ cs fd1 fd2 => some (f, .closing cs [fd1, fd2])
  | .dup true, f, .dup c cs fd1 fd2 => some (f.dup p fd1, .unlock3 c cs fd1 fd2 fd1)
  | .dup false, f, .dup c cs fd1 fd2 => some (f, afterDup c cs fd1 fd2 none false)
  | .unlock true, f, .unlock3 c cs fd1 fd2 fd3 =>
    some (f.setMode fd3 none, afterDup c cs fd1 fd2 (some fd3) true)
  | .unlock false, f, .unlock3 c cs fd1 fd2 fd3 =>
    some (f, afterDup c cs fd1 fd2 (some fd3) false)
  | .close, f, .close1 c cs fd1 fd2 fd3 unlocked =>
    some (f.close p fd1, .lock2 c cs none fd2 fd3 unlocked)
  | .lock, f, .lock2 _ cs fd1 fd2 fd3 _ =>
    if f.Grants fd2 .exclusive then
      some (f.setMode fd2 (some .exclusive), .closing cs (openFds fd1 fd2 fd3))
    else none
  | .refused, f, .lock2 _ cs fd1 fd2 fd3 _ =>
    if f.Grants fd2 .exclusive then none else some (f, .closing cs (openFds fd1 fd2 fd3))
  | .lockFails, f, .lock2 _ cs fd1 fd2 fd3 _ => some (f, .closing cs (openFds fd1 fd2 fd3))
  | .close, f, .closing cs (fd :: fds) =>
    some (f.close p fd, afterClose cs fds)
  | .exit, f, .returned _ => some (f.exit p, .ended)
  | _, _, _ => none

/-- All processes, started at any time. -/
def system [DecidableEq ι] [Fintype ι] (mode : ι → LockMode) (nonblock : ι → Bool) :
    Lts (Threads ι (FileLocks ι) Pc) (ι × Op) :=
  interleave .unopened (fun _ => .openFile) (step mode nonblock)

/-! ## What one step does -/

/-- The steps that leave the kernel alone. -/
inductive Move : Op → Pc → Pc → Prop
  | openFails : Move (.openFile false) .openFile (.returned [])
  | refused {fd : ℕ} : Move .refused (.flock fd) (.returned [fd])
  | lockFails {fd : ℕ} : Move .lockFails (.flock fd) (.returned [fd])
  | wake {fd : ℕ} : Move .wake (.sleep fd) (.unlock fd)
  | unlockFails {fd : ℕ} : Move (.unlock false) (.unlock fd) (.returned [fd])
  | open1Fails {c : Call} {cs : List Call} :
      Move (.openFile false) (.open1 c cs) (.open2 c cs none)
  | open2Fails {c : Call} {cs : List Call} {fd1 : Option ℕ} :
      Move (.openFile false) (.open2 c cs fd1) (nextCall cs)
  | lock1Fails {op : Op} {c : Call} {cs : List Call} {fd1 fd2 : ℕ} :
      Move op (.lock1 c cs fd1 fd2) (.closing cs [fd1, fd2])
  | dupFails {c : Call} {cs : List Call} {fd1 fd2 : ℕ} :
      Move (.dup false) (.dup c cs fd1 fd2) (afterDup c cs fd1 fd2 none false)
  | unlock3Fails {c : Call} {cs : List Call} {fd1 fd2 fd3 : ℕ} :
      Move (.unlock false) (.unlock3 c cs fd1 fd2 fd3) (afterDup c cs fd1 fd2 (some fd3) false)
  | lock2Fails {op : Op} {c : Call} {cs : List Call} {fd1 fd3 : Option ℕ} {fd2 : ℕ} {u : Bool} :
      Move op (.lock2 c cs fd1 fd2 fd3 u) (.closing cs (openFds fd1 fd2 fd3))

/-- Everything a step of `main` can do. -/
inductive Step [DecidableEq ι] [Fintype ι] (m : LockMode) (p : ι) (f : FileLocks ι) :
    Op → Pc → FileLocks ι → Pc → Prop
  | move {op : Op} {x y : Pc} (h : Move op x y) : Step m p f op x f y
  | openFile : Step m p f (.openFile true) .openFile (f.openFile p) (.flock f.fresh)
  | open1 {c : Call} {cs : List Call} :
      Step m p f (.openFile true) (.open1 c cs) (f.openFile p) (.open2 c cs (some f.fresh))
  | open2 {c : Call} {cs : List Call} {fd1 : ℕ} :
      Step m p f (.openFile true) (.open2 c cs (some fd1)) (f.openFile p)
        (.lock1 c cs fd1 f.fresh)
  | open2Lost {c : Call} {cs : List Call} :
      Step m p f (.openFile true) (.open2 c cs none) (f.openFile p) (nextCall cs)
  | flock {fd : ℕ} (h : f.Grants fd m) :
      Step m p f .lock (.flock fd) (f.setMode fd (some m)) (.sleep fd)
  | lock1 {c : Call} {cs : List Call} {fd1 fd2 : ℕ} (h : f.Grants fd1 .exclusive) :
      Step m p f .lock (.lock1 c cs fd1 fd2) (f.setMode fd1 (some .exclusive))
        (afterLock1 c cs fd1 fd2)
  | lock2 {c : Call} {cs : List Call} {fd1 fd3 : Option ℕ} {fd2 : ℕ} {u : Bool}
      (h : f.Grants fd2 .exclusive) :
      Step m p f .lock (.lock2 c cs fd1 fd2 fd3 u) (f.setMode fd2 (some .exclusive))
        (.closing cs (openFds fd1 fd2 fd3))
  | unlock {fd : ℕ} : Step m p f (.unlock true) (.unlock fd) (f.setMode fd none) (.close fd)
  | unlock3 {c : Call} {cs : List Call} {fd1 fd2 fd3 : ℕ} :
      Step m p f (.unlock true) (.unlock3 c cs fd1 fd2 fd3) (f.setMode fd3 none)
        (afterDup c cs fd1 fd2 (some fd3) true)
  | dup {c : Call} {cs : List Call} {fd1 fd2 : ℕ} :
      Step m p f (.dup true) (.dup c cs fd1 fd2) (f.dup p fd1) (.unlock3 c cs fd1 fd2 fd1)
  | close {fd : ℕ} : Step m p f .close (.close fd) (f.close p fd) (nextCall calls)
  | close1 {c : Call} {cs : List Call} {fd1 fd2 : ℕ} {fd3 : Option ℕ} {u : Bool} :
      Step m p f .close (.close1 c cs fd1 fd2 fd3 u) (f.close p fd1) (.lock2 c cs none fd2 fd3 u)
  | closing {cs : List Call} {fd : ℕ} {fds : List ℕ} :
      Step m p f .close (.closing cs (fd :: fds)) (f.close p fd)
        (afterClose cs fds)
  | exit {fds : List ℕ} : Step m p f .exit (.returned fds) (f.exit p) .ended

theorem step_cases [DecidableEq ι] [Fintype ι] {mode : ι → LockMode} {nonblock : ι → Bool} {p : ι}
    {op : Op} {f f' : FileLocks ι} {x y : Pc}
    (h : step mode nonblock p op f x = some (f', y)) : Step (mode p) p f op x f' y := by
  unfold step at h
  split at h
  all_goals try split_ifs at h
  all_goals cases h
  · exact .openFile
  · exact .move .openFails
  · exact .flock ‹_›
  · exact .move .refused
  · exact .move .lockFails
  · exact .move .wake
  · exact .unlock
  · exact .move .unlockFails
  · exact .close
  · exact .open1
  · exact .move .open1Fails
  · exact .open2
  · exact .open2Lost
  · exact .move .open2Fails
  · exact .lock1 ‹_›
  · exact .move .lock1Fails
  · exact .move .lock1Fails
  · exact .dup
  · exact .move .dupFails
  · exact .unlock3
  · exact .move .unlock3Fails
  · exact .close1
  · exact .lock2 ‹_›
  · exact .move .lock2Fails
  · exact .move .lock2Fails
  · exact .closing
  · exact .exit

/-! ## What a process has -/

namespace Pc

/-- The descriptors in the variables of a process. -/
def fds : Pc → List ℕ
  | flock fd | sleep fd | unlock fd | close fd => [fd]
  | open2 _ _ fd1 => fd1.toList
  | lock1 _ _ fd1 fd2 | dup _ _ fd1 fd2 => [fd1, fd2]
  | unlock3 _ _ fd1 fd2 fd3 => openFds (some fd1) fd2 (some fd3)
  | close1 _ _ fd1 fd2 fd3 _ => openFds (some fd1) fd2 fd3
  | lock2 _ _ fd1 fd2 fd3 _ => openFds fd1 fd2 fd3
  | closing _ fds | returned fds => fds
  | openFile | open1 _ _ | ended => []

/-- The lock of `fd1`, unless it was given up through `fd3`. -/
def lock1Mode (unlocked : Bool) : Option LockMode := if unlocked then none else some .exclusive

/-- What holds at a place of `main` about the locks of its descriptors. -/
def Knows (m : LockMode) (lockOf : ℕ → Option LockMode) : Pc → Prop
  | flock fd | close fd => lockOf fd = none
  | sleep fd | unlock fd => lockOf fd = some m
  | open2 _ _ fd1 => ∀ d ∈ fd1, lockOf d = none
  | lock1 _ _ fd1 fd2 => fd1 ≠ fd2 ∧ lockOf fd1 = none ∧ lockOf fd2 = none
  | dup c _ fd1 fd2 =>
    fd1 ≠ fd2 ∧ lockOf fd1 = some .exclusive ∧ lockOf fd2 = none ∧ c.testDup = true
  | unlock3 c _ fd1 fd2 fd3 =>
    fd1 ≠ fd2 ∧ lockOf fd1 = some .exclusive ∧ lockOf fd2 = none ∧ fd3 = fd1 ∧ c.testDup = true
  | close1 c _ fd1 fd2 fd3 u =>
    fd1 ≠ fd2 ∧ lockOf fd1 = lock1Mode u ∧ lockOf fd2 = none ∧ (∀ d ∈ fd3, d = fd1) ∧
      c.testClose = true ∧ (fd3.isSome = true → c.testDup = true) ∧ (u = true → fd3.isSome = true)
  | lock2 c _ fd1 fd2 fd3 u =>
    (∀ d ∈ fd1.toList ++ fd3.toList, d ≠ fd2 ∧ lockOf d = lock1Mode u) ∧ lockOf fd2 = none ∧
      (fd1 = none ↔ c.testClose = true) ∧ (fd3.isSome = true → c.testDup = true) ∧
      (u = true → fd3.isSome = true)
  | _ => True

/-- It is about the descriptors of the place only. -/
theorem Knows.congr {m : LockMode} {lockOf lockOf' : ℕ → Option LockMode} {x : Pc}
    (h : x.Knows m lockOf) (hs : ∀ d ∈ x.fds, lockOf' d = lockOf d) : x.Knows m lockOf' := by
  cases x <;> simp_all [Knows, fds, openFds]

variable {m : LockMode} {lockOf : ℕ → Option LockMode} {c : Call} {cs : List Call} {fd1 fd2 : ℕ}
  {fd3 : Option ℕ} {u : Bool}

@[simp] theorem fds_nextCall (cs : List Call) : (nextCall cs).fds = [] := by
  cases cs <;> rfl

@[simp] theorem knows_nextCall (cs : List Call) : (nextCall cs).Knows m lockOf := by
  cases cs <;> trivial

@[simp] theorem fds_afterClose (cs : List Call) (l : List ℕ) : (afterClose cs l).fds = l := by
  cases l with
  | nil => exact fds_nextCall cs
  | cons fd l => rfl

@[simp] theorem knows_afterClose (cs : List Call) (l : List ℕ) :
    (afterClose cs l).Knows m lockOf := by
  cases l with
  | nil => exact knows_nextCall cs
  | cons fd l => trivial

@[simp] theorem fds_afterDup : (afterDup c cs fd1 fd2 fd3 u).fds = openFds (some fd1) fd2 fd3 := by
  unfold afterDup
  split_ifs <;> rfl

theorem knows_afterDup (hne : fd1 ≠ fd2) (h1 : lockOf fd1 = lock1Mode u) (h2 : lockOf fd2 = none)
    (h3 : ∀ d ∈ fd3, d = fd1) (hdup : fd3.isSome = true → c.testDup = true)
    (hu : u = true → fd3.isSome = true) : (afterDup c cs fd1 fd2 fd3 u).Knows m lockOf := by
  unfold afterDup
  split_ifs with hc
  · exact ⟨hne, h1, h2, h3, hc, hdup, hu⟩
  · refine ⟨?_, h2, by simp [hc], hdup, hu⟩
    intro d hd
    have hd1 : d = fd1 := by
      rcases List.mem_append.1 hd with hd | hd
      · exact List.mem_singleton.1 hd
      · exact h3 d (Option.mem_toList.1 hd)
    rw [hd1]
    exact ⟨hne, h1⟩

@[simp] theorem fds_afterLock1 : (afterLock1 c cs fd1 fd2).fds = [fd1, fd2] := by
  unfold afterLock1
  split_ifs
  · rfl
  · rw [fds_afterDup]
    rfl

theorem knows_afterLock1 (hne : fd1 ≠ fd2) (h1 : lockOf fd1 = some .exclusive)
    (h2 : lockOf fd2 = none) : (afterLock1 c cs fd1 fd2).Knows m lockOf := by
  unfold afterLock1
  split_ifs with hc
  · exact ⟨hne, h1, h2, hc⟩
  · exact knows_afterDup hne h1 h2 (by simp) (by simp) (by simp)

end Pc

/-- What process `p` has at its place: its descriptors are those of its variables, others that it has
lost have no lock. -/
structure Local (m : LockMode) (p : ι) (f : FileLocks ι) (x : Pc) : Prop where
  refs : ∀ d ∈ x.fds, (f.object d).refs p = x.fds.count d
  lost : ∀ d, 0 < (f.object d).refs p → d ∉ x.fds → (f.object d).mode = none
  knows : x.Knows m fun d => (f.object d).mode

namespace Local

variable {m : LockMode} {p q : ι} {f f' : FileLocks ι} {x y : Pc}

/-- A descriptor in a variable is open. -/
theorem pos (h : Local m p f x) {d : ℕ} (hd : d ∈ x.fds) : 0 < (f.object d).refs p := by
  rw [h.refs d hd]
  exact List.count_pos_iff.2 hd

/-- The steps of other processes make no difference. -/
theorem others (h : Local m q f x) (ho : FileLocks.Others p f f') (hq : q ≠ p) :
    Local m q f' x where
  refs d hd := by
    rw [ho.refs d q hq]
    exact h.refs d hd
  lost d hd hfds := by
    rw [ho.refs d q hq] at hd
    rw [ho.object d q hq hd]
    exact h.lost d hd hfds
  knows := by
    refine h.knows.congr fun d hd => ?_
    rw [ho.object d q hq (h.pos hd)]

/-- A step that leaves the kernel alone. -/
theorem move {op : Op} (h : Local m p f x) (hm : Move op x y) : Local m p f y := by
  have hknows := h.knows
  cases hm with
  | openFails => exact ⟨h.refs, h.lost, trivial⟩
  | refused | lockFails | unlockFails | lock1Fails | lock2Fails => exact ⟨h.refs, h.lost, trivial⟩
  | wake => exact ⟨h.refs, h.lost, h.knows⟩
  | open1Fails => exact ⟨h.refs, h.lost, by simp [Pc.Knows]⟩
  | @open2Fails c cs fd1 =>
    refine ⟨by simp, ?_, Pc.knows_nextCall cs⟩
    intro d hd _
    by_cases hfd : d ∈ fd1.toList
    · exact hknows d (Option.mem_toList.1 hfd)
    · exact h.lost d hd hfd
  | dupFails =>
    obtain ⟨hne, h1, h2, -⟩ := hknows
    refine ⟨?_, ?_, Pc.knows_afterDup hne h1 h2 (by simp) (by simp) (by simp)⟩
    · rw [Pc.fds_afterDup]
      exact h.refs
    · rw [Pc.fds_afterDup]
      exact h.lost
  | unlock3Fails =>
    obtain ⟨hne, h1, h2, rfl, hdup⟩ := hknows
    refine ⟨?_, ?_, Pc.knows_afterDup hne h1 h2 (by simp) (fun _ => hdup) (by simp)⟩
    · rw [Pc.fds_afterDup]
      exact h.refs
    · rw [Pc.fds_afterDup]
      exact h.lost

/-- `flock`, on a descriptor in a variable. -/
theorem setMode (h : Local m p f x) {d : ℕ} {m' : Option LockMode} (hd : d ∈ x.fds)
    (hfds : y.fds = x.fds) (hknows : y.Knows m fun d' => ((f.setMode d m').object d').mode) :
    Local m p (f.setMode d m') y where
  refs d' hd' := by
    rw [hfds] at hd' ⊢
    rw [← h.refs d' hd']
    by_cases hne : d' = d
    · subst hne
      simp [FileLocks.setMode]
    · rw [FileLocks.setMode, FileLocks.put_object_of_ne hne]
  lost d' hpos hd' := by
    rw [hfds] at hd'
    have hne : d' ≠ d := fun heq => hd' (heq ▸ hd)
    rw [FileLocks.setMode, FileLocks.put_object_of_ne hne] at hpos ⊢
    exact h.lost d' hpos hd'
  knows := hknows

/-- The new description of `open` is none of those in the variables. -/
theorem ne_fresh (h : Local m p f x) (hok : f.Ok) {d : ℕ} (hd : d ∈ x.fds) : d ≠ f.fresh :=
  ne_of_lt (hok.fresh d p (h.pos hd))

section Processes

variable [DecidableEq ι]

theorem openFile (h : Local m p f x) (hok : f.Ok) (hfds : y.fds = x.fds ++ [f.fresh])
    (hknows : y.Knows m fun d => ((f.openFile p).object d).mode) :
    Local m p (f.openFile p) y where
  refs d hd := by
    rw [hfds] at hd ⊢
    rw [List.count_append, List.count_singleton]
    rcases List.mem_append.1 hd with hd | hd
    · have hne := h.ne_fresh hok hd
      rw [FileLocks.openFile_object_of_ne hne, h.refs d hd]
      simp [hne.symm]
    · cases List.mem_singleton.1 hd
      have hnot : f.fresh ∉ x.fds := fun hmem => h.ne_fresh hok hmem rfl
      simp [List.count_eq_zero.2 hnot]
  lost d hpos hd := by
    rw [hfds, List.mem_append, not_or, List.mem_singleton] at hd
    rw [FileLocks.openFile_object_of_ne hd.2] at hpos ⊢
    exact h.lost d hpos hd.1
  knows := hknows

/-- `_otherTest` loses the description that it has just opened. -/
theorem openLost (h : Local m p f x) (hx : x.fds = []) (cs : List Call) :
    Local m p (f.openFile p) (nextCall cs) where
  refs d hd := by simp at hd
  lost d hpos _ := by
    by_cases hne : d = f.fresh
    · rw [hne, FileLocks.openFile_object_fresh]
    · rw [FileLocks.openFile_object_of_ne hne] at hpos ⊢
      exact h.lost d hpos (by simp [hx])
  knows := Pc.knows_nextCall cs

theorem dup (h : Local m p f x) {d : ℕ} (hd : d ∈ x.fds) (hfds : y.fds = x.fds ++ [d])
    (hknows : y.Knows m fun d' => (f.object d').mode) : Local m p (f.dup p d) y where
  refs d' hd' := by
    have hmem : d' ∈ x.fds := by
      rw [hfds] at hd'
      rcases List.mem_append.1 hd' with hd' | hd'
      · exact hd'
      · exact List.mem_singleton.1 hd' ▸ hd
    rw [hfds, List.count_append, List.count_singleton, ← h.refs d' hmem]
    by_cases hne : d' = d
    · subst hne
      simp [FileLocks.dup]
    · rw [FileLocks.dup, FileLocks.put_object_of_ne hne]
      simp [Ne.symm hne]
  lost d' hpos hd' := by
    rw [hfds, List.mem_append, not_or, List.mem_singleton] at hd'
    rw [FileLocks.dup, FileLocks.put_object_of_ne hd'.2] at hpos ⊢
    exact h.lost d' hpos hd'.1
  knows := by
    refine hknows.congr fun d' _ => ?_
    by_cases hne : d' = d
    · subst hne
      simp [FileLocks.dup]
    · rw [FileLocks.dup, FileLocks.put_object_of_ne hne]

variable [Fintype ι]

theorem exit (p : ι) (f : FileLocks ι) : Local m p (f.exit p) .ended where
  refs d hd := by cases hd
  lost d hpos _ := by
    rw [show ((f.exit p).object d).refs p = 0 from Function.update_self ..] at hpos
    exact absurd hpos (lt_irrefl 0)
  knows := trivial

/-- `close` of a descriptor in a variable keeps the locks of the others. -/
theorem close (h : Local m p f x) {d : ℕ} (hd : d ∈ x.fds) (hfds : y.fds = x.fds.erase d)
    (hknows : y.Knows m fun d' => (f.object d').mode) : Local m p (f.close p d) y := by
  have hself : ((f.close p d).object d).refs p = (x.fds.erase d).count d := by
    rw [FileLocks.close, FileLocks.put_object_self, List.count_erase_self, ← h.refs d hd]
    exact Function.update_self ..
  refine ⟨?_, ?_, ?_⟩
  · intro d' hd'
    rw [hfds] at hd' ⊢
    by_cases hne : d' = d
    · rw [hne, hself]
    · rw [FileLocks.close, FileLocks.put_object_of_ne hne, List.count_erase_of_ne hne]
      exact h.refs d' (List.mem_of_mem_erase hd')
  · intro d' hpos hd'
    rw [hfds] at hd'
    have hne : d' ≠ d := by
      rintro rfl
      rw [hself] at hpos
      exact hd' (List.count_pos_iff.1 hpos)
    rw [FileLocks.close, FileLocks.put_object_of_ne hne] at hpos ⊢
    exact h.lost d' hpos fun hmem => hd' ((List.mem_erase_of_ne hne).2 hmem)
  · refine hknows.congr fun d' hd' => ?_
    rw [hfds] at hd'
    by_cases hne : d' = d
    · subst hne
      -- A duplicate is left, so the lock is too.
      have hpos : 0 < Function.update (f.object d').refs p ((f.object d').refs p - 1) p := by
        rw [← List.count_pos_iff, ← hself, FileLocks.close, FileLocks.put_object_self] at hd'
        exact hd'
      rw [FileLocks.close, FileLocks.put_object_self, FileLocks.withRefs_of_pos hpos]
    · rw [FileLocks.close, FileLocks.put_object_of_ne hne]

/-- A step of `main` keeps what a process has. -/
theorem step {op : Op} (h : Local m p f x) (hok : f.Ok) (hs : Step m p f op x f' y) :
    Local m p f' y := by
  have hknows := h.knows
  cases hs with
  | move hm => exact h.move hm
  | openFile => exact h.openFile hok rfl (by simp [Pc.Knows])
  | open1 => exact h.openFile hok rfl (by simp [Pc.Knows])
  | @open2 c cs fd1 =>
    have hne : fd1 ≠ f.fresh := h.ne_fresh hok (List.mem_singleton_self fd1)
    refine h.openFile hok rfl ⟨hne, ?_, by simp⟩
    show ((f.openFile p).object fd1).mode = none
    rw [FileLocks.openFile_object_of_ne hne]
    exact hknows fd1 rfl
  | open2Lost => exact h.openLost rfl _
  | flock hg => exact h.setMode (List.mem_singleton_self _) rfl (by simp [Pc.Knows, FileLocks.setMode])
  | lock1 hg =>
    obtain ⟨hne, -, h2⟩ := hknows
    refine h.setMode List.mem_cons_self Pc.fds_afterLock1 (Pc.knows_afterLock1 hne ?_ ?_)
    · simp [FileLocks.setMode]
    · rwa [FileLocks.setMode, FileLocks.put_object_of_ne hne.symm]
  | lock2 hg => exact h.setMode (by simp [Pc.fds, openFds]) rfl trivial
  | unlock => exact h.setMode (List.mem_singleton_self _) rfl (by simp [Pc.Knows, FileLocks.setMode])
  | unlock3 =>
    obtain ⟨hne, -, h2, rfl, hdup⟩ := hknows
    refine h.setMode (by simp [Pc.fds, openFds]) Pc.fds_afterDup
      (Pc.knows_afterDup hne ?_ ?_ (by simp) (fun _ => hdup) (fun _ => rfl))
    · simp [FileLocks.setMode, Pc.lock1Mode]
    · rwa [FileLocks.setMode, FileLocks.put_object_of_ne hne.symm]
  | dup =>
    obtain ⟨hne, h1, h2, hdup⟩ := hknows
    exact h.dup List.mem_cons_self rfl ⟨hne, h1, h2, rfl, hdup⟩
  | close =>
    exact h.close List.mem_cons_self
      ((Pc.fds_nextCall _).trans (List.erase_cons_head ..).symm) (Pc.knows_nextCall _)
  | close1 =>
    obtain ⟨hne, h1, h2, h3, hc, hdup, hu⟩ := hknows
    refine h.close List.mem_cons_self (by simp [Pc.fds, openFds])
      ⟨?_, h2, by simp [hc], hdup, hu⟩
    intro d hd
    have hd1 := h3 d (Option.mem_toList.1 hd)
    rw [hd1]
    exact ⟨hne, h1⟩
  | closing =>
    exact h.close List.mem_cons_self
      ((Pc.fds_afterClose _ _).trans (List.erase_cons_head ..).symm) (Pc.knows_afterClose _ _)
  | exit => exact Local.exit p f

end Processes

end Local

/-! ## The invariant -/

/-- The kernel's descriptions are in order, and every process has what its place says. -/
structure Inv (mode : ι → LockMode) (w : Threads ι (FileLocks ι) Pc) : Prop where
  ok : w.shared.Ok
  here : ∀ p, Local (mode p) p w.shared (w.pc p)

section Runs

variable [DecidableEq ι] [Fintype ι] {mode : ι → LockMode} {nonblock : ι → Bool}

theorem Step.ok {m : LockMode} {p : ι} {f f' : FileLocks ι} {op : Op} {x y : Pc}
    (hs : Step m p f op x f' y) (hok : f.Ok) (h : Local m p f x) :
    f'.Ok ∧ FileLocks.Others p f f' := by
  have hnone : ∀ d, ∀ m' ∈ (none : Option LockMode), f.Grants d m' := by
    intro d m' hm'
    cases hm'
  cases hs with
  | move => exact ⟨hok, ⟨fun _ _ _ => rfl, fun _ _ _ _ => rfl⟩⟩
  | openFile | open1 | open2 | open2Lost => exact ⟨hok.openFile p, hok.openFile_others p⟩
  | flock hg | lock1 hg | lock2 hg =>
    refine hok.setMode (h.pos (by simp [Pc.fds, openFds])) ?_
    rintro m' ⟨⟩
    exact hg
  | unlock | unlock3 => exact hok.setMode (h.pos (by simp [Pc.fds, openFds])) (hnone _)
  | dup => exact hok.dup (h.pos List.mem_cons_self)
  | close | close1 | closing => exact hok.close (h.pos List.mem_cons_self)
  | exit => exact ⟨hok.exit p, hok.exit_others p⟩

theorem inv_invariant : (system mode nonblock).Invariant (Inv mode) := by
  apply interleave_invariant
  · refine ⟨FileLocks.ok_unopened, fun p => ⟨?_, fun _ _ _ => rfl, trivial⟩⟩
    intro d hd
    cases hd
  · intro p op f pc f' y h hs
    have hstep := step_cases hs
    obtain ⟨hok, hothers⟩ := hstep.ok h.ok (h.here p)
    refine ⟨hok, (Function.forall_update_iff pc fun q x => Local (mode q) q f' x).2 ⟨?_, ?_⟩⟩
    · exact (h.here p).step h.ok hstep
    · intro q hq
      exact (h.here q).others hothers hq

/-- **The lock keeps the processes out**, in every run. Two open file descriptions that are locked
are locked in shared mode, and a process that sleeps has its lock, so with an exclusive one it sleeps
alone. When all processes have ended, nothing is locked. -/
theorem sleeps_alone {tr : List (ι × Op)} {w : Threads ι (FileLocks ι) Pc}
    (h : (system mode nonblock).Run tr w) :
    (∀ d d' m m', d ≠ d' → (w.shared.object d).mode = some m →
      (w.shared.object d').mode = some m' → m = .shared ∧ m' = .shared) ∧
      (∀ p q fd fd', w.pc p = .sleep fd → mode p = .exclusive → w.pc q = .sleep fd' → q = p) ∧
      ((∀ p, w.pc p = .ended) → ∀ d, (w.shared.object d).mode = none) := by
  have hinv := inv_invariant.run h
  refine ⟨hinv.ok.coherent, ?_, ?_⟩
  · intro p q fd fd' hp hm hq
    have hlock : ∀ r d, w.pc r = .sleep d →
        (w.shared.object d).mode = some (mode r) ∧ 0 < (w.shared.object d).refs r := by
      intro r d hr
      have hr' := hinv.here r
      rw [hr] at hr'
      exact ⟨hr'.knows, hr'.pos (List.mem_singleton_self d)⟩
    obtain ⟨hpm, hprefs⟩ := hlock p fd hp
    obtain ⟨hqm, hqrefs⟩ := hlock q fd' hq
    rw [hm] at hpm
    have hfd : fd' = fd := hinv.ok.coherent.eq_of_exclusive hpm hqm
    rw [hfd] at hqrefs
    exact hinv.ok.owner fd q p hqrefs hprefs
  · intro hend d
    by_contra hne
    obtain ⟨p, hp⟩ := hinv.ok.held d hne
    have hp' := hinv.here p
    rw [hend p] at hp'
    exact hne (hp'.lost d hp (List.not_mem_nil))

/-- **When `fd2` gets its lock**, in every run. A process is at the lock of `fd2`. The kernel grants it
if and only if the process has given up the lock of `fd1`, by the unlock of the duplicate or by closing
all of its descriptors, and no other process has a lock. -/
theorem second_lock_iff {tr : List (ι × Op)} {w : Threads ι (FileLocks ι) Pc}
    (h : (system mode nonblock).Run tr w) {p : ι} {c : Call} {cs : List Call}
    {fd1 fd3 : Option ℕ} {fd2 : ℕ} {u : Bool} (hp : w.pc p = .lock2 c cs fd1 fd2 fd3 u) :
    ((step mode nonblock p .lock w.shared (w.pc p)).isSome = true ↔
      (u = true ∨ c.testClose = true ∧ fd3 = none) ∧
        ∀ q d, q ≠ p → 0 < (w.shared.object d).refs q → (w.shared.object d).mode = none) ∧
      (u = true → c.testDup = true) := by
  have hinv := inv_invariant.run h
  have hlocal := hinv.here p
  rw [hp] at hlocal
  obtain ⟨h1, h2, hclose, hdup, hu⟩ := hlocal.knows
  have hstep : (step mode nonblock p .lock w.shared (w.pc p)).isSome = true ↔
      w.shared.Grants fd2 .exclusive := by
    rw [hp]
    show (if w.shared.Grants fd2 .exclusive then some _ else none).isSome = true ↔ _
    split_ifs with hg <;> simp [hg]
  have hgrants : w.shared.Grants fd2 .exclusive ↔
      ∀ d, d ≠ fd2 → (w.shared.object d).mode = none :=
    hinv.ok.grants_exclusive
  refine ⟨hstep.trans (hgrants.trans ⟨fun hall => ⟨?_, ?_⟩, ?_⟩), fun hu' => hdup (hu hu')⟩
  · by_contra hkept
    obtain ⟨hu', hopen⟩ := not_or.1 hkept
    obtain ⟨d, hd⟩ : ∃ d, d ∈ fd1.toList ++ fd3.toList := by
      cases fd1 with
      | some d => exact ⟨d, List.mem_append_left _ (List.mem_singleton_self d)⟩
      | none =>
        cases fd3 with
        | some d => exact ⟨d, List.mem_singleton_self d⟩
        | none => exact absurd ⟨hclose.1 rfl, rfl⟩ hopen
    have hlocked : (w.shared.object d).mode = Pc.lock1Mode u := (h1 d hd).2
    rw [hall d (h1 d hd).1, eq_false_of_ne_true hu'] at hlocked
    cases hlocked
  · intro q d hq hpos
    refine hall d ?_
    rintro rfl
    have hmine : 0 < (w.shared.object d).refs p := hlocal.pos (by simp [Pc.fds, openFds])
    exact hq (hinv.ok.owner d q p hpos hmine)
  · rintro ⟨hgiven, hothers⟩ d hd
    by_contra hne
    obtain ⟨q, hq⟩ := hinv.ok.held d hne
    by_cases hqp : q = p
    · subst hqp
      by_cases hfds : d ∈ fd1.toList ++ fd3.toList
      · have hlocked : (w.shared.object d).mode = Pc.lock1Mode u := (h1 d hfds).2
        rcases hgiven with rfl | ⟨hc, rfl⟩
        · exact hne hlocked
        · rw [hclose.2 hc] at hfds
          cases hfds
      · refine hne (hlocal.lost d hq ?_)
        simp only [Pc.fds, openFds, List.mem_append, List.mem_cons, not_or] at hfds ⊢
        exact ⟨hfds.1, hd, hfds.2⟩
    · exact hne (hothers q d hqp hq)

end Runs

/-- Process 0 asks for an exclusive lock, process 1 for a shared one. -/
def modes : Fin 2 → LockMode
  | 0 => .exclusive
  | 1 => .shared

/-- Process `q` waits for process `p`. -/
def inTurn (p q : ι) : List (ι × Op) :=
  [(p, .openFile true), (q, .openFile true), (p, .lock), (p, .wake), (p, .unlock true), (q, .lock)]

/-- Process `p` gets to the lock of `fd2` in its second call of `_otherTest`. -/
def dupTest (p q : ι) : List (ι × Op) :=
  [(q, .wake), (q, .unlock true), (q, .close), (p, .close), (p, .openFile true),
    (p, .openFile true), (p, .lock), (p, .refused), (p, .close), (p, .close), (p, .openFile true),
    (p, .openFile true), (p, .lock), (p, .dup true), (p, .unlock true)]

theorem sleeps_alone_inTurn :
    ∃ w, (system modes fun _ => false).Run (inTurn 0 1) w ∧ w.pc 1 = .sleep 1 ∧
      (w.shared.object 0).mode ≠ some .exclusive := by
  obtain ⟨w, hw, hp⟩ := exists_run_of_exec ⟨.unopened, fun _ => Pc.openFile⟩
    (next (step modes fun _ => false)) (inTurn 0 1)
    (fun w => decide (w.pc 1 = .sleep 1 ∧ (w.shared.object 1).mode = some .shared)) (by decide)
  obtain ⟨hpc, hm⟩ := of_decide_eq_true hp
  refine ⟨w, hw, hpc, fun h => ?_⟩
  exact absurd ((sleeps_alone hw).1 0 1 _ _ (by decide) h hm).1 (by decide)

theorem second_lock_iff_dup :
    ∃ w, (system modes fun _ => false).Run (inTurn 0 1 ++ dupTest 0 1) w ∧
      (step modes (fun _ => false) 0 .lock w.shared (w.pc 0)).isSome = true := by
  obtain ⟨w, hw, hp⟩ := exists_run_of_exec ⟨.unopened, fun _ => Pc.openFile⟩
    (next (step modes fun _ => false)) (inTurn 0 1 ++ dupTest 0 1)
    (fun w => decide (w.pc 0 = .lock2 ⟨true, false⟩ [⟨false, true⟩] (some 4) 5 (some 4) true ∧
      w.shared.fresh = 6 ∧ ∀ d : Fin 6, (w.shared.object d).mode = none)) (by decide)
  obtain ⟨hpc, hfresh, hnone⟩ := of_decide_eq_true hp
  refine ⟨w, hw, (second_lock_iff hw hpc).1.2 ⟨Or.inl rfl, ?_⟩⟩
  intro q d _ hpos
  have hd : d < w.shared.fresh := (inv_invariant.run hw).ok.fresh d q hpos
  exact hnone ⟨d, hfresh ▸ hd⟩

end LinuxDemo.FlockProcesses
