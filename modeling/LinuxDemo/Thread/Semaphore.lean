import LinuxDemo.Lib.Sync
import Mathlib.Algebra.Ring.Nat

/-!
# The semaphore of `thread/semaphore/sem.c`

A counting semaphore built from a process-shared mutex, a condition variable `nonzero` and an
`unsigned count`. This file has the code of `semaphore_wait` and `semaphore_post`, one step for
each statement, and the system of unboundedly many threads that call them on one initialised
`semaphore_t`, in any order and any interleaving.

* `Inv`: who is inside the mutex, who sleeps, and what the tests of `count` have established.
* `semaphore_refines`: the implementation refines an atomic counting semaphore.
* `no_lost_wakeup`: no unit is left beside a sleeper as long as every `semaphore_post` that finds
  `count != 0` finds nobody asleep; `post` signals on the transition from 0 only, so without that
  condition a wake-up can be lost (`lost_wakeup`).
-/

namespace LinuxDemo.Semaphore

open Lts

/-- A thread (or a process: the mutex and the condition variable are process-shared). -/
abbrev Tid := ℕ

/-- `struct semaphore` of `sem.h`: `mon` is the pair `lock`, `nonzero`. -/
structure Sem where
  mon : Monitor Tid
  count : BitVec 32
  deriving DecidableEq

/-- A `semaphore_t` as `semaphore_create` leaves it: "init count is 1". -/
def Sem.fresh : Sem := ⟨.fresh, 1⟩

/-- The statement a thread executes next. -/
inductive Pc where
  /-- In neither function. -/
  | out
  /-- `pthread_mutex_lock` of `semaphore_wait`. -/
  | waitLock
  /-- `while (sem->count == 0)`. -/
  | waitTest
  /-- About to call `pthread_cond_wait`. -/
  | waitSleep
  /-- Inside `pthread_cond_wait`, asleep or woken. -/
  | condWait
  /-- `sem->count--`. -/
  | waitDec
  | waitUnlock
  /-- `pthread_mutex_lock` of `semaphore_post`. -/
  | postLock
  /-- `if (sem->count == 0)`. -/
  | postTest
  /-- `pthread_cond_signal`. -/
  | postSignal
  /-- `sem->count++`. -/
  | postInc
  | postUnlock
  deriving DecidableEq

/-- What a thread does in one step. -/
inductive Op where
  | callWait
  | waitLock
  | waitTest
  | condWait
  /-- A wake-up that no signal asked for. -/
  | spurious
  | condReturn
  | dec
  | waitUnlock
  | callPost
  | postLock
  | postTest
  /-- `pthread_cond_signal`, with the thread it wakes. -/
  | signal (u : Option Tid)
  | inc
  | postUnlock
  deriving DecidableEq

/-- Thread `t`, at a statement of `semaphore_wait` or `semaphore_post`, executes `op`. -/
def step (t : Tid) (op : Op) (s : Sem) (pc : Pc) : Option (Sem × Pc) :=
  match op, pc with
  | .callWait, .out => some (s, .waitLock)
  | .waitLock, .waitLock => (s.mon.lock t).map fun m => ({ s with mon := m }, .waitTest)
  | .waitTest, .waitTest => some (s, if s.count = 0 then .waitSleep else .waitDec)
  | .condWait, .waitSleep => some ({ s with mon := s.mon.wait t }, .condWait)
  | .spurious, .condWait => (s.mon.wake t).map fun m => ({ s with mon := m }, .condWait)
  -- The thread holds the mutex again and goes back to the test of the `while`.
  | .condReturn, .condWait => (s.mon.relock t).map fun m => ({ s with mon := m }, .waitTest)
  | .dec, .waitDec => some ({ s with count := s.count - 1 }, .waitUnlock)
  | .waitUnlock, .waitUnlock => some ({ s with mon := s.mon.unlock }, .out)
  | .callPost, .out => some (s, .postLock)
  | .postLock, .postLock => (s.mon.lock t).map fun m => ({ s with mon := m }, .postTest)
  | .postTest, .postTest => some (s, if s.count = 0 then .postSignal else .postInc)
  | .signal u, .postSignal => (s.mon.signal u).map fun m => ({ s with mon := m }, .postInc)
  | .inc, .postInc => some ({ s with count := s.count + 1 }, .postUnlock)
  | .postUnlock, .postUnlock => some ({ s with mon := s.mon.unlock }, .out)
  | _, _ => none

/-- Everything a step of `semaphore_wait` and `semaphore_post` can do. -/
inductive Step (t : Tid) : Op → Sem → Pc → Sem → Pc → Prop
  | callWait {s : Sem} : Step t .callWait s .out s .waitLock
  | waitLock {s : Sem} (h : s.mon.owner = none) :
      Step t .waitLock s .waitLock { s with mon := { s.mon with owner := some t } } .waitTest
  | waitTestZero {s : Sem} (h : s.count = 0) : Step t .waitTest s .waitTest s .waitSleep
  | waitTestPos {s : Sem} (h : s.count ≠ 0) : Step t .waitTest s .waitTest s .waitDec
  | condWait {s : Sem} :
      Step t .condWait s .waitSleep { s with mon := ⟨none, insert t s.mon.sleepers⟩ } .condWait
  | spurious {s : Sem} (h : t ∈ s.mon.sleepers) :
      Step t .spurious s .condWait
        { s with mon := { s.mon with sleepers := s.mon.sleepers.erase t } } .condWait
  | condReturn {s : Sem} (hs : t ∉ s.mon.sleepers) (h : s.mon.owner = none) :
      Step t .condReturn s .condWait { s with mon := { s.mon with owner := some t } } .waitTest
  | dec {s : Sem} : Step t .dec s .waitDec { s with count := s.count - 1 } .waitUnlock
  | waitUnlock {s : Sem} :
      Step t .waitUnlock s .waitUnlock { s with mon := { s.mon with owner := none } } .out
  | callPost {s : Sem} : Step t .callPost s .out s .postLock
  | postLock {s : Sem} (h : s.mon.owner = none) :
      Step t .postLock s .postLock { s with mon := { s.mon with owner := some t } } .postTest
  | postTestZero {s : Sem} (h : s.count = 0) : Step t .postTest s .postTest s .postSignal
  | postTestPos {s : Sem} (h : s.count ≠ 0) : Step t .postTest s .postTest s .postInc
  | signalNone {s : Sem} (h : s.mon.sleepers = ∅) : Step t (.signal none) s .postSignal s .postInc
  | signalSome {s : Sem} {u : Tid} (h : u ∈ s.mon.sleepers) :
      Step t (.signal (some u)) s .postSignal
        { s with mon := { s.mon with sleepers := s.mon.sleepers.erase u } } .postInc
  | inc {s : Sem} : Step t .inc s .postInc { s with count := s.count + 1 } .postUnlock
  | postUnlock {s : Sem} :
      Step t .postUnlock s .postUnlock { s with mon := { s.mon with owner := none } } .out

theorem step_cases {t : Tid} {op : Op} {s s' : Sem} {pc pc' : Pc}
    (h : step t op s pc = some (s', pc')) : Step t op s pc s' pc' := by
  unfold step at h
  split at h <;> simp only [Option.map_eq_some_iff, Option.some.injEq, Prod.mk.injEq,
    reduceCtorEq] at h
  case h_1 => obtain ⟨rfl, rfl⟩ := h; exact .callWait
  case h_2 =>
    obtain ⟨m, hm, rfl, rfl⟩ := h
    obtain ⟨ho, rfl⟩ := Monitor.lock_eq_some.1 hm
    exact .waitLock ho
  case h_3 =>
    obtain ⟨rfl, rfl⟩ := h
    split_ifs with hc
    · exact .waitTestZero hc
    · exact .waitTestPos hc
  case h_4 => obtain ⟨rfl, rfl⟩ := h; exact .condWait
  case h_5 =>
    obtain ⟨m, hm, rfl, rfl⟩ := h
    obtain ⟨hs, rfl⟩ := Monitor.wake_eq_some.1 hm
    exact .spurious hs
  case h_6 =>
    obtain ⟨m, hm, rfl, rfl⟩ := h
    obtain ⟨hs, ho, rfl⟩ := Monitor.relock_eq_some.1 hm
    exact .condReturn hs ho
  case h_7 => obtain ⟨rfl, rfl⟩ := h; exact .dec
  case h_8 => obtain ⟨rfl, rfl⟩ := h; exact .waitUnlock
  case h_9 => obtain ⟨rfl, rfl⟩ := h; exact .callPost
  case h_10 =>
    obtain ⟨m, hm, rfl, rfl⟩ := h
    obtain ⟨ho, rfl⟩ := Monitor.lock_eq_some.1 hm
    exact .postLock ho
  case h_11 =>
    obtain ⟨rfl, rfl⟩ := h
    split_ifs with hc
    · exact .postTestZero hc
    · exact .postTestPos hc
  case h_12 =>
    obtain ⟨m, hm, rfl, rfl⟩ := h
    rcases Monitor.signal_eq_some.1 hm with ⟨rfl, hs, rfl⟩ | ⟨w, rfl, hs, rfl⟩
    · exact .signalNone hs
    · exact .signalSome hs
  case h_13 => obtain ⟨rfl, rfl⟩ := h; exact .inc
  case h_14 => obtain ⟨rfl, rfl⟩ := h; exact .postUnlock

/-! ## What one step does -/

/-- The statements executed with the mutex held. -/
def Pc.holds : Pc → Bool
  | .waitTest | .waitSleep | .waitDec | .waitUnlock => true
  | .postTest | .postSignal | .postInc | .postUnlock => true
  | _ => false

/-- What the last test has shown of `count` to the thread that stands at a statement. -/
def Pc.Knows (c : BitVec 32) : Pc → Prop
  | .waitDec => c ≠ 0
  | .waitSleep | .postSignal => c = 0
  | _ => True

/-- Only a thread inside the mutex knows anything about `count`. -/
theorem Pc.knows_of_not_holds {pc : Pc} (h : pc.holds = false) (c : BitVec 32) : pc.Knows c := by
  cases pc <;> trivial

section Step

variable {t : Tid} {op : Op} {s s' : Sem} {pc pc' : Pc}

/-- A step keeps the mutex as it is, takes it when it is free, or gives it back. -/
theorem Step.mutex (h : Step t op s pc s' pc') :
    (pc'.holds = pc.holds ∧ s'.mon.owner = s.mon.owner) ∨
    (s.mon.owner = none ∧ s'.mon.owner = some t ∧ pc'.holds = true) ∨
    (pc.holds = true ∧ s'.mon.owner = none ∧ pc'.holds = false) := by
  cases h <;> simp [Pc.holds, *]

/-- `count` changes only under the mutex. -/
theorem Step.count_eq (h : Step t op s pc s' pc') (hh : pc.holds = false) :
    s'.count = s.count := by
  cases h <;> first | rfl | simp [Pc.holds] at hh

/-- A step puts nobody to sleep but its own thread. -/
theorem Step.sleepers_sub (h : Step t op s pc s' pc') {u : Tid} (hu : u ∈ s'.mon.sleepers) :
    u ∈ s.mon.sleepers ∨ (u = t ∧ pc = .waitSleep ∧ pc' = .condWait) := by
  cases h <;> simp_all [or_comm]

/-- Somebody sleeps already, unless this step puts a thread to sleep. -/
theorem Step.sleepers_nonempty (h : Step t op s pc s' pc') (hpc : pc ≠ .waitSleep)
    (hn : s'.mon.sleepers.Nonempty) : s.mon.sleepers.Nonempty := by
  obtain ⟨u, hu⟩ := hn
  rcases h.sleepers_sub hu with hold | ⟨-, hp, -⟩
  · exact ⟨u, hold⟩
  · exact absurd hp hpc

/-- A thread that stays asleep stays in `pthread_cond_wait`. -/
theorem Step.of_asleep (h : Step t op s pc s' pc') (hpc : pc = .condWait)
    (ht : t ∈ s'.mon.sleepers) : pc' = .condWait := by
  cases h <;> simp_all

theorem Step.knows (h : Step t op s pc s' pc') : pc'.Knows s'.count := by
  cases h <;> trivial

end Step

/-! ## Threads on one semaphore -/

/-- One semaphore and the statement each thread stands at. -/
structure State where
  sem : Sem
  pc : Tid → Pc

/-- Thread `e.1` executes `e.2`. -/
def next (s : State) (e : Tid × Op) : Option State :=
  (step e.1 e.2 s.sem (s.pc e.1)).map fun r => ⟨r.1, Function.update s.pc e.1 r.2⟩

/-- All threads outside, on a semaphore just created. -/
def start : State := ⟨.fresh, fun _ => .out⟩

/-- Any number of threads call `semaphore_wait` and `semaphore_post` in any order. -/
def system : Lts State (Tid × Op) := ofNext start next

theorem next_cases {s s' : State} {t : Tid} {op : Op} (h : next s (t, op) = some s') :
    ∃ sem' pc', Step t op s.sem (s.pc t) sem' pc' ∧ s' = ⟨sem', Function.update s.pc t pc'⟩ := by
  simp only [next, Option.map_eq_some_iff] at h
  obtain ⟨⟨sem', pc'⟩, hr, rfl⟩ := h
  exact ⟨sem', pc', step_cases hr, rfl⟩

/-- The mutex is held exactly by the thread between its lock and its unlock, only threads in
`pthread_cond_wait` sleep, and `count` is still what the last test found it to be. -/
structure Inv (s : State) : Prop where
  owner : ∀ t, (s.pc t).holds = true ↔ s.sem.mon.owner = some t
  asleep : ∀ t ∈ s.sem.mon.sleepers, s.pc t = .condWait
  knows : ∀ t, (s.pc t).Knows s.sem.count

theorem inv_start : Inv start where
  owner t := by simp [start, Pc.holds, Sem.fresh, Monitor.fresh]
  asleep t h := by simp [start, Sem.fresh, Monitor.fresh] at h
  knows t := trivial

/-- While one thread is inside the mutex, no other thread is. -/
theorem Inv.holds_unique {s : State} (h : Inv s) {t u : Tid} (ht : (s.pc t).holds = true)
    (hu : (s.pc u).holds = true) : u = t := by
  have := (h.owner u).1 hu
  rw [(h.owner t).1 ht] at this
  exact (Option.some.inj this).symm

/-- While one thread is inside the mutex, the step of another leaves `count` alone. -/
theorem Inv.count_eq {s : State} (h : Inv s) {t u : Tid} {op : Op} {sem' : Sem} {pc' : Pc}
    (hs : Step t op s.sem (s.pc t) sem' pc') (hne : u ≠ t) (hu : (s.pc u).holds = true) :
    sem'.count = s.sem.count :=
  hs.count_eq (Bool.eq_false_iff.2 fun ht => hne (h.holds_unique ht hu))

theorem inv_step {s : State} {t : Tid} {op : Op} {sem' : Sem} {pc' : Pc} (h : Inv s)
    (hs : Step t op s.sem (s.pc t) sem' pc') : Inv ⟨sem', Function.update s.pc t pc'⟩ where
  owner u := by
    show (Function.update s.pc t pc' u).holds = true ↔ sem'.mon.owner = some u
    by_cases hut : u = t
    · subst hut
      have hu := h.owner u
      rcases hs.mutex with ⟨hp, ho⟩ | ⟨-, ho, hp⟩ | ⟨-, ho, hp⟩ <;> simp [hp, ho, hu]
    · have hu := h.owner u
      have ht := h.owner t
      rw [Function.update_of_ne hut]
      -- Another thread keeps the mutex, or nobody but `t` had or has it.
      rcases hs.mutex with ⟨-, ho⟩ | ⟨hf, ho, -⟩ | ⟨hp, ho, -⟩
      · rw [ho, hu]
      · rw [hu, hf, ho]
        simp [Ne.symm hut]
      · rw [hu, ht.1 hp, ho]
        simp [Ne.symm hut]
  asleep u hu := by
    show Function.update s.pc t pc' u = .condWait
    by_cases hut : u = t
    · subst hut
      rw [Function.update_self]
      rcases hs.sleepers_sub hu with hold | ⟨-, -, hp⟩
      · exact hs.of_asleep (h.asleep u hold) hu
      · exact hp
    · rw [Function.update_of_ne hut]
      rcases hs.sleepers_sub hu with hold | ⟨he, -, -⟩
      · exact h.asleep u hold
      · exact absurd he hut
  knows u := by
    show (Function.update s.pc t pc' u).Knows sem'.count
    by_cases hut : u = t
    · subst hut
      rw [Function.update_self]
      exact hs.knows
    · rw [Function.update_of_ne hut]
      by_cases hh : (s.pc u).holds = true
      · rw [h.count_eq hs hut hh]
        exact h.knows u
      · exact Pc.knows_of_not_holds (Bool.eq_false_iff.2 hh) _

theorem inv_invariant : system.Invariant Inv where
  init s h := by rw [h]; exact inv_start
  step s e s' h hs := by
    obtain ⟨sem', pc', hst, rfl⟩ := next_cases hs
    exact inv_step h hst

/-! ## Refinement of the atomic counting semaphore -/

/-- `sem->count--` is the abstract P and `sem->count++` the abstract V; nothing else shows. -/
def visible : Tid × Op → Option SemAct
  | (_, .dec) => some .p
  | (_, .inc) => some .v
  | _ => none

/-- Calls of `semaphore_wait` that have returned. -/
def completedWaits (tr : List (Tid × Op)) : ℕ := tr.countP fun e => e.2 = .waitUnlock

/-- Calls of `semaphore_post` that have returned. -/
def completedPosts (tr : List (Tid × Op)) : ℕ := tr.countP fun e => e.2 = .postUnlock

theorem visible_eq_p {e : Tid × Op} : visible e = some .p ↔ e.2 = .dec := by
  obtain ⟨t, op⟩ := e
  cases op <;> simp [visible]

theorem visible_eq_v {e : Tid × Op} : visible e = some .v ↔ e.2 = .inc := by
  obtain ⟨t, op⟩ := e
  cases op <;> simp [visible]

/-- The abstract value is `count`, modulo the width of `unsigned`. A thread that has done its
`sem->count++` and still holds the mutex has left a unit behind. -/
structure Abs (s : State) (v : ℕ) : Prop where
  inv : Inv s
  count : s.sem.count = BitVec.ofNat 32 v
  unit : ∀ t, s.pc t = .postUnlock → 0 < v

theorem ofNat_sub_one {v : ℕ} : BitVec.ofNat 32 (v + 1) - 1 = BitVec.ofNat 32 v := by
  rw [BitVec.ofNat_add]
  exact BitVec.add_sub_cancel _ _

/-- What a step does to `count`, by what it shows. -/
theorem Step.count_visible {t : Tid} {op : Op} {s s' : Sem} {pc pc' : Pc}
    (h : Step t op s pc s' pc') :
    match visible (t, op) with
    | none => s'.count = s.count ∧ pc' ≠ .postUnlock
    | some .p => pc = .waitDec ∧ s'.count = s.count - 1 ∧ pc' ≠ .postUnlock
    | some .v => pc = .postInc ∧ s'.count = s.count + 1 := by
  cases h <;> simp [visible]

/-- A thread found at `q`, where the step did not lead, is another one and stood there before. -/
theorem of_update {pc : Tid → Pc} {t u : Tid} {pc' q : Pc} (hp : pc' ≠ q)
    (hu : Function.update pc t pc' u = q) : u ≠ t ∧ pc u = q := by
  by_cases hut : u = t
  · subst hut
    exact absurd (by simpa using hu) hp
  · exact ⟨hut, by simpa [Function.update_of_ne hut] using hu⟩

theorem abs_simulation : Simulation system (countingSemaphore 1) visible Abs where
  init s h := by
    refine ⟨1, rfl, ?_⟩
    rw [h]
    exact ⟨inv_start, rfl, fun t ht => by cases ht⟩
  step s e s' v h hs := by
    obtain ⟨t, op⟩ := e
    obtain ⟨sem', pc', hst, rfl⟩ := next_cases hs
    have hinv := inv_step h.inv hst
    have hc := hst.count_visible
    cases hv : visible (t, op) with
    | none =>
      rw [hv] at hc
      exact ⟨hinv, hc.1.trans h.count, fun u hu => h.unit u (of_update hc.2 hu).2⟩
    | some a =>
      rw [hv] at hc
      cases a with
      | p =>
        obtain ⟨hpc, hcount, hp⟩ := hc
        -- The test of the `while` saw `count != 0`, and nobody changed it since.
        have hne : s.sem.count ≠ 0 := by simpa [hpc, Pc.Knows] using h.inv.knows t
        obtain ⟨w, rfl⟩ : ∃ w, v = w + 1 := by
          refine Nat.exists_eq_succ_of_ne_zero fun h0 => hne ?_
          rw [h.count, h0]
          rfl
        refine ⟨w, rfl, hinv, ?_, ?_⟩
        · show sem'.count = _
          rw [hcount, h.count, ofNat_sub_one]
        · intro u hu
          obtain ⟨hut, hu'⟩ := of_update hp hu
          refine absurd (h.inv.holds_unique (t := t) (u := u) ?_ ?_) hut
          · simp [hpc, Pc.holds]
          · simp [hu', Pc.holds]
      | v =>
        refine ⟨v + 1, rfl, hinv, ?_, fun _ _ => Nat.succ_pos v⟩
        show sem'.count = _
        rw [hc.2, h.count, BitVec.ofNat_add]
        rfl

/-! ## Completed calls -/

/-- One when the mutex is held by a thread at the statement `p`. -/
def inFlight (p : Pc) (s : State) : ℕ :=
  match s.sem.mon.owner with
  | some t => if s.pc t = p then 1 else 0
  | none => 0

theorem Inv.inFlight_eq {s : State} (h : Inv s) {p : Pc} {t : Tid}
    (ht : (s.pc t).holds = true) : inFlight p s = if s.pc t = p then 1 else 0 := by
  simp [inFlight, (h.owner t).1 ht]

/-- A step moves its own thread away from a statement and to another; the other threads stay
where they are. -/
theorem inFlight_step {s : State} (h : Inv s) {t : Tid} {op : Op} {sem' : Sem} {pc' p : Pc}
    (hs : Step t op s.sem (s.pc t) sem' pc') (hp : p.holds = true) :
    inFlight p ⟨sem', Function.update s.pc t pc'⟩ + (if s.pc t = p then 1 else 0) =
      inFlight p s + if pc' = p then 1 else 0 := by
  have hinv := inv_step h hs
  have hout : ∀ q : Pc, q.holds = false → (if q = p then 1 else 0) = 0 := by
    intro q hq
    rw [if_neg]
    intro heq
    subst heq
    simp [hp] at hq
  by_cases ht : (s.pc t).holds = true
  · rw [h.inFlight_eq ht]
    by_cases ht' : pc'.holds = true
    · rw [hinv.inFlight_eq (t := t) (by simpa using ht')]
      simp [Nat.add_comm]
    · have hfree : sem'.mon.owner = none := by
        rcases hs.mutex with ⟨hq, -⟩ | ⟨-, -, hq⟩ | ⟨-, ho, -⟩
        · exact absurd (hq.trans ht) ht'
        · exact absurd hq ht'
        · exact ho
      rw [hout pc' (Bool.eq_false_iff.2 ht')]
      simp [inFlight, hfree]
  · rw [hout (s.pc t) (Bool.eq_false_iff.2 ht)]
    rcases hs.mutex with ⟨hq, ho⟩ | ⟨hf, ho, -⟩ | ⟨hq, -, -⟩
    · rw [hout pc' (hq.trans (Bool.eq_false_iff.2 ht))]
      unfold inFlight
      rw [ho]
      cases hc : s.sem.mon.owner with
      | none => rfl
      | some u =>
        have hut : u ≠ t := by
          intro heq
          subst heq
          exact ht ((h.owner u).2 hc)
        simp [Function.update_of_ne hut]
    · simp [inFlight, hf, ho]
    · exact absurd hq ht

/-- The decrement leads to the unlock of `semaphore_wait`, the increment to that of
`semaphore_post`, and nothing else does. -/
theorem Step.unlock_iff {t : Tid} {op : Op} {s s' : Sem} {pc pc' : Pc}
    (h : Step t op s pc s' pc') :
    ((pc' = .waitUnlock ↔ op = .dec) ∧ (pc = .waitUnlock ↔ op = .waitUnlock)) ∧
      (pc' = .postUnlock ↔ op = .inc) ∧ (pc = .postUnlock ↔ op = .postUnlock) := by
  cases h <;> simp

/-- Every decrement belongs to a completed `semaphore_wait` or to the one in flight, and every
increment to a completed `semaphore_post` or to the one in flight. -/
structure Counted (tr : List (Tid × Op)) (s : State) : Prop where
  inv : Inv s
  waits : tr.countP (fun e => e.2 = .dec) = completedWaits tr + inFlight .waitUnlock s
  posts : tr.countP (fun e => e.2 = .inc) = completedPosts tr + inFlight .postUnlock s

theorem counted_run {tr : List (Tid × Op)} {s : State} (h : system.Run tr s) : Counted tr s := by
  refine Run.induct ?_ ?_ h
  · rintro s rfl
    exact ⟨inv_start, rfl, rfl⟩
  · rintro tr s ⟨t, op⟩ s' ⟨hinv, hw, hp⟩ hs
    obtain ⟨sem', pc', hst, rfl⟩ := next_cases hs
    have hW := inFlight_step (p := .waitUnlock) hinv hst rfl
    have hP := inFlight_step (p := .postUnlock) hinv hst rfl
    obtain ⟨⟨h1, h2⟩, h3, h4⟩ := hst.unlock_iff
    simp only [h1, h2] at hW
    simp only [h3, h4] at hP
    refine ⟨inv_step hinv hst, ?_, ?_⟩
    · simp only [completedWaits, List.countP_append, List.countP_singleton,
        decide_eq_true_eq] at hw ⊢
      omega
    · simp only [completedPosts, List.countP_append, List.countP_singleton,
        decide_eq_true_eq] at hp ⊢
      omega

/-- The visible trace has one P for each decrement and one V for each increment. -/
theorem count_visible (tr : List (Tid × Op)) :
    (tr.filterMap visible).count .p = tr.countP (fun e => e.2 = .dec) ∧
      (tr.filterMap visible).count .v = tr.countP (fun e => e.2 = .inc) := by
  constructor
  · rw [List.count_filterMap]
    exact List.countP_congr fun e _ => by simp [visible_eq_p]
  · rw [List.count_filterMap]
    exact List.countP_congr fun e _ => by simp [visible_eq_v]

/-- **Refinement.** Every run of the implementation is, on its decrements and increments, a run
of the atomic counting semaphore that starts with one unit; the abstract value is `count`
modulo `2 ^ 32`. Each further step is invisible or one abstract P or V. While the mutex is free
`count` is one plus the completed posts minus the completed waits, as long as that fits an
`unsigned`; the waits never get ahead of the posts by more than the initial unit, and the
decrement never finds `count = 0`. -/
theorem semaphore_refines {tr : List (Tid × Op)} {s : State} (h : system.Run tr s) :
    ∃ v, (countingSemaphore 1).Run (tr.filterMap visible) v ∧
      s.sem.count = BitVec.ofNat 32 v ∧
      (∀ e s', system.step s e s' →
        match visible e with
        | none => s'.sem.count = s.sem.count
        | some a => ∃ v', (countingSemaphore 1).step v a v' ∧
            s'.sem.count = BitVec.ofNat 32 v') ∧
      (s.sem.mon.owner = none → v + completedWaits tr = 1 + completedPosts tr) ∧
      (s.sem.mon.owner = none → 1 + completedPosts tr - completedWaits tr < 2 ^ 32 →
        s.sem.count.toNat + completedWaits tr = 1 + completedPosts tr) ∧
      completedWaits tr ≤ 1 + completedPosts tr ∧
      ∀ t s', system.step s (t, .dec) s' → s.sem.count ≠ 0 := by
  obtain ⟨v, hv, habs⟩ := abs_simulation.run h
  obtain ⟨hinv, hw, hp⟩ := counted_run h
  have hval := countingSemaphore_value hv
  rw [(count_visible tr).1, (count_visible tr).2, hw, hp] at hval
  have hfree : s.sem.mon.owner = none → v + completedWaits tr = 1 + completedPosts tr := by
    intro ho
    simpa [inFlight, ho] using hval
  refine ⟨v, hv, habs.count, ?_, hfree, ?_, ?_, ?_⟩
  · intro e s' hs
    have hstep := abs_simulation.step s e s' v habs hs
    cases he : visible e with
    | none =>
      rw [he] at hstep
      exact hstep.count.trans habs.count.symm
    | some a =>
      rw [he] at hstep
      obtain ⟨v', ha, habs'⟩ := hstep
      exact ⟨v', ha, habs'.count⟩
  · intro ho hlt
    have hv := hfree ho
    have : s.sem.count.toNat = v := by
      rw [habs.count, BitVec.toNat_ofNat]
      exact Nat.mod_eq_of_lt (by omega)
    omega
  · -- Only a post in flight could hide a unit, and then that unit is still there.
    cases ho : s.sem.mon.owner with
    | none =>
      have := hfree ho
      omega
    | some t =>
      simp only [inFlight, ho] at hval
      by_cases hpost : s.pc t = .postUnlock
      · have hunit := habs.unit t hpost
        rw [if_pos hpost, hpost, if_neg (by decide)] at hval
        omega
      · rw [if_neg hpost] at hval
        omega
  · intro t s' hs
    obtain ⟨sem', pc', hst, rfl⟩ := next_cases hs
    have hpc : s.pc t = .waitDec := hst.count_visible.1
    simpa [hpc, Pc.Knows] using hinv.knows t

/-- Thread 0 takes the unit, thread 1 falls asleep, thread 0 posts and wakes it. -/
def waitAndPost : List (Tid × Op) :=
  [(0, .callWait), (0, .waitLock), (1, .callWait), (0, .waitTest), (0, .dec), (0, .waitUnlock),
   (1, .waitLock), (1, .waitTest), (1, .condWait), (0, .callPost), (0, .postLock),
   (0, .postTest), (0, .signal (some 1)), (0, .inc), (0, .postUnlock)]

theorem semaphore_refines_waitAndPost :
    ∃ s, system.Run waitAndPost s ∧ s.sem.mon.owner = none ∧
      s.sem.count.toNat + completedWaits waitAndPost = 1 + completedPosts waitAndPost := by
  obtain ⟨s, hs, ho⟩ := exists_run_of_exec start next waitAndPost
    (fun s => s.sem.mon.owner = none) (by decide)
  obtain ⟨v, -, -, -, -, hcount, -⟩ := semaphore_refines hs
  have ho : s.sem.mon.owner = none := by simpa using ho
  exact ⟨s, hs, ho, hcount ho (by decide)⟩

/-! ## Wake-ups -/

/-- There is a unit and somebody sleeps, the mutex is free, and nobody but the sleepers is
inside `semaphore_wait` or `semaphore_post`. -/
def LostWakeup (s : State) : Prop :=
  s.sem.count ≠ 0 ∧ s.sem.mon.sleepers.Nonempty ∧ s.sem.mon.owner = none ∧
    ∀ t, s.pc t = .out ∨ t ∈ s.sem.mon.sleepers

/-- A thread that takes no step stays outside. -/
theorem pc_of_not_mem {tr : List (Tid × Op)} {s : State} (h : system.Run tr s) {t : Tid}
    (ht : ∀ e ∈ tr, e.1 ≠ t) : s.pc t = .out := by
  refine Run.induct (I := fun tr s => (∀ e ∈ tr, e.1 ≠ t) → s.pc t = .out) ?_ ?_ h ht
  · rintro s rfl -
    rfl
  · rintro tr s ⟨u, op⟩ s' ih hs ht
    obtain ⟨sem', pc', -, rfl⟩ := next_cases hs
    have hu : t ≠ u := Ne.symm (ht (u, op) (by simp))
    simpa [Function.update_of_ne hu] using ih fun e he => ht e (by simp [he])

/-- Threads 1 and 2 sleep; thread 0 posts twice before thread 1, woken by the first post, has
the mutex again. The second post finds `count = 1` and signals nobody. -/
def twoPosts : List (Tid × Op) :=
  [(0, .callWait), (0, .waitLock), (0, .waitTest), (0, .dec), (0, .waitUnlock),
   (1, .callWait), (1, .waitLock), (1, .waitTest), (1, .condWait),
   (2, .callWait), (2, .waitLock), (2, .waitTest), (2, .condWait),
   (0, .callPost), (0, .postLock), (0, .postTest), (0, .signal (some 1)), (0, .inc),
   (0, .postUnlock),
   (0, .callPost), (0, .postLock), (0, .postTest), (0, .inc), (0, .postUnlock),
   (1, .condReturn), (1, .waitTest), (1, .dec), (1, .waitUnlock)]

/-- **A wake-up is lost**: after `twoPosts` thread 2 sleeps beside a free unit. -/
theorem lost_wakeup : ∃ s, system.Reachable s ∧ LostWakeup s := by
  obtain ⟨s, hs, hp⟩ := exists_run_of_exec start next twoPosts
    (fun s => s.sem.count ≠ 0 ∧ s.sem.mon.sleepers = {2} ∧ s.sem.mon.owner = none ∧
      s.pc 0 = .out ∧ s.pc 1 = .out) (by decide)
  simp only [decide_eq_true_eq] at hp
  obtain ⟨hcount, hsleep, ho, h0, h1⟩ := hp
  refine ⟨s, ⟨twoPosts, hs⟩, hcount, by simp [hsleep], ho, ?_⟩
  intro (t : ℕ)
  rcases Nat.lt_or_ge 2 t with ht | ht
  · have hle : ∀ e ∈ twoPosts, e.1 ≤ 2 := by decide
    exact Or.inl (pc_of_not_mem hs fun e he => Nat.ne_of_lt ((hle e he).trans_lt ht))
  · obtain rfl | rfl | rfl : t = 0 ∨ t = 1 ∨ t = 2 := by omega
    · exact Or.inl h0
    · exact Or.inl h1
    · exact Or.inr (by simp [hsleep])

/-- The condition on `semaphore_post`: where it finds `count != 0`, and so does not signal,
nobody sleeps. -/
def SkipsNobody (s : State) (e : Tid × Op) : Prop :=
  e.2 = .postTest → s.sem.count ≠ 0 → s.sem.mon.sleepers = ∅

instance (s : State) (e : Tid × Op) : Decidable (SkipsNobody s e) :=
  inferInstanceAs (Decidable (_ → _ → _))

/-- A thread in `semaphore_wait` that was woken, or that holds the mutex and has not yet taken
its unit. -/
def Taker (s : State) (t : Tid) : Prop :=
  (s.pc t = .condWait ∧ t ∉ s.sem.mon.sleepers) ∨ s.pc t = .waitTest ∨ s.pc t = .waitDec

/-- While somebody sleeps there is at most one unit, a thread that will take it, and none about
to be added without a taker. -/
structure Awake (s : State) : Prop where
  taker : s.sem.mon.sleepers.Nonempty → s.sem.count ≠ 0 → s.sem.count = 1 ∧ ∃ t, Taker s t
  post : ∀ t, s.pc t = .postInc → s.sem.mon.sleepers.Nonempty →
    s.sem.count = 0 ∧ ∃ u, Taker s u

section Awake

variable {s : State} {t u : Tid} {op : Op} {sem' : Sem} {pc' : Pc}

/-- A step of another thread leaves a taker a taker. -/
theorem Taker.step_ne (h : Taker s u) (hs : Step t op s.sem (s.pc t) sem' pc') (hut : u ≠ t) :
    Taker ⟨sem', Function.update s.pc t pc'⟩ u := by
  simp only [Taker, Function.update_of_ne hut]
  rcases h with ⟨hp, hn⟩ | hp
  · refine Or.inl ⟨hp, ?_⟩
    intro hu
    rcases hs.sleepers_sub hu with hold | ⟨he, -, -⟩
    · exact hn hold
    · exact hut he
  · exact Or.inr hp

/-- Where there is a unit, a taker stays one until it takes it. -/
theorem Taker.step (h : Taker s u) (hs : Step t op s.sem (s.pc t) sem' pc')
    (hc : s.sem.count ≠ 0) (hd : op ≠ .dec) : Taker ⟨sem', Function.update s.pc t pc'⟩ u := by
  by_cases hut : u = t
  · subst hut
    simp only [Taker] at h ⊢
    generalize s.pc u = p at hs h
    cases hs <;> simp_all
  · exact h.step_ne hs hut

/-- With a sleeper and a unit at hand, the steps that keep both leave a taker behind. -/
theorem Awake.taker_step (hinv : Inv s) (h : Awake s)
    (hs : Step t op s.sem (s.pc t) sem' pc') (hn : sem'.mon.sleepers.Nonempty)
    (hc : sem'.count ≠ 0) :
    sem'.count = 1 ∧ ∃ u, Taker ⟨sem', Function.update s.pc t pc'⟩ u := by
  -- The two statements that change `count` first, then the one that puts a thread to sleep.
  by_cases hinc : op = .inc
  · subst hinc
    generalize hp : s.pc t = p at hs
    cases hs
    obtain ⟨h0, u, hu⟩ := h.post t hp hn
    have hut : u ≠ t := by
      intro heq
      subst heq
      simp [Taker, hp] at hu
    have hstep :
        Step t .inc s.sem (s.pc t) { s.sem with count := s.sem.count + 1 } .postUnlock := by
      rw [hp]
      exact .inc
    exact ⟨by simp [h0], u, hu.step_ne hstep hut⟩
  by_cases hdec : op = .dec
  · subst hdec
    generalize hp : s.pc t = p at hs
    cases hs
    have hne : s.sem.count ≠ 0 := by simpa [hp, Pc.Knows] using hinv.knows t
    exact absurd (by simp [(h.taker hn hne).1]) hc
  have hcount : sem'.count = s.sem.count := by
    have := hs.count_visible
    cases op <;> first | exact this.1 | exact absurd rfl hinc | exact absurd rfl hdec
  rw [hcount] at hc ⊢
  have hawake : s.pc t ≠ .waitSleep := by
    intro hp
    exact hc (by simpa [hp, Pc.Knows] using hinv.knows t)
  obtain ⟨h1, u, hu⟩ := h.taker (hs.sleepers_nonempty hawake hn) hc
  exact ⟨h1, u, hu.step hs hc hdec⟩

/-- A thread about to add a unit while somebody sleeps has signalled, so a taker exists. -/
theorem Awake.post_step (hinv : Inv s) (h : Awake s) (hG : SkipsNobody s (t, op))
    (hs : Step t op s.sem (s.pc t) sem' pc') {w : Tid}
    (hw : Function.update s.pc t pc' w = .postInc) (hn : sem'.mon.sleepers.Nonempty) :
    sem'.count = 0 ∧ ∃ u, Taker ⟨sem', Function.update s.pc t pc'⟩ u := by
  by_cases hwt : w = t
  · subst hwt
    have hpc : pc' = .postInc := by simpa using hw
    subst hpc
    generalize hp : s.pc w = p at hs
    cases hs with
    | postTestPos hc => exact absurd (hG rfl hc) hn.ne_empty
    | signalNone he => exact absurd he hn.ne_empty
    | @signalSome _ u hu =>
      have hu' := hinv.asleep u hu
      have hne : u ≠ w := by
        intro heq
        subst heq
        simp [hp] at hu'
      refine ⟨by simpa [hp, Pc.Knows] using hinv.knows w, u, Or.inl ⟨?_, by simp⟩⟩
      simpa [Function.update_of_ne hne] using hu'
  · have hw' : s.pc w = .postInc := by simpa [Function.update_of_ne hwt] using hw
    have hholds : (s.pc w).holds = true := by simp [hw', Pc.holds]
    have hout : (s.pc t).holds = false :=
      Bool.eq_false_iff.2 fun ht => hwt (hinv.holds_unique ht hholds)
    have howner := (hinv.owner w).1 hholds
    have hawake : s.pc t ≠ .waitSleep := by
      intro hp
      simp [hp, Pc.holds] at hout
    obtain ⟨h0, u, hu⟩ := h.post w hw' (hs.sleepers_nonempty hawake hn)
    refine ⟨(hs.count_eq hout).trans h0, u, hu.step_ne hs ?_⟩
    -- A taker is inside the mutex, or waits for it: it cannot move while `w` holds it.
    intro heq
    subst heq
    simp only [Taker] at hu
    generalize s.pc u = p at hs hu hout
    cases hs <;> simp_all [Pc.holds]

end Awake

theorem awake_invariant : (system.guard SkipsNobody).Invariant fun s => Inv s ∧ Awake s :=
  inv_invariant.guard_and
    (by
      rintro s rfl
      exact ⟨fun h => by simp [start, Sem.fresh, Monitor.fresh] at h, fun t ht => by cases ht⟩)
    (by
      rintro s ⟨t, op⟩ s' hinv h hs hG
      obtain ⟨sem', pc', hst, rfl⟩ := next_cases hs
      exact ⟨fun hn hc => h.taker_step hinv hst hn hc,
        fun w hw hn => h.post_step hinv hG hst hw hn⟩)

/-- **No lost wake-up**, as long as no `semaphore_post` skips its signal while a thread
sleeps. -/
theorem no_lost_wakeup {tr : List (Tid × Op)} {s : State}
    (h : (system.guard SkipsNobody).Run tr s) : ¬ LostWakeup s := by
  rintro ⟨hc, hn, -, hall⟩
  obtain ⟨hinv, hawake⟩ := awake_invariant.run h
  obtain ⟨-, t, ht⟩ := hawake.taker hn hc
  rcases hall t with hout | hsleep
  · simp [Taker, hout] at ht
  · simp [Taker, hinv.asleep t hsleep, hsleep] at ht

theorem no_lost_wakeup_waitAndPost :
    ∃ s, (system.guard SkipsNobody).Run waitAndPost s ∧ s.sem.count = 1 ∧ ¬ LostWakeup s := by
  obtain ⟨s, hs, hp⟩ := exists_guard_run_of_exec next (G := SkipsNobody) (fun _ _ h => h)
    (.init (rfl : start = start)) waitAndPost (fun s => s.sem.count = 1) (by decide)
  exact ⟨s, hs, by simpa using hp, no_lost_wakeup hs⟩

end LinuxDemo.Semaphore
