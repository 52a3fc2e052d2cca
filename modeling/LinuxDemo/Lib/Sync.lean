import LinuxDemo.Lib.Lts
import Mathlib.Data.Finset.Insert
import Mathlib.Data.Finset.Erase

/-!
# Synchronisation objects

`Monitor`: the POSIX operations on a mutex and a condition variable that is always used with
it, over an arbitrary type of threads. A thread inside `pthread_cond_wait` is *asleep* while it
is in `sleepers`; once it has been taken out, by a signal or spuriously, it competes for the
mutex with every other caller.

`countingSemaphore`: the atomic counting semaphore, as a specification.
-/

namespace LinuxDemo

/-! ## A mutex with one condition variable -/

/-- The owner of the mutex and the threads asleep on the condition variable. -/
structure Monitor (τ : Type*) where
  owner : Option τ
  sleepers : Finset τ
  deriving DecidableEq

namespace Monitor

variable {τ : Type*} [DecidableEq τ]

/-- A freshly initialised mutex and condition variable. -/
def fresh : Monitor τ := ⟨none, ∅⟩

/-- `pthread_mutex_lock` returns: possible only when the mutex is free. -/
def lock (m : Monitor τ) (t : τ) : Option (Monitor τ) :=
  if m.owner = none then some { m with owner := some t } else none

/-- `pthread_mutex_unlock`. -/
def unlock (m : Monitor τ) : Monitor τ := { m with owner := none }

/-- `pthread_cond_wait` is entered: the mutex is released and the thread goes to sleep, in one
step. -/
def wait (m : Monitor τ) (t : τ) : Monitor τ := ⟨none, insert t m.sleepers⟩

/-- `pthread_cond_wait` returns: the thread has been woken and takes the mutex again. -/
def relock (m : Monitor τ) (t : τ) : Option (Monitor τ) :=
  if t ∈ m.sleepers then none else m.lock t

/-- A spurious wake-up of `t`. -/
def wake (m : Monitor τ) (t : τ) : Option (Monitor τ) :=
  if t ∈ m.sleepers then some { m with sleepers := m.sleepers.erase t } else none

/-- `pthread_cond_signal`: wakes some sleeper `u`, and nobody when nobody sleeps. -/
def signal (m : Monitor τ) : Option τ → Option (Monitor τ)
  | some u => m.wake u
  | none => if m.sleepers = ∅ then some m else none

omit [DecidableEq τ] in
theorem lock_eq_some {m m' : Monitor τ} {t : τ} :
    m.lock t = some m' ↔ m.owner = none ∧ m' = { m with owner := some t } := by
  unfold lock
  split_ifs with h <;> simp [h, eq_comm]

theorem relock_eq_some {m m' : Monitor τ} {t : τ} :
    m.relock t = some m' ↔
      t ∉ m.sleepers ∧ m.owner = none ∧ m' = { m with owner := some t } := by
  unfold relock
  split_ifs with h <;> simp [h, lock_eq_some]

theorem wake_eq_some {m m' : Monitor τ} {t : τ} :
    m.wake t = some m' ↔ t ∈ m.sleepers ∧ m' = { m with sleepers := m.sleepers.erase t } := by
  unfold wake
  split_ifs with h <;> simp [h, eq_comm]

/-- A signal touches nothing but the sleepers: either nobody slept, or exactly one sleeper is
taken out. -/
theorem signal_eq_some {m m' : Monitor τ} {u : Option τ} :
    m.signal u = some m' ↔
      (u = none ∧ m.sleepers = ∅ ∧ m' = m) ∨
      ∃ w, u = some w ∧ w ∈ m.sleepers ∧ m' = { m with sleepers := m.sleepers.erase w } := by
  cases u with
  | none =>
    unfold signal
    split_ifs with h <;> simp [h, eq_comm]
  | some w => simp [signal, wake_eq_some]

end Monitor

/-! ## The atomic counting semaphore -/

/-- `p` takes a unit, `v` gives one. -/
inductive SemAct where
  | p
  | v
  deriving DecidableEq

/-- A semaphore that starts with `k` units. `p` is enabled only while there is a unit. -/
def countingSemaphore (k : ℕ) : Lts ℕ SemAct where
  init n := n = k
  step n a n' :=
    match a with
    | .p => n = n' + 1
    | .v => n' = n + 1

/-- The value is the initial one, plus the units given, minus the units taken. -/
theorem countingSemaphore_value {k n : ℕ} {tr : List SemAct} (h : (countingSemaphore k).Run tr n) :
    n + tr.count .p = k + tr.count .v := by
  refine Lts.Run.induct (I := fun tr n => n + tr.count .p = k + tr.count .v) ?_ ?_ h
  · rintro n rfl
    simp
  · intro tr n a n' ih hs
    cases a with
    | p =>
      have : n = n' + 1 := hs
      simp only [List.count_append, List.count_singleton_self, List.count_singleton,
        beq_iff_eq, reduceCtorEq, if_false]
      omega
    | v =>
      have : n' = n + 1 := hs
      simp only [List.count_append, List.count_singleton_self, List.count_singleton,
        beq_iff_eq, reduceCtorEq, if_false]
      omega

end LinuxDemo
