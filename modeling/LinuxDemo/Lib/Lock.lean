import Mathlib.Data.Nat.Notation
import Mathlib.Logic.Function.Basic
import Mathlib.Tactic.SplitIfs

/-!
# Locks

An exclusive lock as its clients see it: who may take it, and how often each thread has taken it
without giving it back. A call that would block has no result.

* `recursiveMutex`: a mutex whose owner may take it again.
* `spinLock`: a lock that is free or has an owner.
* `RwLock`, `rwLock`: a lock with one writer or any number of readers; taking it means taking it as
  the writer.
-/

namespace LinuxDemo

variable {τ : Type*} [DecidableEq τ]

/-- An exclusive lock with states `σ` for the threads `τ`. -/
structure Lock (τ σ : Type*) [DecidableEq τ] where
  /-- The lock before its first use. -/
  free : σ
  lock : τ → σ → Option σ
  unlock : τ → σ → Option σ
  /-- How many times a thread has the lock. -/
  holds : σ → τ → ℕ
  holds_free : ∀ t, holds free t = 0
  /-- A thread takes the lock when no other thread has it. -/
  lock_holds : ∀ {t s s'}, lock t s = some s' →
    (∀ u, u ≠ t → holds s u = 0) ∧ holds s' = Function.update (holds s) t (holds s t + 1)
  unlock_holds : ∀ {t s s'}, unlock t s = some s' → 0 < holds s t →
    holds s' = Function.update (holds s) t (holds s t - 1)

namespace Lock

/-! ## Recursive mutex -/

/-- Free, or the owner and how often it has taken the mutex after the first time. -/
abbrev Mutex (τ : Type*) := Option (τ × ℕ)

/-- `pthread_mutex_lock`. -/
def mutexLock (t : τ) : Mutex τ → Option (Mutex τ)
  | none => some (some (t, 0))
  | some (u, n) => if u = t then some (some (t, n + 1)) else none

/-- `pthread_mutex_unlock`, by the owner. -/
def mutexUnlock (t : τ) : Mutex τ → Option (Mutex τ)
  | none => none
  | some (u, 0) => if u = t then some none else none
  | some (u, n + 1) => if u = t then some (some (t, n)) else none

def mutexHolds : Mutex τ → τ → ℕ
  | none, _ => 0
  | some (u, n), t => if t = u then n + 1 else 0

/-- A mutex of type `PTHREAD_MUTEX_RECURSIVE`. -/
def recursiveMutex (τ : Type*) [DecidableEq τ] : Lock τ (Mutex τ) where
  free := none
  lock := mutexLock
  unlock := mutexUnlock
  holds := mutexHolds
  holds_free _ := rfl
  lock_holds := by
    intro t s s' h
    cases s with
    | none =>
      cases h
      refine ⟨fun u _ => rfl, ?_⟩
      funext u
      by_cases hu : u = t <;> simp [mutexHolds, hu]
    | some x =>
      obtain ⟨u, n⟩ := x
      simp only [mutexLock] at h
      split_ifs at h with hut
      cases h
      subst hut
      refine ⟨fun v hv => by simp [mutexHolds, hv], ?_⟩
      funext v
      by_cases hv : v = u <;> simp [mutexHolds, hv]
  unlock_holds := by
    intro t s s' h _
    cases s with
    | none => cases h
    | some x =>
      obtain ⟨u, n⟩ := x
      cases n with
      | zero =>
        simp only [mutexUnlock] at h
        split_ifs at h with hut
        cases h
        subst hut
        funext v
        by_cases hv : v = u <;> simp [mutexHolds, hv]
      | succ n =>
        simp only [mutexUnlock] at h
        split_ifs at h with hut
        cases h
        subst hut
        funext v
        by_cases hv : v = u <;> simp [mutexHolds, hv]

/-! ## Spin lock -/

/-- `pthread_spin_unlock`, by the owner. -/
def spinUnlock (t : τ) : Option τ → Option (Option τ)
  | none => none
  | some u => if u = t then some none else none

/-- A spin lock: free, or its owner. -/
def spinLock (τ : Type*) [DecidableEq τ] : Lock τ (Option τ) where
  free := none
  lock t s := if s = none then some (some t) else none
  unlock := spinUnlock
  holds s t := if s = some t then 1 else 0
  holds_free _ := rfl
  lock_holds := by
    intro t s s' h
    split_ifs at h with hs
    cases h
    subst hs
    refine ⟨fun u _ => rfl, ?_⟩
    funext u
    by_cases hu : u = t
    · simp [hu]
    · simp [hu, Ne.symm hu]
  unlock_holds := by
    intro t s s' h _
    cases s with
    | none => cases h
    | some u =>
      simp only [spinUnlock] at h
      split_ifs at h with hut
      cases h
      subst hut
      funext v
      by_cases hv : v = u
      · simp [hv]
      · simp [hv, Ne.symm hv]

end Lock

/-! ## Read-write lock -/

/-- The writer that has the lock, or the number of readers. -/
structure RwLock (τ : Type*) where
  writer : Option τ
  readers : ℕ
  deriving DecidableEq

namespace RwLock

/-- `pthread_rwlock_wrlock`. -/
def wrlock (t : τ) (s : RwLock τ) : Option (RwLock τ) :=
  if s.writer = none ∧ s.readers = 0 then some { s with writer := some t } else none

/-- `pthread_rwlock_rdlock`: only a writer keeps readers out. -/
def rdlock (s : RwLock τ) : Option (RwLock τ) :=
  if s.writer = none then some { s with readers := s.readers + 1 } else none

/-- `pthread_rwlock_unlock`, by the writer or by a reader. -/
def unlock (t : τ) (s : RwLock τ) : Option (RwLock τ) :=
  if s.writer = some t then some { s with writer := none }
  else if 0 < s.readers then some { s with readers := s.readers - 1 } else none

def holds (s : RwLock τ) (t : τ) : ℕ := if s.writer = some t then 1 else 0

end RwLock

/-- A read-write lock, for the threads that write. -/
def Lock.rwLock (τ : Type*) [DecidableEq τ] : Lock τ (RwLock τ) where
  free := ⟨none, 0⟩
  lock := RwLock.wrlock
  unlock := RwLock.unlock
  holds := RwLock.holds
  holds_free _ := rfl
  lock_holds := by
    intro t s s' h
    unfold RwLock.wrlock at h
    split_ifs at h with hs
    cases h
    refine ⟨fun u _ => by simp [RwLock.holds, hs.1], ?_⟩
    funext u
    by_cases hu : u = t
    · simp [RwLock.holds, hs.1, hu]
    · simp [RwLock.holds, hs.1, hu, Ne.symm hu]
  unlock_holds := by
    intro t s s' h ht
    have hw : s.writer = some t := by
      by_contra hw
      simp [RwLock.holds, hw] at ht
    unfold RwLock.unlock at h
    rw [if_pos hw] at h
    cases h
    funext u
    by_cases hu : u = t
    · simp [RwLock.holds, hw, hu]
    · simp [RwLock.holds, hw, hu, Ne.symm hu]

end LinuxDemo
