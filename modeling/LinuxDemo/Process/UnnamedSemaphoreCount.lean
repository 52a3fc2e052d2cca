import Mathlib.Data.Fintype.BigOperators
import LinuxDemo.Process.UnnamedSemaphore

/-!
# The number under the unnamed semaphore

`process/posix-ipc/semaphore/unnamed.c`: every process adds 1 to the shared `int`, `maxTestCount`
times, with a load and a store between `sem_wait` and `sem_post`.

**The unit.** The semaphore is initialised with one unit, which is either in the semaphore or with
the one process that is between its `sem_wait` and its `sem_post`. So what that process has loaded
is still there when it stores.

* `inv_run`: the processes exclude each other and the number counts all increments, in the runs of
  one object where the opening processes map it initialised and no `sem_wait` fails.
* `update_lost`: `main` does not look at the result of `sem_wait`; after one that fails, an
  increment can be lost.
-/

namespace LinuxDemo.UnnamedSemaphore

open Lts Threads

/-! ## Views of a process -/

/-- The process has created the object and is still to initialise the semaphore. -/
def Pc.making : Pc → Bool
  | .map .ftruncate | .map (.mmap true) | .semInit => true
  | _ => false

/-- The units a process has: 1 between `sem_wait` and `sem_post`. -/
def Pc.units : Pc → ℕ
  | .load _ _ | .store _ _ _ | .post _ _ => 1
  | _ => 0

/-- The increments a process at this place has completed. -/
def Pc.done (maxTestCount : ℕ) : Pc → ℕ
  | .loop _ i | .wait _ i | .load _ i | .store _ i _ => i
  | .post _ i => i + 1
  | .munmap _ | .close _ | .unlink | .exit 0 => maxTestCount
  | _ => 0

/-- The process has left its loop, or is about to. -/
def Pc.finished (maxTestCount : ℕ) : Pc → Bool
  | .loop _ i => maxTestCount ≤ i
  | .munmap _ | .close _ | .unlink | .exit 0 => true
  | _ => false

/-- What holds at a place of `main`: the loop has not passed its bound, and what was loaded is
still in the number. -/
def Pc.Ok (maxTestCount : ℕ) (number : BitVec 32) : Pc → Prop
  | .loop _ i => i ≤ maxTestCount
  | .wait _ i | .load _ i | .post _ i => i < maxTestCount
  | .store _ i v => i < maxTestCount ∧ v = number
  | _ => True

/-- The unit that is not with a process. A semaphore that is not initialised has it to come. -/
def semUnits : Option ℕ → ℕ
  | none => 1
  | some v => v

/-- No `sem_wait` fails. -/
def WaitsReturn {ι : Type*} (_ : Threads ι Shared Pc) (e : ι × Op) : Prop := e.2 ≠ .semWait false

instance {ι : Type*} (w : Threads ι Shared Pc) (e : ι × Op) : Decidable (WaitsReturn w e) :=
  inferInstanceAs (Decidable (_ ≠ _))

theorem Pc.units_le_one (x : Pc) : x.units ≤ 1 := by
  cases x <;> simp [Pc.units]

theorem afterMap_start (a : Shm.After) (maxTestCount : ℕ) (number : BitVec 32) :
    (afterMap a).units = 0 ∧ (afterMap a).done maxTestCount = 0 ∧
      (afterMap a).Ok maxTestCount number := by
  cases a with
  | mapped c => cases c <;> simp [afterMap, Pc.units, Pc.done, Pc.Ok]
  | _ => simp [afterMap, Pc.units, Pc.done, Pc.Ok]

/-- A process without a unit has nothing loaded. -/
theorem Pc.Ok.of_units {maxTestCount : ℕ} {x : Pc} {number number' : BitVec 32}
    (h : x.Ok maxTestCount number) (hx : x.units = 0) : x.Ok maxTestCount number' := by
  cases x with
  | store c i v => cases hx
  | _ => exact h

/-! ## The invariant -/

variable {ι : Type*}

/-- There is one creating process, one unit, and the number is the sum of all increments. -/
structure Inv [Fintype ι] (maxTestCount : ℕ) (w : Threads ι Shared Pc) : Prop where
  absent : w.shared.object.created = false → w.shared.sem = none
  making : ∀ p, (w.pc p).making = true →
    w.shared.object.created = true ∧ w.shared.sem = none
  unique : ∀ p q, (w.pc p).making = true → (w.pc q).making = true → p = q
  unit : semUnits w.shared.sem + ∑ p, (w.pc p).units = 1
  ok : ∀ p, (w.pc p).Ok maxTestCount w.shared.number
  number : w.shared.number = BitVec.ofNat 32 (∑ p, (w.pc p).done maxTestCount)

section Steps

variable {maxTestCount : ℕ} {s s' : Shared} {op : Op} {x y : Pc}

/-- The creating process: there is a new one only with the object, and it makes the semaphore. -/
theorem Step.making (h : Step maxTestCount s op x s' y) :
    (s'.object.created = true ↔ s.object.created = true ∨ op = .map (.create true)) ∧
      (y.making = true → (x.making = true ∧ s'.sem = s.sem) ∨
        (s.object.created = false ∧ s'.object.created = true ∧ s'.sem = s.sem)) ∧
      (s'.sem = s.sem ∨ s.sem.isSome = true ∨ x.making = true) := by
  cases h with
  | map h =>
    cases h with
    | create hc => exact ⟨by simp, fun _ => Or.inr ⟨hc, rfl, rfl⟩, Or.inl rfl⟩
    | @mmap c => cases c <;> simp [afterMap, Pc.making]
    | _ => simp [afterMap, Pc.making]
  | semInit => simp [Pc.making]
  | sem hv h => cases h <;> simp [Pc.making, hv]
  | @close c => cases c <;> simp [Pc.making]
  | _ => simp [Pc.making, Shm.Object.unlink]

/-- Where nobody uses an object that is not ready, only `sem_init` can fault. -/
theorem fault_place (h : step maxTestCount .fault s x = some (s', y))
    (hrun : x.running = true → s.ready = true) : x = .semInit := by
  have hready : s.ready = false := by
    cases step_cases h with
    | sem _ h => cases h
    | fault hr => exact hr
  cases x with
  | semInit => rfl
  | loop c i | wait c i =>
    rw [hrun rfl] at hready
    cases hready
  | _ => simp [step, semStep] at h

/-- The steps of `main` keep the unit, and count what they add to the number. -/
theorem Step.counted (h : Step maxTestCount s op x s' y) (hop : op ≠ .semWait false)
    (hfault : op = .fault → x = .semInit) (hx : x.Ok maxTestCount s.number)
    (hsem : x = .semInit → s.sem = none) :
    semUnits s'.sem + y.units = semUnits s.sem + x.units ∧ y.Ok maxTestCount s'.number ∧
      s'.number + BitVec.ofNat 32 (x.done maxTestCount) =
        s.number + BitVec.ofNat 32 (y.done maxTestCount) ∧
      (s'.number = s.number ∨ x.units = 1) := by
  cases h with
  | @map _ l o a h =>
    obtain ⟨hunits, hdone, hok⟩ := afterMap_start a maxTestCount s.number
    exact ⟨by rw [hunits]; rfl, hok, by rw [hdone]; rfl, Or.inl rfl⟩
  | semInit => exact ⟨by rw [hsem rfl]; rfl, trivial, rfl, Or.inl rfl⟩
  | semInitFails => exact ⟨rfl, trivial, rfl, Or.inl rfl⟩
  | callWait hi => exact ⟨rfl, hi, rfl, Or.inl rfl⟩
  | load => exact ⟨rfl, ⟨hx, rfl⟩, rfl, Or.inl rfl⟩
  | store =>
    obtain ⟨hi, rfl⟩ := hx
    refine ⟨rfl, hi, ?_, Or.inr rfl⟩
    simp only [Pc.done, BitVec.ofNat_add]
    rw [BitVec.add_assoc]
    exact congrArg (s.number + ·) (BitVec.add_comm _ _)
  | read hi =>
    refine ⟨rfl, trivial, ?_, Or.inl rfl⟩
    simp only [Pc.done, le_antisymm hi hx]
  | sem hv h =>
    rw [hv]
    cases h with
    | getValue => exact ⟨rfl, Nat.zero_le _, rfl, Or.inl rfl⟩
    | wait => exact ⟨rfl, hx, rfl, Or.inl rfl⟩
    | waitFails => exact absurd rfl hop
    | post => exact ⟨rfl, hx, rfl, Or.inl rfl⟩
  | fault =>
    rw [hfault rfl]
    exact ⟨rfl, trivial, rfl, Or.inl rfl⟩
  | munmap => exact ⟨rfl, trivial, rfl, Or.inl rfl⟩
  | @close c => cases c <;> exact ⟨rfl, trivial, rfl, Or.inl rfl⟩
  | unlink => exact ⟨rfl, trivial, rfl, Or.inl rfl⟩

end Steps

section Runs

variable [DecidableEq ι] [Fintype ι] {maxTestCount : ℕ} {s s' : Shared} {pc : ι → Pc} {p : ι}
  {op : Op} {y : Pc}

/-- Two processes with a unit are one. -/
theorem Inv.exclusive {w : Threads ι Shared Pc} (h : Inv maxTestCount w) {p q : ι}
    (hp : (w.pc p).units = 1) (hq : (w.pc q).units = 1) : p = q := by
  have hsum : ∑ r, (w.pc r).units ≤ 1 := by
    rw [← h.unit]
    exact Nat.le_add_left _ _
  exact eq_of_sum_le_one hsum (by omega) (by omega)

theorem Inv.step (h : Inv maxTestCount ⟨s, pc⟩)
    (hrun : (pc p).running = true → s.ready = true) (hop : op ≠ .semWait false)
    (hs : step maxTestCount op s (pc p) = some (s', y)) :
    Inv maxTestCount ⟨s', Function.update pc p y⟩ := by
  have hstep := step_cases hs
  have hfault : op = .fault → pc p = .semInit := by
    rintro rfl
    exact fault_place hs hrun
  have hinit : pc p = .semInit → s.sem = none :=
    fun hx => (h.making p (show (pc p).making = true by rw [hx]; rfl)).2
  obtain ⟨hcreated, hmaking, hsem⟩ := hstep.making
  obtain ⟨hunit, hok, hnumber, hkeeps⟩ := hstep.counted hop hfault (h.ok p) hinit
  -- Whoever else makes the object sees the semaphore as it was.
  have hothers : ∀ q, q ≠ p → (pc q).making = true → y.making = false ∧ s'.sem = s.sem := by
    intro q hq hqm
    obtain ⟨hc, hnone⟩ := h.making q hqm
    refine ⟨?_, ?_⟩
    · by_contra hy
      rcases hmaking (by simpa using hy) with ⟨hx, -⟩ | ⟨hc', -⟩
      · exact hq (h.unique q p hqm hx)
      · rw [show s.object.created = true from hc] at hc'
        cases hc'
    · rcases hsem with hsame | hsome | hx
      · exact hsame
      · rw [show s.sem = none from hnone] at hsome
        cases hsome
      · exact absurd (h.unique q p hqm hx) hq
  have hmono : s.object.created = true → s'.object.created = true :=
    fun hc => hcreated.2 (Or.inl hc)
  constructor
  · intro hc
    have hold : s.object.created = false := by
      by_contra hne
      rw [show s'.object.created = false from hc] at hmono
      exact absurd (hmono (by simpa using hne)) (by simp)
    have hnone : s.sem = none := h.absent hold
    rcases hsem with hsame | hsome | hx
    · exact hsame.trans hnone
    · rw [hnone] at hsome
      cases hsome
    · rw [(h.making p hx).1] at hold
      cases hold
  · refine (Function.forall_update_iff _ fun _ (x : Pc) => x.making = true →
      s'.object.created = true ∧ s'.sem = none).2 ⟨?_, ?_⟩
    · intro hy
      rcases hmaking hy with ⟨hx, hsame⟩ | ⟨hc, hc', hsame⟩
      · exact ⟨hmono (h.making p hx).1, hsame.trans (h.making p hx).2⟩
      · exact ⟨hc', hsame.trans (h.absent hc)⟩
    · intro q hq hqm
      exact ⟨hmono (h.making q hqm).1, (hothers q hq hqm).2.trans (h.making q hqm).2⟩
  · have hwith : y.making = true → ∀ q, (Function.update pc p y q).making = true → q = p := by
      intro hy q hqm
      by_contra hne
      rw [Function.update_of_ne hne] at hqm
      rw [(hothers q hne hqm).1] at hy
      cases hy
    intro q r hqm hrm
    have hqm' : (Function.update pc p y q).making = true := hqm
    have hrm' : (Function.update pc p y r).making = true := hrm
    by_cases hq : q = p
    · subst hq
      rw [Function.update_self] at hqm'
      exact (hwith hqm' r hrm').symm
    · by_cases hr : r = p
      · subst hr
        rw [Function.update_self] at hrm'
        exact hwith hrm' q hqm'
      · rw [Function.update_of_ne hq] at hqm'
        rw [Function.update_of_ne hr] at hrm'
        exact h.unique q r hqm' hrm'
  · have hsum := sum_update Pc.units pc p y
    have hone : semUnits s.sem + ∑ q, (pc q).units = 1 := h.unit
    show semUnits s'.sem + ∑ q, (Function.update pc p y q).units = 1
    omega
  · refine (Function.forall_update_iff _ fun _ (x : Pc) => x.Ok maxTestCount s'.number).2
      ⟨hok, ?_⟩
    intro q hq
    rcases hkeeps with hsame | hunits
    · rw [hsame]
      exact h.ok q
    · -- The process that stores has the unit, so the others have nothing loaded.
      apply (h.ok q).of_units
      by_contra hne
      have hone : (pc q).units = 1 := le_antisymm (pc q).units_le_one (Nat.pos_of_ne_zero hne)
      exact hq (h.exclusive hone hunits)
  · have hsum := congrArg (BitVec.ofNat 32) (sum_update (Pc.done maxTestCount) pc p y)
    rw [BitVec.ofNat_add, BitVec.ofNat_add, ← show s.number = _ from h.number, ← hnumber] at hsum
    exact (BitVec.add_left_inj _).1 hsum.symm

/-- The system, in the runs where the opening processes map the initialised object and every
`sem_wait` returns with the unit. -/
theorem inv_run {tr : List (ι × Op)} {w : Threads ι Shared Pc}
    (h : (((system ι maxTestCount).guard MapsReady).guard WaitsReturn).Run tr w) :
    Inv maxTestCount w := by
  have hrun : (system ι maxTestCount |>.guard MapsReady).Invariant _ := running_invariant
  refine (hrun.guard_and ?_ ?_).run h |>.2
  · rintro w rfl
    refine ⟨fun _ => rfl, ?_, ?_, by simp [semUnits, Pc.units], fun p => trivial,
      by simp [Pc.done]⟩
    · intro p hp
      cases hp
    · intro p q hp
      cases hp
  · rintro w ⟨p, op⟩ w' hrun hw hs hG
    obtain ⟨s', y, hlocal, rfl⟩ := interleave_step hs.1
    exact hw.step (hrun p) hG hlocal

omit [DecidableEq ι] [Fintype ι] in
theorem Pc.done_of_finished {x : Pc} {number : BitVec 32} (hf : x.finished maxTestCount = true)
    (hx : x.Ok maxTestCount number) : x.done maxTestCount = maxTestCount := by
  unfold Pc.finished at hf
  split at hf
  · exact le_antisymm hx (of_decide_eq_true hf)
  · rfl
  · rfl
  · rfl
  · rfl
  · cases hf

end Runs

/-- Process `p` opens the object. -/
def openAndMap (p : Fin 2) : List (Fin 2 × Op) := (openAndWait p).take 3

/-- **An interrupted `sem_wait`** is not noticed: process 1 goes on without the unit, and an
increment is lost. -/
theorem update_lost :
    ∃ tr, ∃ w : Threads (Fin 2) Shared Pc, ((system (Fin 2) 1).guard MapsReady).Run tr w ∧
      (∀ p, (w.pc p).finished 1 = true) ∧
      w.shared.number ≠ BitVec.ofNat 32 (Fintype.card (Fin 2) * 1) := by
  obtain ⟨w, hw, hp⟩ := exists_guard_run_of_exec (next fun _ => step 1) (fun _ _ h => h)
    (.init rfl : ((system (Fin 2) 1).guard MapsReady).Run [] _)
    (createAndInit 0 ++ openAndMap 1 ++ [(0, .callWait), (0, .semWait true), (0, .load),
      (1, .callWait), (1, .semWait false), (1, .load), (1, .store), (1, .semPost),
      (0, .store), (0, .semPost)])
    (fun w => decide ((∀ p, (w.pc p).finished 1 = true) ∧ w.shared.number ≠ 2)) (by decide)
  simp only [decide_eq_true_eq] at hp
  exact ⟨_, w, hw, hp⟩

end LinuxDemo.UnnamedSemaphore
