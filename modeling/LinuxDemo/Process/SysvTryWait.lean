import LinuxDemo.Process.SysvSemaphoreUndo

/-!
# `_trySemWait` of the System V semaphore

`_trySemWait` of `process/system-v-ipc/semaphore/main.c` looks at the value of the semaphore. It
prints that it succeeds when the value is above 0, and returns so when it is above 1.

Here any number of processes call `_semWait`, `_semPost` and `_trySemWait` in any order, and exit,
after the semaphore has been initialised.

* `agrees_iff`: the result is what is printed, and what a `_semWait` would come to, if and only if
  the value is not 1.
* `never_true`: as long as nobody gives back what it has not taken, `_trySemWait` always returns
  false.
-/

namespace LinuxDemo.SysvSemaphore

open Lts

/-- What `_trySemWait` does. -/
structure TryWait where
  /-- `"true"` or `"false"`, and the value that is printed with it; nothing when `GETVAL` fails. -/
  printed : Option (Bool × ℤ)
  result : Bool
  deriving DecidableEq

/-- `_semValue`, on what `GETVAL` gives. -/
def semValue (getval : Option ℤ) : ℤ := getval.getD (-1)

/-- `_trySemWait`, on what its two calls of `GETVAL` give, the second one in `_semValue`. -/
def trySemWait (getval again : Option ℤ) : TryWait :=
  match getval with
  | none => ⟨none, false⟩
  | some ret => ⟨some (decide (ret > 0), semValue again), decide (ret > 1)⟩

/-- The calls; they may fail, and then change nothing. -/
inductive UserOp where
  | semWait (ok : Bool)
  | semPost (ok : Bool)
  | trySemWait
  | exit
  deriving DecidableEq

section Users

variable {ι : Type*} [DecidableEq ι]

/-- Process `e.1` executes `e.2`; a `_semWait` that blocks is no step. -/
def useNext (s : SemSet ι) (e : ι × UserOp) : Option (SemSet ι) :=
  match e.2 with
  | .semWait true => s.semop e.1 (-1) true
  | .semPost true => s.semop e.1 1 true
  | .semWait false | .semPost false | .trySemWait => some s
  | .exit => some (s.undo e.1)

/-- The semaphore as `_semCreateOrGet` leaves it. -/
def initialised : SemSet ι := ⟨1, true, fun _ => 0⟩

/-- Any number of processes that use the semaphore. -/
def users (ι : Type*) [DecidableEq ι] : Lts (SemSet ι) (ι × UserOp) := ofNext initialised useNext

/-- In state `s`, the result of `_trySemWait` is what it prints, and says if a `_semWait` of process
`p` would go through. -/
def Agrees (s : SemSet ι) (p : ι) : Prop :=
  ∀ again, ∃ shown, (trySemWait (some s.value) again).printed =
      some ((trySemWait (some s.value) again).result, shown) ∧
    ((trySemWait (some s.value) again).result = true ↔ (s.semop p (-1) true).isSome = true)

/-- That is what the two calls of the creator come to, whatever the value was. -/
theorem semop_setval (s : SemSet ι) (p : ι) : (s.setval 0).semop p 1 false = some initialised := by
  unfold SemSet.semop SemSet.setval initialised
  simp

/-! ## The value -/

/-- Everything a call can do to the semaphore. -/
theorem use_cases {s s' : SemSet ι} {p : ι} {op : UserOp} (h : useNext s (p, op) = some s') :
    s' = s ∨ (op = .semWait true ∧ s.semop p (-1) true = some s') ∨
      (op = .semPost true ∧ s.semop p 1 true = some s') ∨ (op = .exit ∧ s' = s.undo p) := by
  cases op with
  | semWait ok =>
    cases ok with
    | true => exact Or.inr (Or.inl ⟨rfl, h⟩)
    | false => exact Or.inl (Option.some.inj h).symm
  | semPost ok =>
    cases ok with
    | true => exact Or.inr (Or.inr (Or.inl ⟨rfl, h⟩))
    | false => exact Or.inl (Option.some.inj h).symm
  | trySemWait => exact Or.inl (Option.some.inj h).symm
  | exit => exact Or.inr (Or.inr (Or.inr ⟨rfl, (Option.some.inj h).symm⟩))

theorem value_nonneg {tr : List (ι × UserOp)} {s : SemSet ι} (h : (users ι).Run tr s) :
    0 ≤ s.value := by
  refine Invariant.run (I := fun s => 0 ≤ s.value) ⟨?_, ?_⟩ h
  · rintro s rfl
    exact Int.one_nonneg
  · intro s e s' hv hs
    rcases use_cases hs with rfl | ⟨-, hs⟩ | ⟨-, hs⟩ | ⟨-, rfl⟩
    · exact hv
    · obtain ⟨hle, rfl⟩ := SemSet.semop_eq_some.1 hs
      exact hle
    · obtain ⟨hle, rfl⟩ := SemSet.semop_eq_some.1 hs
      exact hle
    · exact le_max_left _ _

theorem semop_isSome_iff (s : SemSet ι) (p : ι) :
    (s.semop p (-1) true).isSome = true ↔ 1 ≤ s.value := by
  unfold SemSet.semop
  by_cases hv : 0 ≤ s.value + -1
  · rw [if_pos hv]
    exact iff_of_true rfl (by omega)
  · rw [if_neg hv]
    exact iff_of_false Bool.false_ne_true (by omega)

/-- **`_trySemWait` agrees with `_semWait`** if and only if the semaphore has no unit, or more than
one. -/
theorem agrees_iff {tr : List (ι × UserOp)} {s : SemSet ι} (h : (users ι).Run tr s) (p : ι) :
    Agrees s p ↔ s.value = 0 ∨ 2 ≤ s.value := by
  have hv := value_nonneg h
  constructor
  · intro hagrees
    obtain ⟨shown, hprinted, -⟩ := hagrees none
    have hverdict : decide (s.value > 0) = decide (s.value > 1) :=
      congrArg Prod.fst (Option.some.inj hprinted)
    rw [decide_eq_decide] at hverdict
    omega
  · intro hvalue again
    refine ⟨semValue again, ?_, ?_⟩
    · have hverdict : decide (s.value > 0) = decide (s.value > 1) := by
        rw [decide_eq_decide]
        omega
      show some (decide (s.value > 0), semValue again) = _
      rw [hverdict]
      rfl
    · rw [semop_isSome_iff]
      show decide (s.value > 1) = true ↔ 1 ≤ s.value
      rw [decide_eq_true_iff]
      omega

/-! ## No success -/

/-- A process only gives back the unit it has taken. -/
def GivesBack (s : SemSet ι) (e : ι × UserOp) : Prop :=
  e.2 = .semPost true → s.semadj e.1 = 1

theorem unitAt_step {s s' : SemSet ι} {e : ι × UserOp} (h : ∃ holder, UnitAt s holder)
    (hs : useNext s e = some s') (hG : GivesBack s e) : ∃ holder, UnitAt s' holder := by
  obtain ⟨holder, hu⟩ := h
  obtain ⟨p, op⟩ := e
  rcases use_cases hs with rfl | ⟨rfl, hs⟩ | ⟨rfl, hs⟩ | ⟨rfl, rfl⟩
  · exact ⟨holder, hu⟩
  · obtain ⟨hle, rfl⟩ := SemSet.semop_eq_some.1 hs
    exact ⟨some p, hu.take hle p⟩
  · obtain ⟨-, rfl⟩ := SemSet.semop_eq_some.1 hs
    rw [hu.unique (hG rfl)] at hu
    exact ⟨none, hu.give⟩
  · exact hu.exit p

/-- **`_trySemWait` never returns true** while nobody gives back what it has not taken: there is one
unit, and it asks for two. -/
theorem never_true {tr : List (ι × UserOp)} {s : SemSet ι}
    (h : ((users ι).guard GivesBack).Run tr s) (again : Option ℤ) :
    (trySemWait (some s.value) again).result = false := by
  obtain ⟨holder, hu⟩ : ∃ holder, UnitAt s holder := by
    refine Invariant.run (I := fun s => ∃ holder, UnitAt s holder) ⟨?_, ?_⟩ h
    · rintro s rfl
      exact ⟨none, rfl, fun _ => rfl⟩
    · intro s e s' hu hs
      exact unitAt_step hu hs.1 hs.2
  show decide (s.value > 1) = false
  rw [decide_eq_false_iff_not]
  rcases hu.value with hv | hv <;> omega

end Users

theorem agrees_iff_taken :
    ∃ s, (users ℕ).Run [(0, .semWait true), (1, .trySemWait)] s ∧ Agrees s 1 := by
  obtain ⟨s, hs, hp⟩ := exists_run_of_exec (initialised : SemSet ℕ) useNext
    [(0, .semWait true), (1, .trySemWait)] (fun s => decide (s.value = 0)) (by decide)
  exact ⟨s, hs, (agrees_iff hs 1).2 (Or.inl (of_decide_eq_true hp))⟩

/-- **A free semaphore**: `_trySemWait` prints that it succeeds, a `_semWait` would go through, and
the result is false. -/
theorem not_agrees :
    ¬∀ (tr : List (ℕ × UserOp)) (s : SemSet ℕ), (users ℕ).Run tr s → ∀ p, Agrees s p := by
  intro h
  obtain ⟨shown, hprinted, -⟩ := h [] initialised (.init rfl) 0 none
  cases hprinted

end LinuxDemo.SysvSemaphore
