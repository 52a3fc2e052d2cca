import Mathlib.Data.Fintype.BigOperators
import LinuxDemo.Process.SysvSemaphore

/-!
# The unit of the System V semaphore

After its initialisation the semaphore of `process/system-v-ipc/semaphore/main.c` has one unit.
`_semWait` takes it and `_semPost` gives it back, both with `SEM_UNDO`, and the exit of a process
that has it, at any point, gives it back too.

`main` does not look at what `_semWait` returns. When the first one fails, `_semPost` gives back a
unit the process never took.

* `SetOk`: the unit is in the semaphore, or one process has it, in every run in which no `semop`
  of a first `_semWait` fails.
* `undo_conservation`: value and adjustments always sum up to 1, and the value is back to 1 when
  all processes are gone, in every run in which `semop` succeeds.
* `value_le_one`: the value never exceeds 1, in every run in which no first `_semWait` fails.
* `value_exceeds`: it does, when a first `_semWait` fails while another process has the unit.
-/

namespace LinuxDemo.SysvSemaphore

open Lts Threads

variable {ι : Type*}

/-- Where the unit is: in the semaphore, or with one process. -/
def UnitAt [DecidableEq ι] (s : SemSet ι) : Option ι → Prop
  | none => s.value = 1 ∧ ∀ p, s.semadj p = 0
  | some q => s.value = 0 ∧ ∀ p, s.semadj p = if p = q then 1 else 0

/-- The first `_semWait` is done and the `_semPost` is not. -/
def Pc.taken : Pc → Bool
  | .showValue .wait | .call .post => true
  | _ => false

/-- The process has called something and has not exited. -/
def Pc.alive : Pc → Bool
  | .create | .exited => false
  | _ => true

/-- The unit and the places of the processes. -/
structure SetOk [DecidableEq ι] (s : SemSet ι) (pc : ι → Pc) : Prop where
  fresh : s.otime = false → ∀ p, s.semadj p = 0
  zero : ∀ p, pc p = .semopInit → s.value = 0
  unit : s.otime = true → ∃ holder, UnitAt s holder
  taken : ∀ p, (pc p).taken = true → s.semadj p = 1
  free : ∀ p, (pc p).alive = false → s.semadj p = 0

/-- The `semop` of a first `_semWait` does not fail. -/
def FirstWaitSucceeds (w : Threads ι (Option (SemSet ι)) Pc) (e : ι × Op) : Prop :=
  ¬(w.pc e.1 = .call .wait ∧ e.2 = .semop false)

theorem UnitAt.unique [DecidableEq ι] {s : SemSet ι} {holder : Option ι} (h : UnitAt s holder)
    {p : ι} (hp : s.semadj p = 1) : holder = some p := by
  cases holder with
  | none =>
    have := h.2 p
    omega
  | some q =>
    have := h.2 p
    split_ifs at this with hpq
    · rw [hpq]
    · omega

/-- A process takes the unit out of the semaphore. -/
theorem UnitAt.take [DecidableEq ι] {s : SemSet ι} {holder : Option ι} (h : UnitAt s holder)
    (hv : 0 ≤ s.value + -1) (p : ι) :
    UnitAt ⟨s.value + -1, true, Function.update s.semadj p (s.semadj p - -1)⟩ (some p) := by
  cases holder with
  | none =>
    refine ⟨by simp [h.1], ?_⟩
    intro q
    by_cases hqp : q = p <;> simp [hqp, h.2]
  | some q =>
    rw [h.1] at hv
    omega

theorem UnitAt.semadj_take [DecidableEq ι] {s : SemSet ι} {holder : Option ι} (h : UnitAt s holder)
    (hv : 0 ≤ s.value + -1) (p : ι) : s.semadj p - -1 = 1 := by
  have hp := (h.take hv p).2 p
  rw [if_pos rfl] at hp
  exact (Function.update_self p _ _).symm.trans hp

/-- The process that has the unit puts it back. -/
theorem UnitAt.give [DecidableEq ι] {s : SemSet ι} {p : ι} (h : UnitAt s (some p)) :
    UnitAt ⟨s.value + 1, true, Function.update s.semadj p (s.semadj p - 1)⟩ none := by
  refine ⟨by simp [h.1], ?_⟩
  intro q
  by_cases hqp : q = p <;> simp [hqp, h.2]

/-- The exit of a process puts the unit back if the process has it. -/
theorem UnitAt.exit [DecidableEq ι] {s : SemSet ι} {holder : Option ι} (h : UnitAt s holder)
    (p : ι) :
    ∃ holder', UnitAt ⟨max 0 (s.value + s.semadj p), true, Function.update s.semadj p 0⟩
      holder' := by
  cases holder with
  | none =>
    refine ⟨none, by simp [h.1, h.2], ?_⟩
    intro q
    by_cases hqp : q = p <;> simp [hqp, h.2]
  | some r =>
    by_cases hr : p = r
    · refine ⟨none, by simp [h.1, h.2, hr], ?_⟩
      intro q
      by_cases hqp : q = p
      · simp [hqp]
      · simp [hqp, h.2, ← hr]
    · refine ⟨some r, by simp [h.1, h.2, hr], ?_⟩
      intro q
      by_cases hqp : q = p
      · simp [hqp, hr]
      · simp [hqp, h.2]

theorem Pc.past_of_taken {x : Pc} (h : x.taken = true) : x.past = true := by
  unfold Pc.taken at h
  split at h
  · rfl
  · rfl
  · cases h

/-- Nobody has taken the unit while the semaphore is not initialised. -/
theorem not_taken {s : SemSet ι} {pc : ι → Pc} (hI : Inv ⟨some s, pc⟩) (ho : s.otime = false)
    (q : ι) : ¬(pc q).taken = true := by
  intro hq
  have := hI.past q (Pc.past_of_taken hq)
  simp [ho] at this

section Steps

variable [DecidableEq ι] {s s' : SemSet ι} {pc : ι → Pc} {p : ι} {y : Pc}

theorem not_taken_update (hI : Inv ⟨some s, pc⟩) (ho : s.otime = false) (hy : y.taken = false) :
    ∀ q, ¬(Function.update pc p y q).taken = true := by
  refine (Function.forall_update_iff _ fun _ (x : Pc) => ¬x.taken = true).2 ⟨?_, ?_⟩
  · rw [hy]
    simp
  · intro q _
    exact not_taken hI ho q

/-- The process moves on and the set stays as it is. -/
theorem SetOk.move (h : SetOk s pc) (hy : y ≠ .semopInit)
    (htaken : y.taken = true → (pc p).taken = true) (halive : y.alive = true) :
    SetOk s (Function.update pc p y) where
  fresh := h.fresh
  zero := (Function.forall_update_iff _ fun _ (x : Pc) => x = .semopInit → s.value = 0).2
    ⟨fun hx => absurd hx hy, fun q _ => h.zero q⟩
  unit := h.unit
  taken := (Function.forall_update_iff _ fun q (x : Pc) => x.taken = true → s.semadj q = 1).2
    ⟨fun hx => h.taken p (htaken hx), fun q _ => h.taken q⟩
  free := (Function.forall_update_iff _ fun q (x : Pc) => x.alive = false → s.semadj q = 0).2
    ⟨fun hx => (by rw [halive] at hx; cases hx), fun q _ => h.free q⟩

theorem SetOk.create (hI : Inv ⟨none, pc⟩) {value : ℤ} :
    SetOk ⟨value, false, fun _ => 0⟩ (Function.update pc p .setval) where
  fresh := fun _ _ => rfl
  zero := by
    refine (Function.forall_update_iff _ fun _ (x : Pc) => x = .semopInit → value = 0).2 ⟨?_, ?_⟩
    · intro hx
      cases hx
    · intro q _ hq
      cases hI.making q (by simp [hq, Pc.making])
  unit := fun ho => by cases ho
  taken := by
    refine (Function.forall_update_iff _ fun _ (x : Pc) => x.taken = true → _).2 ⟨?_, ?_⟩
    · intro hx
      cases hx
    · intro q _ hq
      cases hI.past q (Pc.past_of_taken hq)
  free := fun _ _ => rfl

theorem SetOk.setval (hI : Inv ⟨some s, pc⟩) (hpc : pc p = .setval) :
    SetOk (s.setval 0) (Function.update pc p .semopInit) where
  fresh := fun _ _ => rfl
  zero := fun _ _ => rfl
  unit := by
    intro ho
    have hmaking := hI.making p (by simp [hpc, Pc.making])
    cases hmaking.symm.trans (congrArg some ho)
  taken := by
    have ho : s.otime = false := by
      simpa using hI.making p (by simp [hpc, Pc.making])
    intro q hq
    exact absurd hq (not_taken_update hI ho rfl q)
  free := fun _ _ => rfl

theorem SetOk.init (h : SetOk s pc) (hI : Inv ⟨some s, pc⟩) (hpc : pc p = .semopInit)
    (hs : s.semop p 1 false = some s') :
    SetOk s' (Function.update pc p .returns) := by
  have ho : s.otime = false := by
    simpa using hI.making p (by simp [hpc, Pc.making])
  obtain ⟨-, rfl⟩ := SemSet.semop_eq_some.1 hs
  refine ⟨fun hx => (by cases hx), ?_, fun _ => ⟨none, ?_, h.fresh ho⟩, ?_,
    fun q _ => h.fresh ho q⟩
  · refine (Function.forall_update_iff _ fun _ (x : Pc) => x = .semopInit → _).2 ⟨?_, ?_⟩
    · intro hx
      cases hx
    · intro q hne hq
      exact absurd (hI.unique q p (by simp [hq, Pc.making]) (by simp [hpc, Pc.making])) hne
  · show s.value + 1 = 1
    rw [h.zero p hpc]
    rfl
  · intro q hq
    exact absurd hq (not_taken_update hI ho rfl q)

/-- Process `p` changes its own adjustment only. -/
theorem SetOk.of_unit (h : SetOk s pc) (hI : Inv ⟨some s, pc⟩) (ho : s.otime = true)
    {holder : Option ι} {value adj : ℤ}
    (hu : UnitAt ⟨value, true, Function.update s.semadj p adj⟩ holder) (hy : y.making = false)
    (htaken : y.taken = true → adj = 1) (hfree : y.alive = false → adj = 0) :
    SetOk ⟨value, true, Function.update s.semadj p adj⟩ (Function.update pc p y) where
  fresh := fun hx => by cases hx
  zero := by
    refine (Function.forall_update_iff _ fun _ (x : Pc) => x = .semopInit → _).2 ⟨?_, ?_⟩
    · intro hx
      rw [hx] at hy
      cases hy
    · intro q _ hq
      have hmaking := hI.making q (by simp [hq, Pc.making])
      simp [ho] at hmaking
  unit := fun _ => ⟨holder, hu⟩
  taken := by
    intro q hq
    by_cases hqp : q = p
    · subst hqp
      rw [Function.update_self] at hq
      simpa using htaken hq
    · rw [Function.update_of_ne hqp] at hq
      simpa [hqp] using h.taken q hq
  free := by
    intro q hq
    by_cases hqp : q = p
    · subst hqp
      rw [Function.update_self] at hq
      simpa using hfree hq
    · rw [Function.update_of_ne hqp] at hq
      simpa [hqp] using h.free q hq

theorem SetOk.semop (h : SetOk s pc) (hI : Inv ⟨some s, pc⟩) {c : Call} (hpc : pc p = .call c)
    (hs : s.semop p c.semOp true = some s') : SetOk s' (Function.update pc p (.showValue c)) := by
  have ho : s.otime = true := by
    simpa using hI.past p (by simp [hpc, Pc.past])
  obtain ⟨holder, hu⟩ := h.unit ho
  obtain ⟨hv, rfl⟩ := SemSet.semop_eq_some.1 hs
  rw [if_pos rfl]
  cases c with
  | wait =>
    refine h.of_unit hI ho (hu.take hv p) rfl ?_ fun hx => by cases hx
    intro _
    exact hu.semadj_take hv p
  | post =>
    have hp : s.semadj p = 1 := h.taken p (by rw [hpc]; rfl)
    rw [hu.unique hp] at hu
    exact h.of_unit hI ho hu.give rfl (fun hx => by cases hx) fun hx => by cases hx
  | waitAgain =>
    exact h.of_unit hI ho (hu.take hv p) rfl (fun hx => by cases hx) fun hx => by cases hx

theorem SetOk.exit (h : SetOk s pc) (hI : Inv ⟨some s, pc⟩) :
    SetOk (s.undo p) (Function.update pc p .exited) := by
  cases ho : s.otime with
  | true =>
    obtain ⟨holder, hu⟩ := h.unit ho
    obtain ⟨holder', hu'⟩ := hu.exit p
    unfold SemSet.undo
    rw [ho]
    exact h.of_unit hI ho hu' rfl (fun hx => by cases hx) fun _ => rfl
  | false =>
    have hadj : ∀ q, (s.undo p).semadj q = 0 := by
      intro q
      by_cases hqp : q = p <;> simp [SemSet.undo, hqp, h.fresh ho]
    refine ⟨fun _ => hadj, ?_, fun hx => ?_, ?_, fun q _ => hadj q⟩
    · refine (Function.forall_update_iff _ fun _ (x : Pc) => x = .semopInit → _).2 ⟨?_, ?_⟩
      · intro hx
        cases hx
      · intro q _ hq
        simp [SemSet.undo, h.zero q hq, h.fresh ho]
    · rw [show (s.undo p).otime = s.otime from rfl, ho] at hx
      cases hx
    · intro q hq
      exact absurd hq (not_taken_update hI ho rfl q)

end Steps

/-- A move leads to the `_semPost` from a first `_semWait` that has succeeded, or failed. -/
theorem Move.taken {s : Option (SemSet ι)} {op : Op} {x y : Pc} (h : Move s op x y) :
    (y.taken = true → x.taken = true ∨ (x = .call .wait ∧ op = .semop false)) ∧
      y.alive = true := by
  cases h with
  | @sleep j => split_ifs <;> simp [Pc.taken, Pc.alive]
  | @testOtime b => cases b <;> simp [Pc.taken, Pc.alive]
  | @semopFails c => cases c <;> simp [Pc.taken, Pc.alive, Call.next]
  | @showValue ok c => cases c <;> simp [Pc.taken, Pc.alive, Call.next]
  | @tryWait ok => cases ok <;> simp [Pc.taken, Pc.alive]
  | _ => simp [Pc.taken, Pc.alive]

section Runs

variable [DecidableEq ι]

theorem setOk_step {s s' : Option (SemSet ι)} {pc : ι → Pc} {p : ι} {op : Op} {y : Pc}
    (h : ∀ t, s = some t → SetOk t pc) (hI : Inv ⟨s, pc⟩)
    (hG : FirstWaitSucceeds ⟨s, pc⟩ (p, op)) (hs : Step p op s (pc p) s' y) :
    ∀ t, s' = some t → SetOk t (Function.update pc p y) := by
  intro t ht
  generalize hx : pc p = x at hs
  cases hs with
  | move hm =>
    refine (h t ht).move ?_ ?_ hm.taken.2
    · intro hy
      have := hm.past.1
      rw [hy] at this
      cases this
    · intro hy
      rcases hm.taken.1 hy with hp | ⟨rfl, rfl⟩
      · rw [hx]
        exact hp
      · exact absurd ⟨hx, rfl⟩ hG
  | create =>
    cases ht
    exact .create hI
  | setval =>
    cases ht
    exact .setval hI hx
  | init hs =>
    cases ht
    exact (h _ rfl).init hI hx hs
  | semop hs =>
    cases ht
    exact (h _ rfl).semop hI hx hs
  | exit =>
    obtain ⟨t₀, rfl, rfl⟩ := Option.map_eq_some_iff.1 ht
    exact (h t₀ rfl).exit hI

theorem setOk_invariant : ((system ι).guard FirstWaitSucceeds).Invariant fun w =>
    Inv w ∧ ∀ s, w.shared = some s → SetOk s w.pc := by
  apply interleave_guard_invariant
  · exact ⟨inv_invariant.init _ rfl, fun s hs => by cases hs⟩
  · intro p op s pc s' y h hG hs
    exact ⟨inv_step h.1 (step_cases hs), setOk_step h.2 h.1 hG (step_cases hs)⟩

/-! ## The value stays below 2 -/

theorem UnitAt.value {s : SemSet ι} {holder : Option ι} (h : UnitAt s holder) :
    s.value = 0 ∨ s.value = 1 := by
  cases holder with
  | none => exact Or.inr h.1
  | some q => exact Or.inl h.1

/-- **The value never exceeds 1** after the initialisation, in every run in which no `semop` of a
first `_semWait` fails; all other calls may fail, and processes may die. -/
theorem value_le_one {tr : List (ι × Op)} {w : Threads ι (Option (SemSet ι)) Pc}
    (h : ((system ι).guard FirstWaitSucceeds).Run tr w) {s : SemSet ι} (hs : w.shared = some s)
    (ho : s.otime = true) : s.value ≤ 1 := by
  obtain ⟨holder, hu⟩ := ((setOk_invariant.run h).2 s hs).unit ho
  rcases hu.value with hv | hv
  · rw [hv]
    decide
  · rw [hv]

/-- Process `p` creates the semaphore and is about to wait. -/
def createAndShow (p : Fin 2) : List (Fin 2 × Op) :=
  [(p, .create 0), (p, .setval true), (p, .semopInit true), (p, .returnId), (p, .getval true)]

/-- Process `p` opens the semaphore and is about to wait. -/
def openAndShow (p : Fin 2) : List (Fin 2 × Op) :=
  [(p, .createExists), (p, .openExisting true), (p, .stat true), (p, .testOtime),
   (p, .returnId), (p, .getval true)]

/-- Process `p` waits, shows the value and posts. -/
def waitAndPost (p : Fin 2) : List (Fin 2 × Op) :=
  [(p, .semop true), (p, .getval true), (p, .semop true)]

instance (w : Threads ι (Option (SemSet ι)) Pc) (e : ι × Op) :
    Decidable (FirstWaitSucceeds w e) :=
  inferInstanceAs (Decidable (¬_))

theorem value_le_one_waitAndPost :
    ∃ w s, ((system (Fin 2)).guard FirstWaitSucceeds).Run
      (createAndShow 0 ++ openAndShow 1 ++ waitAndPost 0 ++ waitAndPost 1) w ∧
      w.shared = some s ∧ s.otime = true ∧ s.value ≤ 1 := by
  obtain ⟨w, hw, hp⟩ := exists_guard_run_of_exec (next step) (fun _ _ h => h)
    (.init rfl : ((system (Fin 2)).guard FirstWaitSucceeds).Run [] _)
    (createAndShow 0 ++ openAndShow 1 ++ waitAndPost 0 ++ waitAndPost 1)
    (fun w => w.shared.map SemSet.otime = some true) (by decide)
  obtain ⟨s, hs, ho⟩ := Option.map_eq_some_iff.1 (of_decide_eq_true hp)
  exact ⟨w, s, hw, hs, ho, value_le_one hw hs ho⟩

/-- **The value exceeds 1** when the first `_semWait` of process 1 fails, and its `_semPost` adds
to the unit that process 0 has. -/
theorem value_exceeds :
    ∃ w s, (system (Fin 2)).Reachable w ∧ w.shared = some s ∧ s.otime = true ∧ 1 < s.value := by
  obtain ⟨w, hw, hp⟩ := exists_run_of_exec ⟨none, fun _ => .create⟩ (next step)
    (createAndShow 0 ++ openAndShow 1 ++ [(0, .semop true), (0, .getval true)] ++
      [(1, .semop false), (1, .semop true)] ++ [(0, .semop true)])
    (fun w => w.shared.map (fun s => (s.otime, s.value)) = some (true, 2)) (by decide)
  obtain ⟨s, hs, heq⟩ := Option.map_eq_some_iff.1 (of_decide_eq_true hp)
  obtain ⟨ho, hv⟩ := Prod.mk.inj heq
  exact ⟨w, s, ⟨_, hw⟩, hs, ho, by rw [hv]; decide⟩

end Runs

/-! ## Conservation of the unit -/

/-- `semop` succeeds whenever it returns. -/
def SemopSucceeds (_ : Threads ι (Option (SemSet ι)) Pc) (e : ι × Op) : Prop :=
  e.2 ≠ .semop false ∧ e.2 ≠ .semopInit false

instance (w : Threads ι (Option (SemSet ι)) Pc) (e : ι × Op) : Decidable (SemopSucceeds w e) :=
  inferInstanceAs (Decidable (_ ∧ _))

/-- The process has executed a `_semWait` without a matching `_semPost`. -/
def Pc.holding : Pc → Bool
  | .showValue .wait | .call .post | .showValue .waitAgain | .tryWait | .showTry => true
  | .leaving code => code = 0
  | _ => false

/-- Who is between the two has the unit. -/
def Held (w : Threads ι (Option (SemSet ι)) Pc) : Prop :=
  ∀ p, (w.pc p).holding = true →
    ∃ s, w.shared = some s ∧ s.otime = true ∧ s.semadj p = 1

theorem Move.holding {s : Option (SemSet ι)} {op : Op} {x y : Pc} (h : Move s op x y)
    (hop : op ≠ .semop false) (hy : y.holding = true) : x.holding = true := by
  cases h with
  | @sleep j => split_ifs at hy <;> cases hy
  | @testOtime b => cases b <;> cases hy
  | semopFails => exact absurd rfl hop
  | @showValue ok c =>
    cases c with
    | post => cases hy
    | _ => rfl
  | @tryWait ok => rfl
  | _ => first | rfl | cases hy

/-- While the semaphore is not initialised nobody has the unit. -/
theorem Held.not_holding {s : Option (SemSet ι)} {pc : ι → Pc} (h : Held ⟨s, pc⟩)
    (ho : s.map SemSet.otime ≠ some true) (q : ι) : ¬(pc q).holding = true := by
  intro hq
  obtain ⟨t, ht, hotime, -⟩ := h q hq
  apply ho
  show s.map SemSet.otime = some true
  rw [show s = some t from ht]
  exact congrArg some hotime

section Held

variable [DecidableEq ι] {s s' : Option (SemSet ι)} {t t' : SemSet ι} {pc : ι → Pc} {p : ι}
  {op : Op} {y : Pc}

/-- A step that leaves the adjustments of the others alone. -/
theorem Held.update (h : Held ⟨some t, pc⟩) (ho : t.otime = true → t'.otime = true)
    (hadj : ∀ q, q ≠ p → t'.semadj q = t.semadj q)
    (hy : y.holding = true → t'.otime = true ∧ t'.semadj p = 1) :
    Held ⟨some t', Function.update pc p y⟩ := by
  refine (Function.forall_update_iff _ fun q (x : Pc) => x.holding = true →
    ∃ s, some t' = some s ∧ s.otime = true ∧ s.semadj q = 1).2 ⟨?_, ?_⟩
  · intro hx
    exact ⟨t', rfl, hy hx⟩
  · intro q hne hq
    obtain ⟨s, hs, hotime, hone⟩ := h q hq
    cases hs
    exact ⟨t', rfl, ho hotime, (hadj q hne).trans hone⟩

theorem Held.of_not_holding (h : ∀ q, ¬(pc q).holding = true) (hy : y.holding = false) :
    Held ⟨s', Function.update pc p y⟩ := by
  refine (Function.forall_update_iff _ fun _ (x : Pc) => x.holding = true → _).2 ⟨?_, ?_⟩
  · intro hx
    rw [hy] at hx
    cases hx
  · intro q _ hq
    exact absurd hq (h q)

theorem Held.semop (h : Held ⟨some t, pc⟩) (hset : SetOk t pc) (hI : Inv ⟨some t, pc⟩) {c : Call}
    (hpc : pc p = .call c) (hs : t.semop p c.semOp true = some t') :
    Held ⟨some t', Function.update pc p (.showValue c)⟩ := by
  have ho : t.otime = true := by
    simpa using hI.past p (by simp [hpc, Pc.past])
  obtain ⟨holder, hu⟩ := hset.unit ho
  obtain ⟨hv, rfl⟩ := SemSet.semop_eq_some.1 hs
  refine h.update (fun _ => rfl) (fun q hne => by simp [hne]) ?_
  intro hy
  refine ⟨rfl, ?_⟩
  -- Only the two calls of `_semWait` lead to a place where the unit is held.
  cases c with
  | wait => simpa [Call.semOp] using hu.semadj_take hv p
  | post => cases hy
  | waitAgain => simpa [Call.semOp] using hu.semadj_take hv p

theorem held_step (h : Held ⟨s, pc⟩) (hset : ∀ t, s = some t → SetOk t pc) (hI : Inv ⟨s, pc⟩)
    (hG : SemopSucceeds ⟨s, pc⟩ (p, op)) (hs : Step p op s (pc p) s' y) :
    Held ⟨s', Function.update pc p y⟩ := by
  generalize hx : pc p = x at hs
  cases hs with
  | move hm =>
    refine (Function.forall_update_iff _ fun q (x : Pc) => x.holding = true →
      ∃ t, s = some t ∧ t.otime = true ∧ t.semadj q = 1).2 ⟨?_, fun q _ => h q⟩
    intro hy
    exact h p (by simpa [hx] using hm.holding hG.1 hy)
  | create => exact .of_not_holding (h.not_holding (by simp)) rfl
  | setval =>
    have ho := hI.making p (by simp [hx, Pc.making])
    exact .of_not_holding (h.not_holding (by rw [ho]; simp)) rfl
  | init hs =>
    have ho := hI.making p (by simp [hx, Pc.making])
    exact .of_not_holding (h.not_holding (by rw [ho]; simp)) rfl
  | semop hs => exact h.semop (hset _ rfl) hI hx hs
  | exit =>
    cases s with
    | none => exact .of_not_holding (h.not_holding (by simp)) rfl
    | some t =>
      refine h.update (fun ho => ho) ?_ fun hy => by cases hy
      intro q hne
      simp [SemSet.undo, hne]

theorem held_invariant : ((system ι).guard SemopSucceeds).Invariant fun w =>
    (Inv w ∧ ∀ s, w.shared = some s → SetOk s w.pc) ∧ Held w := by
  apply interleave_guard_invariant
  · refine ⟨⟨inv_invariant.init _ rfl, fun s hs => by cases hs⟩, ?_⟩
    intro p hp
    cases hp
  · intro p op s pc s' y h hG hs
    have hstep := step_cases hs
    have hfirst : FirstWaitSucceeds ⟨s, pc⟩ (p, op) := fun hf => hG.1 hf.2
    exact ⟨⟨inv_step h.1.1 hstep, setOk_step h.1.2 h.1.1 hfirst hstep⟩,
      held_step h.2 h.1.2 h.1.1 hG hstep⟩

theorem UnitAt.sum [Fintype ι] {s : SemSet ι} {holder : Option ι} (h : UnitAt s holder) :
    s.value + ∑ p, s.semadj p = 1 := by
  cases holder with
  | none => simp [h.1, h.2]
  | some q => simp [h.1, h.2]

theorem UnitAt.semadj {s : SemSet ι} {holder : Option ι} (h : UnitAt s holder) (p : ι) :
    s.semadj p = 0 ∨ s.semadj p = 1 := by
  cases holder with
  | none => exact Or.inl (h.2 p)
  | some q =>
    have := h.2 p
    split_ifs at this
    · exact Or.inr this
    · exact Or.inl this

/-- **Conservation**, in every run in which `semop` succeeds whenever it returns and processes
exit at any point. After the initialisation the value and the adjustments of the living processes
sum up to 1; one process at most is between a `_semWait` and the matching `_semPost`; and the value
is 1 when no process is alive. -/
theorem undo_conservation [Fintype ι] {tr : List (ι × Op)}
    {w : Threads ι (Option (SemSet ι)) Pc} (h : ((system ι).guard SemopSucceeds).Run tr w)
    {s : SemSet ι} (hs : w.shared = some s) (ho : s.otime = true) :
    s.value + ∑ p with (w.pc p).alive = true, s.semadj p = 1 ∧
      (∀ p, s.semadj p = 0 ∨ s.semadj p = 1) ∧ (s.value = 0 ∨ s.value = 1) ∧
      (∀ p q, (w.pc p).holding = true → (w.pc q).holding = true → p = q) ∧
      ((∀ p, (w.pc p).alive = false) → s.value = 1) := by
  obtain ⟨⟨-, hset⟩, hheld⟩ := held_invariant.run h
  obtain ⟨holder, hu⟩ := (hset s hs).unit ho
  have hsum : ∑ p with (w.pc p).alive = true, s.semadj p = ∑ p, s.semadj p := by
    apply Finset.sum_filter_of_ne
    intro p _ hne
    by_contra halive
    exact hne ((hset s hs).free p (by simpa using halive))
  refine ⟨?_, hu.semadj, hu.value, ?_, ?_⟩
  · rw [hsum]
    exact hu.sum
  · intro p q hp hq
    have hone : ∀ r, (w.pc r).holding = true → holder = some r := by
      intro r hr
      obtain ⟨t, ht, -, hadj⟩ := hheld r hr
      rw [hs] at ht
      cases ht
      exact hu.unique hadj
    exact Option.some.inj ((hone p hp).symm.trans (hone q hq))
  · intro hdead
    have hzero : ∑ p, s.semadj p = 0 :=
      Finset.sum_eq_zero fun p _ => (hset s hs).free p (hdead p)
    have := hu.sum
    rw [hzero] at this
    simpa using this

end Held

theorem undo_conservation_exits :
    ∃ w s, ((system (Fin 2)).guard SemopSucceeds).Run
      (createAndShow 0 ++ openAndShow 1 ++ [(0, .semop true), (0, .exit)] ++ waitAndPost 1 ++
        [(1, .exit)]) w ∧
      w.shared = some s ∧ s.otime = true ∧ (∀ p, (w.pc p).alive = false) ∧ s.value = 1 := by
  obtain ⟨w, hw, hp⟩ := exists_guard_run_of_exec (next step) (fun _ _ h => h)
    (.init rfl : ((system (Fin 2)).guard SemopSucceeds).Run [] _)
    (createAndShow 0 ++ openAndShow 1 ++ [(0, .semop true), (0, .exit)] ++ waitAndPost 1 ++
      [(1, .exit)])
    (fun w => decide (w.shared.map SemSet.otime = some true ∧ ∀ p, (w.pc p).alive = false))
    (by decide)
  obtain ⟨hsome, hdead⟩ := of_decide_eq_true hp
  obtain ⟨s, hs, ho⟩ := Option.map_eq_some_iff.1 hsome
  exact ⟨w, s, hw, hs, ho, hdead, (undo_conservation hw hs ho).2.2.2.2 hdead⟩

end LinuxDemo.SysvSemaphore
