import Mathlib.Data.Fintype.BigOperators
import LinuxDemo.Lib.Names

/-!
# The named semaphore

`process/posix-ipc/semaphore/named.c`: any number of processes run `main`. A process creates the
semaphore of the name or opens the existing one, tries to take a unit, gives one and tries again. The
one that has created the semaphore unlinks the name at its end, so processes that come later create
another one.

* `value_exact`: each semaphore has the units that were given and not taken.
* `name_exact`: the name leads to a semaphore as long as its creator has not unlinked it, and nobody
  unlinks the name of another semaphore.
-/

namespace LinuxDemo.NamedSemaphore

open Lts Threads

variable {ι : Type*}

/-! ## The program -/

/-- What a process executes next. It works with the semaphore `k`, which it has created if `c`, and has
taken `t` units from. -/
inductive Pc where
  /-- `sem_open(semMame, O_CREAT | O_EXCL, ..)`. -/
  | create
  /-- `sem_open(semMame, 0)`. -/
  | openExisting
  /-- The first `_printSemValue`. -/
  | show1 (k : ℕ) (c : Bool)
  | tryWait1 (k : ℕ) (c : Bool)
  | post (k : ℕ) (c : Bool) (t : ℕ)
  | show2 (k : ℕ) (c : Bool) (t : ℕ)
  | tryWait2 (k : ℕ) (c : Bool) (t : ℕ)
  | show3 (k : ℕ) (c : Bool) (t : ℕ)
  | close (k : ℕ) (c : Bool) (t : ℕ)
  | unlink (k : ℕ) (t : ℕ)
  /-- `main` has returned 0. -/
  | returned (k : ℕ) (t : ℕ)
  /-- `main` has returned -1. -/
  | failed
  deriving DecidableEq

/-- What a process does in one step. -/
inductive Op where
  | create
  /-- `sem_open` fails, because the name exists or for another reason. -/
  | createFails
  | openExisting (ok : Bool)
  | getValue
  | tryWait
  | post
  | close
  | unlink
  deriving DecidableEq

/-- A process executes one step. -/
def step : Op → Names ℕ → Pc → Option (Names ℕ × Pc)
  | .create, n, .create => (n.create 0).map fun n' => (n', .show1 n.fresh true)
  | .createFails, n, .create => some (n, .openExisting)
  | .openExisting true, n, .openExisting => n.name.map fun k => (n, .show1 k false)
  | .openExisting false, n, .openExisting => some (n, .failed)
  | .getValue, n, .show1 k c => some (n, .tryWait1 k c)
  | .tryWait, n, .tryWait1 k c =>
    if n.object k = 0 then some (n, .post k c 0)
    else some (n.put k (n.object k - 1), .post k c 1)
  | .post, n, .post k c t => some (n.put k (n.object k + 1), .show2 k c t)
  | .getValue, n, .show2 k c t => some (n, .tryWait2 k c t)
  | .tryWait, n, .tryWait2 k c t =>
    if n.object k = 0 then some (n, .show3 k c t)
    else some (n.put k (n.object k - 1), .show3 k c (t + 1))
  | .getValue, n, .show3 k c t => some (n, .close k c t)
  | .close, n, .close k c t => some (n, if c then .unlink k t else .returned k t)
  | .unlink, n, .unlink k t => some (n.unlink, .returned k t)
  | _, _, _ => none

/-- Any number of processes, started at any time. -/
def system (ι : Type*) [DecidableEq ι] : Lts (Threads ι (Names ℕ) Pc) (ι × Op) :=
  interleave (.unused 0) (fun _ => .create) fun _ => step

/-! ## Views of a process -/

namespace Pc

/-- The semaphore of a process. -/
def handle : Pc → Option ℕ
  | show1 k _ | tryWait1 k _ | post k _ _ | show2 k _ _ | tryWait2 k _ _ | show3 k _ _
  | close k _ _ | unlink k _ | returned k _ => some k
  | create | openExisting | failed => none

/-- The semaphore that a process has created and is still to unlink. -/
def created : Pc → Option ℕ
  | show1 k true | tryWait1 k true | post k true _ | show2 k true _ | tryWait2 k true _
  | show3 k true _ | close k true _ | unlink k _ => some k
  | _ => none

/-- The units a process has taken. -/
def taken : Pc → ℕ
  | post _ _ t | show2 _ _ t | tryWait2 _ _ t | show3 _ _ t | close _ _ t | unlink _ t
  | returned _ t => t
  | _ => 0

/-- The units a process has given. -/
def given : Pc → ℕ
  | show2 _ _ _ | tryWait2 _ _ _ | show3 _ _ _ | close _ _ _ | unlink _ _ | returned _ _ => 1
  | _ => 0

end Pc

/-- The units in a semaphore, and those a process has given and not taken. -/
def account : Names.Account ℕ Pc ℤ where
  measure v := v
  weight k x := if x.handle = some k then (x.given : ℤ) - x.taken else 0
  handle := Pc.handle
  weight_eq_zero h := if_neg h

/-! ## What one step does -/

/-- The steps that leave the kernel alone. -/
inductive Move (n : Names ℕ) : Op → Pc → Pc → Prop
  | createFails : Move n .createFails .create .openExisting
  | openFinds {k : ℕ} (h : n.name = some k) :
      Move n (.openExisting true) .openExisting (.show1 k false)
  | openFails : Move n (.openExisting false) .openExisting .failed
  | show1 {k : ℕ} {c : Bool} : Move n .getValue (.show1 k c) (.tryWait1 k c)
  | show2 {k t : ℕ} {c : Bool} : Move n .getValue (.show2 k c t) (.tryWait2 k c t)
  | show3 {k t : ℕ} {c : Bool} : Move n .getValue (.show3 k c t) (.close k c t)
  | tryWait1 {k : ℕ} {c : Bool} : Move n .tryWait (.tryWait1 k c) (.post k c 0)
  | tryWait2 {k t : ℕ} {c : Bool} : Move n .tryWait (.tryWait2 k c t) (.show3 k c t)
  | close {k t : ℕ} {c : Bool} :
      Move n .close (.close k c t) (if c then .unlink k t else .returned k t)

/-- Everything a step of `main` can do. -/
inductive Step (n : Names ℕ) : Op → Pc → Names ℕ → Pc → Prop
  | move {op : Op} {x y : Pc} (h : Move n op x y) : Step n op x n y
  | create (h : n.name = none) :
      Step n .create .create ⟨some n.fresh, Function.update n.object n.fresh 0, n.fresh + 1⟩
        (.show1 n.fresh true)
  | take1 {k : ℕ} {c : Bool} (h : n.object k ≠ 0) :
      Step n .tryWait (.tryWait1 k c) (n.put k (n.object k - 1)) (.post k c 1)
  | take2 {k t : ℕ} {c : Bool} (h : n.object k ≠ 0) :
      Step n .tryWait (.tryWait2 k c t) (n.put k (n.object k - 1)) (.show3 k c (t + 1))
  | post {k t : ℕ} {c : Bool} :
      Step n .post (.post k c t) (n.put k (n.object k + 1)) (.show2 k c t)
  | unlink {k t : ℕ} : Step n .unlink (.unlink k t) n.unlink (.returned k t)

theorem step_cases {op : Op} {n n' : Names ℕ} {x y : Pc} (h : step op n x = some (n', y)) :
    Step n op x n' y := by
  unfold step at h
  split at h
  · obtain ⟨n', hn, he⟩ := Option.map_eq_some_iff.1 h
    cases he
    obtain ⟨hname, rfl⟩ := Names.create_eq_some.1 hn
    exact .create hname
  · cases h
    exact .move .createFails
  · obtain ⟨k, hk, he⟩ := Option.map_eq_some_iff.1 h
    cases he
    exact .move (.openFinds hk)
  · cases h
    exact .move .openFails
  · cases h
    exact .move .show1
  · split_ifs at h with hv <;> cases h
    · exact .move .tryWait1
    · exact .take1 hv
  · cases h
    exact .post
  · cases h
    exact .move .show2
  · split_ifs at h with hv <;> cases h
    · exact .move .tryWait2
    · exact .take2 hv
  · cases h
    exact .move .show3
  · cases h
    exact .move .close
  · cases h
    exact .unlink
  · cases h

section Runs

variable [DecidableEq ι] [Fintype ι] {n n' : Names ℕ} {pc : ι → Pc} {p : ι} {op : Op} {y : Pc}

theorem balanced_step (h : Names.Balanced account ⟨n, pc⟩) (hs : Step n op (pc p) n' y) :
    Names.Balanced account ⟨n', Function.update pc p y⟩ := by
  have hbound := h.handle p
  dsimp only at hbound
  generalize hpc : pc p = x at hs hbound
  cases hs with
  | move hm =>
    refine h.move ?_ fun k => ?_
    · cases hm with
      | openFinds hk => rintro k ⟨⟩; exact h.name _ hk
      | openFails | createFails => rintro k ⟨⟩
      | @close k t c => cases c <;> exact hbound
      | _ => exact hbound
    · rw [hpc]
      cases hm with
      | @close k t c => cases c <;> rfl
      | _ => simp [account, Pc.handle, Pc.given, Pc.taken]
  | create hn => exact h.create (by rw [hpc]; rfl) rfl (by simp [account, Pc.given, Pc.taken])
  | take1 hv =>
    refine h.put (by rw [hpc]; rfl) (fun j hj => (Option.some.inj hj).symm) ?_
    rw [hpc]
    simp only [account, Pc.handle, Pc.given, Pc.taken, if_true]
    omega
  | take2 hv =>
    refine h.put (by rw [hpc]; rfl) (fun j hj => (Option.some.inj hj).symm) ?_
    rw [hpc]
    simp only [account, Pc.handle, Pc.given, Pc.taken, if_true]
    omega
  | post =>
    refine h.put (by rw [hpc]; rfl) (fun j hj => (Option.some.inj hj).symm) ?_
    rw [hpc]
    simp only [account, Pc.handle, Pc.given, Pc.taken, if_true]
    omega
  | unlink =>
    refine h.step rfl (fun k hk => by cases hk) (fun k hk => hbound k hk) fun k _ => ?_
    rw [hpc]
    rfl

theorem balanced_invariant : (system ι).Invariant (Names.Balanced account) := by
  apply interleave_invariant
  · refine ⟨?_, ?_, ?_⟩
    · intro k hk
      cases hk
    · intro p k hk
      cases hk
    · intro k hk
      exact absurd hk (Nat.not_lt_zero k)
  · intro p op n pc n' y h hs
    exact balanced_step h (step_cases hs)

omit [DecidableEq ι] in
/-- What is in a semaphore that only process `p` works with. -/
theorem value_alone {w : Threads ι (Names ℕ) Pc} (h : Names.Balanced account w) {k : ℕ}
    (hp : (w.pc p).handle = some k) (halone : ∀ q, q ≠ p → (w.pc q).handle ≠ some k) :
    (w.shared.object k : ℤ) = (w.pc p).given - (w.pc p).taken := by
  have hsum := h.balance k (h.handle p k hp)
  rw [Finset.sum_eq_single p] at hsum
  · rw [show ((w.shared.object k : ℕ) : ℤ) = account.weight k (w.pc p) from hsum]
    exact if_pos hp
  · intro q _ hq
    exact account.weight_eq_zero (halone q hq)
  · intro hnot
    exact absurd (Finset.mem_univ p) hnot

/-- **The units of every semaphore**, in every run. Each semaphore that was ever created has the units
that the processes working with it have given and not taken. So when a process has the semaphore for
itself, its first `sem_trywait` finds nothing and its second one finds the unit it has given. -/
theorem value_exact {tr : List (ι × Op)} {w : Threads ι (Names ℕ) Pc} (h : (system ι).Run tr w) :
    (∀ k < w.shared.fresh,
      (w.shared.object k : ℤ) =
        ∑ p with (w.pc p).handle = some k, ((w.pc p).given - (w.pc p).taken : ℤ)) ∧
      ∀ p k c, (∀ q, q ≠ p → (w.pc q).handle ≠ some k) →
        (w.pc p = .tryWait1 k c → w.shared.object k = 0) ∧
        (w.pc p = .tryWait2 k c 0 → w.shared.object k = 1) := by
  have hbal := balanced_invariant.run h
  refine ⟨fun k hk => ?_, fun p k c halone => ⟨fun hp => ?_, fun hp => ?_⟩⟩
  · rw [Finset.sum_filter]
    exact hbal.balance k hk
  · have hvalue := value_alone hbal (by rw [hp]; rfl) halone
    rw [hp] at hvalue
    exact Int.natCast_eq_zero.1 hvalue
  · have hvalue := value_alone hbal (by rw [hp]; rfl) halone
    rw [hp] at hvalue
    exact Int.natCast_inj.1 hvalue

/-! ## The name -/

/-- The name leads to the semaphore of the one creator that has not unlinked it. -/
structure NameOk (w : Threads ι (Names ℕ) Pc) : Prop where
  name : ∀ k, w.shared.name = some k → ∃ p, (w.pc p).created = some k
  created : ∀ p k, (w.pc p).created = some k → w.shared.name = some k
  unique : ∀ p q k j, (w.pc p).created = some k → (w.pc q).created = some j → p = q

omit [Fintype ι] in
/-- A step that changes neither the name nor who has created. -/
theorem NameOk.same (h : NameOk ⟨n, pc⟩) (hn : n'.name = n.name)
    (hy : y.created = (pc p).created) : NameOk ⟨n', Function.update pc p y⟩ := by
  have hsame : ∀ q, (Function.update pc p y q).created = (pc q).created := by
    intro q
    by_cases hq : q = p
    · subst hq
      rw [Function.update_self, hy]
    · rw [Function.update_of_ne hq]
  refine ⟨fun k hk => ?_, fun q k hq => ?_, fun q r k j hq hr => ?_⟩
  · obtain ⟨q, hq⟩ := h.name k (hn ▸ hk)
    exact ⟨q, (hsame q).trans hq⟩
  · exact hn.trans (h.created q k ((hsame q).symm.trans hq))
  · exact h.unique q r k j ((hsame q).symm.trans hq) ((hsame r).symm.trans hr)

omit [Fintype ι] in
theorem nameOk_step (h : NameOk ⟨n, pc⟩) (hs : Step n op (pc p) n' y) :
    NameOk ⟨n', Function.update pc p y⟩ := by
  generalize hpc : pc p = x at hs
  cases hs with
  | move hm =>
    refine h.same rfl ?_
    rw [hpc]
    cases hm with
    | @show1 k c | @show2 k t c | @show3 k t c | @tryWait1 k c | @tryWait2 k t c | @close k t c =>
      cases c <;> rfl
    | _ => rfl
  | @take1 k c | @take2 k t c | @post k t c => exact h.same rfl (by rw [hpc]; cases c <;> rfl)
  | create hn =>
    have hnone : ∀ q k, (pc q).created ≠ some k := by
      intro q k hq
      have hname : n.name = some k := h.created q k hq
      rw [hn] at hname
      cases hname
    have hother : ∀ q k, (Function.update pc p (.show1 n.fresh true) q).created = some k →
        q = p ∧ k = n.fresh := by
      intro q k hq
      by_cases hqp : q = p
      · subst hqp
        rw [Function.update_self] at hq
        exact ⟨rfl, (Option.some.inj hq).symm⟩
      · rw [Function.update_of_ne hqp] at hq
        exact absurd hq (hnone q k)
    refine ⟨?_, fun q k hq => ?_, fun q r k j hq hr => ?_⟩
    · rintro k ⟨⟩
      refine ⟨p, ?_⟩
      show (Function.update pc p _ p).created = _
      rw [Function.update_self]
      rfl
    · rw [(hother q k hq).2]
    · rw [(hother q k hq).1, (hother r j hr).1]
  | @unlink k t =>
    -- Only process `p` has created a semaphore, so nobody is left.
    have hmine : (pc p).created = some k := by rw [hpc]; rfl
    have hnone : ∀ q j, (Function.update pc p (.returned k t) q).created ≠ some j := by
      intro q j hq
      by_cases hqp : q = p
      · subst hqp
        rw [Function.update_self] at hq
        cases hq
      · rw [Function.update_of_ne hqp] at hq
        exact hqp (h.unique q p j k hq hmine)
    refine ⟨?_, fun q j hq => absurd hq (hnone q j), fun q r j i hq => absurd hq (hnone q j)⟩
    intro j hj
    cases hj

omit [Fintype ι] in
/-- **Who unlinks what**, in every run. The name leads to a semaphore if and only if the process that
has created it is still to unlink it; in particular a process never unlinks the name of a semaphore
that another process has created, and the name is free when all processes have returned. -/
theorem name_exact {tr : List (ι × Op)} {w : Threads ι (Names ℕ) Pc} (h : (system ι).Run tr w) :
    (∀ k, w.shared.name = some k ↔ ∃ p, (w.pc p).created = some k) ∧
      ∀ p q k j, (w.pc p).created = some k → (w.pc q).created = some j → p = q := by
  have hok : NameOk w := by
    refine Invariant.run (M := system ι) (interleave_invariant ?_ ?_) h
    · refine ⟨?_, ?_, ?_⟩
      · intro k hk
        cases hk
      · intro p k hp
        cases hp
      · intro p q k j hp
        cases hp
    · intro p op n pc n' y hw hs
      exact nameOk_step hw (step_cases hs)
  refine ⟨fun k => ⟨hok.name k, ?_⟩, hok.unique⟩
  rintro ⟨p, hp⟩
  exact hok.created p k hp

end Runs

/-- Process `p` goes on to its second `sem_trywait`. -/
def postOne (p : ι) : List (ι × Op) := [(p, .getValue), (p, .tryWait), (p, .post), (p, .getValue)]

theorem value_exact_second :
    ∃ w, (system (Fin 2)).Run ((0, .create) :: postOne 0) w ∧ w.shared.object 0 = 1 := by
  obtain ⟨w, hw, hp⟩ := exists_run_of_exec ⟨.unused 0, fun _ => Pc.create⟩ (next fun _ => step)
    ((0, .create) :: postOne (0 : Fin 2))
    (fun w => decide (w.pc 0 = .tryWait2 0 true 0 ∧ ∀ q, q ≠ 0 → (w.pc q).handle ≠ some 0))
    (by decide)
  obtain ⟨hpc, halone⟩ := of_decide_eq_true hp
  exact ⟨w, hw, ((value_exact hw).2 0 0 true halone).2 hpc⟩

theorem name_exact_second :
    ∃ w, (system (Fin 2)).Run [(0, .create), (1, .createFails), (1, .openExisting true)] w ∧
      w.shared.name = some 0 := by
  obtain ⟨w, hw, hp⟩ := exists_run_of_exec ⟨.unused 0, fun _ => Pc.create⟩ (next fun _ => step)
    [((0 : Fin 2), .create), (1, .createFails), (1, .openExisting true)]
    (fun w => decide ((w.pc 0).created = some 0)) (by decide)
  exact ⟨w, hw, ((name_exact hw).1 0).2 ⟨0, of_decide_eq_true hp⟩⟩

end LinuxDemo.NamedSemaphore
