import Mathlib.Algebra.BigOperators.Fin
import LinuxDemo.Lib.Lock
import LinuxDemo.Lib.Threads

/-!
# Counters under a lock

`thread/mutex`, `thread/spin-lock` and `thread/rw-lock`: two workers each increment `counter`
`maxTestNumber` times, and take a lock around every increment. `counter++` is a load and a store.
Other threads only take the lock: `main` of the mutex demo, which takes its recursive mutex twice
before it starts the workers, and any number of readers of the read-write lock, which look at the
counter outside the lock.

The three workers are one program for any lock, and so is the argument.

* `inv_run`: in every run, a worker that has loaded the counter holds the lock, what it loaded is
  still there, and the counter is the number of increments.
* `no_lost_update`: the three demos.
-/

namespace LinuxDemo.LockedCounter

open Lts

/-- What a worker executes next. -/
inductive WorkerPc where
  /-- The thread does not run yet. -/
  | idle
  /-- The test of the loop in round `i`. -/
  | test (i : ℕ)
  | load (i : ℕ)
  | store (i : ℕ) (value : ℕ)
  | unlock (i : ℕ)
  /-- The worker has returned at the end of its loop. -/
  | returned
  /-- The worker has returned after a call that failed, with `n` increments done. -/
  | failed (n : ℕ) (inside : Bool)
  deriving DecidableEq

/-- What a worker does in one step; the calls say if they succeed. -/
inductive WorkerOp where
  | start
  | lock (ok : Bool)
  | load
  | store
  | unlock (ok : Bool)
  /-- The loop is over. -/
  | leave
  deriving DecidableEq

/-- The lock, the counter, and the values it has had. -/
structure Shared (σ : Type*) where
  lock : σ
  counter : ℕ
  held : List ℕ

/-- The increments a worker at this place has done. -/
def WorkerPc.done (maxTestNumber : ℕ) : WorkerPc → ℕ
  | .idle => 0
  | .test i | .load i | .store i _ => i
  | .unlock i => i + 1
  | .returned => maxTestNumber
  | .failed n _ => n

/-- Between the return of the lock call and that of the unlock call. -/
def WorkerPc.inside : WorkerPc → Bool
  | .load _ | .store _ _ | .unlock _ => true
  | .failed _ b => b
  | _ => false

variable {κ σ π ε : Type*} [DecidableEq κ]

/-- One step of worker `w`. Where the results of the calls are `checked`, a call that fails ends
the worker; else calls succeed. -/
def workerStep (L : Lock (Fin 2 ⊕ κ) σ) (checked : Bool) (maxTestNumber : ℕ) (w : Fin 2) :
    WorkerOp → Shared σ → WorkerPc → Option (Shared σ × WorkerPc)
  | .lock true, s, .test i =>
    if i < maxTestNumber then
      (L.lock (.inl w) s.lock).map fun l => ({ s with lock := l }, .load i)
    else none
  | .lock false, s, .test i =>
    if checked ∧ i < maxTestNumber then some (s, .failed i false) else none
  | .load, s, .load i => some (s, .store i s.counter)
  | .store, s, .store i v =>
    some ({ s with counter := v + 1, held := (v + 1) :: s.held }, .unlock i)
  | .unlock true, s, .unlock i =>
    (L.unlock (.inl w) s.lock).map fun l => ({ s with lock := l }, .test (i + 1))
  | .unlock false, s, .unlock i => if checked then some (s, .failed (i + 1) true) else none
  | .leave, s, .test i => if i < maxTestNumber then none else some (s, .returned)
  | _, _, _ => none

/-- The threads `κ` besides the workers. They take the lock and give it back, and can see the
values that the counter has had. -/
structure Others (L : Lock (Fin 2 ⊕ κ) σ) (π ε : Type*) where
  start : κ → π
  step : κ → ε → σ → List ℕ → π → Option (σ × π)
  /-- How often a thread at this place has taken the lock. -/
  depth : π → ℕ
  /-- Worker `w` has been started. -/
  started : (κ → π) → Fin 2 → Bool
  depth_start : ∀ k, depth (start k) = 0
  /-- They change nothing in who has the lock but their own part. -/
  step_holds : ∀ {k e s held x s' y}, step k e s held x = some (s', y) →
    L.holds s (.inr k) = depth x →
      L.holds s' = Function.update (L.holds s) (.inr k) (depth y)

/-- Two workers and the other threads. -/
structure World (κ σ π : Type*) where
  shared : Shared σ
  worker : Fin 2 → WorkerPc
  other : κ → π

/-- A step of a worker or of another thread. -/
abbrev Event (κ ε : Type*) := (Fin 2 × WorkerOp) ⊕ (κ × ε)

/-- One thread executes one step. -/
def next {L : Lock (Fin 2 ⊕ κ) σ} (O : Others L π ε) (checked : Bool) (maxTestNumber : ℕ)
    (w : World κ σ π) : Event κ ε → Option (World κ σ π)
  | .inl (i, .start) =>
    if w.worker i = .idle ∧ O.started w.other i = true then
      some { w with worker := Function.update w.worker i (.test 0) }
    else none
  | .inl (i, op) =>
    (workerStep L checked maxTestNumber i op w.shared (w.worker i)).map fun r =>
      { w with shared := r.1, worker := Function.update w.worker i r.2 }
  | .inr (k, e) =>
    (O.step k e w.shared.lock w.shared.held (w.other k)).map fun r =>
      { w with shared := { w.shared with lock := r.1 }, other := Function.update w.other k r.2 }

/-- The lock is free, the counter is 0 and no worker runs. -/
def initial {L : Lock (Fin 2 ⊕ κ) σ} (O : Others L π ε) : World κ σ π :=
  ⟨⟨L.free, 0, [0]⟩, fun _ => .idle, O.start⟩

/-- All interleavings. -/
def system {L : Lock (Fin 2 ⊕ κ) σ} (O : Others L π ε) (checked : Bool) (maxTestNumber : ℕ) :
    Lts (World κ σ π) (Event κ ε) :=
  ofNext (initial O) (next O checked maxTestNumber)

/-! ## What one step does -/

/-- The steps of a worker outside its increments. -/
inductive Move (L : Lock (Fin 2 ⊕ κ) σ) (maxTestNumber : ℕ) (w : Fin 2) (l : σ) :
    WorkerOp → WorkerPc → σ → WorkerPc → Prop
  | start : Move L maxTestNumber w l .start .idle l (.test 0)
  | lock {i : ℕ} {l' : σ} (hi : i < maxTestNumber) (h : L.lock (.inl w) l = some l') :
      Move L maxTestNumber w l (.lock true) (.test i) l' (.load i)
  | lockFails {i : ℕ} (hi : i < maxTestNumber) :
      Move L maxTestNumber w l (.lock false) (.test i) l (.failed i false)
  | unlock {i : ℕ} {l' : σ} (h : L.unlock (.inl w) l = some l') :
      Move L maxTestNumber w l (.unlock true) (.unlock i) l' (.test (i + 1))
  | unlockFails {i : ℕ} :
      Move L maxTestNumber w l (.unlock false) (.unlock i) l (.failed (i + 1) true)
  | leave {i : ℕ} (hi : maxTestNumber ≤ i) :
      Move L maxTestNumber w l .leave (.test i) l .returned

/-- Everything a step can do. -/
inductive Step {L : Lock (Fin 2 ⊕ κ) σ} (O : Others L π ε) (maxTestNumber : ℕ)
    (w : World κ σ π) : Event κ ε → World κ σ π → Prop
  | move {i : Fin 2} {op : WorkerOp} {l : σ} {y : WorkerPc}
      (h : Move L maxTestNumber i w.shared.lock op (w.worker i) l y) :
      Step O maxTestNumber w (.inl (i, op))
        ⟨{ w.shared with lock := l }, Function.update w.worker i y, w.other⟩
  | load {i : Fin 2} {j : ℕ} (h : w.worker i = .load j) :
      Step O maxTestNumber w (.inl (i, .load))
        ⟨w.shared, Function.update w.worker i (.store j w.shared.counter), w.other⟩
  | store {i : Fin 2} {j v : ℕ} (h : w.worker i = .store j v) :
      Step O maxTestNumber w (.inl (i, .store))
        ⟨{ w.shared with counter := v + 1, held := (v + 1) :: w.shared.held },
          Function.update w.worker i (.unlock j), w.other⟩
  | other {k : κ} {e : ε} {l : σ} {y : π}
      (h : O.step k e w.shared.lock w.shared.held (w.other k) = some (l, y)) :
      Step O maxTestNumber w (.inr (k, e))
        ⟨{ w.shared with lock := l }, w.worker, Function.update w.other k y⟩

section Cases

variable {L : Lock (Fin 2 ⊕ κ) σ} {O : Others L π ε} {checked : Bool} {maxTestNumber : ℕ}
  {w w' : World κ σ π}

theorem worker_cases {i : Fin 2} {op : WorkerOp} {s : Shared σ} {y : WorkerPc}
    (h : workerStep L checked maxTestNumber i op w.shared (w.worker i) = some (s, y)) :
    Step O maxTestNumber w (.inl (i, op)) ⟨s, Function.update w.worker i y, w.other⟩ := by
  generalize hx : w.worker i = x at h
  unfold workerStep at h
  split at h
  · split_ifs at h with hi
    obtain ⟨l, hl, he⟩ := Option.map_eq_some_iff.1 h
    cases he
    exact .move (hx ▸ .lock hi hl)
  · split_ifs at h with hi
    cases h
    exact .move (hx ▸ .lockFails hi.2)
  · cases h
    exact .load hx
  · cases h
    exact .store hx
  · obtain ⟨l, hl, he⟩ := Option.map_eq_some_iff.1 h
    cases he
    exact .move (hx ▸ .unlock hl)
  · split_ifs at h
    cases h
    exact .move (hx ▸ .unlockFails)
  · split_ifs at h with hi
    cases h
    exact .move (hx ▸ .leave (Nat.not_lt.1 hi))
  · cases h

theorem next_cases {e : Event κ ε} (h : next O checked maxTestNumber w e = some w') :
    Step O maxTestNumber w e w' := by
  unfold next at h
  split at h
  · split_ifs at h with hi
    cases h
    exact .move (hi.1 ▸ .start)
  · obtain ⟨⟨s, y⟩, hs, rfl⟩ := Option.map_eq_some_iff.1 h
    exact worker_cases hs
  · obtain ⟨⟨l, y⟩, hs, rfl⟩ := Option.map_eq_some_iff.1 h
    exact .other hs

end Cases

/-! ## The counter -/

/-- The step completes an increment. -/
def isStore : Event κ ε → Bool
  | .inl (_, .store) => true
  | _ => false

/-- The increments completed in a run. -/
def increments : List (Event κ ε) → ℕ := List.countP isStore

/-- What holds at a place of a worker: it has not passed its bound, and what it has loaded is
still in the counter. -/
def WorkerPc.Ok (maxTestNumber counter : ℕ) : WorkerPc → Prop
  | .test i => i ≤ maxTestNumber
  | .load i | .unlock i => i < maxTestNumber
  | .store i v => i < maxTestNumber ∧ v = counter
  | .failed n _ => n ≤ maxTestNumber
  | _ => True

/-- A worker is inside exactly when it has the lock, and the counter is the sum of all
increments. -/
structure Inv {L : Lock (Fin 2 ⊕ κ) σ} (O : Others L π ε) (maxTestNumber : ℕ)
    (w : World κ σ π) : Prop where
  workers : ∀ i, L.holds w.shared.lock (.inl i) = if (w.worker i).inside then 1 else 0
  others : ∀ k, L.holds w.shared.lock (.inr k) = O.depth (w.other k)
  exclusive : ∀ i j, (w.worker i).inside = true → (w.worker j).inside = true → i = j
  ok : ∀ i, (w.worker i).Ok maxTestNumber w.shared.counter
  counter : w.shared.counter = ∑ i, (w.worker i).done maxTestNumber
  held : ∀ v ∈ w.shared.held, v ≤ w.shared.counter

section Keep

variable {L : Lock (Fin 2 ⊕ κ) σ} {O : Others L π ε} {maxTestNumber : ℕ} {w : World κ σ π}
  {i : Fin 2} {y : WorkerPc}

/-- Worker `i` goes on at `y`, with its own part of the lock and of the counter changed. -/
theorem Inv.worker (h : Inv O maxTestNumber w) {s : Shared σ}
    (hholds : L.holds s.lock =
      Function.update (L.holds w.shared.lock) (.inl i) (if y.inside then 1 else 0))
    (hin : y.inside = true → ∀ j, j ≠ i → (w.worker j).inside = false)
    (hy : y.Ok maxTestNumber s.counter)
    (hok : ∀ j, j ≠ i → (w.worker j).Ok maxTestNumber s.counter)
    (hc : s.counter + (w.worker i).done maxTestNumber =
      w.shared.counter + y.done maxTestNumber)
    (hheld : ∀ v ∈ s.held, v ≤ s.counter) :
    Inv O maxTestNumber ⟨s, Function.update w.worker i y, w.other⟩ where
  workers := by
    intro j
    show L.holds s.lock (.inl j) = if (Function.update w.worker i y j).inside then 1 else 0
    rw [hholds]
    by_cases hj : j = i
    · simp [hj]
    · simpa [hj] using h.workers j
  others := by
    intro k
    show L.holds s.lock (.inr k) = O.depth (w.other k)
    rw [hholds, Function.update_of_ne (by simp)]
    exact h.others k
  exclusive := by
    have hwith : y.inside = true → ∀ j, (Function.update w.worker i y j).inside = true → j = i := by
      intro hyin j hj
      by_contra hne
      rw [Function.update_of_ne hne, hin hyin j hne] at hj
      cases hj
    intro j k hj hk
    have hj' : (Function.update w.worker i y j).inside = true := hj
    have hk' : (Function.update w.worker i y k).inside = true := hk
    by_cases hji : j = i
    · subst hji
      rw [Function.update_self] at hj'
      exact (hwith hj' k hk).symm
    · by_cases hki : k = i
      · subst hki
        rw [Function.update_self] at hk'
        exact hwith hk' j hj
      · rw [Function.update_of_ne hji] at hj'
        rw [Function.update_of_ne hki] at hk'
        exact h.exclusive j k hj' hk'
  ok := (Function.forall_update_iff _ fun _ (x : WorkerPc) => x.Ok maxTestNumber s.counter).2
    ⟨hy, hok⟩
  counter := by
    have hsum := Threads.sum_update (WorkerPc.done maxTestNumber) w.worker i y
    rw [← h.counter] at hsum
    show s.counter = ∑ j, (Function.update w.worker i y j).done maxTestNumber
    omega
  held := hheld

theorem Move.view {op : WorkerOp} {x : WorkerPc} {l l' : σ} {c : ℕ}
    (h : Move L maxTestNumber i l op x l' y)
    (hx : L.holds l (.inl i) = if x.inside then 1 else 0) (hok : x.Ok maxTestNumber c) :
    L.holds l' = Function.update (L.holds l) (.inl i) (if y.inside then 1 else 0) ∧
      y.Ok maxTestNumber c ∧ y.done maxTestNumber = x.done maxTestNumber := by
  -- A step that does not call the lock leaves who has it as it is.
  have hsame : y.inside = x.inside →
      L.holds l = Function.update (L.holds l) (.inl i) (if y.inside then 1 else 0) := by
    intro heq
    rw [heq, ← hx, Function.update_eq_self]
  cases h with
  | start => exact ⟨hsame rfl, Nat.zero_le _, rfl⟩
  | lock hi hl =>
    refine ⟨?_, hi, rfl⟩
    rw [(L.lock_holds hl).2, hx]
    rfl
  | lockFails hi => exact ⟨hsame rfl, Nat.le_of_lt hi, rfl⟩
  | unlock hl =>
    refine ⟨?_, hok, rfl⟩
    rw [L.unlock_holds hl (by rw [hx]; exact Nat.one_pos), hx]
    rfl
  | unlockFails => exact ⟨hsame rfl, hok, rfl⟩
  | leave hi => exact ⟨hsame rfl, trivial, le_antisymm hi hok⟩

/-- Who is inside after a move was inside before it, or has just found the lock free. -/
theorem Inv.alone (h : Inv O maxTestNumber w) {op : WorkerOp} {l : σ}
    (hm : Move L maxTestNumber i w.shared.lock op (w.worker i) l y) (hy : y.inside = true)
    (j : Fin 2) (hj : j ≠ i) : (w.worker j).inside = false := by
  have hstay : (w.worker i).inside = true → (w.worker j).inside = false := by
    intro hi
    by_contra hne
    exact hj (h.exclusive j i (by simpa using hne) hi)
  generalize hx : w.worker i = x at hm hstay
  cases hm with
  | lock _ hl =>
    have hzero := (L.lock_holds hl).1 (.inl j) (by simpa using hj)
    rw [h.workers j] at hzero
    by_contra hne
    simp [hne] at hzero
  | unlockFails => exact hstay rfl
  | _ => cases hy

theorem inv_step {e : Event κ ε} {w' : World κ σ π} (h : Inv O maxTestNumber w)
    (hs : Step O maxTestNumber w e w') : Inv O maxTestNumber w' := by
  cases hs with
  | @move i op l y hm =>
    obtain ⟨hholds, hok, hdone⟩ := hm.view (h.workers i) (h.ok i)
    exact h.worker hholds (h.alone hm) hok (fun j _ => h.ok j) (by rw [hdone]) h.held
  | @load i j hx =>
    have hok := h.ok i
    rw [hx] at hok
    refine h.worker ?_ ?_ ⟨hok, rfl⟩ (fun j _ => h.ok j) (by rw [hx]; rfl) h.held
    · have hi := h.workers i
      rw [hx] at hi
      exact (Function.update_eq_self_iff.2 hi.symm).symm
    · intro _ k hk
      by_contra hne
      exact hk (h.exclusive k i (by simpa using hne) (by rw [hx]; rfl))
  | @store i j v hx =>
    have hok := h.ok i
    rw [hx] at hok
    obtain ⟨hj, rfl⟩ := hok
    have halone : ∀ k, k ≠ i → (w.worker k).inside = false := by
      intro k hk
      by_contra hne
      exact hk (h.exclusive k i (by simpa using hne) (by rw [hx]; rfl))
    refine h.worker ?_ (fun _ => halone) hj ?_ (by rw [hx]; simp [WorkerPc.done]; omega) ?_
    · have hi := h.workers i
      rw [hx] at hi
      exact (Function.update_eq_self_iff.2 hi.symm).symm
    · intro k hk
      have hout := halone k hk
      have hok := h.ok k
      generalize w.worker k = x at hout hok
      cases x with
      | store => cases hout
      | _ => exact hok
    · intro v hv
      rcases List.mem_cons.1 hv with rfl | hv
      · exact le_rfl
      · exact Nat.le_succ_of_le (h.held v hv)
  | @other k e l y hs =>
    have hholds := O.step_holds hs (h.others k)
    refine ⟨?_, ?_, h.exclusive, h.ok, h.counter, h.held⟩
    · intro i
      show L.holds l (.inl i) = _
      rw [hholds, Function.update_of_ne (by simp)]
      exact h.workers i
    · intro k'
      show L.holds l (.inr k') = O.depth (Function.update w.other k y k')
      rw [hholds]
      by_cases hk : k' = k
      · simp [hk]
      · simpa [hk] using h.others k'

theorem counter_step {e : Event κ ε} {w' : World κ σ π} (h : Inv O maxTestNumber w)
    (hs : Step O maxTestNumber w e w') :
    w'.shared.counter = w.shared.counter + if isStore e then 1 else 0 := by
  cases hs with
  | @move i op l y hm =>
    generalize w.worker i = x at hm
    cases hm <;> rfl
  | load => rfl
  | @store i j v hx =>
    have hok := h.ok i
    rw [hx] at hok
    rw [← hok.2]
    rfl
  | other => rfl

theorem inv_initial : Inv O maxTestNumber (initial O) where
  workers := fun _ => L.holds_free _
  others := fun k => (L.holds_free _).trans (O.depth_start k).symm
  exclusive := fun _ _ h => by cases h
  ok := fun _ => trivial
  counter := by simp [initial, WorkerPc.done]
  held := by
    intro v hv
    exact (List.mem_singleton.1 hv).le

theorem inv_run {checked : Bool} {tr : List (Event κ ε)}
    (h : (system O checked maxTestNumber).Run tr w) :
    Inv O maxTestNumber w ∧ w.shared.counter = increments tr := by
  apply Run.induct (I := fun tr w => Inv O maxTestNumber w ∧ w.shared.counter = increments tr)
    _ _ h
  · intro w hw
    rw [hw]
    exact ⟨inv_initial, rfl⟩
  · intro tr w e w' ih hs
    have hstep := next_cases hs
    refine ⟨inv_step ih.1 hstep, ?_⟩
    rw [counter_step ih.1 hstep, ih.2]
    simp [increments, List.countP_append, List.countP_singleton]

theorem WorkerPc.done_le {x : WorkerPc} {c : ℕ} (h : x.Ok maxTestNumber c) :
    x.done maxTestNumber ≤ maxTestNumber := by
  cases x with
  | idle => exact Nat.zero_le _
  | load i => exact Nat.le_of_lt h
  | store i v => exact Nat.le_of_lt h.1
  | returned => exact le_rfl
  | _ => exact h

theorem Inv.counter_le (h : Inv O maxTestNumber w) :
    w.shared.counter ≤ 2 * maxTestNumber := by
  rw [h.counter, Fin.sum_univ_two, two_mul]
  exact Nat.add_le_add (WorkerPc.done_le (h.ok 0)) (WorkerPc.done_le (h.ok 1))

end Keep

/-- A lock call of a worker fails. -/
def isFailure : Event κ ε → Bool
  | .inl (_, .lock false) | .inl (_, .unlock false) => true
  | _ => false

/-- The worker has returned, at the end of its loop or early. -/
def WorkerPc.hasReturned : WorkerPc → Bool
  | .returned | .failed _ _ => true
  | _ => false

/-- No update is lost: the counter is the number of completed increments, at most `2 N`, and `2 N`
when both workers have returned and all their calls have succeeded. -/
structure NoLostUpdate (maxTestNumber : ℕ) (tr : List (Event κ ε)) (w : World κ σ π) : Prop where
  counter_eq : w.shared.counter = increments tr
  counter_le : w.shared.counter ≤ 2 * maxTestNumber
  returned : (∀ i, (w.worker i).hasReturned = true) → (∀ e ∈ tr, isFailure e = false) →
    w.shared.counter = 2 * maxTestNumber

section Results

variable {L : Lock (Fin 2 ⊕ κ) σ} {O : Others L π ε} {checked : Bool} {maxTestNumber : ℕ}
  {tr : List (Event κ ε)} {w w' : World κ σ π}

theorem Step.failed {e : Event κ ε} (h : Step O maxTestNumber w e w') (he : isFailure e = false) :
    ∀ i n b, w'.worker i = .failed n b → w.worker i = .failed n b := by
  have hupdate : ∀ {i} {y : WorkerPc}, (∀ n b, y ≠ .failed n b) → ∀ j n b,
      Function.update w.worker i y j = .failed n b → w.worker j = .failed n b := by
    intro i y hy
    exact (Function.forall_update_iff _ fun j (x : WorkerPc) => ∀ n b, x = .failed n b →
      w.worker j = .failed n b).2 ⟨fun n b hx => absurd hx (hy n b), fun _ _ _ _ hx => hx⟩
  cases h with
  | @move i op l y hm =>
    apply hupdate
    generalize w.worker i = x at hm
    cases hm with
    | lockFails => cases he
    | unlockFails => cases he
    | _ => simp
  | load => exact hupdate (by simp)
  | store => exact hupdate (by simp)
  | other => exact fun _ _ _ hx => hx

/-- A worker returns early only after a call that failed. -/
theorem not_failed_of_run (h : (system O checked maxTestNumber).Run tr w) :
    (∀ e ∈ tr, isFailure e = false) → ∀ i n b, w.worker i ≠ .failed n b := by
  induction h with
  | init hw =>
    rw [hw]
    intro _ i n b hf
    cases hf
  | snoc _ hs ih =>
    intro hall i n b hf
    have hlast := hall _ (List.mem_append_right _ (List.mem_singleton_self _))
    have hbefore := (next_cases hs).failed hlast i n b hf
    exact ih (fun e he => hall e (List.mem_append_left _ he)) i n b hbefore

theorem noLostUpdate (h : (system O checked maxTestNumber).Run tr w) :
    NoLostUpdate maxTestNumber tr w := by
  obtain ⟨hinv, hcount⟩ := inv_run h
  refine ⟨hcount, hinv.counter_le, ?_⟩
  intro hret hall
  have hdone : ∀ i, w.worker i = .returned := by
    intro i
    have hi := hret i
    have hnot := not_failed_of_run h hall i
    generalize w.worker i = x at hi hnot
    cases x with
    | returned => rfl
    | failed n b => exact absurd rfl (hnot n b)
    | _ => cases hi
  rw [hinv.counter, Fin.sum_univ_two, hdone 0, hdone 1, two_mul]
  rfl

end Results

/-! ## The mutex demo -/

/-- What `main` of `thread/mutex/main.c` executes next. -/
inductive MainPc where
  /-- `pthread_mutexattr_init`, `pthread_mutexattr_settype` and `pthread_mutex_init`. -/
  | init
  | lock
  | trylock
  /-- `pthread_mutex_unlock` after `pthread_mutex_trylock` has succeeded. -/
  | unlockTry
  | unlock
  /-- `pthread_create`, when `n` threads have been created. -/
  | create (n : ℕ)
  | failed
  deriving DecidableEq

/-- What `main` does in one step. -/
inductive MainOp where
  | init (ok : Bool)
  | lock (ok : Bool)
  | trylock (ok : Bool)
  | unlock
  | create
  deriving DecidableEq

/-- One step of `main`. -/
def mainStep {τ : Type*} [DecidableEq τ] (t : τ) :
    MainOp → Lock.Mutex τ → MainPc → Option (Lock.Mutex τ × MainPc)
  | .init ok, s, .init => some (s, if ok then .lock else .failed)
  | .lock true, s, .lock => (Lock.mutexLock t s).map fun s' => (s', .trylock)
  | .lock false, s, .lock => some (s, .failed)
  | .trylock true, s, .trylock => (Lock.mutexLock t s).map fun s' => (s', .unlockTry)
  | .trylock false, s, .trylock => some (s, .unlock)
  | .unlock, s, .unlockTry => (Lock.mutexUnlock t s).map fun s' => (s', .unlock)
  | .unlock, s, .unlock => (Lock.mutexUnlock t s).map fun s' => (s', .create 0)
  -- A thread that could not be created never starts.
  | .create, s, .create n => if n < 2 then some (s, .create (n + 1)) else none
  | _, _, _ => none

/-- How often `main` has taken the mutex. -/
def MainPc.depth : MainPc → ℕ
  | .trylock | .unlock => 1
  | .unlockTry => 2
  | _ => 0

theorem main_holds {τ : Type*} [DecidableEq τ] {t : τ} {op : MainOp} {s s' : Lock.Mutex τ}
    {x y : MainPc} (h : mainStep t op s x = some (s', y))
    (hx : (Lock.recursiveMutex τ).holds s t = x.depth) :
    (Lock.recursiveMutex τ).holds s' =
      Function.update ((Lock.recursiveMutex τ).holds s) t y.depth := by
  have hsame : ∀ {n}, (Lock.recursiveMutex τ).holds s t = n →
      (Lock.recursiveMutex τ).holds s = Function.update ((Lock.recursiveMutex τ).holds s) t n :=
    fun hn => (Function.update_eq_self_iff.2 hn.symm).symm
  have hlock : ∀ {s'}, Lock.mutexLock t s = some s' → (Lock.recursiveMutex τ).holds s' =
      Function.update ((Lock.recursiveMutex τ).holds s) t (x.depth + 1) :=
    fun hl => hx ▸ ((Lock.recursiveMutex τ).lock_holds hl).2
  have hunlock : ∀ {s'}, Lock.mutexUnlock t s = some s' → 0 < x.depth →
      (Lock.recursiveMutex τ).holds s' =
        Function.update ((Lock.recursiveMutex τ).holds s) t (x.depth - 1) :=
    fun hl hd => hx ▸ (Lock.recursiveMutex τ).unlock_holds hl (hx ▸ hd)
  unfold mainStep at h
  split at h
  · cases h
    split_ifs <;> exact hsame hx
  · obtain ⟨l, hl, he⟩ := Option.map_eq_some_iff.1 h
    cases he
    exact hlock hl
  · cases h
    exact hsame hx
  · obtain ⟨l, hl, he⟩ := Option.map_eq_some_iff.1 h
    cases he
    exact hlock hl
  · cases h
    exact hsame hx
  · obtain ⟨l, hl, he⟩ := Option.map_eq_some_iff.1 h
    cases he
    exact hunlock hl (by decide)
  · obtain ⟨l, hl, he⟩ := Option.map_eq_some_iff.1 h
    cases he
    exact hunlock hl (by decide)
  · split_ifs at h
    cases h
    exact hsame hx
  · cases h

/-- `main` beside the two workers. -/
def mutexMain : Others (Lock.recursiveMutex (Fin 2 ⊕ Unit)) MainPc MainOp where
  start _ := .init
  step k op s _ x := mainStep (.inr k) op s x
  depth := MainPc.depth
  started other i :=
    match other () with
    | .create n => i < n
    | _ => false
  depth_start _ := rfl
  step_holds h hx := main_holds h hx

/-- `thread/mutex/main.c`. -/
def mutexDemo (maxTestNumber : ℕ) := system mutexMain true maxTestNumber

/-! ## The spin-lock demo -/

/-- The workers of the spin-lock demo are alone, and start at any time. -/
def spinMain : Others (Lock.spinLock (Fin 2 ⊕ Empty)) Unit Empty where
  start _ := ()
  step _ e := e.elim
  depth _ := 0
  started _ _ := true
  depth_start _ := rfl
  step_holds {_ e} := e.elim

/-- `thread/spin-lock/main.c`. -/
def spinDemo (maxTestNumber : ℕ) := system spinMain true maxTestNumber

/-! ## The read-write-lock demo -/

/-- What `_readFunc` executes next. -/
inductive ReaderPc where
  | rdlock
  | unlock
  /-- `if (counter == maxTestNumber * 2)`, outside the lock. -/
  | test
  | returned
  deriving DecidableEq

/-- What a reader does in one step. -/
inductive ReaderOp where
  | rdlock
  | unlock
  /-- The reader sees the value `v`. -/
  | read (v : ℕ)
  deriving DecidableEq

/-- One step of `_readFunc`. -/
def readerStep {τ : Type*} [DecidableEq τ] (maxTestNumber : ℕ) (t : τ) :
    ReaderOp → RwLock τ → List ℕ → ReaderPc → Option (RwLock τ × ReaderPc)
  | .rdlock, s, _, .rdlock => s.rdlock.map fun s' => (s', .unlock)
  | .unlock, s, _, .unlock => (s.unlock t).map fun s' => (s', .test)
  | .read v, s, held, .test =>
    if v ∈ held then some (s, if v = maxTestNumber * 2 then .returned else .rdlock) else none
  | _, _, _, _ => none

theorem reader_holds {τ : Type*} [DecidableEq τ] {maxTestNumber : ℕ} {t : τ} {op : ReaderOp}
    {s s' : RwLock τ} {held : List ℕ} {x y : ReaderPc}
    (h : readerStep maxTestNumber t op s held x = some (s', y)) (hx : s.holds t = 0) :
    s'.holds = Function.update s.holds t 0 := by
  have hsame : s'.writer = s.writer → s'.holds = Function.update s.holds t 0 := by
    intro heq
    rw [Function.update_eq_self_iff.2 hx.symm]
    funext u
    rw [RwLock.holds, heq, RwLock.holds]
  apply hsame
  unfold readerStep at h
  split at h
  · obtain ⟨l, hl, he⟩ := Option.map_eq_some_iff.1 h
    cases he
    unfold RwLock.rdlock at hl
    split_ifs at hl
    cases hl
    rfl
  · obtain ⟨l, hl, he⟩ := Option.map_eq_some_iff.1 h
    cases he
    unfold RwLock.unlock at hl
    split_ifs at hl with hw hr
    · simp [RwLock.holds, hw] at hx
    · cases hl
      rfl
  · split_ifs at h <;> cases h <;> rfl
  · cases h

/-- `_readFunc` breaks out of its loop when it sees `maxTestNumber * 2`. -/
theorem seen_of_returned {τ : Type*} [DecidableEq τ] {maxTestNumber : ℕ} {t : τ} {op : ReaderOp}
    {s s' : RwLock τ} {held : List ℕ} {x : ReaderPc}
    (h : readerStep maxTestNumber t op s held x = some (s', .returned)) :
    maxTestNumber * 2 ∈ held := by
  unfold readerStep at h
  split at h
  · simp at h
  · simp at h
  · split_ifs at h with hmem hv
    · rw [← hv]
      exact hmem
    · simp at h
  · cases h

/-- Any number of readers beside the two writers. -/
def readers (κ : Type*) [DecidableEq κ] (maxTestNumber : ℕ) :
    Others (Lock.rwLock (Fin 2 ⊕ κ)) ReaderPc ReaderOp where
  start _ := .rdlock
  step k op s held x := readerStep maxTestNumber (.inr k) op s held x
  depth _ := 0
  started _ _ := true
  depth_start _ := rfl
  step_holds h hx := reader_holds h hx

/-- `thread/rw-lock/main.c`. -/
def rwDemo (κ : Type*) [DecidableEq κ] (maxTestNumber : ℕ) :=
  system (readers κ maxTestNumber) false maxTestNumber

/-- A reader that has returned saw the counter at `2 N`. -/
theorem reader_returned {maxTestNumber : ℕ} {tr : List (Event κ ReaderOp)}
    {w : World κ (RwLock (Fin 2 ⊕ κ)) ReaderPc} (h : (rwDemo κ maxTestNumber).Run tr w) :
    Inv (readers κ maxTestNumber) maxTestNumber w ∧
      ∀ k, w.other k = .returned → maxTestNumber * 2 ≤ w.shared.counter := by
  apply Run.induct (I := fun _ w => Inv (readers κ maxTestNumber) maxTestNumber w ∧
    ∀ k, w.other k = .returned → maxTestNumber * 2 ≤ w.shared.counter) _ _ h
  · intro w hw
    rw [hw]
    exact ⟨inv_initial, fun k hk => by cases hk⟩
  · intro tr w e w' ih hs
    have hstep := next_cases hs
    refine ⟨inv_step ih.1 hstep, ?_⟩
    have hle : w.shared.counter ≤ w'.shared.counter := by
      rw [counter_step ih.1 hstep]
      exact Nat.le_add_right _ _
    cases hstep with
    | other hread =>
      refine (Function.forall_update_iff _ fun _ (x : ReaderPc) => x = .returned → _).2
        ⟨?_, fun q _ => ih.2 q⟩
      intro hy
      subst hy
      exact ih.1.held _ (seen_of_returned hread)
    | _ => exact fun k hk => (ih.2 k hk).trans hle

/-- A reader returns only when both writers have done all their increments. -/
theorem writers_done {maxTestNumber : ℕ} {tr : List (Event κ ReaderOp)}
    {w : World κ (RwLock (Fin 2 ⊕ κ)) ReaderPc} (h : (rwDemo κ maxTestNumber).Run tr w) {k : κ}
    (hk : w.other k = .returned) (i : Fin 2) :
    (w.worker i).done maxTestNumber = maxTestNumber := by
  obtain ⟨hinv, hret⟩ := reader_returned h
  have hsum := hret k hk
  rw [hinv.counter, Fin.sum_univ_two] at hsum
  have h₀ := WorkerPc.done_le (hinv.ok 0)
  have h₁ := WorkerPc.done_le (hinv.ok 1)
  revert i
  exact Fin.forall_fin_two.2 ⟨by omega, by omega⟩

/-! ## The three demos -/

/-- **No lost update**, in every run of the mutex demo, the spin-lock demo and the read-write-lock
demo. When `main` of the mutex demo starts the workers it has given the mutex back; a reader
returns only after both writers have done all their increments. -/
theorem no_lost_update (κ : Type*) [DecidableEq κ] (maxTestNumber : ℕ) :
    (∀ tr w, (mutexDemo maxTestNumber).Run tr w →
      NoLostUpdate maxTestNumber tr w ∧
        ∀ n, w.other () = .create n → Lock.mutexHolds w.shared.lock (.inr ()) = 0) ∧
    (∀ tr w, (spinDemo maxTestNumber).Run tr w → NoLostUpdate maxTestNumber tr w) ∧
    ∀ tr w, (rwDemo κ maxTestNumber).Run tr w →
      NoLostUpdate maxTestNumber tr w ∧
        ∀ k, w.other k = .returned → ∀ i, (w.worker i).done maxTestNumber = maxTestNumber := by
  refine ⟨?_, ?_, ?_⟩
  · intro tr w h
    refine ⟨noLostUpdate h, ?_⟩
    intro n hn
    have hmain : Lock.mutexHolds w.shared.lock (.inr ()) = (w.other ()).depth :=
      (inv_run h).1.others ()
    rw [hmain, hn]
    rfl
  · intro tr w h
    exact noLostUpdate h
  · intro tr w h
    exact ⟨noLostUpdate h, fun k hk i => writers_done h hk i⟩

/-- One round of worker `i`. -/
def workerRound (i : Fin 2) : List (Event κ ε) :=
  [.inl (i, .start), .inl (i, .lock true), .inl (i, .load), .inl (i, .store),
   .inl (i, .unlock true), .inl (i, .leave)]

/-- `main` of the mutex demo, up to the start of the workers. -/
def mutexPrologue : List (Event Unit MainOp) :=
  [.inr ((), .init true), .inr ((), .lock true), .inr ((), .trylock true), .inr ((), .unlock),
   .inr ((), .unlock), .inr ((), .create), .inr ((), .create)]

/-- A reader goes round once and sees 2. -/
def readerRound : List (Event Unit ReaderOp) :=
  [.inr ((), .rdlock), .inr ((), .unlock), .inr ((), .read 2)]

theorem no_lost_update_oneRound :
    (∃ w, (mutexDemo 1).Run (mutexPrologue ++ workerRound 0 ++ workerRound 1) w ∧
      w.shared.counter = 2 ∧ Lock.mutexHolds w.shared.lock (.inr ()) = 0) ∧
    (∃ w, (spinDemo 1).Run (workerRound 0 ++ workerRound 1) w ∧ w.shared.counter = 2) ∧
    ∃ w, (rwDemo Unit 1).Run (workerRound 0 ++ workerRound 1 ++ readerRound) w ∧
      w.other () = .returned ∧ w.shared.counter = 2 ∧ ∀ i, (w.worker i).done 1 = 1 := by
  refine ⟨?_, ?_, ?_⟩
  · obtain ⟨w, hw, hp⟩ := exists_run_of_exec (initial mutexMain) (next mutexMain true 1)
      (mutexPrologue ++ workerRound 0 ++ workerRound 1)
      (fun w => decide (w.other () = .create 2 ∧ ∀ i, (w.worker i).hasReturned = true)) (by decide)
    obtain ⟨hmain, hret⟩ := of_decide_eq_true hp
    obtain ⟨hcount, hfree⟩ := (no_lost_update Unit 1).1 _ w hw
    exact ⟨w, hw, hcount.returned hret (by decide), hfree 2 hmain⟩
  · obtain ⟨w, hw, hp⟩ := exists_run_of_exec (initial spinMain) (next spinMain true 1)
      (workerRound 0 ++ workerRound 1)
      (fun w => decide (∀ i, (w.worker i).hasReturned = true)) (by decide)
    have hcount := (no_lost_update Unit 1).2.1 _ w hw
    exact ⟨w, hw, hcount.returned (of_decide_eq_true hp) (by decide)⟩
  · obtain ⟨w, hw, hp⟩ := exists_run_of_exec (initial (readers Unit 1))
      (next (readers Unit 1) false 1) (workerRound 0 ++ workerRound 1 ++ readerRound)
      (fun w => decide (w.other () = .returned ∧ ∀ i, (w.worker i).hasReturned = true)) (by decide)
    obtain ⟨hreader, hret⟩ := of_decide_eq_true hp
    obtain ⟨hcount, hdone⟩ := (no_lost_update Unit 1).2.2 _ w hw
    exact ⟨w, hw, hreader, hcount.returned hret (by decide), hdone () hreader⟩

end LinuxDemo.LockedCounter
