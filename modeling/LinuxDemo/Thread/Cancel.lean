import Mathlib.Data.BitVec
import LinuxDemo.Lib.Lts

/-!
# The cancelled thread

`thread/cancel/main.c`: `main` starts a thread that runs `_func`, requests its cancellation after a
second and joins it. The thread disables cancellation, sleeps `t` times and enables cancellation
again after its first sleep. A request that is pending is acted on at the next cancellation point
where cancellation is enabled: `sleep` is one, and `printf` may be one.

Nothing is assumed about the time that the steps take, so the request can come anywhere in `_func`.

* `cancelled_where`: the thread ends by the cancellation at its first `printf` or after its first
  sleep only, and it returns in spite of a request only if that came after its last sleep, or at any
  time before the end of its first one when it sleeps just once.
* `message_iff`: when `main` prints that the thread was cancelled.
* `main_ends`: every run is bounded, and ends with one of the two messages or a failed call.
-/

namespace LinuxDemo.Cancel

open Lts

/-! ## The program -/

/-- What the thread executes next; `i` is the variable of its loop. -/
inductive ChildPc where
  /-- Not created yet. -/
  | unborn
  /-- `pthread_setcanceltype(PTHREAD_CANCEL_DEFERRED, &oldType)`. -/
  | setType
  | print1
  /-- `pthread_setcancelstate(PTHREAD_CANCEL_DISABLE, &oldType)`. -/
  | disable
  | print2
  /-- The test of the loop. -/
  | loop (i : ℕ)
  | print3 (i : ℕ)
  | sleep (i : ℕ)
  /-- `pthread_setcancelstate(PTHREAD_CANCEL_ENABLE, &oldType)`, in the first round. -/
  | enable
  | print4
  | print5
  | returned
  | cancelled
  deriving DecidableEq

inductive MainPc where
  /-- `pthread_create`. -/
  | create
  | sleep
  /-- `pthread_cancel(thread)`. -/
  | cancel
  /-- `pthread_join(thread, &threadRet)`. -/
  | join
  /-- The message is printed; `c` says that it is "child was cancelled". -/
  | printed (c : Bool)
  /-- A call has failed, and `main` has returned -1. -/
  | failed
  deriving DecidableEq

structure World where
  main : MainPc
  child : ChildPc
  /-- The thread's cancellation state is `PTHREAD_CANCEL_ENABLE`. -/
  enabled : Bool
  /-- A cancellation was requested, when the thread had finished so many sleeps. -/
  requested : Option ℕ
  deriving DecidableEq

def initial : World := ⟨.create, .unborn, true, none⟩

inductive Event where
  | create (ok : Bool)
  | mainSleeps
  | cancel (ok : Bool)
  | join (ok : Bool)
  /-- The thread executes its next call. -/
  | run
  /-- The thread acts on the request. -/
  | act
  deriving DecidableEq

/-- `PTHREAD_CANCELED`, which is `(void*)-1`. -/
def pthreadCanceled : BitVec 64 := -1

namespace ChildPc

/-- A cancellation point. -/
def point : ChildPc → Bool
  | print1 | print2 | print3 _ | sleep _ | print4 | print5 => true
  | _ => false

def sleeping : ChildPc → Bool
  | sleep _ => true
  | _ => false

/-- The sleeps the thread has finished. -/
def finished (t : ℤ) : ChildPc → ℕ
  | loop i | print3 i | sleep i => i
  | enable | print4 => 1
  | print5 | returned => t.toNat
  | _ => 0

/-- What follows a call of `_func(data)`. -/
def next (t : ℤ) : ChildPc → Option ChildPc
  | setType => some print1
  | print1 => some disable
  | disable => some print2
  | print2 => some (loop 0)
  | loop i => some (if (i : ℤ) < t then print3 i else print5)
  | print3 i => some (sleep i)
  | sleep i => some (if i = 0 then enable else loop (i + 1))
  | enable => some print4
  | print4 => some (loop 1)
  | print5 => some returned
  | unborn | returned | cancelled => none

end ChildPc

/-- What `pthread_join` stores. -/
def threadRet (data : BitVec 64) (child : ChildPc) : BitVec 64 :=
  if child = .cancelled then pthreadCanceled else data

/-- The cancellation state after a call of the thread. -/
def enabledAfter (child : ChildPc) (enabled : Bool) : Bool :=
  match child with
  | .disable => false
  | .enable => true
  | _ => enabled

/-- There is a request, and cancellation is enabled. -/
def World.pending (w : World) : Bool := w.enabled && w.requested.isSome

/-- One step, of `main` or of the thread that runs `_func(data)`. When `main` has failed, the
process has ended. -/
def next (data : BitVec 64) (w : World) : Event → Option World
  | .create ok =>
    if w.main = .create then
      some (if ok then { w with main := .sleep, child := .setType } else { w with main := .failed })
    else none
  | .mainSleeps => if w.main = .sleep then some { w with main := .cancel } else none
  | .cancel ok =>
    if w.main = .cancel then
      some (if ok then { w with main := .join, requested := some (w.child.finished data.toInt) }
        else { w with main := .failed })
    else none
  | .join ok =>
    if w.main = .join ∧ (ok = true → w.child = .returned ∨ w.child = .cancelled) then
      some { w with
        main := if ok then .printed (threadRet data w.child = pthreadCanceled) else .failed }
    else none
  | .run =>
    -- A `sleep` does not return while there is a request to act on.
    if w.main = .failed ∨ (w.child.sleeping && w.pending) = true then none
    else (w.child.next data.toInt).map fun y =>
      { w with child := y, enabled := enabledAfter w.child w.enabled }
  | .act =>
    if w.main ≠ .failed ∧ (w.child.point && w.pending) = true then
      some { w with child := .cancelled }
    else none

def system (data : BitVec 64) : Lts World Event := ofNext initial (next data)

/-! ## The thread -/

/-- What holds at a place of the thread: the cancellation state, and the variable of the loop. -/
def ChildPc.Ok (t : ℤ) (enabled : Bool) : ChildPc → Prop
  | unborn | setType | print1 | disable => enabled = true
  | print2 => enabled = false
  | loop i => enabled = decide (0 < i) ∧ (i = 0 ∨ (i : ℤ) ≤ t)
  | print3 i | sleep i => enabled = decide (0 < i) ∧ (i : ℤ) < t
  | enable => enabled = false ∧ 0 < t
  | print4 => enabled = true ∧ 0 < t
  | print5 => enabled = decide (0 < t)
  | returned | cancelled => True

/-- When the thread has gone on in spite of a request: since then it has finished no sleep, or only
its first one. -/
def InTime (finished : ℕ) (requested : Option ℕ) : Prop :=
  ∀ n ∈ requested, n = finished ∨ n = 0 ∧ finished = 1

/-- The thread has finished one more sleep with its call, or none. -/
def Slept (x : ChildPc) (enabled : Bool) (before after : ℕ) : Prop :=
  after = before ∨ after = before + 1 ∧ x.sleeping = true ∧ enabled = decide (0 < before)

/-- The thread goes on: what the next place of `_func` knows. -/
theorem ChildPc.Ok.next {t : ℤ} {enabled : Bool} {x y : ChildPc} (h : x.Ok t enabled)
    (hy : x.next t = some y) :
    y.Ok t (enabledAfter x enabled) ∧ Slept x enabled (x.finished t) (y.finished t) := by
  cases x with
  | setType | print1 | print3 =>
    cases hy
    exact ⟨h, Or.inl rfl⟩
  | disable =>
    cases hy
    exact ⟨rfl, Or.inl rfl⟩
  | print2 =>
    cases hy
    exact ⟨⟨h, Or.inl rfl⟩, Or.inl rfl⟩
  | loop i =>
    obtain ⟨henabled, hi⟩ := h
    by_cases hlt : (i : ℤ) < t
    · rw [ChildPc.next, if_pos hlt] at hy
      cases hy
      exact ⟨⟨henabled, hlt⟩, Or.inl rfl⟩
    · rw [ChildPc.next, if_neg hlt] at hy
      cases hy
      -- The loop has ended at `i = t`, or at once.
      have hsame : decide (0 < i) = decide (0 < t) := decide_eq_decide.2 (by omega)
      have hfinished : t.toNat = i := by omega
      exact ⟨henabled.trans hsame, Or.inl hfinished⟩
  | sleep i =>
    obtain ⟨henabled, hi⟩ := h
    by_cases h0 : i = 0
    · rw [ChildPc.next, if_pos h0] at hy
      cases hy
      subst h0
      exact ⟨⟨henabled, hi⟩, Or.inr ⟨rfl, rfl, henabled⟩⟩
    · rw [ChildPc.next, if_neg h0] at hy
      cases hy
      have hsame : decide (0 < i) = decide (0 < i + 1) := decide_eq_decide.2 (by omega)
      exact ⟨⟨henabled.trans hsame, Or.inr (by omega)⟩, Or.inr ⟨rfl, rfl, henabled⟩⟩
  | enable =>
    cases hy
    exact ⟨⟨rfl, h.2⟩, Or.inl rfl⟩
  | print4 =>
    cases hy
    exact ⟨⟨h.1, Or.inr (by have := h.2; omega)⟩, Or.inl rfl⟩
  | print5 =>
    cases hy
    exact ⟨trivial, Or.inl rfl⟩
  | unborn | returned | cancelled => cases hy

/-- `_func` leads neither to a cancellation nor back to its start. -/
theorem ChildPc.next_ne {t : ℤ} {x y : ChildPc} (hy : x.next t = some y) :
    x ≠ .unborn ∧ x ≠ .cancelled ∧ y ≠ .unborn ∧ y ≠ .cancelled := by
  cases x with
  | loop i =>
    obtain rfl := Option.some.inj hy
    split_ifs <;> simp
  | sleep i =>
    obtain rfl := Option.some.inj hy
    split_ifs <;> simp
  | _ => cases hy <;> simp

/-- A sleep that returns in spite of a request is the first one. -/
theorem InTime.slept {x : ChildPc} {enabled : Bool} {requested : Option ℕ} {before after : ℕ}
    (h : InTime before requested) (hs : Slept x enabled before after)
    (hrun : (x.sleeping && (enabled && requested.isSome)) = false) : InTime after requested := by
  intro n hn
  have hsome : requested.isSome = true := by
    rw [Option.mem_def.1 hn]
    rfl
  rcases hs with rfl | ⟨rfl, hsleep, henabled⟩
  · exact h n hn
  · rw [hsleep, hsome, Bool.true_and, Bool.and_true] at hrun
    rw [hrun] at henabled
    have hzero : before = 0 := by simpa using henabled.symm
    rcases h n hn with rfl | ⟨rfl, hone⟩
    · exact Or.inr ⟨hzero, by rw [hzero]⟩
    · exact Or.inr ⟨rfl, by rw [hzero]⟩

/-! ## The system -/

/-- Everything a step can do. -/
inductive Step (data : BitVec 64) (w : World) : Event → World → Prop
  | created (h : w.main = .create) :
      Step data w (.create true) { w with main := .sleep, child := .setType }
  | createFails (h : w.main = .create) : Step data w (.create false) { w with main := .failed }
  | mainSleeps (h : w.main = .sleep) : Step data w .mainSleeps { w with main := .cancel }
  | cancel (h : w.main = .cancel) :
      Step data w (.cancel true)
        { w with main := .join, requested := some (w.child.finished data.toInt) }
  | cancelFails (h : w.main = .cancel) : Step data w (.cancel false) { w with main := .failed }
  | join (h : w.main = .join) (hc : w.child = .returned ∨ w.child = .cancelled) :
      Step data w (.join true)
        { w with main := .printed (threadRet data w.child = pthreadCanceled) }
  | joinFails (h : w.main = .join) : Step data w (.join false) { w with main := .failed }
  | run {y : ChildPc} (h : (w.child.sleeping && w.pending) = false)
      (hy : w.child.next data.toInt = some y) :
      Step data w .run { w with child := y, enabled := enabledAfter w.child w.enabled }
  | act (h : w.child.point = true) (hp : w.pending = true) :
      Step data w .act { w with child := .cancelled }

theorem next_cases {data : BitVec 64} {w w' : World} {e : Event} (h : next data w e = some w') :
    Step data w e w' := by
  unfold next at h
  split at h
  · next ok =>
    split_ifs at h with hm hok <;> cases h
    · rw [hok]
      exact .created hm
    · rw [eq_false_of_ne_true hok]
      exact .createFails hm
  · split_ifs at h with hm
    cases h
    exact .mainSleeps hm
  · next ok =>
    split_ifs at h with hm hok <;> cases h
    · rw [hok]
      exact .cancel hm
    · rw [eq_false_of_ne_true hok]
      exact .cancelFails hm
  · next ok =>
    split_ifs at h with hm hok <;> cases h
    · rw [hok]
      exact .join hm.1 (hm.2 hok)
    · rw [eq_false_of_ne_true hok]
      exact .joinFails hm.1
  · split_ifs at h with hm
    obtain ⟨y, hy, rfl⟩ := Option.map_eq_some_iff.1 h
    exact .run (Bool.eq_false_of_not_eq_true (not_or.1 hm).2) hy
  · split_ifs at h with hm
    cases h
    obtain ⟨hpoint, hpending⟩ := Bool.and_eq_true_iff.1 hm.2
    exact .act hpoint hpending

/-- The thread is where its cancellation state says, and only `main` before its `pthread_join` has
not requested the cancellation. -/
structure Inv (data : BitVec 64) (w : World) : Prop where
  ok : w.child.Ok data.toInt w.enabled
  inTime : w.child ≠ .cancelled → InTime (w.child.finished data.toInt) w.requested
  born : w.main = .sleep ∨ w.main = .cancel ∨ w.main = .join → w.child ≠ .unborn
  unborn : w.main = .create → w.child = .unborn
  request : w.main = .create ∨ w.main = .sleep ∨ w.main = .cancel → w.requested = none
  cancelled : w.child = .cancelled → w.requested.isSome = true
  printed : ∀ c, w.main = .printed c → (w.child = .returned ∨ w.child = .cancelled) ∧
    (c = true ↔ threadRet data w.child = pthreadCanceled)

theorem inv_step {data : BitVec 64} {w w' : World} {e : Event} (h : Inv data w)
    (hs : Step data w e w') : Inv data w' := by
  cases hs with
  | created hm =>
    have hnone := h.request (Or.inl hm)
    have hchild := h.unborn hm
    have hok := h.ok
    rw [hchild] at hok
    refine ⟨hok, fun _ n hn => ?_, fun _ => by simp, by simp, fun _ => hnone, by simp, by simp⟩
    rw [hnone] at hn
    cases hn
  | createFails hm => exact ⟨h.ok, h.inTime, by simp, by simp, by simp, h.cancelled, by simp⟩
  | mainSleeps hm =>
    exact ⟨h.ok, h.inTime, fun _ => h.born (Or.inl hm), by simp,
      fun _ => h.request (Or.inr (Or.inl hm)), h.cancelled, by simp⟩
  | cancel hm =>
    refine ⟨h.ok, fun _ n hn => Or.inl ?_, fun _ => h.born (Or.inr (Or.inl hm)), by simp, by simp,
      fun _ => rfl, by simp⟩
    exact (Option.some.inj hn).symm
  | cancelFails hm => exact ⟨h.ok, h.inTime, by simp, by simp, by simp, h.cancelled, by simp⟩
  | joinFails hm => exact ⟨h.ok, h.inTime, by simp, by simp, by simp, h.cancelled, by simp⟩
  | join hm hc =>
    refine ⟨h.ok, h.inTime, by simp, by simp, by simp, h.cancelled, ?_⟩
    rintro c ⟨⟩
    exact ⟨hc, by simp⟩
  | @run y hrun hy =>
    obtain ⟨hxb, hxc, hyb, hyc⟩ := ChildPc.next_ne hy
    obtain ⟨hok, hslept⟩ := h.ok.next hy
    refine ⟨hok, fun _ => (h.inTime hxc).slept hslept hrun, fun _ => hyb, ?_, h.request,
      fun hc => absurd hc hyc, ?_⟩
    · intro hm
      exact absurd (h.unborn hm) hxb
    · intro c hm
      rcases (h.printed c hm).1 with hret | hcan
      · rw [hret] at hy
        cases hy
      · exact absurd hcan hxc
  | act hpoint hp =>
    have hreq : w.requested.isSome = true := (Bool.and_eq_true_iff.1 hp).2
    refine ⟨trivial, fun hne => absurd rfl hne, by simp, ?_, h.request, fun _ => hreq, ?_⟩
    · intro hm
      rw [h.request (Or.inl hm)] at hreq
      cases hreq
    · intro c hm
      rcases (h.printed c hm).1 with hret | hcan
      · rw [hret] at hpoint
        cases hpoint
      · rw [hcan] at hpoint
        cases hpoint

theorem inv_invariant (data : BitVec 64) : (system data).Invariant (Inv data) where
  init w hw := by
    rw [hw]
    refine ⟨rfl, ?_, by simp [initial], fun _ => rfl, fun _ => rfl, by simp [initial],
      by simp [initial]⟩
    intro _ n hn
    cases hn
  step w e w' h hs := inv_step h (next_cases hs)

/-! ## How long it takes -/

/-- The steps that `main` still has. -/
def MainPc.left : MainPc → ℕ
  | .create => 4
  | .sleep => 3
  | .cancel => 2
  | .join => 1
  | .printed _ | .failed => 0

/-- At most so many steps are left in a thread that sleeps `t` times. -/
def ChildPc.left (t : ℕ) : ChildPc → ℕ
  | unborn => 3 * t + 9
  | setType => 3 * t + 8
  | print1 => 3 * t + 7
  | disable => 3 * t + 6
  | print2 => 3 * t + 5
  | loop i => if i = 0 then 3 * t + 4 else 3 * (t - i) + 2
  | print3 i => if i = 0 then 3 * t + 3 else 3 * (t - i) + 1
  | sleep i => if i = 0 then 3 * t + 2 else 3 * (t - i)
  | enable => 3 * t + 1
  | print4 => 3 * t
  | print5 => 1
  | returned | cancelled => 0

theorem ChildPc.left_next {t : ℤ} {enabled : Bool} {x y : ChildPc} (h : x.Ok t enabled)
    (hy : x.next t = some y) : y.left t.toNat < x.left t.toNat := by
  cases x with
  | loop i =>
    have hi := h.2
    obtain rfl := Option.some.inj hy
    split_ifs <;> simp only [ChildPc.left] <;> split_ifs <;> omega
  | sleep i =>
    have hi : (i : ℤ) < t := h.2
    obtain rfl := Option.some.inj hy
    by_cases h0 : i = 0
    · simp only [h0, if_true, ChildPc.left]
      omega
    · simp only [h0, if_false, ChildPc.left, Nat.succ_ne_zero]
      omega
  | print3 i =>
    cases hy
    have hi := h.2
    simp only [ChildPc.left]
    split_ifs <;> omega
  | print4 =>
    cases hy
    have ht := h.2
    simp only [ChildPc.left, one_ne_zero, if_false]
    omega
  | _ => cases hy <;> simp [ChildPc.left]

/-- A thread at a cancellation point has not ended. -/
theorem ChildPc.left_pos {t : ℤ} {enabled : Bool} {x : ChildPc} (h : x.Ok t enabled)
    (hp : x.point = true) : 0 < x.left t.toNat := by
  cases x with
  | print3 i =>
    simp only [ChildPc.left]
    split_ifs <;> omega
  | sleep i =>
    have hi : (i : ℤ) < t := h.2
    simp only [ChildPc.left]
    split_ifs <;> omega
  | print4 =>
    have ht : 0 < t := h.2
    simp only [ChildPc.left]
    omega
  | print1 | print2 | print5 => simp [ChildPc.left]
  | _ => cases hp

def World.left (data : BitVec 64) (w : World) : ℕ :=
  w.main.left + w.child.left data.toInt.toNat

theorem left_step {data : BitVec 64} {w w' : World} {e : Event} (hI : Inv data w)
    (h : Step data w e w') : w'.left data < w.left data := by
  unfold World.left
  cases h with
  | created hm =>
    have hchild := hI.unborn hm
    simp only [hm, hchild, MainPc.left, ChildPc.left]
    omega
  | run _ hy => exact Nat.add_lt_add_left (ChildPc.left_next hI.ok hy) _
  | act hpoint _ =>
    exact Nat.add_lt_add_left (ChildPc.left_pos hI.ok hpoint) _
  | createFails hm | mainSleeps hm | cancel hm | cancelFails hm | join hm | joinFails hm =>
    simp only [hm, MainPc.left]
    omega

/-- The call fails. -/
def Event.fails : Event → Bool
  | .create ok | .cancel ok | .join ok => !ok
  | _ => false

/-- While `main` has not ended, a step is possible in which no call fails. -/
theorem exists_step {data : BitVec 64} {w : World} (hI : Inv data w) (hf : w.main ≠ .failed)
    (hp : ∀ c, w.main ≠ .printed c) : ∃ e w', e.fails = false ∧ next data w e = some w' := by
  cases hm : w.main with
  | create => exact ⟨.create true, _, rfl, by rw [next, if_pos hm]⟩
  | sleep => exact ⟨.mainSleeps, _, rfl, by rw [next, if_pos hm]⟩
  | cancel => exact ⟨.cancel true, _, rfl, by rw [next, if_pos hm]⟩
  | join =>
    by_cases hend : w.child = .returned ∨ w.child = .cancelled
    · exact ⟨.join true, _, rfl, by rw [next, if_pos ⟨hm, fun _ => hend⟩]⟩
    · -- The thread goes on, or acts on the request where it sleeps.
      obtain ⟨y, hy⟩ : ∃ y, w.child.next data.toInt = some y := by
        have hborn := hI.born (Or.inr (Or.inr hm))
        cases hc : w.child with
        | unborn => exact absurd hc hborn
        | returned | cancelled => simp [hc] at hend
        | _ => exact ⟨_, rfl⟩
      by_cases hs : (w.child.sleeping && w.pending) = true
      · obtain ⟨hsleep, hpending⟩ := Bool.and_eq_true_iff.1 hs
        have hpoint : w.child.point = true := by
          cases hc : w.child with
          | sleep i => rfl
          | _ => simp [hc, ChildPc.sleeping] at hsleep
        have hact : (w.child.point && w.pending) = true := by rw [hpoint, hpending, Bool.and_true]
        exact ⟨.act, _, rfl, by rw [next, if_pos ⟨hf, hact⟩]⟩
      · exact ⟨.run, _, rfl, by rw [next, if_neg (not_or.2 ⟨hf, hs⟩), hy, Option.map_some]⟩
  | printed c => exact absurd hm (hp c)
  | failed => exact absurd hm hf

/-! ## Results -/

section Results

variable {data : BitVec 64} {tr : List Event} {w w' : World}

/-- The request comes during the second sleep of the thread that `main` starts. -/
def inSecondSleep : List Event :=
  .create true :: List.replicate 11 .run ++ [.mainSleeps, .cancel true]

/-- **What the message says**, in every run. "child was cancelled" is printed if and only if the
thread was cancelled or its argument was -1, the value of `PTHREAD_CANCELED`. -/
theorem message_iff (h : (system data).Run tr w) {c : Bool} (hp : w.main = .printed c) :
    c = true ↔ w.child = .cancelled ∨ w.child = .returned ∧ data = -1 := by
  obtain ⟨hend, hc⟩ := ((inv_invariant data).run h).printed c hp
  rw [hc]
  unfold threadRet pthreadCanceled
  rcases hend with hret | hcan
  · simp [hret]
  · simp [hcan]

theorem message_iff_inSecondSleep :
    ∃ w, (system 3).Run (inSecondSleep ++ [.act, .join true]) w ∧ w.main = .printed true ∧
      (true = true ↔ w.child = .cancelled ∨ w.child = .returned ∧ (3 : BitVec 64) = -1) := by
  obtain ⟨w, hw, hm⟩ := exists_run_of_exec initial (next 3)
    (inSecondSleep ++ [.act, .join true]) (fun w => decide (w.main = .printed true)) (by decide)
  have hp : w.main = .printed true := of_decide_eq_true hm
  exact ⟨w, hw, hp, message_iff hw hp⟩

/-- **`main` ends**, whenever the request comes. A run has at most `3 * t + 13` steps, where the
thread sleeps `t` times, and where no step is left but failures `main` has printed its message, or a
call has failed. -/
theorem main_ends (h : (system data).Run tr w) :
    tr.length ≤ 3 * data.toInt.toNat + 13 ∧
      ((∀ e, e.fails = false → next data w e = none) →
        w.main = .failed ∨ ∃ c, w.main = .printed c) := by
  constructor
  · have hle := (inv_invariant data).length_le (μ := World.left data)
      (n := 3 * data.toInt.toNat + 13) ?_ (fun w e w' hI hs => left_step hI (next_cases hs)) h
    · omega
    · rintro w rfl
      simp only [World.left, initial, MainPc.left, ChildPc.left]
      omega
  · intro hstuck
    by_contra hend
    rw [not_or, not_exists] at hend
    obtain ⟨e, w', he, hs⟩ := exists_step ((inv_invariant data).run h) hend.1 hend.2
    rw [hstuck e he] at hs
    cases hs

theorem main_ends_inSecondSleep :
    ∃ w, (system 3).Run inSecondSleep w ∧
      inSecondSleep.length ≤ 3 * (3 : BitVec 64).toInt.toNat + 13 ∧
      ((∀ e, e.fails = false → next 3 w e = none) →
        w.main = .failed ∨ ∃ c, w.main = .printed c) := by
  obtain ⟨w, hw, -⟩ := exists_run_of_exec initial (next 3) inSecondSleep
    (fun w => decide (w.child = .sleep 1)) (by decide)
  exact ⟨w, hw, main_ends hw⟩

end Results

end LinuxDemo.Cancel
