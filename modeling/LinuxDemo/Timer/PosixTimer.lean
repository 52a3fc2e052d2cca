import Mathlib.Data.Finset.Card
import Mathlib.Data.Fintype.Option
import LinuxDemo.Lib.Threads

/-!
# The callbacks of the POSIX timer

`timer/posix/main.c`: every expiry of the timer starts `_timerCallback` in a thread of its own,
while earlier callbacks may still run. Each callback ends with `g_callbackCount++`, a load and a
store without a lock. `main` waits until the count has reached `g_maxCallbackCount`.

Two histories are told apart. As long as no callback loads the count while another one is between
its load and its store, the count is the number of stores. Once that has happened, the count is
below the number of loads for ever: every store writes one more than a value loaded too early.

* `counted_run`: in every run one of the two holds.
* `count_iff`: when no callback is inside its increment, the count is the number of increments
  exactly when no two of them have overlapped.
* `count_lost`: two callbacks that overlap count as one.
-/

namespace LinuxDemo.PosixTimer

open Lts Threads

/-- What a thread executes next. -/
inductive Pc where
  /-- `main`: `timer_create` and `timer_settime`. -/
  | create
  | settime
  /-- The test of the loop in `main`. -/
  | test
  | sleepMain
  | delete
  /-- `main` has returned, which ends all threads. -/
  | returned (code : ℤ)
  /-- A callback that the timer has not started yet. -/
  | idle
  | gettime
  | getoverrun
  | sleep
  | load
  | store (value : ℕ)
  | print
  | done
  deriving DecidableEq

/-- What a thread does in one step. -/
inductive Op where
  | create (ok : Bool)
  | settime (ok : Bool)
  | test
  | wake
  | delete
  /-- The timer expires and starts a callback. -/
  | start
  | gettime
  | getoverrun
  | load
  | store
  | print
  deriving DecidableEq

/-- The counter, and what else the threads have in common. -/
structure Shared where
  callbackCount : ℕ
  /-- The timer is set. -/
  armed : Bool
  exited : Bool
  deriving DecidableEq

/-- One step of `main` or of `_timerCallback`, while the process lives. -/
def liveStep (maxCallbackCount : ℕ) : Op → Shared → Pc → Option (Shared × Pc)
  | .create true, s, .create => some (s, .settime)
  | .create false, s, .create => some ({ s with exited := true }, .returned (-1))
  | .settime true, s, .settime => some ({ s with armed := true }, .test)
  | .settime false, s, .settime => some ({ s with exited := true }, .returned (-1))
  | .test, s, .test =>
    some (s, if s.callbackCount < maxCallbackCount then .sleepMain else .delete)
  | .wake, s, .sleepMain => some (s, .test)
  | .delete, s, .delete => some ({ s with armed := false, exited := true }, .returned 0)
  | .start, s, .idle => if s.armed then some (s, .gettime) else none
  | .gettime, s, .gettime => some (s, .getoverrun)
  | .getoverrun, s, .getoverrun => some (s, .sleep)
  | .wake, s, .sleep => some (s, .load)
  | .load, s, .load => some (s, .store s.callbackCount)
  | .store, s, .store value => some ({ s with callbackCount := value + 1 }, .print)
  | .print, s, .print => some (s, .done)
  | _, _, _ => none

/-- One step of a thread. -/
def step (maxCallbackCount : ℕ) (op : Op) (s : Shared) (x : Pc) : Option (Shared × Pc) :=
  if s.exited then none else liveStep maxCallbackCount op s x

variable {ι : Type*}

/-- `main`, and a callback for every expiry of the timer. -/
def startAt : Option ι → Pc
  | none => .create
  | some _ => .idle

/-- All interleavings of `main` and of any number of callbacks `ι`. -/
def system (ι : Type*) [DecidableEq ι] (maxCallbackCount : ℕ) :
    Lts (Threads (Option ι) Shared Pc) (Option ι × Op) :=
  interleave ⟨0, false, false⟩ startAt fun _ => step maxCallbackCount

/-! ## What one step does -/

/-- A callback between its load and its store. -/
def Pc.inside : Pc → Bool
  | .store _ => true
  | _ => false

/-- Everything a step does to the count. -/
inductive Step (s : Shared) : Op → Pc → Shared → Pc → Prop
  | move {op : Op} {x y : Pc} {s' : Shared} (hc : s'.callbackCount = s.callbackCount)
      (hx : x.inside = false) (hy : y.inside = false) (hl : op ≠ .load) (hs : op ≠ .store) :
      Step s op x s' y
  | load : Step s .load .load s (.store s.callbackCount)
  | store {value : ℕ} :
      Step s .store (.store value) { s with callbackCount := value + 1 } .print

theorem step_cases {maxCallbackCount : ℕ} {op : Op} {s s' : Shared} {x y : Pc}
    (h : step maxCallbackCount op s x = some (s', y)) : Step s op x s' y := by
  unfold step at h
  split_ifs at h
  unfold liveStep at h
  split at h
  case h_5 =>
    cases h
    split_ifs <;> exact .move rfl rfl rfl (by simp) (by simp)
  case h_8 =>
    split_ifs at h
    cases h
    exact .move rfl rfl rfl (by simp) (by simp)
  case h_12 =>
    cases h
    exact .load
  case h_13 =>
    cases h
    exact .store
  case h_15 => cases h
  all_goals
    cases h
    exact .move rfl rfl rfl (by simp) (by simp)

/-! ## Overlap -/

/-- The loads and the stores of a run; a store completes an increment. -/
def loads : List (Option ι × Op) → ℕ := List.countP (·.2 = .load)

def stores : List (Option ι × Op) → ℕ := List.countP (·.2 = .store)

/-- No callback loads the count while another one is inside its increment. -/
def Serial (tr : List (Option ι × Op)) : Prop :=
  ∀ tr₁ p, tr₁ ++ [(p, .load)] <+: tr → loads tr₁ = stores tr₁

theorem serial_snoc (tr : List (Option ι × Op)) (e : Option ι × Op) :
    Serial (tr ++ [e]) ↔ Serial tr ∧ (e.2 = .load → loads tr = stores tr) := by
  constructor
  · intro h
    refine ⟨fun tr₁ p hp => h tr₁ p (hp.trans (List.prefix_append _ _)), ?_⟩
    intro he
    apply h tr e.1
    rw [← he]
  · intro h tr₁ p hp
    rcases List.prefix_concat_iff.1 hp with heq | hp
    · obtain ⟨rfl, he⟩ := List.append_inj' heq rfl
      exact h.2 (by cases he; rfl)
    · exact h.1 tr₁ p hp

/-- The callbacks inside their increments, each with one load more than stores. -/
def Balanced (tr : List (Option ι × Op)) (pc : Option ι → Pc) : Prop :=
  ∃ F : Finset (Option ι), (∀ p, p ∈ F ↔ (pc p).inside = true) ∧ loads tr = stores tr + F.card

/-- No overlap so far: the count is the number of stores, also for the one callback that may have
loaded it. -/
structure Exact (tr : List (Option ι × Op)) (w : Threads (Option ι) Shared Pc) : Prop where
  count : w.shared.callbackCount = stores tr
  loaded : ∀ p v, w.pc p = .store v → v = stores tr
  alone : ∀ p q, (w.pc p).inside = true → (w.pc q).inside = true → p = q

/-- After an overlap the count stays below the number of loads, whatever is stored. -/
structure Short (tr : List (Option ι × Op)) (w : Threads (Option ι) Shared Pc) : Prop where
  count : w.shared.callbackCount < loads tr
  loaded : ∀ p v, w.pc p = .store v → v + 1 < loads tr

section Steps

variable [DecidableEq ι] {tr : List (Option ι × Op)} {s s' : Shared} {pc : Option ι → Pc}
  {p : Option ι} {op : Op} {x y : Pc}

theorem Balanced.same (h : Balanced tr pc) (hl : op ≠ .load) (hs : op ≠ .store)
    (hx : (pc p).inside = false) (hy : y.inside = false) :
    Balanced (tr ++ [(p, op)]) (Function.update pc p y) := by
  obtain ⟨F, hF, hcard⟩ := h
  refine ⟨F, ?_, by simpa [loads, stores, hl, hs] using hcard⟩
  refine (Function.forall_update_iff _ fun q (x : Pc) => q ∈ F ↔ x.inside = true).2
    ⟨?_, fun q _ => hF q⟩
  rw [hF p, hx, hy]

theorem Balanced.load (h : Balanced tr pc) (hx : (pc p).inside = false) {v : ℕ} :
    Balanced (tr ++ [(p, .load)]) (Function.update pc p (.store v)) := by
  obtain ⟨F, hF, hcard⟩ := h
  have hp : p ∉ F := by
    rw [hF p, hx]
    exact Bool.false_ne_true
  refine ⟨insert p F, ?_, ?_⟩
  · refine (Function.forall_update_iff _ fun q (x : Pc) => q ∈ insert p F ↔ x.inside = true).2
      ⟨?_, ?_⟩
    · exact iff_of_true (Finset.mem_insert_self p F) rfl
    · intro q hq
      rw [Finset.mem_insert, or_iff_right hq]
      exact hF q
  · rw [Finset.card_insert_of_notMem hp]
    simp only [loads, stores] at hcard
    simp [loads, stores, hcard]
    omega

theorem Balanced.store (h : Balanced tr pc) {v : ℕ} (hx : pc p = .store v) :
    Balanced (tr ++ [(p, .store)]) (Function.update pc p .print) := by
  obtain ⟨F, hF, hcard⟩ := h
  have hp : p ∈ F := by
    rw [hF p, hx]
    rfl
  refine ⟨F.erase p, ?_, ?_⟩
  · refine (Function.forall_update_iff _ fun q (x : Pc) => q ∈ F.erase p ↔ x.inside = true).2
      ⟨?_, ?_⟩
    · exact iff_of_false (Finset.notMem_erase p F) Bool.false_ne_true
    · intro q hq
      rw [Finset.mem_erase, and_iff_right hq]
      exact hF q
  · have hpos := Finset.card_pos.2 ⟨p, hp⟩
    rw [Finset.card_erase_of_mem hp]
    simp only [loads, stores] at hcard
    simp [loads, stores, hcard]
    omega

/-- What holds of all loaded values after one thread has moved. -/
theorem loaded_update {P : ℕ → Prop} (h : ∀ q v, pc q = .store v → P v)
    (hy : ∀ v, y = .store v → P v) : ∀ q v, Function.update pc p y q = .store v → P v :=
  (Function.forall_update_iff _ fun _ (x : Pc) => ∀ v, x = .store v → P v).2
    ⟨hy, fun q _ => h q⟩

theorem Exact.same (h : Exact tr ⟨s, pc⟩) (hc : s'.callbackCount = s.callbackCount)
    (hs : op ≠ .store) (hy : y.inside = false) :
    Exact (tr ++ [(p, op)]) ⟨s', Function.update pc p y⟩ := by
  have hstores : stores (tr ++ [(p, op)]) = stores tr := by simp [stores, hs]
  refine ⟨?_, ?_, ?_⟩
  · rw [hstores]
    exact hc.trans h.count
  · rw [hstores]
    refine loaded_update h.loaded ?_
    intro v hv
    rw [hv] at hy
    cases hy
  · have hinside : ∀ q, (Function.update pc p y q).inside = true → (pc q).inside = true := by
      refine (Function.forall_update_iff _ fun q (x : Pc) => x.inside = true → _).2
        ⟨?_, fun q _ hq => hq⟩
      intro hx
      rw [hy] at hx
      cases hx
    exact fun q r hq hr => h.alone q r (hinside q hq) (hinside r hr)

theorem Exact.load (h : Exact tr ⟨s, pc⟩) (hout : ∀ q, (pc q).inside = false) :
    Exact (tr ++ [(p, .load)]) ⟨s, Function.update pc p (.store s.callbackCount)⟩ := by
  have hstores : stores (tr ++ [(p, .load)]) = stores tr := by simp [stores]
  refine ⟨?_, ?_, ?_⟩
  · rw [hstores]
    exact h.count
  · rw [hstores]
    refine loaded_update h.loaded ?_
    intro v hv
    cases hv
    exact h.count
  · have hp : ∀ q, (Function.update pc p (.store s.callbackCount) q).inside = true → q = p := by
      intro q hq
      by_contra hne
      rw [Function.update_of_ne hne, hout q] at hq
      cases hq
    exact fun q r hq hr => (hp q hq).trans (hp r hr).symm

theorem Exact.store (h : Exact tr ⟨s, pc⟩) {v : ℕ} (hx : pc p = .store v) :
    Exact (tr ++ [(p, .store)])
      ⟨{ s with callbackCount := v + 1 }, Function.update pc p .print⟩ := by
  have hout : ∀ q, (Function.update pc p .print q).inside = false := by
    refine (Function.forall_update_iff _ fun _ (x : Pc) => x.inside = false).2 ⟨rfl, ?_⟩
    intro q hq
    by_contra hin
    exact hq (h.alone q p (by simpa using hin) (by simp [hx, Pc.inside]))
  refine ⟨?_, ?_, ?_⟩
  · show v + 1 = stores (tr ++ [(p, .store)])
    rw [h.loaded p v hx]
    simp [stores]
  · intro q u hq
    have := hout q
    rw [show Function.update pc p .print q = .store u from hq] at this
    cases this
  · intro q r hq
    rw [show (Function.update pc p .print q).inside = false from hout q] at hq
    cases hq

/-- A load counts one more, so a count that was below the loads stays behind by two. -/
theorem short_of_load (hcount : s.callbackCount < loads tr)
    (hloaded : ∀ q v, pc q = .store v → v < loads tr) :
    Short (tr ++ [(p, .load)]) ⟨s, Function.update pc p (.store s.callbackCount)⟩ := by
  have hloads : loads (tr ++ [(p, .load)]) = loads tr + 1 := by simp [loads]
  refine ⟨?_, ?_⟩
  · rw [hloads]
    exact Nat.lt_succ_of_lt hcount
  · rw [hloads]
    refine loaded_update (fun q v hq => Nat.succ_lt_succ (hloaded q v hq)) ?_
    intro v hv
    cases hv
    exact Nat.succ_lt_succ hcount

/-- A load while another callback is inside. -/
theorem Exact.overlap (h : Exact tr ⟨s, pc⟩) (hlt : stores tr < loads tr) :
    Short (tr ++ [(p, .load)]) ⟨s, Function.update pc p (.store s.callbackCount)⟩ := by
  apply short_of_load
  · exact h.count.trans_lt hlt
  · intro q v hq
    exact (h.loaded q v hq).trans_lt hlt

theorem Short.same (h : Short tr ⟨s, pc⟩) (hc : s'.callbackCount = s.callbackCount)
    (hl : op ≠ .load) (hy : y.inside = false) :
    Short (tr ++ [(p, op)]) ⟨s', Function.update pc p y⟩ := by
  have hloads : loads (tr ++ [(p, op)]) = loads tr := by simp [loads, hl]
  refine ⟨?_, ?_⟩
  · rw [hloads]
    exact hc ▸ h.count
  · rw [hloads]
    refine loaded_update h.loaded ?_
    intro v hv
    rw [hv] at hy
    cases hy

theorem Short.load (h : Short tr ⟨s, pc⟩) :
    Short (tr ++ [(p, .load)]) ⟨s, Function.update pc p (.store s.callbackCount)⟩ := by
  apply short_of_load
  · exact h.count
  · intro q v hq
    exact Nat.lt_of_succ_lt (h.loaded q v hq)

theorem Short.store (h : Short tr ⟨s, pc⟩) {v : ℕ} (hx : pc p = .store v) :
    Short (tr ++ [(p, .store)])
      ⟨{ s with callbackCount := v + 1 }, Function.update pc p .print⟩ := by
  have hloads : loads (tr ++ [(p, .store)]) = loads tr := by simp [loads]
  refine ⟨?_, ?_⟩
  · rw [hloads]
    exact h.loaded p v hx
  · rw [hloads]
    refine loaded_update h.loaded ?_
    intro u hu
    cases hu

end Steps

/-! ## Runs -/

/-- Exact without overlap, short with one. -/
structure Counted (tr : List (Option ι × Op)) (w : Threads (Option ι) Shared Pc) : Prop where
  balanced : Balanced tr w.pc
  exact_of_serial : Serial tr → Exact tr w
  short_of_not : ¬Serial tr → Short tr w

section Runs

variable [DecidableEq ι] {tr : List (Option ι × Op)} {s s' : Shared} {pc : Option ι → Pc}
  {p : Option ι} {op : Op} {y : Pc}

theorem Counted.load (h : Counted tr ⟨s, pc⟩) (hx : pc p = .load) :
    Counted (tr ++ [(p, .load)]) ⟨s, Function.update pc p (.store s.callbackCount)⟩ := by
  have hout : (pc p).inside = false := by
    rw [hx]
    rfl
  refine ⟨h.balanced.load hout, ?_, ?_⟩
  · intro hserial
    obtain ⟨hserial, heq⟩ := (serial_snoc tr _).1 hserial
    obtain ⟨F, hF, hcard⟩ := h.balanced
    have hempty : F = ∅ := by
      rw [← Finset.card_eq_zero]
      have := heq rfl
      omega
    refine (h.exact_of_serial hserial).load ?_
    intro q
    by_contra hin
    have := (hF q).2 (by simpa using hin)
    simp [hempty] at this
  · intro hnot
    by_cases hserial : Serial tr
    · apply (h.exact_of_serial hserial).overlap
      obtain ⟨F, -, hcard⟩ := h.balanced
      have hne : loads tr ≠ stores tr := fun heq =>
        hnot ((serial_snoc tr _).2 ⟨hserial, fun _ => heq⟩)
      omega
    · exact (h.short_of_not hserial).load

theorem counted_step (h : Counted tr ⟨s, pc⟩) (hs : Step s op (pc p) s' y) :
    Counted (tr ++ [(p, op)]) ⟨s', Function.update pc p y⟩ := by
  generalize hx : pc p = x at hs
  cases hs with
  | move hc hin hy hl hst =>
    have hserial : Serial (tr ++ [(p, op)]) ↔ Serial tr := by
      rw [serial_snoc]
      exact and_iff_left fun he => absurd he hl
    refine ⟨h.balanced.same hl hst (by simpa [hx] using hin) hy, ?_, ?_⟩
    · intro hser
      exact (h.exact_of_serial (hserial.1 hser)).same hc hst hy
    · intro hnot
      exact (h.short_of_not fun hser => hnot (hserial.2 hser)).same hc hl hy
  | load => exact h.load hx
  | store =>
    have hserial : Serial (tr ++ [(p, .store)]) ↔ Serial tr := by
      rw [serial_snoc]
      exact and_iff_left fun he => by cases he
    refine ⟨h.balanced.store hx, ?_, ?_⟩
    · intro hser
      exact (h.exact_of_serial (hserial.1 hser)).store hx
    · intro hnot
      exact (h.short_of_not fun hser => hnot (hserial.2 hser)).store hx

theorem counted_run {maxCallbackCount : ℕ} {w : Threads (Option ι) Shared Pc}
    (h : (system ι maxCallbackCount).Run tr w) : Counted tr w := by
  apply interleave_induct (I := Counted) _ _ h
  · have hstart : ∀ p : Option ι, (startAt p).inside = false := fun p => by cases p <;> rfl
    refine ⟨⟨∅, ?_, rfl⟩, fun _ => ⟨rfl, ?_, ?_⟩, fun hnot => absurd ?_ hnot⟩
    · intro p
      simp [hstart p]
    · intro p v hp
      cases p <;> cases hp
    · intro p q hp
      rw [hstart p] at hp
      cases hp
    · intro tr₁ p hp
      simp at hp
  · intro tr p op s pc s' y ih hs
    exact counted_step ih (step_cases hs)

/-- **The count**, in every run that ends with no callback inside its increment. All increments
are counted, and the loop of `main` ends when `g_maxCallbackCount` of them are done, exactly when no
callback has loaded the count while another one was inside. -/
theorem count_iff {maxCallbackCount : ℕ} {w : Threads (Option ι) Shared Pc}
    (h : (system ι maxCallbackCount).Run tr w) (hout : ∀ p, (w.pc p).inside = false) :
    (w.shared.callbackCount = stores tr ∧
      (maxCallbackCount ≤ stores tr → ¬w.shared.callbackCount < maxCallbackCount)) ↔
      Serial tr := by
  have hc := counted_run h
  obtain ⟨F, hF, hcard⟩ := hc.balanced
  have hempty : F = ∅ := by
    apply Finset.eq_empty_of_forall_notMem
    intro p hp
    have := (hF p).1 hp
    rw [hout p] at this
    cases this
  rw [hempty, Finset.card_empty] at hcard
  constructor
  · intro hcount
    by_contra hnot
    have hshort := (hc.short_of_not hnot).count
    rw [hcount.1, hcard] at hshort
    exact lt_irrefl _ hshort
  · intro hserial
    have hcount := (hc.exact_of_serial hserial).count
    refine ⟨hcount, ?_⟩
    intro hmax
    rw [hcount]
    exact Nat.not_lt.2 hmax

end Runs

/-- The timer is set and two callbacks are about to increment the count. -/
def twoCallbacks (p q : Fin 2) : List (Option (Fin 2) × Op) :=
  [(none, .create true), (none, .settime true), (some p, .start), (some p, .gettime),
   (some p, .getoverrun), (some q, .start), (some q, .gettime), (some q, .getoverrun),
   (some p, .wake), (some q, .wake)]

theorem count_iff_inTurn :
    ∃ w, (system (Fin 2) 2).Run (twoCallbacks 0 1 ++
      [(some 0, .load), (some 0, .store), (some 1, .load), (some 1, .store)]) w ∧
      (∀ p, (w.pc p).inside = false) ∧ Serial (twoCallbacks 0 1 ++
        [(some 0, .load), (some 0, .store), (some 1, .load), (some 1, .store)]) := by
  obtain ⟨w, hw, hp⟩ := exists_run_of_exec ⟨⟨0, false, false⟩, startAt⟩ (next fun _ => step 2)
    (twoCallbacks 0 1 ++ [(some 0, .load), (some 0, .store), (some 1, .load), (some 1, .store)])
    (fun w => decide (w.shared.callbackCount = 2 ∧
      ∀ p : Option (Fin 2), (w.pc p).inside = false)) (by decide)
  obtain ⟨hcount, hout⟩ := of_decide_eq_true hp
  refine ⟨w, hw, hout, (count_iff hw hout).1 ⟨hcount, fun _ => ?_⟩⟩
  rw [hcount]
  decide

/-- **Two callbacks count as one**, and `main` goes on waiting for the second. -/
theorem count_lost :
    ∃ tr w, (system (Fin 2) 2).Run tr w ∧ (∀ p, (w.pc p).inside = false) ∧
      stores tr = 2 ∧ w.shared.callbackCount = 1 := by
  obtain ⟨w, hw, hp⟩ := exists_run_of_exec ⟨⟨0, false, false⟩, startAt⟩ (next fun _ => step 2)
    (twoCallbacks 0 1 ++ [(some 0, .load), (some 1, .load), (some 0, .store), (some 1, .store)])
    (fun w => decide (w.shared.callbackCount = 1 ∧
      ∀ p : Option (Fin 2), (w.pc p).inside = false)) (by decide)
  obtain ⟨hcount, hout⟩ := of_decide_eq_true hp
  exact ⟨_, w, hw, hout, by decide, hcount⟩

end LinuxDemo.PosixTimer
