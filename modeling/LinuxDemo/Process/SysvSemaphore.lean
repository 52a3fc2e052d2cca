import Mathlib.Algebra.Order.Ring.Int
import LinuxDemo.Lib.Threads

/-!
# The System V semaphore

`process/system-v-ipc/semaphore/main.c`: any number of processes run `main`. `_semCreateOrGet`
makes the semaphore and initialises it, with three system calls, or opens an existing one and polls
`sem_otime` until somebody has initialised it. Every system call is a step of its own; a process
may die at any point, and the kernel then undoes what it did with `SEM_UNDO`.

* `Inv`: nobody is past `_semCreateOrGet` while somebody is still to initialise the semaphore.
* `safe_start`: in every run at most one process creates, and all uses of the semaphore come
  after its `SETVAL` and its `semop`, neither of which happens again.
-/

namespace LinuxDemo.SysvSemaphore

open Lts Threads

/-- A set of one semaphore in the kernel. -/
structure SemSet (ι : Type*) where
  value : ℤ
  /-- `sem_otime` is not 0: some `semop` has succeeded. -/
  otime : Bool
  /-- What the exit of each process adds to the value. -/
  semadj : ι → ℤ

namespace SemSet

variable {ι : Type*} [DecidableEq ι]

/-- `semctl(semId, 0, SETVAL, arg)`, which also clears the adjustments. -/
def setval (s : SemSet ι) (val : ℤ) : SemSet ι := { s with value := val, semadj := fun _ => 0 }

/-- `semop` with `sem_op = op`; it blocks when the value would become negative. -/
def semop (s : SemSet ι) (p : ι) (op : ℤ) (undo : Bool) : Option (SemSet ι) :=
  if 0 ≤ s.value + op then
    some { value := s.value + op
           otime := true
           semadj := if undo then Function.update s.semadj p (s.semadj p - op) else s.semadj }
  else none

/-- The exit of process `p`. -/
def undo (s : SemSet ι) (p : ι) : SemSet ι :=
  { s with value := max 0 (s.value + s.semadj p), semadj := Function.update s.semadj p 0 }

end SemSet

/-- The three calls that `main` makes one after the other. -/
inductive Call where
  | wait
  | post
  | waitAgain
  deriving DecidableEq

/-- `sem_op` in `_semWait` and `_semPost`. -/
def Call.semOp : Call → ℤ
  | .wait | .waitAgain => -1
  | .post => 1

/-- What a process executes next. -/
inductive Pc where
  /-- `semget(key, 1, IPC_CREAT | IPC_EXCL | S_IRUSR | S_IWUSR)`. -/
  | create
  | setval
  /-- `semop` with `initValue` and without `SEM_UNDO`. -/
  | semopInit
  /-- `semget(key, 1, S_IRUSR | S_IWUSR)`. -/
  | openExisting
  /-- `IPC_STAT` in round `j` of the loop. -/
  | stat (j : ℕ)
  | sleep (j : ℕ)
  /-- The test of `ds.sem_otime` after the loop. -/
  | testOtime (otime : Bool)
  /-- `return semId`. -/
  | returns
  /-- `_semValue` for the first `printf` of `main`. -/
  | showFirst
  /-- `semop` in `_semWait` or `_semPost`. -/
  | call (c : Call)
  /-- `_semValue` for the `printf` after it. -/
  | showValue (c : Call)
  /-- `GETVAL` in `_trySemWait`. -/
  | tryWait
  /-- `_semValue` for the `printf` of `_trySemWait`. -/
  | showTry
  /-- About to return `code` from `main`. -/
  | leaving (code : ℤ)
  | exited
  deriving DecidableEq

/-- Where `main` goes on after a call, whatever it returned. -/
def Call.next : Call → Pc
  | .wait => .call .post
  | .post => .call .waitAgain
  | .waitAgain => .tryWait

/-- What a process does in one step; the system calls say if they succeed. -/
inductive Op where
  /-- The set is new; its value is what the kernel left there. -/
  | create (value : ℤ)
  /-- `EEXIST`. -/
  | createExists
  | createFails
  | setval (ok : Bool)
  | semopInit (ok : Bool)
  | openExisting (ok : Bool)
  | stat (ok : Bool)
  | sleep
  | testOtime
  | returnId
  | getval (ok : Bool)
  | semop (ok : Bool)
  /-- The process returns from `main`, or dies. -/
  | exit
  deriving DecidableEq

variable {ι : Type*}

/-- Process `p` executes one step. -/
def step [DecidableEq ι] (p : ι) :
    Op → Option (SemSet ι) → Pc → Option (Option (SemSet ι) × Pc)
  | .create value, none, .create => some (some ⟨value, false, fun _ => 0⟩, .setval)
  | .createExists, some s, .create => some (some s, .openExisting)
  | .createFails, s, .create => some (s, .leaving (-1))
  | .setval true, some s, .setval => some (some (s.setval 0), .semopInit)
  | .setval false, s, .setval => some (s, .leaving (-1))
  | .semopInit true, some s, .semopInit =>
    (s.semop p 1 false).map fun s' => (some s', .returns)
  | .semopInit false, s, .semopInit => some (s, .leaving (-1))
  | .openExisting true, some s, .openExisting => some (some s, .stat 0)
  | .openExisting false, s, .openExisting => some (s, .leaving (-1))
  | .stat true, some s, .stat j =>
    some (some s, if s.otime then .testOtime true else .sleep j)
  | .stat false, s, .stat _ => some (s, .leaving (-1))
  | .sleep, s, .sleep j => some (s, if j + 1 < 3 then .stat (j + 1) else .testOtime false)
  | .testOtime, s, .testOtime otime => some (s, if otime then .returns else .leaving (-1))
  | .returnId, s, .returns => some (s, .showFirst)
  | .getval _, s, .showFirst => some (s, .call .wait)
  | .semop true, some s, .call c =>
    (s.semop p c.semOp true).map fun s' => (some s', .showValue c)
  -- The result of `_semWait` and `_semPost` is not looked at.
  | .semop false, s, .call c => some (s, c.next)
  | .getval _, s, .showValue c => some (s, c.next)
  | .getval ok, s, .tryWait => some (s, if ok then .showTry else .leaving 0)
  | .getval _, s, .showTry => some (s, .leaving 0)
  | .exit, s, x => if x = .exited then none else some (s.map (·.undo p), .exited)
  | _, _, _ => none

/-- Any number of processes, started at any time; nobody removes the set. -/
def system (ι : Type*) [DecidableEq ι] : Lts (Threads ι (Option (SemSet ι)) Pc) (ι × Op) :=
  interleave none (fun _ => .create) step

/-! ## What one step does -/

/-- The steps that leave the semaphore alone. -/
inductive Move (s : Option (SemSet ι)) : Op → Pc → Pc → Prop
  | createExists (h : s.isSome = true) : Move s .createExists .create .openExisting
  | createFails : Move s .createFails .create (.leaving (-1))
  | setvalFails : Move s (.setval false) .setval (.leaving (-1))
  | initFails : Move s (.semopInit false) .semopInit (.leaving (-1))
  | openExisting : Move s (.openExisting true) .openExisting (.stat 0)
  | openFails : Move s (.openExisting false) .openExisting (.leaving (-1))
  | statFinds {j : ℕ} (h : s.map SemSet.otime = some true) :
      Move s (.stat true) (.stat j) (.testOtime true)
  | stat {j : ℕ} : Move s (.stat true) (.stat j) (.sleep j)
  | statFails {j : ℕ} : Move s (.stat false) (.stat j) (.leaving (-1))
  | sleep {j : ℕ} :
      Move s .sleep (.sleep j) (if j + 1 < 3 then .stat (j + 1) else .testOtime false)
  | testOtime {otime : Bool} :
      Move s .testOtime (.testOtime otime) (if otime then .returns else .leaving (-1))
  | returnId : Move s .returnId .returns .showFirst
  | showFirst {ok : Bool} : Move s (.getval ok) .showFirst (.call .wait)
  | semopFails {c : Call} : Move s (.semop false) (.call c) c.next
  | showValue {ok : Bool} {c : Call} : Move s (.getval ok) (.showValue c) c.next
  | tryWait {ok : Bool} :
      Move s (.getval ok) .tryWait (if ok then .showTry else .leaving 0)
  | showTry {ok : Bool} : Move s (.getval ok) .showTry (.leaving 0)

/-- Everything a step of `main` can do. -/
inductive Step [DecidableEq ι] (p : ι) :
    Op → Option (SemSet ι) → Pc → Option (SemSet ι) → Pc → Prop
  | move {s : Option (SemSet ι)} {op : Op} {x y : Pc} (h : Move s op x y) : Step p op s x s y
  | create {value : ℤ} :
      Step p (.create value) none .create (some ⟨value, false, fun _ => 0⟩) .setval
  | setval {s : SemSet ι} : Step p (.setval true) (some s) .setval (some (s.setval 0)) .semopInit
  | init {s s' : SemSet ι} (h : s.semop p 1 false = some s') :
      Step p (.semopInit true) (some s) .semopInit (some s') .returns
  | semop {s s' : SemSet ι} {c : Call} (h : s.semop p c.semOp true = some s') :
      Step p (.semop true) (some s) (.call c) (some s') (.showValue c)
  | exit {s : Option (SemSet ι)} {x : Pc} (h : x ≠ .exited) :
      Step p .exit s x (s.map (·.undo p)) .exited

theorem step_cases [DecidableEq ι] {p : ι} {op : Op} {s s' : Option (SemSet ι)} {x y : Pc}
    (h : step p op s x = some (s', y)) : Step p op s x s' y := by
  unfold step at h
  split at h
  · cases h
    exact .create
  · cases h
    exact .move (.createExists rfl)
  · cases h
    exact .move .createFails
  · cases h
    exact .setval
  · cases h
    exact .move .setvalFails
  · obtain ⟨s'', hs, he⟩ := Option.map_eq_some_iff.1 h
    cases he
    exact .init hs
  · cases h
    exact .move .initFails
  · cases h
    exact .move .openExisting
  · cases h
    exact .move .openFails
  · cases h
    split_ifs with ho
    · exact .move (.statFinds (by simp [ho]))
    · exact .move .stat
  · cases h
    exact .move .statFails
  · cases h
    exact .move .sleep
  · cases h
    exact .move .testOtime
  · cases h
    exact .move .returnId
  · cases h
    exact .move .showFirst
  · obtain ⟨s'', hs, he⟩ := Option.map_eq_some_iff.1 h
    cases he
    exact .semop hs
  · cases h
    exact .move .semopFails
  · cases h
    exact .move .showValue
  · cases h
    exact .move .tryWait
  · cases h
    exact .move .showTry
  · split_ifs at h with hx
    cases h
    exact .exit hx
  · cases h

theorem SemSet.semop_eq_some [DecidableEq ι] {s s' : SemSet ι} {p : ι} {op : ℤ} {undo : Bool} :
    s.semop p op undo = some s' ↔ 0 ≤ s.value + op ∧
      s' = ⟨s.value + op, true,
        if undo then Function.update s.semadj p (s.semadj p - op) else s.semadj⟩ := by
  by_cases h : 0 ≤ s.value + op
  · simp [SemSet.semop, h, eq_comm]
  · simp [SemSet.semop, h]

/-! ## Start-up -/

/-- The process has created the set and is still to initialise it. -/
def Pc.making : Pc → Bool
  | .setval | .semopInit => true
  | _ => false

/-- The process knows that the semaphore is initialised. -/
def Pc.past : Pc → Bool
  | .testOtime true | .returns | .showFirst | .call _ | .showValue _ | .tryWait | .showTry => true
  | _ => false

/-- `_semCreateOrGet` returns an id, or the semaphore is used. -/
def Op.late : Op → Bool
  | .returnId | .getval _ | .semop _ => true
  | _ => false

/-- The two calls that initialise the semaphore. -/
def Op.initialises : Op → Bool
  | .setval _ | .semopInit _ => true
  | _ => false

/-- The creating branch is taken. -/
def Op.creates : Op → Bool
  | .create _ => true
  | _ => false

theorem Call.past_next (c : Call) : c.next.past = true ∧ c.next.making = false := by
  cases c <;> exact ⟨rfl, rfl⟩

theorem Move.past {s : Option (SemSet ι)} {op : Op} {x y : Pc} (h : Move s op x y) :
    y.making = false ∧ (y.past = true → x.past = true ∨ s.map SemSet.otime = some true) := by
  cases h with
  | statFinds ho => exact ⟨rfl, fun _ => Or.inr ho⟩
  | @sleep j => split_ifs <;> exact ⟨rfl, fun hy => by cases hy⟩
  | @testOtime b => cases b <;> simp [Pc.making, Pc.past]
  | @semopFails c => exact ⟨c.past_next.2, fun _ => Or.inl rfl⟩
  | @showValue ok c => exact ⟨c.past_next.2, fun _ => Or.inl rfl⟩
  | @tryWait ok => cases ok <;> exact ⟨rfl, fun _ => Or.inl rfl⟩
  | _ => exact ⟨rfl, fun hy => by first | exact Or.inl rfl | cases hy⟩

section Steps

variable [DecidableEq ι] {p : ι} {op : Op} {s s' : Option (SemSet ι)} {x y : Pc}

theorem Step.past_of_late (h : Step p op s x s' y) (hl : op.late = true) : x.past = true := by
  cases h with
  | move h => cases h <;> first | rfl | cases hl
  | semop => rfl
  | _ => cases hl

theorem Step.making_of_initialises (h : Step p op s x s' y) (hi : op.initialises = true) :
    x.making = true := by
  cases h with
  | move h => cases h <;> first | rfl | cases hi
  | setval => rfl
  | init => rfl
  | _ => cases hi

theorem undo_otime (s : Option (SemSet ι)) :
    (s.map (·.undo p)).map SemSet.otime = s.map SemSet.otime := by
  cases s <;> rfl

theorem SemSet.otime_of_semop {t t' : SemSet ι} {op : ℤ} {undo : Bool}
    (h : t.semop p op undo = some t') : t'.otime = true := by
  rw [(SemSet.semop_eq_some.1 h).2]

end Steps

/-- Nobody is past `_semCreateOrGet` while somebody is still to initialise the semaphore. -/
structure Inv (w : Threads ι (Option (SemSet ι)) Pc) : Prop where
  making : ∀ p, (w.pc p).making = true → w.shared.map SemSet.otime = some false
  unique : ∀ p q, (w.pc p).making = true → (w.pc q).making = true → p = q
  past : ∀ p, (w.pc p).past = true → w.shared.map SemSet.otime = some true

section Runs

variable [DecidableEq ι] {s s' : Option (SemSet ι)} {pc : ι → Pc} {p : ι} {op : Op} {y : Pc}

theorem making_of_update (hm : y.making = true → (pc p).making = true) :
    ∀ q, (Function.update pc p y q).making = true → (pc q).making = true :=
  (Function.forall_update_iff _ fun q (x : Pc) => x.making = true → (pc q).making = true).2
    ⟨hm, fun _ _ hq => hq⟩

/-- A step that leaves `sem_otime` alone. -/
theorem Inv.same (h : Inv ⟨s, pc⟩) (ho : s'.map SemSet.otime = s.map SemSet.otime)
    (hm : y.making = true → (pc p).making = true)
    (hp : y.past = true → s.map SemSet.otime = some true) :
    Inv ⟨s', Function.update pc p y⟩ where
  making := by
    refine (Function.forall_update_iff _ fun _ (x : Pc) => x.making = true →
      s'.map SemSet.otime = some false).2 ⟨?_, ?_⟩
    · intro hy
      rw [ho]
      exact h.making p (hm hy)
    · intro q _ hq
      rw [ho]
      exact h.making q hq
  unique := by
    intro q r hq hr
    exact h.unique q r (making_of_update hm q hq) (making_of_update hm r hr)
  past := by
    refine (Function.forall_update_iff _ fun _ (x : Pc) => x.past = true →
      s'.map SemSet.otime = some true).2 ⟨?_, ?_⟩
    · intro hy
      rw [ho]
      exact hp hy
    · intro q _ hq
      rw [ho]
      exact h.past q hq

theorem Inv.create (h : Inv ⟨none, pc⟩) {value : ℤ} :
    Inv ⟨some ⟨value, false, fun _ => 0⟩, Function.update pc p .setval⟩ where
  making := fun _ _ => rfl
  unique := by
    have hp : ∀ q, (Function.update pc p .setval q).making = true → q = p := by
      intro q hq
      by_contra hne
      rw [Function.update_of_ne hne] at hq
      cases h.making q hq
    exact fun q r hq hr => (hp q hq).trans (hp r hr).symm
  past := by
    refine (Function.forall_update_iff _ fun _ (x : Pc) => x.past = true → _).2 ⟨?_, ?_⟩
    · intro hy
      cases hy
    · intro q _ hq
      cases h.past q hq

theorem Inv.init {t t' : SemSet ι} (h : Inv ⟨some t, pc⟩) (hpc : pc p = .semopInit)
    (hs : t.semop p 1 false = some t') : Inv ⟨some t', Function.update pc p .returns⟩ where
  making := by
    refine (Function.forall_update_iff _ fun _ (x : Pc) => x.making = true → _).2 ⟨?_, ?_⟩
    · intro hy
      cases hy
    · intro q hne hq
      exact absurd (h.unique q p hq (by simp [hpc, Pc.making])) hne
  unique := by
    intro q r hq hr
    have hm : Pc.returns.making = true → (pc p).making = true := fun hy => by cases hy
    exact h.unique q r (making_of_update hm q hq) (making_of_update hm r hr)
  past := fun _ _ => congrArg some (SemSet.otime_of_semop hs)

theorem inv_step (h : Inv ⟨s, pc⟩) (hs : Step p op s (pc p) s' y) :
    Inv ⟨s', Function.update pc p y⟩ := by
  generalize hx : pc p = x at hs
  cases hs with
  | move hm =>
    refine h.same rfl ?_ ?_
    · intro hy
      rw [hm.past.1] at hy
      cases hy
    · intro hy
      rcases hm.past.2 hy with hp | ho
      · exact h.past p (by simpa [hx] using hp)
      · exact ho
  | create => exact h.create
  | @setval s => exact h.same rfl (fun _ => by rw [hx]; rfl) fun hy => by cases hy
  | init hs => exact h.init hx hs
  | @semop s s' c hs =>
    have ho : (some s).map SemSet.otime = some true := h.past p (by simp [hx, Pc.past])
    refine h.same ?_ (fun hy => by cases hy) fun _ => ho
    rw [ho]
    exact congrArg some (SemSet.otime_of_semop hs)
  | exit => exact h.same (undo_otime s) (fun hy => by cases hy) fun hy => by cases hy

theorem inv_invariant : (system ι).Invariant Inv := by
  apply interleave_invariant
  · exact ⟨fun p hp => (by cases hp), fun p q hp => (by cases hp), fun p hp => (by cases hp)⟩
  · intro p op s pc s' y h hs
    exact inv_step h (step_cases hs)

/-! ## Order of the calls -/

/-- Some process has created the semaphore, set it to 0 and added 1 to it, in this order. -/
def Initialised (tr : List (ι × Op)) : Prop :=
  ∃ q value, List.Sublist [(q, .create value), (q, .setval true), (q, .semopInit true)] tr

/-- What the state knows about the calls that have been made. -/
structure History (tr : List (ι × Op)) (w : Threads ι (Option (SemSet ι)) Pc) : Prop where
  created : tr.countP (·.2.creates) = if w.shared.isSome then 1 else 0
  setval : ∀ q, w.pc q = .setval → ∃ value, List.Sublist [(q, .create value)] tr
  semopInit : ∀ q, w.pc q = .semopInit →
    ∃ value, List.Sublist [(q, .create value), (q, .setval true)] tr
  initialised : w.shared.map SemSet.otime = some true → Initialised tr
  late : ∀ e ∈ tr, e.2.late = true → w.shared.map SemSet.otime = some true

/-- A step that creates nothing and leaves `sem_otime` alone. -/
theorem History.same {tr : List (ι × Op)} (h : History tr ⟨s, pc⟩)
    (ho : s'.map SemSet.otime = s.map SemSet.otime) (hc : op.creates = false)
    (hsetval : y ≠ .setval)
    (hinit : y = .semopInit → pc p = .setval ∧ op = .setval true)
    (hlate : op.late = true → s.map SemSet.otime = some true) :
    History (tr ++ [(p, op)]) ⟨s', Function.update pc p y⟩ where
  created := by
    have hsome : s'.isSome = s.isSome := by
      simpa using congrArg Option.isSome ho
    rw [List.countP_append, List.countP_singleton, hc, h.created]
    simp [hsome]
  setval := by
    refine (Function.forall_update_iff _ fun q (x : Pc) => x = .setval → _).2 ⟨?_, ?_⟩
    · intro hy
      exact absurd hy hsetval
    · intro q _ hq
      obtain ⟨v, hv⟩ := h.setval q hq
      exact ⟨v, hv.trans (List.sublist_append_left _ _)⟩
  semopInit := by
    refine (Function.forall_update_iff _ fun q (x : Pc) => x = .semopInit → _).2 ⟨?_, ?_⟩
    · intro hy
      obtain ⟨hpc, rfl⟩ := hinit hy
      obtain ⟨v, hv⟩ := h.setval p hpc
      exact ⟨v, hv.append (List.Sublist.refl [(p, Op.setval true)])⟩
    · intro q _ hq
      obtain ⟨v, hv⟩ := h.semopInit q hq
      exact ⟨v, hv.trans (List.sublist_append_left _ _)⟩
  initialised := by
    intro hs'
    obtain ⟨q, v, hv⟩ := h.initialised (ho.symm.trans hs')
    exact ⟨q, v, hv.trans (List.sublist_append_left _ _)⟩
  late := by
    intro e he hl
    show s'.map SemSet.otime = some true
    rw [ho]
    rcases List.mem_append.1 he with he | he
    · exact h.late e he hl
    · rw [List.mem_singleton.1 he] at hl
      exact hlate hl

theorem History.create {tr : List (ι × Op)} (h : History tr ⟨none, pc⟩)
    (hI : Inv ⟨none, pc⟩) {value : ℤ} :
    History (tr ++ [(p, .create value)])
      ⟨some ⟨value, false, fun _ => 0⟩, Function.update pc p .setval⟩ where
  created := by
    rw [List.countP_append, h.created]
    rfl
  setval := by
    refine (Function.forall_update_iff _ fun q (x : Pc) => x = .setval → _).2 ⟨?_, ?_⟩
    · intro _
      exact ⟨value, List.sublist_append_right _ _⟩
    · intro q _ hq
      cases hI.making q (by simp [hq, Pc.making])
  semopInit := by
    refine (Function.forall_update_iff _ fun q (x : Pc) => x = .semopInit → _).2 ⟨?_, ?_⟩
    · intro hy
      cases hy
    · intro q _ hq
      cases hI.making q (by simp [hq, Pc.making])
  initialised := by
    intro hs
    cases hs
  late := by
    intro e he hl
    rcases List.mem_append.1 he with he | he
    · cases h.late e he hl
    · rw [List.mem_singleton.1 he] at hl
      cases hl

/-- Nobody makes the semaphore any more when its maker returns. -/
theorem Inv.not_making_update (hI : Inv ⟨s, pc⟩) (hpc : pc p = .semopInit) :
    ∀ q, (Function.update pc p .returns q).making = false := by
  refine (Function.forall_update_iff _ fun _ (x : Pc) => x.making = false).2 ⟨rfl, ?_⟩
  intro q hne
  by_contra hq
  exact hne (hI.unique q p (by simpa using hq) (by simp [hpc, Pc.making]))

theorem History.init {tr : List (ι × Op)} {t t' : SemSet ι} (h : History tr ⟨some t, pc⟩)
    (hI : Inv ⟨some t, pc⟩) (hpc : pc p = .semopInit) (hs : t.semop p 1 false = some t') :
    History (tr ++ [(p, .semopInit true)]) ⟨some t', Function.update pc p .returns⟩ where
  created := by
    rw [List.countP_append, h.created]
    rfl
  setval := by
    intro q hq
    have hnot := hI.not_making_update hpc q
    rw [show Function.update pc p .returns q = .setval from hq] at hnot
    cases hnot
  semopInit := by
    intro q hq
    have hnot := hI.not_making_update hpc q
    rw [show Function.update pc p .returns q = .semopInit from hq] at hnot
    cases hnot
  initialised := by
    intro _
    obtain ⟨v, hv⟩ := h.semopInit p hpc
    exact ⟨p, v, hv.append (List.Sublist.refl [(p, Op.semopInit true)])⟩
  late := fun _ _ _ => congrArg some (SemSet.otime_of_semop hs)

theorem history_step {tr : List (ι × Op)} (h : History tr ⟨s, pc⟩) (hI : Inv ⟨s, pc⟩)
    (hs : Step p op s (pc p) s' y) :
    History (tr ++ [(p, op)]) ⟨s', Function.update pc p y⟩ := by
  have hlate : op.late = true → s.map SemSet.otime = some true :=
    fun hl => hI.past p (hs.past_of_late hl)
  generalize hx : pc p = x at hs
  cases hs with
  | move hm =>
    refine h.same rfl (by cases hm <;> rfl) ?_ ?_ hlate
    · intro hy
      have := hm.past.1
      rw [hy] at this
      cases this
    · intro hy
      have := hm.past.1
      rw [hy] at this
      cases this
  | create => exact h.create hI
  | setval => exact h.same rfl rfl (by simp) (fun _ => ⟨hx, rfl⟩) hlate
  | init hs => exact h.init hI hx hs
  | semop hs =>
    refine h.same ?_ rfl (by simp) (fun hy => by cases hy) hlate
    rw [hlate rfl]
    exact congrArg some (SemSet.otime_of_semop hs)
  | exit => exact h.same (undo_otime s) rfl (by simp) (fun hy => by cases hy) hlate

theorem history_run {tr : List (ι × Op)} {w : Threads ι (Option (SemSet ι)) Pc}
    (h : (system ι).Run tr w) : History tr w ∧ Inv w := by
  apply interleave_induct (I := fun tr w => History tr w ∧ Inv w) _ _ h
  · refine ⟨⟨rfl, ?_, ?_, ?_, ?_⟩, inv_invariant.init _ rfl⟩
    · intro q hq
      cases hq
    · intro q hq
      cases hq
    · intro ho
      cases ho
    · intro e he
      cases he
  · intro tr p op s pc s' y ih hs
    exact ⟨history_step ih.1 ih.2 (step_cases hs), inv_step ih.2 (step_cases hs)⟩

/-- **Safe start-up**, in every run: at most one process takes the creating branch, and when a
process returns an id or uses the semaphore, the creating process has executed `SETVAL` and the
first `semop`, and nobody executes them again. -/
theorem safe_start {tr : List (ι × Op)} {w : Threads ι (Option (SemSet ι)) Pc}
    (h : (system ι).Run tr w) :
    tr.countP (·.2.creates) ≤ 1 ∧
      ∀ tr₁ e tr₂, tr = tr₁ ++ e :: tr₂ → e.2.late = true →
        Initialised tr₁ ∧ ∀ e' ∈ tr₂, e'.2.initialises = false := by
  constructor
  · rw [(history_run h).1.created]
    split_ifs <;> simp
  · intro tr₁ e tr₂ htr hl
    subst htr
    constructor
    · obtain ⟨w₁, w₂, hrun, hstep⟩ := h.before
      obtain ⟨s', y, hlocal, -⟩ := interleave_step hstep
      have hinit := (history_run hrun).2.past e.1 ((step_cases hlocal).past_of_late hl)
      exact (history_run hrun).1.initialised hinit
    · intro e' he'
      obtain ⟨tr₃, tr₄, rfl⟩ := List.append_of_mem he'
      rw [← List.cons_append, ← List.append_assoc] at h
      obtain ⟨w₁, w₂, hrun, hstep⟩ := h.before
      obtain ⟨s', y, hlocal, -⟩ := interleave_step hstep
      have hotime := (history_run hrun).1.late e (by simp) hl
      by_contra hi
      rw [Bool.not_eq_false] at hi
      have hmaking :=
        (history_run hrun).2.making e'.1 ((step_cases hlocal).making_of_initialises hi)
      rw [hotime] at hmaking
      cases hmaking

end Runs

/-- Process `p` creates and initialises while process `q` polls. -/
def createAndPoll (p q : Fin 2) : List (Fin 2 × Op) :=
  [(p, .create 7), (q, .createExists), (q, .openExisting true), (p, .setval true),
   (q, .stat true), (q, .sleep), (p, .semopInit true), (q, .stat true), (q, .testOtime),
   (q, .returnId)]

theorem safe_start_createAndPoll :
    ∃ w, (system (Fin 2)).Run (createAndPoll 0 1) w ∧ w.pc 1 = .showFirst ∧
      (createAndPoll 0 1).countP (·.2.creates) ≤ 1 ∧
      Initialised ((createAndPoll 0 1).take 9) := by
  obtain ⟨w, hw, hp⟩ := exists_run_of_exec ⟨none, fun _ => .create⟩ (next step)
    (createAndPoll 0 1) (fun w => w.pc 1 = .showFirst) (by decide)
  obtain ⟨hcreates, hlate⟩ := safe_start hw
  exact ⟨w, hw, by simpa using hp, hcreates,
    (hlate ((createAndPoll 0 1).take 9) (1, .returnId) [] rfl rfl).1⟩

end LinuxDemo.SysvSemaphore
