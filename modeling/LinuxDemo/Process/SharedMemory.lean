import Mathlib.Data.Fintype.BigOperators
import LinuxDemo.Process.MapSharedMemory

/-!
# The counter in shared memory

`process/posix-ipc/shared-memory/main.c`: any number of processes map one `int` and each adds
`maxTestCount` times 1 to it. Each addition is atomic. The process that created the object also
sets the `int` to 0, with an atomic store of its own, after `ftruncate` and `mmap`: other processes
may be in their loops by then.

* `counted_run`: in every run, the number and the additions that a later `atomicSetValue`
  overwrote make up all additions (modulo `2 ^ 32`).
* `total_iff`: when all loops are finished the number is the sum of all additions exactly when
  the additions before `atomicSetValue` were a multiple of `2 ^ 32`, in particular when there was
  none.
* `total_lost`: an opening process that starts as soon as the object has its size may lose its
  additions.
-/

namespace LinuxDemo.SharedMemory

open Lts Threads

/-- What a process executes next. -/
inductive Pc where
  /-- Inside `_mapSharedMemory`, up to its `mmap`. -/
  | map (l : Shm.Pc)
  /-- `atomicSetValue((int*)mapAddress, 0)`, by the process that created the object. -/
  | setValue
  /-- The test of the loop in `main`. -/
  | loop (createNew : Bool) (i : ℕ)
  | munmap (createNew : Bool)
  | close (createNew : Bool)
  | unlink
  /-- `main` has returned. -/
  | exit (code : ℤ)
  /-- Killed by an access beyond the end of the object. -/
  | killed
  deriving DecidableEq

/-- What a process does in one step. -/
inductive Op where
  | map (op : Shm.Op)
  | atomicSet
  | atomicAdd
  /-- `*number` for the last `printf`. -/
  | read
  /-- An access to an object that has no size yet. -/
  | fault
  | munmap
  | close
  | unlink
  deriving DecidableEq

/-- The object and the `int` in it. -/
structure Shared where
  object : Shm.Object
  number : BitVec 32
  deriving DecidableEq

/-- Where `main` goes on after a step of `_mapSharedMemory`. -/
def afterMap : Shm.After → Pc
  | .inside l => .map l
  | .mapped true => .setValue
  | .mapped false => .loop false 0
  | .null => .exit (-1)

/-- One step of `main`. -/
def step (maxTestCount : ℕ) : Op → Shared → Pc → Option (Shared × Pc)
  | .map op, s, .map l =>
    (Shm.step op s.object l).map fun r => ({ s with object := r.1 }, afterMap r.2)
  | .atomicSet, s, .setValue =>
    if s.object.sized then some ({ s with number := 0 }, .loop true 0) else none
  | .atomicAdd, s, .loop createNew i =>
    if s.object.sized ∧ i < maxTestCount then
      some ({ s with number := s.number + 1 }, .loop createNew (i + 1))
    else none
  | .read, s, .loop createNew i =>
    if s.object.sized ∧ ¬i < maxTestCount then some (s, .munmap createNew) else none
  | .fault, s, .setValue => if s.object.sized then none else some (s, .killed)
  | .fault, s, .loop _ _ => if s.object.sized then none else some (s, .killed)
  | .munmap, s, .munmap createNew => some (s, .close createNew)
  | .close, s, .close createNew => some (s, if createNew then .unlink else .exit 0)
  | .unlink, s, .unlink => some ({ s with object := s.object.unlink }, .exit 0)
  | _, _, _ => none

/-- The object does not exist; once it has its size it is filled with zeros. -/
def fresh : Shared := ⟨.absent, 0⟩

/-- Any number of processes, started at any time. -/
def system (ι : Type*) [DecidableEq ι] (maxTestCount : ℕ) :
    Lts (Threads ι Shared Pc) (ι × Op) :=
  interleave fresh (fun _ => .map .create) fun _ => step maxTestCount

/-! ## What one step does -/

/-- The steps that leave the number alone. -/
inductive Move (maxTestCount : ℕ) (o : Shm.Object) : Op → Pc → Shm.Object → Pc → Prop
  | map {op : Shm.Op} {l : Shm.Pc} {o' : Shm.Object} {a : Shm.After} (h : Shm.Step o op l o' a) :
      Move maxTestCount o (.map op) (.map l) o' (afterMap a)
  | read {createNew : Bool} {i : ℕ} (h : maxTestCount ≤ i) :
      Move maxTestCount o .read (.loop createNew i) o (.munmap createNew)
  | faultSet (h : o.sized = false) : Move maxTestCount o .fault .setValue o .killed
  | faultLoop {createNew : Bool} {i : ℕ} (h : o.sized = false) :
      Move maxTestCount o .fault (.loop createNew i) o .killed
  | munmap {createNew : Bool} :
      Move maxTestCount o .munmap (.munmap createNew) o (.close createNew)
  | close {createNew : Bool} :
      Move maxTestCount o .close (.close createNew) o (if createNew then .unlink else .exit 0)
  | unlink : Move maxTestCount o .unlink .unlink o.unlink (.exit 0)

/-- Everything a step of `main` can do. -/
inductive Step (maxTestCount : ℕ) (s : Shared) : Op → Pc → Shared → Pc → Prop
  | move {op : Op} {x y : Pc} {o : Shm.Object} (h : Move maxTestCount s.object op x o y) :
      Step maxTestCount s op x { s with object := o } y
  | set (h : s.object.sized = true) :
      Step maxTestCount s .atomicSet .setValue { s with number := 0 } (.loop true 0)
  | add {createNew : Bool} {i : ℕ} (h : s.object.sized = true) (hi : i < maxTestCount) :
      Step maxTestCount s .atomicAdd (.loop createNew i) { s with number := s.number + 1 }
        (.loop createNew (i + 1))

theorem step_cases {maxTestCount : ℕ} {op : Op} {s s' : Shared} {x y : Pc}
    (h : step maxTestCount op s x = some (s', y)) : Step maxTestCount s op x s' y := by
  unfold step at h
  split at h
  · obtain ⟨⟨o, a⟩, hs, he⟩ := Option.map_eq_some_iff.1 h
    cases he
    exact .move (.map (Shm.step_cases hs))
  · split_ifs at h with hs
    cases h
    exact .set hs
  · split_ifs at h with hs
    cases h
    exact .add hs.1 hs.2
  · split_ifs at h with hs
    cases h
    exact .move (.read (Nat.not_lt.1 hs.2))
  · split_ifs at h with hs
    cases h
    exact .move (.faultSet (by simpa using hs))
  · split_ifs at h with hs
    cases h
    exact .move (.faultLoop (by simpa using hs))
  · cases h
    exact .move .munmap
  · cases h
    exact .move .close
  · cases h
    exact .move .unlink
  · cases h

/-! ## Counting additions -/

/-- The additions a process at this place has executed. -/
def Pc.added (maxTestCount : ℕ) : Pc → ℕ
  | .loop _ i => i
  | .munmap _ | .close _ | .unlink | .exit 0 => maxTestCount
  | _ => 0

/-- The process has left its loop, or is about to. -/
def Pc.finished (maxTestCount : ℕ) : Pc → Bool
  | .loop _ i => maxTestCount ≤ i
  | .munmap _ | .close _ | .unlink | .exit 0 => true
  | _ => false

variable {ι : Type*}

/-- The additions executed in a run. -/
def adds : List (ι × Op) → ℕ := List.countP (·.2 = .atomicAdd)

/-- The additions of a run that an `atomicSetValue` follows. -/
def addsBeforeSet : List (ι × Op) → ℕ
  | [] => 0
  | e :: tr =>
    (if e.2 = .atomicAdd ∧ ∃ e' ∈ tr, e'.2 = .atomicSet then 1 else 0) + addsBeforeSet tr

theorem addsBeforeSet_snoc_set (tr : List (ι × Op)) (p : ι) :
    addsBeforeSet (tr ++ [(p, .atomicSet)]) = adds tr := by
  induction tr with
  | nil => simp [addsBeforeSet, adds]
  | cons e tr ih =>
    have hset : ∃ e' ∈ tr ++ [(p, Op.atomicSet)], e'.2 = .atomicSet := ⟨(p, .atomicSet), by simp⟩
    rw [List.cons_append, addsBeforeSet, ih]
    simp only [adds, List.countP_cons, decide_eq_true_eq, hset, and_true]
    omega

theorem addsBeforeSet_snoc (tr : List (ι × Op)) {e : ι × Op} (he : e.2 ≠ .atomicSet) :
    addsBeforeSet (tr ++ [e]) = addsBeforeSet tr := by
  induction tr with
  | nil => simp [addsBeforeSet]
  | cons e₁ tr ih =>
    have hset : (∃ e' ∈ tr ++ [e], e'.2 = .atomicSet) ↔ ∃ e' ∈ tr, e'.2 = .atomicSet := by
      simp only [List.mem_append, or_and_right, exists_or, List.mem_singleton, exists_eq_left, he,
        or_false]
    rw [List.cons_append, addsBeforeSet, addsBeforeSet, ih]
    simp only [hset]

/-- What holds at a place of `main`. A process that has added found the object with its size. -/
def Pc.Ok (maxTestCount : ℕ) (o : Shm.Object) : Pc → Prop
  | .loop _ i => i ≤ maxTestCount ∧ (0 < i → o.sized = true)
  | _ => True

section Steps

variable {maxTestCount : ℕ} {o o' : Shm.Object} {op : Op} {x y : Pc}

theorem afterMap_start (a : Shm.After) :
    (afterMap a).added maxTestCount = 0 ∧ (afterMap a).Ok maxTestCount o := by
  cases a with
  | mapped c => cases c <;> simp [afterMap, Pc.added, Pc.Ok]
  | _ => simp [afterMap, Pc.added, Pc.Ok]

theorem Pc.Ok.mono (h : x.Ok maxTestCount o) (hs : o.sized = true → o'.sized = true) :
    x.Ok maxTestCount o' := by
  cases x with
  | loop c i => exact ⟨h.1, fun hi => hs (h.2 hi)⟩
  | _ => trivial

theorem Move.sized (h : Move maxTestCount o op x o' y) (hs : o.sized = true) :
    o'.sized = true := by
  cases h with
  | map h => exact h.sized hs
  | _ => exact hs

theorem Move.ok (h : Move maxTestCount o op x o' y) : y.Ok maxTestCount o' := by
  cases h with
  | map h => exact (afterMap_start _).2
  | @close c => cases c <;> trivial
  | _ => trivial

/-- A move changes nothing in the count, neither for its process nor in the trace. -/
theorem Move.added (h : Move maxTestCount o op x o' y) (hx : x.Ok maxTestCount o) :
    y.added maxTestCount = x.added maxTestCount ∧ op ≠ .atomicAdd ∧ op ≠ .atomicSet := by
  cases h with
  | map h => exact ⟨(afterMap_start (o := o') _).1, by simp, by simp⟩
  | read hi => simp [Pc.added, le_antisymm hi hx.1]
  | @faultLoop c i ho =>
    have hi : i = 0 := by
      apply Nat.eq_zero_of_not_pos
      intro hpos
      rw [hx.2 hpos] at ho
      cases ho
    simp [Pc.added, hi]
  | @close c => cases c <;> simp [Pc.added]
  | _ => simp [Pc.added]

end Steps

/-- The number and the additions that were overwritten make up all additions. -/
structure Counted [Fintype ι] (maxTestCount : ℕ) (tr : List (ι × Op))
    (w : Threads ι Shared Pc) : Prop where
  adds_eq : adds tr = ∑ p, (w.pc p).added maxTestCount
  number_eq :
    w.shared.number + BitVec.ofNat 32 (addsBeforeSet tr) = BitVec.ofNat 32 (adds tr)
  places : ∀ p, (w.pc p).Ok maxTestCount w.shared.object

section Runs

variable [DecidableEq ι] [Fintype ι] {maxTestCount : ℕ} {tr : List (ι × Op)} {s : Shared}
  {pc : ι → Pc} {p : ι} {op : Op} {y : Pc}

theorem Counted.move (h : Counted maxTestCount tr ⟨s, pc⟩) {o : Shm.Object}
    (hm : Move maxTestCount s.object op (pc p) o y) :
    Counted maxTestCount (tr ++ [(p, op)]) ⟨{ s with object := o }, Function.update pc p y⟩ := by
  obtain ⟨hadded, hadd, hset⟩ := hm.added (h.places p)
  have hadds : adds (tr ++ [(p, op)]) = adds tr := by simp [adds, hadd]
  refine ⟨?_, ?_, ?_⟩
  · have hsum := sum_update (Pc.added maxTestCount) pc p y
    rw [hadded] at hsum
    rw [hadds, h.adds_eq]
    exact (Nat.add_right_cancel hsum).symm
  · rw [addsBeforeSet_snoc tr hset, hadds]
    exact h.number_eq
  · refine (Function.forall_update_iff _ fun _ (x : Pc) => x.Ok maxTestCount o).2 ⟨hm.ok, ?_⟩
    intro q _
    exact (h.places q).mono hm.sized

theorem Counted.set (h : Counted maxTestCount tr ⟨s, pc⟩) (hpc : pc p = .setValue) :
    Counted maxTestCount (tr ++ [(p, .atomicSet)])
      ⟨{ s with number := 0 }, Function.update pc p (.loop true 0)⟩ := by
  have hadds : adds (tr ++ [(p, .atomicSet)]) = adds tr := by simp [adds]
  refine ⟨?_, ?_, ?_⟩
  · have hsum := sum_update (Pc.added maxTestCount) pc p (.loop true 0)
    rw [hpc] at hsum
    rw [hadds, h.adds_eq]
    exact hsum.symm
  · rw [addsBeforeSet_snoc_set, hadds]
    exact BitVec.zero_add _
  · exact (Function.forall_update_iff _ fun _ (x : Pc) => x.Ok maxTestCount s.object).2
      ⟨⟨Nat.zero_le _, fun hi => absurd hi (lt_irrefl 0)⟩, fun q _ => h.places q⟩

theorem Counted.add (h : Counted maxTestCount tr ⟨s, pc⟩) {c : Bool} {i : ℕ}
    (hpc : pc p = .loop c i) (hs : s.object.sized = true) (hi : i < maxTestCount) :
    Counted maxTestCount (tr ++ [(p, .atomicAdd)])
      ⟨{ s with number := s.number + 1 }, Function.update pc p (.loop c (i + 1))⟩ := by
  have hadds : adds (tr ++ [(p, .atomicAdd)]) = adds tr + 1 := by simp [adds]
  refine ⟨?_, ?_, ?_⟩
  · have hsum := sum_update (Pc.added maxTestCount) pc p (.loop c (i + 1))
    have heq : adds tr = ∑ q, (pc q).added maxTestCount := h.adds_eq
    rw [hpc] at hsum
    simp only [Pc.added] at hsum heq
    rw [hadds, heq]
    show _ = ∑ q, (Function.update pc p _ q).added maxTestCount
    simp only [Pc.added]
    omega
  · have hn : s.number + BitVec.ofNat 32 (addsBeforeSet tr) = BitVec.ofNat 32 (adds tr) :=
      h.number_eq
    rw [addsBeforeSet_snoc tr (by simp), hadds, BitVec.ofNat_add, ← hn]
    show s.number + 1 + _ = _
    rw [BitVec.add_assoc, BitVec.add_comm 1, ← BitVec.add_assoc]
    rfl
  · exact (Function.forall_update_iff _ fun _ (x : Pc) => x.Ok maxTestCount s.object).2
      ⟨⟨hi, fun _ => hs⟩, fun q _ => h.places q⟩

theorem counted_run {w : Threads ι Shared Pc} (h : (system ι maxTestCount).Run tr w) :
    Counted maxTestCount tr w := by
  apply interleave_induct (I := Counted maxTestCount) _ _ h
  · exact ⟨by simp [adds, Pc.added], rfl, fun p => trivial⟩
  · intro tr p op s pc s' y hc hs
    have hstep := step_cases hs
    generalize hx : pc p = x at hstep
    cases hstep with
    | move hm => exact hc.move (hx ▸ hm)
    | set => exact hc.set hx
    | add hsized hi => exact hc.add hx hsized hi

/-! ## The total -/

theorem Pc.added_of_finished {x : Pc} (hf : x.finished maxTestCount = true) {o : Shm.Object}
    (hx : x.Ok maxTestCount o) : x.added maxTestCount = maxTestCount := by
  unfold Pc.finished at hf
  split at hf
  · exact le_antisymm hx.1 (of_decide_eq_true hf)
  · rfl
  · rfl
  · rfl
  · rfl
  · cases hf

/-- **The total**, in every run in which all processes (one of them created the object) have
finished their loops. No addition is missing exactly when those that came before the
`atomicSetValue` of the creating process wrap around to 0. -/
theorem total_iff {w : Threads ι Shared Pc} (h : (system ι maxTestCount).Run tr w)
    (hf : ∀ p, (w.pc p).finished maxTestCount = true) :
    w.shared.number = BitVec.ofNat 32 (Fintype.card ι * maxTestCount) ↔
      2 ^ 32 ∣ addsBeforeSet tr := by
  have hc := counted_run h
  have hadds : adds tr = Fintype.card ι * maxTestCount := by
    rw [hc.adds_eq, Finset.sum_congr rfl fun p _ => Pc.added_of_finished (hf p) (hc.places p)]
    simp
  have hnumber := hc.number_eq
  rw [hadds] at hnumber
  have hzero : BitVec.ofNat 32 (addsBeforeSet tr) = 0#32 ↔ 2 ^ 32 ∣ addsBeforeSet tr := by
    rw [← BitVec.toNat_inj, BitVec.toNat_ofNat, BitVec.toNat_zero]
    exact (Nat.dvd_iff_mod_eq_zero).symm
  rw [← hnumber, ← hzero]
  constructor
  · intro heq
    exact BitVec.self_eq_add_right.1 heq
  · intro heq
    rw [heq, BitVec.add_zero]

end Runs

/-- A process that maps an object it did not create finds it with its size. -/
def MapsSized {ι : Type*} (w : Threads ι Shared Pc) (e : ι × Op) : Prop :=
  w.pc e.1 = .map (.mmap false) → e.2 = .map (.mmap true) → w.shared.object.sized = true

instance {ι : Type*} (w : Threads ι Shared Pc) (e : ι × Op) : Decidable (MapsSized w e) :=
  inferInstanceAs (Decidable (_ → _))

/-- Process `p` creates the object and maps it. -/
def createAndMap (p : Fin 2) : List (Fin 2 × Op) :=
  [(p, .map (.create true)), (p, .map (.ftruncate true)), (p, .map (.mmap true))]

/-- Process `p` opens the object and maps it. -/
def openAndMap (p : Fin 2) : List (Fin 2 × Op) :=
  [(p, .map (.create false)), (p, .map (.openExisting true)), (p, .map (.mmap true))]

theorem total_iff_inOrder :
    ∃ tr, ∃ w : Threads (Fin 2) Shared Pc, (system (Fin 2) 1).Run tr w ∧
      w.shared.number = BitVec.ofNat 32 (Fintype.card (Fin 2) * 1) := by
  obtain ⟨w, hw, hp⟩ := exists_run_of_exec ⟨fresh, fun _ => .map .create⟩ (next fun _ => step 1)
    (createAndMap 0 ++ [(0, .atomicSet)] ++ openAndMap 1 ++ [(1, .atomicAdd), (0, .atomicAdd)])
    (fun w => decide (∀ p, (w.pc p).finished 1 = true)) (by decide)
  exact ⟨_, w, hw, (total_iff hw (by simpa using hp)).2 (by decide)⟩

/-- **The total can be missed**, although the opening process maps the object after `ftruncate`:
it adds before the creating process sets the number to 0. -/
theorem total_lost :
    ∃ tr, ∃ w : Threads (Fin 2) Shared Pc, ((system (Fin 2) 1).guard MapsSized).Run tr w ∧
      (∀ p, (w.pc p).finished 1 = true) ∧
      w.shared.number ≠ BitVec.ofNat 32 (Fintype.card (Fin 2) * 1) := by
  obtain ⟨w, hw, hp⟩ := exists_guard_run_of_exec (next fun _ => step 1) (fun _ _ h => h)
    (.init rfl : ((system (Fin 2) 1).guard MapsSized).Run [] _)
    (createAndMap 0 ++ openAndMap 1 ++ [(1, .atomicAdd), (0, .atomicSet), (0, .atomicAdd)])
    (fun w => decide ((∀ p, (w.pc p).finished 1 = true) ∧ w.shared.number ≠ 2)) (by decide)
  simp only [decide_eq_true_eq] at hp
  exact ⟨_, w, hw, hp⟩

end LinuxDemo.SharedMemory
