import Mathlib.Algebra.BigOperators.Ring.Finset
import Mathlib.Data.Fintype.BigOperators
import Mathlib.Data.BitVec
import Mathlib.Data.Finset.Insert
import Mathlib.Data.Finset.Erase
import LinuxDemo.Lib.Names

/-!
# The counter in a System V segment

`process/system-v-ipc/shared-memory/main.c`: any number of processes run `main`. A process creates
the segment of the key or opens the existing one, attaches it, adds `maxTestCount` times 1 to the
`int` in it, detaches it and removes it. Every system call is a step of its own.

A segment has its size and is filled with zeros from the moment it exists, and nobody sets it to 0
later. The first process that is finished takes the key away; those that are still attached go on
with the old segment, and those that come later create another one. The kernel destroys a removed
segment when the last process detaches it.

* `segment_total`: no addition to any of the segments is lost, and nobody uses a destroyed one.
* `segments_destroyed`: when all processes have returned, no segment is left behind, unless `shmat`
  has failed on a live one.
-/

namespace LinuxDemo.SysvSharedMemory

open Lts Threads

variable {ι : Type*}

/-! ## The kernel -/

structure Segment (ι : Type*) where
  number : BitVec 32
  attached : Finset ι
  /-- `IPC_RMID` was called. -/
  removed : Bool

namespace Segment

/-- A new segment is filled with zeros. -/
def new : Segment ι := ⟨0, ∅, false⟩

/-- The kernel has given up the segment. -/
def Destroyed (s : Segment ι) : Prop := s.removed = true ∧ s.attached = ∅

instance [DecidableEq ι] (s : Segment ι) : Decidable s.Destroyed :=
  inferInstanceAs (Decidable (_ ∧ _))

variable [DecidableEq ι]

def attach (s : Segment ι) (p : ι) : Segment ι := { s with attached := insert p s.attached }

def detach (s : Segment ι) (p : ι) : Segment ι := { s with attached := s.attached.erase p }

/-- `atomicAddValue(number, 1)`. -/
def add (s : Segment ι) : Segment ι := { s with number := s.number + 1 }

end Segment

/-- `shmctl(shmId, IPC_RMID, NULL)`, which also takes the key away. -/
def rmid (n : Names (Segment ι)) (k : ℕ) : Names (Segment ι) :=
  (n.put k { n.object k with removed := true }).unlinkObject k

/-! ## The program -/

/-- What a process executes next; `k` is `shmId`. -/
inductive Pc where
  /-- `shmget(key1, shmSize, IPC_CREAT | IPC_EXCL | S_IRUSR | S_IWUSR)`. -/
  | create
  /-- `shmget(key1, shmSize, S_IRUSR | S_IWUSR)`. -/
  | openExisting
  | shmat (k : ℕ) (createNew : Bool)
  /-- The test of the loop. -/
  | loop (k : ℕ) (createNew : Bool) (i : ℕ)
  /-- After the last `printf` of the test, which shows `number`. -/
  | shmdt (k : ℕ) (number : BitVec 32)
  | rmid (k : ℕ)
  /-- `main` has returned 0. -/
  | returned (k : ℕ)
  /-- `main` has returned -1. -/
  | failed
  /-- Killed by an access to a segment that is not attached. -/
  | killed
  deriving DecidableEq

/-- What a process does in one step; the system calls say if they succeed. -/
inductive Op where
  | create
  /-- `EEXIST`. -/
  | createExists
  | createFails
  | openExisting (ok : Bool)
  | shmat (ok : Bool)
  | add
  /-- `*number` for the `printf`. -/
  | read
  | fault
  | shmdt
  | rmid
  deriving DecidableEq

/-- Process `p` executes one step. -/
def step [DecidableEq ι] (maxTestCount : ℕ) (p : ι) :
    Op → Names (Segment ι) → Pc → Option (Names (Segment ι) × Pc)
  | .create, n, .create => (n.create .new).map fun n' => (n', .shmat n.fresh true)
  | .createExists, n, .create => if n.name.isSome then some (n, .openExisting) else none
  | .createFails, n, .create => some (n, .failed)
  | .openExisting true, n, .openExisting => n.name.map fun k => (n, .shmat k false)
  | .openExisting false, n, .openExisting => some (n, .failed)
  | .shmat true, n, .shmat k c =>
    if (n.object k).Destroyed then none else some (n.put k ((n.object k).attach p), .loop k c 0)
  | .shmat false, n, .shmat _ _ => some (n, .failed)
  | .add, n, .loop k c i =>
    if p ∈ (n.object k).attached ∧ i < maxTestCount then
      some (n.put k (n.object k).add, .loop k c (i + 1))
    else none
  | .read, n, .loop k _ i =>
    if p ∈ (n.object k).attached ∧ ¬i < maxTestCount then some (n, .shmdt k (n.object k).number)
    else none
  | .fault, n, .loop k _ _ => if p ∈ (n.object k).attached then none else some (n, .killed)
  | .shmdt, n, .shmdt k _ => some (n.put k ((n.object k).detach p), .rmid k)
  | .rmid, n, .rmid k => some (LinuxDemo.SysvSharedMemory.rmid n k, .returned k)
  | _, _, _ => none

/-- Any number of processes, started at any time. -/
def system (ι : Type*) [DecidableEq ι] (maxTestCount : ℕ) :
    Lts (Threads ι (Names (Segment ι)) Pc) (ι × Op) :=
  interleave (.unused .new) (fun _ => .create) (step maxTestCount)

/-! ## What one step does -/

/-- The steps that leave the kernel alone. -/
inductive Move (maxTestCount : ℕ) (p : ι) (n : Names (Segment ι)) : Op → Pc → Pc → Prop
  | createExists : Move maxTestCount p n .createExists .create .openExisting
  | createFails : Move maxTestCount p n .createFails .create .failed
  | openFinds {k : ℕ} (h : n.name = some k) :
      Move maxTestCount p n (.openExisting true) .openExisting (.shmat k false)
  | openFails : Move maxTestCount p n (.openExisting false) .openExisting .failed
  | shmatFails {k : ℕ} {c : Bool} : Move maxTestCount p n (.shmat false) (.shmat k c) .failed
  | read {k i : ℕ} {c : Bool} (hi : maxTestCount ≤ i) :
      Move maxTestCount p n .read (.loop k c i) (.shmdt k (n.object k).number)
  | fault {k i : ℕ} {c : Bool} (h : p ∉ (n.object k).attached) :
      Move maxTestCount p n .fault (.loop k c i) .killed

/-- Everything a step of `main` can do. -/
inductive Step [DecidableEq ι] (maxTestCount : ℕ) (p : ι) (n : Names (Segment ι)) :
    Op → Pc → Names (Segment ι) → Pc → Prop
  | move {op : Op} {x y : Pc} (h : Move maxTestCount p n op x y) : Step maxTestCount p n op x n y
  | create (h : n.name = none) :
      Step maxTestCount p n .create .create
        ⟨some n.fresh, Function.update n.object n.fresh .new, n.fresh + 1⟩ (.shmat n.fresh true)
  | shmat {k : ℕ} {c : Bool} (h : ¬(n.object k).Destroyed) :
      Step maxTestCount p n (.shmat true) (.shmat k c) (n.put k ((n.object k).attach p))
        (.loop k c 0)
  | add {k i : ℕ} {c : Bool} (hi : i < maxTestCount) :
      Step maxTestCount p n .add (.loop k c i) (n.put k (n.object k).add) (.loop k c (i + 1))
  | shmdt {k : ℕ} {v : BitVec 32} :
      Step maxTestCount p n .shmdt (.shmdt k v) (n.put k ((n.object k).detach p)) (.rmid k)
  | rmid {k : ℕ} : Step maxTestCount p n .rmid (.rmid k) (rmid n k) (.returned k)

theorem step_cases [DecidableEq ι] {maxTestCount : ℕ} {p : ι} {op : Op}
    {n n' : Names (Segment ι)} {x y : Pc} (h : step maxTestCount p op n x = some (n', y)) :
    Step maxTestCount p n op x n' y := by
  unfold step at h
  split at h
  · obtain ⟨n', hn, he⟩ := Option.map_eq_some_iff.1 h
    cases he
    obtain ⟨hname, rfl⟩ := Names.create_eq_some.1 hn
    exact .create hname
  · split_ifs at h
    cases h
    exact .move .createExists
  · cases h
    exact .move .createFails
  · obtain ⟨k, hk, he⟩ := Option.map_eq_some_iff.1 h
    cases he
    exact .move (.openFinds hk)
  · cases h
    exact .move .openFails
  · split_ifs at h with hd
    cases h
    exact .shmat hd
  · cases h
    exact .move .shmatFails
  · split_ifs at h with hi
    cases h
    exact .add hi.2
  · split_ifs at h with hi
    cases h
    exact .move (.read (Nat.not_lt.1 hi.2))
  · split_ifs at h with hp
    cases h
    exact .move (.fault hp)
  · cases h
    exact .shmdt
  · cases h
    exact .rmid
  · cases h

/-! ## The additions -/

namespace Pc

/-- The segment a process works with, or has worked with. -/
def segment : Pc → Option ℕ
  | shmat k _ | loop k _ _ | shmdt k _ | rmid k | returned k => some k
  | _ => none

/-- The segment a process has attached. -/
def attached : Pc → Option ℕ
  | loop k _ _ | shmdt k _ => some k
  | _ => none

/-- The segment a process is still to remove. -/
def working : Pc → Option ℕ
  | shmat k _ | loop k _ _ | shmdt k _ | rmid k => some k
  | _ => none

/-- The additions a process at this place has executed. -/
def added (maxTestCount : ℕ) : Pc → ℕ
  | loop _ _ i => i
  | shmdt _ _ | rmid _ | returned _ => maxTestCount
  | _ => 0

/-- The process has left its loop, or is about to. -/
def finished (maxTestCount : ℕ) : Pc → Bool
  | loop _ _ i => maxTestCount ≤ i
  | shmdt _ _ | rmid _ | returned _ => true
  | _ => false

/-- The loop has not passed its bound, and no access has failed. -/
def Ok (maxTestCount : ℕ) : Pc → Prop
  | loop _ _ i => i ≤ maxTestCount
  | killed => False
  | _ => True

theorem segment_of_attached {x : Pc} {k : ℕ} (h : x.attached = some k) : x.segment = some k := by
  cases x with
  | loop | shmdt => exact h
  | _ => cases h

theorem working_of_attached {x : Pc} {k : ℕ} (h : x.attached = some k) : x.working = some k := by
  cases x with
  | loop | shmdt => exact h
  | _ => cases h

theorem added_of_finished {maxTestCount : ℕ} {x : Pc} (h : x.finished maxTestCount = true)
    (hx : x.Ok maxTestCount) : x.added maxTestCount = maxTestCount := by
  cases x with
  | loop => exact le_antisymm hx (of_decide_eq_true h)
  | shmdt | rmid | returned => rfl
  | _ => cases h

end Pc

/-- The number in a segment, and the additions of a process to it. -/
def account (ι : Type*) (maxTestCount : ℕ) : Names.Account (Segment ι) Pc (BitVec 32) where
  measure := Segment.number
  weight k x := if x.segment = some k then BitVec.ofNat 32 (x.added maxTestCount) else 0
  handle := Pc.segment
  weight_eq_zero h := if_neg h

/-- Each segment has all additions to it, and is attached by the processes that use it. -/
structure Inv [Fintype ι] (maxTestCount : ℕ) (w : Threads ι (Names (Segment ι)) Pc) : Prop where
  balanced : Names.Balanced (account ι maxTestCount) w
  attached : ∀ k p, p ∈ (w.shared.object k).attached ↔ (w.pc p).attached = some k
  ok : ∀ p, (w.pc p).Ok maxTestCount

section Runs

variable [DecidableEq ι] [Fintype ι] {maxTestCount : ℕ} {n n' : Names (Segment ι)} {pc : ι → Pc}
  {p : ι} {op : Op} {y : Pc}

/-- Who has attached which segment, when only process `p` may attach or detach. -/
theorem Inv.attached_update (h : Inv maxTestCount ⟨n, pc⟩)
    (hp : ∀ k, p ∈ (n'.object k).attached ↔ y.attached = some k)
    (hq : ∀ k q, q ≠ p → (q ∈ (n'.object k).attached ↔ q ∈ (n.object k).attached)) (k : ℕ) :
    ∀ q, q ∈ (n'.object k).attached ↔ (Function.update pc p y q).attached = some k :=
  (Function.forall_update_iff _ fun q (x : Pc) =>
    q ∈ (n'.object k).attached ↔ x.attached = some k).2
    ⟨hp k, fun q hne => (hq k q hne).trans (h.attached k q)⟩

theorem Inv.ok_update (h : Inv maxTestCount ⟨n, pc⟩) (hy : y.Ok maxTestCount) :
    ∀ q, (Function.update pc p y q).Ok maxTestCount :=
  (Function.forall_update_iff _ fun _ (x : Pc) => x.Ok maxTestCount).2 ⟨hy, fun q _ => h.ok q⟩

/-- What the processes have attached is unchanged. -/
theorem Inv.attached_same (h : Inv maxTestCount ⟨n, pc⟩) (hy : y.attached = (pc p).attached)
    (hn : ∀ k, (n'.object k).attached = (n.object k).attached) (k : ℕ) :
    ∀ q, q ∈ (n'.object k).attached ↔ (Function.update pc p y q).attached = some k := by
  refine h.attached_update (fun j => ?_) (fun j q _ => by rw [hn j]) k
  rw [hn j, hy]
  exact h.attached j p

theorem Inv.move (h : Inv maxTestCount ⟨n, pc⟩) (hm : Move maxTestCount p n op (pc p) y) :
    Inv maxTestCount ⟨n, Function.update pc p y⟩ := by
  have hx := h.ok p
  have hat := fun k => h.attached k p
  have hbound := h.balanced.handle p
  dsimp only at hx hat hbound
  generalize hpc : pc p = x at hm hx hat hbound
  have hattached : y.attached = (pc p).attached := by
    rw [hpc]
    cases hm with
    | fault hp => exact absurd ((hat _).2 rfl) hp
    | _ => rfl
  refine ⟨h.balanced.move ?_ ?_, h.attached_same hattached fun _ => rfl, h.ok_update ?_⟩
  · cases hm with
    | openFinds hk => rintro k ⟨⟩; exact h.balanced.name _ hk
    | read => exact hbound
    | _ => rintro k ⟨⟩
  · intro k
    rw [hpc]
    cases hm with
    | read hi => simp only [account, Pc.segment, Pc.added, le_antisymm hi hx]
    | fault hp => exact absurd ((hat _).2 rfl) hp
    | _ => simp [account, Pc.segment, Pc.added]
  · cases hm with
    | fault hp => exact absurd ((hat _).2 rfl) hp
    | _ => trivial

theorem inv_step (h : Inv maxTestCount ⟨n, pc⟩) (hs : Step maxTestCount p n op (pc p) n' y) :
    Inv maxTestCount ⟨n', Function.update pc p y⟩ := by
  generalize hpc : pc p = x at hs
  cases hs with
  | move hm => exact h.move (hpc ▸ hm)
  | create hn =>
    refine ⟨h.balanced.create (by rw [hpc]; rfl) rfl (by simp [account, Pc.added, Segment.new]),
      h.attached_same (by rw [hpc]; rfl) ?_, h.ok_update trivial⟩
    intro k
    show (Function.update n.object n.fresh Segment.new k).attached = _
    by_cases hk : k = n.fresh
    · -- Nobody has attached the object that is created now.
      subst hk
      rw [Function.update_self]
      refine (Finset.eq_empty_of_forall_notMem fun q hq => ?_).symm
      exact lt_irrefl _ (h.balanced.handle q _ (Pc.segment_of_attached ((h.attached _ q).1 hq)))
    · rw [Function.update_of_ne hk]
  | @shmat k c hd =>
    refine ⟨h.balanced.put (k := k) (by rw [hpc]; rfl) ?_ ?_, h.attached_update ?_ ?_,
      h.ok_update (Nat.zero_le _)⟩
    · rintro j ⟨⟩
      rfl
    · rw [hpc]
      simp [account, Pc.segment, Pc.added, Segment.attach]
    · intro j
      have hnot : pc p ≠ .loop j c 0 := by simp [hpc]
      by_cases hj : j = k
      · subst hj
        simp [Segment.attach, Pc.attached]
      · have hold := h.attached j p
        simp only [hpc, Pc.attached] at hold
        simp [Names.put_object_of_ne hj, hold, Pc.attached, Ne.symm hj]
    · intro j q hq
      by_cases hj : j = k
      · subst hj
        simp [Segment.attach, hq]
      · rw [Names.put_object_of_ne hj]
  | @add k i c hi =>
    refine ⟨h.balanced.put (k := k) (by rw [hpc]; rfl) ?_ ?_, h.attached_same (by rw [hpc]; rfl) ?_,
      h.ok_update hi⟩
    · rintro j ⟨⟩
      rfl
    · rw [hpc]
      simp only [account, Pc.segment, Pc.added, Segment.add, if_true, BitVec.ofNat_add]
      rw [BitVec.add_assoc]
      exact congrArg _ (BitVec.add_comm _ _)
    · intro j
      by_cases hj : j = k
      · subst hj
        simp [Segment.add]
      · rw [Names.put_object_of_ne hj]
  | @shmdt k v =>
    refine ⟨h.balanced.put (k := k) (by rw [hpc]; rfl) ?_ ?_, h.attached_update ?_ ?_,
      h.ok_update trivial⟩
    · rintro j ⟨⟩
      rfl
    · rw [hpc]
      rfl
    · intro j
      by_cases hj : j = k
      · subst hj
        simp [Segment.detach, Pc.attached]
      · have hold := h.attached j p
        simp only [hpc, Pc.attached] at hold
        simp [Names.put_object_of_ne hj, hold, Pc.attached, Ne.symm hj]
    · intro j q hq
      by_cases hj : j = k
      · subst hj
        simp [Segment.detach, hq]
      · rw [Names.put_object_of_ne hj]
  | @rmid k =>
    have hnumber : ∀ j, ((rmid n k).object j).number = (n.object j).number := by
      intro j
      by_cases hj : j = k
      · subst hj
        simp [rmid]
      · rw [rmid, Names.unlinkObject_object, Names.put_object_of_ne hj]
    refine ⟨h.balanced.step ?_ ?_ ?_ ?_, h.attached_same (by rw [hpc]; rfl) ?_,
      h.ok_update trivial⟩
    · exact Names.unlinkObject_fresh ..
    · intro j hj
      exact (Names.unlinkObject_name.1 hj).1
    · intro j hj
      exact h.balanced.handle p j (show (pc p).segment = some j by rw [hpc]; exact hj)
    · intro j _
      rw [hpc]
      exact congrArg (· + _) (hnumber j)
    · intro j
      by_cases hj : j = k
      · subst hj
        simp [rmid]
      · rw [rmid, Names.unlinkObject_object, Names.put_object_of_ne hj]

theorem inv_invariant : (system ι maxTestCount).Invariant (Inv maxTestCount) := by
  apply interleave_invariant
  · refine ⟨⟨?_, ?_, ?_⟩, ?_, fun _ => trivial⟩
    · intro k hk
      cases hk
    · intro p k hk
      cases hk
    · intro k hk
      exact absurd hk (Nat.not_lt_zero k)
    · intro k p
      simp [Names.unused, Segment.new, Pc.attached]
  · intro p op n pc n' y h hs
    exact inv_step h (step_cases hs)

omit [DecidableEq ι] [Fintype ι] in
theorem ofNat_sum (ps : Finset ι) (f : ι → ℕ) :
    BitVec.ofNat 32 (∑ p ∈ ps, f p) = ∑ p ∈ ps, BitVec.ofNat 32 (f p) := by
  simp only [← BitVec.natCast_eq_ofNat, Nat.cast_sum]

/-- **No addition is lost**, in every run. Every process uses a segment that exists, the number in
each segment is the sum of the additions to it (modulo `2 ^ 32`), and when all processes that work
with a segment have finished their loops, it is `maxTestCount` for each of them. -/
theorem segment_total {tr : List (ι × Op)} {w : Threads ι (Names (Segment ι)) Pc}
    (h : (system ι maxTestCount).Run tr w) :
    (∀ p, w.pc p ≠ .killed) ∧
      ∀ k < w.shared.fresh,
        (w.shared.object k).number =
          BitVec.ofNat 32 (∑ p with (w.pc p).segment = some k, (w.pc p).added maxTestCount) ∧
        ((∀ p, (w.pc p).segment = some k → (w.pc p).finished maxTestCount = true) →
          (w.shared.object k).number =
            BitVec.ofNat 32 ((Finset.univ.filter fun p => (w.pc p).segment = some k).card
              * maxTestCount)) := by
  have hinv := inv_invariant.run h
  refine ⟨?_, ?_⟩
  · intro p hp
    have hok := hinv.ok p
    rw [hp] at hok
    exact hok
  · intro k hk
    have htotal : (w.shared.object k).number =
        BitVec.ofNat 32 (∑ p with (w.pc p).segment = some k, (w.pc p).added maxTestCount) := by
      have hsum := hinv.balanced.balance k hk
      simp only [account] at hsum
      rw [hsum, ← Finset.sum_filter, ofNat_sum]
    refine ⟨htotal, fun hf => ?_⟩
    rw [htotal]
    have hall : ∀ p ∈ Finset.univ.filter (fun p => (w.pc p).segment = some k),
        (w.pc p).added maxTestCount = maxTestCount := by
      intro p hp
      exact Pc.added_of_finished (hf p (Finset.mem_filter.1 hp).2) (hinv.ok p)
    rw [Finset.sum_congr rfl hall, Finset.sum_const, nsmul_eq_mul, Nat.cast_id]

/-! ## The removal -/

/-- `shmat` succeeds on a segment that the kernel has not destroyed. -/
def ShmatAttaches (w : Threads ι (Names (Segment ι)) Pc) (e : ι × Op) : Prop :=
  ∀ k, (w.pc e.1).working = some k → e.2 = .shmat false → (w.shared.object k).Destroyed

/-- A segment is removed, or a process is still to remove it. The key leads to one that is not
removed. -/
structure Removing (w : Threads ι (Names (Segment ι)) Pc) : Prop where
  removed : ∀ k < w.shared.fresh,
    (w.shared.object k).removed = true ∨ ∃ p, (w.pc p).working = some k
  name : ∀ k, w.shared.name = some k → (w.shared.object k).removed = false

omit [Fintype ι] in
/-- What is removed stays so, and process `p` leaves no segment that is not removed. -/
theorem Removing.update (h : Removing ⟨n, pc⟩)
    (hfresh : ∀ k < n'.fresh, k < n.fresh ∨ y.working = some k)
    (hremoved : ∀ k < n.fresh, (n.object k).removed = true → (n'.object k).removed = true)
    (hp : ∀ k, (pc p).working = some k → y.working = some k ∨ (n'.object k).removed = true)
    (hname : ∀ k, n'.name = some k → (n'.object k).removed = false) :
    Removing ⟨n', Function.update pc p y⟩ := by
  have hself : ∀ k, y.working = some k → ∃ q, (Function.update pc p y q).working = some k := by
    intro k hy
    exact ⟨p, by rwa [Function.update_self]⟩
  refine ⟨?_, hname⟩
  intro k hk
  rcases hfresh k hk with hold | hy
  · rcases h.removed k hold with hr | ⟨q, hq⟩
    · exact Or.inl (hremoved k hold hr)
    · by_cases hqp : q = p
      · subst hqp
        exact (hp k hq).symm.imp id (hself k)
      · exact Or.inr ⟨q, (congrArg Pc.working (Function.update_of_ne hqp ..)).trans hq⟩
  · exact Or.inr (hself k hy)

omit [Fintype ι] in
/-- A step that works on the segment `k` and does not remove it. -/
theorem Removing.put (h : Removing ⟨n, pc⟩) {k : ℕ} {a : Segment ι}
    (ha : a.removed = (n.object k).removed) (hy : (pc p).working = y.working) :
    Removing ⟨n.put k a, Function.update pc p y⟩ := by
  have hsame : ∀ j, ((n.put k a).object j).removed = (n.object j).removed := by
    intro j
    by_cases hj : j = k
    · subst hj
      rw [Names.put_object_self, ha]
    · rw [Names.put_object_of_ne hj]
  refine h.update (fun j hj => Or.inl hj) ?_ ?_ ?_
  · intro j _ hr
    rwa [hsame]
  · intro j hj
    exact Or.inl (hy ▸ hj)
  · intro j hj
    rw [hsame]
    exact h.name j hj

theorem Removing.step (h : Removing ⟨n, pc⟩) (hinv : Inv maxTestCount ⟨n, pc⟩)
    (hG : ShmatAttaches ⟨n, pc⟩ (p, op)) (hs : Step maxTestCount p n op (pc p) n' y) :
    Removing ⟨n', Function.update pc p y⟩ := by
  have hat := fun k => hinv.attached k p
  have hG' : ∀ k, (pc p).working = some k → op = .shmat false → (n.object k).Destroyed := hG
  dsimp only at hat
  generalize hpc : pc p = x at hs hat hG'
  cases hs with
  | move hm =>
    refine h.update (fun k hk => Or.inl hk) (fun _ _ => id) ?_ h.name
    intro k hk
    rw [hpc] at hk
    cases hm with
    | shmatFails => exact Or.inr (hG' k hk rfl).1
    | read => exact Or.inl hk
    | fault hp => exact absurd ((hat _).2 rfl) hp
    | _ => cases hk
  | create hn =>
    refine h.update ?_ ?_ ?_ ?_
    · intro k hk
      rcases Nat.lt_succ_iff_lt_or_eq.1 hk with hlt | rfl
      · exact Or.inl hlt
      · exact Or.inr rfl
    · intro k hk hr
      exact (congrArg Segment.removed (Function.update_of_ne (ne_of_lt hk) ..)).trans hr
    · intro k hk
      rw [hpc] at hk
      cases hk
    · rintro k ⟨⟩
      show (Function.update n.object n.fresh Segment.new n.fresh).removed = false
      rw [Function.update_self]
      rfl
  | shmat => exact h.put rfl (by rw [hpc]; rfl)
  | add => exact h.put rfl (by rw [hpc]; rfl)
  | shmdt => exact h.put rfl (by rw [hpc]; rfl)
  | @rmid k =>
    have hother : ∀ j, j ≠ k → (rmid n k).object j = n.object j := by
      intro j hj
      rw [rmid, Names.unlinkObject_object, Names.put_object_of_ne hj]
    have hself : ((rmid n k).object k).removed = true := by simp [rmid]
    refine h.update ?_ ?_ ?_ ?_
    · intro j hj
      rw [show (rmid n k).fresh = n.fresh from Names.unlinkObject_fresh ..] at hj
      exact Or.inl hj
    · intro j _ hr
      by_cases hj : j = k
      · rw [hj]
        exact hself
      · rwa [hother j hj]
    · intro j hj
      rw [hpc] at hj
      cases hj
      exact Or.inr hself
    · intro j hj
      obtain ⟨hname, hne⟩ := Names.unlinkObject_name.1 hj
      rw [hother j hne]
      exact h.name j hname

/-- **Nothing is left behind**, in every run where `shmat` fails on destroyed segments only. When no
process works with a segment any more, the kernel has destroyed it, and the key does not lead to
it. -/
theorem segments_destroyed {tr : List (ι × Op)} {w : Threads ι (Names (Segment ι)) Pc}
    (h : ((system ι maxTestCount).guard ShmatAttaches).Run tr w) {k : ℕ} (hk : k < w.shared.fresh)
    (hdone : ∀ p, (w.pc p).working ≠ some k) :
    (w.shared.object k).Destroyed ∧ w.shared.name ≠ some k := by
  have hboth : Inv maxTestCount w ∧ Removing w := by
    refine (inv_invariant.guard_and ?_ ?_).run h
    · rintro w rfl
      exact ⟨fun k hk => absurd hk (Nat.not_lt_zero k), fun k hk => by cases hk⟩
    · rintro w ⟨p, op⟩ w' hinv hrem hs hG
      obtain ⟨n', y, hlocal, rfl⟩ := interleave_step hs
      exact hrem.step hinv hG (step_cases hlocal)
  obtain ⟨hinv, hrem⟩ := hboth
  have hremoved : (w.shared.object k).removed = true := by
    rcases hrem.removed k hk with hr | ⟨p, hp⟩
    · exact hr
    · exact absurd hp (hdone p)
  refine ⟨⟨hremoved, Finset.eq_empty_of_forall_notMem fun p hp => ?_⟩, fun hname => ?_⟩
  · exact hdone p (Pc.working_of_attached ((hinv.attached k p).1 hp))
  · rw [hrem.name k hname] at hremoved
    cases hremoved

end Runs

/-- Process `p` goes through `main`, with `maxTestCount = 1`, after it has the segment. -/
def addOnce (p : ι) : List (ι × Op) :=
  [(p, .shmat true), (p, .add), (p, .read), (p, .shmdt), (p, .rmid)]

/-- Process `q` comes too late for the segment of process `p`. -/
def inTurn (p q : ι) : List (ι × Op) :=
  (p, .create) :: addOnce p ++ (q, .create) :: addOnce q

/-- Both processes use the segment of process `p`. -/
def together (p q : ι) : List (ι × Op) :=
  [(p, .create), (q, .createExists), (q, .openExisting true), (q, .shmat true)] ++ addOnce p ++
    (addOnce q).tail

theorem segment_total_together :
    ∃ w : Threads (Fin 2) (Names (Segment (Fin 2))) Pc, (system (Fin 2) 1).Run (together 0 1) w ∧
      (w.shared.object 0).number = 2 := by
  obtain ⟨w, hw, hp⟩ := exists_run_of_exec ⟨.unused .new, fun _ => .create⟩ (next (step 1))
    (together (0 : Fin 2) 1)
    (fun w => decide (0 < w.shared.fresh ∧ ∀ p, (w.pc p).segment = some 0 ∧
      (w.pc p).finished 1 = true)) (by decide)
  simp only [decide_eq_true_eq] at hp
  have h := ((segment_total hw).2 0 hp.1).2 fun p _ => (hp.2 p).2
  exact ⟨w, hw, h.trans (by simp [hp.2])⟩

theorem segments_destroyed_inTurn :
    ∃ w : Threads (Fin 2) (Names (Segment (Fin 2))) Pc,
      ((system (Fin 2) 1).guard ShmatAttaches).Run (inTurn 0 1) w ∧
        (w.shared.object 1).Destroyed ∧ w.shared.name ≠ some 1 := by
  obtain ⟨w, hw, hp⟩ := exists_guard_run_of_exec (next (step 1))
    (T := fun _ e => e.2 ≠ .shmat false) (fun _ _ h _ _ he => absurd he h)
    (.init rfl : ((system (Fin 2) 1).guard ShmatAttaches).Run [] _) (inTurn 0 1)
    (fun w => decide (1 < w.shared.fresh ∧ ∀ p, (w.pc p).working ≠ some 1)) (by decide)
  simp only [decide_eq_true_eq] at hp
  exact ⟨w, hw, segments_destroyed hw hp.1 hp.2⟩

end LinuxDemo.SysvSharedMemory
