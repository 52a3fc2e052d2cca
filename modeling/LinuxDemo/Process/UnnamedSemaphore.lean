import LinuxDemo.Process.MapSharedMemory

/-!
# The unnamed semaphore in shared memory

`process/posix-ipc/semaphore/unnamed.c`: any number of processes map a `sem_t` and an `int`. The
process that created the object calls `sem_init` after `ftruncate` and `mmap`; the others go from
`shm_open` and `mmap` straight to `sem_wait`.

* `initialised_before_use`: nobody touches the semaphore or the number before `ftruncate` and
  `sem_init` are done, in the runs where every opening process maps the object after that.
* `used_uninitialised`: an opening process can be at `sem_wait` before `ftruncate`.
-/

namespace LinuxDemo.UnnamedSemaphore

open Lts Threads

/-- What a process executes next. -/
inductive Pc where
  | map (l : Shm.Pc)
  | semInit
  /-- `sem_getvalue` of `_printSemValue`. -/
  | getValue
  /-- The test of the loop in `main`. -/
  | loop (createNew : Bool) (i : ℕ)
  /-- Inside `sem_wait`. -/
  | wait (createNew : Bool) (i : ℕ)
  /-- `(*number)++` is a load and a store. -/
  | load (createNew : Bool) (i : ℕ)
  | store (createNew : Bool) (i : ℕ) (value : BitVec 32)
  | post (createNew : Bool) (i : ℕ)
  | munmap (createNew : Bool)
  | close (createNew : Bool)
  | unlink
  | exit (code : ℤ)
  /-- After an access to an object without size or to a semaphore that is not initialised. -/
  | undefined
  deriving DecidableEq

/-- What a process does in one step. -/
inductive Op where
  | map (op : Shm.Op)
  | semInit (ok : Bool)
  | getValue
  | callWait
  /-- `sem_wait` returns; its result is not looked at. -/
  | semWait (ok : Bool)
  | load
  | store
  | semPost
  /-- `*number` for the last `printf`. -/
  | read
  | fault
  | munmap
  | close
  | unlink
  deriving DecidableEq

/-- The object, the `sem_t` (with its value, once it is initialised) and the `int` in it. -/
structure Shared where
  object : Shm.Object
  sem : Option ℕ
  number : BitVec 32
  deriving DecidableEq

/-- `ftruncate` and `sem_init` are done. -/
def Shared.ready (s : Shared) : Bool := s.object.sized && s.sem.isSome

/-- Where `main` goes on after a step of `_mapSharedMemory`. -/
def afterMap : Shm.After → Pc
  | .inside l => .map l
  | .mapped true => .semInit
  | .mapped false => .loop false 0
  | .null => .exit (-1)

/-- An operation on the initialised semaphore. -/
def semStep : Op → ℕ → Pc → Option (ℕ × Pc)
  | .getValue, v, .getValue => some (v, .loop true 0)
  -- `sem_wait` blocks while the value is 0.
  | .semWait true, v + 1, .wait c i => some (v, .load c i)
  | .semWait false, v, .wait c i => some (v, .load c i)
  | .semPost, v, .post c i => some (v + 1, .loop c (i + 1))
  | _, _, _ => none

/-- One step of `main`. -/
def step (maxTestCount : ℕ) : Op → Shared → Pc → Option (Shared × Pc)
  | .map op, s, .map l =>
    (Shm.step op s.object l).map fun r => ({ s with object := r.1 }, afterMap r.2)
  | .semInit true, s, .semInit =>
    if s.object.sized then some ({ s with sem := some 1 }, .getValue) else none
  | .semInit false, s, .semInit => if s.object.sized then some (s, .exit (-1)) else none
  | .callWait, s, .loop c i => if i < maxTestCount then some (s, .wait c i) else none
  | .load, s, .load c i => if s.object.sized then some (s, .store c i s.number) else none
  | .store, s, .store c i v =>
    if s.object.sized then some ({ s with number := v + 1 }, .post c i) else none
  | .read, s, .loop c i =>
    if s.object.sized ∧ ¬i < maxTestCount then some (s, .munmap c) else none
  | .fault, s, .semInit => if s.object.sized then none else some (s, .undefined)
  | .fault, s, .wait _ _ => if s.ready then none else some (s, .undefined)
  | .fault, s, .loop _ i =>
    if s.object.sized ∨ i < maxTestCount then none else some (s, .undefined)
  | .munmap, s, .munmap c => some (s, .close c)
  | .close, s, .close c => some (s, if c then .unlink else .exit 0)
  | .unlink, s, .unlink => some ({ s with object := s.object.unlink }, .exit 0)
  | op, s, x =>
    if s.object.sized then
      s.sem.bind fun v => (semStep op v x).map fun r => ({ s with sem := some r.1 }, r.2)
    else none

/-- Any number of processes, started at any time. -/
def system (ι : Type*) [DecidableEq ι] (maxTestCount : ℕ) :
    Lts (Threads ι Shared Pc) (ι × Op) :=
  interleave ⟨.absent, none, 0⟩ (fun _ => .map .create) fun _ => step maxTestCount

/-! ## What one step does -/

/-- Everything an operation on the initialised semaphore can do. -/
inductive SemStep : Op → ℕ → Pc → ℕ → Pc → Prop
  | getValue {v : ℕ} : SemStep .getValue v .getValue v (.loop true 0)
  | wait {v i : ℕ} {c : Bool} : SemStep (.semWait true) (v + 1) (.wait c i) v (.load c i)
  | waitFails {v i : ℕ} {c : Bool} : SemStep (.semWait false) v (.wait c i) v (.load c i)
  | post {v i : ℕ} {c : Bool} : SemStep .semPost v (.post c i) (v + 1) (.loop c (i + 1))

/-- Everything a step of `main` can do. -/
inductive Step (maxTestCount : ℕ) (s : Shared) : Op → Pc → Shared → Pc → Prop
  | map {op : Shm.Op} {l : Shm.Pc} {o : Shm.Object} {a : Shm.After}
      (h : Shm.Step s.object op l o a) :
      Step maxTestCount s (.map op) (.map l) { s with object := o } (afterMap a)
  | semInit (h : s.object.sized = true) :
      Step maxTestCount s (.semInit true) .semInit { s with sem := some 1 } .getValue
  | semInitFails : Step maxTestCount s (.semInit false) .semInit s (.exit (-1))
  | callWait {c : Bool} {i : ℕ} (h : i < maxTestCount) :
      Step maxTestCount s .callWait (.loop c i) s (.wait c i)
  | load {c : Bool} {i : ℕ} : Step maxTestCount s .load (.load c i) s (.store c i s.number)
  | store {c : Bool} {i : ℕ} {v : BitVec 32} :
      Step maxTestCount s .store (.store c i v) { s with number := v + 1 } (.post c i)
  | read {c : Bool} {i : ℕ} (h : maxTestCount ≤ i) :
      Step maxTestCount s .read (.loop c i) s (.munmap c)
  | sem {op : Op} {v v' : ℕ} {x y : Pc} (hv : s.sem = some v) (h : SemStep op v x v' y) :
      Step maxTestCount s op x { s with sem := some v' } y
  | fault {x : Pc} (h : s.ready = false) : Step maxTestCount s .fault x s .undefined
  | munmap {c : Bool} : Step maxTestCount s .munmap (.munmap c) s (.close c)
  | close {c : Bool} :
      Step maxTestCount s .close (.close c) s (if c then .unlink else .exit 0)
  | unlink : Step maxTestCount s .unlink .unlink { s with object := s.object.unlink } (.exit 0)

theorem semStep_cases {op : Op} {v v' : ℕ} {x y : Pc} (h : semStep op v x = some (v', y)) :
    SemStep op v x v' y := by
  unfold semStep at h
  split at h <;> cases h
  · exact .getValue
  · exact .wait
  · exact .waitFails
  · exact .post

theorem Shared.not_ready {s : Shared} (h : ¬s.object.sized = true) : s.ready = false := by
  simp [Shared.ready, h]

theorem step_cases {maxTestCount : ℕ} {op : Op} {s s' : Shared} {x y : Pc}
    (h : step maxTestCount op s x = some (s', y)) : Step maxTestCount s op x s' y := by
  unfold step at h
  split at h
  · obtain ⟨⟨o, a⟩, hs, he⟩ := Option.map_eq_some_iff.1 h
    cases he
    exact .map (Shm.step_cases hs)
  · split_ifs at h with hs
    cases h
    exact .semInit hs
  · split_ifs at h
    cases h
    exact .semInitFails
  · split_ifs at h with hi
    cases h
    exact .callWait hi
  · split_ifs at h
    cases h
    exact .load
  · split_ifs at h
    cases h
    exact .store
  · split_ifs at h with hs
    cases h
    exact .read (Nat.not_lt.1 hs.2)
  · split_ifs at h with hs
    cases h
    exact .fault (Shared.not_ready hs)
  · split_ifs at h with hs
    cases h
    exact .fault (by simpa using hs)
  · split_ifs at h with hs
    cases h
    exact .fault (Shared.not_ready fun hsized => hs (Or.inl hsized))
  · cases h
    exact .munmap
  · cases h
    exact .close
  · cases h
    exact .unlink
  · split_ifs at h
    obtain ⟨v, hv, h⟩ := Option.bind_eq_some_iff.1 h
    obtain ⟨⟨v', y⟩, hs, he⟩ := Option.map_eq_some_iff.1 h
    cases he
    exact .sem hv (semStep_cases hs)

/-! ## Initialised before use -/

/-- `sem_wait`, `sem_post` and the accesses to `*number`. -/
def Op.uses : Op → Bool
  | .callWait | .semWait _ | .load | .store | .semPost | .read => true
  | _ => false

/-- The places from where a process uses the semaphore or the number. -/
def Pc.running : Pc → Bool
  | .getValue | .loop _ _ | .wait _ _ | .load _ _ | .store _ _ _ | .post _ _ => true
  | _ => false

section Steps

variable {maxTestCount : ℕ} {s s' : Shared} {op : Op} {x y : Pc}

theorem Step.running_of_uses (h : Step maxTestCount s op x s' y) (hu : op.uses = true) :
    x.running = true := by
  cases h with
  | sem hv h => cases h <;> rfl
  | _ => first | rfl | cases hu

/-- What makes the object ready is `ftruncate` and `sem_init`, and nothing takes it back. -/
theorem Step.ready_iff (h : Step maxTestCount s op x s' y) :
    (s'.object.sized = true ↔ s.object.sized = true ∨ op = .map (.ftruncate true)) ∧
      (s'.sem.isSome = true ↔ s.sem.isSome = true ∨ op = .semInit true) := by
  cases h with
  | map h => cases h <;> simp
  | sem hv h => cases h <;> simp [hv]
  | _ => simp [Shm.Object.unlink]

theorem Shared.ready_iff (s : Shared) :
    s.ready = true ↔ s.object.sized = true ∧ s.sem.isSome = true := by
  simp [Shared.ready]

theorem Step.ready (h : Step maxTestCount s op x s' y) (hr : s.ready = true) :
    s'.ready = true := by
  obtain ⟨hsized, hsem⟩ := (Shared.ready_iff s).1 hr
  exact (Shared.ready_iff s').2 ⟨h.ready_iff.1.2 (Or.inl hsized), h.ready_iff.2.2 (Or.inl hsem)⟩

/-- A process starts to use the object after its own `sem_init` or, when it has opened the
object, right after `mmap`. -/
theorem Step.running (h : Step maxTestCount s op x s' y) (hy : y.running = true) :
    x.running = true ∨ s'.ready = true ∨ (x = .map (.mmap false) ∧ op = .map (.mmap true)) := by
  cases h with
  | map h =>
    cases h with
    | @mmap c =>
      cases c with
      | false => exact Or.inr (Or.inr ⟨rfl, rfl⟩)
      | true => cases hy
    | _ => cases hy
  | semInit hs => exact Or.inr (Or.inl (by simp [Shared.ready, hs]))
  | sem hv h => cases h <;> exact Or.inl rfl
  | @close c => cases c <;> cases hy
  | _ => first | exact Or.inl rfl | cases hy

end Steps

variable {ι : Type*}

/-- The creating process has executed `ftruncate` and `sem_init`. -/
def Initialised (tr : List (ι × Op)) : Prop :=
  (∃ p, (p, .map (.ftruncate true)) ∈ tr) ∧ ∃ p, (p, .semInit true) ∈ tr

/-- Both come before every use of the semaphore and of the number. -/
def InitialisedBeforeUse (tr : List (ι × Op)) : Prop :=
  ∀ tr₁ e tr₂, tr = tr₁ ++ e :: tr₂ → e.2.uses = true → Initialised tr₁

/-- A process that maps an object it did not create finds it with its size and its semaphore
initialised. -/
def MapsReady (w : Threads ι Shared Pc) (e : ι × Op) : Prop :=
  w.pc e.1 = .map (.mmap false) → e.2 = .map (.mmap true) → w.shared.ready = true

instance (w : Threads ι Shared Pc) (e : ι × Op) : Decidable (MapsReady w e) :=
  inferInstanceAs (Decidable (_ → _))

variable [DecidableEq ι] {maxTestCount : ℕ} {tr : List (ι × Op)} {w : Threads ι Shared Pc}

theorem initialised_of_ready (h : (system ι maxTestCount).Run tr w)
    (hr : w.shared.ready = true) : Initialised tr := by
  have hboth : (w.shared.object.sized = true → ∃ p, (p, .map (.ftruncate true)) ∈ tr) ∧
      (w.shared.sem.isSome = true → ∃ p, (p, .semInit true) ∈ tr) := by
    apply interleave_induct (I := fun tr w =>
      (w.shared.object.sized = true → ∃ p, (p, .map (.ftruncate true)) ∈ tr) ∧
        (w.shared.sem.isSome = true → ∃ p, (p, .semInit true) ∈ tr)) _ _ h
    · exact ⟨fun h => (by cases h), fun h => (by cases h)⟩
    · intro tr p op s pc s' y ih hs
      obtain ⟨hsized, hsem⟩ := (step_cases hs).ready_iff
      constructor
      · intro h'
        rcases hsized.1 h' with h' | rfl
        · obtain ⟨q, hq⟩ := ih.1 h'
          exact ⟨q, List.mem_append_left _ hq⟩
        · exact ⟨p, by simp⟩
      · intro h'
        rcases hsem.1 h' with h' | rfl
        · obtain ⟨q, hq⟩ := ih.2 h'
          exact ⟨q, List.mem_append_left _ hq⟩
        · exact ⟨p, by simp⟩
  obtain ⟨hsized, hsem⟩ := (Shared.ready_iff _).1 hr
  exact ⟨hboth.1 hsized, hboth.2 hsem⟩

/-- Whoever is in the loop of `main` found the object ready. -/
theorem running_invariant : ((system ι maxTestCount).guard MapsReady).Invariant fun w =>
    ∀ p, (w.pc p).running = true → w.shared.ready = true := by
  apply interleave_guard_invariant
  · intro p hp
    cases hp
  · intro p op s pc s' y h hG hs
    have hstep := step_cases hs
    refine (Function.forall_update_iff _ fun _ (x : Pc) => x.running = true → s'.ready = true).2
      ⟨?_, fun q _ hq => hstep.ready (h q hq)⟩
    intro hy
    rcases hstep.running hy with hx | hr | ⟨hx, hop⟩
    · exact hstep.ready (h p hx)
    · exact hr
    · exact hstep.ready (hG hx hop)

/-- **Initialised before use**, in every run in which the opening processes map the object after
`sem_init`. -/
theorem initialised_before_use (h : ((system ι maxTestCount).guard MapsReady).Run tr w) :
    InitialisedBeforeUse tr := by
  intro tr₁ e tr₂ htr hu
  subst htr
  obtain ⟨w₁, w₂, hrun, hstep⟩ := h.before
  obtain ⟨s', y, hlocal, -⟩ := interleave_step hstep.1
  have hplace := (step_cases hlocal).running_of_uses hu
  exact initialised_of_ready hrun.of_guard (running_invariant.run hrun e.1 hplace)

/-- Process `p` creates the object and initialises it. -/
def createAndInit (p : Fin 2) : List (Fin 2 × Op) :=
  [(p, .map (.create true)), (p, .map (.ftruncate true)), (p, .map (.mmap true)),
   (p, .semInit true), (p, .getValue)]

/-- Process `p` opens the object and calls `sem_wait`. -/
def openAndWait (p : Fin 2) : List (Fin 2 × Op) :=
  [(p, .map (.create false)), (p, .map (.openExisting true)), (p, .map (.mmap true)),
   (p, .callWait)]

theorem initialised_before_use_inOrder :
    ∃ w : Threads (Fin 2) Shared Pc,
      ((system (Fin 2) 1).guard MapsReady).Run (createAndInit 0 ++ openAndWait 1) w ∧
        w.pc 1 = .wait false 0 ∧ InitialisedBeforeUse (createAndInit 0 ++ openAndWait 1) := by
  obtain ⟨w, hw, hp⟩ := exists_guard_run_of_exec (next fun _ => step 1) (fun _ _ h => h)
    (.init rfl : ((system (Fin 2) 1).guard MapsReady).Run [] _)
    (createAndInit 0 ++ openAndWait 1) (fun w => w.pc 1 = .wait false 0) (by decide)
  exact ⟨w, hw, by simpa using hp, initialised_before_use hw⟩

/-- **Used before it is initialised**: process 1 calls `sem_wait` when process 0 has done no more
than `shm_open`. -/
theorem used_uninitialised :
    ∃ tr, ∃ w : Threads (Fin 2) Shared Pc, (system (Fin 2) 1).Run tr w ∧
      ¬InitialisedBeforeUse tr := by
  obtain ⟨w, hw, -⟩ := exists_run_of_exec ⟨⟨.absent, none, 0⟩, fun _ => .map .create⟩
    (next fun _ => step 1) ((0, .map (.create true)) :: openAndWait 1) (fun _ => true) (by decide)
  refine ⟨_, w, hw, ?_⟩
  intro h
  obtain ⟨⟨p, hp⟩, -⟩ := h ((0, .map (.create true)) :: (openAndWait 1).take 3) (1, .callWait)
    [] rfl rfl
  revert hp
  revert p
  decide

end LinuxDemo.UnnamedSemaphore
