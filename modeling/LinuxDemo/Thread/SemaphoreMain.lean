import LinuxDemo.Thread.Semaphore

/-!
# The processes of `thread/semaphore/main.c`

Any number of processes run `main`: `semaphore_create`, else `semaphore_open`, then
`semaphore_wait`, the work, `semaphore_post`, `semaphore_close`, and `unlink` by the process that
created. Every system call and every statement on the mapped `semaphore_t` is a step of its own,
and the steps of the processes interleave in any order.

The name may lead to one file after another: an unlinked file stays alive for those who mapped
it. Each file has its own semaphore.

* `Inv`: in every run, each file's semaphore is used as `Thread.Semaphore` expects, and has one
  unit or one process that took it.
* `main_safe`: the work of two processes never overlaps, and nobody touches a semaphore that is
  not initialised, in the runs where files are opened after their initialisation and created
  after the last user of the file before has called `semaphore_post`.
* `main_unsafe`: without these two conditions both can happen.
-/

namespace LinuxDemo.SemaphoreMain

open Lts
open Semaphore (Sem)

abbrev Pid := Semaphore.Tid

/-- A file, whatever name it has or had. -/
abbrev Inode := ℕ

/-- The mapped `semaphore_t` and which of its parts `semaphore_create` has initialised. -/
structure File where
  sized : Bool
  countSet : Bool
  lockSet : Bool
  nonzeroSet : Bool
  sem : Sem
  deriving DecidableEq

namespace File

/-- An empty file; `ftruncate` will fill it with zeros. -/
def empty : File := ⟨false, false, false, false, ⟨.fresh, 0⟩⟩

/-- `ftruncate(fd, sizeof(semaphore_t))`. -/
def truncate (x : File) : File := { x with sized := true }

/-- `sem->count = 1`. -/
def setCount (x : File) : File := { x with countSet := true, sem := { x.sem with count := 1 } }

/-- `pthread_mutex_init(&sem->lock, &mutexAttr)`. -/
def initLock (x : File) : File :=
  { x with lockSet := true, sem := { x.sem with mon := { x.sem.mon with owner := none } } }

/-- `pthread_cond_init(&sem->nonzero, &condAttr)`. -/
def initNonzero (x : File) : File :=
  { x with nonzeroSet := true, sem := { x.sem with mon := { x.sem.mon with sleepers := ∅ } } }

/-- `count`, `lock` and `nonzero` have all been initialised. -/
def ready (x : File) : Bool := x.sized && x.countSet && x.lockSet && x.nonzeroSet

end File

/-- What a process executes next. -/
inductive Pc where
  /-- `open(semName, O_RDWR | O_CREAT | O_EXCL, 0666)` of `semaphore_create`. -/
  | createOpen
  | createTruncate (f : Inode)
  | createMmap (f : Inode)
  | createCount (f : Inode)
  | createLock (f : Inode)
  | createNonzero (f : Inode)
  | createClose (f : Inode)
  /-- `open(semName, O_RDWR, 0666)` of `semaphore_open`. -/
  | openOpen
  | openMmap (f : Inode)
  | openClose (f : Inode)
  /-- `main` has its `sem` and is about to call `semaphore_wait`. -/
  | opened (f : Inode) (createNew : Bool)
  /-- Inside `semaphore_wait` or `semaphore_post`. -/
  | sem (f : Inode) (createNew : Bool) (l : Semaphore.Pc)
  /-- After `semaphore_wait` and before `semaphore_post`. -/
  | work (f : Inode) (createNew : Bool)
  /-- `semaphore_close`. -/
  | close (f : Inode) (createNew : Bool)
  | unlink
  /-- `main` has returned. -/
  | exit (code : ℤ)
  /-- The process has touched the `semaphore_t` of `f` before it was initialised. -/
  | undefined (f : Inode)
  deriving DecidableEq

/-- What a process does in one step; the two `open` calls say if they succeed. -/
inductive Op where
  | createOpen (ok : Bool)
  | ftruncate
  | mmap
  | setCount
  | mutexInit
  | condInit
  | closeFd
  | openOpen (ok : Bool)
  | sem (op : Semaphore.Op)
  | munmap
  | unlink
  deriving DecidableEq

/-- The file system, as far as `semName` is concerned, and the processes. -/
structure World where
  semName : Option Inode
  files : Inode → File
  /-- The next file to be created. -/
  fresh : Inode
  pc : Pid → Pc

/-- Process `p` goes on at `y`. -/
def World.goto (w : World) (p : Pid) (y : Pc) : World := { w with pc := Function.update w.pc p y }

/-- Process `p` changes the file `f` and goes on at `y`. -/
def World.write (w : World) (p : Pid) (f : Inode) (x : File) (y : Pc) : World :=
  { w with files := Function.update w.files f x, pc := Function.update w.pc p y }

/-- Where `main` goes on after `op` inside `semaphore_wait` or `semaphore_post`. -/
def afterSem (f : Inode) (createNew : Bool) (op : Semaphore.Op) (l : Semaphore.Pc) : Pc :=
  match op with
  | .waitUnlock => .work f createNew
  | .postUnlock => .close f createNew
  | _ => .sem f createNew l

/-- Process `e.1` executes `e.2`. -/
def next (w : World) (e : Pid × Op) : Option World :=
  let p := e.1
  match e.2, w.pc p with
  -- `O_EXCL`: the name must be free, and leads to the new file from here on.
  | .createOpen true, .createOpen =>
    if w.semName = none then
      some { semName := some w.fresh
             files := Function.update w.files w.fresh .empty
             fresh := w.fresh + 1
             pc := Function.update w.pc p (.createTruncate w.fresh) }
    else none
  | .createOpen false, .createOpen => some (w.goto p .openOpen)
  | .ftruncate, .createTruncate f => some (w.write p f (w.files f).truncate (.createMmap f))
  | .mmap, .createMmap f => some (w.goto p (.createCount f))
  | .setCount, .createCount f => some (w.write p f (w.files f).setCount (.createLock f))
  | .mutexInit, .createLock f => some (w.write p f (w.files f).initLock (.createNonzero f))
  | .condInit, .createNonzero f => some (w.write p f (w.files f).initNonzero (.createClose f))
  | .closeFd, .createClose f => some (w.goto p (.opened f true))
  | .openOpen true, .openOpen => w.semName.map fun f => w.goto p (.openMmap f)
  | .openOpen false, .openOpen => some (w.goto p (.exit (-1)))
  | .mmap, .openMmap f => some (w.goto p (.openClose f))
  | .closeFd, .openClose f => some (w.goto p (.opened f false))
  | .sem .callWait, .opened f c => some (w.goto p (.sem f c .waitLock))
  | .sem .callPost, .work f c => some (w.goto p (.sem f c .postLock))
  | .sem op, .sem f c l =>
    if (w.files f).ready then
      (Semaphore.step p op (w.files f).sem l).map fun r =>
        w.write p f { w.files f with sem := r.1 } (afterSem f c op r.2)
    else some (w.goto p (.undefined f))
  | .munmap, .close _ c => some (w.goto p (if c then .unlink else .exit 0))
  | .unlink, .unlink => some { w.goto p (.exit 0) with semName := none }
  | _, _ => none

/-- The name is free and every process is yet to start. -/
def start : World := ⟨none, fun _ => .empty, 0, fun _ => .createOpen⟩

/-- Any number of processes, started at any time. -/
def system : Lts World (Pid × Op) := ofNext start next

/-! ## What one step does -/

/-- The steps that change nothing but the place of their process. -/
inductive Move (name : Option Inode) : Op → Pc → Pc → Prop
  | createFails : Move name (.createOpen false) .createOpen .openOpen
  | createMmap {f : Inode} : Move name .mmap (.createMmap f) (.createCount f)
  | createClose {f : Inode} : Move name .closeFd (.createClose f) (.opened f true)
  | openFinds {f : Inode} (h : name = some f) : Move name (.openOpen true) .openOpen (.openMmap f)
  | openFails : Move name (.openOpen false) .openOpen (.exit (-1))
  | openMmap {f : Inode} : Move name .mmap (.openMmap f) (.openClose f)
  | openClose {f : Inode} : Move name .closeFd (.openClose f) (.opened f false)
  | callWait {f : Inode} {c : Bool} :
      Move name (.sem .callWait) (.opened f c) (.sem f c .waitLock)
  | callPost {f : Inode} {c : Bool} : Move name (.sem .callPost) (.work f c) (.sem f c .postLock)
  | munmap {f : Inode} {c : Bool} :
      Move name .munmap (.close f c) (if c then .unlink else .exit 0)

/-- The steps of `semaphore_create` that write to its file. -/
inductive Make (f : Inode) : Op → Pc → (File → File) → Pc → Prop
  | ftruncate : Make f .ftruncate (.createTruncate f) File.truncate (.createMmap f)
  | setCount : Make f .setCount (.createCount f) File.setCount (.createLock f)
  | mutexInit : Make f .mutexInit (.createLock f) File.initLock (.createNonzero f)
  | condInit : Make f .condInit (.createNonzero f) File.initNonzero (.createClose f)

/-- Everything a step of `main` can do. -/
inductive Step (p : Pid) (w : World) : Op → World → Prop
  | move {op : Op} {y : Pc} (h : Move w.semName op (w.pc p) y) : Step p w op (w.goto p y)
  | create (h : w.pc p = .createOpen) (hn : w.semName = none) :
      Step p w (.createOpen true)
        { semName := some w.fresh
          files := Function.update w.files w.fresh .empty
          fresh := w.fresh + 1
          pc := Function.update w.pc p (.createTruncate w.fresh) }
  | make {op : Op} {f : Inode} {g : File → File} {y : Pc} (h : Make f op (w.pc p) g y) :
      Step p w op (w.write p f (g (w.files f)) y)
  | sem {op : Semaphore.Op} {f : Inode} {c : Bool} {l l' : Semaphore.Pc} {sem' : Sem}
      (h : w.pc p = .sem f c l) (hr : (w.files f).ready = true)
      (hs : Semaphore.Step p op (w.files f).sem l sem' l') :
      Step p w (.sem op) (w.write p f { w.files f with sem := sem' } (afterSem f c op l'))
  | undefined {op : Semaphore.Op} {f : Inode} {c : Bool} {l : Semaphore.Pc}
      (h : w.pc p = .sem f c l) (hr : (w.files f).ready = false) :
      Step p w (.sem op) (w.goto p (.undefined f))
  | unlink (h : w.pc p = .unlink) : Step p w .unlink { w.goto p (.exit 0) with semName := none }

theorem next_cases {w w' : World} {p : Pid} {op : Op} (h : next w (p, op) = some w') :
    Step p w op w' := by
  unfold next at h
  dsimp only at h
  split at h
  case h_1 hpc =>
    split_ifs at h with hn
    cases h
    exact .create hpc hn
  case h_2 hpc => cases h; exact .move (hpc ▸ .createFails)
  case h_3 hpc => cases h; exact .make (hpc ▸ .ftruncate)
  case h_4 hpc => cases h; exact .move (hpc ▸ .createMmap)
  case h_5 hpc => cases h; exact .make (hpc ▸ .setCount)
  case h_6 hpc => cases h; exact .make (hpc ▸ .mutexInit)
  case h_7 hpc => cases h; exact .make (hpc ▸ .condInit)
  case h_8 hpc => cases h; exact .move (hpc ▸ .createClose)
  case h_9 hpc =>
    obtain ⟨f, hf, rfl⟩ := Option.map_eq_some_iff.1 h
    exact .move (hpc ▸ .openFinds hf)
  case h_10 hpc => cases h; exact .move (hpc ▸ .openFails)
  case h_11 hpc => cases h; exact .move (hpc ▸ .openMmap)
  case h_12 hpc => cases h; exact .move (hpc ▸ .openClose)
  case h_13 hpc => cases h; exact .move (hpc ▸ .callWait)
  case h_14 hpc => cases h; exact .move (hpc ▸ .callPost)
  case h_15 hpc =>
    split_ifs at h with hr
    · obtain ⟨⟨sem', l'⟩, hs, rfl⟩ := Option.map_eq_some_iff.1 h
      exact .sem hpc hr (Semaphore.step_cases hs)
    · cases h
      exact .undefined hpc (Bool.eq_false_iff.2 hr)
  case h_16 hpc => cases h; exact .move (hpc ▸ .munmap)
  case h_17 hpc => cases h; exact .unlink hpc
  case h_18 => cases h

/-! ## Views of a process -/

namespace Pc

/-- The file a process works with. -/
def file : Pc → Option Inode
  | createTruncate f | createMmap f | createCount f | createLock f | createNonzero f
  | createClose f | openMmap f | openClose f | opened f _ | sem f _ _ | work f _ | close f _ =>
    some f
  | _ => none

/-- What the file of a process inside `semaphore_create` holds, until it is initialised. -/
def making : Pc → Option (Inode × File)
  | createTruncate f => some (f, .empty)
  | createMmap f | createCount f => some (f, File.empty.truncate)
  | createLock f => some (f, File.empty.truncate.setCount)
  | createNonzero f => some (f, File.empty.truncate.setCount.initLock)
  | _ => none

/-- The place of a process in the code of the semaphore of `f`. -/
def seat (f : Inode) : Pc → Semaphore.Pc
  | sem g _ l => if g = f then l else .out
  | _ => .out

/-- The process has taken a unit of the semaphore of `f` and not given it back. -/
def owns (f : Inode) : Pc → Bool
  | sem g _ .waitUnlock | sem g _ .postLock | sem g _ .postTest | sem g _ .postSignal
  | sem g _ .postInc | work g _ => g = f
  | _ => false

/-- The process uses, or is about to use, the initialised semaphore of `f`. -/
def uses (f : Inode) : Pc → Bool
  | createClose g | openMmap g | openClose g | opened g _ | sem g _ _ | work g _ | close g _ =>
    g = f
  | _ => false

/-- The process has the file `f` and has not called `semaphore_post` yet. -/
def beforePost (f : Inode) : Pc → Bool
  | createTruncate g | createMmap g | createCount g | createLock g | createNonzero g
  | createClose g | openMmap g | openClose g | opened g _ | work g _ => g = f
  | sem _ _ .postLock | sem _ _ .postTest | sem _ _ .postSignal | sem _ _ .postInc
  | sem _ _ .postUnlock => false
  | sem g _ _ => g = f
  | _ => false

theorem seat_of_file_ne {x : Pc} {f : Inode} (h : x.file ≠ some f) : x.seat f = .out := by
  cases x <;> simp_all [file, seat]

theorem owns_of_file_ne {x : Pc} {f : Inode} (h : x.file ≠ some f) : x.owns f = false := by
  cases x with
  | sem g c l => cases l <;> simp_all [file, owns]
  | _ => simp_all [file, owns]

theorem file_of_making {x : Pc} {f : Inode} {y : File} (h : x.making = some (f, y)) :
    x.file = some f := by
  cases x <;> simp_all [file, making]

theorem not_ready_of_making {x : Pc} {f : Inode} {y : File} (h : x.making = some (f, y)) :
    y.ready = false := by
  cases x <;> simp only [making, Option.some.injEq, Prod.mk.injEq, reduceCtorEq] at h <;>
    obtain ⟨-, rfl⟩ := h <;> rfl

end Pc

/-- One file `x`, number `f`, and the processes. Until it is initialised nobody has got past the
`pthread_mutex_lock` of `semaphore_wait`; from then on its semaphore keeps its invariant, and
its one unit is there or owned by one process. -/
structure FileOk (x : File) (f : Inode) (pc : Pid → Pc) : Prop where
  quiet : x.ready = false → ∀ p,
    ((pc p).seat f = .out ∨ (pc p).seat f = .waitLock) ∧ (pc p).owns f = false
  sem : x.ready = true → Semaphore.Inv ⟨x.sem, fun p => (pc p).seat f⟩
  units : x.ready = true → (x.sem.count = 1 ∧ ∀ p, (pc p).owns f = false) ∨
    (x.sem.count = 0 ∧ ∃ p, ∀ q, (pc q).owns f = true ↔ q = p)

/-- The files are numbered in the order of their creation, a file is written by its creator
alone until it is initialised, and every file is used as it should be. -/
structure Inv (w : World) : Prop where
  name : ∀ f, w.semName = some f → f + 1 = w.fresh
  file : ∀ p f, (w.pc p).file = some f → f < w.fresh
  making : ∀ p f x, (w.pc p).making = some (f, x) → w.files f = x
  unique : ∀ p q f x y, (w.pc p).making = some (f, x) → (w.pc q).making = some (f, y) → p = q
  inside : ∀ p f c, w.pc p ≠ .sem f c .out
  ok : ∀ f, FileOk (w.files f) f w.pc

theorem inv_start : Inv start where
  name f h := by cases h
  file p f h := by cases h
  making p f x h := by cases h
  unique p q f x y h := by cases h
  inside p f c h := by cases h
  ok f := ⟨fun _ p => ⟨Or.inl rfl, rfl⟩, fun h => (by cases h), fun h => (by cases h)⟩

/-! ## Files under a step -/

section FileOk

variable {x : File} {f : Inode} {pc : Pid → Pc} {p : Pid} {y : Pc}

theorem seat_update (f : Inode) (pc : Pid → Pc) (p : Pid) (y : Pc) :
    (fun q => (Function.update pc p y q).seat f) =
      Function.update (fun q => (pc q).seat f) p (y.seat f) := by
  funext q
  by_cases hq : q = p
  · subst hq; simp
  · simp [Function.update_of_ne hq]

theorem owns_update (h : y.owns f = (pc p).owns f) (q : Pid) :
    (Function.update pc p y q).owns f = (pc q).owns f := by
  by_cases hq : q = p
  · subst hq; simpa using h
  · simp [Function.update_of_ne hq]

/-- A process that owns what it owned before goes on, without a change of the file. -/
theorem FileOk.update (h : FileOk x f pc) (howns : y.owns f = (pc p).owns f)
    (hquiet : x.ready = false → y.seat f = .out ∨ y.seat f = .waitLock)
    (hseat : x.ready = true → y.seat f = (pc p).seat f ∨
      ∃ op, ∀ s, Semaphore.Step p op s ((pc p).seat f) s (y.seat f)) :
    FileOk x f (Function.update pc p y) where
  quiet hr q := by
    refine ⟨?_, (owns_update howns q).trans (h.quiet hr q).2⟩
    by_cases hq : q = p
    · subst hq; simpa using hquiet hr
    · simpa [Function.update_of_ne hq] using (h.quiet hr q).1
  sem hr := by
    rw [seat_update]
    rcases hseat hr with he | ⟨op, hop⟩
    · rw [he, Function.update_eq_self]
      exact h.sem hr
    · exact Semaphore.inv_step (h.sem hr) (hop _)
  units hr := by
    rcases h.units hr with ⟨hc, hn⟩ | ⟨hc, r, hr⟩
    · exact Or.inl ⟨hc, fun q => (owns_update howns q).trans (hn q)⟩
    · refine Or.inr ⟨hc, r, ?_⟩
      intro q
      rw [owns_update howns q]
      exact hr q

/-- A process goes on elsewhere. -/
theorem FileOk.update_of_eq (h : FileOk x f pc) (howns : y.owns f = (pc p).owns f)
    (hseat : y.seat f = (pc p).seat f) : FileOk x f (Function.update pc p y) :=
  h.update howns (fun hr => hseat ▸ (h.quiet hr p).1) fun _ => Or.inl hseat

/-- A file nobody works with, or that is not initialised yet, may be written by its creator as
long as it stays so. -/
theorem FileOk.of_quiet {x' : File} (h : ∀ p, ((pc p).seat f = .out ∨ (pc p).seat f = .waitLock) ∧
    (pc p).owns f = false) (hx : x'.ready = true → x'.sem = .fresh) : FileOk x' f pc where
  quiet _ := h
  sem hr := by
    rw [hx hr]
    refine ⟨?_, fun q hq => by simp [Sem.fresh, Monitor.fresh] at hq, ?_⟩
    · intro q
      rcases (h q).1 with hq | hq <;> simp [hq, Semaphore.Pc.holds, Sem.fresh, Monitor.fresh]
    · intro q
      rcases (h q).1 with hq | hq <;> simp [hq, Semaphore.Pc.Knows]
  units hr := Or.inl ⟨by rw [hx hr]; rfl, fun q => (h q).2⟩

/-- Where a process stands after a step in the code of the semaphore. -/
theorem afterSem_view {c : Bool} {op : Semaphore.Op} {l l' : Semaphore.Pc} {s s' : Sem}
    (hs : Semaphore.Step p op s l s' l') (hl : l ≠ .out) :
    (afterSem f c op l').seat f = l' ∧ (∀ g c', afterSem f c op l' ≠ .sem g c' .out) ∧
      (afterSem f c op l').file = some f ∧ (afterSem f c op l').making = none := by
  cases hs <;> simp_all [afterSem, Pc.seat, Pc.file, Pc.making]

/-- Only the decrement makes a process an owner, and only the increment ends it. -/
theorem afterSem_owns {c : Bool} {op : Semaphore.Op} {l l' : Semaphore.Pc} {s s' : Sem}
    (hs : Semaphore.Step p op s l s' l') (hl : l ≠ .out) :
    match Semaphore.visible (p, op) with
    | none => (afterSem f c op l').owns f = (Pc.sem f c l).owns f
    | some .p => (afterSem f c op l').owns f = true
    | some .v => (Pc.sem f c l).owns f = true ∧ (afterSem f c op l').owns f = false := by
  cases hs <;> simp_all [afterSem, Pc.owns, Semaphore.visible]

/-- A step of `semaphore_wait` or `semaphore_post` on an initialised file. -/
theorem FileOk.sem_step (h : FileOk x f pc) {c : Bool} {op : Semaphore.Op}
    {l l' : Semaphore.Pc} {s' : Sem} (hpc : pc p = .sem f c l) (hl : l ≠ .out)
    (hr : x.ready = true) (hs : Semaphore.Step p op x.sem l s' l') :
    FileOk { x with sem := s' } f (Function.update pc p (afterSem f c op l')) := by
  have hl' : (pc p).seat f = l := by simp [hpc, Pc.seat]
  have hseat := (afterSem_view (f := f) (c := c) hs hl).1
  have howns := afterSem_owns (f := f) (c := c) hs hl
  have hcount := hs.count_visible
  refine ⟨?_, ?_, ?_⟩
  · intro hr'
    have : x.ready = false := hr'
    rw [hr] at this
    cases this
  · intro _
    rw [seat_update, hseat]
    exact Semaphore.inv_step (h.sem hr) (hl' ▸ hs)
  · intro _
    rw [← hpc] at howns
    cases hv : Semaphore.visible (p, op) with
    | none =>
      rw [hv] at howns hcount
      show (s'.count = 1 ∧ _) ∨ (s'.count = 0 ∧ _)
      rw [hcount.1]
      simp only [owns_update howns]
      exact h.units hr
    | some a =>
      rw [hv] at howns hcount
      cases a with
      | p =>
        -- The test of the `while` saw a unit, so nobody owned it.
        have hne : x.sem.count ≠ 0 := by
          simpa [hl', hcount.1, Semaphore.Pc.Knows] using (h.sem hr).knows p
        obtain ⟨h1, hn⟩ := (h.units hr).resolve_right fun h0 => hne h0.1
        refine Or.inr ⟨?_, p, ?_⟩
        · show s'.count = 0
          rw [hcount.2.1, h1]
          rfl
        · intro q
          by_cases hq : q = p
          · subst hq; simpa using howns
          · simp [hn q, hq]
      | v =>
        obtain ⟨h0, r, hr⟩ := (h.units hr).resolve_left fun h1 => by
          rw [h1.2 p] at howns
          cases howns.1
        have hpr := (hr p).1 howns.1
        subst hpr
        refine Or.inl ⟨?_, ?_⟩
        · show s'.count = 1
          rw [hcount.2, h0]
          rfl
        · intro q
          by_cases hq : q = p
          · subst hq; simpa using howns.2
          · simp only [Function.update_of_ne hq]
            exact Bool.eq_false_iff.2 fun ho => hq ((hr q).1 ho)

end FileOk

/-! ## The invariant is kept -/

section Keep

variable {w : World} {p : Pid} {y : Pc} {f : Inode}

/-- What is left to show of a step of `p` to `y`: the name leads to the last file, the files
under construction are as their creators left them, and every file is used as it should be. -/
theorem Inv.update (h : Inv w) {name : Option Inode} {files : Inode → File} {fresh : Inode}
    (hfresh : w.fresh ≤ fresh) (hname : ∀ f, name = some f → f + 1 = fresh)
    (hfile : ∀ f, y.file = some f → f < fresh)
    (hothers : ∀ q f x, q ≠ p → (w.pc q).making = some (f, x) → files f = x)
    (hmaking : ∀ f x, y.making = some (f, x) →
      files f = x ∧ ∀ q z, (w.pc q).making = some (f, z) → q = p)
    (hin : ∀ f c, y ≠ .sem f c .out)
    (hok : ∀ f, FileOk (files f) f (Function.update w.pc p y)) :
    Inv ⟨name, files, fresh, Function.update w.pc p y⟩ := by
  refine ⟨hname, ?_, ?_, ?_, ?_, hok⟩
  · intro q f hf
    by_cases hq : q = p
    · subst hq
      exact hfile f (by simpa using hf)
    · exact (h.file q f (by simpa [Function.update_of_ne hq] using hf)).trans_le hfresh
  · intro q f x hx
    by_cases hq : q = p
    · subst hq
      exact (hmaking f x (by simpa using hx)).1
    · exact hothers q f x hq (by simpa [Function.update_of_ne hq] using hx)
  · intro q r f x z hx hz
    by_cases hq : q = p <;> by_cases hr : r = p
    · rw [hq, hr]
    · subst hq
      exact ((hmaking f x (by simpa using hx)).2 r z
        (by simpa [Function.update_of_ne hr] using hz)).symm
    · subst hr
      exact (hmaking f z (by simpa using hz)).2 q x
        (by simpa [Function.update_of_ne hq] using hx)
    · exact h.unique q r f x z (by simpa [Function.update_of_ne hq] using hx)
        (by simpa [Function.update_of_ne hr] using hz)
  · intro q f c
    by_cases hq : q = p
    · subst hq
      simpa using hin f c
    · simpa [Function.update_of_ne hq] using h.inside q f c

/-- The same for a step that writes no file. -/
theorem Inv.goto (h : Inv w) {name : Option Inode} (hname : ∀ f, name = some f → f + 1 = w.fresh)
    (hfile : ∀ f, y.file = some f → f < w.fresh)
    (hmaking : ∀ f x, y.making = some (f, x) → (w.pc p).making = some (f, x))
    (hin : ∀ f c, y ≠ .sem f c .out)
    (hok : ∀ f, FileOk (w.files f) f (Function.update w.pc p y)) :
    Inv { w.goto p y with semName := name } :=
  h.update le_rfl hname hfile (fun q f x _ hx => h.making q f x hx)
    (fun f x hx => ⟨h.making p f x (hmaking f x hx),
      fun q z hz => h.unique q p f z x hz (hmaking f x hx)⟩) hin hok

theorem Move.view {name : Option Inode} {op : Op} {x : Pc} (h : Move name op x y) :
    (∀ f, y.file = some f → x.file = some f ∨ name = some f) ∧
      (∀ f z, y.making = some (f, z) → x.making = some (f, z)) ∧
      (∀ f c, y ≠ .sem f c .out) ∧ ∀ f, y.owns f = x.owns f := by
  cases h with
  | @munmap f c => cases c <;> simp [Pc.file, Pc.making, Pc.owns]
  | openFinds hn => simp [Pc.file, Pc.making, Pc.owns, hn]
  | _ => simp [Pc.file, Pc.making, Pc.owns]

/-- A move leaves a process where it was in the code of a semaphore, except for the calls of
`semaphore_wait` and `semaphore_post`. -/
theorem Move.seat {name : Option Inode} {op : Op} {x : Pc} (h : Move name op x y) (f : Inode) :
    y.seat f = x.seat f ∨ (x.seat f = .out ∧ y.seat f = .waitLock) ∨
      (x.seat f = .out ∧ y.seat f = .postLock ∧ x.owns f = true) := by
  cases h with
  | @munmap g c => cases c <;> simp [Pc.seat]
  | @callWait g c => by_cases hg : g = f <;> simp [Pc.seat, hg]
  | @callPost g c => by_cases hg : g = f <;> simp [Pc.seat, Pc.owns, hg]
  | _ => simp [Pc.seat]

theorem Inv.move (h : Inv w) {op : Op} (hm : Move w.semName op (w.pc p) y) :
    Inv (w.goto p y) := by
  obtain ⟨hfile, hmk, hin, howns⟩ := hm.view
  refine h.goto h.name ?_ hmk hin ?_
  · intro f hf
    rcases hfile f hf with hf | hf
    · exact h.file p f hf
    · exact (h.name f hf) ▸ Nat.lt_succ_self f
  · intro f
    rcases hm.seat f with he | ⟨ho, he⟩ | ⟨ho, he, hown⟩
    · exact (h.ok f).update_of_eq (howns f) he
    · refine (h.ok f).update (howns f) (fun _ => Or.inr he) fun _ => Or.inr ⟨.callWait, ?_⟩
      rw [ho, he]
      exact fun s => .callWait
    · refine (h.ok f).update (howns f) ?_ fun _ => Or.inr ⟨.callPost, ?_⟩
      · intro hr
        rw [((h.ok f).quiet hr p).2] at hown
        cases hown
      · rw [ho, he]
        exact fun s => .callPost

/-- The first touch of a semaphore that is not initialised. -/
theorem Inv.undefined (h : Inv w) {c : Bool} {l : Semaphore.Pc} (hpc : w.pc p = .sem f c l)
    (hr : (w.files f).ready = false) : Inv (w.goto p (.undefined f)) := by
  refine h.goto h.name (fun _ hf => by cases hf) (fun _ _ hm => by cases hm)
    (fun _ _ hin => by cases hin) ?_
  intro g
  by_cases hgf : g = f
  · subst hgf
    refine (h.ok g).update ((h.ok g).quiet hr p).2.symm (fun _ => Or.inl rfl) ?_
    intro hr'
    rw [hr] at hr'
    cases hr'
  · have hne : (w.pc p).file ≠ some g := by simp [hpc, Pc.file, Ne.symm hgf]
    exact (h.ok g).update_of_eq (Pc.owns_of_file_ne hne).symm (Pc.seat_of_file_ne hne).symm

theorem Inv.unlink (h : Inv w) (hpc : w.pc p = .unlink) :
    Inv { w.goto p (.exit 0) with semName := none } :=
  h.goto (fun _ hf => by cases hf) (fun _ hf => by cases hf) (fun _ _ hm => by cases hm)
    (fun _ _ hin => by cases hin)
    fun g => (h.ok g).update_of_eq (by rw [hpc]; rfl) (by rw [hpc]; rfl)

/-- A new file: no process works with it yet. -/
theorem Inv.create (h : Inv w) (hpc : w.pc p = .createOpen) :
    Inv { semName := some w.fresh
          files := Function.update w.files w.fresh .empty
          fresh := w.fresh + 1
          pc := Function.update w.pc p (.createTruncate w.fresh) } := by
  have hlt : ∀ q g, (w.pc q).file = some g → g ≠ w.fresh := fun q g hg => (h.file q g hg).ne
  refine h.update (Nat.le_succ _) ?_ ?_ ?_ ?_ (fun _ _ hin => by cases hin) ?_
  · rintro g ⟨⟩
    rfl
  · rintro g ⟨⟩
    exact Nat.lt_succ_self _
  · intro q g x _ hx
    rw [Function.update_of_ne (hlt q g (Pc.file_of_making hx))]
    exact h.making q g x hx
  · intro g x hx
    obtain ⟨rfl, rfl⟩ : w.fresh = g ∧ File.empty = x := by simpa [Pc.making] using hx
    exact ⟨by simp, fun q z hz => absurd rfl (hlt q _ (Pc.file_of_making hz))⟩
  · intro g
    have hok : FileOk (Function.update w.files w.fresh .empty g) g w.pc := by
      by_cases hg : g = w.fresh
      · have hne : ∀ q, (w.pc q).file ≠ some g := fun q hq => hlt q g hq hg
        rw [hg, Function.update_self]
        exact .of_quiet (fun q => ⟨Or.inl (Pc.seat_of_file_ne (hg ▸ hne q)),
          Pc.owns_of_file_ne (hg ▸ hne q)⟩) fun hr => by cases hr
      · rw [Function.update_of_ne hg]
        exact h.ok g
    exact hok.update_of_eq (by rw [hpc]; rfl) (by rw [hpc]; rfl)

/-- The steps of `semaphore_create` follow each other; after the last one the file holds a
semaphore as `Sem.fresh` has it. -/
theorem Make.view {op : Op} {x : Pc} {g : File → File} (h : Make f op x g y) :
    ∃ z, x.making = some (f, z) ∧ y.file = some f ∧
      (y.making = some (f, g z) ∨ y.making = none) ∧ (∀ g c, y ≠ .sem g c .out) ∧
      (∀ g, y.owns g = x.owns g ∧ y.seat g = x.seat g) ∧
      ((g z).ready = true → (g z).sem = .fresh) := by
  cases h <;> exact ⟨_, rfl, by simp [Pc.file, Pc.making, Pc.owns, Pc.seat]; decide⟩

theorem Inv.make (h : Inv w) {op : Op} {g : File → File} (hm : Make f op (w.pc p) g y) :
    Inv (w.write p f (g (w.files f)) y) := by
  obtain ⟨z, hz, hfile, hmk, hin, hview, hfresh⟩ := hm.view
  have hf : w.files f = z := h.making p f z hz
  rw [hf]
  refine h.update le_rfl h.name ?_ ?_ ?_ hin ?_
  · intro g' hg
    rw [hfile] at hg
    cases hg
    exact h.file p f (Pc.file_of_making hz)
  · intro q g' x hq hx
    have hne : g' ≠ f := by
      intro heq
      subst heq
      exact hq (h.unique q p g' x z hx hz)
    rw [Function.update_of_ne hne]
    exact h.making q g' x hx
  · intro g' x hx
    rcases hmk with hmk | hmk <;> rw [hmk] at hx <;> cases hx
    exact ⟨by simp, fun q z' hz' => h.unique q p f z' z hz' hz⟩
  · intro g'
    have hok : FileOk (Function.update w.files f (g z) g') g' w.pc := by
      by_cases hg : g' = f
      · rw [hg, Function.update_self]
        exact .of_quiet ((h.ok f).quiet (hf ▸ Pc.not_ready_of_making hz)) hfresh
      · rw [Function.update_of_ne hg]
        exact h.ok g'
    exact hok.update_of_eq (hview g').1 (hview g').2

theorem Inv.sem_step (h : Inv w) {c : Bool} {op : Semaphore.Op} {l l' : Semaphore.Pc}
    {s' : Sem} (hpc : w.pc p = .sem f c l) (hr : (w.files f).ready = true)
    (hs : Semaphore.Step p op (w.files f).sem l s' l') :
    Inv (w.write p f { w.files f with sem := s' } (afterSem f c op l')) := by
  have hl : l ≠ .out := by
    intro heq
    subst heq
    exact h.inside p f c hpc
  obtain ⟨-, hin, hfile, hmk⟩ := afterSem_view (f := f) (c := c) hs hl
  refine h.update le_rfl h.name ?_ ?_ ?_ hin ?_
  · intro g hg
    rw [hfile] at hg
    cases hg
    exact h.file p f (by rw [hpc]; rfl)
  · intro q g x _ hx
    have hg : g ≠ f := by
      intro heq
      subst heq
      have hnr := Pc.not_ready_of_making hx
      rw [← h.making q g x hx, hr] at hnr
      cases hnr
    rw [Function.update_of_ne hg]
    exact h.making q g x hx
  · intro g x hx
    rw [hmk] at hx
    cases hx
  · intro g
    by_cases hg : g = f
    · subst hg
      rw [Function.update_self]
      exact (h.ok g).sem_step hpc hl hr hs
    · rw [Function.update_of_ne hg]
      have hne : (w.pc p).file ≠ some g := by simp [hpc, Pc.file, Ne.symm hg]
      have hne' : (afterSem f c op l').file ≠ some g := by simp [hfile, Ne.symm hg]
      exact (h.ok g).update_of_eq
        ((Pc.owns_of_file_ne hne').trans (Pc.owns_of_file_ne hne).symm)
        ((Pc.seat_of_file_ne hne').trans (Pc.seat_of_file_ne hne).symm)

end Keep

theorem inv_step {w w' : World} {p : Pid} {op : Op} (h : Inv w) (hs : Step p w op w') :
    Inv w' := by
  cases hs with
  | move hm => exact h.move hm
  | create hpc _ => exact h.create hpc
  | make hm => exact h.make hm
  | sem hpc hr hs => exact h.sem_step hpc hr hs
  | undefined hpc hr => exact h.undefined hpc hr
  | unlink hpc => exact h.unlink hpc

theorem inv_invariant : system.Invariant Inv where
  init w h := by rw [h]; exact inv_start
  step w e w' h hs := inv_step h (next_cases hs)

/-! ## Mutual exclusion and initialisation -/

/-- Between the return from `semaphore_wait` and the call of `semaphore_post`. -/
def InWork (w : World) (p : Pid) : Prop := ∃ f c, w.pc p = .work f c

/-- At most one process works, and none has touched a semaphore that was not initialised. -/
structure Safe (w : World) : Prop where
  exclusive : ∀ p q, InWork w p → InWork w q → p = q
  initialised : ∀ p f, w.pc p ≠ .undefined f

/-- On one file the work of two processes never overlaps, in any run. -/
theorem Inv.exclusive_on_file {w : World} (hinv : Inv w) {p q : Pid} {f : Inode} {c d : Bool}
    (hp : w.pc p = .work f c) (hq : w.pc q = .work f d) : p = q := by
  have hop : (w.pc p).owns f = true := by simp [hp, Pc.owns]
  have hoq : (w.pc q).owns f = true := by simp [hq, Pc.owns]
  cases hr : (w.files f).ready with
  | false =>
    rw [((hinv.ok f).quiet hr p).2] at hop
    cases hop
  | true =>
    rcases (hinv.ok f).units hr with ⟨-, hn⟩ | ⟨-, r, hown⟩
    · rw [hn p] at hop
      cases hop
    · exact ((hown p).1 hop).trans ((hown q).1 hoq).symm

/-- The conditions on the two `open` calls. `semaphore_open` finds a file that is initialised;
`semaphore_create` makes a new one when no process with an older file is still to call
`semaphore_post`. -/
def Orderly (w : World) (e : Pid × Op) : Prop :=
  (e.2 = .openOpen true → ∀ f, w.semName = some f → (w.files f).ready = true) ∧
    (e.2 = .createOpen true → ∀ p f, (w.pc p).beforePost f = false)

/-- In orderly runs all processes before their `semaphore_post` are on the last file, and every
file in use is initialised. -/
structure OrderlyInv (w : World) : Prop where
  last : ∀ p f, (w.pc p).beforePost f = true → f + 1 = w.fresh
  ready : ∀ p f, (w.pc p).uses f = true → (w.files f).ready = true
  defined : ∀ p f, w.pc p ≠ .undefined f

section Orderly

variable {w : World} {p : Pid} {y : Pc} {f : Inode}

theorem Pc.file_of_uses {x : Pc} (h : x.uses f = true) : x.file = some f := by
  cases x <;> simp_all [Pc.uses, Pc.file]

theorem OrderlyInv.update (h : OrderlyInv w) {name : Option Inode} {files : Inode → File}
    (hlast : ∀ f, y.beforePost f = true → f + 1 = w.fresh)
    (hready : ∀ f, y.uses f = true → (files f).ready = true)
    (hothers : ∀ q f, (w.pc q).uses f = true → (files f).ready = true)
    (hdef : ∀ f, y ≠ .undefined f) :
    OrderlyInv ⟨name, files, w.fresh, Function.update w.pc p y⟩ where
  last := (Function.forall_update_iff _ fun _ (x : Pc) => ∀ f, x.beforePost f = true →
    f + 1 = w.fresh).2 ⟨hlast, fun q _ => h.last q⟩
  ready := (Function.forall_update_iff _ fun _ (x : Pc) => ∀ f, x.uses f = true →
    (files f).ready = true).2 ⟨hready, fun q _ => hothers q⟩
  defined := (Function.forall_update_iff _ fun _ (x : Pc) => ∀ f, x ≠ .undefined f).2
    ⟨hdef, fun q _ => h.defined q⟩

theorem Move.orderly {name : Option Inode} {op : Op} {x : Pc} (h : Move name op x y) :
    (∀ f, y.beforePost f = true → x.beforePost f = true ∨ name = some f) ∧
      (∀ f, y.uses f = true → x.uses f = true ∨ (op = .openOpen true ∧ name = some f)) ∧
      ∀ f, y ≠ .undefined f := by
  cases h with
  | @munmap f c => cases c <;> simp [Pc.beforePost, Pc.uses]
  | openFinds hn => simp [Pc.beforePost, Pc.uses, hn]
  | _ => simp [Pc.beforePost, Pc.uses]

theorem Make.orderly {op : Op} {x : Pc} {g : File → File} (h : Make f op x g y) {z : File}
    (hz : x.making = some (f, z)) :
    (∀ g, y.beforePost g = true → x.beforePost g = true) ∧
      (∀ g', y.uses g' = true → g' = f ∧ (g z).ready = true) ∧ ∀ g, y ≠ .undefined g := by
  cases h <;> simp_all [Pc.beforePost, Pc.uses, Pc.making]
  subst hz
  rfl

theorem afterSem_orderly {c : Bool} {op : Semaphore.Op} {l l' : Semaphore.Pc} {s s' : Sem}
    (hs : Semaphore.Step p op s l s' l') (hl : l ≠ .out) :
    (∀ g, (afterSem f c op l').beforePost g = true → (Pc.sem f c l).beforePost g = true) ∧
      ∀ g, afterSem f c op l' ≠ .undefined g := by
  cases hs <;> simp_all [afterSem, Pc.beforePost]

theorem orderlyInv_step (hinv : Inv w) (h : OrderlyInv w) {op : Op} {w' : World}
    (hs : Step p w op w') (hG : Orderly w (p, op)) : OrderlyInv w' := by
  cases hs with
  | move hm =>
    obtain ⟨hlast, huses, hdef⟩ := hm.orderly
    refine h.update ?_ ?_ h.ready hdef
    · intro f hf
      rcases hlast f hf with hf | hf
      · exact h.last p f hf
      · exact hinv.name f hf
    · intro f hf
      rcases huses f hf with hf | ⟨hop, hf⟩
      · exact h.ready p f hf
      · exact hG.1 hop f hf
  | create hpc _ =>
    have hnone := hG.2 rfl
    refine ⟨?_, ?_, ?_⟩
    · refine (Function.forall_update_iff _ fun _ (x : Pc) => ∀ f, x.beforePost f = true →
        f + 1 = w.fresh + 1).2 ⟨?_, ?_⟩
      · intro f hf
        have : w.fresh = f := by simpa [Pc.beforePost] using hf
        rw [this]
      · intro q _ f hf
        rw [hnone q f] at hf
        cases hf
    · refine (Function.forall_update_iff _ fun _ (x : Pc) => ∀ f, x.uses f = true →
        (Function.update w.files w.fresh .empty f).ready = true).2
        ⟨fun f hf => (by cases hf), ?_⟩
      intro q _ f hf
      rw [Function.update_of_ne (hinv.file q f (Pc.file_of_uses hf)).ne]
      exact h.ready q f hf
    · exact (Function.forall_update_iff _ fun _ (x : Pc) => ∀ f, x ≠ .undefined f).2
        ⟨fun f hf => (by cases hf), fun q _ => h.defined q⟩
  | @make op f g y hm =>
    obtain ⟨z, hz, -⟩ := hm.view
    obtain ⟨hlast, huses, hdef⟩ := hm.orderly hz
    have hf : w.files f = z := hinv.making p f z hz
    refine h.update (fun g' hg => h.last p g' (hlast g' hg)) ?_ ?_ hdef
    · intro g' hg
      obtain ⟨rfl, hr⟩ := huses g' hg
      rw [Function.update_self, hf]
      exact hr
    · intro q g' hg
      have hne : g' ≠ f := by
        intro heq
        subst heq
        have := h.ready q g' hg
        rw [hf, Pc.not_ready_of_making hz] at this
        cases this
      rw [Function.update_of_ne hne]
      exact h.ready q g' hg
  | @sem op f c l l' sem' hpc hr hs =>
    have hl : l ≠ .out := by
      intro heq
      subst heq
      exact hinv.inside p f c hpc
    obtain ⟨hlast, hdef⟩ := afterSem_orderly (f := f) (c := c) hs hl
    have hready : ∀ q g, (w.pc q).uses g = true →
        (Function.update w.files f { w.files f with sem := sem' } g).ready = true := by
      intro q g hg
      by_cases hgf : g = f
      · subst hgf
        rw [Function.update_self]
        exact hr
      · rw [Function.update_of_ne hgf]
        exact h.ready q g hg
    refine h.update (fun g hg => h.last p g ?_) (fun g hg => hready p g ?_) hready hdef
    · rw [hpc]
      exact hlast g hg
    · have hfile := Pc.file_of_uses hg
      rw [(afterSem_view (f := f) (c := c) hs hl).2.2.1] at hfile
      cases hfile
      simp [hpc, Pc.uses]
  | @undefined op f c l hpc hr =>
    have := h.ready p f (by simp [hpc, Pc.uses])
    rw [hr] at this
    cases this
  | unlink hpc =>
    exact h.update (fun f hf => by cases hf) (fun f hf => by cases hf) h.ready
      fun f hf => by cases hf

end Orderly

theorem orderly_invariant : (system.guard Orderly).Invariant fun w => Inv w ∧ OrderlyInv w :=
  inv_invariant.guard_and
    (by
      rintro w rfl
      refine ⟨?_, ?_, ?_⟩ <;> intro p f h <;> cases h)
    fun w e w' hinv h hs hG => orderlyInv_step hinv h (next_cases hs) hG

/-- **Mutual exclusion and initialisation**, in every orderly run. -/
theorem main_safe {tr : List (Pid × Op)} {w : World} (h : (system.guard Orderly).Run tr w) :
    Safe w := by
  obtain ⟨hinv, hord⟩ := orderly_invariant.run h
  refine ⟨?_, hord.defined⟩
  intro p q hp hq
  obtain ⟨f, c, hp⟩ := hp
  obtain ⟨g, d, hq⟩ := hq
  have hf := hord.last p f (by simp [hp, Pc.beforePost])
  have hg := hord.last q g (by simp [hq, Pc.beforePost])
  obtain rfl : f = g := Nat.succ_injective (hf.trans hg.symm)
  exact hinv.exclusive_on_file hp hq

/-- One process creates the semaphore and enters its work. -/
def createAndWait (p : Pid) : List (Pid × Op) :=
  [(p, .createOpen true), (p, .ftruncate), (p, .mmap), (p, .setCount), (p, .mutexInit),
   (p, .condInit), (p, .closeFd), (p, .sem .callWait), (p, .sem .waitLock), (p, .sem .waitTest),
   (p, .sem .dec), (p, .sem .waitUnlock)]

/-- A process finds that the file exists, opens it and is about to wait. -/
def openExisting (p : Pid) : List (Pid × Op) :=
  [(p, .createOpen false), (p, .openOpen true), (p, .mmap), (p, .closeFd)]

/-- What is enough of `Orderly` for schedules in which nothing more is created. -/
def OpensReady (w : World) (e : Pid × Op) : Prop :=
  e.2 ≠ .createOpen true ∧ (e.2 = .openOpen true → ∀ f ∈ w.semName, (w.files f).ready = true)

instance (w : World) (e : Pid × Op) : Decidable (OpensReady w e) :=
  inferInstanceAs (Decidable (_ ∧ _))

theorem main_safe_createAndWait :
    ∃ w, (system.guard Orderly).Run (createAndWait 0 ++ openExisting 1) w ∧ InWork w 0 ∧
      Safe w := by
  have hT : ∀ w e, OpensReady w e → Orderly w e :=
    fun w e h => ⟨fun he f hf => h.2 he f hf, fun he => absurd he h.1⟩
  have hfirst : ∀ p f, (start.pc p).beforePost f = false := fun _ _ => rfl
  have hstart : (system.guard Orderly).Run [] start := .init rfl
  have hcreate : (system.guard Orderly).Run [(0, .createOpen true)]
      ((next start (0, .createOpen true)).getD start) :=
    hstart.snoc ⟨rfl, nofun, fun _ => hfirst⟩
  obtain ⟨w, hw, hp⟩ := exists_guard_run_of_exec next hT hcreate
    (createAndWait 0 ++ openExisting 1).tail (fun w => w.pc 0 = .work 0 true) (by decide)
  exact ⟨w, hw, ⟨0, true, by simpa using hp⟩, main_safe hw⟩

/-- Process 1 arrives right after the `open` of process 0. -/
def earlyOpen : List (Pid × Op) :=
  (0, .createOpen true) :: openExisting 1 ++ [(1, .sem .callWait), (1, .sem .waitLock)]

/-- Process 1 holds the file of process 0, which works, posts and unlinks it; process 2 creates
another file. -/
def lateWait : List (Pid × Op) :=
  (createAndWait 0).take 7 ++ openExisting 1 ++ (createAndWait 0).drop 7 ++
    [(0, .sem .callPost), (0, .sem .postLock), (0, .sem .postTest), (0, .sem (.signal none)),
     (0, .sem .inc), (0, .sem .postUnlock), (0, .munmap), (0, .unlink)] ++
    createAndWait 2 ++
    [(1, .sem .callWait), (1, .sem .waitLock), (1, .sem .waitTest), (1, .sem .dec),
     (1, .sem .waitUnlock)]

/-- **Both parts fail** without the conditions: a process touches a semaphore that is not
initialised, and two processes work at the same time on two files. -/
theorem main_unsafe :
    (∃ w, system.Reachable w ∧ ∃ p f, w.pc p = .undefined f) ∧
      ∃ w, system.Reachable w ∧ ∃ p q, p ≠ q ∧ InWork w p ∧ InWork w q := by
  constructor
  · obtain ⟨w, hw, hp⟩ := exists_run_of_exec start next earlyOpen
      (fun w => w.pc 1 = .undefined 0) (by decide)
    exact ⟨w, ⟨_, hw⟩, 1, 0, by simpa using hp⟩
  · obtain ⟨w, hw, hp⟩ := exists_run_of_exec start next lateWait
      (fun w => w.pc 1 = .work 0 false ∧ w.pc 2 = .work 1 true) (by decide)
    simp only [decide_eq_true_eq] at hp
    exact ⟨w, ⟨_, hw⟩, 1, 2, by decide, ⟨0, false, hp.1⟩, ⟨1, true, hp.2⟩⟩

end LinuxDemo.SemaphoreMain
