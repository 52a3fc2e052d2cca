import LinuxDemo.Lib.Threads

/-!
# `_mapSharedMemory`

The function of `process/posix-ipc/shared-memory/main.c` and, up to its `mmap`, that of
`process/posix-ipc/semaphore/unnamed.c`: the process that wins the exclusive `shm_open` creates
and sizes the object, all others open what they find. Every system call is a step of its own.

The functions here are about one object: `shm_open` creates it once, and it stays alive for those
who opened it after its name is unlinked. Processes that come after that create another object; the
module on all objects of `unnamed.c` follows the name to these.

* `step_cases`: everything a step of the function can do.
* `Step.sized`: an object that has its size keeps it.
-/

namespace LinuxDemo.Shm

/-- The shared-memory object. -/
structure Object where
  /-- `shm_open` has created it. -/
  created : Bool
  /-- The name leads to it. -/
  named : Bool
  /-- `ftruncate` has given it its size; an access before that is a bus error. -/
  sized : Bool
  deriving DecidableEq

/-- No process has created the object yet. -/
def Object.absent : Object := ⟨false, false, false⟩

/-- `shm_unlink`. -/
def Object.unlink (o : Object) : Object := { o with named := false }

/-- What a process executes next in `_mapSharedMemory`. -/
inductive Pc where
  /-- `shm_open(name, O_CREAT | O_EXCL | O_RDWR, 0666)`. -/
  | create
  /-- `shm_open(name, O_RDWR, 0666)`. -/
  | openExisting
  | ftruncate
  | mmap (createNew : Bool)
  deriving DecidableEq

/-- A system call, and whether it succeeds. -/
inductive Op where
  | create (ok : Bool)
  | openExisting (ok : Bool)
  | ftruncate (ok : Bool)
  | mmap (ok : Bool)
  deriving DecidableEq

/-- Where the call leaves the process. -/
inductive After where
  | inside (l : Pc)
  /-- `_mapSharedMemory` goes on with the mapped address. -/
  | mapped (createNew : Bool)
  /-- It returns `NULL`. -/
  | null
  deriving DecidableEq

/-- Execute one system call. -/
def step : Op → Object → Pc → Option (Object × After)
  -- `O_EXCL`: only one process creates the object.
  | .create true, o, .create =>
    if o.created then none
    else some ({ o with created := true, named := true }, .inside .ftruncate)
  | .create false, o, .create => some (o, .inside .openExisting)
  | .openExisting true, o, .openExisting =>
    if o.named then some (o, .inside (.mmap false)) else none
  | .openExisting false, o, .openExisting => some (o, .null)
  -- The result of `ftruncate` is not looked at.
  | .ftruncate ok, o, .ftruncate => some ({ o with sized := o.sized || ok }, .inside (.mmap true))
  | .mmap true, o, .mmap createNew => some (o, .mapped createNew)
  | .mmap false, o, .mmap _ => some (o, .null)
  | _, _, _ => none

/-- Everything a step of `_mapSharedMemory` can do. -/
inductive Step (o : Object) : Op → Pc → Object → After → Prop
  | create (h : o.created = false) :
      Step o (.create true) .create { o with created := true, named := true } (.inside .ftruncate)
  | createFails : Step o (.create false) .create o (.inside .openExisting)
  | openExisting (h : o.named = true) :
      Step o (.openExisting true) .openExisting o (.inside (.mmap false))
  | openFails : Step o (.openExisting false) .openExisting o .null
  | ftruncate {ok : Bool} :
      Step o (.ftruncate ok) .ftruncate { o with sized := o.sized || ok } (.inside (.mmap true))
  | mmap {createNew : Bool} : Step o (.mmap true) (.mmap createNew) o (.mapped createNew)
  | mmapFails {createNew : Bool} : Step o (.mmap false) (.mmap createNew) o .null

theorem step_cases {op : Op} {o o' : Object} {l : Pc} {a : After}
    (h : step op o l = some (o', a)) : Step o op l o' a := by
  unfold step at h
  split at h
  · split_ifs at h with hc
    cases h
    exact .create (by simpa using hc)
  · cases h
    exact .createFails
  · split_ifs at h with hn
    cases h
    exact .openExisting hn
  · cases h
    exact .openFails
  · cases h
    exact .ftruncate
  · cases h
    exact .mmap
  · cases h
    exact .mmapFails
  · cases h

/-- An object that has its size keeps it. -/
theorem Step.sized {o o' : Object} {op : Op} {l : Pc} {a : After} (h : Step o op l o' a)
    (hs : o.sized = true) : o'.sized = true := by
  cases h <;> simp [hs]

end LinuxDemo.Shm
