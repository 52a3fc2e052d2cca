import LinuxDemo.Lib.FileLock
import LinuxDemo.Lib.Threads
import LinuxDemo.Io.FcntlLock

/-!
# The processes of `io/file_lock/fcntl/main.c`

Any number of processes run `main` on one file, each with its own arguments. First `_otherTest` opens
the file twice and locks its first ten bytes through both descriptors, which stay open. Then `main`
opens the file a third time, makes the request of its arguments, sleeps and closes that descriptor.

The locks belong to the process. So the second request of `_otherTest` never meets the lock of the
first, and the `close` of `main` gives up the locks of `_otherTest` too.

* `locks_exact`: what every process holds at every place, byte by byte, and that the processes keep
  each other out.
* `opened_twice`: the second request of `_otherTest` succeeds after the first, and changes nothing.
* `getlk_predicts`: `F_GETLK` succeeds where `F_SETLK` would, except for an unlock.
-/

namespace LinuxDemo.FcntlLock

open Lts Threads

variable {ι : Type*}

/-! ## The kernel -/

/-- The locks of all processes on the file. -/
abbrev Locks (ι : Type*) := List (RangeLock ι)

/-- The range of a request. `first` is what `lStart` counts from, and a negative `lLen` counts
backwards. -/
def resolve (first lStart lLen : ℤ) : Option ByteRange :=
  let start := first + lStart
  if start < 0 then none
  else if 0 < lLen then some ⟨start.toNat, some (start + lLen).toNat⟩
  else if lLen = 0 then some ⟨start.toNat, none⟩
  else if start + lLen < 0 then none
  else some ⟨(start + lLen).toNat, some start.toNat⟩

/-- The range of a request on a file of that size that was just opened. -/
def Request.range (size : ℕ) (fl : Request) : Option ByteRange :=
  resolve (match fl.lWhence with | .set | .cur => 0 | .ofEnd => size) fl.lStart fl.lLen

/-- The lock that a type asks for. -/
def LockType.mode : LockType → Option LockMode
  | rdlck => some .shared
  | wrlck => some .exclusive
  | unlck => none

def LockType.ofMode : LockMode → LockType
  | .shared => .rdlck
  | .exclusive => .wrlck

section Kernel

variable [DecidableEq ι]

/-- `fcntl` by process `p`; `none` where `F_SETLKW` waits. -/
def fcntl (size : ℕ) (locks : Locks ι) (p : ι) (fl : Request) : Option (Locks ι × Answer) :=
  match fl.range size with
  | none => some (locks, ⟨-1, fl.lType⟩)
  | some r =>
    match fl.cmd, fl.lType.mode with
    | .getlk, none => some (locks, ⟨-1, fl.lType⟩)
    | .getlk, some m =>
      match RangeLock.conflict locks p r m with
      | none => some (locks, ⟨0, .unlck⟩)
      | some l => some (locks, ⟨0, .ofMode l.mode⟩)
    | _, none => some (RangeLock.unlock locks p r, ⟨0, fl.lType⟩)
    | .setlk, some m =>
      if RangeLock.conflict locks p r m = none then
        some (RangeLock.lock locks p r m, ⟨0, fl.lType⟩)
      else some (locks, ⟨-1, fl.lType⟩)
    | .setlkw, some m =>
      if RangeLock.conflict locks p r m = none then
        some (RangeLock.lock locks p r m, ⟨0, fl.lType⟩)
      else none

end Kernel

/-! ## The program -/

/-- What `main` gets from its arguments. -/
inductive Args where
  /-- It prints its usage. `_otherTest` needs a file name. -/
  | usage (fileName : Bool)
  /-- Start and length are 0. -/
  | zero
  /-- The request, if the letters are known. -/
  | accepted (request : Option Request)
  deriving DecidableEq

/-- There is an `argv[1]`. -/
def Args.fileName : Args → Bool
  | .usage f => f
  | _ => true

/-- The request of `main`. -/
def Args.request : Args → Option Request
  | .accepted request => request
  | _ => none

/-- The arguments, as `main` reads them. -/
def argsOf (argv : List CString) : Option Args := do
  let argc := argv.length
  if argc < 6 then return .usage (decide (argc > 1))
  if (← argv[1]?).bytes = literal ['-', '-', 'h', 'e', 'l', 'p'] then return .usage true
  let c ← letter argv 2
  let t ← letter argv 3
  let start ← number argv 4
  let length ← number argv 5
  if start = 0 && length = 0 then return .zero
  let c ← (if argc > 6 then letter argv 6 else some c)
  return .accepted (requestOf c t (whence 's'.toUInt8) start length)

/-- The request of `_otherTest`. -/
def otherRequest : Request := ⟨.setlk, .wrlck, .set, 0, 10⟩

/-- What a process executes next. `held` says that `_otherTest` has its lock. -/
inductive Pc where
  /-- `_otherTest` opens the file twice. -/
  | otherOpen
  /-- `_lock(fd1, 's', 'w', 's', 0, 10)`. -/
  | other1
  /-- `_lock(fd2, 's', 'w', 's', 0, 10)`. -/
  | other2 (held : Bool)
  /-- The tests of the arguments. -/
  | check (held : Bool)
  | openFile (held : Bool)
  /-- The call of `_lock` in `main`. -/
  | lock (held : Bool)
  | sleep (held : Bool)
  /-- `close(fd)`; `granted` says that `_lock` has returned 0. -/
  | close (held granted : Bool)
  /-- `main` has returned -1. -/
  | failed (held : Bool)
  /-- `main` has returned 0. -/
  | returned
  /-- The process has ended. -/
  | ended
  deriving DecidableEq

/-- What a process does in one step. -/
inductive Op where
  | openFile (ok : Bool)
  | fcntl
  /-- `fcntl` fails without looking at the locks of others. -/
  | fcntlFails
  /-- `sleep`, or a step that calls nothing. -/
  | next
  | close
  | exit
  deriving DecidableEq

/-- Process `p` executes one step. -/
def step [DecidableEq ι] (size : ℕ) (args : ι → Args) (p : ι) :
    Op → Locks ι → Pc → Option (Locks ι × Pc)
  | .openFile ok, locks, .otherOpen =>
    if (args p).fileName then some (locks, if ok then .other1 else .check false) else none
  | .next, locks, .otherOpen => if (args p).fileName then none else some (locks, .check false)
  | .fcntl, locks, .other1 =>
    (fcntl size locks p otherRequest).map fun (locks', answer) =>
      (locks', .other2 (result .setlk answer = 0))
  | .fcntlFails, locks, .other1 => some (locks, .other2 false)
  | .fcntl, locks, .other2 held =>
    (fcntl size locks p otherRequest).map fun (locks', answer) =>
      (locks', .check (held || result .setlk answer = 0))
  | .fcntlFails, locks, .other2 held => some (locks, .check held)
  | .next, locks, .check held =>
    match args p with
    | .usage _ => some (locks, .failed held)
    | _ => some (locks, .openFile held)
  | .openFile ok, locks, .openFile held =>
    if ok && args p ≠ .zero then some (locks, .lock held) else some (locks, .failed held)
  | .fcntl, locks, .lock held =>
    (args p).request.bind fun fl => (fcntl size locks p fl).map fun (locks', answer) =>
      (locks', if result fl.cmd answer = 0 then .sleep held else .close held false)
  | .fcntlFails, locks, .lock held =>
    if (args p).request.isSome then some (locks, .close held false) else none
  | .next, locks, .lock held =>
    if (args p).request.isSome then none else some (locks, .close held false)
  | .next, locks, .sleep held => some (locks, .close held true)
  | .close, locks, .close _ _ => some (RangeLock.release locks p, .returned)
  | .exit, locks, .failed _ => some (RangeLock.release locks p, .ended)
  | .exit, locks, .returned => some (RangeLock.release locks p, .ended)
  | _, _, _ => none

/-- All processes, started at any time. -/
def system [DecidableEq ι] (size : ℕ) (args : ι → Args) : Lts (Threads ι (Locks ι) Pc) (ι × Op) :=
  interleave [] (fun _ => .otherOpen) (step size args)

/-- The arguments are those of `main`. -/
theorem main_request_eq {env : Env} (hopened : env.opened = true) (argv : List CString) :
    (main env argv).map Run.request = (argsOf argv).map Args.request := by
  by_cases hargc : argv.length < 6
  · simp [main, argsOf, hargc, Args.request]
  obtain ⟨s, hs⟩ : ∃ s, argv[1]? = some s := ⟨_, List.getElem?_eq_getElem (by omega)⟩
  by_cases hhelp : s.bytes = literal ['-', '-', 'h', 'e', 'l', 'p']
  · simp [main, argsOf, hargc, hs, hhelp, Args.request]
  obtain ⟨c₂, hc₂⟩ : ∃ x, letter argv 2 = some x := exists_letter (by omega)
  obtain ⟨t, ht⟩ : ∃ x, letter argv 3 = some x := exists_letter (by omega)
  obtain ⟨start, hstart⟩ : ∃ x, number argv 4 = some x := exists_number (by omega)
  obtain ⟨length, hlength⟩ : ∃ x, number argv 5 = some x := exists_number (by omega)
  obtain ⟨c, hc⟩ : ∃ c, (if argv.length > 6 then letter argv 6 else some c₂) = some c := by
    split_ifs with h6
    · exact exists_letter h6
    · exact ⟨c₂, rfl⟩
  have hhelp' : ∀ s', argv[1]? = some s' →
      s'.bytes ≠ literal ['-', '-', 'h', 'e', 'l', 'p'] := by
    intro s' hs'
    rwa [← Option.some.inj (hs.symm.trans hs')]
  rw [main_request (by omega) hhelp' hopened hc₂ ht hstart hlength hc, lock_fst]
  simp only [argsOf, hargc, hs, hhelp, hc₂, ht, hstart, hlength, hc, if_false,
    Option.bind_eq_bind, Option.bind_some, Bool.and_eq_true, decide_eq_true_eq]
  split_ifs <;> rfl

/-! ## What a request does -/

/-- What a process holds after a request that was granted. -/
def Request.After (size : ℕ) (fl : Request) (before : ℕ → LockMode → Prop) (b : ℕ)
    (m : LockMode) : Prop :=
  match fl.cmd, fl.range size with
  | .getlk, _ | _, none => before b m
  | _, some r => b ∈ r ∧ fl.lType.mode = some m ∨ before b m ∧ b ∉ r

/-- Process `p` holds `after` from now on. The others hold what they have held. -/
structure Effect (p : ι) (locks locks' : Locks ι) (after : ℕ → LockMode → Prop) : Prop where
  ok : RangeLock.Ok locks'
  others : ∀ b q m, q ≠ p → (RangeLock.Held locks' b q m ↔ RangeLock.Held locks b q m)
  self : ∀ b m, RangeLock.Held locks' b p m ↔ after b m

theorem Effect.refl {p : ι} {locks : Locks ι} (hok : RangeLock.Ok locks) :
    Effect p locks locks (RangeLock.Held locks · p) :=
  ⟨hok, fun _ _ _ _ => Iff.rfl, fun _ _ => Iff.rfl⟩

section Kernel

variable [DecidableEq ι] {size : ℕ} {locks locks' : Locks ι} {p : ι} {fl : Request}
  {answer : Answer} {r : ByteRange}

theorem result_eq_zero {cmd : Cmd} : result cmd answer = 0 ↔
    if cmd = .getlk then answer.ret ≠ -1 ∧ answer.lType = .unlck else answer.ret = 0 := by
  unfold result
  split_ifs <;> simp_all [gTestClose]

/-- What a request to set a lock on the range leaves. -/
theorem after_set (hcmd : fl.cmd ≠ .getlk) (hr : fl.range size = some r)
    (before : ℕ → LockMode → Prop) (b : ℕ) (m : LockMode) :
    fl.After size before b m ↔ b ∈ r ∧ fl.lType.mode = some m ∨ before b m ∧ b ∉ r := by
  unfold Request.After
  rw [hr]
  cases hc : fl.cmd with
  | getlk => exact absurd hc hcmd
  | _ => rfl

theorem effect_unlock (hok : RangeLock.Ok locks) (hcmd : fl.cmd ≠ .getlk)
    (hr : fl.range size = some r) (hm : fl.lType.mode = none) :
    Effect p locks (RangeLock.unlock locks p r)
      (fl.After size (RangeLock.Held locks · p)) where
  ok := hok.unlock p r
  others b q m hq := by
    rw [RangeLock.held_unlock]
    exact and_iff_left fun heq => absurd heq hq
  self b m := by
    rw [RangeLock.held_unlock, after_set hcmd hr, hm]
    simp

theorem effect_lock (hok : RangeLock.Ok locks) (hcmd : fl.cmd ≠ .getlk)
    (hr : fl.range size = some r) {m : LockMode} (hm : fl.lType.mode = some m)
    (hfree : RangeLock.conflict locks p r m = none) :
    Effect p locks (RangeLock.lock locks p r m)
      (fl.After size (RangeLock.Held locks · p)) where
  ok := hok.lock hfree
  others b q m' hq := by
    rw [RangeLock.held_lock]
    simp [hq]
  self b m' := by
    rw [RangeLock.held_lock, after_set hcmd hr, hm]
    simp [eq_comm]

theorem effect_release (hok : RangeLock.Ok locks) :
    Effect p locks (RangeLock.release locks p) fun _ _ => False where
  ok := hok.release p
  others b q m hq := by
    rw [RangeLock.held_release]
    exact and_iff_left hq
  self b m := by
    rw [RangeLock.held_release]
    simp

/-- A request changes what process `p` holds if `_lock` takes the answer for a success. -/
theorem fcntl_effect (hok : RangeLock.Ok locks)
    (h : fcntl size locks p fl = some (locks', answer)) :
    Effect p locks locks' (if result fl.cmd answer = 0
      then fl.After size (RangeLock.Held locks · p) else (RangeLock.Held locks · p)) := by
  have hfails : answer.ret = -1 → result fl.cmd answer ≠ 0 := by
    intro hret hres
    rw [result_eq_zero, hret] at hres
    split_ifs at hres
    exact hres.1 rfl
  unfold fcntl at h
  split at h
  · cases h
    rw [if_neg (hfails rfl)]
    exact .refl hok
  · next r hr =>
    split at h
    · cases h
      rw [if_neg (hfails rfl)]
      exact .refl hok
    · next m hcmd hm =>
      -- Asking leaves everything as it is.
      have hask : fl.After size (RangeLock.Held locks · p) = (RangeLock.Held locks · p) := by
        unfold Request.After
        rw [hcmd]
      rw [hask, ite_self]
      split at h <;> cases h <;> exact .refl hok
    · next cmd hm hne =>
      cases h
      rw [if_pos (result_eq_zero.2 (by rw [if_neg hne]))]
      exact effect_unlock hok hne hr hm
    · next m hcmd hm =>
      have hne : fl.cmd ≠ .getlk := by rw [hcmd]; decide
      split_ifs at h with hfree
      · cases h
        rw [if_pos (result_eq_zero.2 (by rw [if_neg hne]))]
        exact effect_lock hok hne hr hm hfree
      · cases h
        rw [if_neg (hfails rfl)]
        exact .refl hok
    · next m hcmd hm =>
      have hne : fl.cmd ≠ .getlk := by rw [hcmd]; decide
      split_ifs at h with hfree
      cases h
      rw [if_pos (result_eq_zero.2 (by rw [if_neg hne]))]
      exact effect_lock hok hne hr hm hfree

end Kernel

/-! ## What one step does -/

/-- The steps that leave the locks alone. -/
inductive Move (args : Args) : Op → Pc → Pc → Prop
  | otherOpens : Move args (.openFile true) .otherOpen .other1
  | otherOpenFails : Move args (.openFile false) .otherOpen (.check false)
  | noFile : Move args .next .otherOpen (.check false)
  | other1Fails : Move args .fcntlFails .other1 (.other2 false)
  | other2Fails {held : Bool} : Move args .fcntlFails (.other2 held) (.check held)
  | usage {held : Bool} : Move args .next (.check held) (.failed held)
  | checked {held : Bool} : Move args .next (.check held) (.openFile held)
  | opens {held : Bool} : Move args (.openFile true) (.openFile held) (.lock held)
  | openFails {ok held : Bool} : Move args (.openFile ok) (.openFile held) (.failed held)
  | lockFails {held : Bool} : Move args .fcntlFails (.lock held) (.close held false)
  | unknown {held : Bool} : Move args .next (.lock held) (.close held false)
  | wakes {held : Bool} : Move args .next (.sleep held) (.close held true)

/-- Everything a step of `main` can do. -/
inductive Step [DecidableEq ι] (size : ℕ) (args : Args) (p : ι) (locks : Locks ι) :
    Op → Pc → Locks ι → Pc → Prop
  | move {op : Op} {x y : Pc} (h : Move args op x y) : Step size args p locks op x locks y
  | other1 {locks' : Locks ι} {answer : Answer}
      (h : fcntl size locks p otherRequest = some (locks', answer)) :
      Step size args p locks .fcntl .other1 locks' (.other2 (result .setlk answer = 0))
  | other2 {held : Bool} {locks' : Locks ι} {answer : Answer}
      (h : fcntl size locks p otherRequest = some (locks', answer)) :
      Step size args p locks .fcntl (.other2 held) locks' (.check (held || result .setlk answer = 0))
  | lock {held : Bool} {fl : Request} {locks' : Locks ι} {answer : Answer}
      (hfl : args.request = some fl) (h : fcntl size locks p fl = some (locks', answer)) :
      Step size args p locks .fcntl (.lock held) locks'
        (if result fl.cmd answer = 0 then .sleep held else .close held false)
  | close {held granted : Bool} :
      Step size args p locks .close (.close held granted) (RangeLock.release locks p) .returned
  | exit {x : Pc} : Step size args p locks .exit x (RangeLock.release locks p) .ended

theorem step_cases [DecidableEq ι] {size : ℕ} {args : ι → Args} {p : ι} {op : Op}
    {locks locks' : Locks ι} {x y : Pc} (h : step size args p op locks x = some (locks', y)) :
    Step size (args p) p locks op x locks' y := by
  unfold step at h
  split at h
  · split_ifs at h with _ hok <;> cases h
    · rw [hok]
      exact .move .otherOpens
    · rw [eq_false_of_ne_true hok]
      exact .move .otherOpenFails
  · split_ifs at h
    cases h
    exact .move .noFile
  · obtain ⟨⟨locks₁, answer⟩, ha, he⟩ := Option.map_eq_some_iff.1 h
    cases he
    exact .other1 ha
  · cases h
    exact .move .other1Fails
  · obtain ⟨⟨locks₁, answer⟩, ha, he⟩ := Option.map_eq_some_iff.1 h
    cases he
    exact .other2 ha
  · cases h
    exact .move .other2Fails
  · split at h <;> cases h
    · exact .move .usage
    · exact .move .checked
  · split_ifs at h with hok <;> cases h
    · rw [(Bool.and_eq_true_iff.1 hok).1]
      exact .move .opens
    · exact .move .openFails
  · obtain ⟨fl, hfl, he⟩ := Option.bind_eq_some_iff.1 h
    obtain ⟨⟨locks₁, answer⟩, ha, he⟩ := Option.map_eq_some_iff.1 he
    cases he
    exact .lock hfl ha
  · split_ifs at h
    cases h
    exact .move .lockFails
  · split_ifs at h
    cases h
    exact .move .unknown
  · cases h
    exact .move .wakes
  · cases h
    exact .close
  · cases h
    exact .exit
  · cases h
    exact .exit
  · cases h

/-! ## What the processes hold -/

/-- The lock of `_otherTest`. -/
def OtherHeld (size : ℕ) (held : Bool) (b : ℕ) (m : LockMode) : Prop :=
  held = true ∧ otherRequest.After size (fun _ _ => False) b m

/-- What a process holds at a place of `main`. -/
def Pc.Holds (size : ℕ) (args : Args) : Pc → ℕ → LockMode → Prop
  | otherOpen | other1 => fun _ _ => False
  | other2 held | check held | openFile held | lock held | failed held | close held false =>
    OtherHeld size held
  | sleep held | close held true =>
    match args.request with
    | some fl => fl.After size (OtherHeld size held)
    | none => fun _ _ => False
  | returned | ended => fun _ _ => False

/-- The first ten bytes, exclusively. -/
theorem otherHeld_iff {size : ℕ} {held : Bool} {b : ℕ} {m : LockMode} :
    OtherHeld size held b m ↔ held = true ∧ b < 10 ∧ m = .exclusive := by
  simp [OtherHeld, Request.After, otherRequest, Request.range, resolve, LockType.mode,
    ByteRange.mem_def, eq_comm]

/-- With the lock, `_otherTest` gets it again. -/
theorem after_otherHeld (size : ℕ) (held : Bool) (b : ℕ) (m : LockMode) :
    otherRequest.After size (OtherHeld size held) b m ↔ OtherHeld size true b m := by
  simp [otherHeld_iff, Request.After, otherRequest, Request.range, resolve, LockType.mode,
    ByteRange.mem_def, eq_comm]
  omega

/-- The locks allow each other, and every process has those of its place. -/
structure Inv (size : ℕ) (args : ι → Args) (w : Threads ι (Locks ι) Pc) : Prop where
  ok : RangeLock.Ok w.shared
  held : ∀ p b m, RangeLock.Held w.shared b p m ↔ (w.pc p).Holds size (args p) b m

section Runs

variable [DecidableEq ι] {size : ℕ} {args : ι → Args}

theorem Inv.effect {locks locks' : Locks ι} {pc : ι → Pc} {p : ι} {y : Pc}
    {after : ℕ → LockMode → Prop} (h : Inv size args ⟨locks, pc⟩)
    (he : Effect p locks locks' after) (hy : ∀ b m, after b m ↔ y.Holds size (args p) b m) :
    Inv size args ⟨locks', Function.update pc p y⟩ where
  ok := he.ok
  held := by
    refine (Function.forall_update_iff pc fun q (x : Pc) => ∀ b m,
      RangeLock.Held locks' b q m ↔ x.Holds size (args q) b m).2 ⟨?_, ?_⟩
    · intro b m
      exact (he.self b m).trans (hy b m)
    · intro q hq b m
      exact (he.others b q m hq).trans (h.held q b m)

/-- A step that leaves the locks alone leads to a place with the same locks. -/
theorem Move.holds {args : Args} {op : Op} {x y : Pc} (h : Move args op x y) (b : ℕ)
    (m : LockMode) : x.Holds size args b m ↔ y.Holds size args b m := by
  cases h with
  | otherOpens | usage | checked | opens | openFails | other2Fails | lockFails | unknown | wakes =>
    rfl
  | otherOpenFails | noFile | other1Fails => simp [Pc.Holds, OtherHeld]

theorem inv_step {locks locks' : Locks ι} {pc : ι → Pc} {p : ι} {op : Op} {y : Pc}
    (h : Inv size args ⟨locks, pc⟩) (hs : Step size (args p) p locks op (pc p) locks' y) :
    Inv size args ⟨locks', Function.update pc p y⟩ := by
  have hself : (RangeLock.Held locks · p) = (pc p).Holds size (args p) :=
    funext fun b => funext fun m => propext (h.held p b m)
  generalize hpc : pc p = x at hs hself
  cases hs with
  | move hm =>
    refine h.effect (.refl h.ok) fun b m => ?_
    exact (Iff.of_eq (congrFun (congrFun hself b) m)).trans (hm.holds b m)
  | @other1 _ answer ha =>
    refine h.effect (fcntl_effect h.ok ha) fun b m => ?_
    rw [hself]
    by_cases hres : result otherRequest.cmd answer = 0
    · rw [if_pos hres]
      exact (and_iff_right (decide_eq_true hres)).symm
    · rw [if_neg hres]
      exact ⟨False.elim, fun hb => absurd (of_decide_eq_true hb.1) hres⟩
  | @other2 held _ answer ha =>
    refine h.effect (fcntl_effect h.ok ha) fun b m => ?_
    rw [hself]
    show _ ↔ OtherHeld size (held || decide (result otherRequest.cmd answer = 0)) b m
    by_cases hres : result otherRequest.cmd answer = 0
    · rw [if_pos hres, decide_eq_true hres, Bool.or_true]
      exact after_otherHeld size held b m
    · rw [if_neg hres, decide_eq_false hres, Bool.or_false]
      rfl
  | @lock held fl _ answer hfl ha =>
    refine h.effect (fcntl_effect h.ok ha) fun b m => ?_
    rw [hself]
    by_cases hres : result fl.cmd answer = 0
    · rw [if_pos hres, if_pos hres]
      simp only [Pc.Holds, hfl]
    · rw [if_neg hres, if_neg hres]
      rfl
  | close => exact h.effect (effect_release h.ok) fun b m => Iff.rfl
  | exit => exact h.effect (effect_release h.ok) fun b m => Iff.rfl

theorem inv_invariant : (system size args).Invariant (Inv size args) := by
  apply interleave_invariant
  · refine ⟨RangeLock.ok_nil, fun p b m => ⟨?_, False.elim⟩⟩
    rintro ⟨l, hl, -⟩
    cases hl
  · intro p op locks pc locks' y h hs
    exact inv_step h (step_cases hs)

/-- **What is locked, and by whom**, in every run. Different processes have a byte in modes that allow
each other, and what a process has is said by its place: the ten bytes of `_otherTest`, with the
request of `main` on top while it sleeps, and nothing after the `close` of `main`. -/
theorem locks_exact {tr : List (ι × Op)} {w : Threads ι (Locks ι) Pc}
    (h : (system size args).Run tr w) :
    (∀ b p q m m', p ≠ q → RangeLock.Held w.shared b p m → RangeLock.Held w.shared b q m' →
      m.Allows m') ∧
      ∀ p b m, RangeLock.Held w.shared b p m ↔ (w.pc p).Holds size (args p) b m := by
  have hinv := inv_invariant.run h
  exact ⟨hinv.ok, hinv.held⟩

/-- **The lock of the same process is no obstacle**, in every run. When the first request of
`_otherTest` was granted, the kernel grants the second, which comes through another open file
description, and every process holds what it has held. -/
theorem opened_twice {tr : List (ι × Op)} {w : Threads ι (Locks ι) Pc}
    (h : (system size args).Run tr w) {p : ι} (hp : w.pc p = .other2 true) :
    ∃ locks' answer, fcntl size w.shared p otherRequest = some (locks', answer) ∧
      result .setlk answer = 0 ∧
      ∀ b q m, RangeLock.Held locks' b q m ↔ RangeLock.Held w.shared b q m := by
  have hinv := inv_invariant.run h
  have hself : ∀ b m, RangeLock.Held w.shared b p m ↔ OtherHeld size true b m := by
    intro b m
    rw [hinv.held p b m, hp]
    rfl
  -- The others hold nothing there, since the process has it exclusively.
  have hfree : RangeLock.conflict w.shared p ⟨0, some 10⟩ .exclusive = none := by
    rw [RangeLock.conflict_eq_none]
    intro b hb q m' hq hheld
    have hb10 : b < 10 := hb.2 10 rfl
    have hmine : RangeLock.Held w.shared b p .exclusive :=
      (hself b _).2 (otherHeld_iff.2 ⟨rfl, hb10, rfl⟩)
    exact absurd ((hinv.ok b).eq_of_exclusive hmine hheld) hq
  have hgrant : fcntl size w.shared p otherRequest =
      some (RangeLock.lock w.shared p ⟨0, some 10⟩ .exclusive, ⟨0, .wrlck⟩) := if_pos hfree
  have heffect := fcntl_effect hinv.ok hgrant
  refine ⟨_, _, hgrant, rfl, fun b q m => ?_⟩
  by_cases hq : q = p
  · subst hq
    rw [heffect.self b m, if_pos (by rfl), hself]
    have hsame : (RangeLock.Held w.shared · q) = OtherHeld size true :=
      funext fun b => funext fun m => propext (hself b m)
    rw [hsame]
    exact after_otherHeld size true b m
  · exact heffect.others b q m hq

end Runs

/-- Process 0 asks for ten bytes from 15 on, shared. -/
def reader : Fin 2 → Args
  | 0 => .accepted (some ⟨.setlkw, .rdlck, .set, 15, 10⟩)
  | 1 => .usage true

theorem locks_exact_reader :
    ∃ w, (system 0 reader).Run [(1, .openFile true), (0, .openFile true), (0, .fcntl), (0, .fcntl),
        (1, .fcntl), (0, .next), (0, .openFile true), (0, .fcntl)] w ∧
      RangeLock.Held w.shared 5 0 .exclusive ∧ RangeLock.Held w.shared 20 0 .shared ∧
      ¬RangeLock.Held w.shared 5 1 .exclusive := by
  obtain ⟨w, hw, hp⟩ := exists_run_of_exec ⟨[], fun _ => Pc.otherOpen⟩ (next (step 0 reader))
    [(1, .openFile true), (0, .openFile true), (0, .fcntl), (0, .fcntl), (1, .fcntl), (0, .next),
      (0, .openFile true), (0, .fcntl)]
    (fun w => decide (w.pc 0 = .sleep true ∧ w.pc 1 = .other2 false)) (by decide)
  obtain ⟨h0, h1⟩ := of_decide_eq_true hp
  have hheld := (locks_exact hw).2
  refine ⟨w, hw, (hheld 0 5 _).2 ?_, (hheld 0 20 _).2 ?_, fun h => ?_⟩
  · rw [h0]
    exact Or.inr ⟨otherHeld_iff.2 ⟨rfl, by decide, rfl⟩, by decide⟩
  · rw [h0]
    exact Or.inl ⟨by decide, rfl⟩
  · rw [hheld, h1] at h
    exact absurd h.1 (by decide)

theorem opened_twice_first :
    ∃ w locks' answer, (system 0 reader).Run [(0, .openFile true), (0, .fcntl)] w ∧
      fcntl 0 w.shared 0 otherRequest = some (locks', answer) ∧ result .setlk answer = 0 := by
  obtain ⟨w, hw, hp⟩ := exists_run_of_exec ⟨[], fun _ => Pc.otherOpen⟩ (next (step 0 reader))
    [(0, .openFile true), (0, .fcntl)] (fun w => decide (w.pc 0 = .other2 true)) (by decide)
  obtain ⟨locks', answer, hgrant, hres, -⟩ := opened_twice hw (of_decide_eq_true hp)
  exact ⟨w, locks', answer, hw, hgrant, hres⟩

/-! ## Asking first -/

section Ask

variable [DecidableEq ι]

/-- What `fcntl` answers to process `p`, if it does not have to wait. -/
def answerOf (size : ℕ) (locks : Locks ι) (p : ι) (fl : Request) : Answer :=
  ((fcntl size locks p fl).map Prod.snd).getD ⟨-1, fl.lType⟩

theorem lock_snd (k : Request → Answer) {c t w : Byte} {start len : ℤ} {cmd : Cmd}
    {type : LockType} (hc : command c = some cmd) (ht : lockType t = some type) :
    (lock k c t w start len).2 = result cmd (k ⟨cmd, type, whence w, start, len⟩) := by
  unfold lock
  rw [hc, ht]

/-- For a lock, both commands look for the same conflict. -/
theorem result_answerOf (size : ℕ) (locks : Locks ι) (p : ι) (wh : Whence) (start len : ℤ)
    {type : LockType} {m : LockMode} (hm : type.mode = some m) {cmd : Cmd}
    (hcmd : cmd = .getlk ∨ cmd = .setlk) :
    result cmd (answerOf size locks p ⟨cmd, type, wh, start, len⟩) = 0 ↔
      ∃ r, Request.range size ⟨.setlk, type, wh, start, len⟩ = some r ∧
        RangeLock.conflict locks p r m = none := by
  have hrange : Request.range size ⟨cmd, type, wh, start, len⟩ =
      Request.range size ⟨.setlk, type, wh, start, len⟩ := rfl
  have hmode : LockType.ofMode m ≠ .unlck := by cases m <;> decide
  rw [result_eq_zero]
  unfold answerOf fcntl
  rw [hrange]
  cases Request.range size ⟨.setlk, type, wh, start, len⟩ with
  | none => rcases hcmd with rfl | rfl <;> simp
  | some r =>
    rcases hcmd with rfl | rfl
    · simp only [hm, if_true]
      cases hc : RangeLock.conflict locks p r m with
      | none => simp [hc]
      | some l => cases hl : l.mode <;> simp [hc, hl, LockType.ofMode]
    · by_cases hc : RangeLock.conflict locks p r m = none <;> simp [hm, hc]

/-- **`F_GETLK` tells what `F_SETLK` would do**, whatever the locks are. For `r` and `w`, the call of
`_lock` with the command `g` returns 0 if and only if the one with `s` does, and that is when the
range is valid and no other process has a byte of it in a mode that does not allow the request. For
`u`, the call with `g` returns -1. -/
theorem getlk_predicts (size : ℕ) (locks : Locks ι) (p : ι) (w : Byte) (start len : ℤ) :
    (∀ t type m, lockType t = some type → type.mode = some m →
      ((lock (answerOf size locks p) 'g'.toUInt8 t w start len).2 = 0 ↔
        (lock (answerOf size locks p) 's'.toUInt8 t w start len).2 = 0) ∧
      ((lock (answerOf size locks p) 's'.toUInt8 t w start len).2 = 0 ↔
        ∃ r, Request.range size ⟨.setlk, type, whence w, start, len⟩ = some r ∧
          ∀ b ∈ r, ∀ q m', q ≠ p → RangeLock.Held locks b q m' → m.Allows m')) ∧
      (lock (answerOf size locks p) 'g'.toUInt8 'u'.toUInt8 w start len).2 = -1 := by
  have hg : command 'g'.toUInt8 = some .getlk := by decide
  have hs : command 's'.toUInt8 = some .setlk := by decide
  refine ⟨?_, ?_⟩
  · intro t type m ht hm
    rw [lock_snd _ hg ht, lock_snd _ hs ht]
    have hget := result_answerOf size locks p (whence w) start len hm (Or.inl rfl)
    have hset := result_answerOf size locks p (whence w) start len hm (Or.inr rfl)
    refine ⟨hget.trans hset.symm, ?_⟩
    rw [hset]
    simp only [RangeLock.conflict_eq_none]
  · rw [lock_snd _ hg (show lockType 'u'.toUInt8 = some .unlck by decide)]
    unfold answerOf fcntl
    cases Request.range size ⟨.getlk, .unlck, whence w, start, len⟩ <;> rfl

end Ask

/-- Process 1 has ten bytes, and process 0 asks for those behind them. -/
theorem getlk_predicts_behind :
    (lock (answerOf 0 [⟨1, ⟨0, some 10⟩, .exclusive⟩] (0 : Fin 2)) 'g'.toUInt8 'r'.toUInt8
      's'.toUInt8 10 5).2 = 0 :=
  (((getlk_predicts 0 [⟨1, ⟨0, some 10⟩, .exclusive⟩] (0 : Fin 2) 's'.toUInt8 10 5).1 'r'.toUInt8
    .rdlck .shared (by decide) rfl).1).2 (by decide)

end LinuxDemo.FcntlLock
