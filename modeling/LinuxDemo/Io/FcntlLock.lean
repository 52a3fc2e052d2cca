import LinuxDemo.Lib.CString

/-!
# The lock request of `io/file_lock/fcntl/main.c`

`main` takes a file, a command, a lock type, a start and a length, and optionally a whence and a
time to sleep. `_lock` maps the letters to the constants of `fcntl` and issues the request.

`main` stores the whence letter in `c`, which holds the command.

* `main`: the program, with the requests it issues.
* `described`: the request that the usage text describes.
* `request_iff`: `main` issues what is described if and only if there is no whence argument, nothing
  is to be issued for another reason, or the whence letter stands for the same command as the
  command letter.
* `request_astray`: `s` with the whence `e`, for which nothing is issued.
-/

namespace LinuxDemo.FcntlLock

/-- `F_GETLK`, `F_SETLK`, `F_SETLKW`. -/
inductive Cmd where
  | getlk
  | setlk
  | setlkw
  deriving DecidableEq

/-- `F_RDLCK`, `F_WRLCK`, `F_UNLCK`. -/
inductive LockType where
  | rdlck
  | wrlck
  | unlck
  deriving DecidableEq

/-- `SEEK_SET`, `SEEK_CUR`, `SEEK_END`. -/
inductive Whence where
  | set
  | cur
  | ofEnd
  deriving DecidableEq

/-- A call of `fcntl` with its `struct flock`. -/
structure Request where
  cmd : Cmd
  lType : LockType
  lWhence : Whence
  lStart : ℤ
  lLen : ℤ
  deriving DecidableEq

/-- What `fcntl` returns, and the `l_type` it leaves in the structure. -/
structure Answer where
  ret : ℤ
  lType : LockType

/-! ## The program -/

def gTestTwice : Bool := true

def gTestClose : Bool := false

/-- The first `switch` of `_lock`. -/
def command (c : Byte) : Option Cmd :=
  if c = 'g'.toUInt8 then some .getlk
  else if c = 's'.toUInt8 then some .setlk
  else if c = 'w'.toUInt8 then some .setlkw
  else none

/-- The second `switch` of `_lock`. -/
def lockType (t : Byte) : Option LockType :=
  if t = 'r'.toUInt8 then some .rdlck
  else if t = 'w'.toUInt8 then some .wrlck
  else if t = 'u'.toUInt8 then some .unlck
  else none

/-- The third `switch` of `_lock`. -/
def whence (w : Byte) : Whence :=
  if w = 'c'.toUInt8 then .cur
  else if w = 'e'.toUInt8 then .ofEnd
  else .set

/-- What `_lock` makes of the answer. -/
def result (cmd : Cmd) (answer : Answer) : ℤ :=
  let result : ℤ :=
    if cmd = .getlk then
      if answer.ret = -1 then -1 else if answer.lType = .unlck then 0 else -1
    else if answer.ret = 0 then 0 else -1
  if gTestClose && result = 0 then -1 else result

/-- `_lock`: the request, if the letters are known, and what is returned. -/
def lock (fcntl : Request → Answer) (c t w : Byte) (start len : ℤ) : Option Request × ℤ :=
  match command c with
  | none => (none, -1)
  | some cmd =>
    match lockType t with
    | none => (none, -1)
    | some type =>
      let fl : Request := ⟨cmd, type, whence w, start, len⟩
      (some fl, result cmd (fcntl fl))

/-- The rest of the system. -/
structure Env where
  /-- `open` succeeds in `_otherTest`. -/
  otherOpened : Bool
  /-- `open` succeeds in `main`. -/
  opened : Bool
  fcntl : Request → Answer

/-- The requests of `_otherTest`. -/
def otherTest (env : Env) : List Request :=
  if env.otherOpened then
    let call := (lock env.fcntl 's'.toUInt8 'w'.toUInt8 's'.toUInt8 0 10).1
    call.toList ++ call.toList
  else []

/-- What a run of `main` does. -/
structure Run where
  /-- The requests of `_otherTest`. -/
  other : List Request
  /-- The request of the call of `_lock` in `main`. -/
  request : Option Request
  /-- For how long `main` sleeps. -/
  slept : Option ℤ
  ret : ℤ

/-- `argv[i][0]`. -/
def letter (argv : List CString) (i : ℕ) : Option Byte := (argv[i]?).bind (·.char 0)

/-- `atoi(argv[i])`. -/
def number (argv : List CString) (i : ℕ) : Option ℤ := (argv[i]?).map atoi

/-- `main`. It fails where it would read outside `argv` or outside an argument. -/
def main (env : Env) (argv : List CString) : Option Run := do
  let argc := argv.length
  let other := if gTestTwice && argc > 1 then otherTest env else []
  if argc < 6 then return ⟨other, none, none, -1⟩
  if (← argv[1]?).bytes = literal ['-', '-', 'h', 'e', 'l', 'p'] then
    return ⟨other, none, none, -1⟩
  if !env.opened then return ⟨other, none, none, -1⟩
  let c ← letter argv 2
  let t ← letter argv 3
  let start ← number argv 4
  let length ← number argv 5
  if start = 0 && length = 0 then return ⟨other, none, none, -1⟩
  let w := 's'.toUInt8
  -- `c = argv[6][0]`: the whence argument replaces the command.
  let c ← (if argc > 6 then letter argv 6 else some c)
  let sleepTime ← (if argc > 7 then number argv 7 else some 10)
  let (request, result) := lock env.fcntl c t w start length
  return ⟨other, request, if result = 0 then some sleepTime else none, 0⟩

/-- The request that the usage text describes. -/
def described (argv : List CString) : Option Request := do
  let cmd ← (letter argv 2).bind command
  let type ← (letter argv 3).bind lockType
  let start ← number argv 4
  let length ← number argv 5
  if start = 0 ∧ length = 0 then none
  else some ⟨cmd, type, ((letter argv 6).map whence).getD .set, start, length⟩

/-! ## When the request is the described one -/

/-- There is no whence argument, or it makes no difference. -/
def Harmless (argv : List CString) : Prop :=
  argv.length = 6 ∨ (number argv 4 = some 0 ∧ number argv 5 = some 0) ∨
    (letter argv 3).bind lockType = none ∨
    (letter argv 6).bind command = (letter argv 2).bind command

/-- The request of known letters. -/
def requestOf (c t : Byte) (wh : Whence) (start len : ℤ) : Option Request :=
  (command c).bind fun cmd => (lockType t).map fun type => ⟨cmd, type, wh, start, len⟩

theorem lock_fst (fcntl : Request → Answer) (c t w : Byte) (start len : ℤ) :
    (lock fcntl c t w start len).1 = requestOf c t (whence w) start len := by
  unfold lock requestOf
  cases command c with
  | none => rfl
  | some cmd => cases lockType t <;> rfl

/-- A letter that stands for a command is no whence letter. -/
theorem whence_of_command {c : Byte} {cmd : Cmd} (h : command c = some cmd) : whence c = .set := by
  unfold command at h
  split_ifs at h with hg hs hw
  · rw [hg]
    rfl
  · rw [hs]
    rfl
  · rw [hw]
    rfl

/-- Another command letter and its whence make no difference only in these cases. -/
theorem requestOf_eq_iff {c₂ c₆ t : Byte} {start len : ℤ} :
    requestOf c₆ t .set start len = requestOf c₂ t (whence c₆) start len ↔
      lockType t = none ∨ command c₆ = command c₂ := by
  unfold requestOf
  cases lockType t with
  | none =>
    simp only [Option.map_none, true_or, iff_true]
    cases command c₆ <;> cases command c₂ <;> rfl
  | some type =>
    cases h₆ : command c₆ with
    | none => cases command c₂ <;> simp
    | some cmd =>
      rw [whence_of_command h₆]
      cases command c₂ <;> simp

section Main

variable {argv : List CString} {i : ℕ}

theorem exists_letter (h : i < argv.length) : ∃ c, letter argv i = some c := by
  unfold letter
  rw [List.getElem?_eq_getElem h, Option.bind_some]
  exact ⟨_, CString.char_zero _⟩

theorem exists_number (h : i < argv.length) : ∃ n, number argv i = some n := by
  unfold number
  rw [List.getElem?_eq_getElem h]
  exact ⟨_, rfl⟩

/-- The request of `main`, where `c` is the letter it takes for the command. -/
theorem main_request {env : Env} (hargc : 6 ≤ argv.length)
    (hhelp : ∀ s, argv[1]? = some s → s.bytes ≠ literal ['-', '-', 'h', 'e', 'l', 'p'])
    (hopened : env.opened = true) {c₂ c t : Byte} {start length : ℤ}
    (hc₂ : letter argv 2 = some c₂) (ht : letter argv 3 = some t)
    (hstart : number argv 4 = some start) (hlength : number argv 5 = some length)
    (hc : (if argv.length > 6 then letter argv 6 else some c₂) = some c) :
    (main env argv).map Run.request =
      some (if start = 0 ∧ length = 0 then none
        else (lock env.fcntl c t 's'.toUInt8 start length).1) := by
  obtain ⟨s, hs⟩ : ∃ s, argv[1]? = some s := ⟨_, List.getElem?_eq_getElem (by omega)⟩
  obtain ⟨sleepTime, hsleep⟩ :
      ∃ n, (if argv.length > 7 then number argv 7 else some 10) = some n := by
    split_ifs with h7
    · exact exists_number h7
    · exact ⟨10, rfl⟩
  have hargc' : ¬argv.length < 6 := by omega
  unfold main
  simp only [hargc', hs, hhelp s hs, hopened, hc₂, ht, hstart, hlength, hc, hsleep, if_false,
    Option.bind_eq_bind, Option.bind_some, Bool.not_true, Bool.false_eq_true, Bool.and_eq_true,
    decide_eq_true_eq]
  split_ifs <;> rfl

theorem described_eq {c₂ t : Byte} {start length : ℤ} (hc₂ : letter argv 2 = some c₂)
    (ht : letter argv 3 = some t) (hstart : number argv 4 = some start)
    (hlength : number argv 5 = some length) :
    described argv = if start = 0 ∧ length = 0 then none
      else requestOf c₂ t (((letter argv 6).map whence).getD .set) start length := by
  simp only [described, requestOf, hc₂, ht, hstart, hlength, Option.bind_eq_bind,
    Option.bind_some]
  cases command c₂ with
  | none => simp
  | some cmd => cases lockType t <;> simp

end Main

/-- **The request is the described one** if and only if the whence argument is missing or makes no
difference: start and length are both 0, the type letter is unknown, or the whence letter stands for
the same command as the command letter. -/
theorem request_iff {env : Env} {argv : List CString} (hargc : 6 ≤ argv.length)
    (hhelp : ∀ s, argv[1]? = some s → s.bytes ≠ literal ['-', '-', 'h', 'e', 'l', 'p'])
    (hopened : env.opened = true) :
    (main env argv).map Run.request = some (described argv) ↔ Harmless argv := by
  obtain ⟨c₂, hc₂⟩ : ∃ x, letter argv 2 = some x := exists_letter (by omega)
  obtain ⟨t, ht⟩ : ∃ x, letter argv 3 = some x := exists_letter (by omega)
  obtain ⟨start, hstart⟩ : ∃ x, number argv 4 = some x := exists_number (by omega)
  obtain ⟨length, hlength⟩ : ∃ x, number argv 5 = some x := exists_number (by omega)
  rw [described_eq hc₂ ht hstart hlength]
  unfold Harmless
  by_cases h6 : argv.length > 6
  · obtain ⟨c₆, hc₆⟩ := exists_letter h6
    rw [main_request hargc hhelp hopened hc₂ ht hstart hlength ((if_pos h6).trans hc₆), lock_fst]
    have hargc' : argv.length ≠ 6 := by omega
    simp only [hc₂, ht, hstart, hlength, hc₆, hargc', Option.bind_some, Option.map_some,
      Option.getD_some, Option.some.injEq, false_or]
    by_cases hzero : start = 0 ∧ length = 0
    · simp [hzero]
    · rw [if_neg hzero, if_neg hzero, or_iff_right hzero]
      exact requestOf_eq_iff
  · have hnone : letter argv 6 = none := by
      unfold letter
      rw [List.getElem?_eq_none (by omega)]
      rfl
    have hargc' : argv.length = 6 := by omega
    rw [main_request hargc hhelp hopened hc₂ ht hstart hlength (if_neg h6), lock_fst, hnone]
    exact ⟨fun _ => Or.inl hargc', fun _ => rfl⟩

/-- `fcntl` reports no other lock. -/
def free : Env := ⟨true, true, fun _ => ⟨0, .unlck⟩⟩

theorem request_iff_noWhence :
    (main free (arguments [['a'], ['f'], ['w'], ['r'], ['5'], ['1', '0']])).map Run.request =
      some (some ⟨.setlkw, .rdlck, .set, 5, 10⟩) := by
  have hdescribed : described (arguments [['a'], ['f'], ['w'], ['r'], ['5'], ['1', '0']]) =
      some ⟨.setlkw, .rdlck, .set, 5, 10⟩ := by decide
  rw [← hdescribed]
  exact (request_iff (by decide) (by decide) rfl).2 (Or.inl (by decide))

/-- **The whence letter is taken for the command**: with `s w 0 10 e` nothing is issued. -/
theorem request_astray :
    ¬∀ (env : Env) (argv : List CString), 6 ≤ argv.length →
      (∀ s, argv[1]? = some s → s.bytes ≠ literal ['-', '-', 'h', 'e', 'l', 'p']) →
      env.opened = true → (main env argv).map Run.request = some (described argv) := by
  intro h
  have hastray := h free (arguments [['a'], ['f'], ['s'], ['w'], ['0'], ['1', '0'], ['e']])
    (by decide) (by decide) rfl
  revert hastray
  decide

end LinuxDemo.FcntlLock
