import LinuxDemo.Lib.CString

/-!
# The arguments of `io/file_lock/flock/main.c`

`main` accepts its second argument when `strchr("sx", argv[2][0])` finds something, and then reads
`argv[2][1]`. For the empty argument `argv[2][0]` is the terminator, which `strchr` finds too.

* `usage`, `lockTypeOf`: the test, and the lock that is requested.
* `main`: the program.
* `validated_iff`: the arguments are handled as the usage text says if and only if the test does not
  get to an empty second argument.
* `empty_accepted`: the empty argument is accepted, and then read behind its end.
-/

namespace LinuxDemo.Flock

def lockSh : ℕ := 1

def lockEx : ℕ := 2

def lockNb : ℕ := 4

/-- `argv[i][j]`. -/
def charAt (argv : List CString) (i j : ℕ) : Option Byte := (argv[i]?).bind (·.char j)

/-- The condition under which `main` prints its usage. It fails where it would read outside `argv`
or outside an argument. -/
def usage (argv : List CString) : Option Bool := do
  if argv.length < 3 then return true
  if (← argv[1]?).bytes = literal ['-', '-', 'h', 'e', 'l', 'p'] then return true
  return (strchr (literal ['s', 'x']) (← charAt argv 2 0)).isNone

/-- The `lockType` of `main`. -/
def lockTypeOf (argv : List CString) : Option ℕ := do
  let lockType := if (← charAt argv 2 0) = 's'.toUInt8 then lockSh else lockEx
  if (← charAt argv 2 1) = 'n'.toUInt8 then return lockType ||| lockNb
  return lockType

/-- What the calls of `main` return. -/
structure Env where
  opened : Bool
  locked : Bool
  unlocked : Bool

/-- How `main` ends. -/
inductive Outcome where
  | usage
  | openFailed
  | lockFailed (lockType : ℕ)
  | unlockFailed (lockType : ℕ) (sleepTime : ℤ)
  /-- The lock was held and released, and the three calls of `_otherTest` follow. -/
  | finished (lockType : ℕ) (sleepTime : ℤ)
  deriving DecidableEq

/-- `main`. -/
def main (env : Env) (argv : List CString) : Option Outcome := do
  if ← usage argv then return .usage
  let lockType ← lockTypeOf argv
  let sleepTime ← (if argv.length > 3 then (argv[3]?).map atoi else some 10)
  if !env.opened then return .openFailed
  if !env.locked then return .lockFailed lockType
  if !env.unlocked then return .unlockFailed lockType sleepTime
  return .finished lockType sleepTime

/-! ## What is accepted -/

/-- The arguments that the usage text asks for. -/
def Described (argv : List CString) : Prop :=
  3 ≤ argv.length ∧
    (∀ s, argv[1]? = some s → s.bytes ≠ literal ['-', '-', 'h', 'e', 'l', 'p']) ∧
    (charAt argv 2 0 = some 's'.toUInt8 ∨ charAt argv 2 0 = some 'x'.toUInt8)

/-- The lock that the usage text describes: shared for `s`, exclusive for `x`, nonblocking when `n`
follows. -/
def described (argv : List CString) : Option ℕ :=
  let lockType :=
    if charAt argv 2 0 = some 's'.toUInt8 then some lockSh
    else if charAt argv 2 0 = some 'x'.toUInt8 then some lockEx
    else none
  lockType.map fun t => if charAt argv 2 1 = some 'n'.toUInt8 then t + lockNb else t

/-- The lock that was requested. -/
def Outcome.requested : Outcome → Option ℕ
  | .usage | .openFailed => none
  | .lockFailed lockType | .unlockFailed lockType _ | .finished lockType _ => some lockType

/-- `main` goes past its usage check with the described arguments only. It then reads nothing
outside the arguments, and requests the described lock if the file can be opened. -/
def Validated (env : Env) (argv : List CString) : Prop :=
  (main env argv ≠ some .usage ↔ Described argv) ∧
    (main env argv ≠ some .usage →
      ∃ o, main env argv = some o ∧ (env.opened = true → o.requested = described argv))

/-- The test gets to an empty second argument. -/
def EmptySecond (argv : List CString) : Prop :=
  3 ≤ argv.length ∧
    (∀ s, argv[1]? = some s → s.bytes ≠ literal ['-', '-', 'h', 'e', 'l', 'p']) ∧
    ∃ s, argv[2]? = some s ∧ s.bytes = []

variable {env : Env} {argv : List CString}

theorem main_of_usage (h : usage argv = some true) : main env argv = some .usage := by
  simp [main, h]

/-- With a known lock, `main` runs to its end and requests that lock. -/
theorem main_of_lockType (env : Env) (h : usage argv = some false) {t : ℕ}
    (ht : lockTypeOf argv = some t) :
    ∃ o, main env argv = some o ∧ o ≠ .usage ∧ (env.opened = true → o.requested = some t) := by
  obtain ⟨sleepTime, hsleep⟩ :
      ∃ n, (if argv.length > 3 then (argv[3]?).map atoi else some 10) = some n := by
    split_ifs with h3
    · exact ⟨_, by rw [List.getElem?_eq_getElem h3]; rfl⟩
    · exact ⟨10, rfl⟩
  unfold main
  simp only [h, ht, hsleep, Option.bind_eq_bind, Option.bind_some, Bool.false_eq_true, if_false]
  cases env.opened with
  | false => exact ⟨.openFailed, rfl, by simp, fun hx => by cases hx⟩
  | true =>
    cases env.locked with
    | false => exact ⟨.lockFailed t, rfl, by simp, fun _ => rfl⟩
    | true =>
      cases env.unlocked with
      | false => exact ⟨.unlockFailed t sleepTime, rfl, by simp, fun _ => rfl⟩
      | true => exact ⟨.finished t sleepTime, rfl, by simp, fun _ => rfl⟩

/-- What the test says about the second argument. -/
theorem usage_eq (hargc : 3 ≤ argv.length)
    (hhelp : ∀ s, argv[1]? = some s → s.bytes ≠ literal ['-', '-', 'h', 'e', 'l', 'p'])
    {c : Byte} (hc : charAt argv 2 0 = some c) :
    usage argv = some (strchr (literal ['s', 'x']) c).isNone := by
  obtain ⟨s₁, hs₁⟩ : ∃ s, argv[1]? = some s := ⟨_, List.getElem?_eq_getElem (by omega)⟩
  have hargc' : ¬argv.length < 3 := by omega
  simp [usage, hargc', hs₁, hhelp s₁ hs₁, hc]

/-- The letters `s` and `x` are found, and so is the terminator. -/
theorem strchr_sx {c : Byte} :
    strchr (literal ['s', 'x']) c = none ↔ c ≠ 's'.toUInt8 ∧ c ≠ 'x'.toUInt8 ∧ c ≠ 0 := by
  rw [strchr_eq_none]
  simp [literal, and_assoc]

/-- The described lock of an argument that starts with `s` or `x`. -/
theorem lockTypeOf_eq {c d : Byte} (hc : charAt argv 2 0 = some c) (hd : charAt argv 2 1 = some d)
    (hsx : c = 's'.toUInt8 ∨ c = 'x'.toUInt8) :
    ∃ t, lockTypeOf argv = some t ∧ described argv = some t := by
  have hne : 'x'.toUInt8 ≠ 's'.toUInt8 := by decide
  rcases hsx with rfl | rfl <;> by_cases hn : d = 'n'.toUInt8 <;>
    simp [lockTypeOf, described, hc, hd, hn, hne, lockSh, lockEx, lockNb]

/-- The test is not reached, or is true: the usage is printed, as it should be. -/
theorem validated_of_usage (h : usage argv = some true) (hd : ¬Described argv) :
    Validated env argv := by
  have hmain : main env argv = some .usage := main_of_usage h
  exact ⟨⟨fun hne => absurd hmain hne, fun hx => absurd hx hd⟩, fun hne => absurd hmain hne⟩

/-- An empty second argument passes the test, and its second character is read. -/
theorem not_validated_of_empty (hargc : 3 ≤ argv.length)
    (hhelp : ∀ s, argv[1]? = some s → s.bytes ≠ literal ['-', '-', 'h', 'e', 'l', 'p'])
    {s : CString} (hs : argv[2]? = some s) (hempty : s.bytes = []) : ¬Validated env argv := by
  have hc : charAt argv 2 0 = some 0 := by simp [charAt, hs, CString.char, hempty]
  have hd : charAt argv 2 1 = none := by simp [charAt, hs, CString.char, hempty]
  have husage : usage argv = some false := usage_eq hargc hhelp hc
  have hmain : main env argv = none := by simp [main, husage, lockTypeOf, hc, hd]
  intro h
  obtain ⟨o, ho, -⟩ := h.2 (by rw [hmain]; simp)
  rw [hmain] at ho
  cases ho

/-- Any other second argument is handled as described. -/
theorem validated_of_nonempty (hargc : 3 ≤ argv.length)
    (hhelp : ∀ s, argv[1]? = some s → s.bytes ≠ literal ['-', '-', 'h', 'e', 'l', 'p'])
    {s : CString} (hs : argv[2]? = some s) (hne : s.bytes ≠ []) : Validated env argv := by
  obtain ⟨c, l, hbytes⟩ := List.exists_cons_of_ne_nil hne
  have hchar : s.char 0 = some c := by rw [s.char_zero, hbytes]; rfl
  have hc : charAt argv 2 0 = some c := by simpa [charAt, hs] using hchar
  have hzero : c ≠ 0 := by
    rintro rfl
    exact s.nonzero (by rw [hbytes]; exact List.mem_cons_self)
  have husage := usage_eq hargc hhelp hc
  by_cases hsx : c = 's'.toUInt8 ∨ c = 'x'.toUInt8
  · obtain ⟨d, hd⟩ := CString.char_succ hchar hzero
    obtain ⟨t, ht, ht'⟩ := lockTypeOf_eq hc (d := d) (by simpa [charAt, hs] using hd) hsx
    have hfound : strchr (literal ['s', 'x']) c ≠ none := by
      rw [Ne, strchr_sx]
      rintro ⟨h₁, h₂, -⟩
      exact hsx.elim h₁ h₂
    have hpast : usage argv = some false := by
      rw [husage, Option.isNone_eq_false_iff.2 (Option.isSome_iff_ne_none.2 hfound)]
    obtain ⟨o, ho, hne', hreq⟩ := main_of_lockType env hpast ht
    refine ⟨⟨fun _ => ⟨hargc, hhelp, ?_⟩, fun _ => ?_⟩, fun _ => ⟨o, ho, fun h => ?_⟩⟩
    · rw [hc]
      exact hsx.imp (congrArg some) (congrArg some)
    · rw [ho]
      exact fun h => hne' (Option.some.inj h)
    · rw [hreq h, ht']
  · obtain ⟨h₁, h₂⟩ := not_or.1 hsx
    apply validated_of_usage
    · rw [husage, strchr_sx.2 ⟨h₁, h₂, hzero⟩]
      rfl
    · rintro ⟨-, -, h⟩
      rw [hc] at h
      exact h.elim (fun h => h₁ (Option.some.inj h)) fun h => h₂ (Option.some.inj h)

/-- **The arguments are handled as described** if and only if the test does not get to an empty
second argument. -/
theorem validated_iff : Validated env argv ↔ ¬EmptySecond argv := by
  by_cases hargc : 3 ≤ argv.length
  swap
  · refine ⟨fun _ h => hargc h.1, fun _ => validated_of_usage ?_ fun h => hargc h.1⟩
    simp [usage, Nat.lt_of_not_le hargc]
  by_cases hhelp : ∀ s, argv[1]? = some s → s.bytes ≠ literal ['-', '-', 'h', 'e', 'l', 'p']
  swap
  · refine ⟨fun _ h => hhelp h.2.1, fun _ => validated_of_usage ?_ fun h => hhelp h.2.1⟩
    push Not at hhelp
    obtain ⟨s₁, hs₁, hhelp⟩ := hhelp
    have hargc' : ¬argv.length < 3 := by omega
    simp [usage, hargc', hs₁, hhelp]
  obtain ⟨s, hs⟩ : ∃ s, argv[2]? = some s := ⟨_, List.getElem?_eq_getElem (by omega)⟩
  constructor
  · rintro h ⟨-, -, s', hs', hempty⟩
    exact not_validated_of_empty hargc hhelp hs' hempty h
  · intro h
    apply validated_of_nonempty hargc hhelp hs
    intro hempty
    exact h ⟨hargc, hhelp, s, hs, hempty⟩

/-- **The empty argument is accepted**, and read behind its end. -/
theorem empty_accepted :
    ¬∀ (env : Env) (argv : List CString), Validated env argv := by
  have hnot : ¬Validated ⟨true, true, true⟩ (arguments [['a'], ['f'], []]) :=
    not_validated_of_empty (by decide) (by decide) (s := ⟨[], by decide⟩) (by decide) rfl
  intro h
  exact hnot (h _ _)

end LinuxDemo.Flock
