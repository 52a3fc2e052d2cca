import LinuxDemo.Time.Timespec

/-!
# The requests of `mySleep` in `time/sleep/main.c`

`mySleep` sleeps for `ms` milliseconds in eight ways. Each encodes the time in its own unit and its
own type. The seconds of a `timespec` or `timeval` are not bounded here: 64 bits hold `ms / 1000`,
and its sum with any time that a clock shows.

* `mySleep`: the first call of every branch, with its argument.
* `same_time_iff`: all but `sleep` ask for `ms` milliseconds if and only if `ms * 1000` fits the
  32 bits of the argument of `usleep`.
* `usleep_wraps`: 5000 seconds.
-/

namespace LinuxDemo.Sleep

inductive SleepType where
  | sleep
  | usleep
  | nanosleep
  | select
  | poll
  | epoll
  | posixClockAbs
  | posixClockRelative
  deriving DecidableEq

/-- `struct timeval`. -/
structure Timeval where
  tvSec : ℤ
  tvUsec : ℤ
  deriving DecidableEq

/-- A call that sleeps. -/
inductive Call where
  | sleep (seconds : ℤ)
  | usleep (usec : ℤ)
  | nanosleep (request : Timespec)
  | select (timeout : Timeval)
  | poll (timeout : ℤ)
  | epollWait (timeout : ℤ)
  /-- `clock_nanosleep` with `TIMER_ABSTIME`. -/
  | clockNanosleepAbs (request : Timespec)
  | clockNanosleep (request : Timespec)
  deriving DecidableEq

/-- The argument of `sleep`, an `unsigned int`. -/
def seconds (ms : ℕ) : ℕ := ms / 1000 % 2 ^ 32

/-- `nanoRequest` of the two relative branches. -/
def relative (ms : ℕ) : Timespec := ⟨ms / 1000, ms % 1000 * 1000000⟩

/-- `nanoRequest` of `SleepType_posixClock_abs`, when the clock shows `now`. -/
def deadline (ms : ℕ) (now : Timespec) : Timespec :=
  let tvSec := now.tvSec + ms / 1000
  let tvNsec := now.tvNsec + ms % 1000 * 1000000
  if tvNsec ≥ 1000000000 then ⟨tvSec + 1, tvNsec - 1000000000⟩ else ⟨tvSec, tvNsec⟩

/-- The first call of a branch of `mySleep`. -/
def mySleep (ms : ℕ) (now : Timespec) : SleepType → Call
  | .sleep => .sleep (seconds ms)
  -- A `useconds_t` has 32 bits.
  | .usleep => .usleep (toUnsigned 32 (toUnsigned 64 (ms * 1000)))
  | .nanosleep => .nanosleep (relative ms)
  | .select => .select ⟨ms / 1000, ms % 1000 * 1000⟩
  | .poll => .poll (toSigned 32 ms)
  | .epoll => .epollWait (toSigned 32 ms)
  | .posixClockAbs => .clockNanosleepAbs (deadline ms now)
  | .posixClockRelative => .clockNanosleep (relative ms)

/-- The nanoseconds that a call asks for; `none` when it asks to sleep for ever. -/
def Call.duration (now : Timespec) : Call → Option ℤ
  | .sleep seconds => some (seconds * 10 ^ 9)
  | .usleep usec => some (usec * 1000)
  | .nanosleep request | .clockNanosleep request => some request.ns
  | .select timeout => some (timeout.tvSec * 10 ^ 9 + timeout.tvUsec * 1000)
  | .poll timeout | .epollWait timeout => if timeout < 0 then none else some (timeout * 10 ^ 6)
  | .clockNanosleepAbs request => some (request.ns - now.ns)

/-- The fractions of a second in the argument are less than a second. -/
def Call.Normalised : Call → Prop
  | .nanosleep request | .clockNanosleepAbs request | .clockNanosleep request => request.Normalised
  | .select timeout => 0 ≤ timeout.tvUsec ∧ timeout.tvUsec < 10 ^ 6
  | _ => True

/-- Every branch but `sleep` asks for `ms` milliseconds, with a normalised argument. -/
def SameTime (ms : ℕ) (now : Timespec) : Prop :=
  ∀ type, type ≠ .sleep → (mySleep ms now type).duration now = some (ms * 10 ^ 6 : ℤ) ∧
    (mySleep ms now type).Normalised

/-! ## The encodings -/

theorem relative_normalised (ms : ℕ) : (relative ms).Normalised := by
  unfold relative Timespec.Normalised
  dsimp only
  omega

theorem relative_tvSec (ms : ℕ) : 0 ≤ (relative ms).tvSec := by
  unfold relative
  dsimp only
  omega

theorem relative_ns (ms : ℕ) : (relative ms).ns = ms * 10 ^ 6 := by
  unfold relative Timespec.ns
  dsimp only
  omega

theorem deadline_normalised (ms : ℕ) {now : Timespec} (h : now.Normalised) :
    (deadline ms now).Normalised := by
  unfold deadline Timespec.Normalised at *
  dsimp only
  split_ifs <;> dsimp only <;> omega

theorem deadline_tvSec (ms : ℕ) {now : Timespec} (h : 0 ≤ now.tvSec) :
    0 ≤ (deadline ms now).tvSec := by
  unfold deadline
  dsimp only
  split_ifs <;> dsimp only <;> omega

theorem deadline_ns (ms : ℕ) (now : Timespec) : (deadline ms now).ns = now.ns + ms * 10 ^ 6 := by
  unfold deadline Timespec.ns
  dsimp only
  split_ifs <;> dsimp only <;> omega

/-- The argument of `usleep` has the right value as long as it fits. -/
theorem usleep_iff {ms : ℕ} (hms : ms ≤ 2 ^ 31 - 1) :
    toUnsigned 32 (toUnsigned 64 (ms * 1000)) * 1000 = (ms * 10 ^ 6 : ℤ) ↔ ms * 1000 < 2 ^ 32 := by
  unfold toUnsigned
  omega

/-- **All ask for the same time** if and only if `ms * 1000` fits 32 bits. -/
theorem same_time_iff {ms : ℕ} (hms : ms ≤ 2 ^ 31 - 1) {now : Timespec} (hnow : now.Normalised) :
    SameTime ms now ↔ ms * 1000 < 2 ^ 32 := by
  constructor
  · intro h
    exact (usleep_iff hms).1 (Option.some.inj (h .usleep (by simp)).1)
  · intro hfits type hne
    have hint : toSigned 32 ms = ms := toSigned_of_lt (by decide) (by omega) (by omega)
    have htimeout : (if toSigned 32 ms < 0 then none else some (toSigned 32 ms * 10 ^ 6)) =
        some (ms * 10 ^ 6 : ℤ) := by
      rw [hint, if_neg (by omega)]
    cases type with
    | sleep => exact absurd rfl hne
    | usleep => exact ⟨congrArg some ((usleep_iff hms).2 hfits), trivial⟩
    | nanosleep => exact ⟨congrArg some (relative_ns ms), relative_normalised ms⟩
    | select =>
      refine ⟨congrArg some ?_, ?_, ?_⟩ <;> dsimp only <;> omega
    | poll => exact ⟨htimeout, trivial⟩
    | epoll => exact ⟨htimeout, trivial⟩
    | posixClockAbs =>
      refine ⟨congrArg some ?_, deadline_normalised ms hnow⟩
      rw [deadline_ns]
      ring
    | posixClockRelative => exact ⟨congrArg some (relative_ns ms), relative_normalised ms⟩

theorem same_time_iff_default : SameTime 1100 ⟨3, 950000000⟩ :=
  (same_time_iff (by decide) (by decide)).2 (by decide)

/-- **`usleep` is asked for less** when `ms * 1000` does not fit: 705 seconds instead of 5000. -/
theorem usleep_wraps :
    mySleep 5000000 ⟨0, 0⟩ .usleep = .usleep 705032704 ∧
      ¬∀ (ms : ℕ) (now : Timespec), ms ≤ 2 ^ 31 - 1 → now.Normalised → SameTime ms now := by
  refine ⟨rfl, fun h => ?_⟩
  have hsame := (h 5000000 ⟨0, 0⟩ (by decide) (by decide) .usleep (by simp)).1
  revert hsame
  decide

end LinuxDemo.Sleep
