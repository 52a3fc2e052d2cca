import LinuxDemo.Lib.Lts
import LinuxDemo.Time.Sleep

/-!
# Interrupted sleeps of `mySleep`

A signal that is caught interrupts a sleep, and `mySleep` starts it again. The branches for
`nanosleep` and `clock_nanosleep` start it with the time that is left, or with the same deadline;
the branch for `sleep` starts it with the whole time.

Time is in nanoseconds. An interrupted relative sleep reports what is left of it, or up to `r` more,
since the kernel rounds; starting again takes no time.

* `Branch`, `step`: the three loops that restart with what is left.
* `Pending`: when the current request ends, whatever the interruptions were.
* `ends_on_time`: the absolute branch ends on time, and the relative ones are late by at most `r`
  for every interruption.
* `sleepStep`: the loop of `sleep`.
* `asleep_iff`: the loop of `sleep` is within `k` seconds of its time after `k` interruptions if and
  only if the interrupted calls have slept for at most `k` seconds.
* `asleep_again`: an interruption after 9 of 10 seconds.
-/

namespace LinuxDemo.Sleep

open Lts

/-- `n` nanoseconds, as the kernel writes them. -/
def ofNs (n : ℕ) : Timespec := ⟨(n / 10 ^ 9 : ℕ), (n % 10 ^ 9 : ℕ)⟩

/-- `EINTR`. -/
def eintr : ℤ := 4

/-- `EINVAL`. -/
def einval : ℤ := 22

/-- The branches of `mySleep` that restart with what is left. -/
inductive Branch where
  | nanosleep
  | posixClockAbs
  | posixClockRelative
  deriving DecidableEq

/-- What happens to a call. -/
inductive Event where
  /-- A signal interrupts it after `elapsed`; `remain` is reported as left. -/
  | interrupted (elapsed remain : ℕ)
  /-- It is not interrupted. -/
  | returns
  deriving DecidableEq

structure State where
  now : ℕ
  nanoRequest : Timespec
  /-- The loop is left. -/
  ended : Bool
  deriving DecidableEq

/-- The time at which a call should end. -/
def Branch.due (b : Branch) (s : State) : ℤ :=
  match b with
  | .posixClockAbs => s.nanoRequest.ns
  | _ => s.now + s.nanoRequest.ns

/-- `ret` and `errno` for the error `code` of the kernel, 0 for none. -/
def Branch.result (b : Branch) (code : ℤ) : ℤ × ℤ :=
  match b with
  | .nanosleep => (if code = 0 then 0 else -1, code)
  | _ => (code, 0)

/-- The condition of the loop. -/
def Branch.again (b : Branch) (ret errno : ℤ) : Bool :=
  match b with
  | .nanosleep => ret = -1 && errno = eintr
  | _ => ret = eintr

/-- The loop goes on, or not, after a call that ended at `now` with `code`. -/
def Branch.after (b : Branch) (code : ℤ) (now : ℕ) (nanoRequest : Timespec) : State :=
  let (ret, errno) := b.result code
  ⟨now, nanoRequest, !b.again ret errno⟩

/-- A call, and the test of the loop. It fails for events that the kernel, which rounds by at most
`r`, cannot bring about. -/
def step (b : Branch) (r : ℕ) (s : State) (e : Event) : Option State :=
  if s.ended then none
  else if ¬(s.nanoRequest.Normalised ∧ 0 ≤ s.nanoRequest.tvSec) then
    some (b.after einval s.now s.nanoRequest)
  else
    match e with
    | .returns => some (b.after 0 (max s.now (b.due s).toNat) s.nanoRequest)
    | .interrupted elapsed remain =>
      if s.now + elapsed ≤ b.due s ∧ (b = .posixClockAbs ∨
          s.nanoRequest.ns ≤ elapsed + remain ∧ elapsed + remain ≤ s.nanoRequest.ns + r) then
        -- The absolute branch passes `NULL` for the remaining time.
        let nanoRequest := if b = .posixClockAbs then s.nanoRequest else ofNs remain
        some (b.after eintr (s.now + elapsed) nanoRequest)
      else none

/-- The state before the loop, when the branch is entered at `start`. -/
def start (b : Branch) (ms start : ℕ) : State :=
  match b with
  | .posixClockAbs => ⟨start, deadline ms (ofNs start), false⟩
  | _ => ⟨start, relative ms, false⟩

/-- A branch of `mySleep`. -/
def system (b : Branch) (r ms t₀ : ℕ) : Lts State Event := ofNext (start b ms t₀) (step b r)

/-! ## Restarts with what is left -/

theorem ofNs_ns (n : ℕ) : (ofNs n).ns = n := by
  unfold ofNs Timespec.ns
  dsimp only
  omega

theorem ofNs_valid (n : ℕ) : (ofNs n).Normalised ∧ 0 ≤ (ofNs n).tvSec := by
  unfold ofNs Timespec.Normalised
  dsimp only
  omega

/-- While the loop runs: the request is valid, and is due between `ms` milliseconds after the start
and `k` roundings later. -/
structure Pending (b : Branch) (r ms t₀ k : ℕ) (s : State) : Prop where
  running : s.ended = false
  normalised : s.nanoRequest.Normalised
  tvSec : 0 ≤ s.nanoRequest.tvSec
  now_le : s.now ≤ b.due s
  due_ge : (t₀ + ms * 10 ^ 6 : ℤ) ≤ b.due s
  due_le : b.due s ≤ t₀ + ms * 10 ^ 6 + k * r
  due_abs : b = .posixClockAbs → b.due s = t₀ + ms * 10 ^ 6

theorem pending_start (b : Branch) (r ms t₀ : ℕ) : Pending b r ms t₀ 0 (start b ms t₀) := by
  -- The three branches differ in the request and in when it is due.
  have hvalid : (start b ms t₀).nanoRequest.Normalised ∧ 0 ≤ (start b ms t₀).nanoRequest.tvSec := by
    cases b with
    | posixClockAbs =>
      exact ⟨deadline_normalised ms (ofNs_valid t₀).1, deadline_tvSec ms (ofNs_valid t₀).2⟩
    | _ => exact ⟨relative_normalised ms, relative_tvSec ms⟩
  have hdue : b.due (start b ms t₀) = t₀ + ms * 10 ^ 6 := by
    cases b with
    | posixClockAbs => exact (deadline_ns ms (ofNs t₀)).trans (by rw [ofNs_ns])
    | _ => exact congrArg ((t₀ : ℤ) + ·) (relative_ns ms)
  have hnow : (start b ms t₀).now = t₀ := by cases b <;> rfl
  have hrunning : (start b ms t₀).ended = false := by cases b <;> rfl
  refine ⟨hrunning, hvalid.1, hvalid.2, ?_, hdue.ge, ?_, fun _ => hdue⟩
  · rw [hdue, hnow]
    omega
  · rw [hdue]
    simp

/-- An interruption is followed by another call. -/
theorem after_eintr (b : Branch) (now : ℕ) (nanoRequest : Timespec) :
    b.after eintr now nanoRequest = ⟨now, nanoRequest, false⟩ := by
  cases b <;> rfl

theorem after_zero (b : Branch) (now : ℕ) (nanoRequest : Timespec) :
    b.after 0 now nanoRequest = ⟨now, nanoRequest, true⟩ := by
  cases b <;> rfl

/-- A call that is not interrupted ends when it is due. -/
theorem step_returns {b : Branch} {r ms t₀ k : ℕ} {s : State} (h : Pending b r ms t₀ k s) :
    step b r s .returns = some ⟨(b.due s).toNat, s.nanoRequest, true⟩ := by
  have hnow : s.now ≤ (b.due s).toNat := by
    have := h.now_le
    omega
  simp only [step, h.running, h.normalised, h.tvSec, and_self, not_true_eq_false, if_false,
    Bool.false_eq_true]
  rw [after_zero, max_eq_right hnow]

theorem step_interrupted {b : Branch} {r ms t₀ k : ℕ} {s s' : State} {elapsed remain : ℕ}
    (h : Pending b r ms t₀ k s) (hs : step b r s (.interrupted elapsed remain) = some s') :
    s.now + elapsed ≤ b.due s ∧ (b = .posixClockAbs ∨
      s.nanoRequest.ns ≤ elapsed + remain ∧ elapsed + remain ≤ s.nanoRequest.ns + r) ∧
      s' = ⟨s.now + elapsed, if b = .posixClockAbs then s.nanoRequest else ofNs remain, false⟩ := by
  simp only [step, h.running, h.normalised, h.tvSec, and_self, not_true_eq_false, if_false,
    Bool.false_eq_true, Option.ite_none_right_eq_some] at hs
  obtain ⟨⟨htime, hremain⟩, hs⟩ := hs
  rw [after_eintr] at hs
  exact ⟨htime, hremain, (Option.some.inj hs).symm⟩

/-- An interruption makes the request due at the same time, or up to `r` later. -/
theorem pending_step {b : Branch} {r ms t₀ k : ℕ} {s s' : State} {elapsed remain : ℕ}
    (h : Pending b r ms t₀ k s) (hs : step b r s (.interrupted elapsed remain) = some s') :
    Pending b r ms t₀ (k + 1) s' := by
  obtain ⟨htime, hremain, rfl⟩ := step_interrupted h hs
  have hle := h.due_le
  have hge := h.due_ge
  have hk : ((k + 1 : ℕ) : ℤ) * r = k * r + r := by
    push_cast
    ring
  by_cases habs : b = .posixClockAbs
  · subst habs
    rw [if_pos rfl]
    have hdue : Branch.due .posixClockAbs ⟨s.now + elapsed, s.nanoRequest, false⟩ =
        Branch.due .posixClockAbs s := rfl
    refine ⟨rfl, h.normalised, h.tvSec, htime, hge, ?_, fun _ => h.due_abs rfl⟩
    rw [hdue, hk]
    omega
  · have hdue : ∀ s, b.due s = s.now + s.nanoRequest.ns := by
      intro s
      cases b with
      | posixClockAbs => exact absurd rfl habs
      | _ => rfl
    obtain ⟨hmin, hmax⟩ := hremain.resolve_left habs
    rw [if_neg habs]
    have hdue' : b.due ⟨s.now + elapsed, ofNs remain, false⟩ = s.now + elapsed + remain := by
      rw [hdue, ofNs_ns]
      push_cast
      rfl
    rw [hdue] at hle hge
    refine ⟨rfl, (ofNs_valid remain).1, (ofNs_valid remain).2, ?_, ?_, ?_, fun h => absurd h habs⟩
    · rw [hdue']
      push_cast
      omega
    · rw [hdue']
      omega
    · rw [hdue', hk]
      omega

theorem pending_run {b : Branch} {r ms t₀ : ℕ} {tr : List Event} {s : State}
    (h : (system b r ms t₀).Run tr s) :
    (∀ e ∈ tr, e ≠ .returns) → Pending b r ms t₀ tr.length s := by
  refine Run.induct (I := fun tr s => (∀ e ∈ tr, e ≠ .returns) → Pending b r ms t₀ tr.length s)
    ?_ ?_ h
  · rintro s rfl _
    exact pending_start b r ms t₀
  · intro tr s e s' ih hs hint
    have hpending := ih fun e he => hint e (List.mem_append_left _ he)
    cases e with
    | returns => exact absurd rfl (hint .returns (by simp))
    | interrupted elapsed remain =>
      rw [List.length_append]
      exact pending_step hpending hs

/-- **Restarted sleeps end on time.** After any `k` interruptions the loop still runs, and when the
next call is not interrupted it ends: the absolute branch exactly `ms` milliseconds after its start,
the relative ones at most `k * r` later, and all of them at the same time when `r` is 0. -/
theorem ends_on_time {b : Branch} {r ms t₀ : ℕ} {tr : List Event} {s : State}
    (h : (system b r ms t₀).Run tr s) (hint : ∀ e ∈ tr, e ≠ .returns) :
    s.ended = false ∧ ∃ s', step b r s .returns = some s' ∧ s'.ended = true ∧
      (b = .posixClockAbs → s'.now = t₀ + ms * 10 ^ 6) ∧
      t₀ + ms * 10 ^ 6 ≤ s'.now ∧ s'.now ≤ t₀ + ms * 10 ^ 6 + tr.length * r ∧
      (r = 0 → s'.now = t₀ + ms * 10 ^ 6) := by
  have hpending := pending_run h hint
  have hge : t₀ + ms * 10 ^ 6 ≤ (b.due s).toNat := by
    have := hpending.due_ge
    omega
  have hle : (b.due s).toNat ≤ t₀ + ms * 10 ^ 6 + tr.length * r := by
    rw [Int.toNat_le]
    push_cast
    exact hpending.due_le
  refine ⟨hpending.running, _, step_returns hpending, rfl, ?_, hge, hle, ?_⟩
  · intro habs
    have := hpending.due_abs habs
    show (b.due s).toNat = _
    omega
  · rintro rfl
    rw [Nat.mul_zero, Nat.add_zero] at hle
    exact le_antisymm hle hge

theorem ends_on_time_interruptedTwice :
    ∃ s s', (system .nanosleep 50 1100 7).Run
        [.interrupted 300000000 800000050, .interrupted 800000000 50] s ∧
      step .nanosleep 50 s .returns = some s' ∧ 1100000007 ≤ s'.now ∧ s'.now ≤ 1100000107 := by
  obtain ⟨s, hs, -⟩ := exists_run_of_exec (start .nanosleep 1100 7) (step .nanosleep 50)
    [.interrupted 300000000 800000050, .interrupted 800000000 50] (fun _ => true) (by decide)
  obtain ⟨-, s', hstep, -, -, hge, hle, -⟩ := ends_on_time hs (by decide)
  exact ⟨s, s', hs, hstep, by omega, by simpa using hle⟩

/-! ## Restarts with the whole time -/

/-- What happens to a call of `sleep`. -/
inductive SleepEvent where
  | interrupted (elapsed : ℕ)
  | returns
  deriving DecidableEq

/-- The loop of `SleepType_sleep`, with the time spent asleep in it. -/
structure SleepState where
  asleep : ℕ
  ended : Bool
  deriving DecidableEq

/-- What an interrupted `sleep` returns: the seconds it has not slept, rounded up. -/
def unslept (ms elapsed : ℕ) : ℕ := (seconds ms * 10 ^ 9 - elapsed + (10 ^ 9 - 1)) / 10 ^ 9

/-- A call of `sleep`, and the test of the loop; `ret` is an `int`. -/
def sleepStep (ms : ℕ) (s : SleepState) (e : SleepEvent) : Option SleepState :=
  if s.ended then none
  else
    match e with
    | .returns => some ⟨s.asleep + seconds ms * 10 ^ 9, true⟩
    | .interrupted elapsed =>
      if elapsed < seconds ms * 10 ^ 9 then
        let ret := toSigned 32 (unslept ms elapsed)
        some ⟨s.asleep + elapsed, !decide (ret > 0)⟩
      else none

/-- The branch of `mySleep` for `sleep`. -/
def sleepSystem (ms : ℕ) : Lts SleepState SleepEvent := ofNext ⟨0, false⟩ (sleepStep ms)

/-- The time slept in interrupted calls. -/
def slept (tr : List SleepEvent) : ℕ :=
  (tr.map fun | .interrupted elapsed => elapsed | .returns => 0).sum

/-- An interruption restarts the loop, unless the time it reports is too long for an `int`. -/
theorem restarts {ms elapsed : ℕ} (hlt : elapsed < seconds ms * 10 ^ 9)
    (hms : seconds ms < 2 ^ 31) :
    toSigned 32 (unslept ms elapsed) > 0 := by
  have hunslept : unslept ms elapsed ≤ seconds ms ∧ 0 < unslept ms elapsed := by
    unfold unslept
    omega
  rw [toSigned_of_lt (by decide) (by omega) (by simp only [Nat.reduceSub]; omega)]
  omega

theorem asleep_run {ms : ℕ} {tr : List SleepEvent} {s : SleepState}
    (h : (sleepSystem ms).Run tr s) :
    (∀ e ∈ tr, e ≠ .returns) → s.asleep = slept tr ∧ (s.ended = true → 2 ^ 31 ≤ seconds ms) := by
  refine Run.induct (I := fun tr s => (∀ e ∈ tr, e ≠ .returns) →
    s.asleep = slept tr ∧ (s.ended = true → 2 ^ 31 ≤ seconds ms)) ?_ ?_ h
  · rintro s rfl _
    exact ⟨rfl, fun h => by cases h⟩
  · intro tr s e s' ih hs hint
    obtain ⟨hasleep, -⟩ := ih fun e he => hint e (List.mem_append_left _ he)
    cases e with
    | returns => exact absurd rfl (hint .returns (by simp))
    | interrupted elapsed =>
      change sleepStep ms s (.interrupted elapsed) = some s' at hs
      simp only [sleepStep, Option.ite_none_left_eq_some, Option.ite_none_right_eq_some] at hs
      obtain ⟨-, hlt, hs⟩ := hs
      cases hs
      refine ⟨?_, fun hended => ?_⟩
      · simp [slept, hasleep]
      · by_contra hms
        simp [restarts hlt (not_le.1 hms)] at hended

/-- **The loop of `sleep` is within `k` seconds of its time** after `k` interruptions if and only if
the interrupted calls have slept for at most `k` seconds, when `ms / 1000` is an `unsigned int`.
What the conversion takes off it comes on top; and when an interruption ends the loop, since it
reports more seconds than an `int` can hold, there is no call after it. -/
theorem asleep_iff {ms : ℕ} {tr : List SleepEvent} {s : SleepState}
    (h : (sleepSystem ms).Run tr s) (hint : ∀ e ∈ tr, e ≠ .returns) :
    (s.ended = false → ∃ s', sleepStep ms s .returns = some s' ∧ s'.ended = true ∧
      (s'.asleep ≤ (ms / 1000 + tr.length) * 10 ^ 9 ↔
        slept tr ≤ (tr.length + (ms / 1000 - seconds ms)) * 10 ^ 9)) ∧
    (s.ended = true → 2 ^ 31 ≤ seconds ms ∧
      (s.asleep ≤ (ms / 1000 + tr.length) * 10 ^ 9 ↔
        slept tr ≤ (tr.length + ms / 1000) * 10 ^ 9)) := by
  obtain ⟨hasleep, hended⟩ := asleep_run h hint
  refine ⟨fun hrun => ⟨⟨s.asleep + seconds ms * 10 ^ 9, true⟩, ?_, rfl, ?_⟩, fun hend => ?_⟩
  · rw [sleepStep, hrun]
    rfl
  · have hle : seconds ms ≤ ms / 1000 := Nat.mod_le _ _
    show s.asleep + seconds ms * 10 ^ 9 ≤ _ ↔ _
    rw [hasleep]
    omega
  · rw [hasleep, Nat.add_comm (ms / 1000)]
    exact ⟨hended hend, Iff.rfl⟩

theorem asleep_iff_early :
    ∃ s s', (sleepSystem 10000).Run [.interrupted 500000000, .interrupted 1500000000] s ∧
      sleepStep 10000 s .returns = some s' ∧ s'.asleep ≤ 12 * 10 ^ 9 := by
  obtain ⟨s, hs, hp⟩ := exists_run_of_exec ⟨0, false⟩ (sleepStep 10000)
    [.interrupted 500000000, .interrupted 1500000000] (fun s => s.ended = false) (by decide)
  obtain ⟨s', hstep, -, hiff⟩ := (asleep_iff hs (by decide)).1 (by simpa using hp)
  exact ⟨s, s', hs, hstep, hiff.2 (by decide)⟩

/-- **`sleep` starts over**: interrupted after 9 of 10 seconds, it sleeps for another 10. -/
theorem asleep_again :
    ∃ s, (sleepSystem 10000).Run [.interrupted 9000000000, .returns] s ∧ s.ended = true ∧
      ¬s.asleep ≤ (10000 / 1000 + 1) * 10 ^ 9 := by
  obtain ⟨s, hs, hp⟩ := exists_run_of_exec ⟨0, false⟩ (sleepStep 10000)
    [.interrupted 9000000000, .returns] (fun s => s = ⟨19000000000, true⟩) (by decide)
  have hstate : s = ⟨19000000000, true⟩ := by simpa using hp
  refine ⟨s, hs, by rw [hstate], ?_⟩
  rw [hstate]
  decide

end LinuxDemo.Sleep
