import LinuxDemo.Time.Ticks

/-!
# The ticks of `timer/linux/main.c`

`_getTicks` rounds the time of the monotonic clock to milliseconds, and `_getInterval` is the
difference from the ticks at the start, in seconds. Both are computed without a sign. `main` prints
the interval at every expiry of a timer, up to a number of rounds.

* `ticks_run_forward`: for clock readings in order, the difference of the ticks does not wrap
  around, is off by less than a millisecond and does not decrease.
* `main_forward`: so the intervals that `main` prints never decrease.
-/

namespace LinuxDemo.LinuxTimer

/-! ## The program -/

/-- `_getTicks`, when the clock shows `tp`. -/
def getTicks (tp : Timespec) : Option ℤ := do
  let sec ← signed 64 (tp.tvSec * 1000)
  let ms ← truncUnsigned 64 ((tp.tvNsec : ℚ) / 1000000 + 1 / 2)
  return toUnsigned 64 (toUnsigned 64 sec + ms)

/-- `_getTicks() - g_initTime`. -/
def sinceInit (gInitTime ticks : ℤ) : ℤ := toUnsigned 64 (ticks - gInitTime)

/-- `_getInterval`. The division by `1000.` is exact. -/
def getInterval (gInitTime : ℤ) (tp : Timespec) : Option ℚ :=
  (getTicks tp).map fun ticks => sinceInit gInitTime ticks / 1000

/-- A timer that is ready. -/
structure Expiry where
  /-- What the clock shows. -/
  now : Timespec
  /-- What `read` returns. -/
  readSize : ℤ
  itValue : Timespec
  itInterval : Timespec
  deriving DecidableEq

/-- What `epoll_wait` returns. -/
inductive Wait where
  /-- `-1`, also for `EINTR`. -/
  | failed
  | timeout
  /-- An event without `EPOLLIN`. -/
  | other
  | ready (x : Expiry)
  deriving DecidableEq

/-- What is printed for an expiry. -/
structure Line where
  interval : ℚ
  /-- `it_value` and `it_interval`, if `read` has returned `sizeof(u_int64_t)`. -/
  times : Option (ℤ × ℤ)

/-- `g_maxCallbackCount`. -/
def gMaxCallbackCount : ℕ := 10

/-- The lines of one expiry. -/
def expire (gInitTime : ℤ) (x : Expiry) : Option Line := do
  let interval ← getInterval gInitTime x.now
  if x.readSize ≠ 8 then return ⟨interval, none⟩
  let itValue ← timespec2MS x.itValue
  let itInterval ← timespec2MS x.itInterval
  return ⟨interval, some (itValue, itInterval)⟩

/-- The loop of `main`, with the number of rounds that are left. -/
def loop (gInitTime : ℤ) : ℕ → List Wait → Option (List Line)
  | 0, _ => some []
  | _ + 1, [] => some []
  | n + 1, .ready x :: waits => do
    let line ← expire gInitTime x
    let lines ← loop gInitTime n waits
    return line :: lines
  | n + 1, _ :: waits => loop gInitTime n waits

/-- `main`, when the clock shows `start` at the beginning. -/
def main (start : Timespec) (waits : List Wait) : Option (List Line) := do
  let gInitTime ← getTicks start
  loop gInitTime gMaxCallbackCount waits

/-! ## Ticks -/

theorem ms_mono {t₀ t₁ : Timespec} (h : t₀.ns ≤ t₁.ns) : t₀.ms ≤ t₁.ms := by
  unfold Timespec.ms
  omega

section Readings

variable {t₀ t₁ t₂ : Timespec}

/-- **The result of `_getTicks`.** -/
theorem getTicks_eq (h : t₁.Reading) : getTicks t₁ = some t₁.ms := by
  have hsec₀ := h.tvSec_nonneg
  have hsigned : signed 64 (t₁.tvSec * 1000) = some (t₁.tvSec * 1000) :=
    signed_of_lt 63 (by omega) h.tvSec_lt
  simp only [getTicks, hsigned, h.truncUnsigned_eq, Option.bind_eq_bind, Option.bind_some]
  exact congrArg some h.toUnsigned_sum

/-- The difference of the ticks does not wrap around. -/
theorem sinceInit_eq (h₀ : t₀.Reading) (h₁ : t₁.Reading) (h : t₀.ns ≤ t₁.ns) :
    sinceInit t₀.ms t₁.ms = t₁.ms - t₀.ms := by
  have hle := ms_mono h
  have hnonneg := h₀.ms_nonneg
  have hlt := h₁.ms_lt
  exact toUnsigned_of_lt (by omega) (by omega)

/-- The difference of two rounded times. -/
theorem abs_ms_sub_lt (t₀ t₁ : Timespec) :
    |(t₁.ms - t₀.ms) * 10 ^ 6 - (t₁.ns - t₀.ns)| < 10 ^ 6 := by
  rw [abs_lt]
  unfold Timespec.ms
  omega

/-- **Rounded ticks never run backwards.** For readings in order, the difference from the ticks at
the start does not wrap around, it is less than a millisecond off the time that has passed, and
later readings give no smaller one. `timespec2MS` computes the same ticks. -/
theorem ticks_run_forward (h₀ : t₀.Reading) (h₁ : t₁.Reading) (h₂ : t₂.Reading)
    (h₀₁ : t₀.ns ≤ t₁.ns) (h₁₂ : t₁.ns ≤ t₂.ns) :
    ∃ gInitTime ticks₁ ticks₂, getTicks t₀ = some gInitTime ∧ getTicks t₁ = some ticks₁ ∧
      getTicks t₂ = some ticks₂ ∧ sinceInit gInitTime ticks₁ = ticks₁ - gInitTime ∧
      |sinceInit gInitTime ticks₁ * 10 ^ 6 - (t₁.ns - t₀.ns)| < 10 ^ 6 ∧
      sinceInit gInitTime ticks₁ ≤ sinceInit gInitTime ticks₂ ∧ timespec2MS t₁ = getTicks t₁ := by
  have hsince₁ := sinceInit_eq h₀ h₁ h₀₁
  have hsince₂ := sinceInit_eq h₀ h₂ (h₀₁.trans h₁₂)
  refine ⟨t₀.ms, t₁.ms, t₂.ms, getTicks_eq h₀, getTicks_eq h₁, getTicks_eq h₂, hsince₁, ?_, ?_, ?_⟩
  · rw [hsince₁]
    exact abs_ms_sub_lt t₀ t₁
  · rw [hsince₁, hsince₂]
    exact Int.sub_le_sub_right (ms_mono h₁₂) _
  · rw [h₁.timespec2MS_eq, getTicks_eq h₁]

end Readings

theorem ticks_run_forward_carry :
    ∃ gInitTime ticks₁, getTicks ⟨1, 999500000⟩ = some gInitTime ∧
      getTicks ⟨2, 499999⟩ = some ticks₁ ∧ sinceInit gInitTime ticks₁ = ticks₁ - gInitTime := by
  have h₀ : Timespec.Reading ⟨1, 999500000⟩ := ⟨by decide, by decide, by decide⟩
  have h₁ : Timespec.Reading ⟨2, 499999⟩ := ⟨by decide, by decide, by decide⟩
  have h₂ : Timespec.Reading ⟨2, 500000⟩ := ⟨by decide, by decide, by decide⟩
  obtain ⟨gInitTime, ticks₁, -, hinit, hticks, -, hsince, -⟩ :=
    ticks_run_forward h₀ h₁ h₂ (by decide) (by decide)
  exact ⟨gInitTime, ticks₁, hinit, hticks, hsince⟩

/-! ## The printed intervals -/

/-- The expiries that are reported. -/
def expiries (waits : List Wait) : List Expiry :=
  waits.filterMap fun
    | .ready x => some x
    | _ => none

/-- The times of an expiry are times that a clock may show. -/
structure Expiry.Reading (x : Expiry) : Prop where
  now : x.now.Reading
  itValue : x.itValue.Reading
  itInterval : x.itInterval.Reading

/-- The interval from `start` to an expiry, with both ends rounded. -/
def interval (start : Timespec) (x : Expiry) : ℚ := ((x.now.ms - start.ms : ℤ) : ℚ) / 1000

theorem interval_nonneg {start : Timespec} {x : Expiry} (h : start.ns ≤ x.now.ns) :
    0 ≤ interval start x := by
  have hms : (0 : ℚ) ≤ ((x.now.ms - start.ms : ℤ) : ℚ) := Int.cast_nonneg (sub_nonneg.2 (ms_mono h))
  exact div_nonneg hms (by norm_num)

theorem interval_mono (start : Timespec) {x y : Expiry} (h : x.now.ns ≤ y.now.ns) :
    interval start x ≤ interval start y := by
  have hms : ((x.now.ms - start.ms : ℤ) : ℚ) ≤ ((y.now.ms - start.ms : ℤ) : ℚ) :=
    Int.cast_le.2 (Int.sub_le_sub_right (ms_mono h) _)
  exact div_le_div_of_nonneg_right hms (by norm_num)

theorem expire_interval {start : Timespec} {x : Expiry} (hstart : start.Reading) (hx : x.Reading)
    (h : start.ns ≤ x.now.ns) :
    ∃ line, expire start.ms x = some line ∧ line.interval = interval start x := by
  have hinterval : getInterval start.ms x.now = some (interval start x) := by
    unfold getInterval
    rw [getTicks_eq hx.now, Option.map_some, sinceInit_eq hstart hx.now h]
    rfl
  by_cases h8 : x.readSize = 8
  · refine ⟨⟨interval start x, some (x.itValue.ms, x.itInterval.ms)⟩, ?_, rfl⟩
    simp [expire, hinterval, h8, hx.itValue.timespec2MS_eq, hx.itInterval.timespec2MS_eq]
  · exact ⟨⟨interval start x, none⟩, by simp [expire, hinterval, h8], rfl⟩

/-- The loop prints the intervals of some of the expiries, in order. -/
theorem loop_intervals {start : Timespec} (hstart : start.Reading) (n : ℕ) {waits : List Wait}
    (hx : ∀ x ∈ expiries waits, x.Reading ∧ start.ns ≤ x.now.ns) :
    ∃ lines, loop start.ms n waits = some lines ∧
      (lines.map Line.interval).Sublist ((expiries waits).map (interval start)) := by
  induction waits generalizing n with
  | nil =>
    refine ⟨[], ?_, List.nil_sublist _⟩
    cases n <;> rfl
  | cons wait waits ih =>
    cases n with
    | zero => exact ⟨[], rfl, List.nil_sublist _⟩
    | succ n =>
      cases wait with
      | failed => exact ih n hx
      | timeout => exact ih n hx
      | other => exact ih n hx
      | ready x =>
        obtain ⟨hread, hle⟩ := hx x List.mem_cons_self
        obtain ⟨line, hline, heq⟩ := expire_interval hstart hread hle
        obtain ⟨lines, hlines, hsub⟩ := ih n fun y hy => hx y (List.mem_cons_of_mem _ hy)
        refine ⟨line :: lines, by simp [loop, hline, hlines], ?_⟩
        rw [List.map_cons, heq]
        exact hsub.cons_cons _

/-- **The printed intervals never decrease**, from 0 on, when the clock does not run backwards. -/
theorem main_forward {start : Timespec} (hstart : start.Reading) {waits : List Wait}
    (hread : ∀ x ∈ expiries waits, x.Reading)
    (hclock : (start :: (expiries waits).map Expiry.now).Pairwise (·.ns ≤ ·.ns)) :
    ∃ lines, main start waits = some lines ∧ (0 :: lines.map Line.interval).Pairwise (· ≤ ·) := by
  rw [List.pairwise_cons] at hclock
  have hle : ∀ x ∈ expiries waits, start.ns ≤ x.now.ns :=
    fun x hx => hclock.1 x.now (List.mem_map_of_mem hx)
  obtain ⟨lines, hlines, hsub⟩ :=
    loop_intervals hstart gMaxCallbackCount fun x hx => ⟨hread x hx, hle x hx⟩
  refine ⟨lines, by simp [main, getTicks_eq hstart, hlines], List.pairwise_cons.2 ⟨?_, ?_⟩⟩
  · intro i hi
    obtain ⟨x, hx, rfl⟩ := List.mem_map.1 (hsub.subset hi)
    exact interval_nonneg (hle x hx)
  · refine List.Pairwise.sublist hsub (List.pairwise_map.2 ?_)
    exact (List.pairwise_map.1 hclock.2).imp fun h => interval_mono start h

end LinuxDemo.LinuxTimer
