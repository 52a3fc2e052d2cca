import LinuxDemo.Lib.CInt
import LinuxDemo.Lib.Lts

/-!
# The write loops of `io/bigfile/main.c` and `other/fread/main.c`

Both programs write `totalSize` bytes, a buffer at a time, and add what `write` or `fwrite` returns
to `hadWrittenSize`. They are left when everything is written, or when the position in the file
was found to differ from `hadWrittenSize` and `errno` is `EFBIG`.

`write` returns -1 when it fails, which is added like a number of bytes. `fwrite` returns 0, which
keeps `hadWrittenSize` equal to the position, so a failure is never noticed.

* `Exact`: the accounts are right as long as no call fails.
* `accounting_iff`: in the loop of `io/bigfile`, the accounts are right throughout a run if and only
  if no `write` of the run fails.
* `stops_iff`: when every call fails from some time on, a loop is left if and only if it is that of
  `io/bigfile`, its file is open and the error is `EFBIG`.
-/

namespace LinuxDemo.BigFile

open Lts

/-- The two loops. -/
inductive Loop where
  /-- `io/bigfile`; whether `open` has succeeded is not tested. -/
  | bigfile (opened : Bool)
  /-- `other/fread`. -/
  | fread
  deriving DecidableEq

/-- `EBADF`. -/
def ebadf : ℤ := 9

/-- `EFBIG`, the 27 of the source. -/
def efbig : ℤ := 27

/-- The file can be written to. -/
def Loop.opened : Loop → Bool
  | .bigfile opened => opened
  | .fread => true

/-- What a failed call returns. -/
def Loop.failure : Loop → ℤ
  | .bigfile _ => -1
  | .fread => 0

/-- `hadWrittenSize += wroteSize`, where `wroteSize` is an `ssize_t` or a `size_t`. -/
def Loop.add : Loop → ℤ → ℤ → Option ℤ
  | .bigfile _, hadWrittenSize, wroteSize => signed 64 (hadWrittenSize + wroteSize)
  | .fread, hadWrittenSize, wroteSize => some (toSigned 64 (hadWrittenSize + wroteSize))

/-- What is written, and how. -/
structure Setup where
  totalSize : ℤ
  bufferSize : ℕ
  totalSize_ge : -2 ^ 63 ≤ totalSize
  totalSize_lt : totalSize < 2 ^ 63
  bufferSize_pos : 0 < bufferSize
  bufferSize_lt : bufferSize < 2 ^ 64

/-- `min(x, y)` of an `int64` and a `size_t`, as an `int64`. -/
def minSize (x : ℤ) (y : ℕ) : ℤ :=
  toSigned 64 (if toUnsigned 64 x < y then toUnsigned 64 x else y)

/-- What a call of `write` or `fwrite` comes to. -/
structure Result where
  /-- The bytes written; `none` when the call fails. -/
  wrote : Option ℕ
  /-- `errno` after the call. -/
  errno : ℤ
  deriving DecidableEq

structure State where
  /-- The bytes in the file; also the position in it. -/
  fileSize : ℕ
  hadWrittenSize : ℤ
  hadError : Bool
  /-- The loop was left by `break`. -/
  broken : Bool
  deriving DecidableEq

/-- Another iteration follows. -/
def State.Running (S : Setup) (s : State) : Prop :=
  s.broken = false ∧ s.hadWrittenSize < S.totalSize

instance (S : Setup) (s : State) : Decidable (s.Running S) := inferInstanceAs (Decidable (_ ∧ _))

/-- The loop was left through its condition. -/
def State.Finished (S : Setup) (s : State) : Prop :=
  s.broken = false ∧ ¬s.hadWrittenSize < S.totalSize

/-- The part of an iteration after the call, which has returned `wroteSize`. -/
def account (loop : Loop) (s : State) (fileSize : ℕ) (wroteSize errno : ℤ) : Option State := do
  let hadWrittenSize ← loop.add s.hadWrittenSize wroteSize
  -- `lseek` of a descriptor that is not open fails; it sets `errno`.
  let offSet : ℤ := if loop.opened then fileSize else -1
  let errno := if loop.opened then errno else ebadf
  let hadError := s.hadError || offSet ≠ hadWrittenSize
  return ⟨fileSize, hadWrittenSize, hadError, hadError && errno = efbig⟩

/-- An iteration. It fails where the arithmetic is undefined, and for results that the call cannot
have: more bytes than requested, or anything but `EBADF` from a descriptor that is not open. -/
def iterate (loop : Loop) (S : Setup) (s : State) (r : Result) : Option State := do
  if ¬s.Running S then none
  let needsWriteSize := minSize (← signed 64 (S.totalSize - s.hadWrittenSize)) S.bufferSize
  match r.wrote with
  | some n =>
    if loop.opened ∧ n ≤ needsWriteSize then account loop s (s.fileSize + n) n r.errno else none
  | none =>
    if loop.opened ∨ r.errno = ebadf then account loop s s.fileSize loop.failure r.errno else none

/-- The loop, from an empty file. -/
def system (loop : Loop) (S : Setup) : Lts State Result :=
  ofNext ⟨0, 0, false, false⟩ (iterate loop S)

/-! ## What one iteration does -/

theorem minSize_eq {x : ℤ} {y : ℕ} (h₀ : 0 < x) (h : x < 2 ^ 63) : minSize x y = min x y := by
  unfold minSize
  rw [toUnsigned_of_lt h₀.le (by omega)]
  split_ifs with hxy
  · rw [toSigned_of_lt (by decide) h₀.le h, min_eq_left hxy.le]
  · have hyx : (y : ℤ) ≤ x := not_lt.1 hxy
    rw [toSigned_of_lt (by decide) (by omega) (lt_of_le_of_lt hyx h), min_eq_right hyx]

/-- Everything an iteration can do. -/
inductive Step (loop : Loop) (S : Setup) (s : State) (r : Result) (s' : State) : Prop
  | wrote (n : ℕ) (hr : r.wrote = some n) (hopened : loop.opened = true)
      (hn : s.hadWrittenSize + n ≤ S.totalSize)
      (h : account loop s (s.fileSize + n) n r.errno = some s')
  | failed (hr : r.wrote = none) (h : account loop s s.fileSize loop.failure r.errno = some s')

theorem iterate_cases {loop : Loop} {S : Setup} {s s' : State} {r : Result}
    (h : iterate loop S s r = some s') : s.Running S ∧ Step loop S s r s' := by
  unfold iterate at h
  by_cases hrun : s.Running S
  swap
  · simp [hrun] at h
  refine ⟨hrun, ?_⟩
  simp only [hrun, not_true_eq_false, if_false, Option.bind_eq_bind, Option.bind_eq_some_iff] at h
  obtain ⟨d, hd, h⟩ := h
  obtain ⟨rfl, -, hlt⟩ := signed_eq_some hd
  have hmin := minSize_eq (y := S.bufferSize) (sub_pos.2 hrun.2) hlt
  split at h
  · rename_i n hr
    split_ifs at h with hn
    refine .wrote n hr hn.1 ?_ h
    have := hn.2.trans (hmin.le.trans (min_le_left _ _))
    omega
  · rename_i hr
    split_ifs at h
    exact .failed hr h

theorem account_eq_some {loop : Loop} {s s' : State} {fileSize : ℕ} {wroteSize errno : ℤ}
    (h : account loop s fileSize wroteSize errno = some s') :
    loop.add s.hadWrittenSize wroteSize = some s'.hadWrittenSize ∧ s'.fileSize = fileSize ∧
      s'.hadError =
        (s.hadError || decide ((if loop.opened then (fileSize : ℤ) else -1) ≠ s'.hadWrittenSize)) ∧
      s'.broken = (s'.hadError && decide ((if loop.opened then errno else ebadf) = efbig)) := by
  obtain ⟨hadWrittenSize, hadd, h⟩ := Option.bind_eq_some_iff.1 h
  cases h
  exact ⟨hadd, rfl, rfl, rfl⟩

theorem add_eq {loop : Loop} {x w y : ℤ} (h : loop.add x w = some y) (h₀ : 0 ≤ x + w)
    (hlt : x + w < 2 ^ 63) : y = x + w := by
  cases loop with
  | bigfile opened => exact (signed_eq_some h).1
  | fread =>
    rw [← Option.some.inj h]
    exact toSigned_of_lt (by decide) h₀ hlt

/-! ## Runs without failures -/

/-- The accounts are right. -/
structure Exact (S : Setup) (s : State) : Prop where
  written : s.hadWrittenSize = s.fileSize
  hadError : s.hadError = false
  broken : s.broken = false
  le : 0 ≤ S.totalSize → s.hadWrittenSize ≤ S.totalSize

/-- A call that returns the number of bytes it has written keeps the accounts right. -/
theorem exact_account {loop : Loop} {S : Setup} {s s' : State} {n : ℕ} {errno : ℤ} (h : Exact S s)
    (hopened : loop.opened = true) (hn : s.hadWrittenSize + n ≤ S.totalSize)
    (hs : account loop s (s.fileSize + n) n errno = some s') :
    Exact S s' ∧ s'.hadWrittenSize = s.hadWrittenSize + n := by
  obtain ⟨hadd, hfile, hadError, hbroken⟩ := account_eq_some hs
  have hwritten := h.written
  have hlt := S.totalSize_lt
  have hsum : s'.hadWrittenSize = s.hadWrittenSize + n :=
    add_eq hadd (by omega) (lt_of_le_of_lt hn hlt)
  have hfile' : s'.hadWrittenSize = s'.fileSize := by
    rw [hfile, hsum, hwritten]
    push_cast
    rfl
  have hnoError : s'.hadError = false := by
    rw [hadError, h.hadError, hopened, if_pos rfl, ← hfile, hfile']
    simp
  refine ⟨⟨hfile', hnoError, ?_, fun _ => hsum.le.trans hn⟩, hsum⟩
  rw [hbroken, hnoError]
  rfl

theorem exact_step {loop : Loop} {S : Setup} {s s' : State} {r : Result} (h : Exact S s)
    (hs : Step loop S s r s') (hr : r.wrote ≠ none) : Exact S s' := by
  cases hs with
  | wrote n _ hopened hn hs => exact (exact_account h hopened hn hs).1
  | failed hnone => exact absurd hnone hr

theorem exact_run {loop : Loop} {S : Setup} {tr : List Result} {s : State}
    (h : (system loop S).Run tr s) : (∀ r ∈ tr, r.wrote ≠ none) → Exact S s := by
  refine Run.induct (I := fun tr s => (∀ r ∈ tr, r.wrote ≠ none) → Exact S s) ?_ ?_ h
  · rintro s rfl _
    exact ⟨rfl, rfl, rfl, fun h => h⟩
  · intro tr s r s' ih hs hwrote
    have hexact := ih fun r hr => hwrote r (List.mem_append_left _ hr)
    exact exact_step hexact (iterate_cases hs).2 (hwrote r (by simp))

/-! ## The accounts of `io/bigfile` -/

/-- A failed `write` is counted as -1 bytes. -/
theorem written_of_failed {opened : Bool} {S : Setup} {s s' : State} {r : Result}
    (hs : Step (.bigfile opened) S s r s') (hr : r.wrote = none) :
    s'.hadWrittenSize = s.hadWrittenSize - 1 ∧ s'.fileSize = s.fileSize := by
  cases hs with
  | wrote n hwrote =>
    rw [hr] at hwrote
    cases hwrote
  | failed _ hs =>
    obtain ⟨hadd, hfile, -⟩ := account_eq_some hs
    exact ⟨(signed_eq_some hadd).1, hfile⟩

/-- After every iteration of the run, `hadWrittenSize` is the number of bytes in the file; and the
file has `totalSize` bytes when the loop is left through its condition. -/
def Accounted (opened : Bool) (S : Setup) (tr : List Result) : Prop :=
  ∀ tr₁ s, tr₁ <+: tr → (system (.bigfile opened) S).Run tr₁ s →
    s.hadWrittenSize = s.fileSize ∧ (s.Finished S → s.fileSize = S.totalSize)

/-- **The accounts are right throughout a run** if and only if no `write` of the run fails (and
`totalSize` is no negative number, of which the file cannot hold as many bytes). -/
theorem accounting_iff {opened : Bool} {S : Setup} {tr : List Result} {s : State}
    (h : (system (.bigfile opened) S).Run tr s) :
    Accounted opened S tr ↔ (∀ r ∈ tr, r.wrote ≠ none) ∧ 0 ≤ S.totalSize := by
  constructor
  · intro hacc
    refine ⟨?_, ?_⟩
    · intro r hr hnone
      obtain ⟨tr₁, tr₂, rfl⟩ := List.append_of_mem hr
      obtain ⟨s₁, s₂, hrun, hstep⟩ := h.before
      have hbefore := (hacc tr₁ s₁ (List.prefix_append _ _) hrun).1
      have hafter := (hacc (tr₁ ++ [r]) s₂ ⟨tr₂, by simp⟩ (hrun.snoc hstep)).1
      obtain ⟨hwritten, hfile⟩ := written_of_failed (iterate_cases hstep).2 hnone
      rw [hwritten, hfile] at hafter
      omega
    · by_contra hneg
      have hstart := (hacc [] ⟨0, 0, false, false⟩ List.nil_prefix (.init rfl)).2
      have : ((0 : ℕ) : ℤ) = S.totalSize := hstart ⟨rfl, fun hlt => hneg hlt.le⟩
      omega
  · rintro ⟨hwrote, htotal⟩ tr₁ s₁ hpre hrun
    have hexact := exact_run hrun fun r hr => hwrote r (hpre.subset hr)
    refine ⟨hexact.written, fun hfin => ?_⟩
    rw [← hexact.written]
    exact le_antisymm (hexact.le htotal) (not_lt.1 hfin.2)

/-- A buffer of 4 bytes for a file of 10. -/
def tenBytes : Setup where
  totalSize := 10
  bufferSize := 4
  totalSize_ge := by decide
  totalSize_lt := by decide
  bufferSize_pos := by decide
  bufferSize_lt := by decide

theorem accounting_iff_shortWrites :
    ∃ s, (system (.bigfile true) tenBytes).Run
        [⟨some 4, 0⟩, ⟨some 1, 0⟩, ⟨some 4, 0⟩, ⟨some 1, 0⟩] s ∧
      Accounted true tenBytes [⟨some 4, 0⟩, ⟨some 1, 0⟩, ⟨some 4, 0⟩, ⟨some 1, 0⟩] := by
  obtain ⟨s, hs, -⟩ := exists_run_of_exec ⟨0, 0, false, false⟩ (iterate (.bigfile true) tenBytes)
    [⟨some 4, 0⟩, ⟨some 1, 0⟩, ⟨some 4, 0⟩, ⟨some 1, 0⟩] (fun _ => true) (by decide)
  exact ⟨s, hs, (accounting_iff hs).2 (by decide)⟩

/-- **A failed `write` spoils the accounts**: the loop goes on until the file has a byte too
many. -/
theorem not_accounted :
    ∃ tr s, (system (.bigfile true) tenBytes).Run tr s ∧ s.Finished tenBytes ∧ s.fileSize = 11 ∧
      ¬Accounted true tenBytes tr := by
  obtain ⟨s, hs, hp⟩ := exists_run_of_exec ⟨0, 0, false, false⟩ (iterate (.bigfile true) tenBytes)
    [⟨none, 28⟩, ⟨some 4, 28⟩, ⟨some 4, 28⟩, ⟨some 3, 28⟩] (fun s => s = ⟨11, 10, true, false⟩)
    (by decide)
  have hstate : s = ⟨11, 10, true, false⟩ := by simpa using hp
  refine ⟨_, s, hs, ?_, by rw [hstate], fun hacc => ?_⟩
  · rw [hstate]
    exact ⟨rfl, by decide⟩
  · have := (hacc _ s (List.prefix_refl _) hs).1
    rw [hstate] at this
    cases this

/-! ## Permanent failures -/

/-- The loop is left after some more iterations in all of which the call fails with `errno`. -/
def Stops (loop : Loop) (S : Setup) (s : State) (errno : ℤ) : Prop :=
  ∃ n s', exec (iterate loop S) s (List.replicate n ⟨none, errno⟩) = some s' ∧ ¬s'.Running S

/-- A failed call that leaves the loop running, in a state with the property `I` again. -/
theorem not_stops {loop : Loop} {S : Setup} {errno : ℤ} {I : State → Prop}
    (hI : ∀ s s', I s → s.Running S → iterate loop S s ⟨none, errno⟩ = some s' →
      I s' ∧ s'.Running S) :
    ∀ s, I s → s.Running S → ¬Stops loop S s errno := by
  rintro s h hrun ⟨n, s', hexec, hstop⟩
  induction n generalizing s with
  | zero =>
    cases hexec
    exact hstop hrun
  | succ n ih =>
    obtain ⟨s₁, hs₁, hexec⟩ := Option.bind_eq_some_iff.1 hexec
    obtain ⟨h₁, hrun₁⟩ := hI s s₁ h hrun hs₁
    exact ih s₁ h₁ hrun₁ hexec

/-- `fwrite` returns 0: nothing changes. -/
theorem fread_failed {S : Setup} {s s' : State} {errno : ℤ} (h : Exact S s) (hrun : s.Running S)
    (hs : Step .fread S s ⟨none, errno⟩ s') : Exact S s' ∧ s'.Running S := by
  cases hs with
  | wrote n hr => cases hr
  | failed _ hs =>
    have hle : s.hadWrittenSize + (0 : ℕ) ≤ S.totalSize := by
      have := hrun.2
      omega
    obtain ⟨hexact, hsum⟩ := exact_account h rfl hle hs
    refine ⟨hexact, hexact.broken, ?_⟩
    rw [hsum, Nat.cast_zero, add_zero]
    exact hrun.2

/-- `write` returns -1: there is more to write than before, and only `EFBIG` ends the loop. -/
theorem bigfile_failed {opened : Bool} {S : Setup} {s s' : State} {errno : ℤ}
    (hrun : s.Running S) (hs : Step (.bigfile opened) S s ⟨none, errno⟩ s')
    (herrno : ¬(opened = true ∧ errno = efbig)) : s'.Running S := by
  obtain ⟨hwritten, -⟩ := written_of_failed hs rfl
  refine ⟨?_, ?_⟩
  · cases hs with
    | wrote n hr => cases hr
    | failed _ hs =>
      obtain ⟨-, -, -, hbroken⟩ := account_eq_some hs
      have hne : ¬(if opened = true then errno else ebadf) = efbig := by
        cases opened with
        | true => exact fun heq => herrno ⟨rfl, heq⟩
        | false =>
          rw [if_neg Bool.false_ne_true]
          decide
      rw [hbroken, Bool.and_eq_false_iff]
      exact Or.inr (decide_eq_false hne)
  · rw [hwritten]
    have := hrun.2
    omega

/-- `EFBIG` ends the loop at once, since `hadWrittenSize` is wrong by then. -/
theorem bigfile_efbig {S : Setup} {s : State} (h : Exact S s) (hrun : s.Running S) :
    iterate (.bigfile true) S s ⟨none, efbig⟩ =
      some ⟨s.fileSize, s.hadWrittenSize - 1, true, true⟩ := by
  have hwritten := h.written
  have hlt := S.totalSize_lt
  have htotal := hrun.2
  have hd : signed 64 (S.totalSize - s.hadWrittenSize) = some (S.totalSize - s.hadWrittenSize) :=
    signed_of_lt 63 (by omega) (by omega)
  have hadd : (Loop.bigfile true).add s.hadWrittenSize (-1) = some (s.hadWrittenSize - 1) :=
    signed_of_lt 63 (by omega) (by omega)
  have hne : (s.fileSize : ℤ) ≠ s.hadWrittenSize - 1 := by omega
  simp [iterate, hrun, hd, account, Loop.opened, Loop.failure, hadd, hne]

/-- **A loop stops on a permanent failure** if and only if it is that of `io/bigfile`, its file is
open and the error is `EFBIG`. The calls before the first that fails may be short. -/
theorem stops_iff {loop : Loop} {S : Setup} {tr : List Result} {s : State} {errno : ℤ}
    (h : (system loop S).Run tr s) (hwrote : ∀ r ∈ tr, r.wrote ≠ none) (hrun : s.Running S) :
    Stops loop S s errno ↔ loop = .bigfile true ∧ errno = efbig := by
  have hexact : Exact S s := exact_run h hwrote
  constructor
  · intro hstops
    cases loop with
    | fread =>
      exact absurd hstops (not_stops (I := Exact S)
        (fun s s' h hrun hs => fread_failed h hrun (iterate_cases hs).2) s hexact hrun)
    | bigfile opened =>
      by_contra hne
      have herrno : ¬(opened = true ∧ errno = efbig) := by
        rintro ⟨rfl, rfl⟩
        exact hne ⟨rfl, rfl⟩
      exact not_stops (I := fun _ => True)
        (fun s s' _ hrun hs => ⟨trivial, bigfile_failed hrun (iterate_cases hs).2 herrno⟩)
        s trivial hrun hstops
  · rintro ⟨rfl, rfl⟩
    refine ⟨1, ⟨s.fileSize, s.hadWrittenSize - 1, true, true⟩, ?_, ?_⟩
    · exact Option.bind_eq_some_iff.2 ⟨_, bigfile_efbig hexact hrun, rfl⟩
    · rintro ⟨hbroken, -⟩
      cases hbroken

theorem stops_iff_efbig :
    ∃ s, (system (.bigfile true) tenBytes).Run [⟨some 4, 0⟩] s ∧
      Stops (.bigfile true) tenBytes s efbig := by
  obtain ⟨s, hs, hp⟩ := exists_run_of_exec ⟨0, 0, false, false⟩ (iterate (.bigfile true) tenBytes)
    [⟨some 4, 0⟩] (fun s => decide (s.Running tenBytes)) (by decide)
  exact ⟨s, hs, (stops_iff hs (by decide) (of_decide_eq_true hp)).2 ⟨rfl, rfl⟩⟩

/-- **No loop stops when the disk is full** (`ENOSPC`), and that of `other/fread` not even when the
file becomes too large. -/
theorem runs_forever :
    ¬Stops (.bigfile true) tenBytes ⟨0, 0, false, false⟩ 28 ∧
      ¬Stops .fread tenBytes ⟨0, 0, false, false⟩ efbig := by
  have hrun : State.Running tenBytes ⟨0, 0, false, false⟩ := by decide
  have hexact : Exact tenBytes ⟨0, 0, false, false⟩ := ⟨rfl, rfl, rfl, fun h => h⟩
  constructor
  · exact not_stops (I := fun _ => True) (fun s s' _ hrun hs =>
      ⟨trivial, bigfile_failed hrun (iterate_cases hs).2 (by decide)⟩) _ trivial hrun
  · exact not_stops (I := Exact tenBytes)
      (fun s s' h hrun hs => fread_failed h hrun (iterate_cases hs).2) _ hexact hrun

end LinuxDemo.BigFile
