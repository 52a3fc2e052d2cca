import Mathlib.Data.Fintype.Basic
import Mathlib.Logic.Function.Basic

/-!
# Advisory locks

Locks on a file, shared or exclusive. Who holds them depends on the kind of lock: those of `flock`
belong to an open file description, those of `fcntl` to a process, for every byte on its own.

* `Coherent`: different holders of one thing all have it shared.
* `FileLocks`: the open file descriptions of a file, the descriptors that refer to them, and the lock
  of each. `FileLocks.Ok` is kept by every operation, and `FileLocks.Others` says that an operation
  of a process leaves the descriptions of the others alone.
* `RangeLock`: the byte ranges that processes have locked. What a process holds after an operation is
  said byte by byte (`held_lock`, `held_unlock`, `held_release`), and `RangeLock.Ok` is kept.
-/

namespace LinuxDemo

inductive LockMode where
  | shared
  | exclusive
  deriving DecidableEq

namespace LockMode

/-- Two holders may have these at the same time. -/
def Allows (m m' : LockMode) : Prop := m = shared ∧ m' = shared

instance (m m' : LockMode) : Decidable (m.Allows m') := inferInstanceAs (Decidable (_ ∧ _))

theorem Allows.symm {m m' : LockMode} (h : m.Allows m') : m'.Allows m := ⟨h.2, h.1⟩

end LockMode

/-! ## Holders -/

/-- Different holders have the thing in modes that allow each other. -/
def Coherent {κ : Type*} (held : κ → LockMode → Prop) : Prop :=
  ∀ k k' m m', k ≠ k' → held k m → held k' m' → m.Allows m'

namespace Coherent

variable {κ : Type*} {held held' : κ → LockMode → Prop}

theorem mono (h : Coherent held) (hs : ∀ k m, held' k m → held k m) : Coherent held' :=
  fun k k' m m' hne hk hk' => h k k' m m' hne (hs k m hk) (hs k' m' hk')

/-- The holder `k` gets the mode `m`, which all others allow. -/
theorem grant (h : Coherent held) {k : κ} {m : LockMode}
    (hk : ∀ k' m', k' ≠ k → held k' m' → m.Allows m')
    (hself : ∀ m', held' k m' → m' = m) (hs : ∀ k' m', k' ≠ k → held' k' m' → held k' m') :
    Coherent held' := by
  intro a b ma mb hne ha hb
  by_cases hak : a = k
  · subst hak
    rw [hself ma ha]
    exact hk b mb hne.symm (hs b mb hne.symm hb)
  · by_cases hbk : b = k
    · subst hbk
      rw [hself mb hb]
      exact (hk a ma hak (hs a ma hak ha)).symm
    · exact h a b ma mb hne (hs a ma hak ha) (hs b mb hbk hb)

/-- Nobody else has what one holder has exclusively. -/
theorem eq_of_exclusive (h : Coherent held) {k k' : κ} {m : LockMode} (hk : held k .exclusive)
    (hk' : held k' m) : k' = k := by
  by_contra hne
  exact LockMode.noConfusion (h k k' .exclusive m (Ne.symm hne) hk hk').1

end Coherent

/-! ## Open file descriptions -/

/-- How many descriptors of each process refer to the description, and its lock. -/
structure Description (ι : Type*) where
  refs : ι → ℕ
  mode : Option LockMode

/-- The lock goes with the last descriptor. -/
def Description.withRefs {ι : Type*} [Fintype ι] (o : Description ι) (refs : ι → ℕ) :
    Description ι :=
  ⟨refs, if ∀ q, refs q = 0 then none else o.mode⟩

/-- The open file descriptions of one file, numbered in the order of their creation. -/
structure FileLocks (ι : Type*) where
  object : ℕ → Description ι
  fresh : ℕ

namespace FileLocks

variable {ι : Type*}

def unopened : FileLocks ι := ⟨fun _ => ⟨fun _ => 0, none⟩, 0⟩

def put (f : FileLocks ι) (d : ℕ) (o : Description ι) : FileLocks ι :=
  { f with object := Function.update f.object d o }

/-- `flock` gives the description `d` the mode `m`: the locks of the others allow it. -/
def Grants (f : FileLocks ι) (d : ℕ) (m : LockMode) : Prop :=
  ∀ d' < f.fresh, d' ≠ d → ∀ m' ∈ (f.object d').mode, m.Allows m'

instance (f : FileLocks ι) (d : ℕ) (m : LockMode) : Decidable (f.Grants d m) :=
  inferInstanceAs (Decidable (∀ d' < f.fresh, d' ≠ d → ∀ m' ∈ (f.object d').mode, m.Allows m'))

def setMode (f : FileLocks ι) (d : ℕ) (m : Option LockMode) : FileLocks ι :=
  f.put d { f.object d with mode := m }

section Operations

variable [DecidableEq ι]

/-- Process `p` opens the file, which makes a new description. -/
def openFile (f : FileLocks ι) (p : ι) : FileLocks ι :=
  ⟨Function.update f.object f.fresh ⟨fun q => if q = p then 1 else 0, none⟩, f.fresh + 1⟩

/-- Process `p` duplicates a descriptor of the description `d`. -/
def dup (f : FileLocks ι) (p : ι) (d : ℕ) : FileLocks ι :=
  f.put d { f.object d with
    refs := Function.update (f.object d).refs p ((f.object d).refs p + 1) }

variable [Fintype ι]

/-- Process `p` closes a descriptor of the description `d`. -/
def close (f : FileLocks ι) (p : ι) (d : ℕ) : FileLocks ι :=
  f.put d ((f.object d).withRefs
    (Function.update (f.object d).refs p ((f.object d).refs p - 1)))

/-- Process `p` ends, which closes all its descriptors. -/
def exit (f : FileLocks ι) (p : ι) : FileLocks ι :=
  { f with object := fun d => (f.object d).withRefs (Function.update (f.object d).refs p 0) }

end Operations

/-! ### What the operations keep -/

/-- Only descriptions that exist are open, each in one process; a description that is not open has
no lock, and the locks allow each other. -/
structure Ok (f : FileLocks ι) : Prop where
  fresh : ∀ d p, 0 < (f.object d).refs p → d < f.fresh
  owner : ∀ d p q, 0 < (f.object d).refs p → 0 < (f.object d).refs q → p = q
  held : ∀ d, (f.object d).mode ≠ none → ∃ p, 0 < (f.object d).refs p
  coherent : Coherent fun d m => (f.object d).mode = some m

/-- An operation of process `p` leaves the descriptors of the other processes alone, and the
descriptions they refer to. -/
structure Others (p : ι) (f f' : FileLocks ι) : Prop where
  refs : ∀ d q, q ≠ p → (f'.object d).refs q = (f.object d).refs q
  object : ∀ d q, q ≠ p → 0 < (f.object d).refs q → f'.object d = f.object d

@[simp] theorem put_object_self (f : FileLocks ι) (d : ℕ) (o : Description ι) :
    (f.put d o).object d = o :=
  Function.update_self ..

theorem put_object_of_ne {f : FileLocks ι} {d d' : ℕ} {o : Description ι} (h : d' ≠ d) :
    (f.put d o).object d' = f.object d' :=
  Function.update_of_ne h ..

theorem ok_unopened : (unopened : FileLocks ι).Ok where
  fresh d p h := absurd h (lt_irrefl 0)
  owner d p q h := absurd h (lt_irrefl 0)
  held d h := absurd rfl h
  coherent d d' m m' _ h := by cases h

variable {f : FileLocks ι} {p : ι} {d : ℕ} {o : Description ι}

/-- Nobody else refers to a description of process `p`. -/
theorem Ok.refs_eq_zero (h : f.Ok) (hd : 0 < (f.object d).refs p) {q : ι} (hq : q ≠ p) :
    (f.object d).refs q = 0 := by
  by_contra hne
  exact hq (h.owner d q p (Nat.pos_of_ne_zero hne) hd)

/-- The description `d` of process `p` changes: its descriptors in `p`, and its lock. -/
theorem Ok.put (h : f.Ok) (hd : 0 < (f.object d).refs p)
    (hrefs : ∀ q, q ≠ p → o.refs q = (f.object d).refs q)
    (hmode : ∀ m, o.mode = some m →
      0 < o.refs p ∧ ((f.object d).mode = some m ∨ f.Grants d m)) :
    (f.put d o).Ok where
  fresh := by
    refine (Function.forall_update_iff f.object fun d' (o : Description ι) =>
      ∀ q, 0 < o.refs q → d' < f.fresh).2 ⟨fun _ _ => h.fresh d p hd, fun d' _ => h.fresh d'⟩
  owner := by
    have hself : ∀ q, 0 < o.refs q → q = p := by
      intro q hq
      by_contra hne
      rw [hrefs q hne, h.refs_eq_zero hd hne] at hq
      exact lt_irrefl 0 hq
    refine (Function.forall_update_iff f.object fun _ (o : Description ι) =>
      ∀ q r, 0 < o.refs q → 0 < o.refs r → q = r).2 ⟨?_, fun d' _ => h.owner d'⟩
    intro q r hq hr
    rw [hself q hq, hself r hr]
  held := by
    refine (Function.forall_update_iff f.object fun _ (o : Description ι) =>
      o.mode ≠ none → ∃ q, 0 < o.refs q).2 ⟨?_, fun d' _ => h.held d'⟩
    intro hne
    obtain ⟨m, hm⟩ := Option.ne_none_iff_exists'.1 hne
    exact ⟨p, (hmode m hm).1⟩
  coherent := by
    have hother : ∀ d' m', d' ≠ d → ((f.put d o).object d').mode = some m' →
        (f.object d').mode = some m' := by
      intro d' m' hne hm'
      rwa [put_object_of_ne hne] at hm'
    cases hom : o.mode with
    | none =>
      refine h.coherent.mono fun d' m' hm' => hother d' m' ?_ hm'
      rintro rfl
      rw [put_object_self, hom] at hm'
      cases hm'
    | some m =>
      refine h.coherent.grant (k := d) (m := m) ?_ ?_ hother
      · intro d' m' hne hm'
        rcases (hmode m hom).2 with hsame | hg
        · exact h.coherent d d' m m' hne.symm hsame hm'
        · obtain ⟨q, hq⟩ := h.held d' (by rw [hm']; exact Option.some_ne_none m')
          exact hg d' (h.fresh d' q hq) hne m' hm'
      · intro m' hm'
        rw [put_object_self, hom] at hm'
        exact (Option.some.inj hm').symm

theorem Ok.put_others (h : f.Ok) (hd : 0 < (f.object d).refs p)
    (hrefs : ∀ q, q ≠ p → o.refs q = (f.object d).refs q) : Others p f (f.put d o) where
  refs := by
    intro d' q hq
    by_cases hd' : d' = d
    · subst hd'
      rw [put_object_self, hrefs q hq]
    · rw [put_object_of_ne hd']
  object := by
    intro d' q hq hpos
    have hd' : d' ≠ d := by
      rintro rfl
      rw [h.refs_eq_zero hd hq] at hpos
      exact lt_irrefl 0 hpos
    exact put_object_of_ne hd'

/-- `flock` on a descriptor of process `p`. -/
theorem Ok.setMode (h : f.Ok) (hd : 0 < (f.object d).refs p) {m : Option LockMode}
    (hm : ∀ m' ∈ m, f.Grants d m') : (f.setMode d m).Ok ∧ Others p f (f.setMode d m) :=
  ⟨h.put hd (fun _ _ => rfl) fun m' hm' => ⟨hd, Or.inr (hm m' hm')⟩,
    h.put_others hd fun _ _ => rfl⟩

/-- An exclusive lock is granted where nothing else is locked. -/
theorem Ok.grants_exclusive (h : f.Ok) :
    f.Grants d .exclusive ↔ ∀ d', d' ≠ d → (f.object d').mode = none := by
  constructor
  · intro hg d' hd'
    by_contra hne
    obtain ⟨m, hm⟩ := Option.ne_none_iff_exists'.1 hne
    obtain ⟨q, hq⟩ := h.held d' hne
    exact LockMode.noConfusion (hg d' (h.fresh d' q hq) hd' m hm).1
  · intro hall d' _ hd' m' hm'
    rw [hall d' hd'] at hm'
    cases hm'

/-- The next description is not open yet. -/
theorem Ok.refs_fresh (h : f.Ok) (q : ι) : (f.object f.fresh).refs q = 0 := by
  by_contra hne
  exact lt_irrefl _ (h.fresh _ q (Nat.pos_of_ne_zero hne))

section Processes

variable [DecidableEq ι]

@[simp] theorem openFile_object_fresh (f : FileLocks ι) (p : ι) :
    (f.openFile p).object f.fresh = ⟨fun q => if q = p then 1 else 0, none⟩ :=
  Function.update_self ..

theorem openFile_object_of_ne {d : ℕ} (h : d ≠ f.fresh) :
    (f.openFile p).object d = f.object d :=
  Function.update_of_ne h ..

theorem Ok.openFile (h : f.Ok) (p : ι) : (f.openFile p).Ok where
  fresh := by
    refine (Function.forall_update_iff f.object fun d (o : Description ι) =>
      ∀ q, 0 < o.refs q → d < f.fresh + 1).2 ⟨fun _ _ => Nat.lt_succ_self _, ?_⟩
    intro d _ q hq
    exact (h.fresh d q hq).trans (Nat.lt_succ_self _)
  owner := by
    refine (Function.forall_update_iff f.object fun _ (o : Description ι) =>
      ∀ q r, 0 < o.refs q → 0 < o.refs r → q = r).2 ⟨?_, fun d _ => h.owner d⟩
    intro q r hq hr
    have hself : ∀ q, 0 < (if q = p then 1 else 0) → q = p := by
      intro q hq
      by_contra hne
      rw [if_neg hne] at hq
      exact lt_irrefl 0 hq
    rw [hself q hq, hself r hr]
  held := by
    refine (Function.forall_update_iff f.object fun _ (o : Description ι) =>
      o.mode ≠ none → ∃ q, 0 < o.refs q).2 ⟨fun hne => absurd rfl hne, fun d _ => h.held d⟩
  coherent := by
    refine h.coherent.mono ?_
    intro d m hm
    by_cases hd : d = f.fresh
    · subst hd
      rw [openFile_object_fresh] at hm
      cases hm
    · rwa [openFile_object_of_ne hd] at hm

theorem Ok.openFile_others (h : f.Ok) (p : ι) : Others p f (f.openFile p) where
  refs := by
    intro d q hq
    by_cases hd : d = f.fresh
    · subst hd
      rw [openFile_object_fresh, h.refs_fresh]
      exact if_neg hq
    · rw [openFile_object_of_ne hd]
  object := by
    intro d q _ hpos
    refine openFile_object_of_ne ?_
    rintro rfl
    rw [h.refs_fresh] at hpos
    exact lt_irrefl 0 hpos

theorem Ok.dup (h : f.Ok) (hd : 0 < (f.object d).refs p) :
    (f.dup p d).Ok ∧ Others p f (f.dup p d) := by
  have hrefs : ∀ q, q ≠ p → Function.update (f.object d).refs p ((f.object d).refs p + 1) q =
      (f.object d).refs q := fun q hq => Function.update_of_ne hq ..
  refine ⟨h.put hd hrefs fun m hm => ⟨?_, Or.inl hm⟩, h.put_others hd hrefs⟩
  show 0 < Function.update (f.object d).refs p ((f.object d).refs p + 1) p
  rw [Function.update_self]
  exact Nat.succ_pos _

variable [Fintype ι]

omit [DecidableEq ι] in
theorem withRefs_mode {o : Description ι} {refs : ι → ℕ} {m : LockMode}
    (h : (o.withRefs refs).mode = some m) : o.mode = some m ∧ ∃ q, 0 < refs q := by
  unfold Description.withRefs at h
  split_ifs at h with hrefs
  obtain ⟨q, hq⟩ := not_forall.1 hrefs
  exact ⟨h, q, Nat.pos_of_ne_zero hq⟩

omit [DecidableEq ι] in
/-- A descriptor keeps the lock. -/
theorem withRefs_of_pos {o : Description ι} {refs : ι → ℕ} {q : ι} (h : 0 < refs q) :
    o.withRefs refs = ⟨refs, o.mode⟩ :=
  congrArg (Description.mk refs) (if_neg fun hrefs => absurd (hrefs q) (Nat.ne_of_gt h))

theorem Ok.close (h : f.Ok) (hd : 0 < (f.object d).refs p) :
    (f.close p d).Ok ∧ Others p f (f.close p d) := by
  have hrefs : ∀ q, q ≠ p → Function.update (f.object d).refs p ((f.object d).refs p - 1) q =
      (f.object d).refs q := fun q hq => Function.update_of_ne hq ..
  refine ⟨h.put hd hrefs fun m hm => ?_, h.put_others hd hrefs⟩
  obtain ⟨hold, q, hq⟩ := withRefs_mode hm
  refine ⟨?_, Or.inl hold⟩
  by_cases hqp : q = p
  · subst hqp
    exact hq
  · rw [hrefs q hqp, h.refs_eq_zero hd hqp] at hq
    exact absurd hq (lt_irrefl 0)

theorem Ok.exit (h : f.Ok) (p : ι) : (f.exit p).Ok := by
  have hle : ∀ d q, 0 < ((f.exit p).object d).refs q → 0 < (f.object d).refs q := by
    intro d q hq
    by_cases hqp : q = p
    · subst hqp
      rw [show ((f.exit q).object d).refs q = 0 from Function.update_self ..] at hq
      exact absurd hq (lt_irrefl 0)
    · rwa [show ((f.exit p).object d).refs q = (f.object d).refs q from
        Function.update_of_ne hqp ..] at hq
  refine ⟨fun d q hq => h.fresh d q (hle d q hq),
    fun d q r hq hr => h.owner d q r (hle d q hq) (hle d r hr), ?_,
    h.coherent.mono fun d m hm => (withRefs_mode hm).1⟩
  intro d hne
  obtain ⟨m, hm⟩ := Option.ne_none_iff_exists'.1 hne
  exact (withRefs_mode hm).2

theorem Ok.exit_others (h : f.Ok) (p : ι) : Others p f (f.exit p) where
  refs d q hq := Function.update_of_ne hq ..
  object := by
    intro d q hq hpos
    have hp : (f.object d).refs p = 0 := by
      by_contra hne
      exact hq (h.owner d q p hpos (Nat.pos_of_ne_zero hne))
    have hrefs : Function.update (f.object d).refs p 0 = (f.object d).refs := by
      rw [← hp, Function.update_eq_self]
    show (f.object d).withRefs _ = _
    rw [hrefs, withRefs_of_pos hpos]

end Processes

end FileLocks

/-! ## Byte ranges -/

/-- The bytes from `start`, up to `stop` if there is an end. -/
structure ByteRange where
  start : ℕ
  stop : Option ℕ
  deriving DecidableEq

namespace ByteRange

instance : Membership ℕ ByteRange := ⟨fun r b => r.start ≤ b ∧ ∀ e ∈ r.stop, b < e⟩

theorem mem_def {r : ByteRange} {b : ℕ} : b ∈ r ↔ r.start ≤ b ∧ ∀ e ∈ r.stop, b < e := Iff.rfl

instance (r : ByteRange) (b : ℕ) : Decidable (b ∈ r) :=
  inferInstanceAs (Decidable (r.start ≤ b ∧ ∀ e ∈ r.stop, b < e))

/-- The ranges have a byte in common. -/
def Meets (r s : ByteRange) : Prop := max r.start s.start ∈ r ∧ max r.start s.start ∈ s

instance (r s : ByteRange) : Decidable (r.Meets s) := inferInstanceAs (Decidable (_ ∧ _))

theorem meets_iff {r s : ByteRange} : r.Meets s ↔ ∃ b, b ∈ r ∧ b ∈ s := by
  refine ⟨fun h => ⟨_, h⟩, ?_⟩
  rintro ⟨b, hr, hs⟩
  have hle : max r.start s.start ≤ b := max_le hr.1 hs.1
  exact ⟨⟨le_max_left .., fun e he => lt_of_le_of_lt hle (hr.2 e he)⟩,
    ⟨le_max_right .., fun e he => lt_of_le_of_lt hle (hs.2 e he)⟩⟩

/-- What is left of `r` without `s`. -/
def diff (r s : ByteRange) : List ByteRange :=
  ⟨r.start, some (r.stop.elim s.start (min s.start))⟩ ::
    (s.stop.map fun e => ⟨max r.start e, r.stop⟩).toList

theorem mem_diff {r s : ByteRange} {b : ℕ} : (∃ t ∈ r.diff s, b ∈ t) ↔ b ∈ r ∧ b ∉ s := by
  obtain ⟨a, e⟩ := r
  obtain ⟨a', e'⟩ := s
  cases e <;> cases e' <;> simp [diff, mem_def] <;> omega

end ByteRange

/-- A process has locked a range. -/
structure RangeLock (ι : Type*) where
  owner : ι
  range : ByteRange
  mode : LockMode

namespace RangeLock

variable {ι : Type*}

/-- Process `p` has the byte `b` in the mode `m`. -/
def Held (locks : List (RangeLock ι)) (b : ℕ) (p : ι) (m : LockMode) : Prop :=
  ∃ l ∈ locks, l.owner = p ∧ b ∈ l.range ∧ l.mode = m

/-- The locks allow each other on every byte. -/
def Ok (locks : List (RangeLock ι)) : Prop := ∀ b, Coherent (Held locks b)

theorem ok_nil : Ok ([] : List (RangeLock ι)) := by
  rintro b p q m m' _ ⟨l, hl, -⟩
  cases hl

variable [DecidableEq ι]

/-- A lock of another process that does not allow process `p` the mode `m` on the range. -/
def conflict (locks : List (RangeLock ι)) (p : ι) (r : ByteRange) (m : LockMode) :
    Option (RangeLock ι) :=
  locks.find? fun l => l.owner ≠ p ∧ l.range.Meets r ∧ ¬m.Allows l.mode

/-- Process `p` gives up the range, which may split its locks. -/
def unlock (locks : List (RangeLock ι)) (p : ι) (r : ByteRange) : List (RangeLock ι) :=
  locks.flatMap fun l => if l.owner = p then (l.range.diff r).map (⟨p, ·, l.mode⟩) else [l]

/-- Process `p` locks the range, in place of what it had there. -/
def lock (locks : List (RangeLock ι)) (p : ι) (r : ByteRange) (m : LockMode) :
    List (RangeLock ι) :=
  ⟨p, r, m⟩ :: unlock locks p r

/-- Process `p` gives up everything: it has closed a descriptor of the file, or has ended. -/
def release (locks : List (RangeLock ι)) (p : ι) : List (RangeLock ι) :=
  locks.filter fun l => l.owner ≠ p

variable {locks : List (RangeLock ι)} {b : ℕ} {p q : ι} {r : ByteRange} {m m' : LockMode}

theorem conflict_eq_none : conflict locks p r m = none ↔
    ∀ b ∈ r, ∀ q m', q ≠ p → Held locks b q m' → m.Allows m' := by
  unfold conflict
  rw [List.find?_eq_none]
  constructor
  · rintro h b hb q m' hq ⟨l, hl, rfl, hbl, rfl⟩
    have hnot := h l hl
    simp only [decide_eq_true_eq, not_and, not_not] at hnot
    exact hnot hq (ByteRange.meets_iff.2 ⟨b, hbl, hb⟩)
  · intro h l hl
    simp only [decide_eq_true_eq, not_and, not_not]
    intro hq hmeets
    obtain ⟨b, hbl, hb⟩ := ByteRange.meets_iff.1 hmeets
    exact h b hb l.owner l.mode hq ⟨l, hl, rfl, hbl, rfl⟩

theorem held_unlock :
    Held (unlock locks p r) b q m ↔ Held locks b q m ∧ (q = p → b ∉ r) := by
  constructor
  · rintro ⟨l, hl, rfl, hb, rfl⟩
    obtain ⟨l', hl', hmem⟩ := List.mem_flatMap.1 hl
    split_ifs at hmem with hown
    · obtain ⟨t, ht, rfl⟩ := List.mem_map.1 hmem
      obtain ⟨hbl, hbr⟩ := ByteRange.mem_diff.1 ⟨t, ht, hb⟩
      exact ⟨⟨l', hl', hown, hbl, rfl⟩, fun _ => hbr⟩
    · cases List.mem_singleton.1 hmem
      exact ⟨⟨l, hl', rfl, hb, rfl⟩, fun heq => absurd heq hown⟩
  · rintro ⟨⟨l, hl, rfl, hb, rfl⟩, hbr⟩
    by_cases hown : l.owner = p
    · obtain ⟨t, ht, hbt⟩ := ByteRange.mem_diff.2 ⟨hb, hbr hown⟩
      refine ⟨⟨p, t, l.mode⟩, List.mem_flatMap.2 ⟨l, hl, ?_⟩, hown.symm, hbt, rfl⟩
      rw [if_pos hown]
      exact List.mem_map.2 ⟨t, ht, rfl⟩
    · refine ⟨l, List.mem_flatMap.2 ⟨l, hl, ?_⟩, rfl, hb, rfl⟩
      rw [if_neg hown]
      exact List.mem_singleton.2 rfl

theorem held_lock : Held (lock locks p r m) b q m' ↔
    (q = p ∧ b ∈ r ∧ m' = m) ∨ Held locks b q m' ∧ (q = p → b ∉ r) := by
  rw [← held_unlock]
  constructor
  · rintro ⟨l, hl, hown, hb, hm⟩
    rcases List.mem_cons.1 hl with rfl | hl
    · exact Or.inl ⟨hown.symm, hb, hm.symm⟩
    · exact Or.inr ⟨l, hl, hown, hb, hm⟩
  · rintro (⟨rfl, hb, rfl⟩ | ⟨l, hl, hown, hb, hm⟩)
    · exact ⟨_, List.mem_cons_self, rfl, hb, rfl⟩
    · exact ⟨l, List.mem_cons_of_mem _ hl, hown, hb, hm⟩

theorem held_release : Held (release locks p) b q m ↔ Held locks b q m ∧ q ≠ p := by
  constructor
  · rintro ⟨l, hl, rfl, hb, hm⟩
    obtain ⟨hl, hne⟩ := List.mem_filter.1 hl
    exact ⟨⟨l, hl, rfl, hb, hm⟩, of_decide_eq_true hne⟩
  · rintro ⟨⟨l, hl, rfl, hb, hm⟩, hne⟩
    exact ⟨l, List.mem_filter.2 ⟨hl, decide_eq_true hne⟩, rfl, hb, hm⟩

theorem Ok.unlock (h : Ok locks) (p : ι) (r : ByteRange) : Ok (unlock locks p r) :=
  fun b => (h b).mono fun _ _ hq => (held_unlock.1 hq).1

theorem Ok.release (h : Ok locks) (p : ι) : Ok (release locks p) :=
  fun b => (h b).mono fun _ _ hq => (held_release.1 hq).1

theorem Ok.lock (h : Ok locks) (hnone : conflict locks p r m = none) : Ok (lock locks p r m) := by
  have hothers : ∀ b q m', q ≠ p → Held (RangeLock.lock locks p r m) b q m' →
      Held locks b q m' := by
    intro b q m' hq hheld
    rcases held_lock.1 hheld with ⟨rfl, -⟩ | ⟨hold, -⟩
    · exact absurd rfl hq
    · exact hold
  intro b
  by_cases hb : b ∈ r
  · refine (h b).grant (conflict_eq_none.1 hnone b hb) ?_ (hothers b)
    intro m' hheld
    rcases held_lock.1 hheld with ⟨-, -, hm⟩ | ⟨-, hbr⟩
    · exact hm
    · exact absurd hb (hbr rfl)
  · refine (h b).mono ?_
    intro q m' hheld
    rcases held_lock.1 hheld with ⟨-, hbr, -⟩ | ⟨hold, -⟩
    · exact absurd hbr hb
    · exact hold

end RangeLock

end LinuxDemo
