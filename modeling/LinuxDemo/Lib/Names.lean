import LinuxDemo.Lib.Threads

/-!
# Objects behind a name

A name in the kernel (a path, a key) and the objects it has led to, one after the other. Creating is
exclusive: it needs the name to be free. An object outlives its name for the processes that work
with it, so objects are numbered in the order of their creation and a number is never used again.

* `create`, `unlink`, `unlinkObject`, `put`: the operations.
* `Balanced`: a quantity of every object is what the processes that work with it have put there.
  `Balanced.step`: it stays so when the step of a process changes both sides alike.
-/

namespace LinuxDemo

/-- The object that the name leads to, and all objects created so far. -/
structure Names (α : Type*) where
  name : Option ℕ
  object : ℕ → α
  /-- The number of the next object. -/
  fresh : ℕ

namespace Names

variable {α : Type*}

/-- The name is free, and nothing was created yet; an object starts as `a`. -/
def unused (a : α) : Names α := ⟨none, fun _ => a, 0⟩

/-- Create a new object `a` under the name. -/
def create (n : Names α) (a : α) : Option (Names α) :=
  if n.name = none then some ⟨some n.fresh, Function.update n.object n.fresh a, n.fresh + 1⟩
  else none

/-- The name becomes free. -/
def unlink (n : Names α) : Names α := { n with name := none }

/-- The name becomes free if it leads to the object `k`. -/
def unlinkObject (n : Names α) (k : ℕ) : Names α := if n.name = some k then n.unlink else n

/-- The object `k` becomes `a`. -/
def put (n : Names α) (k : ℕ) (a : α) : Names α :=
  { n with object := Function.update n.object k a }

theorem create_eq_some {n n' : Names α} {a : α} :
    n.create a = some n' ↔ n.name = none ∧
      n' = ⟨some n.fresh, Function.update n.object n.fresh a, n.fresh + 1⟩ := by
  unfold create
  split_ifs with h <;> simp [h, eq_comm]

@[simp] theorem put_object_self (n : Names α) (k : ℕ) (a : α) : (n.put k a).object k = a :=
  Function.update_self ..

theorem put_object_of_ne {n : Names α} {k j : ℕ} {a : α} (h : j ≠ k) :
    (n.put k a).object j = n.object j :=
  Function.update_of_ne h ..

@[simp] theorem unlinkObject_object (n : Names α) (k : ℕ) :
    (n.unlinkObject k).object = n.object := by
  unfold unlinkObject
  split_ifs <;> rfl

@[simp] theorem unlinkObject_fresh (n : Names α) (k : ℕ) : (n.unlinkObject k).fresh = n.fresh := by
  unfold unlinkObject
  split_ifs <;> rfl

theorem unlinkObject_name {n : Names α} {k j : ℕ} :
    (n.unlinkObject k).name = some j ↔ n.name = some j ∧ j ≠ k := by
  unfold unlinkObject
  split_ifs with h
  · rw [h]
    constructor
    · intro hj
      cases hj
    · rintro ⟨hj, hne⟩
      exact absurd (Option.some.inj hj).symm hne
  · refine ⟨fun hj => ⟨hj, ?_⟩, And.left⟩
    rintro rfl
    exact h hj

/-! ## Accounts -/

variable {ι π M : Type*} [AddCancelCommMonoid M]

/-- A quantity of the objects, what a process at a place has put into each of them, and the object
it works with. -/
structure Account (α π M : Type*) [AddCancelCommMonoid M] where
  measure : α → M
  weight : ℕ → π → M
  handle : π → Option ℕ
  weight_eq_zero : ∀ {k x}, handle x ≠ some k → weight k x = 0

/-- Processes work with objects that exist, and each object has what they have put into it. -/
structure Balanced [Fintype ι] (A : Account α π M) (w : Threads ι (Names α) π) : Prop where
  name : ∀ k, w.shared.name = some k → k < w.shared.fresh
  handle : ∀ p k, A.handle (w.pc p) = some k → k < w.shared.fresh
  balance : ∀ k < w.shared.fresh, A.measure (w.shared.object k) = ∑ p, A.weight k (w.pc p)

section Steps

variable [DecidableEq ι] [Fintype ι] {A : Account α π M} {n n' : Names α} {pc : ι → π} {p : ι}
  {y : π}

/-- The step of process `p` changes the quantity of each object by what it puts there. -/
theorem Balanced.step (h : Balanced A ⟨n, pc⟩) (hfresh : n'.fresh = n.fresh)
    (hname : ∀ k, n'.name = some k → n.name = some k)
    (hhandle : ∀ k, A.handle y = some k → k < n.fresh)
    (hbalance : ∀ k < n.fresh, A.measure (n'.object k) + A.weight k (pc p) =
      A.measure (n.object k) + A.weight k y) :
    Balanced A ⟨n', Function.update pc p y⟩ where
  name k hk := by
    rw [show (Threads.mk n' _).shared.fresh = n.fresh from hfresh]
    exact h.name k (hname k hk)
  handle := by
    rw [show (Threads.mk n' _).shared.fresh = n.fresh from hfresh]
    exact (Function.forall_update_iff _ fun _ x => ∀ k, A.handle x = some k → k < n.fresh).2
      ⟨hhandle, fun q _ => h.handle q⟩
  balance k hk := by
    rw [show (Threads.mk n' _).shared.fresh = n.fresh from hfresh] at hk
    have hold : A.measure (n.object k) = ∑ q, A.weight k (pc q) := h.balance k hk
    have hsum := Threads.sum_update (A.weight k) pc p y
    rw [← hold, ← hbalance k hk] at hsum
    exact (add_right_cancel hsum).symm

/-- A step that changes no object and puts nothing anywhere. -/
theorem Balanced.move (h : Balanced A ⟨n, pc⟩)
    (hhandle : ∀ k, A.handle y = some k → k < n.fresh)
    (hweight : ∀ k, A.weight k y = A.weight k (pc p)) :
    Balanced A ⟨n, Function.update pc p y⟩ :=
  h.step rfl (fun _ => id) hhandle fun k _ => by rw [hweight]

/-- The step of process `p` changes the object `k` that it works with, and no other. -/
theorem Balanced.put (h : Balanced A ⟨n, pc⟩) {k : ℕ} {a : α} (hx : A.handle (pc p) = some k)
    (hy : ∀ j, A.handle y = some j → j = k)
    (hbalance : A.measure a + A.weight k (pc p) = A.measure (n.object k) + A.weight k y) :
    Balanced A ⟨n.put k a, Function.update pc p y⟩ := by
  refine h.step rfl (fun _ => id) ?_ ?_
  · intro j hj
    rw [hy j hj]
    exact h.handle p k hx
  · intro j _
    show A.measure (Function.update n.object k a j) + _ = _
    by_cases hj : j = k
    · subst hj
      rw [Function.update_self]
      exact hbalance
    · have hxj : A.weight j (pc p) = 0 :=
        A.weight_eq_zero fun heq => hj (Option.some.inj (heq.symm.trans hx))
      have hyj : A.weight j y = 0 := A.weight_eq_zero fun heq => hj (hy j heq)
      rw [Function.update_of_ne hj, hxj, hyj]

/-- The step of process `p` creates an object, which nobody works with yet. -/
theorem Balanced.create (h : Balanced A ⟨n, pc⟩) {a : α} (hx : A.handle (pc p) = none)
    (hy : A.handle y = some n.fresh) (ha : A.measure a = A.weight n.fresh y) :
    Balanced A ⟨⟨some n.fresh, Function.update n.object n.fresh a, n.fresh + 1⟩,
      Function.update pc p y⟩ where
  name k hk := by
    cases hk
    exact Nat.lt_succ_self _
  handle := by
    refine (Function.forall_update_iff _ fun _ x => ∀ k, A.handle x = some k → k < n.fresh + 1).2
      ⟨?_, ?_⟩
    · intro k hk
      rw [hy] at hk
      cases hk
      exact Nat.lt_succ_self _
    · intro q _ k hk
      exact (h.handle q k hk).trans (Nat.lt_succ_self _)
  balance k hk := by
    show A.measure (Function.update n.object n.fresh a k) = _
    have hxk : A.weight k (pc p) = 0 := A.weight_eq_zero (by rw [hx]; simp)
    have hsum := Threads.sum_update (A.weight k) pc p y
    rw [hxk, add_zero] at hsum
    by_cases hkf : k = n.fresh
    · subst hkf
      have hzero : ∑ q, A.weight n.fresh (pc q) = 0 := by
        apply Finset.sum_eq_zero
        intro q _
        apply A.weight_eq_zero
        intro hq
        exact lt_irrefl _ (h.handle q _ hq)
      rw [Function.update_self, ha]
      rw [hzero, zero_add] at hsum
      exact hsum.symm
    · have hyk : A.weight k y = 0 := by
        apply A.weight_eq_zero
        rw [hy]
        intro heq
        exact hkf (Option.some.inj heq).symm
      have hold : A.measure (n.object k) = ∑ q, A.weight k (pc q) :=
        h.balance k (lt_of_le_of_ne (Nat.lt_succ_iff.1 hk) hkf)
      rw [hyk, add_zero] at hsum
      rw [Function.update_of_ne hkf, hold]
      exact hsum.symm

end Steps

end Names

end LinuxDemo
