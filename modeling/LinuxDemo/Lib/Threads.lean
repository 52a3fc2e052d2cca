import Mathlib.Algebra.BigOperators.Group.Finset.Piecewise
import Mathlib.Algebra.Order.BigOperators.Group.Finset
import LinuxDemo.Lib.Lts

/-!
# Interleaved threads

Threads, or processes, that share a state. Each of them is at a place of its program, and a local
step function says what executing an operation at a place does to the shared state and where the
thread goes on. The steps of the threads interleave in any order.

* `interleave_invariant`: an invariant is kept by every local step;
  `interleave_guard_invariant`: by every local step that meets a condition.
* `interleave_induct`: the same for a property of the history.
* `sum_update`: what a sum over the threads becomes when one of them moves.
-/

namespace LinuxDemo

open Lts

/-- The shared state, and the place of each thread. -/
structure Threads (ι σ π : Type*) where
  shared : σ
  pc : ι → π

namespace Threads

variable {ι σ π ε : Type*} [DecidableEq ι]

/-- Thread `e.1` executes `e.2`. -/
def next (step : ι → ε → σ → π → Option (σ × π)) (w : Threads ι σ π) (e : ι × ε) :
    Option (Threads ι σ π) :=
  (step e.1 e.2 w.shared (w.pc e.1)).map fun r => ⟨r.1, Function.update w.pc e.1 r.2⟩

/-- All interleavings of the threads that start at `y₀` with the shared state `s₀`. -/
def interleave (s₀ : σ) (y₀ : ι → π) (step : ι → ε → σ → π → Option (σ × π)) :
    Lts (Threads ι σ π) (ι × ε) :=
  ofNext ⟨s₀, y₀⟩ (next step)

variable {step : ι → ε → σ → π → Option (σ × π)} {s₀ : σ} {y₀ : ι → π}

/-- A step of the system is a local step of one thread. -/
theorem interleave_step {w w' : Threads ι σ π} {e : ι × ε}
    (h : (interleave s₀ y₀ step).step w e w') :
    ∃ s' y, step e.1 e.2 w.shared (w.pc e.1) = some (s', y) ∧
      w' = ⟨s', Function.update w.pc e.1 y⟩ := by
  obtain ⟨⟨s', y⟩, hs, rfl⟩ := Option.map_eq_some_iff.1 h
  exact ⟨s', y, hs, rfl⟩

theorem interleave_invariant {I : Threads ι σ π → Prop} (h₀ : I ⟨s₀, y₀⟩)
    (hs : ∀ p op s pc s' y, I ⟨s, pc⟩ → step p op s (pc p) = some (s', y) →
      I ⟨s', Function.update pc p y⟩) : (interleave s₀ y₀ step).Invariant I where
  init w h := by
    rw [h]
    exact h₀
  step w e w' h hstep := by
    obtain ⟨s', y, hlocal, rfl⟩ := interleave_step hstep
    exact hs e.1 e.2 w.shared w.pc s' y h hlocal

theorem interleave_guard_invariant {I : Threads ι σ π → Prop}
    {G : Threads ι σ π → ι × ε → Prop} (h₀ : I ⟨s₀, y₀⟩)
    (hs : ∀ p op s pc s' y, I ⟨s, pc⟩ → G ⟨s, pc⟩ (p, op) →
      step p op s (pc p) = some (s', y) → I ⟨s', Function.update pc p y⟩) :
    ((interleave s₀ y₀ step).guard G).Invariant I where
  init w h := by
    rw [h]
    exact h₀
  step w e w' h hstep := by
    obtain ⟨s', y, hlocal, rfl⟩ := interleave_step hstep.1
    exact hs e.1 e.2 w.shared w.pc s' y h hstep.2 hlocal

theorem interleave_induct {I : List (ι × ε) → Threads ι σ π → Prop} (h₀ : I [] ⟨s₀, y₀⟩)
    (hs : ∀ tr p op s pc s' y, I tr ⟨s, pc⟩ → step p op s (pc p) = some (s', y) →
      I (tr ++ [(p, op)]) ⟨s', Function.update pc p y⟩)
    {tr : List (ι × ε)} {w : Threads ι σ π} (h : (interleave s₀ y₀ step).Run tr w) : I tr w := by
  apply Run.induct (I := I) _ _ h
  · intro w hw
    rw [hw]
    exact h₀
  · intro tr w e w' hI hstep
    obtain ⟨s', y, hlocal, rfl⟩ := interleave_step hstep
    exact hs tr e.1 e.2 w.shared w.pc s' y hI hlocal

/-! ## Sums over the threads -/

/-- When one thread moves, its own part of the sum changes and nothing else. -/
theorem sum_update [Fintype ι] {M : Type*} [AddCommMonoid M] (f : π → M) (pc : ι → π) (p : ι)
    (y : π) :
    ∑ q, f (Function.update pc p y q) + f (pc p) = ∑ q, f (pc q) + f y := by
  have hcomp : ∀ q, f (Function.update pc p y q) = Function.update (fun q => f (pc q)) p (f y) q :=
    Function.apply_update (fun _ => f) pc p y
  rw [Finset.sum_congr rfl fun q _ => hcomp q, Finset.sum_update_of_mem (Finset.mem_univ p),
    ← Finset.sum_sdiff (Finset.subset_univ {p}), Finset.sum_singleton]
  rw [add_assoc, add_comm (f y)]

/-- When the threads have no more than one of something together, it is with one of them. -/
theorem eq_of_sum_le_one [Fintype ι] {f : ι → ℕ} (h : ∑ p, f p ≤ 1) {p q : ι} (hp : 0 < f p)
    (hq : 0 < f q) : p = q := by
  by_contra hne
  have hpair : ∑ r ∈ {p, q}, f r ≤ ∑ r, f r :=
    Finset.sum_le_sum_of_subset (Finset.subset_univ {p, q})
  rw [Finset.sum_pair hne] at hpair
  omega

end Threads

end LinuxDemo
