import Mathlib.Data.List.Basic
import Mathlib.Logic.Function.Basic

/-!
# Labelled transition systems

A system is a set of initial states and a labelled step relation. A *run* is a finite sequence
of steps from an initial state, recorded by its trace of labels; properties of "every reachable
state" and of "every history" are both properties of runs.

* `Run.induct`: what holds at the start and is kept by a step holds in every run.
* `Run.before`: every step of a run was taken in a state reached by the steps before it.
* `Invariant.countP_le`, `Invariant.length_le`: a measure that the steps make smaller bounds their number.
* `guard`: the system restricted to the steps that meet a condition.
* `Simulation.run`: a simulation turns every run into a run of the abstract system with the
  same visible trace.
* `exec`: systems given by a function can be executed on a schedule, which yields a run.
-/

namespace LinuxDemo

/-- A labelled transition system. -/
structure Lts (σ ε : Type*) where
  init : σ → Prop
  step : σ → ε → σ → Prop

namespace Lts

variable {σ ε α β : Type*}

/-- `M.Run tr s`: from an initial state, the steps labelled `tr` lead to `s`. -/
inductive Run (M : Lts σ ε) : List ε → σ → Prop
  | init {s : σ} : M.init s → Run M [] s
  | snoc {tr : List ε} {s s' : σ} {e : ε} :
      Run M tr s → M.step s e s' → Run M (tr ++ [e]) s'

/-- Some run ends in `s`. -/
def Reachable (M : Lts σ ε) (s : σ) : Prop := ∃ tr, M.Run tr s

theorem Reachable.step {M : Lts σ ε} {s s' : σ} {e : ε} (h : M.Reachable s)
    (hs : M.step s e s') : M.Reachable s' := by
  obtain ⟨tr, hr⟩ := h
  exact ⟨tr ++ [e], hr.snoc hs⟩

/-- **Induction over runs**, for a property of the history and the state. -/
theorem Run.induct {M : Lts σ ε} {I : List ε → σ → Prop} (h₀ : ∀ s, M.init s → I [] s)
    (hs : ∀ tr s e s', I tr s → M.step s e s' → I (tr ++ [e]) s')
    {tr : List ε} {s : σ} (h : M.Run tr s) : I tr s := by
  induction h with
  | init hi => exact h₀ _ hi
  | snoc _ hstep ih => exact hs _ _ _ _ ih hstep

/-- A run that has taken the step `e` was in a state where it could. -/
theorem Run.before {M : Lts σ ε} {tr₁ tr₂ : List ε} {e : ε} {s : σ}
    (h : M.Run (tr₁ ++ e :: tr₂) s) : ∃ s₁ s₂, M.Run tr₁ s₁ ∧ M.step s₁ e s₂ := by
  generalize htr : tr₁ ++ e :: tr₂ = tr at h
  induction h generalizing tr₂ with
  | init => simp at htr
  | @snoc tr s s' e' hrun hstep ih =>
    rcases List.eq_nil_or_concat tr₂ with rfl | ⟨tr₃, e₃, rfl⟩
    · obtain ⟨rfl, he⟩ := List.append_inj' htr rfl
      cases he
      exact ⟨s, s', hrun, hstep⟩
    · rw [List.concat_eq_append, ← List.cons_append, ← List.append_assoc] at htr
      exact ih (List.append_inj' htr rfl).1

/-- A state predicate that holds initially and is kept by every step. -/
structure Invariant (M : Lts σ ε) (I : σ → Prop) : Prop where
  init : ∀ s, M.init s → I s
  step : ∀ s e s', I s → M.step s e s' → I s'

theorem Invariant.run {M : Lts σ ε} {I : σ → Prop} (hI : M.Invariant I) {tr : List ε} {s : σ}
    (h : M.Run tr s) : I s :=
  Run.induct (I := fun _ s => I s) hI.init (fun _ s e s' => hI.step s e s') h

/-- **Termination.** When no step makes a measure larger, and those with the labels in `P` make it
smaller, a run has no more of these than the measure was at its start. -/
theorem Invariant.countP_le {M : Lts σ ε} {I : σ → Prop} (hI : M.Invariant I) {μ : σ → ℕ} {n : ℕ}
    {P : ε → Bool} (h₀ : ∀ s, M.init s → μ s ≤ n)
    (hs : ∀ s e s', I s → M.step s e s' → μ s' + (P e).toNat ≤ μ s) {tr : List ε} {s : σ}
    (h : M.Run tr s) : tr.countP P + μ s ≤ n := by
  induction h with
  | init hi => simpa using h₀ _ hi
  | @snoc tr s s' e hrun hstep ih =>
    have hle := hs _ _ _ (hI.run hrun) hstep
    have hcount : (tr ++ [e]).countP P = tr.countP P + (P e).toNat := by
      rw [List.countP_append, List.countP_singleton]
      cases P e <;> rfl
    omega

/-- When every step makes the measure smaller, a run is no longer than the measure was at its start. -/
theorem Invariant.length_le {M : Lts σ ε} {I : σ → Prop} (hI : M.Invariant I) {μ : σ → ℕ} {n : ℕ}
    (h₀ : ∀ s, M.init s → μ s ≤ n) (hs : ∀ s e s', I s → M.step s e s' → μ s' < μ s)
    {tr : List ε} {s : σ} (h : M.Run tr s) : tr.length + μ s ≤ n := by
  have hcount := hI.countP_le (P := fun _ => true) h₀ hs h
  rwa [List.countP_true] at hcount

/-! ## Restricting the steps -/

/-- The runs all of whose steps meet the condition `G` on the state before the step. -/
def guard (M : Lts σ ε) (G : σ → ε → Prop) : Lts σ ε where
  init := M.init
  step s e s' := M.step s e s' ∧ G s e

theorem Run.of_guard {M : Lts σ ε} {G : σ → ε → Prop} {tr : List ε} {s : σ}
    (h : (M.guard G).Run tr s) : M.Run tr s := by
  induction h with
  | init hi => exact .init hi
  | snoc _ hstep ih => exact ih.snoc hstep.1

/-- An invariant of the system is one of every restriction of it, and may be used to find
further invariants of the restriction. -/
theorem Invariant.guard_and {M : Lts σ ε} {G : σ → ε → Prop} {I J : σ → Prop}
    (hI : M.Invariant I) (h₀ : ∀ s, M.init s → J s)
    (hs : ∀ s e s', I s → J s → M.step s e s' → G s e → J s') :
    (M.guard G).Invariant fun s => I s ∧ J s where
  init s h := ⟨hI.init s h, h₀ s h⟩
  step s e s' h hstep := ⟨hI.step s e s' h.1 hstep.1, hs s e s' h.1 h.2 hstep.1 hstep.2⟩

/-! ## Simulation -/

/-- `R` relates every step of `C` to one step of `A` when `vis` shows its label, and to no step
when `vis` hides it. -/
structure Simulation (C : Lts σ ε) (A : Lts α β) (vis : ε → Option β) (R : σ → α → Prop) :
    Prop where
  init : ∀ s, C.init s → ∃ a, A.init a ∧ R s a
  step : ∀ s e s' a, R s a → C.step s e s' →
    match vis e with
    | none => R s' a
    | some b => ∃ a', A.step a b a' ∧ R s' a'

/-- **Trace refinement.** Every run of the concrete system is matched by a run of the abstract
one on the visible labels. -/
theorem Simulation.run {C : Lts σ ε} {A : Lts α β} {vis : ε → Option β} {R : σ → α → Prop}
    (hsim : Simulation C A vis R) {tr : List ε} {s : σ} (h : C.Run tr s) :
    ∃ a, A.Run (tr.filterMap vis) a ∧ R s a := by
  induction h with
  | init hi =>
    obtain ⟨a, ha, hR⟩ := hsim.init _ hi
    exact ⟨a, .init ha, hR⟩
  | @snoc tr s s' e _ hstep ih =>
    obtain ⟨a, ha, hR⟩ := ih
    have hmatch := hsim.step s e s' a hR hstep
    rw [List.filterMap_append]
    cases hv : vis e with
    | none =>
      rw [hv] at hmatch
      exact ⟨a, by simpa [hv] using ha, hmatch⟩
    | some b =>
      rw [hv] at hmatch
      obtain ⟨a', hstep', hR'⟩ := hmatch
      exact ⟨a', by simpa [hv] using ha.snoc hstep', hR'⟩

/-! ## Executable systems -/

/-- The system of an initial state and a partial step function. -/
def ofNext (s₀ : σ) (next : σ → ε → Option σ) : Lts σ ε where
  init s := s = s₀
  step s e s' := next s e = some s'

/-- Execute a schedule. -/
def exec (next : σ → ε → Option σ) : σ → List ε → Option σ
  | s, [] => some s
  | s, e :: es => (next s e).bind (exec next · es)

theorem run_exec {M : Lts σ ε} {next : σ → ε → Option σ}
    (hM : ∀ s e s', next s e = some s' → M.step s e s') :
    ∀ {es tr : List ε} {s s' : σ}, M.Run tr s → exec next s es = some s' → M.Run (tr ++ es) s'
  | [], tr, s, s', hr, h => by
    simp only [exec, Option.some.injEq] at h
    simpa [← h] using hr
  | e :: es, tr, s, s', hr, h => by
    simp only [exec, Option.bind_eq_some_iff] at h
    obtain ⟨s₁, h₁, h₂⟩ := h
    have := run_exec hM (hr.snoc (hM _ _ _ h₁)) h₂
    simpa using this

/-- A schedule that executes to a state where the test `p` succeeds is a run to such a state. -/
theorem exists_run_of_exec (s₀ : σ) (next : σ → ε → Option σ) (es : List ε) (p : σ → Bool)
    (h : (exec next s₀ es).any p = true) : ∃ s, (ofNext s₀ next).Run es s ∧ p s = true := by
  cases hx : exec next s₀ es with
  | none => simp [hx] at h
  | some s =>
    refine ⟨s, ?_, by simpa [hx] using h⟩
    simpa using run_exec (M := ofNext s₀ next) (fun _ _ _ h => h) (.init rfl) hx

/-- The step function of a restricted system, for a condition that can be tested. -/
def guardNext (next : σ → ε → Option σ) (G : σ → ε → Prop) [∀ s e, Decidable (G s e)] (s : σ)
    (e : ε) : Option σ :=
  if G s e then next s e else none

/-- A run of a restricted system goes on along a schedule whose steps pass a test that is enough
for the condition. -/
theorem exists_guard_run_of_exec {s₀ s : σ} (next : σ → ε → Option σ) {G T : σ → ε → Prop}
    [∀ s e, Decidable (T s e)] (hT : ∀ s e, T s e → G s e) {tr : List ε}
    (hr : ((ofNext s₀ next).guard G).Run tr s) (es : List ε) (p : σ → Bool)
    (h : (exec (guardNext next T) s es).any p = true) :
    ∃ s', ((ofNext s₀ next).guard G).Run (tr ++ es) s' ∧ p s' = true := by
  cases hx : exec (guardNext next T) s es with
  | none => simp [hx] at h
  | some s' =>
    refine ⟨s', ?_, by simpa [hx] using h⟩
    have hM : ∀ s e s', guardNext next T s e = some s' →
        ((ofNext s₀ next).guard G).step s e s' := by
      intro s e s' hs
      unfold guardNext at hs
      split_ifs at hs with hG
      exact ⟨hs, hT s e hG⟩
    exact run_exec hM hr hx

end Lts

end LinuxDemo
