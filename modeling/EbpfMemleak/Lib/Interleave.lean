import Mathlib.Algebra.BigOperators.Group.Finset.Basic
import Mathlib.Data.Fintype.Basic

/-!
# EbpfMemleak.Lib.Interleave

**Threads over a shared state, interleaved freely.** A configuration is a shared
state and a local state for every thread. An entry of a schedule names the thread
that moves (`who`) and may carry further choices; `next` lets it take one atomic
step. A run is a fold of `next` over a schedule, so the rules of `Run` apply.

`forall_threads_next` is the rule for invariants of the threads: a step keeps what
it has to know of its own thread, and does not disturb what the others know.
`sum_threads_next` is the rule for sums over the threads: a step exchanges one
summand. `measure_foldl_le` is the rule for progress that does not depend on the others.
-/

namespace Interleave

/-- A shared state and the local state of every thread. -/
structure Config (σ τ ι : Type*) where
  shared : σ
  threads : ι → τ

variable {σ τ ι α : Type*} [DecidableEq ι] (who : α → ι) (step : α → σ → τ → σ × τ)

/-- The thread a schedule entry names takes one step. -/
def next (c : Config σ τ ι) (a : α) : Config σ τ ι where
  shared := (step a c.shared (c.threads (who a))).1
  threads := Function.update c.threads (who a) (step a c.shared (c.threads (who a))).2

@[simp] theorem next_threads_self (c : Config σ τ ι) (a : α) :
    (next who step c a).threads (who a) = (step a c.shared (c.threads (who a))).2 :=
  Function.update_self ..

theorem next_threads_of_ne {c : Config σ τ ι} {a : α} {i : ι} (h : i ≠ who a) :
    (next who step c a).threads i = c.threads i := Function.update_of_ne h ..

/-- **Own step, others' steps.** A property of every thread and the shared state
survives a step if the moving thread keeps it for itself and leaves it to every
other thread. -/
theorem forall_threads_next {I : σ → τ → Prop} {c : Config σ τ ι} {a : α}
    (hown : I (next who step c a).shared (step a c.shared (c.threads (who a))).2)
    (hothers : ∀ i, i ≠ who a → I (next who step c a).shared (c.threads i)) :
    ∀ i, I (next who step c a).shared ((next who step c a).threads i) := by
  intro i
  by_cases hi : i = who a
  · rw [hi, next_threads_self]
    exact hown
  · rw [next_threads_of_ne who step hi]
    exact hothers i hi

/-- What some thread has, the moving one has or another. -/
theorem exists_threads_iff {Q : τ → Prop} (c : Config σ τ ι) (i : ι) :
    (∃ j, Q (c.threads j)) ↔ Q (c.threads i) ∨ ∃ j, j ≠ i ∧ Q (c.threads j) := by
  constructor
  · rintro ⟨j, hj⟩
    by_cases hji : j = i
    · exact .inl (hji ▸ hj)
    · exact .inr ⟨j, hji, hj⟩
  · rintro (hi | ⟨j, -, hj⟩)
    · exact ⟨i, hi⟩
    · exact ⟨j, hj⟩

/-- A step that leaves a property of the other threads alone exchanges what the moving one
adds to it. -/
theorem exists_threads_next {Q : σ → τ → Prop} {P P' : Prop} {c : Config σ τ ι} {a : α}
    (hown : (P ∨ Q c.shared (c.threads (who a))) ↔
      (P' ∨ Q (next who step c a).shared ((next who step c a).threads (who a))))
    (hothers : ∀ i, i ≠ who a →
      (Q (next who step c a).shared (c.threads i) ↔ Q c.shared (c.threads i))) :
    (P ∨ ∃ i, Q c.shared (c.threads i)) ↔
      (P' ∨ ∃ i, Q (next who step c a).shared ((next who step c a).threads i)) := by
  have hrest : (∃ i, i ≠ who a ∧ Q (next who step c a).shared ((next who step c a).threads i)) ↔
      ∃ i, i ≠ who a ∧ Q c.shared (c.threads i) := by
    refine exists_congr fun i => and_congr_right fun hi => ?_
    rw [next_threads_of_ne who step hi]
    exact hothers i hi
  rw [exists_threads_iff c (who a), exists_threads_iff (next who step c a) (who a), hrest,
    ← or_assoc, ← or_assoc, hown]

section Sums

variable {M : Type*} [AddCommMonoid M] [Fintype ι]

/-- A step that leaves the summands of the other threads alone exchanges the summand
of the moving one. -/
theorem sum_threads_next (f : σ → τ → M) {c : Config σ τ ι} {a : α}
    (hothers : ∀ i, i ≠ who a →
      f (next who step c a).shared (c.threads i) = f c.shared (c.threads i)) :
    f c.shared (c.threads (who a)) +
        ∑ i, f (next who step c a).shared ((next who step c a).threads i) =
      f (next who step c a).shared ((next who step c a).threads (who a)) +
        ∑ i, f c.shared (c.threads i) := by
  have hrest : ∑ i ∈ Finset.univ.erase (who a),
      f (next who step c a).shared ((next who step c a).threads i) =
        ∑ i ∈ Finset.univ.erase (who a), f c.shared (c.threads i) := by
    refine Finset.sum_congr rfl fun i hi => ?_
    have hi' : i ≠ who a := Finset.ne_of_mem_erase hi
    rw [next_threads_of_ne who step hi']
    exact hothers i hi'
  rw [← Finset.add_sum_erase _ _ (Finset.mem_univ (who a)),
    ← Finset.add_sum_erase Finset.univ (fun i => f c.shared (c.threads i))
      (Finset.mem_univ (who a)), hrest]
  exact add_left_comm ..

end Sums

/-- If the moving thread balances what it gains and pays in its step, so does the sum
over the threads. -/
theorem balance_next {M : Type*} [AddCancelCommMonoid M] [Fintype ι] (f : σ → τ → M)
    {c : Config σ τ ι} {a : α} {gain pay : M}
    (hown : f c.shared (c.threads (who a)) + gain =
      f (next who step c a).shared ((next who step c a).threads (who a)) + pay)
    (hothers : ∀ i, i ≠ who a →
      f (next who step c a).shared (c.threads i) = f c.shared (c.threads i)) :
    ∑ i, f c.shared (c.threads i) + gain =
      ∑ i, f (next who step c a).shared ((next who step c a).threads i) + pay := by
  have hsum := sum_threads_next who step f hothers
  refine add_left_cancel (a := f c.shared (c.threads (who a)) +
    f (next who step c a).shared ((next who step c a).threads (who a))) ?_
  calc _ = (f (next who step c a).shared ((next who step c a).threads (who a)) +
            ∑ i, f c.shared (c.threads i)) + (f c.shared (c.threads (who a)) + gain) := by
          ac_rfl
    _ = _ := by
          rw [← hsum, hown]
          ac_rfl

/-! ### What must have happened -/

/-- A thread that ends a run with a property it did not start with has taken a step
that gave it the property. -/
theorem exists_step_of_threads {Q : τ → Prop} {c : Config σ τ ι} {i : ι} {sched : List α}
    (hstart : ¬ Q (c.threads i)) (hend : Q ((sched.foldl (next who step) c).threads i)) :
    ∃ pre a post, sched = pre ++ a :: post ∧ who a = i ∧
      ¬ Q ((pre.foldl (next who step) c).threads i) ∧
      Q (step a (pre.foldl (next who step) c).shared
        ((pre.foldl (next who step) c).threads i)).2 := by
  induction sched generalizing c with
  | nil => exact absurd hend hstart
  | cons a sched ih =>
      by_cases hnow : Q ((next who step c a).threads i)
      · -- it is the first step: only the moving thread can have gained the property
        have hwho : who a = i := by
          by_contra hne
          rw [next_threads_of_ne who step (Ne.symm hne)] at hnow
          exact hstart hnow
        subst hwho
        rw [next_threads_self] at hnow
        exact ⟨[], a, sched, rfl, rfl, hstart, hnow⟩
      · obtain ⟨pre, b, post, heq, hwho, hbefore, hafter⟩ := ih hnow hend
        exact ⟨a :: pre, b, post, by rw [heq]; rfl, hwho, hbefore, hafter⟩

/-! ### Progress -/

/-- **Own steps count.** A measure of a thread that each of its steps lowers, unless it is 0,
is lowered by the number of steps the thread gets, whatever the other threads do in
between. -/
theorem measure_foldl_le {μ : τ → Nat} (hstep : ∀ a s t, μ (step a s t).2 ≤ μ t - 1)
    (c : Config σ τ ι) (sched : List α) (i : ι) :
    μ ((sched.foldl (next who step) c).threads i) ≤
      μ (c.threads i) - sched.countP fun a => who a = i := by
  induction sched generalizing c with
  | nil => exact Nat.le_refl _
  | cons a sched ih =>
      have hrest := ih (next who step c a)
      rw [List.foldl_cons]
      by_cases hi : who a = i
      · subst hi
        have hown := hstep a c.shared (c.threads (who a))
        rw [next_threads_self] at hrest
        rw [List.countP_cons_of_pos (by simp)]
        omega
      · rw [next_threads_of_ne who step (Ne.symm hi)] at hrest
        rwa [List.countP_cons_of_neg (by simpa using hi)]

end Interleave
