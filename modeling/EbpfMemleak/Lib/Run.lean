import Mathlib.Data.List.Basic
import Mathlib.Data.List.Induction
import Mathlib.Data.Prod.Basic
import Mathlib.Algebra.Group.Basic
import Mathlib.Algebra.Group.Hom.Defs

/-!
# EbpfMemleak.Lib.Run

**Runs of a deterministic step function.** The state after the inputs `as` is
`as.foldl step s`. `Along step P s as` says that every step of that run meets
the side condition `P`, evaluated on the state the step starts from: it is how
a result about all runs states what the environment promises.

`foldl_invariant` is the rule every result about runs goes through: a property
kept by each step that meets the side condition holds at the end of the run,
and, since a prefix of a run is a run, at every point of it. `forall_prefix_iff_along`
is its exact form: a property that a step keeps exactly when it meets a condition
holds at every point exactly when all steps do. `forall_prefix_iff` compares two properties
of the run so far that are known to agree only while one of them holds, and
`exists_step_of_foldl` finds the step in which something has come about. `foldl_last` is the
rule for results of the form "the last input that ... decides". `total` adds up
an amount over the steps of a run, and `total_balance` is the rule for results of
the form "what came in is what went out, up to what is still owed".
-/

namespace Run

variable {σ τ α : Type*} {step : σ → α → σ} {P Q : σ → α → Prop}

/-- Every step of the run over `as` from `s` meets `P`. -/
def Along (step : σ → α → σ) (P : σ → α → Prop) : σ → List α → Prop
  | _, [] => True
  | s, a :: as => P s a ∧ Along step P (step s a) as

instance decidableAlong (step : σ → α → σ) (P : σ → α → Prop) [∀ s a, Decidable (P s a)] :
    ∀ s as, Decidable (Along step P s as)
  | _, [] => inferInstanceAs (Decidable True)
  | s, a :: as =>
      have := decidableAlong step P (step s a) as
      inferInstanceAs (Decidable (_ ∧ _))

@[simp] theorem along_nil (s : σ) : Along step P s [] := trivial

@[simp] theorem along_cons (s : σ) (a : α) (as : List α) :
    Along step P s (a :: as) ↔ P s a ∧ Along step P (step s a) as := Iff.rfl

theorem along_append (s : σ) (as bs : List α) :
    Along step P s (as ++ bs) ↔ Along step P s as ∧ Along step P (as.foldl step s) bs := by
  induction as generalizing s with
  | nil => simp
  | cons a as ih => simp [ih, and_assoc]

/-- A prefix of a run is a run. -/
theorem Along.restrict {s : σ} {as bs : List α} (h : Along step P s bs) (hp : as <+: bs) :
    Along step P s as := by
  obtain ⟨cs, rfl⟩ := hp
  exact ((along_append s as cs).mp h).1

theorem Along.imp (hPQ : ∀ s a, P s a → Q s a) {s : σ} {as : List α}
    (h : Along step P s as) : Along step Q s as := by
  induction as generalizing s with
  | nil => trivial
  | cons a as ih => exact ⟨hPQ _ _ h.1, ih h.2⟩

theorem Along.and {s : σ} {as : List α} (hP : Along step P s as) (hQ : Along step Q s as) :
    Along step (fun s a => P s a ∧ Q s a) s as := by
  induction as generalizing s with
  | nil => trivial
  | cons a as ih => exact ⟨⟨hP.1, hQ.1⟩, ih hP.2 hQ.2⟩

/-- A side condition on the inputs alone holds along a run exactly when every input
meets it. -/
theorem along_iff_forall_mem {R : α → Prop} {s : σ} {as : List α} :
    Along step (fun _ a => R a) s as ↔ ∀ a ∈ as, R a := by
  induction as generalizing s with
  | nil => simp
  | cons a as ih => rw [along_cons, ih, List.forall_mem_cons]

/-- A machine that carries more state meets a side condition on the part a smaller
machine has exactly when that one does. -/
theorem along_map {step' : τ → α → τ} {f : τ → σ} (hf : ∀ t a, f (step' t a) = step (f t) a)
    {t : τ} {as : List α} :
    Along step' (fun t a => P (f t) a) t as ↔ Along step P (f t) as := by
  induction as generalizing t with
  | nil => simp
  | cons a as ih => rw [along_cons, along_cons, ih, hf]

/-- **The invariant rule.** What holds initially and is kept by every step that
meets the side condition holds after the run. -/
theorem foldl_invariant {I : σ → Prop}
    (hstep : ∀ s a, I s → P s a → I (step s a)) {s : σ} {as : List α}
    (h0 : I s) (h : Along step P s as) : I (as.foldl step s) := by
  induction as generalizing s with
  | nil => exact h0
  | cons a as ih => exact ih (hstep s a h0 h.1) h.2

/-- An invariant holds in front of every step of the run. -/
theorem Along.and_invariant {I : σ → Prop}
    (hstep : ∀ s a, I s → P s a → I (step s a)) {s : σ} {as : List α}
    (h0 : I s) (h : Along step P s as) : Along step (fun s a => P s a ∧ I s) s as := by
  induction as generalizing s with
  | nil => trivial
  | cons a as ih => exact ⟨⟨h.1, h0⟩, ih (hstep s a h0 h.1) h.2⟩

/-- **The exact rule.** Let `J` be an invariant of the run. If a step from a good state
ends in a good state exactly when it meets `Q`, then all states of the run are good
exactly when all its steps meet `Q`. -/
theorem forall_prefix_iff_along {G J : σ → Prop}
    (hinv : ∀ s a, J s → P s a → J (step s a))
    (hstep : ∀ s a, J s → P s a → G s → (G (step s a) ↔ Q s a)) {s : σ} {as : List α}
    (hP : Along step P s as) (hJ : J s) (hG : G s) :
    (∀ pre, pre <+: as → G (pre.foldl step s)) ↔ Along step Q s as := by
  induction as generalizing s with
  | nil => simpa using hG
  | cons a as ih =>
      have hnext := ih hP.2 (hinv s a hJ hP.1)
      have hhead := hstep s a hJ hP.1 hG
      constructor
      · intro h
        have hgood : G (step s a) := h [a] (by simp)
        exact ⟨hhead.mp hgood, (hnext hgood).mp fun pre hpre => h (a :: pre) (by simpa using hpre)⟩
      · rintro ⟨hQ, hrest⟩ pre hpre
        rcases List.prefix_cons_iff.mp hpre with rfl | ⟨rest, rfl, hrest'⟩
        · exact hG
        · exact (hnext (hhead.mpr hQ)).mpr hrest rest hrest'

/-- **The rule for growing runs.** Let `C` pass from each run to the next one where `A` holds.
If `A` and `B` say the same wherever `C` holds, they say the same of a run with all its
prefixes. -/
theorem forall_prefix_iff {A B C : List α → Prop} {as : List α} (h0 : C [])
    (hstep : ∀ pre a, pre ++ [a] <+: as → C pre → A pre → C (pre ++ [a]))
    (hiff : ∀ pre, pre <+: as → C pre → (A pre ↔ B pre)) :
    (∀ pre, pre <+: as → A pre) ↔ ∀ pre, pre <+: as → B pre := by
  -- either of the two carries `C`, and with it the other, to the end
  have carry : ∀ X : List α → Prop, (∀ pre, pre <+: as → C pre → X pre → A pre) →
      (∀ pre, pre <+: as → X pre) → ∀ pre, pre <+: as → C pre := by
    intro X hXA hX pre hpre
    induction pre using List.reverseRecOn with
    | nil => exact h0
    | append_singleton pre a ih =>
        have hbefore : pre <+: as := (List.prefix_append pre [a]).trans hpre
        have hC : C pre := ih hbefore
        exact hstep pre a hpre hC (hXA pre hbefore hC (hX pre hbefore))
  constructor
  · intro hA pre hpre
    exact (hiff pre hpre (carry A (fun _ _ _ h => h) hA pre hpre)).mp (hA pre hpre)
  · intro hB pre hpre
    exact (hiff pre hpre (carry B (fun p hp hC => (hiff p hp hC).mpr) hB pre hpre)).mpr
      (hB pre hpre)

/-- **The rule of the moment.** What holds at the end of a run and not at its start has come
about in one of its steps. -/
theorem exists_step_of_foldl {I : σ → Prop} {s : σ} {as : List α} (h0 : ¬ I s)
    (h : I (as.foldl step s)) : ∃ pre a, pre ++ [a] <+: as ∧ ¬ I (pre.foldl step s) ∧
      I (step (pre.foldl step s) a) := by
  induction as generalizing s with
  | nil => exact absurd h h0
  | cons a as ih =>
      by_cases hnow : I (step s a)
      · exact ⟨[], a, List.prefix_append [a] as, h0, hnow⟩
      · obtain ⟨pre, b, hpre, hbefore, hafter⟩ := ih hnow h
        exact ⟨a :: pre, b, (List.prefix_cons_inj a).mpr hpre, hbefore, hafter⟩

/-- **The last-input rule.** An observation that every step either sets to a value
of the input or leaves alone is decided by the last input that sets it. -/
theorem foldl_last {β : Type*} {f : σ → β} {sets : α → Prop} [DecidablePred sets] {v : α → β}
    (hstep : ∀ s a, P s a → f (step s a) = if sets a then v a else f s) {s : σ} {as : List α}
    (h : Along step P s as) :
    f (as.foldl step s) = ((as.filter fun a => sets a).getLast?.map v).getD (f s) := by
  -- from the back: the last input is the one that counts
  induction as using List.reverseRecOn with
  | nil => rfl
  | append_singleton as a ih =>
      obtain ⟨has, ha, -⟩ := (along_append s as [a]).mp h
      have hlast := hstep _ _ ha
      rw [List.foldl_append, List.foldl_cons, List.foldl_nil, hlast, List.filter_append,
        List.filter_singleton]
      by_cases hsets : sets a
      · rw [if_pos hsets, decide_eq_true hsets, cond_true, List.getLast?_concat,
          Option.map_some, Option.getD_some]
      · rw [if_neg hsets, decide_eq_false hsets, cond_false, List.append_nil, ih has]

/-- **The simulation rule.** Two machines fed the same inputs, each with its own
side condition, stay related when every pair of steps keeps them related. -/
theorem foldl_simulation {step' : τ → α → τ} {Q : τ → α → Prop} {R : σ → τ → Prop}
    (hstep : ∀ s t a, R s t → P s a → Q t a → R (step s a) (step' t a)) {s : σ} {t : τ}
    {as : List α} (h0 : R s t) (hP : Along step P s as) (hQ : Along step' Q t as) :
    R (as.foldl step s) (as.foldl step' t) := by
  induction as generalizing s t with
  | nil => exact h0
  | cons a as ih => exact ih (hstep s t a h0 hP.1 hQ.1) hP.2 hQ.2

/-! ### Totals -/

section Totals

variable {M : Type*} [AddCommMonoid M]

/-- The sum of an amount over the steps of a run, each taken in the state the step
starts from. -/
def total (step : σ → α → σ) (f : σ → α → M) : σ → List α → M
  | _, [] => 0
  | s, a :: as => f s a + total step f (step s a) as

@[simp] theorem total_cons (f : σ → α → M) (s : σ) (a : α) (as : List α) :
    total step f s (a :: as) = f s a + total step f (step s a) as := rfl

/-- **The balance rule.** If in every step what is owed before and what the step
gains is what is owed after and what the step pays, then so it is for the run. -/
theorem total_balance (gain pay : σ → α → M) (owed : σ → M)
    (hstep : ∀ s a, P s a → owed s + gain s a = owed (step s a) + pay s a) {s : σ}
    {as : List α} (h : Along step P s as) :
    owed s + total step gain s as = owed (as.foldl step s) + total step pay s as := by
  induction as generalizing s with
  | nil => rfl
  | cons a as ih =>
      have hrest := ih h.2
      have hhead := hstep s a h.1
      calc owed s + (gain s a + total step gain (step s a) as)
          = owed (step s a) + total step gain (step s a) as + pay s a := by
            rw [← add_assoc, hhead, add_right_comm]
        _ = owed (as.foldl step (step s a)) + (pay s a + total step pay (step s a) as) := by
            rw [hrest, add_assoc, add_comm (pay s a)]

/-- A potential that grows in every step by the amount of the step has grown over
the run by the total. -/
theorem total_potential (gain : σ → α → M) (potential : σ → M)
    (hstep : ∀ s a, P s a → potential (step s a) = potential s + gain s a) {s : σ}
    {as : List α} (h : Along step P s as) :
    potential (as.foldl step s) = potential s + total step gain s as := by
  induction as generalizing s with
  | nil => exact (add_zero _).symm
  | cons a as ih =>
      rw [List.foldl_cons, ih h.2, hstep s a h.1, total_cons, add_assoc]

/-- Totals commute with homomorphisms. -/
theorem total_hom {N : Type*} [AddCommMonoid N] (φ : M →+ N) (f : σ → α → M) (s : σ)
    (as : List α) : total step (fun s a => φ (f s a)) s as = φ (total step f s as) := by
  induction as generalizing s with
  | nil => exact (map_zero φ).symm
  | cons a as ih => rw [total_cons, total_cons, ih, map_add]

end Totals

end Run
