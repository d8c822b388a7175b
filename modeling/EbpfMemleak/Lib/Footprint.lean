import EbpfMemleak.Lib.Interleave

/-!
# EbpfMemleak.Lib.Footprint

**Cells that steps in flight own.** The shared state of an interleaving shows a value in
every cell of a family (`cell`). A thread in the middle of an operation owns some cells, its
footprint (`foot`), and what these will show when the operation is over can be told from
the state now (`final`).

`Shows M` says that `M` is the family with all operations under way completed: an owned cell
is what its owner will leave there, any other cell is what the state shows. A step that
leaves the cells of the other threads alone (`Spares`) changes nothing about `M`
(`shows_next`). What changes `M` is the start of an operation: then the new footprint gets
its final values at once (`shows_start`). So an operation counts as done from its start on,
however its steps interleave with those of others. That footprints are disjoint
(`Exclusive`) is kept alike.
-/

namespace Interleave

variable {σ τ ι α κ ν : Type*}

/-- What the cells of a family are, seen from a thread. -/
structure Cells (σ τ κ ν : Type*) where
  /-- The thread owns the cell. -/
  foot : σ → τ → κ → Prop
  /-- What an owned cell will show when the thread's operation is over. -/
  final : σ → τ → κ → ν
  /-- What the state shows. -/
  cell : σ → κ → ν

variable (C : Cells σ τ κ ν)

/-- `M` is the family with all operations under way completed. -/
structure Shows (c : Config σ τ ι) (M : κ → ν) : Prop where
  owned : ∀ i k, C.foot c.shared (c.threads i) k → M k = C.final c.shared (c.threads i) k
  unowned : ∀ k, (∀ i, ¬ C.foot c.shared (c.threads i) k) → M k = C.cell c.shared k

/-- No two threads own a cell. -/
def Exclusive (c : Config σ τ ι) : Prop :=
  ∀ i j k, C.foot c.shared (c.threads i) k → C.foot c.shared (c.threads j) k → i = j

/-- What a step does to the cells of the thread that takes it. -/
structure Advances (s : σ) (t : τ) (s' : σ) (t' : τ) : Prop where
  /-- The thread gets no new cells. -/
  shrinks : ∀ k, C.foot s' t' k → C.foot s t k
  /-- The cells it keeps will show what they would have. -/
  keeps : ∀ k, C.foot s' t' k → C.final s' t' k = C.final s t k
  /-- The cells it gives up show it now. -/
  settles : ∀ k, C.foot s t k → ¬ C.foot s' t' k → C.cell s' k = C.final s t k
  /-- The other cells are as they were. -/
  frame : ∀ k, ¬ C.foot s t k → C.cell s' k = C.cell s k

/-- What a step does to the cells of any other thread: nothing. -/
structure Spares (s s' : σ) (t : τ) : Prop where
  foot_iff : ∀ k, C.foot s' t k ↔ C.foot s t k
  final_eq : ∀ k, C.foot s t k → C.final s' t k = C.final s t k

variable {C}

section Next

variable [DecidableEq ι] {who : α → ι} {step : α → σ → τ → σ × τ} {c : Config σ τ ι} {a : α}

theorem exclusive_next (h : Exclusive C c)
    (hown : Advances C c.shared (c.threads (who a)) (next who step c a).shared
      ((next who step c a).threads (who a)))
    (hothers : ∀ i, i ≠ who a → Spares C c.shared (next who step c a).shared (c.threads i)) :
    Exclusive C (next who step c a) := by
  have hbefore : ∀ i k, C.foot (next who step c a).shared ((next who step c a).threads i) k →
      C.foot c.shared (c.threads i) k := by
    intro i k hi
    by_cases hwho : i = who a
    · exact hwho ▸ hown.shrinks k (hwho ▸ hi)
    · rw [next_threads_of_ne who step hwho] at hi
      exact ((hothers i hwho).foot_iff k).mp hi
  exact fun i j k hi hj => h i j k (hbefore i k hi) (hbefore j k hj)

/-- **A step of an operation under way changes nothing.** -/
theorem shows_next {M : κ → ν} (h : Shows C c M)
    (hown : Advances C c.shared (c.threads (who a)) (next who step c a).shared
      ((next who step c a).threads (who a)))
    (hothers : ∀ i, i ≠ who a → Spares C c.shared (next who step c a).shared (c.threads i)) :
    Shows C (next who step c a) M := by
  constructor
  · intro i k hi
    by_cases hwho : i = who a
    · subst hwho
      rw [hown.keeps k hi]
      exact h.owned _ k (hown.shrinks k hi)
    · rw [next_threads_of_ne who step hwho] at hi ⊢
      have hfoot := ((hothers i hwho).foot_iff k).mp hi
      rw [(hothers i hwho).final_eq k hfoot]
      exact h.owned i k hfoot
  · intro k hk
    by_cases hmoving : C.foot c.shared (c.threads (who a)) k
    · -- the moving thread has given the cell up
      rw [hown.settles k hmoving (hk (who a))]
      exact h.owned _ k hmoving
    · rw [hown.frame k hmoving]
      refine h.unowned k fun i hi => ?_
      by_cases hwho : i = who a
      · exact hmoving (hwho ▸ hi)
      · have hafter := hk i
        rw [next_threads_of_ne who step hwho] at hafter
        exact hafter (((hothers i hwho).foot_iff k).mpr hi)

end Next

section Start

variable [DecidableEq ι] {c : Config σ τ ι} {i : ι} {t : τ}

theorem exclusive_start (h : Exclusive C c)
    (hapart : ∀ j, j ≠ i → ∀ k, C.foot c.shared t k → ¬ C.foot c.shared (c.threads j) k) :
    Exclusive C ⟨c.shared, Function.update c.threads i t⟩ := by
  intro j j' k hj hj'
  by_cases hji : j = i
  · by_cases hji' : j' = i
    · rw [hji, hji']
    · simp only [hji, Function.update_self, Function.update_of_ne hji'] at hj hj'
      exact absurd hj' (hapart j' hji' k hj)
  · by_cases hji' : j' = i
    · simp only [hji', Function.update_self, Function.update_of_ne hji] at hj hj'
      exact absurd hj (hapart j hji k hj')
    · simp only [Function.update_of_ne hji, Function.update_of_ne hji'] at hj hj'
      exact h j j' k hj hj'

/-- **The start of an operation is where it counts.** A thread that owns nothing starts one
on cells that nobody owns: these change at once to what they will be. -/
theorem shows_start {M M' : κ → ν} (h : Shows C c M)
    (hidle : ∀ k, ¬ C.foot c.shared (c.threads i) k)
    (hapart : ∀ j, j ≠ i → ∀ k, C.foot c.shared t k → ¬ C.foot c.shared (c.threads j) k)
    (hdone : ∀ k, C.foot c.shared t k → M' k = C.final c.shared t k)
    (helse : ∀ k, ¬ C.foot c.shared t k → M' k = M k) :
    Shows C ⟨c.shared, Function.update c.threads i t⟩ M' := by
  constructor
  · intro j k hj
    by_cases hji : j = i
    · simp only [hji, Function.update_self] at hj ⊢
      exact hdone k hj
    · simp only [Function.update_of_ne hji] at hj ⊢
      rw [helse k fun ht => hapart j hji k ht hj]
      exact h.owned j k hj
  · intro k hk
    have ht : ¬ C.foot c.shared t k := by simpa using hk i
    rw [helse k ht]
    refine h.unowned k fun j hj => ?_
    by_cases hji : j = i
    · exact hidle k (hji ▸ hj)
    · have hafter := hk j
      simp only [Function.update_of_ne hji] at hafter
      exact hafter hj

end Start

end Interleave
