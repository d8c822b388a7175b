import EbpfMemleak.Handlers
import EbpfMemleak.Lib.Interleave
import EbpfMemleak.Lib.Run
import Mathlib.Algebra.BigOperators.Group.Finset.Basic
import Mathlib.Data.Fin.VecNotation
import Mathlib.Tactic.Abel

/-!
# EbpfMemleak.Concurrent.Statistics

**The statistics under concurrency.** `update_statistics_add` and
`update_statistics_del` are not atomic: another CPU can run between any two of
their map operations. Here each lookup, each `BPF_NOEXIST` insertion and each
fetch-and-add or fetch-and-sub is one step, and any number of executions
interleave freely.

A pointer returned by a lookup stays the pointer to its key, since no program
deletes from `combined_allocs`: an update through it is `BoundedMap.modify` on
that key.

The invariant has two halves. `StatPc.Valid`: an execution that has found or made
its entry can rely on it, because keys only appear. And the word of every stack is
its old word plus the effects of the executions that have performed their fetch
(`word_statRun`): each step moves the word by exactly what it adds to the effect of
its own execution.
-/

namespace EbpfMemleak

variable {n : Nat}

/-! ### The two functions, step by step -/

/-- An execution of `update_statistics_add` or `update_statistics_del`. -/
inductive StatOp
  | add (stackId sz : U64)
  | del (stackId sz : U64)
  deriving DecidableEq

/-- Where an execution stands. -/
inductive StatPc
  /-- `val = bpf_map_lookup_elem(map, key)`. -/
  | addLookup (stackId sz : U64)
  /-- `err = bpf_map_update_elem(map, key, init, BPF_NOEXIST)`. -/
  | addInsert (stackId sz : U64)
  /-- `return bpf_map_lookup_elem(map, key)`. -/
  | addLookupAgain (stackId sz : U64)
  /-- `__sync_fetch_and_add(&existing_cinfo->bits, ..)`. -/
  | addFetch (stackId sz : U64)
  /-- `existing_cinfo = bpf_map_lookup_elem(&combined_allocs, &stack_id)`. -/
  | delLookup (stackId sz : U64)
  /-- `__sync_fetch_and_sub(&existing_cinfo->bits, ..)`. -/
  | delFetch (stackId sz : U64)
  /-- Returned after the fetch-and-add. -/
  | added (stackId sz : U64)
  /-- Returned because the insertion found the map full. -/
  | addFull (stackId sz : U64)
  /-- Returned because the second lookup found nothing. -/
  | addMissed (stackId sz : U64)
  /-- Returned after the fetch-and-sub. -/
  | subtracted (stackId sz : U64)
  /-- Returned because the lookup found nothing. -/
  | delMissed (stackId sz : U64)
  deriving DecidableEq

/-- The first step of an execution. -/
def StatOp.start : StatOp → StatPc
  | .add stackId sz => .addLookup stackId sz
  | .del stackId sz => .delLookup stackId sz

/-- The execution a position belongs to. -/
def StatPc.op : StatPc → StatOp
  | .addLookup k sz | .addInsert k sz | .addLookupAgain k sz | .addFetch k sz | .added k sz
  | .addFull k sz | .addMissed k sz => .add k sz
  | .delLookup k sz | .delFetch k sz | .subtracted k sz | .delMissed k sz => .del k sz

/-- The execution has returned. -/
def StatPc.Finished : StatPc → Prop
  | .added _ _ | .addFull _ _ | .addMissed _ _ | .subtracted _ _ | .delMissed _ _ => True
  | _ => False

instance : DecidablePred StatPc.Finished := fun pc => by
  cases pc <;> unfold StatPc.Finished <;> infer_instance

/-- The next atomic step of an execution. -/
def statStep (c : CombinedAllocs n) : StatPc → CombinedAllocs n × StatPc
  | .addLookup k sz =>
      match c.lookup k with
      | some _ => (c, .addFetch k sz)
      | none => (c, .addInsert k sz)
  | .addInsert k sz =>
      match c.update .noExist k initialCinfo with
      | .ok c' => (c', .addLookupAgain k sz)
      | .error .exists => (c, .addLookupAgain k sz)
      | .error .full => (c, .addFull k sz)
  | .addLookupAgain k sz =>
      match c.lookup k with
      | some _ => (c, .addFetch k sz)
      | none => (c, .addMissed k sz)
  | .addFetch k sz => (c.modify k fun cinfo => ⟨cinfo.bits + contribution sz⟩, .added k sz)
  | .delLookup k sz =>
      match c.lookup k with
      | some _ => (c, .delFetch k sz)
      | none => (c, .delMissed k sz)
  | .delFetch k sz => (c.modify k fun cinfo => ⟨cinfo.bits - contribution sz⟩, .subtracted k sz)
  | pc => (c, pc)

/-- What a step can do, one constructor per outcome. -/
inductive StatMove (c : CombinedAllocs n) :
    StatPc → CombinedAllocs n → StatPc → Prop
  | found {k sz : U64} (hk : k ∈ c) : StatMove c (.addLookup k sz) c (.addFetch k sz)
  | notFound {k sz : U64} (hk : k ∉ c) : StatMove c (.addLookup k sz) c (.addInsert k sz)
  | inserted {k sz : U64} (hk : k ∉ c) (hroom : c.HasRoom k) :
      StatMove c (.addInsert k sz) (c.insert k initialCinfo hroom) (.addLookupAgain k sz)
  | raced {k sz : U64} (hk : k ∈ c) : StatMove c (.addInsert k sz) c (.addLookupAgain k sz)
  | full {k sz : U64} (hroom : ¬ c.HasRoom k) : StatMove c (.addInsert k sz) c (.addFull k sz)
  | foundAgain {k sz : U64} (hk : k ∈ c) : StatMove c (.addLookupAgain k sz) c (.addFetch k sz)
  | missedAgain {k sz : U64} (hk : k ∉ c) :
      StatMove c (.addLookupAgain k sz) c (.addMissed k sz)
  | add {k sz : U64} :
      StatMove c (.addFetch k sz) (c.modify k fun cinfo => ⟨cinfo.bits + contribution sz⟩)
        (.added k sz)
  | delFound {k sz : U64} (hk : k ∈ c) : StatMove c (.delLookup k sz) c (.delFetch k sz)
  | delMissed {k sz : U64} (hk : k ∉ c) : StatMove c (.delLookup k sz) c (.delMissed k sz)
  | sub {k sz : U64} :
      StatMove c (.delFetch k sz) (c.modify k fun cinfo => ⟨cinfo.bits - contribution sz⟩)
        (.subtracted k sz)
  | returned {pc : StatPc} (hpc : pc.Finished) : StatMove c pc c pc

/-- Every step is one of the moves. -/
theorem statStep_move (c : CombinedAllocs n) (pc : StatPc) :
    StatMove c pc (statStep c pc).1 (statStep c pc).2 := by
  cases pc with
  | addLookup k sz =>
      by_cases hk : k ∈ c
      · obtain ⟨cinfo, hl⟩ := BoundedMap.mem_iff.mp hk
        simp only [statStep, hl]
        exact .found hk
      · simp only [statStep, BoundedMap.lookup_eq_none.mpr hk]
        exact .notFound hk
  | addInsert k sz =>
      by_cases hk : k ∈ c
      · simp only [statStep, BoundedMap.update_noExist_of_mem hk]
        exact .raced hk
      by_cases hroom : c.HasRoom k
      · simp only [statStep, BoundedMap.update_noExist_of_not_mem hk hroom]
        exact .inserted hk hroom
      · simp only [statStep, BoundedMap.update_of_not_room hroom]
        exact .full hroom
  | addLookupAgain k sz =>
      by_cases hk : k ∈ c
      · obtain ⟨cinfo, hl⟩ := BoundedMap.mem_iff.mp hk
        simp only [statStep, hl]
        exact .foundAgain hk
      · simp only [statStep, BoundedMap.lookup_eq_none.mpr hk]
        exact .missedAgain hk
  | delLookup k sz =>
      by_cases hk : k ∈ c
      · obtain ⟨cinfo, hl⟩ := BoundedMap.mem_iff.mp hk
        simp only [statStep, hl]
        exact .delFound hk
      · simp only [statStep, BoundedMap.lookup_eq_none.mpr hk]
        exact .delMissed hk
  | addFetch k sz => exact .add
  | delFetch k sz => exact .sub
  | _ => exact .returned trivial

/-! ### What one step keeps -/

/-- Keys only appear. -/
theorem StatMove.mem {c c' : CombinedAllocs n} {pc pc' : StatPc} (h : StatMove c pc c' pc')
    {k : U64} (hk : k ∈ c) : k ∈ c' := by
  cases h with
  | inserted hnew hroom => exact (BoundedMap.mem_insert hroom).mpr (Or.inr hk)
  | add => exact BoundedMap.mem_modify.mpr hk
  | sub => exact BoundedMap.mem_modify.mpr hk
  | _ => exact hk

/-- The step belongs to the same execution. -/
theorem StatMove.op {c c' : CombinedAllocs n} {pc pc' : StatPc} (h : StatMove c pc c' pc') :
    pc'.op = pc.op := by
  cases h <;> rfl

/-- What an execution relies on: once it has found or made the entry, the entry is
there, so the second lookup does not miss, nor does that of a decrement. -/
def StatPc.Valid (c : CombinedAllocs n) : StatPc → Prop
  | .addLookupAgain k _ | .addFetch k _ | .delFetch k _ => k ∈ c
  | .addMissed _ _ | .delMissed _ _ => False
  | _ => True

/-- A decrement starts after its stack id is present. -/
def DelPresent (c : CombinedAllocs n) : StatPc → Prop
  | .delLookup k _ => k ∈ c
  | _ => True

instance (c : CombinedAllocs n) : DecidablePred (DelPresent c) := fun pc => by
  cases pc <;> unfold DelPresent <;> infer_instance

theorem StatPc.Valid.mono {c c' : CombinedAllocs n} {pc : StatPc} (h : pc.Valid c)
    (hgrow : ∀ k, k ∈ c → k ∈ c') : pc.Valid c' := by
  cases pc with
  | addLookupAgain k sz => exact hgrow k h
  | addFetch k sz => exact hgrow k h
  | delFetch k sz => exact hgrow k h
  | addMissed | delMissed => exact h
  | _ => trivial

/-- The step of an execution establishes what it relies on next. -/
theorem StatPc.Valid.move {c c' : CombinedAllocs n} {pc pc' : StatPc} (hvalid : pc.Valid c)
    (h : StatMove c pc c' pc') (hdel : DelPresent c pc) : pc'.Valid c' := by
  cases h with
  | found hk | raced hk | foundAgain hk | delFound hk => exact hk
  | inserted hk hroom => exact (BoundedMap.mem_insert hroom).mpr (Or.inl rfl)
  | missedAgain hk => exact hk hvalid
  | delMissed hk => exact hk hdel
  | returned => exact hvalid
  | _ => trivial

/-- What a finished addition has added to stack `k`. -/
def StatPc.addedTo (k : U64) : StatPc → U64
  | .added k' sz => if k' = k then contribution sz else 0
  | _ => 0

/-- What a finished decrement has taken from stack `k`. -/
def StatPc.takenFrom (k : U64) : StatPc → U64
  | .subtracted k' sz => if k' = k then contribution sz else 0
  | _ => 0

/-- The effect of an execution on the word of stack `k` so far. -/
def StatPc.effect (k : U64) (pc : StatPc) : U64 := pc.addedTo k - pc.takenFrom k

theorem word_insert {c : CombinedAllocs n} {k' : U64} (hk : k' ∉ c) (hroom : c.HasRoom k')
    (k : U64) : CombinedAllocs.word (c.insert k' initialCinfo hroom) k = c.word k := by
  rw [CombinedAllocs.word, BoundedMap.lookup_insert]
  by_cases heq : k = k'
  · rw [if_pos heq, heq, CombinedAllocs.word_of_not_mem hk]
    rfl
  · rw [if_neg heq]
    rfl

theorem word_modify {c : CombinedAllocs n} {k' : U64} {f : CombinedAllocInfo → CombinedAllocInfo}
    (h : k' ∈ c) (k : U64) :
    CombinedAllocs.word (c.modify k' f) k =
      if k' = k then (f ⟨c.word k⟩).bits else c.word k := by
  obtain ⟨cinfo, hk⟩ := BoundedMap.mem_iff.mp h
  rw [CombinedAllocs.word, BoundedMap.lookup_modify]
  by_cases heq : k' = k
  · subst heq
    rw [if_pos rfl, if_pos rfl, hk, CombinedAllocs.word_of_lookup hk]
    rfl
  · rw [if_neg heq, if_neg (Ne.symm heq)]
    rfl

/-- **A step moves the word by its own effect.** Only the two fetches move it; the
insertion of a new entry leaves the word at zero. -/
theorem StatMove.word {c c' : CombinedAllocs n} {pc pc' : StatPc} (h : StatMove c pc c' pc')
    (hvalid : pc.Valid c) (k : U64) :
    c'.word k = c.word k + (pc'.effect k - pc.effect k) := by
  cases h with
  | inserted hk hroom =>
      rw [word_insert hk hroom]
      simp [StatPc.effect, StatPc.addedTo, StatPc.takenFrom]
  | @add k' sz =>
      have hword := word_modify (f := fun cinfo => ⟨cinfo.bits + contribution sz⟩) hvalid k
      rw [hword, StatPc.effect, StatPc.effect]
      simp only [StatPc.addedTo, StatPc.takenFrom, sub_zero]
      split
      case isTrue => rfl
      case isFalse => exact (add_zero _).symm
  | @sub k' sz =>
      have hword := word_modify (f := fun cinfo => ⟨cinfo.bits - contribution sz⟩) hvalid k
      rw [hword, StatPc.effect, StatPc.effect]
      simp only [StatPc.addedTo, StatPc.takenFrom, sub_zero, zero_sub]
      split
      case isTrue => exact sub_eq_add_neg _ _
      case isFalse => rw [neg_zero, add_zero]
  | returned => rw [sub_self, add_zero]
  | _ => simp [StatPc.effect, StatPc.addedTo, StatPc.takenFrom]

/-- An entry once present is there after the step, moved by the effect of the step
and by nothing else. -/
theorem StatMove.lookup {c c' : CombinedAllocs n} {pc pc' : StatPc} (h : StatMove c pc c' pc')
    (hvalid : pc.Valid c) {k : U64} {cinfo : CombinedAllocInfo} (hk : c.lookup k = some cinfo) :
    c'.lookup k = some ⟨cinfo.bits + (pc'.effect k - pc.effect k)⟩ := by
  have hword := h.word hvalid k
  obtain ⟨cinfo', hk'⟩ := BoundedMap.mem_iff.mp (h.mem (BoundedMap.mem_of_lookup hk))
  rw [CombinedAllocs.word_of_lookup hk', CombinedAllocs.word_of_lookup hk] at hword
  rw [hk', ← hword]

/-- An execution gives up for lack of room only at its own insertion. -/
theorem StatMove.full_inv {c c' : CombinedAllocs n} {pc : StatPc} {k sz : U64}
    (h : StatMove c pc c' (.addFull k sz)) (hbefore : pc ≠ .addFull k sz) :
    pc = .addInsert k sz ∧ ¬ c.HasRoom k := by
  cases h with
  | full hroom => exact ⟨rfl, hroom⟩
  | returned => exact absurd rfl hbefore

/-- One if the next step is the fetch. -/
def StatPc.fetchNow : StatPc → Nat
  | .addFetch _ _ | .delFetch _ _ => 1
  | _ => 0

/-- One if the fetch has been performed. -/
def StatPc.fetched : StatPc → Nat
  | .added _ _ | .subtracted _ _ => 1
  | _ => 0

theorem StatMove.fetched {c c' : CombinedAllocs n} {pc pc' : StatPc}
    (h : StatMove c pc c' pc') : pc'.fetched = pc.fetched + pc.fetchNow := by
  cases h with
  | returned hpc => cases pc <;> first | rfl | exact hpc.elim
  | _ => rfl

/-! ### Alone, the steps are the atomic functions -/

/-- The map and the position after a number of steps of one execution. -/
def statSolo : Nat → CombinedAllocs n × StatPc → CombinedAllocs n × StatPc
  | 0, p => p
  | m + 1, p => statSolo m (statStep p.1 p.2)

/-- An execution that has returned takes no more steps. -/
theorem statSolo_of_finished {pc : StatPc} (h : pc.Finished) (m : Nat) (c : CombinedAllocs n) :
    statSolo m (c, pc) = (c, pc) := by
  have hstep : statStep c pc = (c, pc) := by
    cases pc <;> first | rfl | exact h.elim
  induction m with
  | zero => rfl
  | succ m ih =>
      rw [statSolo, hstep]
      exact ih

/-- Run without interruption, the steps of an addition are `update_statistics_add`. -/
theorem statSolo_add (c : CombinedAllocs n) (k sz : U64) :
    (statSolo 4 (c, .addLookup k sz)).1 = updateStatisticsAdd k sz c ∧
      (statSolo 4 (c, .addLookup k sz)).2.Finished := by
  by_cases hk : k ∈ c
  · obtain ⟨cinfo, hl⟩ := BoundedMap.mem_iff.mp hk
    simp only [statSolo, statStep, updateStatisticsAdd, bpfMapLookupOrTryInit, hl]
    exact ⟨trivial, trivial⟩
  have hmiss : c.lookup k = none := BoundedMap.lookup_eq_none.mpr hk
  by_cases hroom : c.HasRoom k
  · have hl : (c.insert k initialCinfo hroom).lookup k = some initialCinfo := by
      rw [BoundedMap.lookup_insert, if_pos rfl]
    simp only [statSolo, statStep, updateStatisticsAdd, bpfMapLookupOrTryInit, hmiss,
      BoundedMap.update_noExist_of_not_mem hk hroom, hl]
    exact ⟨trivial, trivial⟩
  · simp only [statSolo, statStep, updateStatisticsAdd, bpfMapLookupOrTryInit, hmiss,
      BoundedMap.update_of_not_room hroom]
    exact ⟨trivial, trivial⟩

/-- Run without interruption, the steps of a decrement are `update_statistics_del`. -/
theorem statSolo_del (c : CombinedAllocs n) (k sz : U64) :
    (statSolo 2 (c, .delLookup k sz)).1 = updateStatisticsDel k sz c ∧
      (statSolo 2 (c, .delLookup k sz)).2.Finished := by
  cases hl : c.lookup k with
  | some cinfo =>
      simp only [statSolo, statStep, updateStatisticsDel, hl]
      exact ⟨trivial, trivial⟩
  | none =>
      simp only [statSolo, statStep, updateStatisticsDel, hl]
      exact ⟨trivial, trivial⟩

/-! ### Any interleaving -/

variable {ι : Type} [DecidableEq ι]

/-- The map and the executions on it. -/
abbrev StatConfig (n : Nat) (ι : Type) := Interleave.Config (CombinedAllocs n) StatPc ι

/-- All executions at their first step. -/
def statStart (c₀ : CombinedAllocs n) (ops : ι → StatOp) : StatConfig n ι where
  shared := c₀
  threads := fun i => (ops i).start

/-- One execution takes one step. -/
def statNext : StatConfig n ι → ι → StatConfig n ι := Interleave.next id fun _ => statStep

/-- The configuration after a schedule. -/
def statRun (c₀ : CombinedAllocs n) (ops : ι → StatOp) (sched : List ι) : StatConfig n ι :=
  sched.foldl statNext (statStart c₀ ops)

/-- Every decrement starts after its stack id is present. -/
def DelsPresent (s : StatConfig n ι) (i : ι) : Prop := DelPresent s.shared (s.threads i)

instance (s : StatConfig n ι) (i : ι) : Decidable (DelsPresent s i) :=
  inferInstanceAs (Decidable (DelPresent _ _))

/-- How many fetches execution `i` performs in a schedule. -/
def fetches (c₀ : CombinedAllocs n) (ops : ι → StatOp) (i : ι) (sched : List ι) : Nat :=
  Run.total statNext (fun s j => if j = i then (s.threads i).fetchNow else 0)
    (statStart c₀ ops) sched

theorem statRun_append (c₀ : CombinedAllocs n) (ops : ι → StatOp) (sched : List ι) (i : ι) :
    statRun c₀ ops (sched ++ [i]) = statNext (statRun c₀ ops sched) i := by
  rw [statRun, List.foldl_append]
  rfl

/-- The step of the moving execution. -/
theorem statNext_move (s : StatConfig n ι) (i : ι) :
    StatMove s.shared (s.threads i) (statNext s i).shared ((statNext s i).threads i) := by
  have hown : (statNext s i).threads i = (statStep s.shared (s.threads i)).2 :=
    Interleave.next_threads_self id (fun _ => statStep) s i
  rw [hown]
  exact statStep_move s.shared (s.threads i)

theorem statNext_threads_of_ne {s : StatConfig n ι} {i j : ι} (h : j ≠ i) :
    (statNext s i).threads j = s.threads j :=
  Interleave.next_threads_of_ne id (fun _ => statStep) h

theorem valid_statRun {c₀ : CombinedAllocs n} {ops : ι → StatOp} {sched : List ι}
    (hdel : Run.Along statNext DelsPresent (statStart c₀ ops) sched) (i : ι) :
    ((statRun c₀ ops sched).threads i).Valid (statRun c₀ ops sched).shared := by
  have hstart : ∀ i, ((statStart c₀ ops).threads i).Valid (statStart c₀ ops).shared := by
    intro i
    show (ops i).start.Valid c₀
    cases ops i <;> trivial
  refine Run.foldl_invariant (I := fun s : StatConfig n ι => ∀ i, (s.threads i).Valid s.shared)
    (fun s a hvalid hpresent => ?_) hstart hdel i
  -- the moving execution makes its own step valid, keys only appear for the others
  have hmove := statStep_move s.shared (s.threads a)
  refine Interleave.forall_threads_next id _ (I := fun c pc => StatPc.Valid c pc) ?_ ?_
  · exact (hvalid a).move hmove hpresent
  · intro j hj
    exact (hvalid j).mono fun k hk => hmove.mem hk

theorem op_statRun (c₀ : CombinedAllocs n) (ops : ι → StatOp) (sched : List ι) (i : ι) :
    ((statRun c₀ ops sched).threads i).op = ops i := by
  induction sched using List.reverseRecOn with
  | nil =>
      show (ops i).start.op = ops i
      cases ops i <;> rfl
  | append_singleton sched a ih =>
      rw [statRun_append]
      by_cases hi : i = a
      · subst hi
        exact (statNext_move _ i).op.trans ih
      · rw [statNext_threads_of_ne hi]
        exact ih

/-- **No update is lost or doubled.** At every point of every interleaving, the word
of a stack is its old word plus the effects of the executions so far. -/
theorem word_statRun [Fintype ι] {c₀ : CombinedAllocs n} {ops : ι → StatOp} {sched : List ι}
    (hdel : Run.Along statNext DelsPresent (statStart c₀ ops) sched) (k : U64) :
    (statRun c₀ ops sched).shared.word k =
      c₀.word k + ∑ i, ((statRun c₀ ops sched).threads i).effect k := by
  induction sched using List.reverseRecOn with
  | nil =>
      have hstart : ∀ i, ((statStart c₀ ops).threads i).effect k = 0 := by
        intro i
        show (ops i).start.effect k = 0
        cases ops i <;> exact sub_zero 0
      have hsum : ∑ i, ((statStart c₀ ops).threads i).effect k = 0 :=
        Finset.sum_eq_zero fun i _ => hstart i
      exact (congrArg (c₀.word k + ·) hsum).trans (add_zero _) |>.symm
  | append_singleton sched a ih =>
      have hsched := ((Run.along_append ..).mp hdel).1
      rw [statRun_append]
      have hword := (statNext_move (statRun c₀ ops sched) a).word (valid_statRun hsched a) k
      -- the step exchanges one summand, by what it moves the word
      have hsum : ((statRun c₀ ops sched).threads a).effect k +
          ∑ i, ((statNext (statRun c₀ ops sched) a).threads i).effect k =
            ((statNext (statRun c₀ ops sched) a).threads a).effect k +
              ∑ i, ((statRun c₀ ops sched).threads i).effect k :=
        Interleave.sum_threads_next id (fun _ => statStep) (fun _ => StatPc.effect k)
          fun _ _ => rfl
      rw [hword, ih hsched, eq_sub_of_add_eq' hsum]
      abel

/-- An execution that has returned performed its fetch once if it was applied, and
never otherwise. -/
theorem fetches_eq (c₀ : CombinedAllocs n) (ops : ι → StatOp) (i : ι) (sched : List ι) :
    fetches c₀ ops i sched = ((statRun c₀ ops sched).threads i).fetched := by
  have hstart : ((statStart c₀ ops).threads i).fetched = 0 := by
    show (ops i).start.fetched = 0
    cases ops i <;> rfl
  have hstep : ∀ (s : StatConfig n ι) (j : ι), True →
      ((statNext s j).threads i).fetched =
        (s.threads i).fetched + if j = i then (s.threads i).fetchNow else 0 := by
    intro s j _
    by_cases hj : j = i
    · subst hj
      rw [if_pos rfl]
      exact (statNext_move s j).fetched
    · rw [if_neg hj, statNext_threads_of_ne (Ne.symm hj), add_zero]
  have hall : Run.Along statNext (fun _ _ => True) (statStart c₀ ops) sched :=
    Run.along_iff_forall_mem.mpr fun _ _ => trivial
  have htotal := Run.total_potential _ (fun s : StatConfig n ι => (s.threads i).fetched) hstep hall
  rw [hstart, zero_add] at htotal
  exact htotal.symm

/-- A valid addition that has returned was applied, or found the map full. -/
theorem StatPc.returned_add {c : CombinedAllocs n} {pc : StatPc} {k sz : U64}
    (hop : pc.op = .add k sz) (hreturned : pc.Finished) (hvalid : pc.Valid c) :
    pc = .added k sz ∨ pc = .addFull k sz := by
  cases pc with
  | added k' sz' => exact Or.inl (by cases hop; rfl)
  | addFull k' sz' => exact Or.inr (by cases hop; rfl)
  | addMissed => exact hvalid.elim
  | subtracted | delMissed => cases hop
  | _ => exact hreturned.elim

/-- A valid decrement that has returned was applied. -/
theorem StatPc.returned_del {c : CombinedAllocs n} {pc : StatPc} {k sz : U64}
    (hop : pc.op = .del k sz) (hreturned : pc.Finished) (hvalid : pc.Valid c) :
    pc = .subtracted k sz := by
  cases pc with
  | subtracted k' sz' => cases hop; rfl
  | delMissed => exact hvalid.elim
  | added | addFull | addMissed => cases hop
  | _ => exact hreturned.elim

/-- An addition that gave up for lack of room tried its insertion on a full map. -/
theorem addFull_statRun {c₀ : CombinedAllocs n} {ops : ι → StatOp} {sched : List ι} {i : ι}
    {k sz : U64} (hop : ops i = .add k sz)
    (hpc : (statRun c₀ ops sched).threads i = .addFull k sz) :
    ∃ pre post, sched = pre ++ i :: post ∧
      (statRun c₀ ops pre).threads i = .addInsert k sz ∧
      ¬ (statRun c₀ ops pre).shared.HasRoom k := by
  -- it did not start out of room, so it has taken the step into that position
  have hstart : ¬ (statStart c₀ ops).threads i = .addFull k sz := by
    show ¬ (ops i).start = _
    rw [hop]
    intro h
    cases h
  obtain ⟨pre, j, post, heq, hj, hbefore, hafter⟩ :=
    Interleave.exists_step_of_threads id (fun _ => statStep)
      (Q := fun pc => pc = .addFull k sz) hstart hpc
  obtain rfl : j = i := hj
  have hstep : (statStep (statRun c₀ ops pre).shared ((statRun c₀ ops pre).threads j)).2 =
      .addFull k sz := hafter
  have hmove := statStep_move (statRun c₀ ops pre).shared ((statRun c₀ ops pre).threads j)
  rw [hstep] at hmove
  obtain ⟨hinsert, hroom⟩ := hmove.full_inv hbefore
  exact ⟨pre, post, heq, hinsert, hroom⟩

/-- **Concurrent statistics lose and double nothing.** Let any finite set of
executions of `update_statistics_add` and `update_statistics_del` interleave in any
order, over any map with any room left, each decrement starting after its stack id
is present. When all have returned:

* every word is its old word plus what the additions added less what the decrements
  took, each execution counted once;
* an addition was applied by exactly one fetch, unless it gave up because its own
  insertion found the map full; a decrement was applied by exactly one fetch;
* at every step, an entry that is present stays, and moves only by the effect of
  that step;
* at no point has a second lookup missed. -/
theorem statistics_lose_nothing [Fintype ι] {c₀ : CombinedAllocs n} {ops : ι → StatOp}
    {sched : List ι} (hdel : Run.Along statNext DelsPresent (statStart c₀ ops) sched)
    (hdone : ∀ i, ((statRun c₀ ops sched).threads i).Finished) :
    let final := statRun c₀ ops sched
    (∀ k, final.shared.word k =
        c₀.word k + ∑ i, (final.threads i).addedTo k - ∑ i, (final.threads i).takenFrom k) ∧
      (∀ i k sz, ops i = .add k sz →
        (final.threads i = .added k sz ∧ fetches c₀ ops i sched = 1) ∨
          (final.threads i = .addFull k sz ∧ fetches c₀ ops i sched = 0 ∧
            ∃ pre post, sched = pre ++ i :: post ∧
              (statRun c₀ ops pre).threads i = .addInsert k sz ∧
              ¬ (statRun c₀ ops pre).shared.HasRoom k)) ∧
      (∀ i k sz, ops i = .del k sz →
        final.threads i = .subtracted k sz ∧ fetches c₀ ops i sched = 1) ∧
      (∀ pre i post, sched = pre ++ i :: post → ∀ k cinfo,
        (statRun c₀ ops pre).shared.lookup k = some cinfo →
          (statRun c₀ ops (pre ++ [i])).shared.lookup k =
            some ⟨cinfo.bits + (((statRun c₀ ops (pre ++ [i])).threads i).effect k -
              ((statRun c₀ ops pre).threads i).effect k)⟩) ∧
      ∀ pre, pre <+: sched → ∀ i k sz, (statRun c₀ ops pre).threads i ≠ .addMissed k sz := by
  intro final
  have hvalid (pre : List ι) (hpre : pre <+: sched) (i : ι) :
      ((statRun c₀ ops pre).threads i).Valid (statRun c₀ ops pre).shared :=
    valid_statRun (hdel.restrict hpre) i
  have hfinal (i : ι) := hvalid sched (List.prefix_refl _) i
  refine ⟨?_, ?_, ?_, ?_, ?_⟩
  · intro k
    rw [word_statRun hdel, add_sub_assoc, ← Finset.sum_sub_distrib]
    rfl
  · intro i k sz hop
    have hop' : (final.threads i).op = .add k sz := (op_statRun c₀ ops sched i).trans hop
    have hfetches : fetches c₀ ops i sched = (final.threads i).fetched := fetches_eq ..
    rcases StatPc.returned_add hop' (hdone i) (hfinal i) with hpc | hpc
    · rw [hpc] at hfetches
      exact Or.inl ⟨hpc, hfetches⟩
    · rw [hpc] at hfetches
      exact Or.inr ⟨hpc, hfetches, addFull_statRun hop hpc⟩
  · intro i k sz hop
    have hop' : (final.threads i).op = .del k sz := (op_statRun c₀ ops sched i).trans hop
    have hfetches : fetches c₀ ops i sched = (final.threads i).fetched := fetches_eq ..
    have hpc := StatPc.returned_del hop' (hdone i) (hfinal i)
    rw [hpc] at hfetches
    exact ⟨hpc, hfetches⟩
  · intro pre i post heq k cinfo hk
    have hpre : pre <+: sched := ⟨i :: post, heq.symm⟩
    rw [statRun_append]
    exact (statNext_move (statRun c₀ ops pre) i).lookup (hvalid pre hpre i) hk
  · intro pre hpre i k sz hpc
    have hmissed := hvalid pre hpre i
    rw [hpc] at hmissed
    exact hmissed

/-- Two additions race to create an entry and a decrement runs between their
fetches. -/
theorem statistics_lose_nothing_race :
    let c₀ : CombinedAllocs 8 := .empty
    let ops : Fin 3 → StatOp := ![.add 7 100, .add 7 50, .del 7 30]
    let final := statRun c₀ ops [0, 1, 0, 1, 0, 1, 0, 2, 1, 2]
    final.shared.word 7 = 0 + ∑ i, (final.threads i).addedTo 7 -
      ∑ i, (final.threads i).takenFrom 7 := by
  intro c₀ ops final
  have hrun := @statistics_lose_nothing 8 (Fin 3) _ _ c₀ ops [0, 1, 0, 1, 0, 1, 0, 2, 1, 2]
    (by decide +kernel) (by decide +kernel)
  exact hrun.1 7

end EbpfMemleak
