import EbpfMemleak.Concurrent.Handlers
import Mathlib.Algebra.Order.Group.Multiset

/-!
# EbpfMemleak.Concurrent.Frees

**Do frees subtract what they removed?** `gen_free_enter` looks its record up,
deletes it, ignoring whether the delete removed anything, and only then reads size
and stack id through the old pointer. Between these steps other CPUs run.

Two accounts are kept along a schedule: the records that delete steps actually
remove from `allocs` (`removedIn`), and the amounts that the frees subtract from the
words (`subtractedIn`). `Undisturbed` is what must not happen in a step: another CPU
frees or replaces the record between lookup and delete, an insertion takes a
deleted element that is still to be read, or the stack has no entry to subtract
from. As long as it does not, the accounts balance at every point, up to what the
frees under way still owe (`owed`).

The invariant that carries this is the owed amount itself: after the delete it lies
in the element, after the reads in the CPU, and the fetch pays it.
-/

namespace EbpfMemleak

variable {n : Nat} {ε ι : Type}

/-! ### The two accounts -/

/-- What one record is worth: its stack and the amount counted there. -/
def AllocInfo.packed (info : AllocInfo) : U64 × U64 := (info.stackKey, contribution info.size)

/-- The record the next step removes from `allocs`. -/
def Pc.removed (s : Shared n ε) : Pc ε → Multiset AllocInfo
  | .freeDelete address _ => (s.allocs.get address).elim 0 fun info => {info}
  | _ => 0

/-- What the next step of `update_statistics_del` subtracts, and from which stack. -/
def StatPc.pays (c : CombinedAllocs n) : StatPc → Multiset (U64 × U64)
  | .delFetch k sz => if k ∈ c then {(k, contribution sz)} else 0
  | _ => 0

/-- What the next step subtracts. Only `gen_free_enter` calls
`update_statistics_del`. -/
def Pc.pays (s : Shared n ε) : Pc ε → Multiset (U64 × U64)
  | .statistics pc => pc.pays s.combinedAllocs
  | _ => 0

/-- What the next step of `update_statistics_add` adds, and to which stack. -/
def StatPc.adds (c : CombinedAllocs n) : StatPc → Multiset (U64 × U64)
  | .addFetch k sz => if k ∈ c then {(k, contribution sz)} else 0
  | _ => 0

/-- What the next step adds. -/
def Pc.adds (s : Shared n ε) : Pc ε → Multiset (U64 × U64)
  | .statistics pc => pc.adds s.combinedAllocs
  | _ => 0

/-- What a multiset of amounts comes to for stack `k`. -/
def amountFor (k : U64) : Multiset (U64 × U64) →+ U64 where
  toFun s := ((s.filter fun a => a.1 = k).map Prod.snd).sum
  map_zero' := rfl
  map_add' s t := by rw [Multiset.filter_add, Multiset.map_add, Multiset.sum_add]

theorem amountFor_singleton (k k' amount : U64) :
    amountFor k {(k', amount)} = if k' = k then amount else 0 := by
  show ((({(k', amount)} : Multiset (U64 × U64)).filter fun a => a.1 = k).map Prod.snd).sum = _
  rw [Multiset.filter_singleton]
  split
  case isTrue => rw [Multiset.map_singleton, Multiset.sum_singleton]
  case isFalse => rfl

theorem amountFor_map_packed (k : U64) (s : Multiset AllocInfo) :
    amountFor k (s.map AllocInfo.packed) = packedSum (s.filter fun info => info.stackKey = k) := by
  show (((s.map AllocInfo.packed).filter fun a => a.1 = k).map Prod.snd).sum = _
  rw [Multiset.filter_map, Multiset.map_map]
  rfl

/-! ### What is owed -/

/-- What an execution of `update_statistics_del` still has to subtract. -/
def StatPc.owed : StatPc → Multiset (U64 × U64)
  | .delLookup k sz | .delFetch k sz => {(k, contribution sz)}
  | _ => 0

/-- What a free still has to subtract for the record it deleted. Before the reads it
is what the deleted element holds. -/
def Pc.owed (s : Shared n ε) : Pc ε → Multiset (U64 × U64)
  | .freeReadStackId info => {(s.allocs.value info).packed}
  | .freeReadSize info stackId =>
      {(stackId.signExtend 64, contribution (s.allocs.value info).size)}
  | .statistics pc => pc.owed
  | _ => 0

/-- The CPU is in no routine. -/
def Pc.Idle : Pc ε → Prop
  | .idle => True
  | _ => False

instance : DecidablePred (Pc.Idle : Pc ε → Prop) := fun pc => by
  cases pc <;> unfold Pc.Idle <;> infer_instance

theorem Pc.Idle.owed {pc : Pc ε} (h : pc.Idle) (s : Shared n ε) : pc.owed s = 0 := by
  cases pc with
  | idle => rfl
  | _ => exact h.elim

/-- The CPU has deleted a record and still has to read its element. -/
def Pc.Reads (p : ε) : Pc ε → Prop
  | .freeReadStackId info => info = p
  | .freeReadSize info _ => info = p
  | _ => False

instance [DecidableEq ε] (p : ε) : DecidablePred (Pc.Reads p) := fun pc => by
  cases pc <;> unfold Pc.Reads <;> infer_instance

/-- The next step inserts into `allocs`. -/
def Pc.inserts : Pc ε → Bool
  | .exitUpdate _ _ => true
  | _ => false

/-- The own part of the condition: a delete finds the record that was looked up, and
a decrement finds the entry of its stack. -/
def Pc.Undisturbed (s : Shared n ε) : Pc ε → Prop
  | .freeDelete address info => s.allocs.element address = some info
  | .statistics pc => DelPresent s.combinedAllocs pc
  | _ => True

instance [DecidableEq ε] (s : Shared n ε) : DecidablePred (Pc.Undisturbed s) := fun pc => by
  cases pc <;> unfold Pc.Undisturbed <;> infer_instance

/-- What the routine of a CPU relies on. -/
def Pc.Valid (s : Shared n ε) : Pc ε → Prop
  | .statistics pc => pc.Valid s.combinedAllocs
  | _ => True

theorem owed_ofStat (s : Shared n ε) (pc : StatPc) : (Pc.ofStat pc : Pc ε).owed s = pc.owed := by
  unfold Pc.ofStat
  split
  case isTrue hpc => cases pc <;> first | rfl | exact False.elim hpc
  case isFalse => rfl

theorem valid_ofStat {s : Shared n ε} {pc : StatPc} (h : pc.Valid s.combinedAllocs) :
    (Pc.ofStat pc : Pc ε).Valid s := by
  unfold Pc.ofStat
  split
  case isTrue => trivial
  case isFalse => exact h

/-- What a CPU owes does not change while the element it has to read does not. -/
theorem Pc.owed_congr {s s' : Shared n ε} {pc : Pc ε}
    (h : ∀ p, pc.Reads p → s'.allocs.value p = s.allocs.value p) : pc.owed s' = pc.owed s := by
  cases pc with
  | freeReadStackId info => simp only [Pc.owed, h info rfl]
  | freeReadSize info stackId => simp only [Pc.owed, h info rfl]
  | _ => rfl

theorem Pc.Idle.valid {pc : Pc ε} (h : pc.Idle) (s : Shared n ε) : pc.Valid s := by
  cases pc with
  | idle => trivial
  | _ => exact h.elim

theorem Pc.Valid.mono {s s' : Shared n ε} {pc : Pc ε} (hvalid : pc.Valid s)
    (hgrow : ∀ k, k ∈ s.combinedAllocs → k ∈ s'.combinedAllocs) : pc.Valid s' := by
  cases pc with
  | statistics pc => exact StatPc.Valid.mono hvalid hgrow
  | _ => trivial

/-- A routine starts with nothing owed. -/
theorem start_owed (cfg : Config) (routine : Routine) (s : Shared n ε) :
    (routine.start cfg : Pc ε).owed s = 0 ∧ (routine.start cfg : Pc ε).Valid s := by
  cases routine with
  | enter env size =>
      by_cases hacc : Accepted cfg env size
      · rw [Routine.start, if_pos hacc]
        exact ⟨rfl, trivial⟩
      · rw [Routine.start, if_neg hacc]
        exact ⟨rfl, trivial⟩
  | exit env address => exact ⟨rfl, trivial⟩
  | free address => exact ⟨rfl, trivial⟩

/-! ### One step of a routine -/

theorem StatMove.owed {c c' : CombinedAllocs n} {pc pc' : StatPc} (h : StatMove c pc c' pc')
    (hvalid : pc.Valid c) (hdel : DelPresent c pc) : pc.owed = pc'.owed + pc.pays c := by
  cases h with
  | delMissed hk => exact absurd hdel hk
  | @sub k sz =>
      have hk : k ∈ c := hvalid
      show _ = 0 + (if k ∈ c then _ else 0)
      rw [if_pos hk, zero_add]
      rfl
  | returned hpc =>
      have hnone : pc.pays c = 0 := by
        cases pc <;> first | rfl | exact False.elim hpc
      rw [hnone, add_zero]
  | _ => exact (add_zero _).symm

/-- A step of the statistics moves a word by what it adds and subtracts. -/
theorem StatMove.word_accounts {c c' : CombinedAllocs n} {pc pc' : StatPc}
    (h : StatMove c pc c' pc') (k : U64) :
    c.word k + amountFor k (pc.adds c) = c'.word k + amountFor k (pc.pays c) := by
  cases h with
  | inserted hk hroom => exact congrArg (· + (0 : U64)) (word_insert hk hroom k).symm
  | @add k' sz =>
      show c.word k + amountFor k (if k' ∈ c then _ else 0) = _ + 0
      by_cases hk : k' ∈ c
      · rw [if_pos hk, amountFor_singleton, word_modify hk, add_zero]
        split
        case isTrue => rfl
        case isFalse => exact add_zero _
      · rw [if_neg hk, BoundedMap.modify_of_not_mem hk, map_zero]
  | @sub k' sz =>
      show c.word k + 0 = _ + amountFor k (if k' ∈ c then _ else 0)
      by_cases hk : k' ∈ c
      · rw [if_pos hk, amountFor_singleton, word_modify hk, add_zero]
        split
        case isTrue => exact (sub_add_cancel _ _).symm
        case isFalse => exact (add_zero _).symm
      · rw [if_neg hk, BoundedMap.modify_of_not_mem hk, map_zero]
  | returned hpc =>
      have hnone : pc.adds c = 0 ∧ pc.pays c = 0 := by
        cases pc <;> first | exact ⟨rfl, rfl⟩ | exact False.elim hpc
      rw [hnone.1, hnone.2]
  | _ => rfl

section Steps

variable [DecidableEq ε]

/-- **One undisturbed step balances.** What is owed before and what the step removes
is what is owed after and what the step subtracts. -/
theorem PcMove.balance {e : ε} {s s' : Shared n ε} {pc pc' : Pc ε} (h : PcMove e s pc s' pc')
    (hvalid : pc.Valid s) (hclean : pc.Undisturbed s) :
    pc.owed s + (pc.removed s).map AllocInfo.packed = pc'.owed s' + pc.pays s := by
  cases h with
  | @freeDelete address info =>
      -- the record removed is the one the element still holds
      have hfound : s.allocs.element address = some info := hclean
      have hget : s.allocs.get address = some (s.allocs.value info) := by
        rw [ElementMap.get, hfound]
        rfl
      have hremoved : Pc.removed s (.freeDelete address info) = {s.allocs.value info} := by
        rw [Pc.removed, hget]
        rfl
      rw [hremoved, Multiset.map_singleton]
      exact add_comm _ _
  | @statistics pc pc' c' hmove =>
      have howed := hmove.owed hvalid hclean
      rw [owed_ofStat]
      exact (add_zero _).trans howed
  | _ => rfl

/-- The step of a routine establishes what the routine relies on next. -/
theorem PcMove.valid {e : ε} {s s' : Shared n ε} {pc pc' : Pc ε} (h : PcMove e s pc s' pc')
    (hvalid : pc.Valid s) (hclean : pc.Undisturbed s) : pc'.Valid s' := by
  cases h with
  | statistics hmove => exact valid_ofStat (StatPc.Valid.move hvalid hmove hclean)
  | _ => trivial

/-- Entries of `combined_allocs` only appear. -/
theorem PcMove.mem {e : ε} {s s' : Shared n ε} {pc pc' : Pc ε} (h : PcMove e s pc s' pc')
    {k : U64} (hk : k ∈ s.combinedAllocs) : k ∈ s'.combinedAllocs := by
  cases h with
  | statistics hmove => exact hmove.mem hk
  | _ => exact hk

/-- A step writes to no element of `allocs` but the free one it inserts into. -/
theorem PcMove.value {e : ε} {s s' : Shared n ε} {pc pc' : Pc ε} (h : PcMove e s pc s' pc')
    {p : ε} (hp : pc.inserts = true → s.allocs.owner e = none → p ≠ e) :
    s'.allocs.value p = s.allocs.value p := by
  cases h with
  | exitUpdate =>
      by_cases hfree : s.allocs.owner e = none
      · exact ElementMap.value_update_of_ne (hp rfl hfree)
      · exact congrArg (fun m => m.value p) (ElementMap.update_of_linked hfree _ _)
  | _ => rfl

theorem PcMove.word {e : ε} {s s' : Shared n ε} {pc pc' : Pc ε} (h : PcMove e s pc s' pc')
    (k : U64) :
    s.combinedAllocs.word k + amountFor k (pc.adds s) =
      s'.combinedAllocs.word k + amountFor k (pc.pays s) := by
  cases h with
  | statistics hmove => exact hmove.word_accounts k
  | _ => rfl

/-! ### One step of a CPU -/

/-- The maps change as the routine says, and so does what the CPU owes: starting a
routine touches nothing. -/
theorem CpuMove.balance {cfg : Config} {e : ε} {s s' : Shared n ε} {cpu cpu' : Cpu ε}
    (h : CpuMove cfg e s cpu s' cpu') (hvalid : cpu.pc.Valid s)
    (hclean : cpu.pc.Undisturbed s) :
    cpu.pc.owed s + (cpu.pc.removed s).map AllocInfo.packed =
        cpu'.pc.owed s' + cpu.pc.pays s ∧ cpu'.pc.Valid s' := by
  cases h with
  | halted => exact ⟨rfl, trivial⟩
  | @started routine rest =>
      obtain ⟨howed, hstart⟩ := start_owed cfg routine s
      refine ⟨?_, hstart⟩
      rw [howed]
      rfl
  | moved hmove => exact ⟨hmove.balance hvalid hclean, hmove.valid hvalid hclean⟩

theorem CpuMove.frame {cfg : Config} {e : ε} {s s' : Shared n ε} {cpu cpu' : Cpu ε}
    (h : CpuMove cfg e s cpu s' cpu') :
    (∀ k, k ∈ s.combinedAllocs → k ∈ s'.combinedAllocs) ∧
      ∀ p, (cpu.pc.inserts = true → s.allocs.owner e = none → p ≠ e) →
        s'.allocs.value p = s.allocs.value p := by
  cases h with
  | halted => exact ⟨fun _ hk => hk, fun _ _ => rfl⟩
  | started => exact ⟨fun _ hk => hk, fun _ _ => rfl⟩
  | moved hmove => exact ⟨fun _ hk => hmove.mem hk, fun _ hp => hmove.value hp⟩

theorem CpuMove.word {cfg : Config} {e : ε} {s s' : Shared n ε} {cpu cpu' : Cpu ε}
    (h : CpuMove cfg e s cpu s' cpu') (k : U64) :
    s.combinedAllocs.word k + amountFor k (cpu.pc.adds s) =
      s'.combinedAllocs.word k + amountFor k (cpu.pc.pays s) := by
  cases h with
  | halted => rfl
  | started => rfl
  | moved hmove => exact hmove.word k

end Steps

/-! ### Any interleaving -/

section Interleavings

variable [DecidableEq ε] [DecidableEq ι]

/-- What must not happen in a step: a delete that does not find the record its free
has looked up, a decrement whose stack has no entry, or an insertion that takes an
element a free has deleted and not read yet. -/
def Undisturbed (c : Machine n ε ι) (x : ι × ε) : Prop :=
  (c.threads x.1).pc.Undisturbed c.shared ∧
    ((c.threads x.1).pc.inserts = true → c.shared.allocs.owner x.2 = none →
      ∀ i, ¬ (c.threads i).pc.Reads x.2)

instance [Fintype ι] (c : Machine n ε ι) (x : ι × ε) : Decidable (Undisturbed c x) :=
  inferInstanceAs (Decidable (_ ∧ (_ → _ → _)))

/-- The records removed from `allocs` along a schedule. -/
def removedIn (cfg : Config) (c : Machine n ε ι) (sched : List (ι × ε)) : Multiset AllocInfo :=
  Run.total (machineNext cfg) (fun c x => (c.threads x.1).pc.removed c.shared) c sched

/-- The amounts the frees subtract along a schedule, each with its stack. -/
def subtractedIn (cfg : Config) (c : Machine n ε ι) (sched : List (ι × ε)) :
    Multiset (U64 × U64) :=
  Run.total (machineNext cfg) (fun c x => (c.threads x.1).pc.pays c.shared) c sched

/-- The amounts the allocations add along a schedule, each with its stack. -/
def addedIn (cfg : Config) (c : Machine n ε ι) (sched : List (ι × ε)) : Multiset (U64 × U64) :=
  Run.total (machineNext cfg) (fun c x => (c.threads x.1).pc.adds c.shared) c sched

/-- The step of the moving CPU. -/
theorem machineNext_move (cfg : Config) (c : Machine n ε ι) (x : ι × ε) :
    CpuMove cfg x.2 c.shared (c.threads x.1) (machineNext cfg c x).shared
      ((machineNext cfg c x).threads x.1) := by
  have hown : (machineNext cfg c x).threads x.1 =
      (Cpu.step cfg x.2 c.shared (c.threads x.1)).2 :=
    Interleave.next_threads_self Prod.fst (fun x : ι × ε => Cpu.step cfg x.2) c x
  rw [hown]
  exact cpu_step_move cfg x.2 c.shared (c.threads x.1)

/-- What every CPU relies on. -/
def AllValid (c : Machine n ε ι) : Prop := ∀ i, (c.threads i).pc.Valid c.shared

theorem AllValid.next {cfg : Config} {c : Machine n ε ι} (h : AllValid c) {x : ι × ε}
    (hclean : Undisturbed c x) : AllValid (machineNext cfg c x) := by
  have hmove := machineNext_move cfg c x
  have hown := (hmove.balance (h x.1) hclean.1).2
  intro i
  by_cases hi : i = x.1
  · rw [hi]
    exact hown
  · have hother : (machineNext cfg c x).threads i = c.threads i :=
      Interleave.next_threads_of_ne Prod.fst (fun x : ι × ε => Cpu.step cfg x.2) hi
    rw [hother]
    exact (h i).mono hmove.frame.1

/-- What all frees under way owe. -/
def owed [Fintype ι] (c : Machine n ε ι) : Multiset (U64 × U64) :=
  ∑ i, (c.threads i).pc.owed c.shared

/-- One undisturbed step of any CPU balances the accounts. -/
theorem balance_machineNext [Fintype ι] {cfg : Config} {c : Machine n ε ι} {x : ι × ε}
    (hclean : Undisturbed c x) (hvalid : AllValid c) :
    owed c + ((c.threads x.1).pc.removed c.shared).map AllocInfo.packed =
      owed (machineNext cfg c x) + (c.threads x.1).pc.pays c.shared := by
  have hmove := machineNext_move cfg c x
  refine Interleave.balance_next Prod.fst (fun x : ι × ε => Cpu.step cfg x.2)
    (fun s cpu => cpu.pc.owed s) (hmove.balance (hvalid x.1) hclean.1).1 fun i _ => ?_
  -- no other CPU has to read the element the step may write
  refine Pc.owed_congr fun p hreads => ?_
  refine hmove.frame.2 p fun hinserts hfree heq => ?_
  exact hclean.2 hinserts hfree i (heq ▸ hreads)

/-- **The accounts are the words.** Whatever the interleaving, disturbed or not, a word
has moved by what the schedule adds to it less what the frees subtract from it. -/
theorem word_machineRun (cfg : Config) (c₀ : Machine n ε ι) (sched : List (ι × ε)) (k : U64) :
    c₀.shared.combinedAllocs.word k + amountFor k (addedIn cfg c₀ sched) =
      (sched.foldl (machineNext cfg) c₀).shared.combinedAllocs.word k +
        amountFor k (subtractedIn cfg c₀ sched) := by
  have hstep : ∀ (c : Machine n ε ι) (x : ι × ε), True →
      c.shared.combinedAllocs.word k + amountFor k ((c.threads x.1).pc.adds c.shared) =
        (machineNext cfg c x).shared.combinedAllocs.word k +
          amountFor k ((c.threads x.1).pc.pays c.shared) :=
    fun c x _ => (machineNext_move cfg c x).word k
  have hall : Run.Along (machineNext cfg) (fun _ _ => True) c₀ sched :=
    Run.along_iff_forall_mem.mpr fun _ _ => trivial
  rw [addedIn, subtractedIn, ← Run.total_hom, ← Run.total_hom]
  exact Run.total_balance _ _ (fun c : Machine n ε ι => c.shared.combinedAllocs.word k) hstep hall

/-- **Undisturbed frees subtract what they removed.** In every interleaving from idle
CPUs whose steps are all undisturbed, at every point: what the frees have subtracted,
and what those under way still owe, is exactly what the removed records are worth,
each once and with its own size and stack id. When all CPUs are idle again, nothing
is owed, and from every stack exactly the contributions of its removed records have
been subtracted. What counts as subtracted is what the words have lost. -/
theorem frees_subtract_what_they_removed [Fintype ι] {cfg : Config} {c₀ : Machine n ε ι}
    (hidle : ∀ i, (c₀.threads i).pc.Idle) {sched pre : List (ι × ε)}
    (hclean : Run.Along (machineNext cfg) Undisturbed c₀ sched) (hpre : pre <+: sched) :
    let c := pre.foldl (machineNext cfg) c₀
    owed c + subtractedIn cfg c₀ pre = (removedIn cfg c₀ pre).map AllocInfo.packed ∧
      (∀ k, c₀.shared.combinedAllocs.word k + amountFor k (addedIn cfg c₀ pre) =
        c.shared.combinedAllocs.word k + amountFor k (subtractedIn cfg c₀ pre)) ∧
      ((∀ i, (c.threads i).pc.Idle) →
        subtractedIn cfg c₀ pre = (removedIn cfg c₀ pre).map AllocInfo.packed ∧
          ∀ k, amountFor k (subtractedIn cfg c₀ pre) =
            packedSum ((removedIn cfg c₀ pre).filter fun info => info.stackKey = k)) := by
  intro c
  have howed (c : Machine n ε ι) (h : ∀ i, (c.threads i).pc.Idle) : owed c = 0 :=
    Finset.sum_eq_zero fun i _ => (h i).owed c.shared
  have hvalid : AllValid c₀ := fun i => (hidle i).valid c₀.shared
  have hready := (hclean.restrict hpre).and_invariant (I := AllValid)
    (fun _ _ hv hu => hv.next hu) hvalid
  have hbalance := Run.total_balance
    (fun (c : Machine n ε ι) x => ((c.threads x.1).pc.removed c.shared).map AllocInfo.packed)
    (fun c x => (c.threads x.1).pc.pays c.shared) owed
    (fun _ _ h => balance_machineNext h.1 h.2) hready
  have hhom : Run.total (machineNext cfg)
        (fun c x => ((c.threads x.1).pc.removed c.shared).map AllocInfo.packed) c₀ pre =
      (removedIn cfg c₀ pre).map AllocInfo.packed :=
    Run.total_hom (Multiset.mapAddMonoidHom AllocInfo.packed)
      (fun (c : Machine n ε ι) x => (c.threads x.1).pc.removed c.shared) c₀ pre
  have hmain : owed c + subtractedIn cfg c₀ pre =
      (removedIn cfg c₀ pre).map AllocInfo.packed := by
    rw [howed c₀ hidle, zero_add] at hbalance
    exact hbalance.symm.trans hhom
  refine ⟨hmain, word_machineRun cfg c₀ pre, ?_⟩
  intro hdone
  rw [howed c hdone, zero_add] at hmain
  refine ⟨hmain, ?_⟩
  intro k
  rw [hmain]
  exact amountFor_map_packed k _

end Interleavings

/-! ### Concrete schedules -/

/-- Empty maps; the first CPU allocates 100 bytes at `0x1000` from stack 3 and 200
bytes at `0x2000` from stack 5, the second frees `0x1000`. -/
def twoCpus : Machine 10240 (Fin 2) (Fin 2) where
  shared := ⟨.empty 0, .empty ⟨0, 0, 0⟩, .empty⟩
  threads :=
    ![⟨.idle, [.enter (.quiet 0x700000007 3) 100, .exit (.quiet 0x700000007 3) 0x1000,
        .enter (.quiet 0x700000007 5) 200, .exit (.quiet 0x700000007 5) 0x2000]⟩,
      ⟨.idle, [.free 0x1000]⟩]

/-- The second allocation runs while the free is between its delete and its reads, and
takes the other element. -/
theorem frees_subtract_what_they_removed_apart :
    let sched := List.replicate 17 (0, 0) ++ List.replicate 3 (1, 0) ++
      List.replicate 5 (0, 1) ++ List.replicate 4 (1, 0)
    amountFor 3 (subtractedIn {} twoCpus sched) =
      packedSum ((removedIn {} twoCpus sched).filter fun info => info.stackKey = 3) := by
  intro sched
  have hrun := @frees_subtract_what_they_removed 10240 (Fin 2) (Fin 2) _ _ _ {} twoCpus
    (by decide +kernel) sched sched (by decide +kernel) (List.prefix_refl _)
  exact (hrun.2.2 (by decide +kernel)).2 3

/-- The second allocation takes the very element the free has deleted: the free then
reads size and stack id of the new block. The block it removed was counted on stack
3, and it subtracts 200 bytes from stack 5. -/
theorem free_subtracts_reused_element :
    let sched := List.replicate 17 (0, 0) ++ List.replicate 3 (1, 0) ++
      List.replicate 5 (0, 0) ++ List.replicate 4 (1, 0)
    let c := sched.foldl (machineNext {}) twoCpus
    (∀ i, (twoCpus.threads i).pc.Idle) ∧ (∀ i, (c.threads i).pc.Idle) ∧
      removedIn {} twoCpus sched = {⟨100, 0, 3⟩} ∧
      subtractedIn {} twoCpus sched = {(5, contribution 200)} ∧
      subtractedIn {} twoCpus sched ≠ (removedIn {} twoCpus sched).map AllocInfo.packed ∧
      c.shared.combinedAllocs.word 3 = contribution 100 ∧
      c.shared.combinedAllocs.word 5 = 0 := by
  intro sched c
  have hremoved : removedIn {} twoCpus sched = {⟨100, 0, 3⟩} := by decide +kernel
  have hsubtracted : subtractedIn {} twoCpus sched = {(5, contribution 200)} := by decide +kernel
  refine ⟨by decide +kernel, by decide +kernel, hremoved, hsubtracted, ?_, by decide +kernel,
    by decide +kernel⟩
  rw [hremoved, hsubtracted]
  decide +kernel

end EbpfMemleak
