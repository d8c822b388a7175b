import EbpfMemleak.Info
import EbpfMemleak.Lib.BoundedMap

/-!
# EbpfMemleak.State

The state of `memleak.bpf.c`: the loader-set constants (`Config`), what the BPF
helpers answer during one handler execution (`Env`), and the four hash maps
(`Maps`).

A BPF hash map is a `BoundedMap` whose capacity is its `max_entries`. The
capacities are a parameter (`Capacities`), since several results hold whatever
they are; `Capacities.source` is what the source declares. `stack_traces` is
written only inside `bpf_get_stackid`, whose answer is part of `Env`, so it has
no map here. `trace_all` and `bpf_printk` only print, and `stack_flags` only
reaches `bpf_get_stackid`; they leave no trace in the maps and are not
modelled.
-/

namespace EbpfMemleak

/-- What is fixed before the programs run: the `const volatile` globals, with the
defaults of the source, and the answer CO-RE relocation gives to
`has_kmem_alloc_node()`. The other `has_*` functions only select which struct
the members `ptr` and `bytes_alloc` are read from. -/
structure Config where
  minSize : U64 := 0
  maxSize : U64 := -1
  pageSize : U64 := 4096
  sampleRate : U64 := 0
  waMissingFree : Bool := false
  targetPid : Pid := 0
  hasKmemAllocNode : Bool := false

/-- What the helpers answer during one execution of a program. The clock is read
at most once by `gen_alloc_enter` and once by `gen_alloc_exit2`; a tracepoint
handler runs both. -/
structure Env where
  /-- `bpf_get_current_pid_tgid()`. -/
  pidTgid : U64
  /-- `bpf_ktime_get_ns()` in `gen_alloc_enter`. -/
  ktimeEnter : U64
  /-- `bpf_ktime_get_ns()` in `gen_alloc_exit2`. -/
  ktimeExit : U64
  /-- `bpf_get_stackid()`: a stack id or a negative errno, as a `long`. -/
  stackid : U64
  /-- `bpf_probe_read_user()` of a pointer: `none` when the read faults. -/
  probeReadUser : U64 → Option U64

/-- An environment whose clock stands still and whose user memory cannot be read. -/
def Env.quiet (pidTgid stackid : U64) : Env where
  pidTgid := pidTgid
  ktimeEnter := 0
  ktimeExit := 0
  stackid := stackid
  probeReadUser := fun _ => none

/-- `const pid_t pid = bpf_get_current_pid_tgid() >> 32`. -/
def Env.pid (env : Env) : Pid := (env.pidTgid >>> 32).setWidth 32

/-- `const u64 pid = bpf_get_current_pid_tgid() >> 32`, the key of `memptrs`. -/
def Env.pid64 (env : Env) : U64 := env.pidTgid >>> 32

/-- `info.stack_id = bpf_get_stackid(..)`: the `long` is cut to an `int`. -/
def Env.stackId (env : Env) : I32 := env.stackid.setWidth 32

/-- The `max_entries` of the four hash maps. -/
structure Capacities where
  sizes : Nat
  allocs : Nat
  combinedAllocs : Nat
  memptrs : Nat

/-- The capacities the source declares. -/
def Capacities.source : Capacities where
  sizes := 10240
  allocs := allocsMaxEntries
  combinedAllocs := combinedAllocsMaxEntries
  memptrs := 10240

/-- The map `combined_allocs` at capacity `n`. -/
abbrev CombinedAllocs (n : Nat) := BoundedMap n U64 CombinedAllocInfo

/-- The hash maps the programs share. -/
structure Maps (cap : Capacities) where
  /-- `sizes`: the size a process has passed to an allocation call that has not
  returned yet. -/
  sizes : BoundedMap cap.sizes Pid U64
  /-- `allocs`: the outstanding allocations, by address. -/
  allocs : BoundedMap cap.allocs U64 AllocInfo
  /-- `combined_allocs`: the packed statistics, by stack id. -/
  combinedAllocs : CombinedAllocs cap.combinedAllocs
  /-- `memptrs`: the result pointer of an open `posix_memalign` call. -/
  memptrs : BoundedMap cap.memptrs U64 U64

/-- All maps empty, as the loader creates them. -/
def Maps.empty {cap : Capacities} : Maps cap := ⟨.empty, .empty, .empty, .empty⟩

/-- No map has reached its capacity, so no insertion can fail. -/
def Maps.NotFull {cap : Capacities} (m : Maps cap) : Prop :=
  m.sizes.size < cap.sizes ∧ m.allocs.size < cap.allocs ∧
    m.combinedAllocs.size < cap.combinedAllocs ∧ m.memptrs.size < cap.memptrs

instance {cap : Capacities} (m : Maps cap) : Decidable m.NotFull :=
  inferInstanceAs (Decidable (_ ∧ _))

/-- The packed word of a stack: its `bits`, or zero while it has no entry. -/
def CombinedAllocs.word {n : Nat} (c : CombinedAllocs n) (k : U64) : U64 :=
  ((c.lookup k).map CombinedAllocInfo.bits).getD 0

/-- The outstanding allocations counted under stack key `k`. -/
def Maps.records {cap : Capacities} (m : Maps cap) (k : U64) : Multiset AllocInfo :=
  m.allocs.values.filter fun info => info.stackKey = k

theorem filter_stackKey_cons (info : AllocInfo) (s : Multiset AllocInfo) (k : U64) :
    ((info ::ₘ s).filter fun i => i.stackKey = k) =
      if info.stackKey = k then info ::ₘ s.filter fun i => i.stackKey = k
      else s.filter fun i => i.stackKey = k := by
  split
  case isTrue h => exact Multiset.filter_cons_of_pos s h
  case isFalse h => exact Multiset.filter_cons_of_neg s h

/-- The packed contributions of a collection of records, summed. -/
def packedSum (s : Multiset AllocInfo) : U64 := (s.map fun info => contribution info.size).sum

@[simp] theorem packedSum_zero : packedSum 0 = 0 := rfl

@[simp] theorem packedSum_cons (info : AllocInfo) (s : Multiset AllocInfo) :
    packedSum (info ::ₘ s) = contribution info.size + packedSum s := by
  simp [packedSum]

/-- The sizes of a collection of records, as numbers. -/
def sizesOf (s : Multiset AllocInfo) : Multiset Nat := s.map fun info => info.size.toNat

/-- The packed sum is the word of the packed counter fed with the sizes. -/
theorem toNat_packedSum (s : Multiset AllocInfo) :
    (packedSum s).toNat = PackedCounter.total 40 24 (sizesOf s) := by
  have hmap : (s.map fun info => (contribution info.size).toNat) =
      (sizesOf s).map (PackedCounter.one 40) := by
    rw [sizesOf, Multiset.map_map]
    exact Multiset.map_congr rfl fun info _ => toNat_contribution info.size
  rw [packedSum, PackedCounter.toNat_sum, hmap, PackedCounter.total_eq (w := 64) rfl]

/-- Decoding a packed sum: the total of the sizes modulo `2 ^ 40`, and the number
of records plus the carries out of the total, modulo `2 ^ 24`. -/
theorem getCombinedAllocInfo_packedSum (stackId : U32) (s : Multiset AllocInfo) :
    let decoded := getCombinedAllocInfo stackId (.ofBits .little (packedSum s))
    decoded.totalSize.toNat = PackedCounter.low 40 (PackedCounter.total 40 24 (sizesOf s)) ∧
      decoded.numberOfAllocs.toNat =
        PackedCounter.high 40 24 (PackedCounter.total 40 24 (sizesOf s)) := by
  rw [← toNat_packedSum]
  exact ⟨totalSize_getCombinedAllocInfo stackId _, numberOfAllocs_getCombinedAllocInfo stackId _⟩

@[simp] theorem card_sizesOf (s : Multiset AllocInfo) : (sizesOf s).card = s.card :=
  Multiset.card_map _ s

theorem CombinedAllocs.word_of_lookup {n : Nat} {c : CombinedAllocs n} {k : U64}
    {cinfo : CombinedAllocInfo} (h : c.lookup k = some cinfo) : c.word k = cinfo.bits := by
  simp [CombinedAllocs.word, h]

theorem CombinedAllocs.word_of_not_mem {n : Nat} {c : CombinedAllocs n} {k : U64} (h : k ∉ c) :
    c.word k = 0 := by
  simp [CombinedAllocs.word, BoundedMap.lookup_eq_none.mpr h]

/-- Statistics are known by the stacks they have an entry for, and their words. -/
theorem CombinedAllocs.ext_word {n : Nat} {c c' : CombinedAllocs n} (hmem : ∀ k, k ∈ c ↔ k ∈ c')
    (hword : ∀ k, c.word k = c'.word k) : c = c' := by
  refine BoundedMap.ext_lookup fun k => ?_
  cases h : c.lookup k with
  | none => exact (BoundedMap.lookup_eq_none.mpr fun hk =>
      BoundedMap.lookup_eq_none.mp h ((hmem k).mpr hk)).symm
  | some cinfo =>
      obtain ⟨cinfo', h'⟩ := BoundedMap.mem_iff.mp ((hmem k).mp (BoundedMap.mem_of_lookup h))
      have hbits := hword k
      rw [CombinedAllocs.word_of_lookup h, CombinedAllocs.word_of_lookup h'] at hbits
      rw [h']
      cases cinfo
      cases cinfo'
      exact congrArg (fun b => some (CombinedAllocInfo.mk b)) hbits

end EbpfMemleak
