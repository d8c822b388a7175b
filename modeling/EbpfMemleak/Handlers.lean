import EbpfMemleak.State

/-!
# EbpfMemleak.Handlers

The generic routines of `memleak.bpf.c` that every program is built from:
`update_statistics_add`, `update_statistics_del`, `gen_alloc_enter`,
`gen_alloc_exit2` and `gen_free_enter`, each run as one atomic step.

A routine is a function on the maps. Its `int` result is always zero and is
left out. A pointer returned by a lookup is the value it points to; writing
through it is `BoundedMap.modify` on the same key. An update helper whose
result the source ignores is `BoundedMap.put`.

Later modules do not unfold the routines. They use the equations at the end of
each section: an enter is a conditional `put` into `sizes`
(`genAllocEnter_eq`), an exit consumes the pending size and tracks the record
`exitRecord` says it makes (`genAllocExit2_of_none`, `genAllocExit2_of_some`),
a free untracks the record it finds (`genFreeEnter_of_none`,
`genFreeEnter_of_some`).
-/

namespace EbpfMemleak

variable {n : Nat} {cap : Capacities}

/-! ### Statistics -/

/-- `bpf_map_lookup_or_try_init`: the map afterwards and what the returned pointer
points to, `none` for a null pointer. -/
def bpfMapLookupOrTryInit {κ ν : Type} [DecidableEq κ] (map : BoundedMap n κ ν) (key : κ)
    (init : ν) : BoundedMap n κ ν × Option ν :=
  match map.lookup key with
  | some val => (map, some val)
  | none =>
      match map.update .noExist key init with
      | .ok map' => (map', map'.lookup key)
      -- `err == -EEXIST`: another CPU created the key, look it up again
      | .error .exists => (map, map.lookup key)
      | .error .full => (map, none)

/-- `update_statistics_add`. -/
def updateStatisticsAdd (stackId sz : U64) (c : CombinedAllocs n) : CombinedAllocs n :=
  match bpfMapLookupOrTryInit c stackId initialCinfo with
  | (c', none) => c'
  | (c', some _) => c'.modify stackId fun cinfo => ⟨cinfo.bits + contribution sz⟩

/-- `update_statistics_del`. -/
def updateStatisticsDel (stackId sz : U64) (c : CombinedAllocs n) : CombinedAllocs n :=
  match c.lookup stackId with
  | none => c
  | some _ => c.modify stackId fun cinfo => ⟨cinfo.bits - contribution sz⟩

/-- An add finds or creates the entry whenever there is room for it. -/
theorem lookup_updateStatisticsAdd {k sz : U64} {c : CombinedAllocs n} (h : c.HasRoom k)
    (k' : U64) :
    (updateStatisticsAdd k sz c).lookup k' =
      if k' = k then some ⟨c.word k + contribution sz⟩ else c.lookup k' := by
  cases hk : c.lookup k with
  | some cinfo =>
      simp only [updateStatisticsAdd, bpfMapLookupOrTryInit, hk]
      rw [BoundedMap.lookup_modify, hk, CombinedAllocs.word_of_lookup hk, Option.map_some]
  | none =>
      have hmem : k ∉ c := BoundedMap.lookup_eq_none.mp hk
      have hinit : (c.insert k initialCinfo h).lookup k = some initialCinfo := by
        rw [BoundedMap.lookup_insert, if_pos rfl]
      simp only [updateStatisticsAdd, bpfMapLookupOrTryInit, hk,
        BoundedMap.update_noExist_of_not_mem hmem h, hinit]
      rw [BoundedMap.lookup_modify, hinit, CombinedAllocs.word_of_not_mem hmem,
        BoundedMap.lookup_insert]
      split
      case isTrue => rfl
      case isFalse => rfl

/-- A new stack is dropped when `combined_allocs` is full. -/
theorem updateStatisticsAdd_of_not_room {k sz : U64} {c : CombinedAllocs n}
    (h : ¬ c.HasRoom k) : updateStatisticsAdd k sz c = c := by
  have hk : c.lookup k = none := BoundedMap.lookup_eq_none.mpr fun hmem => h (.of_mem hmem)
  simp only [updateStatisticsAdd, bpfMapLookupOrTryInit, hk, BoundedMap.update_of_not_room h]

theorem lookup_updateStatisticsDel (k sz : U64) (c : CombinedAllocs n) (k' : U64) :
    (updateStatisticsDel k sz c).lookup k' =
      if k' = k then (c.lookup k).map fun cinfo => ⟨cinfo.bits - contribution sz⟩
      else c.lookup k' := by
  unfold updateStatisticsDel
  cases hk : c.lookup k with
  | some cinfo => rw [BoundedMap.lookup_modify, hk]
  | none =>
      by_cases heq : k' = k
      · rw [if_pos heq, heq, hk, Option.map_none]
      · rw [if_neg heq]

/-- A decrement creates and removes no entry. -/
@[simp] theorem mem_updateStatisticsDel {k sz k' : U64} {c : CombinedAllocs n} :
    k' ∈ updateStatisticsDel k sz c ↔ k' ∈ c := by
  rw [BoundedMap.mem_iff, BoundedMap.mem_iff, lookup_updateStatisticsDel]
  split
  case isTrue h => rw [h]; cases c.lookup k <;> simp
  case isFalse => rfl

@[simp] theorem size_updateStatisticsDel (k sz : U64) (c : CombinedAllocs n) :
    (updateStatisticsDel k sz c).size = c.size :=
  BoundedMap.size_eq_of_mem_iff fun _ => mem_updateStatisticsDel

theorem mem_updateStatisticsAdd {k sz k' : U64} {c : CombinedAllocs n} (h : c.HasRoom k) :
    k' ∈ updateStatisticsAdd k sz c ↔ k' = k ∨ k' ∈ c := by
  rw [BoundedMap.mem_iff, BoundedMap.mem_iff, lookup_updateStatisticsAdd h]
  split
  case isTrue heq => simp [heq]
  case isFalse hne => simp [hne]

/-- An add removes no entry. -/
theorem mem_updateStatisticsAdd_of_mem {k sz k' : U64} {c : CombinedAllocs n} (h : k' ∈ c) :
    k' ∈ updateStatisticsAdd k sz c := by
  by_cases hroom : c.HasRoom k
  · exact (mem_updateStatisticsAdd hroom).mpr (Or.inr h)
  · rwa [updateStatisticsAdd_of_not_room hroom]

/-- A full map stays full: it has room only for a key it holds. -/
theorem size_updateStatisticsAdd_of_full {k sz : U64} {c : CombinedAllocs n} (h : c.size = n) :
    (updateStatisticsAdd k sz c).size = n := by
  by_cases hroom : c.HasRoom k
  · have hold : k ∈ c := hroom.resolve_right fun hlt => absurd h (Nat.ne_of_lt hlt)
    refine (BoundedMap.size_eq_of_mem_iff fun k' => ?_).trans h
    rw [mem_updateStatisticsAdd hroom]
    exact ⟨fun hk => hk.elim (fun heq => heq ▸ hold) id, Or.inr⟩
  · rw [updateStatisticsAdd_of_not_room hroom, h]

/-- An add takes at most one more slot. -/
theorem size_updateStatisticsAdd_le (k sz : U64) (c : CombinedAllocs n) :
    (updateStatisticsAdd k sz c).size ≤ c.size + 1 := by
  by_cases hroom : c.HasRoom k
  · have hput : (updateStatisticsAdd k sz c).size = (c.put k initialCinfo).size :=
      BoundedMap.size_eq_of_mem_iff fun k' =>
        (mem_updateStatisticsAdd hroom).trans (BoundedMap.mem_put hroom).symm
    rw [hput]
    exact BoundedMap.size_put_le k initialCinfo c
  · rw [updateStatisticsAdd_of_not_room hroom]
    exact Nat.le_succ _

/-- The word of the stack grows by the contribution, the others stay. -/
theorem word_updateStatisticsAdd {k sz : U64} {c : CombinedAllocs n} (h : c.HasRoom k)
    (k' : U64) :
    (updateStatisticsAdd k sz c).word k' =
      if k' = k then c.word k + contribution sz else c.word k' := by
  rw [CombinedAllocs.word, lookup_updateStatisticsAdd h]
  split
  case isTrue => rfl
  case isFalse => rfl

theorem word_updateStatisticsDel_of_ne {k sz k' : U64} (h : k' ≠ k) (c : CombinedAllocs n) :
    (updateStatisticsDel k sz c).word k' = c.word k' := by
  rw [CombinedAllocs.word, lookup_updateStatisticsDel, if_neg h, CombinedAllocs.word]

/-- The word of a present stack drops by the contribution, the others stay. -/
theorem word_updateStatisticsDel {k sz : U64} {c : CombinedAllocs n} (h : k ∈ c) (k' : U64) :
    (updateStatisticsDel k sz c).word k' =
      if k' = k then c.word k - contribution sz else c.word k' := by
  obtain ⟨cinfo, hk⟩ := BoundedMap.mem_iff.mp h
  split
  case isTrue heq =>
    rw [CombinedAllocs.word, lookup_updateStatisticsDel, if_pos heq, hk,
      CombinedAllocs.word_of_lookup hk]
    rfl
  case isFalse hne => exact word_updateStatisticsDel_of_ne hne c

/-! ### `gen_alloc_enter` -/

/-- `gen_alloc_enter`. -/
def genAllocEnter (cfg : Config) (env : Env) (size : U64) (m : Maps cap) : Maps cap :=
  if size < cfg.minSize ∨ cfg.maxSize < size then m
  else if 1 < cfg.sampleRate ∧ env.ktimeEnter % cfg.sampleRate ≠ 0 then m
  else if cfg.targetPid ≠ 0 ∧ env.pid ≠ cfg.targetPid then m
  else { m with sizes := m.sizes.put env.pid size }

/-- The filters of `gen_alloc_enter`, as one condition: size range, sampling,
target process. -/
def Accepted (cfg : Config) (env : Env) (size : U64) : Prop :=
  (cfg.minSize ≤ size ∧ size ≤ cfg.maxSize) ∧
    (cfg.sampleRate ≤ 1 ∨ env.ktimeEnter % cfg.sampleRate = 0) ∧
    (cfg.targetPid = 0 ∨ env.pid = cfg.targetPid)

instance (cfg : Config) (env : Env) (size : U64) : Decidable (Accepted cfg env size) :=
  inferInstanceAs (Decidable (_ ∧ _))

theorem genAllocEnter_eq (cfg : Config) (env : Env) (size : U64) (m : Maps cap) :
    genAllocEnter cfg env size m =
      if Accepted cfg env size then { m with sizes := m.sizes.put env.pid size } else m := by
  unfold genAllocEnter
  by_cases hrange : size < cfg.minSize ∨ cfg.maxSize < size
  · rw [if_pos hrange, if_neg]
    rintro ⟨⟨hmin, hmax⟩, -⟩
    rcases hrange with h | h
    · exact absurd hmin (BitVec.not_le.mpr h)
    · exact absurd hmax (BitVec.not_le.mpr h)
  rw [if_neg hrange]
  by_cases hsample : 1 < cfg.sampleRate ∧ env.ktimeEnter % cfg.sampleRate ≠ 0
  · rw [if_pos hsample, if_neg]
    rintro ⟨-, h | h, -⟩
    · exact absurd h (BitVec.not_le.mpr hsample.1)
    · exact hsample.2 h
  rw [if_neg hsample]
  by_cases hpid : cfg.targetPid ≠ 0 ∧ env.pid ≠ cfg.targetPid
  · rw [if_pos hpid, if_neg]
    rintro ⟨-, -, h | h⟩
    · exact hpid.1 h
    · exact hpid.2 h
  rw [if_neg hpid, if_pos]
  refine ⟨⟨?_, ?_⟩, ?_, ?_⟩
  · exact BitVec.not_lt.mp fun h => hrange (Or.inl h)
  · exact BitVec.not_lt.mp fun h => hrange (Or.inr h)
  · by_cases h : 1 < cfg.sampleRate
    · exact Or.inr (by_contra fun hmod => hsample ⟨h, hmod⟩)
    · exact Or.inl (BitVec.not_lt.mp h)
  · by_cases h : cfg.targetPid = 0
    · exact Or.inl h
    · exact Or.inr (by_contra fun hne => hpid ⟨h, hne⟩)

@[simp] theorem genAllocEnter_allocs (cfg : Config) (env : Env) (size : U64) (m : Maps cap) :
    (genAllocEnter cfg env size m).allocs = m.allocs := by
  rw [genAllocEnter_eq]; split <;> rfl

@[simp] theorem genAllocEnter_combinedAllocs (cfg : Config) (env : Env) (size : U64)
    (m : Maps cap) : (genAllocEnter cfg env size m).combinedAllocs = m.combinedAllocs := by
  rw [genAllocEnter_eq]; split <;> rfl

@[simp] theorem genAllocEnter_memptrs (cfg : Config) (env : Env) (size : U64) (m : Maps cap) :
    (genAllocEnter cfg env size m).memptrs = m.memptrs := by
  rw [genAllocEnter_eq]; split <;> rfl

theorem genAllocEnter_sizes (cfg : Config) (env : Env) (size : U64) (m : Maps cap) :
    (genAllocEnter cfg env size m).sizes =
      if Accepted cfg env size then m.sizes.put env.pid size else m.sizes := by
  rw [genAllocEnter_eq]; split <;> rfl

/-! ### `gen_alloc_exit2` -/

/-- Store a record and count it: the two updates of a successful exit. -/
def Maps.track (address : U64) (info : AllocInfo) (m : Maps cap) : Maps cap :=
  { m with
    allocs := m.allocs.put address info
    combinedAllocs := updateStatisticsAdd info.stackKey info.size m.combinedAllocs }

@[simp] theorem track_allocs (address : U64) (info : AllocInfo) (m : Maps cap) :
    (m.track address info).allocs = m.allocs.put address info := rfl

@[simp] theorem track_combinedAllocs (address : U64) (info : AllocInfo) (m : Maps cap) :
    (m.track address info).combinedAllocs =
      updateStatisticsAdd info.stackKey info.size m.combinedAllocs := rfl

/-- `gen_alloc_exit2`. -/
def genAllocExit2 (env : Env) (address : U64) (m : Maps cap) : Maps cap :=
  match m.sizes.lookup env.pid with
  | none => m
  | some size =>
      let m := { m with sizes := m.sizes.erase env.pid }
      if address ≠ 0 then
        let info : AllocInfo :=
          { size := size, timestampNs := env.ktimeExit, stackId := env.stackId }
        m.track address info
      else m

/-- `gen_alloc_exit`: the address is the return value of the probed function. -/
def genAllocExit (env : Env) (rc : U64) (m : Maps cap) : Maps cap := genAllocExit2 env rc m

/-- The record an exit makes: none without a pending size ("missed alloc entry")
or for a null address. -/
def exitRecord (env : Env) (address : U64) (m : Maps cap) : Option AllocInfo :=
  match m.sizes.lookup env.pid with
  | none => none
  | some size =>
      if address ≠ 0 then
        some { size := size, timestampNs := env.ktimeExit, stackId := env.stackId }
      else none

theorem exitRecord_eq_some {env : Env} {address : U64} {m : Maps cap} {info : AllocInfo} :
    exitRecord env address m = some info ↔
      address ≠ 0 ∧ m.sizes.lookup env.pid = some info.size ∧
        info = ⟨info.size, env.ktimeExit, env.stackId⟩ := by
  unfold exitRecord
  cases hs : m.sizes.lookup env.pid with
  | none => simp
  | some size =>
      by_cases haddr : address = 0
      · simp [haddr]
      · dsimp only
        rw [if_pos haddr]
        constructor
        · intro h
          obtain rfl := Option.some.inj h
          exact ⟨haddr, rfl, rfl⟩
        · rintro ⟨-, hsize, hinfo⟩
          rw [hinfo, Option.some.inj hsize]

theorem exitRecord_eq_none {env : Env} {address : U64} {m : Maps cap} :
    exitRecord env address m = none ↔ address = 0 ∨ m.sizes.lookup env.pid = none := by
  unfold exitRecord
  cases hs : m.sizes.lookup env.pid with
  | none => simp
  | some size =>
      by_cases haddr : address = 0
      · simp [haddr]
      · dsimp only
        rw [if_pos haddr]
        simpa using haddr

/-- An exit that makes no record only drops the pending size. -/
theorem genAllocExit2_of_none {env : Env} {address : U64} {m : Maps cap}
    (h : exitRecord env address m = none) :
    genAllocExit2 env address m = { m with sizes := m.sizes.erase env.pid } := by
  unfold genAllocExit2
  cases hs : m.sizes.lookup env.pid with
  | none => rw [BoundedMap.erase_of_not_mem (BoundedMap.lookup_eq_none.mp hs)]
  | some size =>
      rcases exitRecord_eq_none.mp h with haddr | hnone
      · simp [haddr]
      · rw [hs] at hnone
        cases hnone

/-- An exit that makes a record drops the pending size and tracks the record. -/
theorem genAllocExit2_of_some {env : Env} {address : U64} {m : Maps cap} {info : AllocInfo}
    (h : exitRecord env address m = some info) :
    genAllocExit2 env address m =
      ({ m with sizes := m.sizes.erase env.pid } : Maps cap).track address info := by
  obtain ⟨haddr, hs, hinfo⟩ := exitRecord_eq_some.mp h
  unfold genAllocExit2
  simp only [hs, ne_eq, haddr, not_false_eq_true, if_true]
  rw [← hinfo]

@[simp] theorem genAllocExit2_sizes (env : Env) (address : U64) (m : Maps cap) :
    (genAllocExit2 env address m).sizes = m.sizes.erase env.pid := by
  cases h : exitRecord env address m with
  | none => rw [genAllocExit2_of_none h]
  | some info => rw [genAllocExit2_of_some h]; rfl

@[simp] theorem genAllocExit2_memptrs (env : Env) (address : U64) (m : Maps cap) :
    (genAllocExit2 env address m).memptrs = m.memptrs := by
  cases h : exitRecord env address m with
  | none => rw [genAllocExit2_of_none h]
  | some info => rw [genAllocExit2_of_some h]; rfl

/-- With nothing pending for the process, an enter and an exit of it back to back track
the block if the filters accept it, `sizes` has room and the address is not null, and
change nothing otherwise. -/
theorem genAllocExit2_genAllocEnter_of_idle {cfg : Config} {env env' : Env} {size address : U64}
    {m : Maps cap} (hidle : m.sizes.lookup env.pid = none) (hpid : env'.pid = env.pid) :
    genAllocExit2 env' address (genAllocEnter cfg env size m) =
      if (Accepted cfg env size ∧ m.sizes.HasRoom env.pid) ∧ address ≠ 0 then
        m.track address ⟨size, env'.ktimeExit, env'.stackId⟩
      else m := by
  have habsent : env.pid ∉ m.sizes := BoundedMap.lookup_eq_none.mp hidle
  by_cases hpending : Accepted cfg env size ∧ m.sizes.HasRoom env.pid
  · obtain ⟨hacc, hroom⟩ := hpending
    -- the exit takes back what the enter left
    have hback : (m.sizes.put env.pid size).erase env.pid = m.sizes :=
      BoundedMap.erase_put habsent size
    rw [genAllocEnter_eq, if_pos hacc]
    by_cases haddr : address = 0
    · rw [if_neg fun h => h.2 haddr, genAllocExit2_of_none (exitRecord_eq_none.mpr (.inl haddr))]
      dsimp only
      rw [hpid, hback]
    · have hlookup : (m.sizes.put env.pid size).lookup env'.pid = some size := by
        rw [BoundedMap.lookup_put hroom, if_pos hpid]
      have hrec : exitRecord env' address { m with sizes := m.sizes.put env.pid size } =
          some ⟨size, env'.ktimeExit, env'.stackId⟩ :=
        exitRecord_eq_some.mpr ⟨haddr, hlookup, rfl⟩
      rw [if_pos ⟨⟨hacc, hroom⟩, haddr⟩, genAllocExit2_of_some hrec]
      dsimp only
      rw [hpid, hback]
  · have henter : genAllocEnter cfg env size m = m := by
      rw [genAllocEnter_eq]
      split
      case isTrue hacc => rw [BoundedMap.put_of_not_room fun hroom => hpending ⟨hacc, hroom⟩]
      case isFalse => rfl
    rw [henter, if_neg fun h => hpending h.1,
      genAllocExit2_of_none (exitRecord_eq_none.mpr (.inr (hpid ▸ hidle))), hpid,
      BoundedMap.erase_of_not_mem habsent]

/-- With nothing pending, an enter and an exit of one process back to back track
the block if the filters accept it and its address is not null, and change nothing
otherwise. -/
theorem genAllocExit2_genAllocEnter {cfg : Config} {env env' : Env} {size address : U64}
    {m : Maps cap} (hsizes : m.sizes = .empty) (hcap : 0 < cap.sizes)
    (hpid : env'.pid = env.pid) :
    genAllocExit2 env' address (genAllocEnter cfg env size m) =
      if Accepted cfg env size ∧ address ≠ 0 then
        m.track address ⟨size, env'.ktimeExit, env'.stackId⟩
      else m := by
  have hidle : m.sizes.lookup env.pid = none := by
    rw [hsizes]
    exact BoundedMap.lookup_empty _
  have hroom : m.sizes.HasRoom env.pid := by
    rw [hsizes]
    exact .of_size_lt hcap _
  rw [genAllocExit2_genAllocEnter_of_idle hidle hpid]
  simp [hroom]

/-! ### `gen_free_enter` -/

/-- Forget a record and discount it: the two updates of a free. -/
def Maps.untrack (address : U64) (info : AllocInfo) (m : Maps cap) : Maps cap :=
  { m with
    allocs := m.allocs.erase address
    combinedAllocs := updateStatisticsDel info.stackKey info.size m.combinedAllocs }

@[simp] theorem untrack_allocs (address : U64) (info : AllocInfo) (m : Maps cap) :
    (m.untrack address info).allocs = m.allocs.erase address := rfl

@[simp] theorem untrack_combinedAllocs (address : U64) (info : AllocInfo) (m : Maps cap) :
    (m.untrack address info).combinedAllocs =
      updateStatisticsDel info.stackKey info.size m.combinedAllocs := rfl

/-- `gen_free_enter`. -/
def genFreeEnter (address : U64) (m : Maps cap) : Maps cap :=
  match m.allocs.lookup address with
  | none => m
  | some info => m.untrack address info

theorem genFreeEnter_of_none {address : U64} {m : Maps cap}
    (h : m.allocs.lookup address = none) : genFreeEnter address m = m := by
  simp only [genFreeEnter, h]

theorem genFreeEnter_of_some {address : U64} {m : Maps cap} {info : AllocInfo}
    (h : m.allocs.lookup address = some info) :
    genFreeEnter address m = m.untrack address info := by
  simp only [genFreeEnter, h]

@[simp] theorem genFreeEnter_sizes (address : U64) (m : Maps cap) :
    (genFreeEnter address m).sizes = m.sizes := by
  cases h : m.allocs.lookup address with
  | none => rw [genFreeEnter_of_none h]
  | some info => rw [genFreeEnter_of_some h]; rfl

@[simp] theorem genFreeEnter_memptrs (address : U64) (m : Maps cap) :
    (genFreeEnter address m).memptrs = m.memptrs := by
  cases h : m.allocs.lookup address with
  | none => rw [genFreeEnter_of_none h]
  | some info => rw [genFreeEnter_of_some h]; rfl

/-- A free leaves no record of its address and keeps the others. -/
theorem genFreeEnter_allocs (address : U64) (m : Maps cap) :
    (genFreeEnter address m).allocs = m.allocs.erase address := by
  cases h : m.allocs.lookup address with
  | none =>
      rw [genFreeEnter_of_none h,
        BoundedMap.erase_of_not_mem (BoundedMap.lookup_eq_none.mp h)]
  | some info => rw [genFreeEnter_of_some h]; rfl

/-- A free creates and removes no statistics entry. -/
theorem mem_genFreeEnter_combinedAllocs {address k : U64} {m : Maps cap} :
    k ∈ (genFreeEnter address m).combinedAllocs ↔ k ∈ m.combinedAllocs := by
  cases h : m.allocs.lookup address with
  | none => rw [genFreeEnter_of_none h]
  | some info => rw [genFreeEnter_of_some h]; exact mem_updateStatisticsDel

/-! ### What the routines do to the records of a stack -/

theorem records_eq_of_allocs {m m' : Maps cap} (h : m'.allocs = m.allocs) (k : U64) :
    m'.records k = m.records k := by
  rw [Maps.records, h, Maps.records]

/-- Tracking a new address adds its record to its stack. -/
theorem records_track {address : U64} {info : AllocInfo} {m : Maps cap}
    (h : address ∉ m.allocs) (hroom : m.allocs.HasRoom address) (k : U64) :
    (m.track address info).records k =
      if info.stackKey = k then info ::ₘ m.records k else m.records k := by
  rw [Maps.records, Maps.track, BoundedMap.values_put_of_not_mem h hroom, filter_stackKey_cons]
  rfl

/-- Untracking an address removes its record from its stack. -/
theorem records_untrack {address : U64} {info : AllocInfo} {m : Maps cap}
    (h : m.allocs.lookup address = some info) (k : U64) :
    m.records k =
      if info.stackKey = k then info ::ₘ (m.untrack address info).records k
      else (m.untrack address info).records k := by
  rw [Maps.records, BoundedMap.values_erase_of_lookup h, filter_stackKey_cons]
  rfl

/-! ### `memptrs` stands apart

The three routines neither read nor write it. -/

theorem genAllocEnter_with_memptrs (cfg : Config) (env : Env) (size : U64) (m : Maps cap)
    (q : BoundedMap cap.memptrs U64 U64) :
    genAllocEnter cfg env size { m with memptrs := q } =
      { genAllocEnter cfg env size m with memptrs := q } := by
  rw [genAllocEnter_eq, genAllocEnter_eq]
  split <;> rfl

theorem genAllocExit2_with_memptrs (env : Env) (address : U64) (m : Maps cap)
    (q : BoundedMap cap.memptrs U64 U64) :
    genAllocExit2 env address { m with memptrs := q } =
      { genAllocExit2 env address m with memptrs := q } := by
  unfold genAllocExit2
  cases m.sizes.lookup env.pid with
  | none => rfl
  | some size =>
      by_cases haddr : address ≠ 0
      · simp only [if_pos haddr, Maps.track]
      · simp only [if_neg haddr]

theorem genFreeEnter_with_memptrs (address : U64) (m : Maps cap)
    (q : BoundedMap cap.memptrs U64 U64) :
    genFreeEnter address { m with memptrs := q } =
      { genFreeEnter address m with memptrs := q } := by
  unfold genFreeEnter
  cases m.allocs.lookup address <;> rfl

/-! ### The blocks and their statistics -/

/-- What the reports are about: the outstanding allocations and their statistics. -/
def Maps.blocks (m : Maps cap) :
    BoundedMap cap.allocs U64 AllocInfo × CombinedAllocs cap.combinedAllocs :=
  (m.allocs, m.combinedAllocs)

theorem blocks_eq_iff {m m' : Maps cap} :
    m'.blocks = m.blocks ↔ m'.allocs = m.allocs ∧ m'.combinedAllocs = m.combinedAllocs :=
  Prod.ext_iff

@[simp] theorem genAllocEnter_blocks (cfg : Config) (env : Env) (size : U64) (m : Maps cap) :
    (genAllocEnter cfg env size m).blocks = m.blocks :=
  blocks_eq_iff.mpr ⟨genAllocEnter_allocs .., genAllocEnter_combinedAllocs ..⟩

end EbpfMemleak
