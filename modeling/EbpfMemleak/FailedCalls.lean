import EbpfMemleak.Drift

/-!
# EbpfMemleak.FailedCalls

**Calls that fail.** All allocation programs end in `gen_alloc_exit2`, which takes a
null address for a failure and every other one for a block. The functions have three
conventions, though: most return null, `mmap` returns `2 ^ 64 - 1`, and so does the
page frame number of `mm_page_alloc`, while `posix_memalign` leaves the pointer it was
given as it was, so that `posix_memalign_exit` reads whatever was there.

`FailedCall` is a call of any allocation program but `realloc` that fails by its own
convention, `FailedCall.handed` the address its exit hands to `gen_alloc_exit2`.
`failed_call_keeps_blocks_iff` says which failed calls leave no trace.
-/

namespace EbpfMemleak

variable {cap : Capacities}

/-! ### The calls -/

/-- A call of a probed function other than `realloc`. -/
inductive LibcCall
  | malloc (size : U64)
  | calloc (nmemb size : U64)
  | mmap (address size : U64)
  | posixMemalign (memptr alignment size : U64)
  | alignedAlloc (alignment size : U64)
  | valloc (size : U64)
  | memalign (alignment size : U64)
  | pvalloc (size : U64)
  deriving DecidableEq

/-- The program at the entry of the function. -/
def LibcCall.enter : LibcCall → Program
  | malloc size => .mallocEnter size
  | calloc nmemb size => .callocEnter nmemb size
  | mmap address size => .mmapEnter address size
  | posixMemalign memptr alignment size => .posixMemalignEnter memptr alignment size
  | alignedAlloc alignment size => .alignedAllocEnter alignment size
  | valloc size => .vallocEnter size
  | memalign alignment size => .memalignEnter alignment size
  | pvalloc size => .pvallocEnter size

/-- The program at the return of the function when it fails: `MAP_FAILED` for `mmap`,
null for the others that return the block. -/
def LibcCall.failedExit : LibcCall → Program
  | malloc _ => .mallocExit 0
  | calloc _ _ => .callocExit 0
  | mmap _ _ => .mmapExit (-1)
  | posixMemalign _ _ _ => .posixMemalignExit
  | alignedAlloc _ _ => .alignedAllocExit 0
  | valloc _ => .vallocExit 0
  | memalign _ _ => .memalignExit 0
  | pvalloc _ => .pvallocExit 0

/-- The size its enter passes on. -/
def LibcCall.size : LibcCall → U64
  | calloc nmemb size => nmemb * size
  | malloc size | mmap _ size | posixMemalign _ _ size | alignedAlloc _ size | valloc size
  | memalign _ size | pvalloc size => size

/-- An allocation tracepoint, less the address it reports. -/
inductive AllocTracepoint
  | kmalloc (bytesAlloc : U64)
  | kmallocNode (bytesAlloc : U64)
  | kmemCacheAlloc (bytesAlloc : U64)
  | kmemCacheAllocNode (bytesAlloc : U64)
  | mmPageAlloc (order : U32)
  | percpuAllocPercpu (bytesAlloc : U64)
  deriving DecidableEq

/-- The program when there is nothing to report: `mm_page_alloc` has the page frame
number `2 ^ 64 - 1` then, the others a null pointer. -/
def AllocTracepoint.failed : AllocTracepoint → Program
  | kmalloc bytesAlloc => .kmalloc 0 bytesAlloc
  | kmallocNode bytesAlloc => .kmallocNode 0 bytesAlloc
  | kmemCacheAlloc bytesAlloc => .kmemCacheAlloc 0 bytesAlloc
  | kmemCacheAllocNode bytesAlloc => .kmemCacheAllocNode 0 bytesAlloc
  | mmPageAlloc order => .mmPageAlloc (-1) order
  | percpuAllocPercpu bytesAlloc => .percpuAllocPercpu 0 bytesAlloc

/-- The size its handler passes on. -/
def AllocTracepoint.size (cfg : Config) : AllocTracepoint → U64
  | mmPageAlloc order => pageBytes cfg order
  | kmalloc bytesAlloc | kmallocNode bytesAlloc | kmemCacheAlloc bytesAlloc
  | kmemCacheAllocNode bytesAlloc | percpuAllocPercpu bytesAlloc => bytesAlloc

/-- A call that fails: an enter and an exit of one process, or a tracepoint. -/
inductive FailedCall
  | libc (call : LibcCall) (enter exit : Env) (same : exit.pid64 = enter.pid64)
  | tracepoint (tp : AllocTracepoint) (env : Env)

namespace FailedCall

/-- The programs that run. -/
def events : FailedCall → List Event
  | libc call enter exit _ => [⟨enter, call.enter⟩, ⟨exit, call.failedExit⟩]
  | tracepoint tp env => [⟨env, tp.failed⟩]

/-- What the helpers answer `gen_alloc_enter`. -/
def enterEnv : FailedCall → Env
  | libc _ enter _ _ => enter
  | tracepoint _ env => env

/-- What the helpers answer `gen_alloc_exit2`. -/
def exitEnv : FailedCall → Env
  | libc _ _ exit _ => exit
  | tracepoint _ env => env

/-- The size given to `gen_alloc_enter`. -/
def size (cfg : Config) : FailedCall → U64
  | libc call _ _ _ => call.size
  | tracepoint tp _ => tp.size cfg

/-- The address `gen_alloc_exit2` is called with, if it is called: `posix_memalign_exit`
needs its entry in `memptrs` and reads what the pointer holds, and the `_node` handlers
may be disabled. -/
def handed (cfg : Config) (m : Maps cap) : FailedCall → Option U64
  | libc (.mmap _ _) _ _ _ => some (-1)
  | libc (.posixMemalign memptr _ _) _ exit _ =>
      if m.memptrs.HasRoom exit.pid64 then exit.probeReadUser memptr else none
  | libc _ _ _ _ => some 0
  | tracepoint (.mmPageAlloc _) _ => some (-1)
  | tracepoint (.kmallocNode _) _ | tracepoint (.kmemCacheAllocNode _) _ =>
      if cfg.hasKmemAllocNode then some 0 else none
  | tracepoint _ _ => some 0

/-- The record `gen_alloc_exit2` makes of the call, where it makes one. -/
def record (cfg : Config) (c : FailedCall) : AllocInfo :=
  ⟨c.size cfg, c.exitEnv.ktimeExit, c.exitEnv.stackId⟩

theorem pid_exitEnv (c : FailedCall) : c.exitEnv.pid = c.enterEnv.pid := by
  cases c with
  | libc call enter exit same => exact congrArg (·.setWidth 32) same
  | tracepoint tp env => rfl

end FailedCall

/-! ### What a failed call does -/

/-- No run records a null address. -/
theorem Reachable.zero_not_mem {cfg : Config} {m : Maps cap} (h : Reachable cfg m) :
    (0 : U64) ∉ m.allocs := by
  obtain ⟨evs, rfl⟩ := h
  refine Run.foldl_invariant (I := fun m : Maps cap => 0 ∉ m.allocs) (P := fun _ _ => True)
    (fun m ev hm _ => ?_) (BoundedMap.not_mem_empty 0)
    (Run.along_iff_forall_mem.mpr fun _ _ => trivial)
  refine not_mem_handle_allocs (fun info hrec => ?_) hm
  obtain ⟨-, hrecord⟩ := recorded_eq_some.mp hrec
  exact (exitRecord_eq_some.mp hrecord).1 rfl

/-- The slab handlers of an allocation that failed: with the workaround they free the
null address first, which is never recorded. -/
theorem slabAlloc_null {cfg : Config} {env : Env} {bytesAlloc : U64} {m : Maps cap}
    (hm : (0 : U64) ∉ m.allocs) : slabAlloc cfg env 0 bytesAlloc m =
      genAllocExit2 env 0 (genAllocEnter cfg env bytesAlloc m) := by
  unfold slabAlloc
  rw [genFreeEnter_of_none (BoundedMap.lookup_eq_none.mpr hm), ite_self]

/-- `posix_memalign` back to back: the exit finds the pointer of its own enter, if there
was room for it. -/
theorem posixMemalign_blocks {cfg : Config} {env env' : Env} (memptr alignment size : U64)
    {m : Maps cap} (same : env'.pid64 = env.pid64) :
    (posixMemalignExit env' (posixMemalignEnter cfg env memptr alignment size m)).blocks =
      match if m.memptrs.HasRoom env'.pid64 then env'.probeReadUser memptr else none with
      | none => m.blocks
      | some a => (genAllocExit2 env' a (genAllocEnter cfg env size m)).blocks := by
  unfold posixMemalignEnter posixMemalignExit
  rw [genAllocEnter_with_memptrs, same]
  by_cases hroom : m.memptrs.HasRoom env.pid64
  · rw [if_pos hroom]
    simp only [BoundedMap.lookup_put hroom, if_true]
    cases env'.probeReadUser memptr with
    | none => exact genAllocEnter_blocks cfg env size m
    | some a =>
        dsimp only
        rw [genAllocExit2_with_memptrs]
        rfl
  · have habsent : m.memptrs.lookup env.pid64 = none :=
      BoundedMap.lookup_eq_none.mpr fun hmem => hroom (.of_mem hmem)
    rw [if_neg hroom]
    simp only [BoundedMap.put_of_not_room hroom, habsent]
    exact genAllocEnter_blocks cfg env size m

/-- Every failed call is an enter, and an exit with the address it is handed. -/
theorem run_events_blocks {cfg : Config} {m : Maps cap} (hm : (0 : U64) ∉ m.allocs)
    (c : FailedCall) : (run cfg m c.events).blocks =
      match c.handed cfg m with
      | none => m.blocks
      | some a =>
          (genAllocExit2 c.exitEnv a (genAllocEnter cfg c.enterEnv (c.size cfg) m)).blocks := by
  cases c with
  | libc call enter exit same =>
      cases call with
      | posixMemalign memptr alignment size => exact posixMemalign_blocks memptr alignment size same
      | _ => rfl
  | tracepoint tp env =>
      have hslab (bytesAlloc : U64) := @slabAlloc_null cap cfg env bytesAlloc m hm
      cases tp with
      | kmalloc bytesAlloc => exact congrArg Maps.blocks (hslab bytesAlloc)
      | kmemCacheAlloc bytesAlloc => exact congrArg Maps.blocks (hslab bytesAlloc)
      | kmallocNode bytesAlloc =>
          show (memleakKmallocNode cfg env 0 bytesAlloc m).blocks = _
          unfold memleakKmallocNode FailedCall.handed
          cases cfg.hasKmemAllocNode with
          | false => rfl
          | true => exact congrArg Maps.blocks (hslab bytesAlloc)
      | kmemCacheAllocNode bytesAlloc =>
          show (memleakKmemCacheAllocNode cfg env 0 bytesAlloc m).blocks = _
          unfold memleakKmemCacheAllocNode FailedCall.handed
          cases cfg.hasKmemAllocNode with
          | false => rfl
          | true => exact congrArg Maps.blocks (hslab bytesAlloc)
      | mmPageAlloc order => rfl
      | percpuAllocPercpu bytesAlloc => rfl

/-- Recording a block leaves no trace if it is not counted, and not stored or there
already. -/
theorem track_blocks_eq_iff {address : U64} {info : AllocInfo} {m : Maps cap} :
    (m.track address info).blocks = m.blocks ↔ ¬ m.combinedAllocs.HasRoom info.stackKey ∧
      (m.allocs.HasRoom address → m.allocs.lookup address = some info) := by
  rw [blocks_eq_iff, and_comm, track_allocs, BoundedMap.put_eq_self_iff]
  refine and_congr_left' ⟨fun heq hroom => track_combinedAllocs_ne hroom heq, fun hroom => ?_⟩
  exact updateStatisticsAdd_of_not_room hroom

/-- **A failed call leaves the blocks alone** exactly if its enter is rejected or finds
no room, or its exit is not handed an address, or a null one, or the block it then
records leaves no trace because the maps are full (or hold that very record). -/
theorem failed_call_keeps_blocks_iff {cfg : Config} {m : Maps cap} (hm : Reachable cfg m)
    (c : FailedCall) (hidle : m.sizes.lookup c.enterEnv.pid = none) :
    (run cfg m c.events).blocks = m.blocks ↔
      (¬ Accepted cfg c.enterEnv (c.size cfg) ∨ ¬ m.sizes.HasRoom c.enterEnv.pid) ∨
        ∀ a ∈ c.handed cfg m, a = 0 ∨ ¬ m.combinedAllocs.HasRoom (c.record cfg).stackKey ∧
          (m.allocs.HasRoom a → m.allocs.lookup a = some (c.record cfg)) := by
  rw [run_events_blocks hm.zero_not_mem, ← not_and_or]
  cases c.handed cfg m with
  | none => simp
  | some a =>
      dsimp only
      rw [genAllocExit2_genAllocEnter_of_idle hidle c.pid_exitEnv]
      by_cases hpending : Accepted cfg c.enterEnv (c.size cfg) ∧ m.sizes.HasRoom c.enterEnv.pid
      · by_cases ha : a = 0
        · rw [if_neg fun h => h.2 ha]
          exact iff_of_true rfl (Or.inr fun b hb => Or.inl (Option.some.inj hb ▸ ha))
        · rw [if_pos ⟨hpending, ha⟩, track_blocks_eq_iff, or_iff_right (not_not.mpr hpending)]
          constructor
          · intro h b hb
            exact Or.inr (Option.some.inj hb ▸ h)
          · exact fun h => (h a rfl).resolve_left ha
      · simp [hpending]

/-- A `malloc` of an absurd size returns null and leaves the maps as they were. -/
theorem failed_malloc_keeps_blocks :
    let m := run {} (Maps.empty : Maps .source) (mallocCall 0x700000007 3 100 0x1000)
    (run {} m [⟨.quiet 0x700000007 3, .mallocEnter 0x4000000000000000⟩,
      ⟨.quiet 0x700000007 3, .mallocExit 0⟩]).blocks = m.blocks := by
  intro m
  let c : FailedCall := .libc (.malloc 0x4000000000000000) (.quiet 0x700000007 3)
    (.quiet 0x700000007 3) rfl
  exact (failed_call_keeps_blocks_iff (m := m) ⟨_, rfl⟩ c (by decide +kernel)).mpr
    (Or.inr fun a ha => Or.inl (Option.some.inj ha).symm)

/-- An `mmap` that fails is recorded as a block of the requested size at `MAP_FAILED`. -/
theorem failed_mmap_recorded :
    let m := run {} (Maps.empty : Maps .source) [⟨.quiet 0x700000007 3, .mmapEnter 0 8192⟩,
      ⟨.quiet 0x700000007 3, .mmapExit (-1)⟩]
    m.allocs.lookup (-1) = some ⟨8192, 0, 3⟩ ∧
      m.combinedAllocs.word 3 = contribution 8192 := by
  decide +kernel

end EbpfMemleak
