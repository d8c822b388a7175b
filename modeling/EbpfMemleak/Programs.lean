import EbpfMemleak.Handlers
import EbpfMemleak.Lib.Run

/-!
# EbpfMemleak.Programs

The BPF programs of `memleak.bpf.c`, one definition per `SEC`, and runs of them.

`Program` is a program together with what its context carries: the arguments of
an uprobe, the return value of an uretprobe, the record of a tracepoint. An
`Event` adds the helper answers of that execution, `handle` runs it as one
atomic step, and `run` runs a list of events.

Every program has the same shape: an optional `gen_free_enter`, an update of
`memptrs`, an optional `gen_alloc_enter`, an optional `gen_alloc_exit2`, in this
order. `Event.calls` reads that shape off and `handle_eq` proves it. Results
about all programs do not split on them: they go through `handle_invariant`, or
through the two ways an event can end (`handle_of_recorded_none`,
`handle_of_recorded`). `lookup_handle_allocs` says the same of one block, and
`handle_of_rejected` what an event does that the filters keep out.
-/

namespace EbpfMemleak

variable {cap : Capacities}

/-! ### Uprobes and uretprobes -/

/-- `malloc_enter`. -/
def mallocEnter (cfg : Config) (env : Env) (size : U64) (m : Maps cap) : Maps cap :=
  genAllocEnter cfg env size m

/-- `malloc_exit`. -/
def mallocExit (env : Env) (rc : U64) (m : Maps cap) : Maps cap := genAllocExit env rc m

/-- `free_enter`. -/
def freeEnter (address : U64) (m : Maps cap) : Maps cap := genFreeEnter address m

/-- `calloc_enter`: the product is a `size_t` and wraps. -/
def callocEnter (cfg : Config) (env : Env) (nmemb size : U64) (m : Maps cap) : Maps cap :=
  genAllocEnter cfg env (nmemb * size) m

/-- `calloc_exit`. -/
def callocExit (env : Env) (rc : U64) (m : Maps cap) : Maps cap := genAllocExit env rc m

/-- `realloc_enter`: the old block is freed before the outcome is known. -/
def reallocEnter (cfg : Config) (env : Env) (ptr size : U64) (m : Maps cap) : Maps cap :=
  genAllocEnter cfg env size (genFreeEnter ptr m)

/-- `realloc_exit`. -/
def reallocExit (env : Env) (rc : U64) (m : Maps cap) : Maps cap := genAllocExit env rc m

/-- `mmap_enter`. -/
def mmapEnter (cfg : Config) (env : Env) (_address size : U64) (m : Maps cap) : Maps cap :=
  genAllocEnter cfg env size m

/-- `mmap_exit`. -/
def mmapExit (env : Env) (rc : U64) (m : Maps cap) : Maps cap := genAllocExit env rc m

/-- `munmap_enter`. -/
def munmapEnter (address : U64) (m : Maps cap) : Maps cap := genFreeEnter address m

/-- `posix_memalign_enter`. -/
def posixMemalignEnter (cfg : Config) (env : Env) (memptr _alignment size : U64)
    (m : Maps cap) : Maps cap :=
  genAllocEnter cfg env size { m with memptrs := m.memptrs.put env.pid64 memptr }

/-- `posix_memalign_exit`: the address is read from user memory, through the
pointer the enter left in `memptrs`. -/
def posixMemalignExit (env : Env) (m : Maps cap) : Maps cap :=
  match m.memptrs.lookup env.pid64 with
  | none => m
  | some memptr64 =>
      let m := { m with memptrs := m.memptrs.erase env.pid64 }
      match env.probeReadUser memptr64 with
      -- the read faulted: the pending size stays
      | none => m
      | some addr64 => genAllocExit2 env addr64 m

/-- `aligned_alloc_enter`. -/
def alignedAllocEnter (cfg : Config) (env : Env) (_alignment size : U64) (m : Maps cap) :
    Maps cap := genAllocEnter cfg env size m

/-- `aligned_alloc_exit`. -/
def alignedAllocExit (env : Env) (rc : U64) (m : Maps cap) : Maps cap := genAllocExit env rc m

/-- `valloc_enter`. -/
def vallocEnter (cfg : Config) (env : Env) (size : U64) (m : Maps cap) : Maps cap :=
  genAllocEnter cfg env size m

/-- `valloc_exit`. -/
def vallocExit (env : Env) (rc : U64) (m : Maps cap) : Maps cap := genAllocExit env rc m

/-- `memalign_enter`. -/
def memalignEnter (cfg : Config) (env : Env) (_alignment size : U64) (m : Maps cap) :
    Maps cap := genAllocEnter cfg env size m

/-- `memalign_exit`. -/
def memalignExit (env : Env) (rc : U64) (m : Maps cap) : Maps cap := genAllocExit env rc m

/-- `pvalloc_enter`. -/
def pvallocEnter (cfg : Config) (env : Env) (size : U64) (m : Maps cap) : Maps cap :=
  genAllocEnter cfg env size m

/-- `pvalloc_exit`. -/
def pvallocExit (env : Env) (rc : U64) (m : Maps cap) : Maps cap := genAllocExit env rc m

/-! ### Tracepoints -/

/-- The body the four slab allocation handlers share. Both branches of their
CO-RE tests read the same two members of the record, `ptr` and `bytes_alloc`. -/
def slabAlloc (cfg : Config) (env : Env) (ptr bytesAlloc : U64) (m : Maps cap) : Maps cap :=
  let m := if cfg.waMissingFree then genFreeEnter ptr m else m
  genAllocExit2 env ptr (genAllocEnter cfg env bytesAlloc m)

/-- `memleak__kmalloc`. -/
def memleakKmalloc (cfg : Config) (env : Env) (ptr bytesAlloc : U64) (m : Maps cap) :
    Maps cap := slabAlloc cfg env ptr bytesAlloc m

/-- `memleak__kmalloc_node`: disabled where the kernel lacks the event type. -/
def memleakKmallocNode (cfg : Config) (env : Env) (ptr bytesAlloc : U64) (m : Maps cap) :
    Maps cap :=
  if cfg.hasKmemAllocNode then slabAlloc cfg env ptr bytesAlloc m else m

/-- `memleak__kfree`. -/
def memleakKfree (ptr : U64) (m : Maps cap) : Maps cap := genFreeEnter ptr m

/-- `memleak__kmem_cache_alloc`. -/
def memleakKmemCacheAlloc (cfg : Config) (env : Env) (ptr bytesAlloc : U64) (m : Maps cap) :
    Maps cap := slabAlloc cfg env ptr bytesAlloc m

/-- `memleak__kmem_cache_alloc_node`: disabled where the kernel lacks the event
type. -/
def memleakKmemCacheAllocNode (cfg : Config) (env : Env) (ptr bytesAlloc : U64)
    (m : Maps cap) : Maps cap :=
  if cfg.hasKmemAllocNode then slabAlloc cfg env ptr bytesAlloc m else m

/-- `memleak__kmem_cache_free`. -/
def memleakKmemCacheFree (ptr : U64) (m : Maps cap) : Maps cap := genFreeEnter ptr m

/-- `page_size << ctx->order`: BPF takes a 64-bit shift modulo 64. -/
def pageBytes (cfg : Config) (order : U32) : U64 := cfg.pageSize <<< (order.toNat % 64)

/-- `memleak__mm_page_alloc`: the page frame number serves as the address. -/
def memleakMmPageAlloc (cfg : Config) (env : Env) (pfn : U64) (order : U32) (m : Maps cap) :
    Maps cap := genAllocExit2 env pfn (genAllocEnter cfg env (pageBytes cfg order) m)

/-- `memleak__mm_page_free`. -/
def memleakMmPageFree (pfn : U64) (m : Maps cap) : Maps cap := genFreeEnter pfn m

/-- `memleak__percpu_alloc_percpu`. -/
def memleakPercpuAllocPercpu (cfg : Config) (env : Env) (ptr bytesAlloc : U64) (m : Maps cap) :
    Maps cap := genAllocExit2 env ptr (genAllocEnter cfg env bytesAlloc m)

/-- `memleak__percpu_free_percpu`. -/
def memleakPercpuFreePercpu (ptr : U64) (m : Maps cap) : Maps cap := genFreeEnter ptr m

/-! ### Events and runs -/

/-- A program with what it reads from its context. -/
inductive Program
  | mallocEnter (size : U64)
  | mallocExit (rc : U64)
  | freeEnter (address : U64)
  | callocEnter (nmemb size : U64)
  | callocExit (rc : U64)
  | reallocEnter (ptr size : U64)
  | reallocExit (rc : U64)
  | mmapEnter (address size : U64)
  | mmapExit (rc : U64)
  | munmapEnter (address : U64)
  | posixMemalignEnter (memptr alignment size : U64)
  | posixMemalignExit
  | alignedAllocEnter (alignment size : U64)
  | alignedAllocExit (rc : U64)
  | vallocEnter (size : U64)
  | vallocExit (rc : U64)
  | memalignEnter (alignment size : U64)
  | memalignExit (rc : U64)
  | pvallocEnter (size : U64)
  | pvallocExit (rc : U64)
  | kmalloc (ptr bytesAlloc : U64)
  | kmallocNode (ptr bytesAlloc : U64)
  | kfree (ptr : U64)
  | kmemCacheAlloc (ptr bytesAlloc : U64)
  | kmemCacheAllocNode (ptr bytesAlloc : U64)
  | kmemCacheFree (ptr : U64)
  | mmPageAlloc (pfn : U64) (order : U32)
  | mmPageFree (pfn : U64)
  | percpuAllocPercpu (ptr bytesAlloc : U64)
  | percpuFreePercpu (ptr : U64)
  deriving Repr, DecidableEq

/-- One execution of a program. -/
structure Event where
  env : Env
  program : Program

/-- One atomic handler execution. -/
def handle (cfg : Config) (m : Maps cap) (ev : Event) : Maps cap :=
  match ev.program with
  | .mallocEnter size => mallocEnter cfg ev.env size m
  | .mallocExit rc => mallocExit ev.env rc m
  | .freeEnter address => freeEnter address m
  | .callocEnter nmemb size => callocEnter cfg ev.env nmemb size m
  | .callocExit rc => callocExit ev.env rc m
  | .reallocEnter ptr size => reallocEnter cfg ev.env ptr size m
  | .reallocExit rc => reallocExit ev.env rc m
  | .mmapEnter address size => mmapEnter cfg ev.env address size m
  | .mmapExit rc => mmapExit ev.env rc m
  | .munmapEnter address => munmapEnter address m
  | .posixMemalignEnter memptr alignment size =>
      posixMemalignEnter cfg ev.env memptr alignment size m
  | .posixMemalignExit => posixMemalignExit ev.env m
  | .alignedAllocEnter alignment size => alignedAllocEnter cfg ev.env alignment size m
  | .alignedAllocExit rc => alignedAllocExit ev.env rc m
  | .vallocEnter size => vallocEnter cfg ev.env size m
  | .vallocExit rc => vallocExit ev.env rc m
  | .memalignEnter alignment size => memalignEnter cfg ev.env alignment size m
  | .memalignExit rc => memalignExit ev.env rc m
  | .pvallocEnter size => pvallocEnter cfg ev.env size m
  | .pvallocExit rc => pvallocExit ev.env rc m
  | .kmalloc ptr bytesAlloc => memleakKmalloc cfg ev.env ptr bytesAlloc m
  | .kmallocNode ptr bytesAlloc => memleakKmallocNode cfg ev.env ptr bytesAlloc m
  | .kfree ptr => memleakKfree ptr m
  | .kmemCacheAlloc ptr bytesAlloc => memleakKmemCacheAlloc cfg ev.env ptr bytesAlloc m
  | .kmemCacheAllocNode ptr bytesAlloc => memleakKmemCacheAllocNode cfg ev.env ptr bytesAlloc m
  | .kmemCacheFree ptr => memleakKmemCacheFree ptr m
  | .mmPageAlloc pfn order => memleakMmPageAlloc cfg ev.env pfn order m
  | .mmPageFree pfn => memleakMmPageFree pfn m
  | .percpuAllocPercpu ptr bytesAlloc => memleakPercpuAllocPercpu cfg ev.env ptr bytesAlloc m
  | .percpuFreePercpu ptr => memleakPercpuFreePercpu ptr m

/-- The maps after a list of events. -/
def run (cfg : Config) (m : Maps cap) (evs : List Event) : Maps cap := evs.foldl (handle cfg) m

/-- A `malloc` call of one thread that returns before any other event. -/
def mallocCall (pidTgid stackid size rc : U64) : List Event :=
  [⟨.quiet pidTgid stackid, .mallocEnter size⟩, ⟨.quiet pidTgid stackid, .mallocExit rc⟩]

/-- The maps some run of the programs reaches from the empty ones. -/
def Reachable (cfg : Config) (m : Maps cap) : Prop := ∃ evs, run cfg Maps.empty evs = m

@[simp] theorem run_nil (cfg : Config) (m : Maps cap) : run cfg m [] = m := rfl

@[simp] theorem run_cons (cfg : Config) (m : Maps cap) (ev : Event) (evs : List Event) :
    run cfg m (ev :: evs) = run cfg (handle cfg m ev) evs := rfl

theorem run_append (cfg : Config) (m : Maps cap) (evs evs' : List Event) :
    run cfg m (evs ++ evs') = run cfg (run cfg m evs) evs' := List.foldl_append ..

theorem Reachable.run {cfg : Config} {m : Maps cap} (h : Reachable cfg m) (evs : List Event) :
    Reachable cfg (run cfg m evs) := by
  obtain ⟨evs₀, rfl⟩ := h
  exact ⟨evs₀ ++ evs, run_append ..⟩

/-! ### The common shape -/

/-- The generic routines one execution calls, each at most once and in this
order, with their arguments. -/
structure Calls where
  /-- The argument of `gen_free_enter`. -/
  free : Option U64 := none
  /-- The argument of `gen_alloc_enter`. -/
  enter : Option U64 := none
  /-- The address given to `gen_alloc_exit2`. -/
  exit : Option U64 := none

/-- The calls of a slab allocation handler. -/
def slabCalls (cfg : Config) (ptr bytesAlloc : U64) : Calls where
  free := if cfg.waMissingFree then some ptr else none
  enter := some bytesAlloc
  exit := some ptr

/-- The routines an event calls. Only `posix_memalign_exit` looks at the maps to
decide. -/
def Event.calls (cfg : Config) (m : Maps cap) (ev : Event) : Calls :=
  match ev.program with
  | .mallocEnter size | .mmapEnter _ size | .posixMemalignEnter _ _ size
  | .alignedAllocEnter _ size | .vallocEnter size | .memalignEnter _ size
  | .pvallocEnter size => { enter := some size }
  | .callocEnter nmemb size => { enter := some (nmemb * size) }
  | .reallocEnter ptr size => { free := some ptr, enter := some size }
  | .mallocExit rc | .callocExit rc | .reallocExit rc | .mmapExit rc | .alignedAllocExit rc
  | .vallocExit rc | .memalignExit rc | .pvallocExit rc => { exit := some rc }
  | .posixMemalignExit =>
      { exit := (m.memptrs.lookup ev.env.pid64).bind ev.env.probeReadUser }
  | .freeEnter a | .munmapEnter a | .kfree a | .kmemCacheFree a | .mmPageFree a
  | .percpuFreePercpu a => { free := some a }
  | .kmalloc ptr bytesAlloc | .kmemCacheAlloc ptr bytesAlloc => slabCalls cfg ptr bytesAlloc
  | .kmallocNode ptr bytesAlloc | .kmemCacheAllocNode ptr bytesAlloc =>
      if cfg.hasKmemAllocNode then slabCalls cfg ptr bytesAlloc else {}
  | .mmPageAlloc pfn order => { enter := some (pageBytes cfg order), exit := some pfn }
  | .percpuAllocPercpu ptr bytesAlloc => { enter := some bytesAlloc, exit := some ptr }

/-- What an event does to `memptrs`. -/
def Event.memptrsAfter (m : Maps cap) (ev : Event) : BoundedMap cap.memptrs U64 U64 :=
  match ev.program with
  | .posixMemalignEnter memptr _ _ => m.memptrs.put ev.env.pid64 memptr
  | .posixMemalignExit => m.memptrs.erase ev.env.pid64
  | _ => m.memptrs

/-- The `gen_free_enter` call of an event, if it makes one. -/
def freePhase (c : Calls) (m : Maps cap) : Maps cap :=
  match c.free with
  | none => m
  | some address => genFreeEnter address m

/-- The `gen_alloc_enter` call of an event, if it makes one. -/
def enterPhase (cfg : Config) (env : Env) (c : Calls) (m : Maps cap) : Maps cap :=
  match c.enter with
  | none => m
  | some size => genAllocEnter cfg env size m

/-- The `gen_alloc_exit2` call of an event, if it makes one. -/
def exitPhase (env : Env) (c : Calls) (m : Maps cap) : Maps cap :=
  match c.exit with
  | none => m
  | some address => genAllocExit2 env address m

/-- The maps an event hands to `gen_alloc_exit2`. -/
def beforeExit (cfg : Config) (m : Maps cap) (ev : Event) : Maps cap :=
  enterPhase cfg ev.env (ev.calls cfg m)
    (freePhase (ev.calls cfg m) { m with memptrs := ev.memptrsAfter m })

/-- **Every handler is a free, an enter and an exit**, each optional. -/
theorem handle_eq (cfg : Config) (m : Maps cap) (ev : Event) :
    handle cfg m ev = exitPhase ev.env (ev.calls cfg m) (beforeExit cfg m ev) := by
  obtain ⟨env, program⟩ := ev
  cases program with
  | posixMemalignExit =>
      simp only [handle, posixMemalignExit, beforeExit, Event.calls, Event.memptrsAfter,
        exitPhase, enterPhase, freePhase]
      cases hp : m.memptrs.lookup env.pid64 with
      | none => rw [BoundedMap.erase_of_not_mem (BoundedMap.lookup_eq_none.mp hp)]; rfl
      | some memptr64 => simp only [Option.bind_some]
  | kmalloc ptr bytesAlloc =>
      cases hwa : cfg.waMissingFree <;>
        simp [handle, memleakKmalloc, slabAlloc, beforeExit, Event.calls, Event.memptrsAfter,
          exitPhase, enterPhase, freePhase, slabCalls, hwa]
  | kmemCacheAlloc ptr bytesAlloc =>
      cases hwa : cfg.waMissingFree <;>
        simp [handle, memleakKmemCacheAlloc, slabAlloc, beforeExit, Event.calls,
          Event.memptrsAfter, exitPhase, enterPhase, freePhase, slabCalls, hwa]
  | kmallocNode ptr bytesAlloc =>
      cases hnode : cfg.hasKmemAllocNode <;> cases hwa : cfg.waMissingFree <;>
        simp [handle, memleakKmallocNode, slabAlloc, beforeExit, Event.calls,
          Event.memptrsAfter, exitPhase, enterPhase, freePhase, slabCalls, hwa, hnode]
  | kmemCacheAllocNode ptr bytesAlloc =>
      cases hnode : cfg.hasKmemAllocNode <;> cases hwa : cfg.waMissingFree <;>
        simp [handle, memleakKmemCacheAllocNode, slabAlloc, beforeExit, Event.calls,
          Event.memptrsAfter, exitPhase, enterPhase, freePhase, slabCalls, hwa, hnode]
  | _ => rfl

/-- The address and record an event stores, if it stores one. -/
def recorded (cfg : Config) (m : Maps cap) (ev : Event) : Option (U64 × AllocInfo) :=
  match (ev.calls cfg m).exit with
  | none => none
  | some address =>
      (exitRecord ev.env address (beforeExit cfg m ev)).map fun info => (address, info)

theorem recorded_eq_some {cfg : Config} {m : Maps cap} {ev : Event} {address : U64}
    {info : AllocInfo} :
    recorded cfg m ev = some (address, info) ↔
      (ev.calls cfg m).exit = some address ∧
        exitRecord ev.env address (beforeExit cfg m ev) = some info := by
  unfold recorded
  cases hexit : (ev.calls cfg m).exit with
  | none => simp
  | some a =>
      constructor
      · intro h
        obtain ⟨info', hinfo, heq⟩ := Option.map_eq_some_iff.mp h
        obtain ⟨rfl, rfl⟩ := Prod.mk.injEq .. ▸ heq
        exact ⟨rfl, hinfo⟩
      · rintro ⟨ha, hinfo⟩
        obtain rfl := Option.some.inj ha
        dsimp only
        rw [hinfo, Option.map_some]

/-- An event that records nothing leaves the maps as before its exit, but for the
pending size. -/
theorem handle_of_recorded_none {cfg : Config} {m : Maps cap} {ev : Event}
    (h : recorded cfg m ev = none) :
    ∃ s, handle cfg m ev = { beforeExit cfg m ev with sizes := s } := by
  rw [handle_eq, exitPhase]
  unfold recorded at h
  cases hexit : (ev.calls cfg m).exit with
  | none => exact ⟨(beforeExit cfg m ev).sizes, rfl⟩
  | some address =>
      rw [hexit] at h
      exact ⟨_, genAllocExit2_of_none (Option.map_eq_none_iff.mp h)⟩

/-- An event that records a block tracks it, and drops the pending size. -/
theorem handle_of_recorded {cfg : Config} {m : Maps cap} {ev : Event} {address : U64}
    {info : AllocInfo} (h : recorded cfg m ev = some (address, info)) :
    ∃ s, handle cfg m ev =
      ({ beforeExit cfg m ev with sizes := s } : Maps cap).track address info := by
  obtain ⟨hexit, hrec⟩ := recorded_eq_some.mp h
  rw [handle_eq, exitPhase, hexit]
  exact ⟨_, genAllocExit2_of_some hrec⟩

theorem freePhase_allocs (c : Calls) (m : Maps cap) :
    (freePhase c m).allocs = c.free.elim m.allocs m.allocs.erase := by
  unfold freePhase
  cases c.free with
  | none => rfl
  | some address => exact genFreeEnter_allocs address m

@[simp] theorem enterPhase_allocs (cfg : Config) (env : Env) (c : Calls) (m : Maps cap) :
    (enterPhase cfg env c m).allocs = m.allocs := by
  unfold enterPhase
  cases c.enter with
  | none => rfl
  | some size => exact genAllocEnter_allocs cfg env size m

@[simp] theorem enterPhase_combinedAllocs (cfg : Config) (env : Env) (c : Calls)
    (m : Maps cap) : (enterPhase cfg env c m).combinedAllocs = m.combinedAllocs := by
  unfold enterPhase
  cases c.enter with
  | none => rfl
  | some size => exact genAllocEnter_combinedAllocs cfg env size m

/-- Up to its exit an event at most erases the address it frees. -/
theorem beforeExit_allocs (cfg : Config) (m : Maps cap) (ev : Event) :
    (beforeExit cfg m ev).allocs = (ev.calls cfg m).free.elim m.allocs m.allocs.erase := by
  rw [beforeExit, enterPhase_allocs, freePhase_allocs]

/-- Up to its exit an event takes no slot of `allocs`. -/
theorem size_beforeExit_allocs_le (cfg : Config) (m : Maps cap) (ev : Event) :
    (beforeExit cfg m ev).allocs.size ≤ m.allocs.size := by
  rw [beforeExit_allocs]
  cases (ev.calls cfg m).free with
  | none => exact le_rfl
  | some address => exact BoundedMap.size_erase_le address m.allocs

/-- Up to its exit an event creates and removes no entry of `combined_allocs`. -/
theorem mem_beforeExit_combinedAllocs {cfg : Config} {m : Maps cap} {ev : Event} {k : U64} :
    k ∈ (beforeExit cfg m ev).combinedAllocs ↔ k ∈ m.combinedAllocs := by
  rw [beforeExit, enterPhase_combinedAllocs, freePhase]
  cases (ev.calls cfg m).free with
  | none => rfl
  | some address => exact mem_genFreeEnter_combinedAllocs

theorem freePhase_invariant {P : Maps cap → Prop}
    (huntrack : ∀ (m : Maps cap) address info, P m → m.allocs.lookup address = some info →
      P (m.untrack address info)) (c : Calls) {m : Maps cap} (h : P m) : P (freePhase c m) := by
  unfold freePhase
  cases c.free with
  | none => exact h
  | some address =>
      dsimp only
      cases hl : m.allocs.lookup address with
      | none => rwa [genFreeEnter_of_none hl]
      | some info =>
          rw [genFreeEnter_of_some hl]
          exact huntrack m address info h hl

theorem enterPhase_invariant {P : Maps cap → Prop}
    (hsizes : ∀ (m : Maps cap) s, P m → P { m with sizes := s })
    (cfg : Config) (env : Env) (c : Calls) {m : Maps cap} (h : P m) :
    P (enterPhase cfg env c m) := by
  unfold enterPhase
  cases c.enter with
  | none => exact h
  | some size =>
      dsimp only
      rw [genAllocEnter_eq]
      split
      case isTrue => exact hsizes m _ h
      case isFalse => exact h

/-- **The step rule.** A property of the maps that does not depend on `sizes` and
`memptrs` is kept by an event if untracking a record keeps it and tracking the
event's own record does. -/
theorem handle_invariant {cfg : Config} {P : Maps cap → Prop}
    (hframe : ∀ (m : Maps cap) s p, P m → P { m with sizes := s, memptrs := p })
    (huntrack : ∀ (m : Maps cap) address info, P m → m.allocs.lookup address = some info →
      P (m.untrack address info))
    {m : Maps cap} {ev : Event}
    (htrack : ∀ address info, recorded cfg m ev = some (address, info) →
      P (beforeExit cfg m ev) → P ((beforeExit cfg m ev).track address info))
    (h : P m) : P (handle cfg m ev) := by
  have hbefore : P (beforeExit cfg m ev) :=
    enterPhase_invariant (fun m s => hframe m s m.memptrs) cfg ev.env _
      (freePhase_invariant huntrack _ (hframe m m.sizes _ h))
  cases hrec : recorded cfg m ev with
  | none =>
      obtain ⟨s, hhandle⟩ := handle_of_recorded_none hrec
      rw [hhandle]
      exact hframe _ s (beforeExit cfg m ev).memptrs hbefore
  | some r =>
      obtain ⟨address, info⟩ := r
      obtain ⟨s, hhandle⟩ := handle_of_recorded hrec
      rw [hhandle]
      exact hframe _ s (beforeExit cfg m ev).memptrs (htrack address info hrec hbefore)

/-! ### What a block after an event is -/

/-- A block an event hands to its exit was there before. -/
theorem lookup_of_beforeExit {cfg : Config} {m : Maps cap} {ev : Event} {address : U64}
    {info : AllocInfo} (h : (beforeExit cfg m ev).allocs.lookup address = some info) :
    m.allocs.lookup address = some info := by
  rw [beforeExit_allocs] at h
  cases hfree : (ev.calls cfg m).free with
  | none => simpa [hfree] using h
  | some a =>
      rw [hfree, Option.elim_some, BoundedMap.lookup_erase] at h
      split at h
      case isTrue => cases h
      case isFalse => exact h

/-- **A block after an event** is the one the event has stored, or one from before its
exit, at an address the event has not recorded. -/
theorem lookup_handle_allocs {cfg : Config} {m : Maps cap} {ev : Event} {a : U64}
    {info : AllocInfo} (h : (handle cfg m ev).allocs.lookup a = some info) :
    (recorded cfg m ev = some (a, info) ∧ (beforeExit cfg m ev).allocs.HasRoom a) ∨
      ((beforeExit cfg m ev).allocs.lookup a = some info ∧
        ∀ r ∈ recorded cfg m ev, a ≠ r.1) := by
  cases hrec : recorded cfg m ev with
  | none =>
      obtain ⟨s, hhandle⟩ := handle_of_recorded_none hrec
      rw [hhandle] at h
      exact Or.inr ⟨h, by simp⟩
  | some r =>
      obtain ⟨address, new⟩ := r
      obtain ⟨s, hhandle⟩ := handle_of_recorded hrec
      rw [hhandle, track_allocs] at h
      by_cases hroom : (beforeExit cfg m ev).allocs.HasRoom address
      · rw [BoundedMap.lookup_put hroom] at h
        by_cases ha : a = address
        · rw [if_pos ha] at h
          exact Or.inl ⟨by rw [ha, Option.some.inj h], ha ▸ hroom⟩
        · rw [if_neg ha] at h
          exact Or.inr ⟨h, fun r hr => Option.some.inj hr ▸ ha⟩
      · -- a full map refuses new addresses only
        rw [BoundedMap.put_of_not_room hroom] at h
        have ha : a ≠ address := fun heq => hroom (.of_mem (heq ▸ BoundedMap.mem_of_lookup h))
        exact Or.inr ⟨h, fun r hr => Option.some.inj hr ▸ ha⟩

/-- An event leaves an address absent that it does not record. -/
theorem not_mem_handle_allocs {cfg : Config} {m : Maps cap} {ev : Event} {address : U64}
    (h : ∀ info, recorded cfg m ev ≠ some (address, info)) (habsent : address ∉ m.allocs) :
    address ∉ (handle cfg m ev).allocs := by
  intro hmem
  obtain ⟨info, hinfo⟩ := BoundedMap.mem_iff.mp hmem
  rcases lookup_handle_allocs hinfo with ⟨hrec, -⟩ | ⟨hold, -⟩
  · exact h info hrec
  · exact habsent (BoundedMap.mem_of_lookup (lookup_of_beforeExit hold))

/-! ### `sizes` and `memptrs` -/

@[simp] theorem freePhase_sizes (c : Calls) (m : Maps cap) : (freePhase c m).sizes = m.sizes := by
  unfold freePhase
  cases c.free <;> simp

@[simp] theorem freePhase_memptrs (c : Calls) (m : Maps cap) :
    (freePhase c m).memptrs = m.memptrs := by
  unfold freePhase
  cases c.free <;> simp

@[simp] theorem enterPhase_memptrs (cfg : Config) (env : Env) (c : Calls) (m : Maps cap) :
    (enterPhase cfg env c m).memptrs = m.memptrs := by
  unfold enterPhase
  cases c.enter <;> simp

@[simp] theorem exitPhase_memptrs (env : Env) (c : Calls) (m : Maps cap) :
    (exitPhase env c m).memptrs = m.memptrs := by
  unfold exitPhase
  cases c.exit <;> simp

theorem exitPhase_sizes (env : Env) (c : Calls) (m : Maps cap) :
    (exitPhase env c m).sizes = c.exit.elim m.sizes fun _ => m.sizes.erase env.pid := by
  unfold exitPhase
  cases c.exit <;> simp

theorem beforeExit_sizes (cfg : Config) (m : Maps cap) (ev : Event) :
    (beforeExit cfg m ev).sizes = (ev.calls cfg m).enter.elim m.sizes fun size =>
      if Accepted cfg ev.env size then m.sizes.put ev.env.pid size else m.sizes := by
  unfold beforeExit enterPhase
  cases (ev.calls cfg m).enter with
  | none => simp
  | some size => simp [genAllocEnter_sizes]

theorem handle_memptrs (cfg : Config) (m : Maps cap) (ev : Event) :
    (handle cfg m ev).memptrs = ev.memptrsAfter m := by
  simp [handle_eq, beforeExit]

/-- An event touches only the pending size of its own process. -/
theorem lookup_sizes_handle_of_ne (cfg : Config) (m : Maps cap) {ev : Event} {pid : Pid}
    (h : pid ≠ ev.env.pid) : (handle cfg m ev).sizes.lookup pid = m.sizes.lookup pid := by
  have hbefore : (beforeExit cfg m ev).sizes.lookup pid = m.sizes.lookup pid := by
    rw [beforeExit_sizes]
    cases (ev.calls cfg m).enter with
    | none => rfl
    | some size =>
        rw [Option.elim_some]
        split
        case isTrue => exact BoundedMap.lookup_put_of_ne h size m.sizes
        case isFalse => rfl
  rw [handle_eq, exitPhase_sizes]
  cases (ev.calls cfg m).exit with
  | none => exact hbefore
  | some address => rw [Option.elim_some, BoundedMap.lookup_erase, if_neg h, hbefore]

/-- No enter of the event passes the filters. -/
def Event.Rejected (cfg : Config) (m : Maps cap) (ev : Event) : Prop :=
  ∀ size ∈ (ev.calls cfg m).enter, ¬ Accepted cfg ev.env size

theorem beforeExit_sizes_of_rejected {cfg : Config} {m : Maps cap} {ev : Event}
    (h : ev.Rejected cfg m) : (beforeExit cfg m ev).sizes = m.sizes := by
  rw [beforeExit_sizes]
  cases henter : (ev.calls cfg m).enter with
  | none => rfl
  | some size => rw [Option.elim_some, if_neg (h size henter)]

/-- A rejected event of a process with nothing pending records nothing, and leaves
nothing pending. -/
theorem handle_of_rejected {cfg : Config} {m : Maps cap} {ev : Event} (h : ev.Rejected cfg m)
    (hidle : m.sizes.lookup ev.env.pid = none) :
    recorded cfg m ev = none ∧ (handle cfg m ev).sizes.lookup ev.env.pid = none := by
  have hbefore := beforeExit_sizes_of_rejected h
  constructor
  · unfold recorded
    cases (ev.calls cfg m).exit with
    | none => rfl
    | some address =>
        have hnone : exitRecord ev.env address (beforeExit cfg m ev) = none :=
          exitRecord_eq_none.mpr (Or.inr (hbefore ▸ hidle))
        simp [hnone]
  · rw [handle_eq, exitPhase_sizes, hbefore]
    cases (ev.calls cfg m).exit with
    | none => exact hidle
    | some address => rw [Option.elim_some, BoundedMap.lookup_erase, if_pos rfl]

theorem freePhase_with_memptrs (c : Calls) (m : Maps cap) (q : BoundedMap cap.memptrs U64 U64) :
    freePhase c { m with memptrs := q } = { freePhase c m with memptrs := q } := by
  unfold freePhase
  cases c.free with
  | none => rfl
  | some address => exact genFreeEnter_with_memptrs address m q

theorem enterPhase_with_memptrs (cfg : Config) (env : Env) (c : Calls) (m : Maps cap)
    (q : BoundedMap cap.memptrs U64 U64) :
    enterPhase cfg env c { m with memptrs := q } =
      { enterPhase cfg env c m with memptrs := q } := by
  unfold enterPhase
  cases c.enter with
  | none => rfl
  | some size => exact genAllocEnter_with_memptrs cfg env size m q

theorem exitPhase_with_memptrs (env : Env) (c : Calls) (m : Maps cap)
    (q : BoundedMap cap.memptrs U64 U64) :
    exitPhase env c { m with memptrs := q } = { exitPhase env c m with memptrs := q } := by
  unfold exitPhase
  cases c.exit with
  | none => rfl
  | some address => exact genAllocExit2_with_memptrs env address m q

/-- An event that records nothing has done to the blocks what its free does. -/
theorem handle_blocks_of_recorded_none {cfg : Config} {m : Maps cap} {ev : Event}
    (h : recorded cfg m ev = none) :
    (handle cfg m ev).blocks = (freePhase (ev.calls cfg m) m).blocks := by
  obtain ⟨s, hhandle⟩ := handle_of_recorded_none h
  rw [hhandle]
  rw [beforeExit, freePhase_with_memptrs, enterPhase_with_memptrs]
  exact blocks_eq_iff.mpr ⟨enterPhase_allocs .., enterPhase_combinedAllocs ..⟩

/-- The programs look at `memptrs` only for the entry of their process: with another map
that agrees there, an event does the same. -/
theorem handle_with_memptrs {cfg : Config} {m : Maps cap} {ev : Event}
    {q : BoundedMap cap.memptrs U64 U64}
    (h : q.lookup ev.env.pid64 = m.memptrs.lookup ev.env.pid64) :
    handle cfg { m with memptrs := q } ev =
      { handle cfg m ev with memptrs := ev.memptrsAfter { m with memptrs := q } } := by
  have hcalls : ev.calls cfg { m with memptrs := q } = ev.calls cfg m := by
    unfold Event.calls
    rw [h]
  have hphases (q' : BoundedMap cap.memptrs U64 U64) :
      exitPhase ev.env (ev.calls cfg m)
          (enterPhase cfg ev.env (ev.calls cfg m) (freePhase (ev.calls cfg m)
            { m with memptrs := q' })) =
        { exitPhase ev.env (ev.calls cfg m) (enterPhase cfg ev.env (ev.calls cfg m)
            (freePhase (ev.calls cfg m) m)) with memptrs := q' } := by
    rw [freePhase_with_memptrs, enterPhase_with_memptrs, exitPhase_with_memptrs]
  rw [handle_eq, handle_eq, beforeExit, beforeExit, hcalls, hphases, hphases (ev.memptrsAfter m)]

end EbpfMemleak
