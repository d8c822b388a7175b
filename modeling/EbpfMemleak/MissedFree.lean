import EbpfMemleak.Accounting

/-!
# EbpfMemleak.MissedFree

**An address that comes back without a free.** A free the programs did not see
leaves its record in `allocs`. When the address is handed out again, the
`BPF_ANY` update of `gen_alloc_exit2` replaces the record, and what the old one
had added to `combined_allocs` stays (`words_after_address_reuse`).

The source knows this: `wa_missing_free` makes the slab handlers free the address
before they record it. The second half of the module shows that this restores
the statistics. Over any run of slab events, frees lost or not, the last event
that names an address decides whether it is tracked, and every word is the packed
sum of the records.
-/

namespace EbpfMemleak

variable {cap : Capacities}

/-! ### Without the workaround -/

/-- Without the workaround an event that exits frees nothing first. -/
theorem calls_free_eq_none {cfg : Config} {m : Maps cap} {ev : Event} {address : U64}
    (hwa : cfg.waMissingFree = false) (hexit : (ev.calls cfg m).exit = some address) :
    (ev.calls cfg m).free = none := by
  obtain ⟨env, program⟩ := ev
  have hslab (ptr bytesAlloc : U64) : (slabCalls cfg ptr bytesAlloc).free = none := by
    simp [slabCalls, hwa]
  cases program with
  | kmalloc ptr bytesAlloc => exact hslab ptr bytesAlloc
  | kmemCacheAlloc ptr bytesAlloc => exact hslab ptr bytesAlloc
  | kmallocNode ptr bytesAlloc =>
      cases hnode : cfg.hasKmemAllocNode <;> simp [Event.calls, hnode, hslab]
  | kmemCacheAllocNode ptr bytesAlloc =>
      cases hnode : cfg.hasKmemAllocNode <;> simp [Event.calls, hnode, hslab]
  | reallocEnter | freeEnter | munmapEnter | kfree | kmemCacheFree | mmPageFree
  | percpuFreePercpu => cases hexit
  | _ => rfl

/-- An event that frees nothing hands `allocs` and `combined_allocs` to its exit as
it found them. -/
theorem beforeExit_of_free_none {cfg : Config} {m : Maps cap} {ev : Event}
    (h : (ev.calls cfg m).free = none) :
    (beforeExit cfg m ev).allocs = m.allocs ∧
      (beforeExit cfg m ev).combinedAllocs = m.combinedAllocs := by
  constructor
  · rw [beforeExit_allocs, h]
    rfl
  · rw [beforeExit, enterPhase_combinedAllocs, freePhase, h]

/-- **Address reuse without the workaround.** From a state with exact words and no
full map, an exit that records an address `allocs` still holds replaces the
record, adds the contribution of the new one, and leaves the contribution of the
old one where it is: every word is now the packed sum of the records plus the
weight of the replaced record. -/
theorem words_after_address_reuse {cfg : Config} {m : Maps cap} {ev : Event} {address : U64}
    {old new : AllocInfo} (hfull : m.NotFull) (hwa : cfg.waMissingFree = false)
    (hexact : ∀ k, m.combinedAllocs.word k = packedSum (m.records k))
    (hrec : recorded cfg m ev = some (address, new))
    (hold : m.allocs.lookup address = some old) :
    let m' := handle cfg m ev
    m'.allocs.lookup address = some new ∧
      ∀ k, m'.combinedAllocs.word k = m.combinedAllocs.word k + new.weight k ∧
        m'.combinedAllocs.word k = packedSum (m'.records k) + old.weight k := by
  intro m'
  obtain ⟨hexit, -⟩ := recorded_eq_some.mp hrec
  obtain ⟨hallocs, hcomb⟩ := beforeExit_of_free_none (calls_free_eq_none hwa hexit)
  obtain ⟨s, hhandle⟩ := handle_of_recorded hrec
  have hm : m' = ({ beforeExit cfg m ev with sizes := s } : Maps cap).track address new :=
    hhandle
  have hroom : (beforeExit cfg m ev).allocs.HasRoom address := hfull.allocsRoom ev _ hrec
  have hcombRoom : (beforeExit cfg m ev).combinedAllocs.HasRoom new.stackKey :=
    hfull.combinedRoom ev _
  refine ⟨?_, fun k => ⟨?_, ?_⟩⟩
  · rw [hm, track_allocs, BoundedMap.lookup_put hroom, if_pos rfl]
  · rw [hm, word_track, if_pos hcombRoom]
    exact congrArg (fun c : CombinedAllocs _ => c.word k + new.weight k) hcomb
  · -- the drift was zero, and becomes the weight of the overwritten record
    have hdrift : m'.drift k = m.drift k + old.weight k := by
      have hbefore := drift_track_of_room (m := { beforeExit cfg m ev with sizes := s })
        hroom hcombRoom k
      rw [← hm] at hbefore
      rw [hbefore, Maps.drift, Maps.drift, Maps.weightAt, Maps.records, Maps.records]
      dsimp only
      rw [hallocs, hcomb, hold]
      rfl
    rw [drift_eq_zero.mpr (hexact k), zero_add] at hdrift
    rw [← hdrift, Maps.drift, add_sub_cancel]

/-- A block of 100 bytes is freed unseen and its address handed out again, for 200
bytes and from another stack. -/
theorem words_after_address_reuse_once :
    let m := run {} (Maps.empty : Maps .source) (mallocCall 0x700000007 3 100 0x1000 ++
      [⟨.quiet 0x700000007 5, .mallocEnter 200⟩])
    let m' := handle {} m ⟨.quiet 0x700000007 5, .mallocExit 0x1000⟩
    m'.combinedAllocs.word 3 = packedSum (m'.records 3) + contribution 100 := by
  intro m m'
  have hexact : Exact m := exact_run (by decide +kernel) (by decide +kernel)
  have hreuse := @words_after_address_reuse .source {} m
    ⟨.quiet 0x700000007 5, .mallocExit 0x1000⟩ 0x1000 ⟨100, 0, 3⟩ ⟨200, 0, 5⟩
    (by decide +kernel) rfl (fun k => drift_eq_zero.mp (hexact.drift k)) (by decide +kernel)
    (by decide +kernel)
  exact (hreuse.2 3).2

/-- The word of the first stack keeps the contribution of a record that is gone. -/
theorem address_reuse_leaves_contribution :
    let m := run {} (Maps.empty : Maps .source) (mallocCall 0x700000007 3 100 0x1000 ++
      [⟨.quiet 0x700000007 5, .mallocEnter 200⟩])
    let ev : Event := ⟨.quiet 0x700000007 5, .mallocExit 0x1000⟩
    Reachable {} m ∧ m.NotFull ∧ (∀ k, m.combinedAllocs.word k = packedSum (m.records k)) ∧
      m.allocs.lookup 0x1000 = some ⟨100, 0, 3⟩ ∧
      recorded {} m ev = some (0x1000, ⟨200, 0, 5⟩) ∧
      (handle {} m ev).records 3 = 0 ∧
      (handle {} m ev).combinedAllocs.word 3 = contribution 100 ∧
      (handle {} m ev).combinedAllocs.word 3 ≠ packedSum ((handle {} m ev).records 3) := by
  intro m ev
  have hexact : Exact m := exact_run (by decide +kernel) (by decide +kernel)
  refine ⟨⟨_, rfl⟩, by decide +kernel, fun k => drift_eq_zero.mp (hexact.drift k),
    by decide +kernel, by decide +kernel, by decide +kernel, by decide +kernel,
    by decide +kernel⟩

/-! ### Slab events -/

/-- The pointer a slab event names and, for an allocation, the bytes it reports. -/
def Program.slabOp : Program → Option (U64 × Option U64)
  | .kmalloc ptr bytesAlloc | .kmallocNode ptr bytesAlloc | .kmemCacheAlloc ptr bytesAlloc
  | .kmemCacheAllocNode ptr bytesAlloc => some (ptr, some bytesAlloc)
  | .kfree ptr | .kmemCacheFree ptr => some (ptr, none)
  | _ => none

/-- The event names `address`. -/
def Event.Names (address : U64) (ev : Event) : Prop :=
  (ev.program.slabOp.any fun op => op.1 = address) = true

instance (address : U64) (ev : Event) : Decidable (ev.Names address) :=
  inferInstanceAs (Decidable (_ = true))

/-- The size and stack id of the allocation an event reports, if the filters accept
it. -/
def Event.allocation (cfg : Config) (ev : Event) : Option (U64 × I32) :=
  match ev.program.slabOp with
  | some (_, some bytesAlloc) =>
      if Accepted cfg ev.env bytesAlloc then some (bytesAlloc, ev.env.stackId) else none
  | _ => none

/-- What the last event naming `address` leaves there: its allocation, if it is one
and the filters accept it. -/
def lastAllocation (cfg : Config) (address : U64) (evs : List Event) : Option (U64 × I32) :=
  ((evs.filter fun ev => ev.Names address).getLast?.map (Event.allocation cfg)).getD none

/-- Size and stack id of the record at an address. -/
def Maps.sizeAndStack (m : Maps cap) (address : U64) : Option (U64 × I32) :=
  (m.allocs.lookup address).map fun info => (info.size, info.stackId)

/-! ### With the workaround -/

/-- A slab allocation under the workaround frees its pointer and, if the filters
accept it, tracks it anew. -/
theorem handle_slab_alloc {cfg : Config} (hwa : cfg.waMissingFree = true)
    (hnode : cfg.hasKmemAllocNode = true) {m : Maps cap} {ev : Event} {ptr bytesAlloc : U64}
    (hop : ev.program.slabOp = some (ptr, some bytesAlloc)) (hsizes : m.sizes = .empty)
    (hcap : 0 < cap.sizes) :
    handle cfg m ev =
      if Accepted cfg ev.env bytesAlloc ∧ ptr ≠ 0 then
        (genFreeEnter ptr m).track ptr ⟨bytesAlloc, ev.env.ktimeExit, ev.env.stackId⟩
      else genFreeEnter ptr m := by
  have hfree : (genFreeEnter ptr m).sizes = .empty := (genFreeEnter_sizes ptr m).trans hsizes
  rw [← genAllocExit2_genAllocEnter hfree hcap rfl]
  obtain ⟨env, program⟩ := ev
  have hslab : slabAlloc cfg env ptr bytesAlloc m =
      genAllocExit2 env ptr (genAllocEnter cfg env bytesAlloc (genFreeEnter ptr m)) := by
    rw [slabAlloc, if_pos hwa]
  cases program with
  | kmalloc | kmemCacheAlloc =>
      obtain ⟨rfl, hbytes⟩ := Prod.mk.inj (Option.some.inj hop)
      obtain rfl := Option.some.inj hbytes
      exact hslab
  | kmallocNode | kmemCacheAllocNode =>
      obtain ⟨rfl, hbytes⟩ := Prod.mk.inj (Option.some.inj hop)
      obtain rfl := Option.some.inj hbytes
      exact (if_pos hnode).trans hslab
  | kfree | kmemCacheFree => cases (Prod.mk.inj (Option.some.inj hop)).2
  | _ => cases hop

theorem handle_slab_free {cfg : Config} {m : Maps cap} {ev : Event} {ptr : U64}
    (hop : ev.program.slabOp = some (ptr, none)) : handle cfg m ev = genFreeEnter ptr m := by
  obtain ⟨env, program⟩ := ev
  cases program with
  | kfree | kmemCacheFree =>
      obtain ⟨rfl, -⟩ := Prod.mk.inj (Option.some.inj hop)
      rfl
  | kmalloc | kmemCacheAlloc | kmallocNode | kmemCacheAllocNode =>
      cases (Prod.mk.inj (Option.some.inj hop)).2
  | _ => cases hop

/-- What a slab event starts from: no map is full and nothing is pending. -/
def SlabReady (m : Maps cap) (ev : Event) : Prop :=
  (m.NotFull ∧ ev.program.slabOp.isSome = true) ∧ m.sizes = .empty

/-- **What a slab event does.** A free forgets its pointer; an allocation forgets it
too, and then tracks it anew if the filters accept it. -/
theorem SlabReady.handle_cases {cfg : Config} (hwa : cfg.waMissingFree = true)
    (hnode : cfg.hasKmemAllocNode = true) {m : Maps cap} {ev : Event} (h : SlabReady m ev) :
    ∃ ptr, (ev.program.slabOp = some (ptr, none) ∧ handle cfg m ev = genFreeEnter ptr m) ∨
      ∃ bytesAlloc, ev.program.slabOp = some (ptr, some bytesAlloc) ∧
        handle cfg m ev =
          if Accepted cfg ev.env bytesAlloc ∧ ptr ≠ 0 then
            (genFreeEnter ptr m).track ptr ⟨bytesAlloc, ev.env.ktimeExit, ev.env.stackId⟩
          else genFreeEnter ptr m := by
  obtain ⟨⟨hfull, hslab⟩, hsizes⟩ := h
  obtain ⟨⟨ptr, bytes⟩, hop⟩ := Option.isSome_iff_exists.mp hslab
  refine ⟨ptr, ?_⟩
  cases bytes with
  | none => exact Or.inl ⟨hop, handle_slab_free hop⟩
  | some bytesAlloc =>
      have hcap : 0 < cap.sizes := Nat.zero_lt_of_lt hfull.1
      exact Or.inr ⟨bytesAlloc, hop, handle_slab_alloc hwa hnode hop hsizes hcap⟩

/-- The address an event has freed can be recorded again. -/
theorem SlabReady.hasRoom {m : Maps cap} {ev : Event} (h : SlabReady m ev) (ptr k : U64) :
    (genFreeEnter ptr m).allocs.HasRoom ptr ∧ (genFreeEnter ptr m).combinedAllocs.HasRoom k := by
  obtain ⟨⟨hfull, -⟩, -⟩ := h
  have hallocs : (genFreeEnter ptr m).allocs.size < cap.allocs := by
    rw [genFreeEnter_allocs]
    exact (BoundedMap.size_erase_le ptr m.allocs).trans_lt hfull.2.1
  have hcomb : (genFreeEnter ptr m).combinedAllocs.size < cap.combinedAllocs :=
    (BoundedMap.size_eq_of_mem_iff fun _ => mem_genFreeEnter_combinedAllocs).trans_lt hfull.2.2.1
  exact ⟨.of_size_lt hallocs _, .of_size_lt hcomb _⟩

theorem SlabReady.sizes_handle {cfg : Config} (hwa : cfg.waMissingFree = true)
    (hnode : cfg.hasKmemAllocNode = true) {m : Maps cap} {ev : Event} (h : SlabReady m ev) :
    (handle cfg m ev).sizes = .empty := by
  have hfree (ptr : U64) : (genFreeEnter ptr m).sizes = .empty :=
    (genFreeEnter_sizes ptr m).trans h.2
  rcases h.handle_cases hwa hnode with ⟨ptr, ⟨-, hhandle⟩ | ⟨bytesAlloc, -, hhandle⟩⟩
  · rw [hhandle]
    exact hfree ptr
  · rw [hhandle]
    split
    case isTrue => exact hfree ptr
    case isFalse => exact hfree ptr

theorem sizeAndStack_genFreeEnter (ptr address : U64) (m : Maps cap) :
    (genFreeEnter ptr m).sizeAndStack address =
      if ptr = address then none else m.sizeAndStack address := by
  rw [Maps.sizeAndStack, genFreeEnter_allocs, BoundedMap.lookup_erase]
  by_cases heq : ptr = address
  · rw [if_pos heq, if_pos heq.symm, Option.map_none]
  · rw [if_neg heq, if_neg (Ne.symm heq)]
    rfl

theorem sizeAndStack_track {ptr : U64} {info : AllocInfo} {m : Maps cap}
    (hroom : m.allocs.HasRoom ptr) (address : U64) :
    (m.track ptr info).sizeAndStack address =
      if ptr = address then some (info.size, info.stackId) else m.sizeAndStack address := by
  rw [Maps.sizeAndStack, track_allocs, BoundedMap.lookup_put hroom]
  by_cases heq : ptr = address
  · rw [if_pos heq, if_pos heq.symm, Option.map_some]
  · rw [if_neg heq, if_neg (Ne.symm heq)]
    rfl

theorem names_iff {ev : Event} {ptr address : U64} {bytes : Option U64}
    (hop : ev.program.slabOp = some (ptr, bytes)) : ev.Names address ↔ ptr = address := by
  simp [Event.Names, hop]

/-- One slab event, seen from an address: an event that names it decides, any other
leaves it alone. -/
theorem SlabReady.sizeAndStack_handle {cfg : Config} (hwa : cfg.waMissingFree = true)
    (hnode : cfg.hasKmemAllocNode = true) {m : Maps cap} {ev : Event} (h : SlabReady m ev)
    {address : U64} (haddr : address ≠ 0) :
    (handle cfg m ev).sizeAndStack address =
      if ev.Names address then ev.allocation cfg else m.sizeAndStack address := by
  rcases h.handle_cases hwa hnode with ⟨ptr, ⟨hop, hhandle⟩ | ⟨bytesAlloc, hop, hhandle⟩⟩
  · rw [hhandle, sizeAndStack_genFreeEnter, if_congr (names_iff hop) rfl rfl]
    simp only [Event.allocation, hop]
  · rw [hhandle, if_congr (names_iff hop) rfl rfl]
    simp only [Event.allocation, hop]
    by_cases htrack : Accepted cfg ev.env bytesAlloc ∧ ptr ≠ 0
    · rw [if_pos htrack, if_pos htrack.1, sizeAndStack_track (h.hasRoom ptr 0).1,
        sizeAndStack_genFreeEnter]
      split
      case isTrue => rfl
      case isFalse => rfl
    · -- rejected, or a null pointer, which is not the address asked about
      rw [if_neg htrack, sizeAndStack_genFreeEnter]
      by_cases heq : ptr = address
      · have hrejected : ¬ Accepted cfg ev.env bytesAlloc :=
          fun hacc => htrack ⟨hacc, heq ▸ haddr⟩
        rw [if_pos heq, if_pos heq, if_neg hrejected]
      · rw [if_neg heq, if_neg heq]

/-- A slab event keeps the statistics exact: the address it records is free. -/
theorem SlabReady.exact_handle {cfg : Config} (hwa : cfg.waMissingFree = true)
    (hnode : cfg.hasKmemAllocNode = true) {m : Maps cap} {ev : Event} (h : SlabReady m ev)
    (hexact : Exact m) : Exact (handle cfg m ev) := by
  rcases h.handle_cases hwa hnode with ⟨ptr, ⟨-, hhandle⟩ | ⟨bytesAlloc, -, hhandle⟩⟩
  · rw [hhandle]
    exact hexact.genFreeEnter ptr
  · have hfree := hexact.genFreeEnter ptr
    rw [hhandle]
    split
    case isFalse => exact hfree
    case isTrue =>
      have hfresh : ptr ∉ (genFreeEnter ptr m).allocs := by
        rw [genFreeEnter_allocs]
        intro hmem
        exact (BoundedMap.mem_erase.mp hmem).1 rfl
      obtain ⟨hallocs, hcomb⟩ := h.hasRoom ptr (ev.env.stackId.signExtend 64)
      exact hfree.track hfresh (iff_of_true hallocs hcomb)

/-- **The workaround keeps the slab statistics exact.** After every run of slab
events with `wa_missing_free`, whatever frees are missing from it: nothing is
pending, an address is tracked exactly when the last event naming it is an
accepted allocation, with the size and stack id of that event, and every word is
the packed sum of the records of its stack. -/
theorem wa_missing_free_exact {cfg : Config} (hwa : cfg.waMissingFree = true)
    (hnode : cfg.hasKmemAllocNode = true) {evs pre : List Event}
    (hslab : ∀ ev ∈ evs, ev.program.slabOp.isSome = true)
    (hfull : Run.Along (handle cfg) (fun m _ => m.NotFull) (Maps.empty : Maps cap) evs)
    (hpre : pre <+: evs) :
    let m := run cfg (Maps.empty : Maps cap) pre
    m.sizes = .empty ∧
      (∀ address ≠ 0, m.sizeAndStack address = lastAllocation cfg address pre) ∧
      ∀ k, m.combinedAllocs.word k = packedSum (m.records k) := by
  intro m
  have hstep : ∀ (m : Maps cap) (ev : Event), m.sizes = .empty →
      m.NotFull ∧ ev.program.slabOp.isSome = true → (handle cfg m ev).sizes = .empty :=
    fun m ev hm hp => SlabReady.sizes_handle hwa hnode ⟨hp, hm⟩
  have hevents := (hfull.and (Run.along_iff_forall_mem.mpr hslab)).restrict hpre
  have hready : Run.Along (handle cfg) SlabReady (Maps.empty : Maps cap) pre :=
    hevents.and_invariant hstep rfl
  refine ⟨Run.foldl_invariant hstep rfl hevents, ?_, ?_⟩
  · intro address haddr
    exact Run.foldl_last (f := fun m : Maps cap => m.sizeAndStack address)
      (fun _ _ hp => hp.sizeAndStack_handle hwa hnode haddr) hready
  · intro k
    have hexact : Exact m :=
      Run.foldl_invariant (fun _ _ h hp => hp.exact_handle hwa hnode h) exact_empty hready
    exact drift_eq_zero.mp (hexact.drift k)

/-- One address is allocated three times and freed once; the last allocation is too
small for the filter. -/
theorem wa_missing_free_exact_reused :
    let cfg : Config := { minSize := 64, waMissingFree := true, hasKmemAllocNode := true }
    let evs : List Event := [⟨.quiet 0 3, .kmalloc 0x1000 100⟩,
      ⟨.quiet 0 5, .kmemCacheAllocNode 0x1000 200⟩, ⟨.quiet 0 5, .kmalloc 0 300⟩,
      ⟨.quiet 0 6, .kfree 0x2000⟩, ⟨.quiet 0 3, .kmallocNode 0x1000 32⟩]
    (run cfg (Maps.empty : Maps .source) (evs.take 4)).sizeAndStack 0x1000 = some (200, 5) ∧
      (run cfg (Maps.empty : Maps .source) evs).sizeAndStack 0x1000 = none := by
  intro cfg evs
  have hrun := fun pre (hpre : pre <+: evs) => @wa_missing_free_exact .source cfg rfl rfl evs pre
    (by decide) (by decide +kernel) hpre
  exact ⟨((hrun _ (List.take_prefix 4 evs)).2.1 0x1000 (by decide)).trans (by decide +kernel),
    ((hrun evs (List.prefix_refl _)).2.1 0x1000 (by decide)).trans (by decide +kernel)⟩

end EbpfMemleak
