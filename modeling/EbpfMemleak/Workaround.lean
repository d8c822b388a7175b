import EbpfMemleak.Effects

/-!
# EbpfMemleak.Workaround

**When the workaround makes a difference.** With `wa_missing_free` a slab allocation first
frees its own pointer. This changes something exactly when the pointer is tracked: the
contribution of its record is taken from the word of its stack, and a contribution is never
zero. So the runs with and without it agree at every point exactly as long as no slab
allocation names a tracked address, that is, while no free was missed
(`workaround_invisible_iff`).
-/

namespace EbpfMemleak

variable {cap : Capacities} {cfg : Config}

/-! ### One event with and without the workaround -/

/-- The same flags with the workaround on or off. -/
def Config.workaround (cfg : Config) (on : Bool) : Config := { cfg with waMissingFree := on }

/-- The pointer of a slab allocation whose handler is enabled. -/
def Event.slabPtr (cfg : Config) (ev : Event) : Option U64 :=
  match ev.program with
  | .kmalloc ptr _ | .kmemCacheAlloc ptr _ => some ptr
  | .kmallocNode ptr _ | .kmemCacheAllocNode ptr _ =>
      if cfg.hasKmemAllocNode then some ptr else none
  | _ => none

/-- The workaround adds a free to a slab allocation, and to nothing else. -/
theorem calls_workaround (m : Maps cap) (ev : Event) :
    ev.calls (cfg.workaround true) m =
      { ev.calls (cfg.workaround false) m with
        free := (ev.slabPtr cfg).or (ev.calls (cfg.workaround false) m).free } := by
  obtain ⟨env, program⟩ := ev
  cases program with
  | kmallocNode ptr bytesAlloc =>
      cases hnode : cfg.hasKmemAllocNode <;>
        simp [Event.calls, Event.slabPtr, Config.workaround, slabCalls, hnode]
  | kmemCacheAllocNode ptr bytesAlloc =>
      cases hnode : cfg.hasKmemAllocNode <;>
        simp [Event.calls, Event.slabPtr, Config.workaround, slabCalls, hnode]
  | _ => rfl

/-- A slab allocation frees nothing without it. -/
theorem free_of_slabPtr {m : Maps cap} {ev : Event} {ptr : U64} (h : ev.slabPtr cfg = some ptr) :
    (ev.calls (cfg.workaround false) m).free = none := by
  obtain ⟨env, program⟩ := ev
  cases program <;> simp_all [Event.calls, Event.slabPtr, Config.workaround, slabCalls]

theorem recorded_workaround (m : Maps cap) (ev : Event) :
    recorded (cfg.workaround true) m ev = recorded (cfg.workaround false) m ev := by
  have hsizes : (beforeExit (cfg.workaround true) m ev).sizes =
      (beforeExit (cfg.workaround false) m ev).sizes := by
    rw [beforeExit_sizes, beforeExit_sizes, calls_workaround]
    rfl
  unfold recorded exitRecord
  rw [hsizes, calls_workaround]

/-- What the workaround takes from the word of a stack: what the record at the pointer of a
slab allocation counts for. -/
theorem freedWeight_workaround (m : Maps cap) (ev : Event) (k : U64) :
    freedWeight (cfg.workaround true) m ev k =
      freedWeight (cfg.workaround false) m ev k +
        (ev.slabPtr cfg).elim 0 fun ptr => m.weightAt ptr k := by
  unfold freedWeight
  rw [calls_workaround]
  cases hptr : ev.slabPtr cfg with
  | none => simp
  | some ptr => simp [free_of_slabPtr hptr]

/-- A slab allocation of an untracked pointer is handled the same. -/
theorem handle_workaround {m : Maps cap} {ev : Event}
    (h : ∀ ptr ∈ ev.slabPtr cfg, ptr ∉ m.allocs) :
    handle (cfg.workaround true) m ev = handle (cfg.workaround false) m ev := by
  have hfree :
      freePhase (ev.calls (cfg.workaround true) m) { m with memptrs := ev.memptrsAfter m } =
      freePhase (ev.calls (cfg.workaround false) m) { m with memptrs := ev.memptrsAfter m } := by
    unfold freePhase
    rw [calls_workaround]
    cases hptr : ev.slabPtr cfg with
    | none => rfl
    | some ptr =>
        rw [free_of_slabPtr hptr]
        exact genFreeEnter_of_none (BoundedMap.lookup_eq_none.mpr (h ptr hptr))
  rw [handle_eq, handle_eq, beforeExit, beforeExit, hfree, calls_workaround]
  rfl

/-- **One event tells the two apart** just if it is a slab allocation of a tracked
pointer. -/
theorem handle_workaround_iff {m : Maps cap} (hm : m.NotFull) (hcovered : Covered m) (ev : Event) :
    handle (cfg.workaround true) m ev = handle (cfg.workaround false) m ev ↔
      ∀ ptr ∈ ev.slabPtr cfg, ptr ∉ m.allocs := by
  refine ⟨fun hsame ptr hptr hmem => ?_, handle_workaround⟩
  obtain ⟨info, hinfo⟩ := BoundedMap.mem_iff.mp hmem
  -- the words of the stack of the record differ by its contribution
  have hwords := congrArg (fun m : Maps cap => m.combinedAllocs.word info.stackKey) hsame
  simp only [word_handle hm hcovered, recordedWeight, recorded_workaround,
    freedWeight_workaround, Option.mem_def.mp hptr, Option.elim_some, weightAt_of_lookup hinfo,
    weight_stackKey] at hwords
  have hzero : contribution info.size = 0 := by
    have hcancel := add_right_cancel hwords
    simpa using hcancel
  exact contribution_ne_zero info.size hzero

/-! ### Runs -/

/-- The runs without and with the workaround, side by side. -/
def bothStep (cfg : Config) (s : Maps cap × Maps cap) (ev : Event) : Maps cap × Maps cap :=
  (handle (cfg.workaround false) s.1 ev, handle (cfg.workaround true) s.2 ev)

theorem foldl_bothStep (s : Maps cap × Maps cap) (evs : List Event) :
    evs.foldl (bothStep cfg) s =
      (run (cfg.workaround false) s.1 evs, run (cfg.workaround true) s.2 evs) := by
  induction evs generalizing s with
  | nil => rfl
  | cons ev evs ih => exact ih (bothStep cfg s ev)

/-- No slab allocation names a tracked address. -/
def NamesUntracked (cfg : Config) (m : Maps cap) (ev : Event) : Prop :=
  ∀ ptr ∈ ev.slabPtr cfg, ptr ∉ m.allocs

instance (cfg : Config) (m : Maps cap) (ev : Event) : Decidable (NamesUntracked cfg m ev) :=
  Option.decidableForallMem _

/-- **The workaround is invisible exactly while no free is missed.** While no map is full, the
runs with `wa_missing_free` and without it have the same maps after every event exactly when
no slab allocation names an address that is still tracked. -/
theorem workaround_invisible_iff (cfg : Config) (evs : List Event)
    (hfull : Run.Along (handle (cfg.workaround false)) (fun m _ => m.NotFull)
      (Maps.empty : Maps cap) evs) :
    (∀ pre, pre <+: evs → run (cfg.workaround true) (Maps.empty : Maps cap) pre =
        run (cfg.workaround false) Maps.empty pre) ↔
      Run.Along (handle (cfg.workaround false)) (NamesUntracked cfg) (Maps.empty : Maps cap)
        evs := by
  let s₀ : Maps cap × Maps cap := (.empty, .empty)
  have hfst : ∀ (s : Maps cap × Maps cap) ev,
      (bothStep cfg s ev).1 = handle (cfg.workaround false) s.1 ev := fun _ _ => rfl
  have hfull' : Run.Along (bothStep cfg) (fun s _ => s.1.NotFull) s₀ evs :=
    (Run.along_map (P := fun m _ => m.NotFull) hfst).mpr hfull
  have hreach : Reachable (cfg.workaround false) s₀.1 := ⟨[], rfl⟩
  have hexact := Run.forall_prefix_iff_along (G := fun s : Maps cap × Maps cap => s.2 = s.1)
    (J := fun s => Reachable (cfg.workaround false) s.1)
    (Q := fun s ev => NamesUntracked cfg s.1 ev) (fun s ev h _ => h.run [ev])
    (fun s ev h hm hsame => ?_) hfull' hreach rfl
  · simp only [foldl_bothStep] at hexact
    exact hexact.trans (Run.along_map (P := NamesUntracked cfg) hfst)
  · obtain ⟨m, m'⟩ := s
    obtain rfl : m' = m := hsame
    exact handle_workaround_iff hm (h.covered hm.2.2.1) ev

/-- An object that is allocated, freed and allocated again. -/
theorem workaround_invisible_freed :
    let evs : List Event := [⟨.quiet 0x100000001 3, .kmalloc 0x1000 64⟩,
      ⟨.quiet 0x100000001 3, .kfree 0x1000⟩, ⟨.quiet 0x100000001 3, .kmalloc 0x1000 32⟩]
    ∀ pre, pre <+: evs → run (Config.workaround {} true) (Maps.empty : Maps .source) pre =
      run (Config.workaround {} false) Maps.empty pre := by
  intro evs
  exact (workaround_invisible_iff {} evs (by decide +kernel)).mpr (by decide +kernel)

end EbpfMemleak
