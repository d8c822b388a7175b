import EbpfMemleak.Concurrent.Statistics
import EbpfMemleak.Lib.ElementMap

/-!
# EbpfMemleak.Concurrent.Handlers

**The routines, one helper call at a time.** Here `gen_alloc_enter`,
`gen_alloc_exit2` and `gen_free_enter` are not atomic: every map helper call, every
read through a looked-up pointer and every fetch-and-add or fetch-and-sub is one
step. `sizes` and `allocs` are `ElementMap`s, since both are read through pointers
and both delete; their hash maps are preallocated, so the element of a deleted key
can be taken by the next insertion. `bpf_map_update_elem` with `BPF_ANY` is
`ElementMap.update`, `bpf_map_delete_elem` is `ElementMap.delete`.

A CPU runs a list of routine calls one after the other (`realloc_enter` is a free
and an enter, a slab handler under `wa_missing_free` a free, an enter and an exit),
and the CPUs interleave freely. A schedule entry names the CPU that moves and the
element an insertion in this step takes.

Run without interruption, the steps of a routine are its atomic form
(`solo_free`, `solo_enter`, `solo_exit`).
-/

namespace EbpfMemleak

variable {n : Nat} {ε ι : Type} [DecidableEq ε]

/-! ### The steps of a routine -/

/-- The maps the routines share. -/
structure Shared (n : Nat) (ε : Type) where
  sizes : ElementMap Pid U64 ε
  allocs : ElementMap U64 AllocInfo ε
  combinedAllocs : CombinedAllocs n

/-- A call of one of the three routines. -/
inductive Routine
  /-- `gen_alloc_enter`. -/
  | enter (env : Env) (size : U64)
  /-- `gen_alloc_exit2`. -/
  | exit (env : Env) (address : U64)
  /-- `gen_free_enter`. -/
  | free (address : U64)

/-- Where a CPU stands in a routine. Pointers are elements. -/
inductive Pc (ε : Type)
  | idle
  /-- `bpf_map_update_elem(&sizes, &pid, &size, BPF_ANY)`. -/
  | enterUpdate (pid : Pid) (size : U64)
  /-- `size = bpf_map_lookup_elem(&sizes, &pid)`. -/
  | exitLookup (env : Env) (address : U64)
  /-- `info.size = *size`. -/
  | exitReadSize (env : Env) (address : U64) (size : ε)
  /-- `bpf_map_delete_elem(&sizes, &pid)`. -/
  | exitDelete (env : Env) (address : U64) (size : U64)
  /-- `bpf_map_update_elem(&allocs, &address, &info, BPF_ANY)`. -/
  | exitUpdate (address : U64) (info : AllocInfo)
  /-- `info = bpf_map_lookup_elem(&allocs, &addr)`. -/
  | freeLookup (address : U64)
  /-- `bpf_map_delete_elem(&allocs, &addr)`. -/
  | freeDelete (address : U64) (info : ε)
  /-- The read of `info->stack_id`. -/
  | freeReadStackId (info : ε)
  /-- The read of `info->size`. -/
  | freeReadSize (info : ε) (stackId : I32)
  /-- Inside `update_statistics_add` or `update_statistics_del`. -/
  | statistics (pc : StatPc)

/-- The position after a step of the statistics: the routine ends when they return. -/
def Pc.ofStat (pc : StatPc) : Pc ε := if pc.Finished then .idle else .statistics pc

/-- The first step of a routine. The filters of `gen_alloc_enter` touch no map. -/
def Routine.start (cfg : Config) : Routine → Pc ε
  | .enter env size => if Accepted cfg env size then .enterUpdate env.pid size else .idle
  | .exit env address => .exitLookup env address
  | .free address => .freeLookup address

/-- The next step of a routine; `e` is the element an insertion takes. -/
def Pc.step (e : ε) (s : Shared n ε) : Pc ε → Shared n ε × Pc ε
  | .idle => (s, .idle)
  | .enterUpdate pid size => ({ s with sizes := s.sizes.update e pid size }, .idle)
  | .exitLookup env address =>
      match s.sizes.element env.pid with
      | none => (s, .idle)
      | some size => (s, .exitReadSize env address size)
  | .exitReadSize env address size => (s, .exitDelete env address (s.sizes.value size))
  | .exitDelete env address size =>
      ({ s with sizes := s.sizes.delete env.pid },
        if address ≠ 0 then .exitUpdate address ⟨size, env.ktimeExit, env.stackId⟩ else .idle)
  | .exitUpdate address info =>
      ({ s with allocs := s.allocs.update e address info },
        .statistics (.addLookup info.stackKey info.size))
  | .freeLookup address =>
      match s.allocs.element address with
      | none => (s, .idle)
      | some info => (s, .freeDelete address info)
  -- the result of the delete is ignored
  | .freeDelete address info =>
      ({ s with allocs := s.allocs.delete address }, .freeReadStackId info)
  | .freeReadStackId info => (s, .freeReadSize info (s.allocs.value info).stackId)
  | .freeReadSize info stackId =>
      (s, .statistics (.delLookup (stackId.signExtend 64) (s.allocs.value info).size))
  | .statistics pc =>
      let r := statStep s.combinedAllocs pc
      ({ s with combinedAllocs := r.1 }, .ofStat r.2)

/-- What a step can do, one constructor per outcome. -/
inductive PcMove (e : ε) (s : Shared n ε) : Pc ε → Shared n ε → Pc ε → Prop
  | idle : PcMove e s .idle s .idle
  | enterUpdate {pid : Pid} {size : U64} :
      PcMove e s (.enterUpdate pid size) { s with sizes := s.sizes.update e pid size } .idle
  | exitMissed {env : Env} {address : U64} (h : s.sizes.element env.pid = none) :
      PcMove e s (.exitLookup env address) s .idle
  | exitFound {env : Env} {address : U64} {size : ε} (h : s.sizes.element env.pid = some size) :
      PcMove e s (.exitLookup env address) s (.exitReadSize env address size)
  | exitReadSize {env : Env} {address : U64} {size : ε} :
      PcMove e s (.exitReadSize env address size) s (.exitDelete env address (s.sizes.value size))
  | exitNull {env : Env} {size : U64} :
      PcMove e s (.exitDelete env 0 size) { s with sizes := s.sizes.delete env.pid } .idle
  | exitDelete {env : Env} {address size : U64} (h : address ≠ 0) :
      PcMove e s (.exitDelete env address size) { s with sizes := s.sizes.delete env.pid }
        (.exitUpdate address ⟨size, env.ktimeExit, env.stackId⟩)
  | exitUpdate {address : U64} {info : AllocInfo} :
      PcMove e s (.exitUpdate address info) { s with allocs := s.allocs.update e address info }
        (.statistics (.addLookup info.stackKey info.size))
  | freeMissed {address : U64} (h : s.allocs.element address = none) :
      PcMove e s (.freeLookup address) s .idle
  | freeFound {address : U64} {info : ε} (h : s.allocs.element address = some info) :
      PcMove e s (.freeLookup address) s (.freeDelete address info)
  | freeDelete {address : U64} {info : ε} :
      PcMove e s (.freeDelete address info) { s with allocs := s.allocs.delete address }
        (.freeReadStackId info)
  | freeReadStackId {info : ε} :
      PcMove e s (.freeReadStackId info) s (.freeReadSize info (s.allocs.value info).stackId)
  | freeReadSize {info : ε} {stackId : I32} :
      PcMove e s (.freeReadSize info stackId) s
        (.statistics (.delLookup (stackId.signExtend 64) (s.allocs.value info).size))
  | statistics {pc pc' : StatPc} {c' : CombinedAllocs n}
      (h : StatMove s.combinedAllocs pc c' pc') :
      PcMove e s (.statistics pc) { s with combinedAllocs := c' } (.ofStat pc')

/-- Every step is one of the moves. -/
theorem pc_step_move (e : ε) (s : Shared n ε) (pc : Pc ε) :
    PcMove e s pc (pc.step e s).1 (pc.step e s).2 := by
  cases pc with
  | idle => exact .idle
  | enterUpdate pid size => exact .enterUpdate
  | exitLookup env address =>
      cases h : s.sizes.element env.pid with
      | none =>
          simp only [Pc.step, h]
          exact .exitMissed h
      | some size =>
          simp only [Pc.step, h]
          exact .exitFound h
  | exitReadSize env address size => exact .exitReadSize
  | exitDelete env address size =>
      by_cases haddr : address = 0
      · subst haddr
        exact .exitNull
      · rw [Pc.step, if_pos haddr]
        exact .exitDelete haddr
  | exitUpdate address info => exact .exitUpdate
  | freeLookup address =>
      cases h : s.allocs.element address with
      | none =>
          simp only [Pc.step, h]
          exact .freeMissed h
      | some info =>
          simp only [Pc.step, h]
          exact .freeFound h
  | freeDelete address info => exact .freeDelete
  | freeReadStackId info => exact .freeReadStackId
  | freeReadSize info stackId => exact .freeReadSize
  | statistics pc => exact .statistics (statStep_move s.combinedAllocs pc)

/-- A CPU: its position and the routine calls still to come. -/
structure Cpu (ε : Type) where
  pc : Pc ε
  rest : List Routine

/-- The next step of a CPU. -/
def Cpu.step (cfg : Config) (e : ε) (s : Shared n ε) : Cpu ε → Shared n ε × Cpu ε
  | ⟨.idle, []⟩ => (s, ⟨.idle, []⟩)
  | ⟨.idle, routine :: rest⟩ => (s, ⟨routine.start cfg, rest⟩)
  | ⟨pc, rest⟩ => ((pc.step e s).1, ⟨(pc.step e s).2, rest⟩)

/-- The maps and the CPUs. -/
abbrev Machine (n : Nat) (ε ι : Type) := Interleave.Config (Shared n ε) (Cpu ε) ι

/-- One CPU takes one step, with an element for an insertion. -/
def machineNext [DecidableEq ι] (cfg : Config) : Machine n ε ι → ι × ε → Machine n ε ι :=
  Interleave.next Prod.fst fun x => Cpu.step cfg x.2

/-- What a step of a CPU can do: stay idle, start its next routine, or take the step
of its routine. -/
inductive CpuMove (cfg : Config) (e : ε) (s : Shared n ε) : Cpu ε → Shared n ε → Cpu ε → Prop
  | halted : CpuMove cfg e s ⟨.idle, []⟩ s ⟨.idle, []⟩
  | started {routine : Routine} {rest : List Routine} :
      CpuMove cfg e s ⟨.idle, routine :: rest⟩ s ⟨routine.start cfg, rest⟩
  | moved {pc pc' : Pc ε} {s' : Shared n ε} {rest : List Routine} (h : PcMove e s pc s' pc') :
      CpuMove cfg e s ⟨pc, rest⟩ s' ⟨pc', rest⟩

theorem cpu_step_move (cfg : Config) (e : ε) (s : Shared n ε) (cpu : Cpu ε) :
    CpuMove cfg e s cpu (Cpu.step cfg e s cpu).1 (Cpu.step cfg e s cpu).2 := by
  obtain ⟨pc, rest⟩ := cpu
  cases pc with
  | idle =>
      cases rest with
      | nil => exact .halted
      | cons routine rest => exact .started
  | _ => exact .moved (pc_step_move e s _)

/-! ### Alone, the steps are the atomic routines -/

/-- The maps and the position after the steps of one routine, each with the element it
may take. -/
def solo (es : List ε) (p : Shared n ε × Pc ε) : Shared n ε × Pc ε :=
  es.foldl (fun p e => p.2.step e p.1) p

/-- The maps with elements hold what the maps without hold. -/
structure Represents {cap : Capacities} (s : Shared cap.combinedAllocs ε) (m : Maps cap) :
    Prop where
  sizes : ∀ pid, s.sizes.get pid = m.sizes.lookup pid
  allocs : ∀ address, s.allocs.get address = m.allocs.lookup address
  combined : s.combinedAllocs = m.combinedAllocs

variable {cap : Capacities}

theorem solo_idle (es : List ε) (s : Shared n ε) : solo es (s, .idle) = (s, .idle) := by
  induction es with
  | nil => rfl
  | cons e es ih => exact ih

/-- The statistics part of a routine, alone, takes the steps of `statSolo`. -/
theorem solo_ofStat (es : List ε) (s : Shared n ε) (pc : StatPc) :
    solo es (s, .ofStat pc) =
      ({ s with combinedAllocs := (statSolo es.length (s.combinedAllocs, pc)).1 },
        .ofStat (statSolo es.length (s.combinedAllocs, pc)).2) := by
  induction es generalizing s pc with
  | nil => rfl
  | cons e es ih =>
      by_cases hpc : pc.Finished
      · rw [statSolo_of_finished hpc, Pc.ofStat, if_pos hpc]
        exact solo_idle _ s
      · have hstep : solo (e :: es) (s, .ofStat pc) =
            solo es ({ s with combinedAllocs := (statStep s.combinedAllocs pc).1 },
              .ofStat (statStep s.combinedAllocs pc).2) := by
          rw [Pc.ofStat, if_neg hpc]
          rfl
        rw [hstep, ih]
        rfl

theorem solo_statistics_del (s : Shared n ε) (k sz : U64) (e₁ e₂ : ε) :
    solo [e₁, e₂] (s, .statistics (.delLookup k sz)) =
      ({ s with combinedAllocs := updateStatisticsDel k sz s.combinedAllocs }, .idle) := by
  obtain ⟨hmap, hdone⟩ := statSolo_del s.combinedAllocs k sz
  have hsolo := solo_ofStat [e₁, e₂] s (.delLookup k sz)
  rw [List.length_cons, List.length_singleton, hmap] at hsolo
  exact hsolo.trans (congrArg _ (if_pos hdone))

theorem solo_statistics_add (s : Shared n ε) (k sz : U64) (e₁ e₂ e₃ e₄ : ε) :
    solo [e₁, e₂, e₃, e₄] (s, .statistics (.addLookup k sz)) =
      ({ s with combinedAllocs := updateStatisticsAdd k sz s.combinedAllocs }, .idle) := by
  obtain ⟨hmap, hdone⟩ := statSolo_add s.combinedAllocs k sz
  have hsolo := solo_ofStat [e₁, e₂, e₃, e₄] s (.addLookup k sz)
  simp only [List.length_cons, List.length_nil] at hsolo
  rw [hmap] at hsolo
  exact hsolo.trans (congrArg _ (if_pos hdone))

/-- `gen_alloc_enter` alone. -/
theorem solo_enter {s : Shared cap.combinedAllocs ε} {m : Maps cap} (h : Represents s m)
    (cfg : Config) (env : Env) (size : U64) {e : ε} (hfree : s.sizes.owner e = none)
    (hroom : m.sizes.HasRoom env.pid) :
    Represents (solo [e] (s, (Routine.enter env size).start cfg)).1
        (genAllocEnter cfg env size m) ∧
      (solo [e] (s, (Routine.enter env size).start cfg)).2 = .idle := by
  rw [Routine.start, genAllocEnter_eq]
  by_cases hacc : Accepted cfg env size
  · rw [if_pos hacc, if_pos hacc]
    refine ⟨⟨?_, h.allocs, h.combined⟩, rfl⟩
    intro pid
    show (s.sizes.update e env.pid size).get pid = (m.sizes.put env.pid size).lookup pid
    rw [ElementMap.get_update hfree, BoundedMap.lookup_put hroom, h.sizes]
  · rw [if_neg hacc, if_neg hacc]
    exact ⟨h, rfl⟩

/-- `gen_free_enter` alone. -/
theorem solo_free {s : Shared cap.combinedAllocs ε} {m : Maps cap} (h : Represents s m)
    (address : U64) (e : ε) :
    Represents (solo (List.replicate 6 e) (s, .freeLookup address)).1
        (genFreeEnter address m) ∧
      (solo (List.replicate 6 e) (s, .freeLookup address)).2 = .idle := by
  have hlookup : (s.allocs.element address).map s.allocs.value = m.allocs.lookup address :=
    h.allocs address
  cases he : s.allocs.element address with
  | none =>
      rw [he, Option.map_none] at hlookup
      have hsolo : solo (List.replicate 6 e) (s, .freeLookup address) =
          solo (List.replicate 5 e) (s, .idle) := by
        simp [solo, Pc.step, he, List.replicate]
      rw [hsolo, solo_idle, genFreeEnter_of_none hlookup.symm]
      exact ⟨h, rfl⟩
  | some p =>
      rw [he, Option.map_some] at hlookup
      -- four steps to the statistics, reading the deleted element, which is still intact
      have hsolo : solo (List.replicate 6 e) (s, .freeLookup address) =
          solo [e, e] ({ s with allocs := s.allocs.delete address },
            .statistics (.delLookup (s.allocs.value p).stackKey (s.allocs.value p).size)) := by
        simp [solo, Pc.step, he, List.replicate, AllocInfo.stackKey]
      rw [hsolo, solo_statistics_del, genFreeEnter_of_some hlookup.symm]
      refine ⟨⟨h.sizes, ?_, ?_⟩, rfl⟩
      · intro a
        rw [ElementMap.get_delete, untrack_allocs, BoundedMap.lookup_erase, h.allocs]
      · rw [untrack_combinedAllocs, ← h.combined]

/-- `gen_alloc_exit2` alone. -/
theorem solo_exit {s : Shared cap.combinedAllocs ε} {m : Maps cap} (h : Represents s m)
    (env : Env) (address : U64) {e : ε} (hfree : s.allocs.owner e = none)
    (hroom : m.allocs.HasRoom address) :
    Represents (solo (List.replicate 8 e) (s, .exitLookup env address)).1
        (genAllocExit2 env address m) ∧
      (solo (List.replicate 8 e) (s, .exitLookup env address)).2 = .idle := by
  have hlookup : (s.sizes.element env.pid).map s.sizes.value = m.sizes.lookup env.pid :=
    h.sizes env.pid
  have hsizes (pid : Pid) : (s.sizes.delete env.pid).get pid =
      (m.sizes.erase env.pid).lookup pid := by
    rw [ElementMap.get_delete, BoundedMap.lookup_erase, h.sizes]
  cases he : s.sizes.element env.pid with
  | none =>
      rw [he, Option.map_none] at hlookup
      have hsolo : solo (List.replicate 8 e) (s, .exitLookup env address) =
          solo (List.replicate 7 e) (s, .idle) := by
        simp [solo, Pc.step, he, List.replicate]
      rw [hsolo, solo_idle, genAllocExit2_of_none (exitRecord_eq_none.mpr (.inr hlookup.symm)),
        BoundedMap.erase_of_not_mem (BoundedMap.lookup_eq_none.mp hlookup.symm)]
      exact ⟨h, rfl⟩
  | some p =>
      rw [he, Option.map_some] at hlookup
      by_cases haddr : address = 0
      · have hsolo : solo (List.replicate 8 e) (s, .exitLookup env address) =
            solo (List.replicate 5 e) ({ s with sizes := s.sizes.delete env.pid }, .idle) := by
          simp [solo, Pc.step, he, List.replicate, haddr]
        rw [hsolo, solo_idle, genAllocExit2_of_none (exitRecord_eq_none.mpr (.inl haddr))]
        exact ⟨⟨hsizes, h.allocs, h.combined⟩, rfl⟩
      · -- four steps to the statistics, the last of them takes the element
        have hsolo : solo (List.replicate 8 e) (s, .exitLookup env address) =
            solo [e, e, e, e]
              ({ s with
                  sizes := s.sizes.delete env.pid
                  allocs := s.allocs.update e address
                    ⟨s.sizes.value p, env.ktimeExit, env.stackId⟩ },
                .statistics (.addLookup
                  (AllocInfo.stackKey ⟨s.sizes.value p, env.ktimeExit, env.stackId⟩)
                  (s.sizes.value p))) := by
          have haddr' : ¬ address = 0#64 := haddr
          simp [solo, Pc.step, he, List.replicate, haddr']
        have hrec : exitRecord env address m =
            some ⟨s.sizes.value p, env.ktimeExit, env.stackId⟩ :=
          exitRecord_eq_some.mpr ⟨haddr, hlookup.symm, rfl⟩
        rw [hsolo, solo_statistics_add, genAllocExit2_of_some hrec]
        refine ⟨⟨hsizes, ?_, ?_⟩, rfl⟩
        · intro a
          rw [ElementMap.get_update hfree, track_allocs, BoundedMap.lookup_put hroom, h.allocs]
        · rw [track_combinedAllocs, ← h.combined]

end EbpfMemleak
