import EbpfMemleak.Effects

/-!
# EbpfMemleak.Nested

**Nested calls of one thread are counted once.** An allocation function of the C library may
call another one, and both have probes. All of them share the slot of the process in
`sizes`: the enters overwrite each other, and the innermost exit takes what is there and
clears it, so that the outer ones find nothing.

The enters and the exits of the chain are two stretches of events, `EnterPhase` and
`ExitPhase`, with events aside (`Aside`) anywhere in them. After the first stretch the slot
holds the size of the last enter that passed the filters (`run_enters`); in the
second the first exit of the chain records it, and from then on the slot stays empty
(`exits_settled`).
-/

namespace EbpfMemleak

variable {cap : Capacities}

/-! ### The chain -/

/-- The size an enter probe of a function that may be nested hands to `gen_alloc_enter`. -/
def Program.nestEnter : Program → Option U64
  | .mallocEnter size | .reallocEnter _ size | .alignedAllocEnter _ size | .memalignEnter _ size
  | .vallocEnter size | .pvallocEnter size => some size
  | .callocEnter nmemb size => some (nmemb * size)
  | _ => none

/-- The address an exit probe of these functions returns. -/
def Program.nestExit : Program → Option U64
  | .mallocExit rc | .callocExit rc | .reallocExit rc | .alignedAllocExit rc | .memalignExit rc
  | .vallocExit rc | .pvallocExit rc => some rc
  | _ => none

/-- The argument of `free_enter`. -/
def Program.freed : Program → Option U64
  | .freeEnter ptr => some ptr
  | _ => none

/-- The process of a thread. -/
def threadPid (thread : U64) : Pid := (thread >>> 32).setWidth 32

/-- The event is an enter or an exit of the thread's calls. -/
def InChain (thread : U64) (ev : Event) : Prop :=
  ev.env.pidTgid = thread ∧ (ev.program.nestEnter.isSome || ev.program.nestExit.isSome) = true

instance (thread : U64) (ev : Event) : Decidable (InChain thread ev) :=
  inferInstanceAs (Decidable (_ ∧ _))

/-- What else may happen meanwhile: a `free` of an untracked pointer, or an event of another
process on another address. -/
def Aside (cfg : Config) (thread a : U64) (m : Maps cap) (ev : Event) : Prop :=
  (∃ ptr ∈ ev.program.freed, ptr ∉ m.allocs) ∨
    (ev.env.pid ≠ threadPid thread ∧ ¬ ev.Touches cfg m a)

instance (cfg : Config) (thread a : U64) (m : Maps cap) (ev : Event) :
    Decidable (Aside cfg thread a m ev) :=
  have : Decidable (∃ ptr ∈ ev.program.freed, ptr ∉ m.allocs) := Option.decidableExistsMem _
  inferInstanceAs (Decidable (_ ∨ _))

/-- While the calls nest: an enter of the chain, which frees no tracked block, or an event
aside. -/
def EnterPhase (cfg : Config) (thread a : U64) (m : Maps cap) (ev : Event) : Prop :=
  (ev.env.pidTgid = thread ∧ ev.program.nestEnter.isSome = true ∧
      ∀ ptr ∈ (ev.calls cfg m).free, ptr ∉ m.allocs) ∨
    Aside cfg thread a m ev

/-- While they return: an exit of the chain, with the address all of them return, or an event
aside. -/
def ExitPhase (cfg : Config) (thread a : U64) (m : Maps cap) (ev : Event) : Prop :=
  (ev.env.pidTgid = thread ∧ ev.program.nestExit = some a) ∨ Aside cfg thread a m ev

instance (cfg : Config) (thread a : U64) (m : Maps cap) (ev : Event) :
    Decidable (EnterPhase cfg thread a m ev) :=
  have : Decidable (∀ ptr ∈ (ev.calls cfg m).free, ptr ∉ m.allocs) := Option.decidableForallMem _
  inferInstanceAs (Decidable ((_ ∧ _ ∧ _) ∨ _))

instance (cfg : Config) (thread a : U64) (m : Maps cap) (ev : Event) :
    Decidable (ExitPhase cfg thread a m ev) := inferInstanceAs (Decidable ((_ ∧ _) ∨ _))

/-- An event of the chain changes no block. -/
def ChainQuiet (cfg : Config) (thread : U64) (m : Maps cap) (ev : Event) : Prop :=
  InChain thread ev → (handle cfg m ev).blocks = m.blocks

/-- The size of an enter of the chain that passes the filters. -/
def passedSize (cfg : Config) (thread : U64) (ev : Event) : Option U64 :=
  if ev.env.pidTgid = thread then ev.program.nestEnter.filter fun size => Accepted cfg ev.env size
  else none

/-- The size of the last enter of the chain that passed the filters. -/
def lastPassed (cfg : Config) (thread : U64) (evs : List Event) : Option U64 :=
  ((evs.filter fun ev => (passedSize cfg thread ev).isSome).getLast?.map
    (passedSize cfg thread)).getD none

/-! ### Single events -/

theorem handle_nestEnter {cfg : Config} {m : Maps cap} {ev : Event} {size : U64}
    (h : ev.program.nestEnter = some size)
    (hfree : ∀ ptr ∈ (ev.calls cfg m).free, ptr ∉ m.allocs) :
    handle cfg m ev = genAllocEnter cfg ev.env size m := by
  obtain ⟨env, program⟩ := ev
  cases program with
  | reallocEnter ptr size' =>
      obtain rfl := Option.some.inj h
      have hptr : m.allocs.lookup ptr = none := BoundedMap.lookup_eq_none.mpr (hfree ptr rfl)
      show genAllocEnter cfg env size' (genFreeEnter ptr m) = _
      rw [genFreeEnter_of_none hptr]
  | mallocEnter | callocEnter | alignedAllocEnter | memalignEnter | vallocEnter | pvallocEnter =>
      obtain rfl := Option.some.inj h
      rfl
  | _ => cases h

theorem handle_nestExit {cfg : Config} {m : Maps cap} {ev : Event} {rc : U64}
    (h : ev.program.nestExit = some rc) : handle cfg m ev = genAllocExit2 ev.env rc m := by
  obtain ⟨env, program⟩ := ev
  cases program with
  | mallocExit | callocExit | reallocExit | alignedAllocExit | memalignExit | vallocExit
  | pvallocExit =>
      obtain rfl := Option.some.inj h
      rfl
  | _ => cases h

theorem program_of_freed {program : Program} {ptr : U64} (h : ptr ∈ program.freed) :
    program = .freeEnter ptr := by
  cases program with
  | freeEnter address => exact congrArg _ (Option.some.inj h)
  | _ => cases h

theorem Aside.not_inChain {cfg : Config} {thread a : U64} {m : Maps cap} {ev : Event}
    (h : Aside cfg thread a m ev) : ¬ InChain thread ev := by
  intro ⟨hthread, hprobe⟩
  rcases h with ⟨ptr, hfreed, -⟩ | ⟨hpid, -⟩
  · rw [program_of_freed hfreed] at hprobe
    cases hprobe
  · exact hpid (congrArg threadPid hthread)

/-- An event aside touches neither the slot of the process nor the address. -/
theorem Aside.frame {cfg : Config} {thread a : U64} {m : Maps cap} {ev : Event}
    (h : Aside cfg thread a m ev) (hm : m.NotFull) :
    (handle cfg m ev).sizes.lookup (threadPid thread) = m.sizes.lookup (threadPid thread) ∧
      (handle cfg m ev).allocs.lookup a = m.allocs.lookup a := by
  rcases h with ⟨ptr, hfreed, hptr⟩ | ⟨hpid, htouch⟩
  · have hsame : handle cfg m ev = m := by
      obtain ⟨env, program⟩ := ev
      obtain rfl : program = .freeEnter ptr := program_of_freed hfreed
      exact genFreeEnter_of_none (BoundedMap.lookup_eq_none.mpr hptr)
    rw [hsame]
    exact ⟨rfl, rfl⟩
  · exact ⟨lookup_sizes_handle_of_ne cfg m hpid.symm, lookup_handle_allocs_of_not_touches hm htouch⟩

/-! ### The enters -/

/-- **One event while the calls nest.** -/
theorem EnterPhase.step {cfg : Config} {thread a : U64} {m : Maps cap} {ev : Event}
    (h : EnterPhase cfg thread a m ev) (hm : m.NotFull) :
    ((handle cfg m ev).sizes.lookup (threadPid thread) =
        if (passedSize cfg thread ev).isSome then passedSize cfg thread ev
        else m.sizes.lookup (threadPid thread)) ∧
      (handle cfg m ev).allocs.lookup a = m.allocs.lookup a ∧ ChainQuiet cfg thread m ev := by
  rcases h with ⟨hthread, henter, hfree⟩ | haside
  · obtain ⟨size, hsize⟩ := Option.isSome_iff_exists.mp henter
    have hpid : ev.env.pid = threadPid thread := congrArg threadPid hthread
    have hpassed : passedSize cfg thread ev =
        if Accepted cfg ev.env size then some size else none := by
      simp [passedSize, hthread, hsize, Option.filter]
    rw [handle_nestEnter hsize hfree]
    refine ⟨?_, by rw [genAllocEnter_allocs], fun _ => ?_⟩
    · rw [hpassed, genAllocEnter_sizes]
      by_cases hacc : Accepted cfg ev.env size
      · rw [if_pos hacc, if_pos hacc, BoundedMap.lookup_put (.of_size_lt hm.1 _), if_pos hpid.symm]
        rfl
      · rw [if_neg hacc, if_neg hacc]
        rfl
    · rw [handle_nestEnter hsize hfree]
      exact genAllocEnter_blocks cfg ev.env size m
  · obtain ⟨hsizes, hallocs⟩ := haside.frame hm
    have hnone : passedSize cfg thread ev = none := by
      unfold passedSize
      split
      case isTrue hthread =>
        have hchain := haside.not_inChain
        cases hsize : ev.program.nestEnter with
        | none => rfl
        | some size => exact absurd ⟨hthread, by simp [hsize]⟩ hchain
      case isFalse => rfl
    refine ⟨?_, hallocs, fun hchain => absurd hchain haside.not_inChain⟩
    rw [hsizes, hnone]
    rfl

/-- **After the enters** the slot of the process holds the size of the last one that passed
the filters, and no event of the chain has changed a block. -/
theorem run_enters {cfg : Config} {thread a : U64} {m : Maps cap} {evs : List Event}
    (hidle : m.sizes.lookup (threadPid thread) = none)
    (hfull : Run.Along (handle cfg) (fun m _ => m.NotFull) m evs)
    (h : Run.Along (handle cfg) (EnterPhase cfg thread a) m evs) :
    (run cfg m evs).sizes.lookup (threadPid thread) = lastPassed cfg thread evs ∧
      (run cfg m evs).allocs.lookup a = m.allocs.lookup a ∧
      Run.Along (handle cfg) (ChainQuiet cfg thread) m evs := by
  have hboth := h.and hfull
  refine ⟨?_, ?_, hboth.imp fun m ev hev => (EnterPhase.step hev.1 hev.2).2.2⟩
  · have hlast := Run.foldl_last (f := fun m : Maps cap => m.sizes.lookup (threadPid thread))
      (v := passedSize cfg thread) (fun m ev hev => (EnterPhase.step hev.1 hev.2).1) hboth
    simp only [Bool.decide_eq_true, hidle] at hlast
    exact hlast
  · exact Run.foldl_invariant (I := fun m' : Maps cap => m'.allocs.lookup a = m.allocs.lookup a)
      (fun m' ev hm' hev => (EnterPhase.step hev.1 hev.2).2.1.trans hm') rfl hboth

/-! ### The exits -/

/-- The slot of the process is empty, and the address is as it was in `m`. -/
def Settled (thread a : U64) (m m' : Maps cap) : Prop :=
  m'.sizes.lookup (threadPid thread) = none ∧ m'.allocs.lookup a = m.allocs.lookup a

/-- An exit of the chain that finds nothing pending, or an event aside, changes no block of
the chain and leaves nothing pending. -/
theorem ExitPhase.step_settled {cfg : Config} {thread a : U64} {m : Maps cap} {ev : Event}
    (h : ExitPhase cfg thread a m ev) (hm : m.NotFull)
    (hidle : m.sizes.lookup (threadPid thread) = none) :
    (handle cfg m ev).sizes.lookup (threadPid thread) = none ∧
      (handle cfg m ev).allocs.lookup a = m.allocs.lookup a ∧ ChainQuiet cfg thread m ev := by
  rcases h with ⟨hthread, hexit⟩ | haside
  · have hpid : ev.env.pid = threadPid thread := congrArg threadPid hthread
    have hnone : exitRecord ev.env a m = none :=
      exitRecord_eq_none.mpr (Or.inr (hpid.symm ▸ hidle))
    have hhandle : handle cfg m ev = { m with sizes := m.sizes.erase ev.env.pid } := by
      rw [handle_nestExit hexit, genAllocExit2_of_none hnone]
    refine ⟨?_, by rw [hhandle], fun _ => by rw [hhandle]; rfl⟩
    rw [hhandle, BoundedMap.lookup_erase, if_pos hpid.symm]
  · obtain ⟨hsizes, hallocs⟩ := haside.frame hm
    exact ⟨hsizes.trans hidle, hallocs, fun hchain => absurd hchain haside.not_inChain⟩

/-- **Once the slot is empty** the chain changes no block any more. -/
theorem exits_settled {cfg : Config} {thread a : U64} {m : Maps cap} {evs : List Event}
    (hidle : m.sizes.lookup (threadPid thread) = none)
    (hfull : Run.Along (handle cfg) (fun m _ => m.NotFull) m evs)
    (h : Run.Along (handle cfg) (ExitPhase cfg thread a) m evs) :
    (run cfg m evs).sizes.lookup (threadPid thread) = none ∧
      (run cfg m evs).allocs.lookup a = m.allocs.lookup a ∧
      Run.Along (handle cfg) (ChainQuiet cfg thread) m evs := by
  have hboth := h.and hfull
  have hstep : ∀ (m' : Maps cap) ev, Settled thread a m m' →
      ExitPhase cfg thread a m' ev ∧ m'.NotFull → Settled thread a m (handle cfg m' ev) := by
    intro m' ev hm' hev
    obtain ⟨hsizes, hallocs, -⟩ := ExitPhase.step_settled hev.1 hev.2 hm'.1
    exact ⟨hsizes, hallocs.trans hm'.2⟩
  have hstart : Settled thread a m m := ⟨hidle, rfl⟩
  obtain ⟨hsizes, hallocs⟩ := Run.foldl_invariant hstep hstart hboth
  refine ⟨hsizes, hallocs, ?_⟩
  exact (Run.Along.and_invariant hstep hstart hboth).imp fun m' ev hev =>
    (ExitPhase.step_settled hev.1.1 hev.1.2 hev.2.1).2.2

/-- Events of which none belongs to the chain. -/
theorem run_aside {cfg : Config} {thread a : U64} {m : Maps cap} {evs : List Event}
    (hfull : Run.Along (handle cfg) (fun m _ => m.NotFull) m evs)
    (h : Run.Along (handle cfg) (ExitPhase cfg thread a) m evs)
    (hnot : ∀ ev ∈ evs, ¬ InChain thread ev) :
    (run cfg m evs).sizes.lookup (threadPid thread) = m.sizes.lookup (threadPid thread) ∧
      (run cfg m evs).allocs.lookup a = m.allocs.lookup a ∧
      Run.Along (handle cfg) (ChainQuiet cfg thread) m evs := by
  have hnot' : Run.Along (handle cfg) (fun _ ev => ¬ InChain thread ev) m evs :=
    Run.along_iff_forall_mem.mpr hnot
  have haside : Run.Along (handle cfg) (fun m ev => Aside cfg thread a m ev ∧ m.NotFull) m evs := by
    refine ((h.and hfull).and hnot').imp fun m' ev ⟨⟨hphase, hm'⟩, hout⟩ => ⟨?_, hm'⟩
    exact hphase.resolve_left fun ⟨hthread, hexit⟩ => hout ⟨hthread, by simp [hexit]⟩
  refine ⟨?_, ?_, hnot'.imp fun m' ev hout hchain => absurd hchain hout⟩
  · exact Run.foldl_invariant
      (I := fun m' : Maps cap =>
        m'.sizes.lookup (threadPid thread) = m.sizes.lookup (threadPid thread))
      (fun m' ev hm' hev => (hev.1.frame hev.2).1.trans hm') rfl haside
  · exact Run.foldl_invariant (I := fun m' : Maps cap => m'.allocs.lookup a = m.allocs.lookup a)
      (fun m' ev hm' hev => (hev.1.frame hev.2).2.trans hm') rfl haside

/-- One block has been added: `allocs` has its record and is otherwise as before, and the entry
of its stack in `combined_allocs`, which may be new, counts one block of its size more; the
others are as before. -/
structure Adds (a : U64) (info : AllocInfo) (m m' : Maps cap) : Prop where
  stored : ∀ b, m'.allocs.lookup b = if b = a then some info else m.allocs.lookup b
  counted : ∀ k, m'.combinedAllocs.word k =
    m.combinedAllocs.word k +
      if k = info.stackId.signExtend 64 then contribution info.size else 0
  entries : ∀ k, k ∈ m'.combinedAllocs ↔
    k = info.stackId.signExtend 64 ∨ k ∈ m.combinedAllocs

/-- The exit that finds a size pending records it. -/
theorem handle_first_exit {cfg : Config} {thread a size : U64} {m : Maps cap} {ev : Event}
    (hthread : ev.env.pidTgid = thread) (hexit : ev.program.nestExit = some a) (ha : a ≠ 0)
    (hpending : m.sizes.lookup (threadPid thread) = some size) (hm : m.NotFull) :
    (handle cfg m ev).blocks = (m.track a ⟨size, ev.env.ktimeExit, ev.env.stackId⟩).blocks ∧
      (handle cfg m ev).sizes.lookup (threadPid thread) = none ∧
      (handle cfg m ev).allocs.lookup a = some ⟨size, ev.env.ktimeExit, ev.env.stackId⟩ := by
  have hpid : ev.env.pid = threadPid thread := congrArg threadPid hthread
  have hrec : exitRecord ev.env a m = some ⟨size, ev.env.ktimeExit, ev.env.stackId⟩ :=
    exitRecord_eq_some.mpr ⟨ha, hpid.symm ▸ hpending, rfl⟩
  rw [handle_nestExit hexit, genAllocExit2_of_some hrec]
  refine ⟨rfl, ?_, ?_⟩
  · show (m.sizes.erase ev.env.pid).lookup _ = none
    rw [BoundedMap.lookup_erase, if_pos hpid.symm]
  · rw [track_allocs, BoundedMap.lookup_put (.of_size_lt hm.2.1 _), if_pos rfl]

/-- **What a recorded block adds** where there is room: the record at its address, and one
block of its size under its stack. -/
theorem Adds.of_blocks {m m' : Maps cap} {a : U64} {info : AllocInfo} (hm : m.NotFull)
    (h : m'.blocks = (m.track a info).blocks) : Adds a info m m' := by
  obtain ⟨hallocs, hcombined⟩ := blocks_eq_iff.mp h
  have hroom : m.combinedAllocs.HasRoom info.stackKey := .of_size_lt hm.2.2.1 _
  constructor
  case stored =>
    intro b
    rw [hallocs, track_allocs, BoundedMap.lookup_put (.of_size_lt hm.2.1 _)]
  case counted =>
    intro k
    rw [hcombined, word_track, if_pos hroom, AllocInfo.weight]
    exact congrArg _ (if_congr eq_comm rfl rfl)
  case entries =>
    intro k
    rw [hcombined, track_combinedAllocs]
    exact mem_updateStatisticsAdd hroom

/-! ### The result -/

/-- `k` nested calls of a thread: `k` enters, then `k` exits that all return the same
untracked address, with events aside anywhere between them and no map full. Which exit
belongs to which enter does not matter. -/
structure NestedCalls (cfg : Config) (m : Maps cap) (thread a : U64) (k : Nat)
    (enters exits : List Event) : Prop where
  depth : 1 ≤ k
  enterCount : (enters.countP fun ev => InChain thread ev) = k
  exitCount : (exits.countP fun ev => InChain thread ev) = k
  /-- Nothing of the process is pending before. -/
  idle : m.sizes.lookup (threadPid thread) = none
  address_ne : a ≠ 0
  untracked : a ∉ m.allocs
  notFull : Run.Along (handle cfg) (fun m _ => m.NotFull) m (enters ++ exits)
  entering : Run.Along (handle cfg) (EnterPhase cfg thread a) m enters
  exiting : Run.Along (handle cfg) (ExitPhase cfg thread a) (run cfg m enters) exits

/-- The exit `ev` after `pre` records the block, where nothing was recorded, and makes the one
addition to `combined_allocs`, of the size it is given and count one, under the stack id of the
record; no other event of the chain changes either map; the record is there at the end. -/
structure CountedOnce (cfg : Config) (m : Maps cap) (thread a size : U64)
    (pre : List Event) (ev : Event) (post : List Event) : Prop where
  inChain : InChain thread ev
  before : Run.Along (handle cfg) (ChainQuiet cfg thread) m pre
  untracked : a ∉ (run cfg m pre).allocs
  recorded : (handle cfg (run cfg m pre) ev).blocks =
    ((run cfg m pre).track a ⟨size, ev.env.ktimeExit, ev.env.stackId⟩).blocks
  adds : Adds a ⟨size, ev.env.ktimeExit, ev.env.stackId⟩ (run cfg m pre)
    (handle cfg (run cfg m pre) ev)
  after : Run.Along (handle cfg) (ChainQuiet cfg thread) (handle cfg (run cfg m pre) ev) post
  kept : (run cfg m (pre ++ ev :: post)).allocs.lookup a =
    some ⟨size, ev.env.ktimeExit, ev.env.stackId⟩

/-- **Nested calls are counted once.** If none of the enters passed the filters, the chain
changes no block. Otherwise exactly one of its events does, an exit: it stores the block,
with the size of the last enter that passed, and adds that size and count one to the entry of
its stack. Afterwards the process has no pending size. -/
theorem nested_calls_counted_once {cfg : Config} {m : Maps cap} {thread a : U64} {k : Nat}
    {enters exits : List Event} (h : NestedCalls cfg m thread a k enters exits) :
    (lastPassed cfg thread enters = none →
        Run.Along (handle cfg) (ChainQuiet cfg thread) m (enters ++ exits)) ∧
      (∀ size, lastPassed cfg thread enters = some size →
        ∃ pre ev post, exits = pre ++ ev :: post ∧
          CountedOnce cfg m thread a size (enters ++ pre) ev post) ∧
      (run cfg m (enters ++ exits)).sizes.lookup (threadPid thread) = none := by
  obtain ⟨hfullEnters, hfullExits⟩ := (Run.along_append m enters exits).mp h.notFull
  obtain ⟨hslot, hlookup, hquiet⟩ := run_enters h.idle hfullEnters h.entering
  rw [run_append]
  cases hlast : lastPassed cfg thread enters with
  | none =>
      obtain ⟨hidle, -, hquiet'⟩ := exits_settled (hslot.trans hlast) hfullExits h.exiting
      refine ⟨fun _ => (Run.along_append m enters exits).mpr ⟨hquiet, hquiet'⟩, ?_, hidle⟩
      intro size hsize
      cases hsize
  | some size =>
      -- the first exit of the chain
      have hsome : 0 < exits.countP fun ev => InChain thread ev := h.exitCount ▸ h.depth
      obtain ⟨ev₀, hmem, hev₀⟩ := List.countP_pos_iff.mp hsome
      obtain ⟨ev, hfind⟩ := Option.isSome_iff_exists.mp
        (List.find?_isSome.mpr ⟨ev₀, hmem, hev₀⟩ : (exits.find? fun ev => InChain thread ev).isSome)
      obtain ⟨hev, pre, post, hsplit, hpre⟩ := List.find?_eq_some_iff_append.mp hfind
      have hchain : InChain thread ev := of_decide_eq_true hev
      have hout : ∀ e ∈ pre, ¬ InChain thread e := fun e he => by simpa using hpre e he
      subst hsplit
      obtain ⟨hphasePre, hphaseEv, hphasePost⟩ := (Run.along_append _ pre _).mp h.exiting
      obtain ⟨hfullPre, hfullEv, hfullPost⟩ := (Run.along_append _ pre _).mp hfullExits
      obtain ⟨hslotPre, hlookupPre, hquietPre⟩ := run_aside hfullPre hphasePre hout
      obtain ⟨hthread, hexit⟩ := hphaseEv.resolve_right fun haside => haside.not_inChain hchain
      obtain ⟨hrecorded, hidle, hstored⟩ := handle_first_exit hthread hexit h.address_ne
        (hslotPre.trans (hslot.trans hlast)) hfullEv
      obtain ⟨hidle', hkept, hquietPost⟩ := exits_settled hidle hfullPost hphasePost
      refine ⟨(fun hnone => nomatch hnone), ?_, ?_⟩
      · intro size' hsize'
        obtain rfl := Option.some.inj hsize'
        refine ⟨pre, ev, post, rfl, ?_⟩
        have habsent : m.allocs.lookup a = none := BoundedMap.lookup_eq_none.mpr h.untracked
        constructor
        case inChain => exact hchain
        case before => exact (Run.along_append m enters pre).mpr ⟨hquiet, hquietPre⟩
        case untracked =>
          rw [run_append, ← BoundedMap.lookup_eq_none]
          exact hlookupPre.trans (hlookup.trans habsent)
        case recorded => rw [run_append]; exact hrecorded
        case adds => rw [run_append]; exact Adds.of_blocks hfullEv hrecorded
        case after => rw [run_append]; exact hquietPost
        case kept => rw [run_append, run_append, run_cons]; exact hkept.trans hstored
      · rw [run_append, run_cons]
        exact hidle'

/-- `realloc` of a null pointer calls `malloc`, and another process allocates in between: the
two exits record one block, with the size of the inner enter. -/
theorem nested_realloc_counted_once :
    let thread : U64 := 0x700000007
    let enters : List Event := [⟨.quiet thread 3, .reallocEnter 0 100⟩,
      ⟨.quiet 0x900000009 4, .mallocEnter 8⟩, ⟨.quiet thread 3, .mallocEnter 112⟩]
    let exits : List Event := [⟨.quiet thread 3, .mallocExit 0x1000⟩,
      ⟨.quiet 0x900000009 4, .mallocExit 0x2000⟩, ⟨.quiet thread 5, .reallocExit 0x1000⟩]
    ∃ pre ev post, exits = pre ++ ev :: post ∧
      CountedOnce {} (Maps.empty : Maps .source) thread 0x1000 112 (enters ++ pre) ev post := by
  intro thread enters exits
  have h : NestedCalls {} (Maps.empty : Maps .source) thread 0x1000 2 enters exits := by
    constructor
    case depth => decide
    case enterCount => decide
    case exitCount => decide
    case idle => exact BoundedMap.lookup_empty _
    case address_ne => decide
    case untracked => exact BoundedMap.not_mem_empty _
    case notFull => decide +kernel
    case entering => decide +kernel
    case exiting => decide +kernel
  exact (nested_calls_counted_once h).2.1 112 (by decide +kernel)

end EbpfMemleak
