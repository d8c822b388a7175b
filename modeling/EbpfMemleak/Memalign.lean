import EbpfMemleak.Programs
import Mathlib.Logic.Function.Basic

/-!
# EbpfMemleak.Memalign

**What a `posix_memalign` call leaves behind.** Its exit ends early in two places: when
`memptrs` has no entry of the process, and when the pointer cannot be read. In both the
pending size stays in `sizes`, and the next exit of the process takes it for its own,
also when the enter of that call was rejected by the filters.

`openCalls` follows the allocation call each process has open, at most one (`OneCall`).
While every exit of `posix_memalign` cleans up (`CleansUp`), a size is pending only for
a process whose open call passed the filters (`OnlyAccepted`), and a rejected call
therefore records nothing.
-/

namespace EbpfMemleak

variable {cap : Capacities}

/-! ### Open calls -/

/-- The size a program at the entry of an allocation function hands to
`gen_alloc_enter`. -/
def Program.opens : Program → Option U64
  | .mallocEnter size | .reallocEnter _ size | .mmapEnter _ size | .posixMemalignEnter _ _ size
  | .alignedAllocEnter _ size | .vallocEnter size | .memalignEnter _ size
  | .pvallocEnter size => some size
  | .callocEnter nmemb size => some (nmemb * size)
  | _ => none

/-- The program runs at the return of an allocation function. -/
def Program.closes : Program → Bool
  | .mallocExit _ | .callocExit _ | .reallocExit _ | .mmapExit _ | .posixMemalignExit
  | .alignedAllocExit _ | .vallocExit _ | .memalignExit _ | .pvallocExit _ => true
  | _ => false

/-- The program is an allocation tracepoint: enter and exit in one. -/
def Program.allocates : Program → Bool
  | .kmalloc _ _ | .kmallocNode _ _ | .kmemCacheAlloc _ _ | .kmemCacheAllocNode _ _
  | .mmPageAlloc _ _ | .percpuAllocPercpu _ _ => true
  | _ => false

/-- An allocation call a process has open: what the helpers answered at its enter, and
the size. -/
structure EnteredCall where
  env : Env
  size : U64

/-- The open call of every process. -/
abbrev OpenCalls := Pid → Option EnteredCall

/-- One event, seen by the open calls. -/
def openCallStep (C : OpenCalls) (ev : Event) : OpenCalls :=
  match ev.program.opens with
  | some size => Function.update C ev.env.pid (some ⟨ev.env, size⟩)
  | none => if ev.program.closes then Function.update C ev.env.pid none else C

/-- The open calls after a list of events. -/
def openCalls (evs : List Event) : OpenCalls := evs.foldl openCallStep fun _ => none

/-- Another process keeps its call. -/
theorem openCallStep_of_ne (C : OpenCalls) {ev : Event} {pid : Pid} (h : pid ≠ ev.env.pid) :
    openCallStep C ev pid = C pid := by
  unfold openCallStep
  cases ev.program.opens with
  | some size => simp [h]
  | none => cases ev.program.closes <;> simp [h]

/-- A process starts an allocation call only when it has none open. Returns without an
open call and frees may come anywhere. -/
def OneCall (C : OpenCalls) (ev : Event) : Prop :=
  (ev.program.opens.isSome || ev.program.allocates) = true → (C ev.env.pid).isNone = true

instance (C : OpenCalls) (ev : Event) : Decidable (OneCall C ev) :=
  inferInstanceAs (Decidable (_ → _))

/-- The exit of `posix_memalign` gets as far as `gen_alloc_exit2`, or has nothing to clean
up. -/
def CleansUp (m : Maps cap) (env : Env) : Prop :=
  m.sizes.lookup env.pid = none ∨
    ((m.memptrs.lookup env.pid64).bind env.probeReadUser).isSome = true

instance (m : Maps cap) (env : Env) : Decidable (CleansUp m env) :=
  inferInstanceAs (Decidable (_ ∨ _))

/-- If the event is an exit of `posix_memalign`, it cleans up. -/
def MemalignCleansUp (m : Maps cap) (ev : Event) : Prop :=
  ev.program = .posixMemalignExit → CleansUp m ev.env

instance (m : Maps cap) (ev : Event) : Decidable (MemalignCleansUp m ev) :=
  inferInstanceAs (Decidable (_ → _))

/-! ### One exit -/

/-- After the exit of `posix_memalign` nothing of the process is left, exactly if it
cleans up. -/
theorem nothing_left_iff (cfg : Config) (m : Maps cap) (env : Env) :
    ((handle cfg m ⟨env, .posixMemalignExit⟩).sizes.lookup env.pid = none ∧
        (handle cfg m ⟨env, .posixMemalignExit⟩).memptrs.lookup env.pid64 = none) ↔
      CleansUp m env := by
  have hmemptrs : (handle cfg m ⟨env, .posixMemalignExit⟩).memptrs.lookup env.pid64 = none := by
    rw [handle_memptrs]
    exact (BoundedMap.lookup_erase _ _ _).trans (if_pos rfl)
  have hsizes : (handle cfg m ⟨env, .posixMemalignExit⟩).sizes =
      ((m.memptrs.lookup env.pid64).bind env.probeReadUser).elim m.sizes
        fun _ => m.sizes.erase env.pid := by
    rw [handle_eq, exitPhase_sizes, beforeExit_sizes]
    rfl
  rw [and_iff_left hmemptrs, hsizes, CleansUp]
  cases (m.memptrs.lookup env.pid64).bind env.probeReadUser with
  | none => simp
  | some address => simp [BoundedMap.lookup_erase]

/-! ### The invariant -/

/-- A size is pending only for a process whose open call passed the filters. -/
def OnlyAccepted (cfg : Config) (m : Maps cap) (C : OpenCalls) : Prop :=
  ∀ pid, m.sizes.lookup pid = none ∨ ∃ c, C pid = some c ∧ Accepted cfg c.env c.size

theorem OnlyAccepted.idle {cfg : Config} {m : Maps cap} {C : OpenCalls} {pid : Pid}
    (h : OnlyAccepted cfg m C) (hnone : ∀ c, C pid = some c → ¬ Accepted cfg c.env c.size) :
    m.sizes.lookup pid = none :=
  (h pid).resolve_right fun ⟨c, hc, hacc⟩ => hnone c hc hacc

theorem calls_of_opens {cfg : Config} {m : Maps cap} {ev : Event} {size : U64}
    (h : ev.program.opens = some size) :
    (ev.calls cfg m).enter = some size ∧ (ev.calls cfg m).exit = none := by
  obtain ⟨env, program⟩ := ev
  cases program with
  | mallocEnter | callocEnter | reallocEnter | mmapEnter | posixMemalignEnter | alignedAllocEnter
  | vallocEnter | memalignEnter | pvallocEnter => exact ⟨h, rfl⟩
  | _ => cases h

/-- The exit probes call `gen_alloc_exit2`; `posix_memalign_exit` may end before. -/
theorem calls_of_closes {cfg : Config} {m : Maps cap} {ev : Event}
    (h : ev.program.closes = true) :
    (ev.calls cfg m).enter = none ∧ (ev.calls cfg m).free = none ∧
      (ev.program = .posixMemalignExit ∨ (ev.calls cfg m).exit.isSome = true) := by
  obtain ⟨env, program⟩ := ev
  cases program with
  | posixMemalignExit => exact ⟨rfl, rfl, Or.inl rfl⟩
  | mallocExit | callocExit | reallocExit | mmapExit | alignedAllocExit | vallocExit
  | memalignExit | pvallocExit => exact ⟨rfl, rfl, Or.inr rfl⟩
  | _ => cases h

/-- The remaining programs enter and exit, or do neither. -/
theorem calls_of_rest {cfg : Config} {m : Maps cap} {ev : Event}
    (hopens : ev.program.opens = none) (hcloses : ev.program.closes = false) :
    ((ev.calls cfg m).enter = none ∧ (ev.calls cfg m).exit = none) ∨
      (ev.program.allocates = true ∧ (ev.calls cfg m).exit.isSome = true) := by
  obtain ⟨env, program⟩ := ev
  cases program with
  | freeEnter | munmapEnter | kfree | kmemCacheFree | mmPageFree | percpuFreePercpu =>
      exact Or.inl ⟨rfl, rfl⟩
  | kmalloc | kmemCacheAlloc | mmPageAlloc | percpuAllocPercpu => exact Or.inr ⟨rfl, rfl⟩
  | kmallocNode | kmemCacheAllocNode =>
      cases hnode : cfg.hasKmemAllocNode <;> simp [Event.calls, Program.allocates, hnode, slabCalls]
  | mallocExit | callocExit | reallocExit | mmapExit | posixMemalignExit | alignedAllocExit
  | vallocExit | memalignExit | pvallocExit => cases hcloses
  | _ => cases hopens

theorem lookup_sizes_of_exit {cfg : Config} {m : Maps cap} {ev : Event}
    (h : (ev.calls cfg m).exit.isSome = true) :
    (handle cfg m ev).sizes.lookup ev.env.pid = none := by
  obtain ⟨address, haddress⟩ := Option.isSome_iff_exists.mp h
  rw [handle_eq, exitPhase_sizes, haddress, Option.elim_some, BoundedMap.lookup_erase, if_pos rfl]

/-- **One step** keeps the invariant. -/
theorem OnlyAccepted.step {cfg : Config} {m : Maps cap} {C : OpenCalls} {ev : Event}
    (h : OnlyAccepted cfg m C) (hclean : MemalignCleansUp m ev) (hone : OneCall C ev) :
    OnlyAccepted cfg (handle cfg m ev) (openCallStep C ev) := by
  intro pid
  by_cases hpid : pid = ev.env.pid
  case neg =>
    rw [lookup_sizes_handle_of_ne cfg m hpid, openCallStep_of_ne C hpid]
    exact h pid
  subst hpid
  cases hopens : ev.program.opens with
  | some size =>
      obtain ⟨henter, -⟩ := @calls_of_opens cap cfg m ev size hopens
      by_cases hacc : Accepted cfg ev.env size
      · refine Or.inr ⟨⟨ev.env, size⟩, ?_, hacc⟩
        simp [openCallStep, hopens]
      · have hnone := Option.isNone_iff_eq_none.mp (hone (by simp [hopens]))
        have hidle : m.sizes.lookup ev.env.pid = none := h.idle (by simp [hnone])
        have hrejected : ev.Rejected cfg m := fun size' hsize' =>
          Option.some.inj (henter.symm.trans hsize') ▸ hacc
        exact Or.inl (handle_of_rejected hrejected hidle).2
  | none =>
      cases hcloses : ev.program.closes with
      | true =>
          left
          obtain ⟨-, -, hposix | hexit⟩ := @calls_of_closes cap cfg m ev hcloses
          · obtain ⟨env, program⟩ := ev
            obtain rfl : program = .posixMemalignExit := hposix
            exact ((nothing_left_iff cfg m env).mpr (hclean rfl)).1
          · exact lookup_sizes_of_exit hexit
      | false =>
          have hcall : openCallStep C ev = C := by simp [openCallStep, hopens, hcloses]
          rcases @calls_of_rest cap cfg m ev hopens hcloses with ⟨henter, hexit⟩ | ⟨-, hexit⟩
          · have hsizes : (handle cfg m ev).sizes = m.sizes := by
              simp [handle_eq, exitPhase_sizes, beforeExit_sizes, henter, hexit]
            rw [hsizes, hcall]
            exact h ev.env.pid
          · exact Or.inl (lookup_sizes_of_exit hexit)

/-- The invariant holds after every run with one call at a time whose exits of
`posix_memalign` clean up. -/
theorem onlyAccepted_run {cfg : Config} {evs : List Event}
    (hone : Run.Along openCallStep OneCall (fun _ => none) evs)
    (hclean : Run.Along (handle cfg) MemalignCleansUp (Maps.empty : Maps cap) evs) :
    OnlyAccepted cfg (run cfg (Maps.empty : Maps cap) evs) (openCalls evs) := by
  refine Run.foldl_simulation (fun m C ev h hclean hone => ?_) (fun pid => ?_) hclean hone
  · exact OnlyAccepted.step h hclean hone
  · exact Or.inl rfl

/-- The return of a call whose enter was rejected changes no block. -/
theorem exit_of_rejected {cfg : Config} {m : Maps cap} {C : OpenCalls} {ev : Event}
    (h : OnlyAccepted cfg m C) (hcloses : ev.program.closes = true) {c : EnteredCall}
    (hc : C ev.env.pid = some c) (hrejected : ¬ Accepted cfg c.env c.size) :
    (handle cfg m ev).blocks = m.blocks := by
  obtain ⟨henter, hfree, -⟩ := @calls_of_closes cap cfg m ev hcloses
  have hidle : m.sizes.lookup ev.env.pid = none :=
    h.idle fun c' hc' => Option.some.inj (hc.symm.trans hc') ▸ hrejected
  have hnothing : ev.Rejected cfg m := fun size hsize => by
    rw [henter] at hsize
    cases hsize
  rw [handle_blocks_of_recorded_none (handle_of_rejected hnothing hidle).1, freePhase, hfree]

/-- A tracepoint whose enter is rejected does to the blocks what its free does. -/
theorem tracepoint_of_rejected {cfg : Config} {m : Maps cap} {C : OpenCalls} {ev : Event}
    (h : OnlyAccepted cfg m C) (hone : OneCall C ev) (hallocates : ev.program.allocates = true)
    (hrejected : ev.Rejected cfg m) :
    (handle cfg m ev).blocks = (freePhase (ev.calls cfg m) m).blocks := by
  have hnone := Option.isNone_iff_eq_none.mp (hone (by simp [hallocates]))
  have hidle : m.sizes.lookup ev.env.pid = none := h.idle (by simp [hnone])
  exact handle_blocks_of_recorded_none (handle_of_rejected hrejected hidle).1

/-- **`posix_memalign` and rejected calls.** An exit of `posix_memalign` leaves nothing of
its process in `sizes` and `memptrs` exactly if it cleans up. In a run with one call at a
time in which all of them do, the return of a call whose enter was rejected changes no
block, and a tracepoint whose enter is rejected changes them only by its free. -/
theorem memalign_leaves_nothing_iff (cfg : Config) :
    (∀ (m : Maps cap) (env : Env),
      ((handle cfg m ⟨env, .posixMemalignExit⟩).sizes.lookup env.pid = none ∧
        (handle cfg m ⟨env, .posixMemalignExit⟩).memptrs.lookup env.pid64 = none) ↔
        CleansUp m env) ∧
    ∀ evs, Run.Along openCallStep OneCall (fun _ => none) evs →
      Run.Along (handle cfg) MemalignCleansUp (Maps.empty : Maps cap) evs →
      ∀ pre ev post, evs = pre ++ ev :: post →
        let m := run cfg (Maps.empty : Maps cap) pre
        (∀ c, openCalls pre ev.env.pid = some c → ev.program.closes = true →
          ¬ Accepted cfg c.env c.size → (handle cfg m ev).blocks = m.blocks) ∧
        (ev.program.allocates = true → ev.Rejected cfg m →
          (handle cfg m ev).blocks = (freePhase (ev.calls cfg m) m).blocks) := by
  refine ⟨nothing_left_iff cfg, ?_⟩
  rintro evs hone hclean pre ev post rfl m
  obtain ⟨honePre, honeEv, -⟩ := (Run.along_append _ pre (ev :: post)).mp hone
  obtain ⟨hcleanPre, -⟩ := (Run.along_append _ pre (ev :: post)).mp hclean
  have hinv := onlyAccepted_run honePre hcleanPre
  exact ⟨fun c hc hcloses hrejected => exit_of_rejected hinv hcloses hc hrejected,
    fun hallocates hrejected => tracepoint_of_rejected hinv honeEv hallocates hrejected⟩

/-- Helper answers under which every pointer can be read and points to `0x2000`. -/
def Env.readable (pidTgid stackid : U64) : Env :=
  { Env.quiet pidTgid stackid with probeReadUser := fun _ => some 0x2000 }

/-- A `posix_memalign` call that returns its block, and a `malloc` that is too small for
the filters: the return of the `malloc` changes nothing. -/
theorem rejected_after_memalign :
    let cfg : Config := { minSize := 100 }
    let pre : List Event := [⟨.quiet 0x700000007 3, .posixMemalignEnter 0x5000 16 4096⟩,
      ⟨.readable 0x700000007 3, .posixMemalignExit⟩, ⟨.quiet 0x700000007 3, .mallocEnter 8⟩]
    let m := run cfg (Maps.empty : Maps .source) pre
    (handle cfg m ⟨.quiet 0x700000007 3, .mallocExit 0x1000⟩).blocks = m.blocks := by
  intro cfg pre m
  let exit : Event := ⟨.quiet 0x700000007 3, .mallocExit 0x1000⟩
  have hruns := (@memalign_leaves_nothing_iff .source cfg).2 (pre ++ [exit])
    (by decide +kernel) (by decide +kernel) pre exit [] rfl
  have hopen : openCalls pre exit.env.pid = some ⟨.quiet 0x700000007 3, 8⟩ :=
    Function.update_self ..
  exact hruns.1 _ hopen rfl (by decide)

/-- The exit of `posix_memalign` cannot read the pointer and leaves the size of its call
pending: the return of a `malloc` that is too small for the filters records it. -/
theorem memalign_size_recorded_later :
    let cfg : Config := { minSize := 100 }
    let m := run cfg (Maps.empty : Maps .source)
      [⟨.quiet 0x700000007 3, .posixMemalignEnter 0x5000 16 4096⟩,
        ⟨.quiet 0x700000007 3, .posixMemalignExit⟩]
    m.sizes.lookup 7 = some 4096 ∧ m.allocs.lookup 0x1000 = none ∧
      ¬ Accepted cfg (.quiet 0x700000007 3) 8 ∧
      (run cfg m (mallocCall 0x700000007 3 8 0x1000)).allocs.lookup 0x1000 =
        some ⟨4096, 0, 3⟩ := by
  refine ⟨by decide +kernel, by decide +kernel, by decide, by decide +kernel⟩

end EbpfMemleak
