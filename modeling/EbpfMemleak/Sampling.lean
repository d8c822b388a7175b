import EbpfMemleak.FailedCalls
import EbpfMemleak.Noninterference

/-!
# EbpfMemleak.Sampling

**What `sample_rate` samples.** `gen_alloc_enter` keeps an allocation when the clock reads a
multiple of the rate at that moment. It counts nothing, so the share it keeps is the share
of enters that happen to fall on such a nanosecond.

A `CompletedCall` is one call of an allocation function and its return. A process that makes
one after the other leaves nothing behind between them (`Maps.Idle`), so every call stores
its block or changes nothing (`run_events`), and what is stored at the end is the number of
sampled enters, up to the room in `allocs` (`recordedCalls_eq`).
-/

namespace EbpfMemleak

variable {cap : Capacities}

/-! ### Completed calls -/

/-- A call of an allocation function. -/
inductive AllocCall
  | libc (call : LibcCall)
  | realloc (ptr size : U64)
  deriving DecidableEq

namespace AllocCall

/-- The program at the entry of the function. -/
def enter : AllocCall → Program
  | libc call => call.enter
  | realloc ptr size => .reallocEnter ptr size

/-- The program at the return of the function with this block. -/
def exit (rc : U64) : AllocCall → Program
  | libc (.malloc _) => .mallocExit rc
  | libc (.calloc _ _) => .callocExit rc
  | libc (.mmap _ _) => .mmapExit rc
  | libc (.posixMemalign _ _ _) => .posixMemalignExit
  | libc (.alignedAlloc _ _) => .alignedAllocExit rc
  | libc (.valloc _) => .vallocExit rc
  | libc (.memalign _ _) => .memalignExit rc
  | libc (.pvalloc _) => .pvallocExit rc
  | realloc _ _ => .reallocExit rc

/-- The size its enter passes on. -/
def size : AllocCall → U64
  | libc call => call.size
  | realloc _ size => size

/-- The block its enter frees. -/
def frees : AllocCall → Option U64
  | libc _ => none
  | realloc ptr _ => some ptr

end AllocCall

/-- A call that has returned a block. -/
structure CompletedCall where
  call : AllocCall
  enterEnv : Env
  exitEnv : Env
  address : U64
  samePid : exitEnv.pid = enterEnv.pid
  address_ne : address ≠ 0
  /-- `posix_memalign` returns its block through the pointer it was given. -/
  readable : ∀ memptr alignment size, call = .libc (.posixMemalign memptr alignment size) →
    exitEnv.probeReadUser memptr = some address

namespace CompletedCall

/-- The programs that run. -/
def events (c : CompletedCall) : List Event :=
  [⟨c.enterEnv, c.call.enter⟩, ⟨c.exitEnv, c.call.exit c.address⟩]

/-- The record of the call, where it is recorded. -/
def record (c : CompletedCall) : AllocInfo :=
  ⟨c.call.size, c.exitEnv.ktimeExit, c.exitEnv.stackId⟩

end CompletedCall

/-- Nothing of the process is pending, and there is room for its next call. -/
structure Maps.Idle (m : Maps cap) (pid : Pid) : Prop where
  sizes : m.sizes.lookup pid = none
  memptrs : m.memptrs.lookup (pid.setWidth 64) = none
  sizesRoom : m.sizes.HasRoom pid
  memptrsRoom : m.memptrs.HasRoom (pid.setWidth 64)

/-- `posix_memalign` back to back, with no pointer pending: the same as a call that returns
the block itself. -/
theorem posixMemalign_of_idle {cfg : Config} {env env' : Env} (memptr alignment size : U64)
    {a : U64} {m : Maps cap} (hm : m.Idle env.pid) (hpid : env'.pid = env.pid)
    (hread : env'.probeReadUser memptr = some a) :
    posixMemalignExit env' (posixMemalignEnter cfg env memptr alignment size m) =
      genAllocExit2 env' a (genAllocEnter cfg env size m) := by
  have hkey : env'.pid64 = env.pid64 := by rw [pid64_eq, pid64_eq, hpid]
  have hroom : m.memptrs.HasRoom env.pid64 := pid64_eq env ▸ hm.memptrsRoom
  have habsent : m.memptrs.lookup env.pid64 = none := pid64_eq env ▸ hm.memptrs
  -- the exit takes back the pointer the enter left
  have hback : (m.memptrs.put env.pid64 memptr).erase env.pid64 = m.memptrs :=
    BoundedMap.erase_put (BoundedMap.lookup_eq_none.mp habsent) memptr
  unfold posixMemalignEnter posixMemalignExit
  rw [genAllocEnter_with_memptrs, hkey]
  simp only [BoundedMap.lookup_put hroom, if_true, hread, hback]
  rw [genAllocExit2_with_memptrs]
  have hsame : (genAllocExit2 env' a (genAllocEnter cfg env size m)).memptrs = m.memptrs := by simp
  rw [← hsame]

/-- **One call** of an idle process stores its block if the filters accept it, and changes
nothing otherwise. -/
theorem run_events {cfg : Config} {m : Maps cap} {c : CompletedCall} (hm : m.Idle c.enterEnv.pid)
    (hfree : ∀ a ∈ c.call.frees, a ∉ m.allocs) :
    run cfg m c.events =
      if Accepted cfg c.enterEnv c.call.size then m.track c.address c.record else m := by
  have hcall : run cfg m c.events =
      genAllocExit2 c.exitEnv c.address (genAllocEnter cfg c.enterEnv c.call.size m) := by
    revert hm hfree
    obtain ⟨call, enterEnv, exitEnv, address, samePid, -, readable⟩ := c
    intro hm hfree
    cases call with
    | libc call =>
        cases call with
        | posixMemalign memptr alignment size =>
            exact posixMemalign_of_idle memptr alignment size hm samePid
              (readable memptr alignment size rfl)
        | _ => rfl
    | realloc ptr size =>
        show genAllocExit2 exitEnv address
          (genAllocEnter cfg enterEnv size (genFreeEnter ptr m)) = _
        rw [genFreeEnter_of_none (BoundedMap.lookup_eq_none.mpr (hfree ptr rfl))]
        rfl
  rw [hcall, genAllocExit2_genAllocEnter_of_idle hm.sizes c.samePid]
  exact if_congr ((and_iff_left c.address_ne).trans (and_iff_left hm.sizesRoom)) rfl rfl

/-- The calls leave the process idle. -/
theorem Maps.Idle.run_events {cfg : Config} {m : Maps cap} {c : CompletedCall}
    (hm : m.Idle c.enterEnv.pid) (hfree : ∀ a ∈ c.call.frees, a ∉ m.allocs) :
    (run cfg m c.events).Idle c.enterEnv.pid := by
  rw [EbpfMemleak.run_events hm hfree]
  split
  case isTrue => exact ⟨hm.sizes, hm.memptrs, hm.sizesRoom, hm.memptrsRoom⟩
  case isFalse => exact hm

/-! ### Sequences of calls -/

/-- The calls one after the other. -/
def callStep (cfg : Config) (m : Maps cap) (c : CompletedCall) : Maps cap := run cfg m c.events

/-- The call frees no recorded block. -/
def FreesNothing (m : Maps cap) (c : CompletedCall) : Prop := ∀ a ∈ c.call.frees, a ∉ m.allocs

instance (m : Maps cap) (c : CompletedCall) : Decidable (FreesNothing m c) :=
  Option.decidableForallMem _

/-- The enter of the call passes all filters but sampling. -/
def CompletedCall.Wanted (cfg : Config) (pid : Pid) (c : CompletedCall) : Prop :=
  c.enterEnv.pid = pid ∧ (cfg.minSize ≤ c.call.size ∧ c.call.size ≤ cfg.maxSize) ∧
    (cfg.targetPid = 0 ∨ pid = cfg.targetPid)

instance (cfg : Config) (pid : Pid) (c : CompletedCall) : Decidable (c.Wanted cfg pid) :=
  inferInstanceAs (Decidable (_ ∧ _))

/-- The clock reads a multiple of the rate at the enter of the call. -/
def CompletedCall.Sampled (cfg : Config) (c : CompletedCall) : Prop :=
  c.enterEnv.ktimeEnter % cfg.sampleRate = 0

instance (cfg : Config) (c : CompletedCall) : Decidable (c.Sampled cfg) :=
  inferInstanceAs (Decidable (_ = _))

/-- The calls of `cs` whose block is in `allocs` after all of them. -/
def recordedCalls (cfg : Config) (m : Maps cap) (cs : List CompletedCall) : Nat :=
  cs.countP fun c => c.address ∈ (cs.foldl (callStep cfg) m).allocs

/-- The blocks of the calls are fresh: not recorded before, and all different. -/
def FreshBlocks (m : Maps cap) (cs : List CompletedCall) : Prop :=
  (∀ c ∈ cs, c.address ∉ m.allocs) ∧ (cs.map CompletedCall.address).Nodup

theorem accepted_iff_sampled {cfg : Config} (hrate : 1 ≤ cfg.sampleRate) {pid : Pid}
    {c : CompletedCall} (hc : c.Wanted cfg pid) :
    Accepted cfg c.enterEnv c.call.size ↔ c.Sampled cfg := by
  obtain ⟨rfl, hsize, hpid⟩ := hc
  have hone : cfg.sampleRate ≤ 1 → c.Sampled cfg := by
    intro h
    have heq : cfg.sampleRate = 1 := BitVec.le_antisymm h hrate
    rw [CompletedCall.Sampled, heq]
    exact BitVec.umod_one
  rw [Accepted, and_iff_right hsize, and_iff_left hpid]
  exact ⟨fun h => h.elim hone id, Or.inr⟩

/-- A call of a sequence stores its block if it is sampled, and changes nothing otherwise. -/
theorem callStep_eq {cfg : Config} (hrate : 1 ≤ cfg.sampleRate) {pid : Pid} {m : Maps cap}
    {c : CompletedCall} (hm : m.Idle pid) (hc : c.Wanted cfg pid) (hfree : FreesNothing m c) :
    callStep cfg m c = if c.Sampled cfg then m.track c.address c.record else m := by
  have hidle : m.Idle c.enterEnv.pid := hc.1 ▸ hm
  rw [callStep, run_events hidle hfree]
  exact if_congr (accepted_iff_sampled hrate hc) rfl rfl

/-- What the steps of a sequence of calls have in common. -/
structure CallsOk (cfg : Config) (pid : Pid) (m : Maps cap) (cs : List CompletedCall) : Prop where
  idle : m.Idle pid
  wanted : ∀ c ∈ cs, c.Wanted cfg pid
  freesNothing : Run.Along (callStep cfg) FreesNothing m cs

theorem CallsOk.tail {cfg : Config} {pid : Pid} {m : Maps cap} {c : CompletedCall}
    {cs : List CompletedCall} (h : CallsOk cfg pid m (c :: cs)) :
    CallsOk cfg pid (callStep cfg m c) cs := by
  obtain ⟨hidle, hwanted, hfree, hrest⟩ := h
  obtain ⟨hc, hcs⟩ := List.forall_mem_cons.mp hwanted
  refine ⟨?_, hcs, hrest⟩
  obtain rfl := hc.1
  exact Maps.Idle.run_events hidle hfree

/-- Calls that return other blocks keep a block as it is. -/
theorem mem_foldl_callStep {cfg : Config} (hrate : 1 ≤ cfg.sampleRate) {pid : Pid} {m : Maps cap}
    {cs : List CompletedCall} (h : CallsOk cfg pid m cs) {a : U64}
    (ha : ∀ c ∈ cs, a ≠ c.address) :
    a ∈ (cs.foldl (callStep cfg) m).allocs ↔ a ∈ m.allocs := by
  induction cs generalizing m with
  | nil => rfl
  | cons c cs ih =>
      obtain ⟨hac, hacs⟩ := List.forall_mem_cons.mp ha
      rw [List.foldl_cons, ih h.tail hacs,
        callStep_eq hrate h.idle (h.wanted c List.mem_cons_self) h.freesNothing.1]
      split
      case isTrue =>
        rw [track_allocs, BoundedMap.mem_iff, BoundedMap.mem_iff, BoundedMap.lookup_put_of_ne hac]
      case isFalse => rfl

theorem freshBlocks_cons {m : Maps cap} {c : CompletedCall} {cs : List CompletedCall} :
    FreshBlocks m (c :: cs) ↔
      c.address ∉ m.allocs ∧ (∀ d ∈ cs, c.address ≠ d.address) ∧ FreshBlocks m cs := by
  unfold FreshBlocks
  rw [List.forall_mem_cons, List.map_cons, List.nodup_cons]
  have hnot : c.address ∉ cs.map CompletedCall.address ↔ ∀ d ∈ cs, c.address ≠ d.address := by
    simp [eq_comm]
  rw [hnot]
  tauto

/-- What a call of a sequence does to `allocs`: it takes a slot exactly if it is sampled and
there is one. -/
theorem allocs_callStep {cfg : Config} (hrate : 1 ≤ cfg.sampleRate) {pid : Pid} {m : Maps cap}
    {c : CompletedCall} (hm : m.Idle pid) (hc : c.Wanted cfg pid) (hfree : FreesNothing m c)
    (hnew : c.address ∉ m.allocs) :
    (c.Sampled cfg ∧ m.allocs.size < cap.allocs ∧
        (callStep cfg m c).allocs.size = m.allocs.size + 1 ∧
        ∀ a, a ∈ (callStep cfg m c).allocs ↔ a = c.address ∨ a ∈ m.allocs) ∨
      ((¬ c.Sampled cfg ∨ m.allocs.size = cap.allocs) ∧
        (callStep cfg m c).allocs = m.allocs) := by
  rw [callStep_eq hrate hm hc hfree]
  by_cases hsampled : c.Sampled cfg
  · rw [if_pos hsampled, track_allocs]
    rcases Nat.lt_or_eq_of_le m.allocs.size_le with hlt | hfull
    · have hroom : m.allocs.HasRoom c.address := .of_size_lt hlt _
      exact Or.inl ⟨hsampled, hlt, BoundedMap.size_put_of_not_mem hnew hroom,
        fun a => BoundedMap.mem_put hroom⟩
    · have hroom : ¬ m.allocs.HasRoom c.address := fun h =>
        h.elim hnew fun hlt => absurd hfull (Nat.ne_of_lt hlt)
      exact Or.inr ⟨Or.inr hfull, BoundedMap.put_of_not_room hroom⟩
  · rw [if_neg hsampled]
    exact Or.inr ⟨Or.inl hsampled, rfl⟩

/-- **The number of recorded calls** is the number of those whose enter falls on a multiple of
the rate, or the room left in `allocs` if that is less. -/
theorem recordedCalls_eq {cfg : Config} (hrate : 1 ≤ cfg.sampleRate) {pid : Pid} {m : Maps cap}
    {cs : List CompletedCall} (h : CallsOk cfg pid m cs) (hfresh : FreshBlocks m cs) :
    recordedCalls cfg m cs =
      min (cs.countP fun c => c.Sampled cfg) (cap.allocs - m.allocs.size) := by
  induction cs generalizing m with
  | nil => rfl
  | cons c cs ih =>
      obtain ⟨hnew, hnot, hcs⟩ := freshBlocks_cons.mp hfresh
      have hrest := ih h.tail
      have hhead := mem_foldl_callStep hrate h.tail hnot
      have hcount : recordedCalls cfg m (c :: cs) =
          recordedCalls cfg (callStep cfg m c) cs +
            if c.address ∈ (callStep cfg m c).allocs then 1 else 0 := by
        show (c :: cs).countP
          (fun d => d.address ∈ (cs.foldl (callStep cfg) (callStep cfg m c)).allocs) = _
        rw [List.countP_cons]
        simp only [recordedCalls, decide_eq_true_eq, hhead]
      rw [hcount, List.countP_cons]
      rcases allocs_callStep hrate h.idle (h.wanted c List.mem_cons_self) h.freesNothing.1 hnew
        with ⟨hsampled, hlt, hsize, hmem⟩ | ⟨hnone, hsame⟩
      · have hfresh' : FreshBlocks (callStep cfg m c) cs :=
          ⟨fun d hd => by simp [hmem, (hnot d hd).symm, hcs.1 d hd], hcs.2⟩
        rw [hrest hfresh', hsize, if_pos ((hmem _).mpr (Or.inl rfl)), if_pos (by simp [hsampled])]
        omega
      · have hfresh' : FreshBlocks (callStep cfg m c) cs := ⟨hsame ▸ hcs.1, hcs.2⟩
        rw [hrest hfresh', hsame, if_neg hnew]
        rcases hnone with hnot | hfull
        · simp [hnot]
        · omega

/-! ### One in `N` -/

/-- `k` of `m` is one in `n`, rounded either way. -/
def OneIn (n m k : Nat) : Prop := k = m / n ∨ k = (m + n - 1) / n

instance (n m k : Nat) : Decidable (OneIn n m k) := inferInstanceAs (Decidable (_ ∨ _))

/-- A `malloc` call of process 7 at a moment. -/
def mallocAt (ktime address : U64) (h : address ≠ 0) : CompletedCall where
  call := .libc (.malloc 100)
  enterEnv := { Env.quiet 0x700000007 3 with ktimeEnter := ktime }
  exitEnv := Env.quiet 0x700000007 3
  address := address
  samePid := rfl
  address_ne := h
  readable := fun _ _ _ hcall => by cases hcall

theorem Maps.idle_empty (pid : Pid) : (Maps.empty : Maps .source).Idle pid where
  sizes := BoundedMap.lookup_empty _
  memptrs := BoundedMap.lookup_empty _
  sizesRoom := .of_size_lt (by decide) _
  memptrsRoom := .of_size_lt (by decide) _

end EbpfMemleak
