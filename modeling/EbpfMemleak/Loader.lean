import EbpfMemleak.Concurrent.Filters
import EbpfMemleak.Noninterference
import EbpfMemleak.Ledger

/-!
# EbpfMemleak.Loader

**From the command line to the running programs.** `main.go` parses the flags, `loadObjects`
writes them into the `const volatile` globals of the BPF object before it is loaded, and
`attachPrograms` hooks some of its programs up: the `malloc`, `calloc`, `realloc` and `free`
of one process if a positive pid is given, the `kmalloc` and `kfree` tracepoints otherwise.

A flag with value zero is not written, so the initial value of the global stays: a `-max-size`
of zero is no bound at all. The pid is cut to an `int32`. What the loaded programs then record
is said in terms of the flags (`flags_hold_for_records`).

What the `cilium/ebpf` package answers is a parameter: any write, the load and any attachment
may fail.
-/

namespace EbpfMemleak

/-! ### Flags and globals -/

/-- Go's `int`. -/
abbrev GoInt := BitVec 64

/-- The flags of the command line, with their defaults. -/
structure Flags where
  pid : GoInt := 0
  minSize : U64 := 0
  maxSize : U64 := -1
  pageSize : U64 := 4096
  sampleRate : U64 := 1
  traceAll : Bool := false
  waMissingFree : Bool := false
  nTopStacks : Int := 3

/-- `unix.BPF_F_USER_STACK`. -/
def bpfFUserStack : U64 := 0x100

/-- `stackFlag` of `main`. -/
def Flags.stackFlag (F : Flags) : U64 := if F.pid = 0 then 0 else bpfFUserStack

/-- The `const volatile` globals of `memleak.bpf.c`, with their initial values. -/
@[ext] structure Globals where
  minSize : U64 := 0
  maxSize : U64 := -1
  pageSize : U64 := 4096
  sampleRate : U64 := 0
  traceAll : Bool := false
  stackFlags : U64 := 0
  waMissingFree : Bool := false
  targetPid : Pid := 0

/-- What the programs read, given the answer of CO-RE. -/
def Globals.config (g : Globals) (hasKmemAllocNode : Bool) : Config where
  minSize := g.minSize
  maxSize := g.maxSize
  pageSize := g.pageSize
  sampleRate := g.sampleRate
  waMissingFree := g.waMissingFree
  targetPid := g.targetPid
  hasKmemAllocNode := hasKmemAllocNode

/-! ### Loading -/

/-- The names under which `loadObjects` finds the globals. -/
inductive Variable
  | targetPid
  | minSize
  | maxSize
  | pageSize
  | sampleRate
  | traceAll
  | stackFlags
  | waMissingFree

/-- The errors of `loadProbe`, of `Set` and of `LoadAndAssign`. -/
structure Loading where
  loadProbe : Option String
  set : Variable → Option String
  loadAndAssign : Option String

/-- An error, if there is one. -/
def failWith : Option String → Except String Unit
  | none => .ok ()
  | some err => .error err

/-- `if given { if err := spec.Variables[name].Set(..); err != nil { return err } }`. -/
def setVariable (answers : Loading) (name : Variable) (given : Prop) [Decidable given]
    (write : Globals → Globals) (g : Globals) : Except String Globals :=
  if given then do
    failWith (answers.set name)
    return write g
  else return g

/-- `loadObjects`: the globals of the loaded programs. -/
def loadObjects (answers : Loading) (pid : GoInt) (minSize maxSize pageSize sampleRate : U64)
    (traceAll : Bool) (stackFlags : U64) (waMissingFree : Bool) : Except String Globals := do
  failWith answers.loadProbe
  let g ← setVariable answers .targetPid (0 < pid.toInt)
    (fun g => { g with targetPid := pid.setWidth 32 }) {}
  let g ← setVariable answers .minSize (0 < minSize) (fun g => { g with minSize := minSize }) g
  let g ← setVariable answers .maxSize (0 < maxSize) (fun g => { g with maxSize := maxSize }) g
  let g ← setVariable answers .pageSize (0 < pageSize) (fun g => { g with pageSize := pageSize }) g
  let g ← setVariable answers .sampleRate (0 < sampleRate)
    (fun g => { g with sampleRate := sampleRate }) g
  let g ← setVariable answers .traceAll (traceAll = true) (fun g => { g with traceAll := true }) g
  let g ← setVariable answers .stackFlags (0 < stackFlags)
    (fun g => { g with stackFlags := stackFlags }) g
  let g ← setVariable answers .waMissingFree (waMissingFree = true)
    (fun g => { g with waMissingFree := true }) g
  failWith answers.loadAndAssign
  return g

/-- `loadObjects` as `main` and `Run` call it. -/
def Flags.load (F : Flags) (answers : Loading) : Except String Globals :=
  loadObjects answers F.pid F.minSize F.maxSize F.pageSize F.sampleRate F.traceAll F.stackFlag
    F.waMissingFree

/-- A successful run of two actions is one of each. -/
theorem exists_of_bind_eq_ok {ε α β : Type} {x : Except ε α} {f : α → Except ε β} {b : β}
    (h : x >>= f = .ok b) : ∃ a, x = .ok a ∧ f a = .ok b := by
  cases x with
  | error err => cases h
  | ok a => exact ⟨a, rfl, h⟩

theorem setVariable_eq_ok {answers : Loading} {name : Variable} {given : Prop} [Decidable given]
    {write : Globals → Globals} {g g' : Globals}
    (h : setVariable answers name given write g = .ok g') :
    g' = if given then write g else g := by
  unfold setVariable at h
  split at h
  case isTrue hgiven =>
    obtain ⟨-, -, hwrite⟩ := exists_of_bind_eq_ok h
    rw [if_pos hgiven]
    exact (Except.ok.inj hwrite).symm
  case isFalse hgiven =>
    rw [if_neg hgiven]
    exact (Except.ok.inj h).symm

/-- A flag that is written, or left at the initial value zero. -/
theorem ite_pos_self (x : U64) : (if 0 < x then x else 0) = x := by
  split
  case isTrue => rfl
  case isFalse hzero => exact (BitVec.le_zero_iff.mp (BitVec.not_lt.mp hzero)).symm

/-- **What a load leaves in the globals.** A zero flag leaves the initial value. -/
theorem load_eq_ok {F : Flags} {answers : Loading} {g : Globals} (h : F.load answers = .ok g) :
    g = { targetPid := if 0 < F.pid.toInt then F.pid.setWidth 32 else 0
          minSize := F.minSize
          maxSize := if 0 < F.maxSize then F.maxSize else -1
          pageSize := if 0 < F.pageSize then F.pageSize else 4096
          sampleRate := F.sampleRate
          traceAll := F.traceAll
          stackFlags := F.stackFlag
          waMissingFree := F.waMissingFree } := by
  obtain ⟨_, -, h⟩ := exists_of_bind_eq_ok h
  obtain ⟨g₁, h₁, h⟩ := exists_of_bind_eq_ok h
  obtain ⟨g₂, h₂, h⟩ := exists_of_bind_eq_ok h
  obtain ⟨g₃, h₃, h⟩ := exists_of_bind_eq_ok h
  obtain ⟨g₄, h₄, h⟩ := exists_of_bind_eq_ok h
  obtain ⟨g₅, h₅, h⟩ := exists_of_bind_eq_ok h
  obtain ⟨g₆, h₆, h⟩ := exists_of_bind_eq_ok h
  obtain ⟨g₇, h₇, h⟩ := exists_of_bind_eq_ok h
  obtain ⟨g₈, h₈, h⟩ := exists_of_bind_eq_ok h
  obtain ⟨_, -, h⟩ := exists_of_bind_eq_ok h
  obtain rfl := Except.ok.inj h
  obtain rfl := setVariable_eq_ok h₁
  obtain rfl := setVariable_eq_ok h₂
  obtain rfl := setVariable_eq_ok h₃
  obtain rfl := setVariable_eq_ok h₄
  obtain rfl := setVariable_eq_ok h₅
  obtain rfl := setVariable_eq_ok h₆
  obtain rfl := setVariable_eq_ok h₇
  obtain rfl := setVariable_eq_ok h₈
  -- every global is written at most once
  ext1
  · simp only [apply_ite Globals.minSize, ite_self, ite_pos_self]
  · simp only [apply_ite Globals.maxSize, ite_self]
  · simp only [apply_ite Globals.pageSize, ite_self]
  · simp only [apply_ite Globals.sampleRate, ite_self, ite_pos_self]
  · simp only [apply_ite Globals.traceAll, ite_self]
    cases F.traceAll <;> rfl
  · simp only [apply_ite Globals.stackFlags, ite_self, ite_pos_self]
  · simp only [apply_ite Globals.waMissingFree, ite_self]
    cases F.waMissingFree <;> rfl
  · simp only [apply_ite Globals.targetPid, ite_self]

/-! ### The filters of the flags -/

section Filters

variable {F : Flags} {answers : Loading} {g : Globals}

/-- A pid that fits an `int32` is the target. -/
theorem setWidth_pid {pid : GoInt} (hpos : 0 < pid.toInt) (hfits : pid.toInt < 2 ^ 31) :
    (pid.setWidth 32).toNat = pid.toNat ∧ pid.setWidth 32 ≠ 0 := by
  rw [BitVec.toInt_eq_toNat_cond] at hpos hfits
  have hlt := pid.isLt
  have htoNat : (pid.setWidth 32).toNat = pid.toNat := by
    rw [BitVec.toNat_setWidth]
    split at hpos <;> omega
  refine ⟨htoNat, fun hzero => ?_⟩
  rw [hzero] at htoNat
  split at hpos <;> simp at htoNat <;> omega

theorem le_maxSize_iff (hload : F.load answers = .ok g) {size : U64} :
    size ≤ g.maxSize ↔ (F.maxSize ≠ 0 → size ≤ F.maxSize) := by
  have hmax : g.maxSize = if 0 < F.maxSize then F.maxSize else -1 :=
    congrArg Globals.maxSize (load_eq_ok hload)
  rw [hmax]
  by_cases hzero : F.maxSize = 0
  · have hall : size ≤ (-1 : U64) := Nat.le_of_lt_succ size.isLt
    rw [hzero, if_neg (by decide)]
    exact iff_of_true hall fun hne => absurd rfl hne
  · have hpos : 0 < F.maxSize := BitVec.not_le.mp fun hle => hzero (BitVec.le_zero_iff.mp hle)
    rw [if_pos hpos]
    exact (imp_iff_right hzero).symm

variable {n : Nat} {ε ι : Type} [DecidableEq ε] [DecidableEq ι]

/-- **The flags hold for everything recorded**, whatever the interleaving: a record is at least
`-min-size` and, unless that is zero, at most `-max-size` bytes, and it was stored by an exit
of the process `-pid`, if one is given and fits an `int32`. A `-max-size` below `-min-size`
records nothing. -/
theorem flags_hold_for_records (hload : F.load answers = .ok g) (hasKmemAllocNode : Bool)
    (events : ι → List Event) (sched : List (ι × ε)) :
    let cfg := g.config hasKmemAllocNode
    let c : System n ε ι := systemRun cfg events sched
    (∀ address info, c.shared.allocs.get address = some info →
      F.minSize ≤ info.size ∧ (F.maxSize ≠ 0 → info.size ≤ F.maxSize) ∧
        ∃ pid, StoredBy n cfg events sched address info pid ∧
          (0 < F.pid.toInt → F.pid.toInt < 2 ^ 31 → pid.toNat = F.pid.toNat)) ∧
    (F.maxSize ≠ 0 → F.maxSize < F.minSize → ∀ address, c.shared.allocs.get address = none) := by
  intro cfg c
  have hmin : g.minSize = F.minSize := congrArg Globals.minSize (load_eq_ok hload)
  have htarget : g.targetPid = if 0 < F.pid.toInt then F.pid.setWidth 32 else 0 :=
    congrArg Globals.targetPid (load_eq_ok hload)
  have hsized : ∀ address info, c.shared.allocs.get address = some info →
      F.minSize ≤ info.size ∧ (F.maxSize ≠ 0 → info.size ≤ F.maxSize) := by
    intro address info hget
    obtain ⟨⟨hlow, hhigh⟩, -⟩ :=
      (filtered_systemRun cfg events sched).shared.allocs address info hget
    exact ⟨hmin ▸ hlow, (le_maxSize_iff hload).mp hhigh⟩
  refine ⟨fun address info hget => ?_, fun hmax hempty address => ?_⟩
  · obtain ⟨pid, hstored, htargets⟩ := exists_storedBy hget
    refine ⟨(hsized address info hget).1, (hsized address info hget).2, pid, hstored,
      fun hpos hfits => ?_⟩
    obtain ⟨htoNat, hne⟩ := setWidth_pid hpos hfits
    have htargetPid : cfg.targetPid = F.pid.setWidth 32 := htarget.trans (if_pos hpos)
    rw [htargets (by rw [htargetPid]; exact hne), htargetPid, htoNat]
  · refine Option.eq_none_iff_forall_ne_some.mpr fun info hget => ?_
    obtain ⟨hlow, hhigh⟩ := hsized address info hget
    have hle := BitVec.le_def.mp (hhigh hmax)
    have hlt := BitVec.lt_def.mp hempty
    have hge := BitVec.le_def.mp hlow
    omega

end Filters

/-- `-pid 7 -min-size 64`, and a block of 100 bytes. -/
theorem flags_hold_for_records_pid :
    let F : Flags := { pid := 7, minSize := 64 }
    let p : Env := .quiet 0x700000007 3
    let events : Fin 1 → List Event := fun _ => [⟨p, .mallocEnter 100⟩, ⟨p, .mallocExit 0x1000⟩]
    let sched : List (Fin 1 × Fin 1) := List.replicate 16 (0, 0)
    ∃ g, F.load ⟨none, fun _ => none, none⟩ = .ok g ∧ ∃ info pid,
      (systemRun (g.config false) events sched : System 4 (Fin 1) (Fin 1)).shared.allocs.get
          0x1000 = some info ∧
        64 ≤ info.size ∧ StoredBy 4 (g.config false) events sched 0x1000 info pid ∧
        pid.toNat = 7 := by
  intro F p events sched
  let g : Globals := { targetPid := 7, minSize := 64, sampleRate := 1, stackFlags := 0x100 }
  have hload : F.load ⟨none, fun _ => none, none⟩ = .ok g := by rfl
  have hget : (systemRun (g.config false) events sched :
      System 4 (Fin 1) (Fin 1)).shared.allocs.get 0x1000 = some ⟨100, 0, 3⟩ := by decide +kernel
  obtain ⟨hlow, -, pid, hstored, hpid⟩ :=
    (flags_hold_for_records hload false events sched).1 _ _ hget
  exact ⟨g, hload, _, pid, hget, hlow, hstored, hpid (by decide) (by decide)⟩

/-! ### Attaching -/

/-- A place a program is hooked to. -/
inductive Hook
  | uprobe (symbol : String)
  | uretprobe (symbol : String)
  | tracepoint (group name : String)
  deriving DecidableEq

/-- The programs of `bpfObjects` that `attachPrograms` uses. -/
inductive ProgramName
  | mallocEnter
  | mallocExit
  | freeEnter
  | callocEnter
  | callocExit
  | reallocEnter
  | reallocExit
  | memleakKmalloc
  | memleakKfree
  deriving DecidableEq

/-- The hooks for a positive pid, in the order of the source. -/
def userHooks : List (Hook × ProgramName) :=
  [(.uprobe "malloc", .mallocEnter), (.uretprobe "malloc", .mallocExit),
    (.uprobe "free", .freeEnter), (.uprobe "calloc", .callocEnter),
    (.uretprobe "calloc", .callocExit), (.uprobe "realloc", .reallocEnter),
    (.uretprobe "realloc", .reallocExit)]

/-- The hooks otherwise. -/
def kernelHooks : List (Hook × ProgramName) :=
  [(.tracepoint "kmem" "kmalloc", .memleakKmalloc), (.tracepoint "kmem" "kfree", .memleakKfree)]

/-- The hooks `attachPrograms` makes for a pid. -/
def hooksFor (pid : GoInt) : List (Hook × ProgramName) :=
  if 0 < pid.toInt then userHooks else kernelHooks

/-- The name of a program that may be hooked up. -/
def Program.name : Program → Option ProgramName
  | .mallocEnter _ => some .mallocEnter
  | .mallocExit _ => some .mallocExit
  | .freeEnter _ => some .freeEnter
  | .callocEnter _ _ => some .callocEnter
  | .callocExit _ => some .callocExit
  | .reallocEnter _ _ => some .reallocEnter
  | .reallocExit _ => some .reallocExit
  | .kmalloc _ _ => some .memleakKmalloc
  | .kfree _ => some .memleakKfree
  | _ => none

/-- The program of an event is hooked up. -/
def Attached (pid : GoInt) (ev : Event) : Prop :=
  ∃ hook ∈ hooksFor pid, ev.program.name = some hook.2

instance (pid : GoInt) (ev : Event) : Decidable (Attached pid ev) := List.decidableBEx _ _

/-- Without a positive pid they are two tracepoints. -/
theorem kernel_of_attached {pid : GoInt} (hpid : ¬ 0 < pid.toInt) {ev : Event}
    (h : Attached pid ev) : (∃ ptr bytesAlloc, ev.program = .kmalloc ptr bytesAlloc) ∨
      ∃ ptr, ev.program = .kfree ptr := by
  simp only [Attached, hooksFor, if_neg hpid] at h
  obtain ⟨env, program⟩ := ev
  cases program <;> simp_all [Program.name, kernelHooks]

/-! ### What the attached programs leave pending -/

section Pending

variable {cap : Capacities} {F : Flags} {answers : Loading} {g : Globals}

/-- `memptrs` is for `posix_memalign` alone. -/
theorem memptrsAfter_of_attached {pid : GoInt} {ev : Event} (h : Attached pid ev)
    (m : Maps cap) : ev.memptrsAfter m = m.memptrs := by
  obtain ⟨env, program⟩ := ev
  cases program with
  | posixMemalignEnter => obtain ⟨hook, -, hname⟩ := h; cases hname
  | posixMemalignExit => obtain ⟨hook, -, hname⟩ := h; cases hname
  | _ => rfl

/-- A slab handler takes back the size it stores. -/
theorem sizes_handle_of_kernel {pid : GoInt} (hpid : ¬ 0 < pid.toInt) {ev : Event}
    (h : Attached pid ev) (cfg : Config) {m : Maps cap} (hm : m.sizes = .empty) :
    (handle cfg m ev).sizes = .empty := by
  rw [handle_eq, exitPhase_sizes, beforeExit_sizes, hm]
  rcases kernel_of_attached hpid h with ⟨ptr, bytesAlloc, hprogram⟩ | ⟨ptr, hprogram⟩
  · simp only [Event.calls, hprogram, slabCalls, Option.elim_some]
    split
    case isTrue => exact BoundedMap.erase_put (BoundedMap.not_mem_empty _) _
    case isFalse => exact BoundedMap.erase_of_not_mem (BoundedMap.not_mem_empty _)
  · simp only [Event.calls, hprogram, Option.elim_none]

/-- What is pending between the handlers of the attached programs. -/
structure PendingOk (pid : GoInt) (cfg : Config) (m : Maps cap) : Prop where
  memptrs : m.memptrs = .empty
  kernel : ¬ 0 < pid.toInt → m.sizes = .empty
  user : cfg.targetPid ≠ 0 → ∀ pid, pid ≠ cfg.targetPid → m.sizes.lookup pid = none

theorem PendingOk.handle {pid : GoInt} {cfg : Config} {m : Maps cap} (h : PendingOk pid cfg m)
    {ev : Event} (hev : Attached pid ev) : PendingOk pid cfg (handle cfg m ev) where
  memptrs := by rw [handle_memptrs, memptrsAfter_of_attached hev, h.memptrs]
  kernel hpid := sizes_handle_of_kernel hpid hev cfg (h.kernel hpid)
  user htarget := sizes_handle_of_foreign htarget (h.user htarget) ev

theorem pendingOk_run {pid : GoInt} (cfg : Config) {evs : List Event}
    (hevs : ∀ ev ∈ evs, Attached pid ev) :
    PendingOk pid cfg (run cfg (Maps.empty : Maps cap) evs) :=
  Run.foldl_invariant (fun _ _ h hev => h.handle hev)
    ⟨rfl, fun _ => rfl, fun _ _ _ => BoundedMap.lookup_empty _⟩ (Run.along_iff_forall_mem.mpr hevs)

/-- **What is pending never fills a map.** Between the handlers of the attached programs
`memptrs` is empty, and `sizes` has no entry if the kernel is traced and at most one if a
process is. So the only maps that can get full are `allocs` and `combined_allocs`. -/
theorem pending_maps_never_fill (hload : F.load answers = .ok g) (hasKmemAllocNode : Bool)
    (hfits : F.pid.toInt < 2 ^ 31) {evs : List Event} (hevs : ∀ ev ∈ evs, Attached F.pid ev) :
    let m := run (g.config hasKmemAllocNode) (Maps.empty : Maps .source) evs
    m.memptrs = .empty ∧ m.sizes.size ≤ (if 0 < F.pid.toInt then 1 else 0) ∧
      (m.NotFull ↔ m.allocs.size < Capacities.source.allocs ∧
        m.combinedAllocs.size < Capacities.source.combinedAllocs) := by
  intro m
  have hpending : PendingOk F.pid (g.config hasKmemAllocNode) m := pendingOk_run _ hevs
  obtain ⟨hmemptrs, hkernel, huser⟩ := hpending
  have hsizes : m.sizes.size ≤ if 0 < F.pid.toInt then 1 else 0 := by
    by_cases hpid : 0 < F.pid.toInt
    · have htarget : g.targetPid = F.pid.setWidth 32 :=
        (congrArg Globals.targetPid (load_eq_ok hload)).trans (if_pos hpid)
      rw [if_pos hpid]
      refine BoundedMap.size_le_one (k := g.targetPid) fun pid hmem => ?_
      by_contra hne
      have hzero : g.targetPid ≠ 0 := htarget ▸ (setWidth_pid hpid hfits).2
      exact BoundedMap.lookup_eq_none.mp (huser hzero pid hne) hmem
    · rw [if_neg hpid]
      exact (congrArg BoundedMap.size (hkernel hpid)).le
  refine ⟨hmemptrs, hsizes, ?_⟩
  have hone : m.sizes.size ≤ 1 := hsizes.trans (by split <;> decide)
  have hsome : m.memptrs.size = 0 := congrArg BoundedMap.size hmemptrs
  have hroom : m.sizes.size < Capacities.source.sizes ∧
      m.memptrs.size < Capacities.source.memptrs :=
    ⟨hone.trans_lt (by decide), hsome ▸ by decide⟩
  unfold Maps.NotFull
  tauto

end Pending

/-- The kernel is traced: a `kmalloc` and a `kfree`. -/
theorem pending_maps_never_fill_kernel :
    let evs : List Event := [⟨.quiet 0x700000007 3, .kmalloc 0x1000 64⟩,
      ⟨.quiet 0x800000008 3, .kfree 0x1000⟩]
    ∃ g, ({} : Flags).load ⟨none, fun _ => none, none⟩ = .ok g ∧
      (run (g.config false) (Maps.empty : Maps .source) evs).sizes.size ≤ 0 := by
  intro evs
  have hload : ({} : Flags).load ⟨none, fun _ => none, none⟩ = .ok { sampleRate := 1 } := by rfl
  have hpending := @pending_maps_never_fill _ _ _ hload false (by decide) evs (by decide)
  exact ⟨_, hload, hpending.2.1⟩

end EbpfMemleak
