import EbpfMemleak.Accounting
import EbpfMemleak.Ledger

/-!
# EbpfMemleak.Handover

**Which size does an exit find?** `gen_alloc_enter` leaves the requested size in
`sizes` and `gen_alloc_exit2` picks it up. The key is the process id, although a
call belongs to a thread: `gen_alloc_enter` even computes the thread id, only to
print it. Two threads of one process therefore share one slot. This module says
exactly which exits find the size of their own call.

`threadsOf` follows every thread's own call, `pendingSize` follows the slot of a
process: the last enter that passed the filters or exit of that process decides
what is in it (`lookup_sizes_eq_pendingSize`). An exit is attributed correctly
(`SizeAttributed`) exactly when the slot was handed over to it (`HandedOver`).
-/

namespace EbpfMemleak

variable {cap : Capacities}

/-! ### The calls of the threads -/

/-- The allocation functions with a probe pair attached to a pid. -/
inductive LibcFn
  | malloc
  | calloc
  | realloc
  deriving DecidableEq

/-- The function an enter probe belongs to and the size it hands to
`gen_alloc_enter`. -/
def Program.enters : Program → Option (LibcFn × U64)
  | .mallocEnter size => some (.malloc, size)
  | .callocEnter nmemb size => some (.calloc, nmemb * size)
  | .reallocEnter _ size => some (.realloc, size)
  | _ => none

/-- The function an exit probe belongs to and the address it returns. -/
def Program.exits : Program → Option (LibcFn × U64)
  | .mallocExit rc => some (.malloc, rc)
  | .callocExit rc => some (.calloc, rc)
  | .reallocExit rc => some (.realloc, rc)
  | _ => none

/-- An allocation call a thread is in. -/
structure OwnCall where
  fn : LibcFn
  /-- What the helpers answered at its enter. -/
  env : Env
  /-- The size passed to its enter. -/
  size : U64

/-- The call each thread is in, by `pid_tgid`. -/
abbrev Threads := U64 → Option OwnCall

/-- One event, seen by the threads. -/
def threadStep (T : Threads) (ev : Event) : Threads :=
  match ev.program.enters, ev.program.exits with
  | some (fn, size), _ => Function.update T ev.env.pidTgid (some ⟨fn, ev.env, size⟩)
  | none, some _ => Function.update T ev.env.pidTgid none
  | none, none => T

/-- The calls the threads are in after a list of events. -/
def threadsOf (evs : List Event) : Threads := evs.foldl threadStep fun _ => none

/-- Every thread alternates an enter and the matching exit. Frees may come
anywhere, no other program is attached. -/
def ThreadOk (T : Threads) (ev : Event) : Prop :=
  (match ev.program.enters, ev.program.exits with
    | some _, _ => (T ev.env.pidTgid).isNone
    | none, some (fn, _) => (T ev.env.pidTgid).any fun c => c.fn = fn
    | none, none => ev.program.attachedRole.isSome) = true

instance (T : Threads) (ev : Event) : Decidable (ThreadOk T ev) :=
  inferInstanceAs (Decidable (_ = true))

theorem ThreadOk.own {T : Threads} {ev : Event} (h : ThreadOk T ev) {fn : LibcFn} {rc : U64}
    (hexit : ev.program.exits = some (fn, rc)) :
    ∃ own, T ev.env.pidTgid = some own ∧ own.fn = fn := by
  obtain ⟨env, program⟩ := ev
  have henter : program.enters = none := by
    cases program <;> first | rfl | cases hexit
  unfold ThreadOk at h
  dsimp only at h hexit
  rw [henter, hexit] at h
  obtain ⟨own, hown, hfn⟩ := (Option.any_eq_true _ _).mp h
  exact ⟨own, hown, of_decide_eq_true hfn⟩

/-! ### The slot of a process -/

/-- The event writes or clears the slot of `pid`: an enter that passes the
filters, or an exit. -/
def TouchesSlot (cfg : Config) (pid : Pid) (ev : Event) : Prop :=
  ev.env.pid = pid ∧
    (ev.program.exits.isSome = true ∨ ∃ e ∈ ev.program.enters, Accepted cfg ev.env e.2)

instance (cfg : Config) (pid : Pid) (ev : Event) : Decidable (TouchesSlot cfg pid ev) :=
  have : Decidable (∃ e ∈ ev.program.enters, Accepted cfg ev.env e.2) :=
    Option.decidableExistsMem _
  inferInstanceAs (Decidable (_ ∧ (_ ∨ _)))

theorem touchesSlot_of_enter {cfg : Config} {pid : Pid} {ev : Event} {fn : LibcFn}
    {size : U64} (hexit : ev.program.exits = none)
    (henter : ev.program.enters = some (fn, size)) :
    TouchesSlot cfg pid ev ↔ ev.env.pid = pid ∧ Accepted cfg ev.env size := by
  simp [TouchesSlot, hexit, henter]

theorem touchesSlot_of_exit {cfg : Config} {pid : Pid} {ev : Event}
    (hexit : ev.program.exits.isSome = true) :
    TouchesSlot cfg pid ev ↔ ev.env.pid = pid := by
  simp [TouchesSlot, hexit]

theorem not_touchesSlot {cfg : Config} {pid : Pid} {ev : Event}
    (hexit : ev.program.exits = none) (henter : ev.program.enters = none) :
    ¬ TouchesSlot cfg pid ev := by
  simp [TouchesSlot, hexit, henter]

/-- The size pending for `pid` after a list of events: what the last of them to
touch the slot asked for, nothing if that is an exit. -/
def pendingSize (cfg : Config) (pid : Pid) (evs : List Event) : Option U64 :=
  ((evs.filter fun ev => TouchesSlot cfg pid ev).getLast?.map fun ev =>
    ev.program.enters.map Prod.snd).getD none

theorem lookup_sizes_genAllocEnter {cfg : Config} {env : Env} {size : U64} {m : Maps cap}
    (hroom : m.sizes.HasRoom env.pid) (pid : Pid) :
    (genAllocEnter cfg env size m).sizes.lookup pid =
      if env.pid = pid ∧ Accepted cfg env size then some size else m.sizes.lookup pid := by
  rw [genAllocEnter_sizes]
  by_cases hacc : Accepted cfg env size
  · rw [if_pos hacc, BoundedMap.lookup_put hroom]
    by_cases heq : pid = env.pid
    · rw [if_pos heq, if_pos ⟨heq.symm, hacc⟩]
    · rw [if_neg heq, if_neg fun h => heq h.1.symm]
  · rw [if_neg hacc, if_neg fun h => hacc h.2]

theorem lookup_sizes_genAllocExit2 (env : Env) (address : U64) (m : Maps cap) (pid : Pid) :
    (genAllocExit2 env address m).sizes.lookup pid =
      if env.pid = pid then none else m.sizes.lookup pid := by
  rw [genAllocExit2_sizes, BoundedMap.lookup_erase]
  by_cases heq : pid = env.pid
  · rw [if_pos heq, if_pos heq.symm]
  · rw [if_neg heq, if_neg fun h => heq h.symm]

theorem handle_sizes_of_enters {cfg : Config} {m : Maps cap} {ev : Event} {fn : LibcFn}
    {size : U64} (h : ev.program.enters = some (fn, size)) :
    ev.program.exits = none ∧
      (handle cfg m ev).sizes = (genAllocEnter cfg ev.env size m).sizes := by
  obtain ⟨env, program⟩ := ev
  cases program with
  | mallocEnter size' =>
      obtain ⟨-, rfl⟩ := Prod.mk.inj (Option.some.inj h)
      exact ⟨rfl, rfl⟩
  | callocEnter nmemb size' =>
      obtain ⟨-, rfl⟩ := Prod.mk.inj (Option.some.inj h)
      exact ⟨rfl, rfl⟩
  | reallocEnter ptr size' =>
      obtain ⟨-, rfl⟩ := Prod.mk.inj (Option.some.inj h)
      refine ⟨rfl, ?_⟩
      show (genAllocEnter cfg env size' (genFreeEnter ptr m)).sizes = _
      rw [genAllocEnter_sizes, genAllocEnter_sizes, genFreeEnter_sizes]
  | _ => cases h

theorem handle_of_exits {cfg : Config} {m : Maps cap} {ev : Event} {fn : LibcFn} {rc : U64}
    (h : ev.program.exits = some (fn, rc)) : handle cfg m ev = genAllocExit2 ev.env rc m := by
  obtain ⟨env, program⟩ := ev
  cases program with
  | mallocExit rc' => obtain ⟨-, rfl⟩ := Prod.mk.inj (Option.some.inj h); rfl
  | callocExit rc' => obtain ⟨-, rfl⟩ := Prod.mk.inj (Option.some.inj h); rfl
  | reallocExit rc' => obtain ⟨-, rfl⟩ := Prod.mk.inj (Option.some.inj h); rfl
  | _ => cases h

/-- An attached program that is neither an enter nor an exit is `free_enter`. -/
theorem handle_sizes_of_free {cfg : Config} {m : Maps cap} {ev : Event}
    (hattached : ev.program.attachedRole.isSome = true) (henter : ev.program.enters = none)
    (hexit : ev.program.exits = none) : (handle cfg m ev).sizes = m.sizes := by
  obtain ⟨env, program⟩ := ev
  cases program with
  | freeEnter address => exact genFreeEnter_sizes address m
  | mallocEnter | callocEnter | reallocEnter => cases henter
  | mallocExit | callocExit | reallocExit => cases hexit
  | _ => cases hattached

/-- One event of an attached program, seen by the slot of `pid`. -/
theorem lookup_sizes_handle {cfg : Config} {m : Maps cap} {ev : Event}
    (hroom : m.sizes.HasRoom ev.env.pid) (hattached : ev.program.attachedRole.isSome = true)
    (pid : Pid) :
    (handle cfg m ev).sizes.lookup pid =
      if TouchesSlot cfg pid ev then ev.program.enters.map Prod.snd
      else m.sizes.lookup pid := by
  cases henter : ev.program.enters with
  | some call =>
      obtain ⟨fn, size⟩ := call
      obtain ⟨hexit, hsizes⟩ := @handle_sizes_of_enters cap cfg m ev fn size henter
      rw [hsizes, lookup_sizes_genAllocEnter hroom]
      exact if_congr (touchesSlot_of_enter hexit henter).symm rfl rfl
  | none =>
      cases hexit : ev.program.exits with
      | some call =>
          obtain ⟨fn, rc⟩ := call
          rw [handle_of_exits hexit, lookup_sizes_genAllocExit2]
          exact if_congr (touchesSlot_of_exit (by rw [hexit]; rfl)).symm rfl rfl
      | none =>
          rw [handle_sizes_of_free hattached henter hexit,
            if_neg (not_touchesSlot hexit henter)]

theorem ThreadOk.attached {T : Threads} {ev : Event} (h : ThreadOk T ev) :
    ev.program.attachedRole.isSome = true := by
  obtain ⟨env, program⟩ := ev
  cases program <;> first | rfl | exact h

/-- The slot of a process holds what the events say is pending. -/
theorem lookup_sizes_eq_pendingSize {cfg : Config} {evs : List Event}
    (hfull : Run.Along (handle cfg) (fun m _ => m.NotFull) (Maps.empty : Maps cap) evs)
    (hthreads : Run.Along threadStep ThreadOk (fun _ => none) evs) (pid : Pid) :
    (run cfg (Maps.empty : Maps cap) evs).sizes.lookup pid = pendingSize cfg pid evs := by
  have hattached : ∀ ev ∈ evs, ev.program.attachedRole.isSome = true :=
    Run.along_iff_forall_mem.mp (hthreads.imp fun _ _ h => h.attached)
  refine Run.foldl_last (f := fun m : Maps cap => m.sizes.lookup pid) (fun m ev h => ?_)
    (hfull.and (Run.along_iff_forall_mem.mpr hattached))
  exact lookup_sizes_handle (.of_size_lt h.1.1 _) h.2 pid

/-! ### Attribution -/

/-- The exit of `own` has returned `rc`: if the enter passed the filters, the block
is recorded with the size the thread asked for, and otherwise nothing happens. -/
def SizeAttributed (cfg : Config) (m : Maps cap) (ev : Event) (rc : U64) (own : OwnCall) :
    Prop :=
  if Accepted cfg own.env own.size then
    ((handle cfg m ev).allocs.lookup rc).map AllocInfo.size = some own.size
  else
    (handle cfg m ev).allocs = m.allocs ∧ (handle cfg m ev).combinedAllocs = m.combinedAllocs

/-- The slot of the process was handed over to the exit of `own`: the last event
to touch it was an enter for the same size, or, where the own enter was rejected,
no size is left in it. Where the slot was emptied by another thread, only a stale
record of the same address and size remains to stand for the block. -/
def HandedOver (cfg : Config) (pre : List Event) (m : Maps cap) (pid : Pid) (rc : U64)
    (own : OwnCall) : Prop :=
  match pendingSize cfg pid pre with
  | some size => Accepted cfg own.env own.size ∧ size = own.size
  | none =>
      Accepted cfg own.env own.size →
        (m.allocs.lookup rc).map AllocInfo.size = some own.size

instance (cfg : Config) (pre : List Event) (m : Maps cap) (pid : Pid) (rc : U64)
    (own : OwnCall) : Decidable (HandedOver cfg pre m pid rc own) := by
  unfold HandedOver
  split <;> infer_instance

/-- **Size attribution, exactly.** In every interleaving of threads that alternate
an enter and the matching exit, with no map full, every exit belongs to a call of
its own thread, and an exit that returns an address is attributed to that call if
and only if the slot of the process was handed over to it. -/
theorem sizeAttributed_iff_handedOver {cfg : Config} {evs pre post : List Event} {ev : Event}
    (hfull : Run.Along (handle cfg) (fun m _ => m.NotFull) (Maps.empty : Maps cap) evs)
    (hthreads : Run.Along threadStep ThreadOk (fun _ => none) evs)
    (hsplit : evs = pre ++ ev :: post) {fn : LibcFn} {rc : U64}
    (hexit : ev.program.exits = some (fn, rc)) (hrc : rc ≠ 0) :
    let m := run cfg (Maps.empty : Maps cap) pre
    ∃ own, threadsOf pre ev.env.pidTgid = some own ∧ own.fn = fn ∧
      (SizeAttributed cfg m ev rc own ↔ HandedOver cfg pre m ev.env.pid rc own) := by
  intro m
  subst hsplit
  obtain ⟨hfull, hroom, -⟩ := (Run.along_append ..).mp hfull
  obtain ⟨hthreads, hok, -⟩ := (Run.along_append ..).mp hthreads
  obtain ⟨own, hown, hfn⟩ := hok.own hexit
  refine ⟨own, hown, hfn, ?_⟩
  have hslot : m.sizes.lookup ev.env.pid = pendingSize cfg ev.env.pid pre :=
    lookup_sizes_eq_pendingSize hfull hthreads _
  have hcomb (k : U64) : m.combinedAllocs.HasRoom k := .of_size_lt hroom.2.2.1 k
  have hallocs : m.allocs.HasRoom rc := .of_size_lt hroom.2.1 rc
  unfold SizeAttributed HandedOver
  rw [handle_of_exits hexit]
  cases hp : pendingSize cfg ev.env.pid pre with
  | none =>
      -- missed alloc entry: the exit leaves both maps alone
      rw [hp] at hslot
      rw [genAllocExit2_of_none (exitRecord_eq_none.mpr (Or.inr hslot))]
      by_cases hacc : Accepted cfg own.env own.size
      · rw [if_pos hacc]
        exact ⟨fun h _ => h, fun h => h hacc⟩
      · rw [if_neg hacc]
        exact ⟨fun _ h => absurd h hacc, fun _ => ⟨rfl, rfl⟩⟩
  | some size =>
      rw [hp] at hslot
      have hrec : exitRecord ev.env rc m = some ⟨size, ev.env.ktimeExit, ev.env.stackId⟩ :=
        exitRecord_eq_some.mpr ⟨hrc, hslot, rfl⟩
      rw [genAllocExit2_of_some hrec]
      by_cases hacc : Accepted cfg own.env own.size
      · rw [if_pos hacc, track_allocs, BoundedMap.lookup_put hallocs, if_pos rfl,
          Option.map_some, Option.some_inj]
        exact ⟨fun h => ⟨hacc, h⟩, fun h => h.2⟩
      · -- the own enter was rejected, yet another thread's size is recorded
        rw [if_neg hacc]
        constructor
        · rintro ⟨-, hsame⟩
          exact absurd hsame (track_combinedAllocs_ne (m := { m with sizes := _ }) (hcomb _))
        · rintro ⟨h, -⟩
          exact absurd h hacc

/-- Two threads of one process take turns; the first exit finds its own size, since
the other thread has already returned. -/
theorem sizeAttributed_iff_handedOver_turns :
    let p : Env := .quiet 0x700000007 3
    let q : Env := .quiet 0x700000008 4
    let pre : List Event := [⟨q, .callocEnter 2 10⟩, ⟨q, .callocExit 0x2000⟩, ⟨p, .mallocEnter 10⟩]
    SizeAttributed {} (run {} (Maps.empty : Maps .source) pre) ⟨p, .mallocExit 0x1000⟩ 0x1000
      ⟨.malloc, p, 10⟩ := by
  intro p q pre
  obtain ⟨own, hown, -, hiff⟩ := @sizeAttributed_iff_handedOver .source {}
    (pre ++ [⟨p, .mallocExit 0x1000⟩]) pre [] ⟨p, .mallocExit 0x1000⟩ (by decide +kernel)
    (by decide +kernel) rfl .malloc 0x1000 rfl (by decide)
  obtain rfl : OwnCall.mk .malloc p 10 = own := Option.some.inj hown
  exact hiff.mpr (by decide +kernel)

/-- Two threads of one process inside `malloc` at the same time: the second enter
overwrites the size of the first, so the first exit records 20 bytes for a block
of 10, and the second exit finds no size and loses its block. -/
theorem size_misattributed_between_threads :
    let p : Env := .quiet 0x700000007 3
    let q : Env := .quiet 0x700000008 4
    let pre : List Event := [⟨p, .mallocEnter 10⟩, ⟨q, .mallocEnter 20⟩]
    let evs : List Event := pre ++ [⟨p, .mallocExit 0x1000⟩, ⟨q, .mallocExit 0x2000⟩]
    Run.Along (handle {}) (fun m _ => m.NotFull) (Maps.empty : Maps .source) evs ∧
      Run.Along threadStep ThreadOk (fun _ => none) evs ∧
      threadsOf pre p.pidTgid = some ⟨.malloc, p, 10⟩ ∧
      ¬ SizeAttributed {} (run {} (Maps.empty : Maps .source) pre) ⟨p, .mallocExit 0x1000⟩
        0x1000 ⟨.malloc, p, 10⟩ ∧
      ((run {} (Maps.empty : Maps .source) evs).allocs.lookup 0x1000).map AllocInfo.size =
        some 20 ∧
      (run {} (Maps.empty : Maps .source) evs).allocs.lookup 0x2000 = none := by
  intro p q pre evs
  refine ⟨by decide +kernel, by decide +kernel, rfl, ?_, by decide +kernel, by decide +kernel⟩
  intro h
  rw [SizeAttributed, if_pos (by decide +kernel)] at h
  revert h
  decide +kernel

end EbpfMemleak
