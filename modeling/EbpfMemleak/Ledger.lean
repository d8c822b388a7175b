import EbpfMemleak.Programs
import Mathlib.Logic.Function.Basic

/-!
# EbpfMemleak.Ledger

**The attached probes refine a plain ledger.** For a process the loader attaches
to `malloc`, `calloc`, `realloc` and `free`. What these probes are for is said
here without maps, filters on machine words or a hand-over between enter and
exit: the `Ledger` knows the allocation call each process has open, with the
size it really asked for, and the blocks that were handed out and not given
back. `ledgerStep` writes down what each call does to it.

The simulation relation is `Refines`: `allocs` shows the ledger's blocks, and the
`sizes` entry of a process is the size of its open call exactly when that call
is tracked. A `calloc` whose product does not fit 64 bits is the one case where
the pending size is not the requested one; such a call returns null, so the
relation leaves its `sizes` entry open (`Refines.pending`).

`allocs_refines_ledger` is the result: after every event of a run with at most
one open call per process the two agree on every address.
-/

namespace EbpfMemleak

variable {cap : Capacities}

/-! ### The ledger -/

/-- An allocation call that has not returned: the number of bytes asked for, and
whether its enter passed the sampling test and the process test. -/
structure OpenCall where
  requested : Nat
  passed : Bool

/-- The open call of every process and the blocks handed out, with their size and
stack id. -/
structure Ledger where
  openCall : Pid → Option OpenCall
  blocks : U64 → Option (Nat × I32)

/-- No open call, no block. -/
def Ledger.empty : Ledger := ⟨fun _ => none, fun _ => none⟩

/-- The sampling test and the process test, on numbers. -/
def Passes (cfg : Config) (env : Env) : Prop :=
  (cfg.sampleRate.toNat ≤ 1 ∨ env.ktimeEnter.toNat % cfg.sampleRate.toNat = 0) ∧
    (cfg.targetPid = 0 ∨ env.pid = cfg.targetPid)

instance (cfg : Config) (env : Env) : Decidable (Passes cfg env) :=
  inferInstanceAs (Decidable (_ ∧ _))

/-- A call is tracked when it passed its enter and asked for a size in range. -/
def OpenCall.Tracked (cfg : Config) (c : OpenCall) : Prop :=
  c.passed = true ∧ cfg.minSize.toNat ≤ c.requested ∧ c.requested ≤ cfg.maxSize.toNat

instance (cfg : Config) (c : OpenCall) : Decidable (c.Tracked cfg) :=
  inferInstanceAs (Decidable (_ ∧ _))

/-- A process calls an allocation function for `requested` bytes. -/
def Ledger.call (cfg : Config) (env : Env) (requested : Nat) (L : Ledger) : Ledger where
  openCall := Function.update L.openCall env.pid (some ⟨requested, decide (Passes cfg env)⟩)
  blocks := L.blocks

/-- The open call of a process returns `address`. -/
def Ledger.complete (cfg : Config) (env : Env) (address : U64) (L : Ledger) : Ledger where
  openCall := Function.update L.openCall env.pid none
  blocks :=
    match L.openCall env.pid with
    | none => L.blocks
    | some c =>
        if c.Tracked cfg ∧ address ≠ 0 then
          Function.update L.blocks address (some (c.requested, env.stackId))
        else L.blocks

/-- The block at `address` is given back. -/
def Ledger.release (address : U64) (L : Ledger) : Ledger where
  openCall := L.openCall
  blocks := Function.update L.blocks address none

theorem call_openCall_self (cfg : Config) (env : Env) (requested : Nat) (L : Ledger) :
    (L.call cfg env requested).openCall env.pid =
      some ⟨requested, decide (Passes cfg env)⟩ := Function.update_self ..

theorem call_openCall_of_ne {cfg : Config} {env : Env} {requested : Nat} {L : Ledger}
    {pid : Pid} (h : pid ≠ env.pid) :
    (L.call cfg env requested).openCall pid = L.openCall pid := Function.update_of_ne h ..

theorem complete_openCall_self (cfg : Config) (env : Env) (address : U64) (L : Ledger) :
    (L.complete cfg env address).openCall env.pid = none := Function.update_self ..

theorem complete_openCall_of_ne {cfg : Config} {env : Env} {address : U64} {L : Ledger}
    {pid : Pid} (h : pid ≠ env.pid) :
    (L.complete cfg env address).openCall pid = L.openCall pid := Function.update_of_ne h ..

theorem release_blocks_self (address : U64) (L : Ledger) :
    (L.release address).blocks address = none := Function.update_self ..

theorem release_blocks_of_ne {address a : U64} {L : Ledger} (h : a ≠ address) :
    (L.release address).blocks a = L.blocks a := Function.update_of_ne h ..

/-- What the library calls behind the attached probes do to the ledger. -/
def ledgerStep (cfg : Config) (L : Ledger) (ev : Event) : Ledger :=
  match ev.program with
  | .mallocEnter size => L.call cfg ev.env size.toNat
  | .callocEnter nmemb size => L.call cfg ev.env (nmemb.toNat * size.toNat)
  | .reallocEnter ptr size => (L.release ptr).call cfg ev.env size.toNat
  | .mallocExit rc | .callocExit rc | .reallocExit rc => L.complete cfg ev.env rc
  | .freeEnter address => L.release address
  | _ => L

/-- The ledger after a list of events. -/
def ledgerOf (cfg : Config) (evs : List Event) : Ledger := evs.foldl (ledgerStep cfg) .empty

/-! ### What a run of the attached probes promises -/

/-- The programs `attachPrograms` attaches for a pid, split by their part in a
call. -/
inductive AttachedRole
  | enter
  | exit (rc : U64)
  | free

/-- The part an attached program plays, `none` for a program not attached. -/
def Program.attachedRole : Program → Option AttachedRole
  | .mallocEnter _ | .callocEnter _ _ | .reallocEnter _ _ => some .enter
  | .mallocExit rc | .callocExit rc | .reallocExit rc => some (.exit rc)
  | .freeEnter _ => some .free
  | _ => none

/-- What the environment promises of a part: the program is attached, a process
enters an allocation function only when it has no call open, and a call for
`2 ^ 64` bytes or more (a `calloc` whose product overflows) returns null. An
exit without an open call is allowed anywhere. -/
def AttachedRole.Ok (L : Ledger) (pid : Pid) : Option AttachedRole → Prop
  | none => False
  | some .enter => (L.openCall pid).isNone = true
  | some (.exit rc) => ∀ c ∈ L.openCall pid, 2 ^ 64 ≤ c.requested → rc = 0
  | some .free => True

instance (L : Ledger) (pid : Pid) : ∀ role, Decidable (AttachedRole.Ok L pid role)
  | none => instDecidableFalse
  | some .enter => inferInstanceAs (Decidable (_ = true))
  | some (.exit _) => Option.decidableForallMem _
  | some .free => instDecidableTrue

/-- The event keeps the promise in the ledger it finds. -/
def CallOk (L : Ledger) (ev : Event) : Prop :=
  AttachedRole.Ok L ev.env.pid ev.program.attachedRole

instance (L : Ledger) (ev : Event) : Decidable (CallOk L ev) :=
  inferInstanceAs (Decidable (AttachedRole.Ok _ _ _))

/-! ### The simulation relation -/

/-- The view of `allocs` the ledger has: size and stack id. -/
def Maps.view (m : Maps cap) (address : U64) : Option (Nat × I32) :=
  (m.allocs.lookup address).map fun info => (info.size.toNat, info.stackId)

/-- The maps show what the ledger knows. -/
structure Refines (cfg : Config) (m : Maps cap) (L : Ledger) : Prop where
  /-- `allocs` holds the ledger's blocks. -/
  blocks : ∀ address, m.view address = L.blocks address
  /-- Without an open call nothing is pending. -/
  idle : ∀ pid, L.openCall pid = none → m.sizes.lookup pid = none
  /-- The pending size is the requested one if the open call is tracked, and there
  is none otherwise; unless the size does not fit a word. -/
  pending : ∀ pid c, L.openCall pid = some c → c.requested < 2 ^ 64 →
    m.sizes.lookup pid =
      if c.Tracked cfg then some (BitVec.ofNat 64 c.requested) else none

theorem refines_empty (cfg : Config) : Refines cfg (Maps.empty : Maps cap) .empty :=
  ⟨fun _ => rfl, fun _ _ => rfl, fun _ _ h => by cases h⟩

/-- The filters of `gen_alloc_enter` are the ledger's tests, on a size that fits a
word. -/
theorem accepted_iff_tracked {cfg : Config} {env : Env} {size : U64} :
    Accepted cfg env size ↔
      (OpenCall.mk size.toNat (decide (Passes cfg env))).Tracked cfg := by
  have hsample : (cfg.sampleRate ≤ 1 ∨ env.ktimeEnter % cfg.sampleRate = 0) ↔
      (cfg.sampleRate.toNat ≤ 1 ∨ env.ktimeEnter.toNat % cfg.sampleRate.toNat = 0) := by
    rw [BitVec.le_def, BitVec.toNat_eq, BitVec.toNat_umod]
    rfl
  show _ ↔ decide (Passes cfg env) = true ∧ _
  rw [decide_eq_true_eq, Accepted, hsample, BitVec.le_def, BitVec.le_def]
  exact and_comm

/-- Releasing a block refines `gen_free_enter`. -/
theorem Refines.release {cfg : Config} {m : Maps cap} {L : Ledger} (h : Refines cfg m L)
    (address : U64) : Refines cfg (genFreeEnter address m) (L.release address) := by
  refine ⟨?_, ?_, ?_⟩
  · intro a
    rw [Maps.view, genFreeEnter_allocs, BoundedMap.lookup_erase]
    by_cases ha : a = address
    · rw [if_pos ha, ha, release_blocks_self, Option.map_none]
    · rw [if_neg ha, release_blocks_of_ne ha]
      exact h.blocks a
  · intro pid hpid
    rw [genFreeEnter_sizes]
    exact h.idle pid hpid
  · intro pid c hpid hc
    rw [genFreeEnter_sizes]
    exact h.pending pid c hpid hc

/-- Opening a call refines `gen_alloc_enter`, given the wrapped size. -/
theorem Refines.call {cfg : Config} {m : Maps cap} {L : Ledger} (h : Refines cfg m L)
    {env : Env} {size : U64} {requested : Nat} (hsize : size.toNat = requested % 2 ^ 64)
    (hidle : L.openCall env.pid = none) (hroom : m.sizes.HasRoom env.pid) :
    Refines cfg (genAllocEnter cfg env size m) (L.call cfg env requested) := by
  refine ⟨?_, ?_, ?_⟩
  · intro a
    rw [Maps.view, genAllocEnter_allocs]
    exact h.blocks a
  · intro pid hpid
    by_cases heq : pid = env.pid
    · rw [heq, call_openCall_self] at hpid
      cases hpid
    · rw [call_openCall_of_ne heq] at hpid
      rw [genAllocEnter_sizes]
      split
      case isTrue => rw [BoundedMap.lookup_put_of_ne heq]; exact h.idle pid hpid
      case isFalse => exact h.idle pid hpid
  · intro pid c hpid hc
    by_cases heq : pid = env.pid
    · rw [heq, call_openCall_self] at hpid
      obtain rfl := Option.some.inj hpid
      have hfit : requested = size.toNat := by rw [hsize, Nat.mod_eq_of_lt hc]
      subst hfit
      rw [genAllocEnter_sizes, heq]
      by_cases hacc : Accepted cfg env size
      · rw [if_pos hacc, if_pos (accepted_iff_tracked.mp hacc), BoundedMap.lookup_put hroom,
          if_pos rfl, BitVec.ofNat_toNat, BitVec.setWidth_eq]
      · rw [if_neg hacc, if_neg (mt accepted_iff_tracked.mpr hacc)]
        exact h.idle _ hidle
    · rw [call_openCall_of_ne heq] at hpid
      rw [genAllocEnter_sizes]
      split
      case isTrue => rw [BoundedMap.lookup_put_of_ne heq]; exact h.pending pid c hpid hc
      case isFalse => exact h.pending pid c hpid hc

/-- The record an exit makes is the block the ledger hands out. -/
theorem Refines.view_exit {cfg : Config} {m : Maps cap} {L : Ledger} (h : Refines cfg m L)
    {env : Env} {address : U64} (hroom : m.allocs.HasRoom address)
    (hover : ∀ c ∈ L.openCall env.pid, 2 ^ 64 ≤ c.requested → address = 0) (a : U64) :
    (genAllocExit2 env address m).view a = (L.complete cfg env address).blocks a := by
  have hnone : exitRecord env address m = none →
      (genAllocExit2 env address m).view a = L.blocks a := by
    intro hrec
    rw [genAllocExit2_of_none hrec]
    exact h.blocks a
  rw [Ledger.complete]
  cases hopen : L.openCall env.pid with
  | none => exact hnone (exitRecord_eq_none.mpr (Or.inr (h.idle _ hopen)))
  | some c =>
      dsimp only
      by_cases haddr : address = 0
      · rw [if_neg fun hc => hc.2 haddr]
        exact hnone (exitRecord_eq_none.mpr (Or.inl haddr))
      have hfit : c.requested < 2 ^ 64 := Nat.lt_of_not_le fun hle => haddr (hover c hopen hle)
      have hpending := h.pending _ c hopen hfit
      by_cases htracked : c.Tracked cfg
      · rw [if_pos htracked] at hpending
        rw [if_pos ⟨htracked, haddr⟩]
        have hrec : exitRecord env address m =
            some ⟨BitVec.ofNat 64 c.requested, env.ktimeExit, env.stackId⟩ :=
          exitRecord_eq_some.mpr ⟨haddr, hpending, rfl⟩
        rw [genAllocExit2_of_some hrec, Maps.view, track_allocs, BoundedMap.lookup_put hroom]
        by_cases ha : a = address
        · rw [if_pos ha, ha, Function.update_self, Option.map_some, BitVec.toNat_ofNat,
            Nat.mod_eq_of_lt hfit]
        · rw [if_neg ha, Function.update_of_ne ha]
          exact h.blocks a
      · rw [if_neg htracked] at hpending
        rw [if_neg fun hc => htracked hc.1]
        exact hnone (exitRecord_eq_none.mpr (Or.inr hpending))

/-- Returning from a call refines `gen_alloc_exit2`. -/
theorem Refines.complete {cfg : Config} {m : Maps cap} {L : Ledger} (h : Refines cfg m L)
    {env : Env} {address : U64} (hroom : m.allocs.HasRoom address)
    (hover : ∀ c ∈ L.openCall env.pid, 2 ^ 64 ≤ c.requested → address = 0) :
    Refines cfg (genAllocExit2 env address m) (L.complete cfg env address) := by
  refine ⟨h.view_exit hroom hover, ?_, ?_⟩
  · intro pid hpid
    rw [genAllocExit2_sizes, BoundedMap.lookup_erase]
    by_cases heq : pid = env.pid
    · rw [if_pos heq]
    · rw [complete_openCall_of_ne heq] at hpid
      rw [if_neg heq]
      exact h.idle pid hpid
  · intro pid c hpid hc
    by_cases heq : pid = env.pid
    · rw [heq, complete_openCall_self] at hpid
      cases hpid
    · rw [complete_openCall_of_ne heq] at hpid
      rw [genAllocExit2_sizes, BoundedMap.lookup_erase, if_neg heq]
      exact h.pending pid c hpid hc

/-! ### The refinement -/

/-- One event of an attached probe keeps the maps and the ledger together. -/
theorem Refines.step {cfg : Config} {m : Maps cap} {L : Ledger} {ev : Event}
    (h : Refines cfg m L) (hfull : m.NotFull) (hok : CallOk L ev) :
    Refines cfg (handle cfg m ev) (ledgerStep cfg L ev) := by
  have hsizes (env : Env) : m.sizes.HasRoom env.pid := .of_size_lt hfull.1 _
  have hallocs (a : U64) : m.allocs.HasRoom a := .of_size_lt hfull.2.1 _
  have hword (size : U64) : size.toNat = size.toNat % 2 ^ 64 :=
    (Nat.mod_eq_of_lt size.isLt).symm
  obtain ⟨env, program⟩ := ev
  cases program with
  | mallocEnter size => exact h.call (hword size) (Option.isNone_iff_eq_none.mp hok) (hsizes env)
  | callocEnter nmemb size =>
      exact h.call (BitVec.toNat_mul nmemb size) (Option.isNone_iff_eq_none.mp hok) (hsizes env)
  | reallocEnter ptr size =>
      refine (h.release ptr).call (hword size) (Option.isNone_iff_eq_none.mp hok) ?_
      rw [genFreeEnter_sizes]
      exact hsizes env
  | mallocExit rc => exact h.complete (hallocs rc) hok
  | callocExit rc => exact h.complete (hallocs rc) hok
  | reallocExit rc => exact h.complete (hallocs rc) hok
  | freeEnter address => exact h.release address
  | _ => exact hok.elim

/-- **The attached probes refine the ledger.** After every event of a run from
empty maps in which no map is full and every process has at most one call open,
`allocs` is the ledger's block table. -/
theorem allocs_refines_ledger {cfg : Config} {evs pre : List Event}
    (hfull : Run.Along (handle cfg) (fun m _ => m.NotFull) (Maps.empty : Maps cap) evs)
    (hcalls : Run.Along (ledgerStep cfg) CallOk .empty evs) (hpre : pre <+: evs)
    (address : U64) :
    (run cfg (Maps.empty : Maps cap) pre).view address = (ledgerOf cfg pre).blocks address :=
  (Run.foldl_simulation (fun _ _ _ h => h.step) (refines_empty cfg) (hfull.restrict hpre)
    (hcalls.restrict hpre)).blocks address

/-- Two processes interleave: an exit of a call that was open before the probes
were attached, a `calloc` that overflows and fails, a `realloc` that moves its
block. -/
theorem allocs_refines_ledger_interleaved :
    let p : Env := .quiet 0x700000007 3
    let q : Env := .quiet 0x900000009 4
    let evs : List Event := [⟨p, .mallocExit 0x500⟩, ⟨p, .mallocEnter 100⟩,
      ⟨q, .callocEnter (2 ^ 63) 4⟩, ⟨p, .mallocExit 0x1000⟩, ⟨q, .callocExit 0⟩,
      ⟨p, .reallocEnter 0x1000 300⟩, ⟨q, .callocEnter 4 16⟩, ⟨q, .callocExit 0x2000⟩,
      ⟨p, .reallocExit 0x3000⟩]
    (run {} (Maps.empty : Maps .source) evs).view 0x1000 = none ∧
      (run {} (Maps.empty : Maps .source) evs).view 0x2000 = some (64, 4) ∧
      (run {} (Maps.empty : Maps .source) evs).view 0x3000 = some (300, 3) := by
  intro p q evs
  have hrefines := @allocs_refines_ledger .source {} evs evs (by decide +kernel)
    (by decide +kernel) (List.prefix_refl _)
  exact ⟨(hrefines _).trans (by decide +kernel), (hrefines _).trans (by decide +kernel),
    (hrefines _).trans (by decide +kernel)⟩

end EbpfMemleak
