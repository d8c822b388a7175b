import EbpfMemleak.Programs

/-!
# EbpfMemleak.Noninterference

**What other processes can do to the target's records.** With `target_pid` set, only
`gen_alloc_enter` looks at the process id. That is enough for allocations: without a
pending size an exit does nothing. `gen_free_enter` has no such test, and `allocs` is
keyed by the address alone, which means something else in every process.

The statement is about two runs: one with all events and one with the events of the
target only. `SameForTarget` is what must be the same in both, `FreesOwn` the condition
on each event of the full run. `same_for_target_iff` proves the two equivalent, with
the two runs as one machine (`pairStep`).
-/

namespace EbpfMemleak

variable {cap : Capacities}

/-! ### Two runs -/

/-- The key of the target in `memptrs`. -/
def Config.targetKey (cfg : Config) : U64 := cfg.targetPid.setWidth 64

theorem pid64_eq (env : Env) : env.pid64 = env.pid.setWidth 64 := by
  have hlt := env.pidTgid.isLt
  refine BitVec.eq_of_toNat_eq ?_
  simp only [Env.pid64, Env.pid, BitVec.toNat_setWidth, BitVec.toNat_ushiftRight,
    Nat.shiftRight_eq_div_pow]
  omega

theorem pid64_ne {cfg : Config} {env : Env} (h : env.pid ≠ cfg.targetPid) :
    env.pid64 ≠ cfg.targetKey := by
  intro heq
  rw [pid64_eq, Config.targetKey] at heq
  have hcut := congrArg (·.setWidth 32) heq
  simp only [BitVec.setWidth_setWidth_of_le _ (show 32 ≤ 64 by decide), BitVec.setWidth_eq] at hcut
  exact h hcut

/-- The events of the target. -/
def targetEvents (cfg : Config) (evs : List Event) : List Event :=
  evs.filter fun ev => ev.env.pid = cfg.targetPid

/-- The full run and the run of the target's events, side by side. -/
def pairStep (cfg : Config) (s : Maps cap × Maps cap) (ev : Event) : Maps cap × Maps cap :=
  (handle cfg s.1 ev, if ev.env.pid = cfg.targetPid then handle cfg s.2 ev else s.2)

theorem foldl_pairStep (cfg : Config) (s : Maps cap × Maps cap) (evs : List Event) :
    evs.foldl (pairStep cfg) s = (run cfg s.1 evs, run cfg s.2 (targetEvents cfg evs)) := by
  induction evs generalizing s with
  | nil => rfl
  | cons ev evs ih =>
      rw [List.foldl_cons, ih, run_cons, targetEvents, targetEvents, List.filter_cons, pairStep]
      by_cases h : ev.env.pid = cfg.targetPid <;> simp [h]

/-- The blocks, and the target's entries in `sizes` and `memptrs`, are the same. -/
def SameForTarget (cfg : Config) (m m' : Maps cap) : Prop :=
  m'.blocks = m.blocks ∧ m'.sizes.lookup cfg.targetPid = m.sizes.lookup cfg.targetPid ∧
    m'.memptrs.lookup cfg.targetKey = m.memptrs.lookup cfg.targetKey

/-- An event of another process frees no recorded address. -/
def FreesOwn (cfg : Config) (m : Maps cap) (ev : Event) : Prop :=
  ev.env.pid ≠ cfg.targetPid → ∀ address ∈ (ev.calls cfg m).free, address ∉ m.allocs

instance (cfg : Config) (m : Maps cap) (ev : Event) : Decidable (FreesOwn cfg m ev) :=
  have : Decidable (∀ address ∈ (ev.calls cfg m).free, address ∉ m.allocs) :=
    Option.decidableForallMem _
  inferInstanceAs (Decidable (_ → _))

/-- Only the target has a pending size, in both runs, and only it has an entry in
`memptrs` in the run of its own events. -/
structure TargetOnly (cfg : Config) (s : Maps cap × Maps cap) : Prop where
  sizes : ∀ pid, pid ≠ cfg.targetPid → s.1.sizes.lookup pid = none
  sizes' : ∀ pid, pid ≠ cfg.targetPid → s.2.sizes.lookup pid = none
  memptrs : ∀ k, k ≠ cfg.targetKey → s.2.memptrs.lookup k = none

/-! ### Events of other processes -/

/-- The filters accept no allocation of another process. -/
theorem rejected_of_foreign {cfg : Config} (htarget : cfg.targetPid ≠ 0) {ev : Event}
    (h : ev.env.pid ≠ cfg.targetPid) (m : Maps cap) : ev.Rejected cfg m := by
  rintro size - ⟨-, -, hpid⟩
  exact hpid.elim htarget h

theorem sizes_handle_of_foreign {cfg : Config} (htarget : cfg.targetPid ≠ 0) {m : Maps cap}
    (hm : ∀ pid, pid ≠ cfg.targetPid → m.sizes.lookup pid = none) (ev : Event) :
    ∀ pid, pid ≠ cfg.targetPid → (handle cfg m ev).sizes.lookup pid = none := by
  intro pid hpid
  by_cases h : pid = ev.env.pid
  · subst h
    exact (handle_of_rejected (rejected_of_foreign htarget hpid m) (hm _ hpid)).2
  · rw [lookup_sizes_handle_of_ne cfg m h]
    exact hm pid hpid

/-- An event changes `memptrs` at most at the key of its own process. -/
theorem lookup_memptrsAfter_of_ne (m : Maps cap) {ev : Event} {k : U64} (h : k ≠ ev.env.pid64) :
    (ev.memptrsAfter m).lookup k = m.memptrs.lookup k := by
  obtain ⟨env, program⟩ := ev
  cases program with
  | posixMemalignEnter memptr => exact BoundedMap.lookup_put_of_ne h memptr m.memptrs
  | posixMemalignExit => exact (BoundedMap.lookup_erase _ _ _).trans (if_neg h)
  | _ => rfl

theorem TargetOnly.step {cfg : Config} (htarget : cfg.targetPid ≠ 0) {s : Maps cap × Maps cap}
    (h : TargetOnly cfg s) (ev : Event) : TargetOnly cfg (pairStep cfg s ev) := by
  by_cases hpid : ev.env.pid = cfg.targetPid
  · have hstep : pairStep cfg s ev = (handle cfg s.1 ev, handle cfg s.2 ev) := by
      rw [pairStep, if_pos hpid]
    rw [hstep]
    refine ⟨sizes_handle_of_foreign htarget h.sizes ev, sizes_handle_of_foreign htarget h.sizes' ev,
      fun k hk => ?_⟩
    have hkey : cfg.targetKey = ev.env.pid64 := by rw [pid64_eq, hpid, Config.targetKey]
    show (handle cfg s.2 ev).memptrs.lookup k = none
    rw [handle_memptrs, lookup_memptrsAfter_of_ne s.2 (hkey ▸ hk)]
    exact h.memptrs k hk
  · have hstep : pairStep cfg s ev = (handle cfg s.1 ev, s.2) := by
      rw [pairStep, if_neg hpid]
    rw [hstep]
    exact ⟨sizes_handle_of_foreign htarget h.sizes ev, h.sizes', h.memptrs⟩

/-- **An event of another process** leaves the target's records alone exactly if it frees
none of them. -/
theorem same_after_foreign_iff {cfg : Config} (htarget : cfg.targetPid ≠ 0) {m m' : Maps cap}
    {ev : Event} (hsizes : ∀ pid, pid ≠ cfg.targetPid → m.sizes.lookup pid = none)
    (hpid : ev.env.pid ≠ cfg.targetPid) (hsame : SameForTarget cfg m m') :
    SameForTarget cfg (handle cfg m ev) m' ↔ FreesOwn cfg m ev := by
  obtain ⟨hblocks, hsize, hmemptr⟩ := hsame
  have hrec : recorded cfg m ev = none :=
    (handle_of_rejected (rejected_of_foreign htarget hpid m) (hsizes _ hpid)).1
  have hfree := handle_blocks_of_recorded_none hrec
  have hsize' := lookup_sizes_handle_of_ne cfg m hpid.symm
  have hmemptr' : (handle cfg m ev).memptrs.lookup cfg.targetKey =
      m.memptrs.lookup cfg.targetKey := by
    rw [handle_memptrs]
    exact lookup_memptrsAfter_of_ne m (pid64_ne hpid).symm
  constructor
  · rintro ⟨hafter, -, -⟩ - address haddress hmem
    -- the block is in the one run and gone from the other
    rw [hfree, hblocks] at hafter
    have hallocs := (blocks_eq_iff.mp hafter).1
    rw [freePhase_allocs, haddress, Option.elim_some] at hallocs
    rw [hallocs] at hmem
    exact (BoundedMap.mem_erase.mp hmem).1 rfl
  · intro hfrees
    have hkept : freePhase (ev.calls cfg m) m = m := by
      unfold freePhase
      cases haddress : (ev.calls cfg m).free with
      | none => rfl
      | some address =>
          exact genFreeEnter_of_none (BoundedMap.lookup_eq_none.mpr (hfrees hpid address haddress))
    refine ⟨?_, hsize.trans hsize'.symm, hmemptr.trans hmemptr'.symm⟩
    rw [hfree, hkept, hblocks]

/-! ### Events of the target -/

/-- Where both runs agree for the target they differ in `memptrs` only. -/
theorem eq_with_memptrs {cfg : Config} {s : Maps cap × Maps cap} (h : TargetOnly cfg s)
    (hsame : SameForTarget cfg s.1 s.2) : s.2 = { s.1 with memptrs := s.2.memptrs } := by
  obtain ⟨m, m'⟩ := s
  obtain ⟨hblocks, hsize, -⟩ := hsame
  obtain ⟨hallocs, hcomb⟩ := blocks_eq_iff.mp hblocks
  have hsizes : m'.sizes = m.sizes := by
    refine BoundedMap.ext_lookup fun pid => ?_
    by_cases hpid : pid = cfg.targetPid
    · rw [hpid, hsize]
    · rw [h.sizes pid hpid, h.sizes' pid hpid]
  dsimp only at hallocs hcomb ⊢
  rw [← hsizes, ← hallocs, ← hcomb]

/-- **An event of the target** does the same in both runs. -/
theorem same_after_own {cfg : Config} {s : Maps cap × Maps cap} {ev : Event}
    (h : TargetOnly cfg s) (hfull : s.1.NotFull) (hpid : ev.env.pid = cfg.targetPid)
    (hsame : SameForTarget cfg s.1 s.2) :
    SameForTarget cfg (handle cfg s.1 ev) (handle cfg s.2 ev) := by
  have hkey : cfg.targetKey = ev.env.pid64 := by rw [pid64_eq, hpid, Config.targetKey]
  have hmemptr := hsame.2.2
  have hhandle : handle cfg s.2 ev =
      { handle cfg s.1 ev with memptrs := ev.memptrsAfter s.2 } := by
    rw [eq_with_memptrs h hsame]
    exact handle_with_memptrs (hkey ▸ hmemptr)
  -- neither run finds `memptrs` full
  have hroom : s.1.memptrs.HasRoom ev.env.pid64 := .of_size_lt hfull.2.2.2 _
  have hroom' : s.2.memptrs.HasRoom ev.env.pid64 := by
    by_cases hmem : ev.env.pid64 ∈ s.2.memptrs
    · exact .of_mem hmem
    · refine .of_size_lt ?_ _
      have hempty : s.2.memptrs.size =
          (BoundedMap.empty : BoundedMap cap.memptrs U64 U64).size := by
        refine BoundedMap.size_eq_of_mem_iff fun k => ?_
        rw [← not_iff_not]
        refine iff_of_true (fun hk => ?_) (BoundedMap.not_mem_empty k)
        by_cases hk' : k = cfg.targetKey
        · exact hmem (hkey ▸ hk' ▸ hk)
        · exact BoundedMap.lookup_eq_none.mp (h.memptrs k hk') hk
      rw [hempty]
      exact (Nat.zero_le _).trans_lt hfull.2.2.2
  rw [hhandle]
  refine ⟨rfl, rfl, ?_⟩
  show (ev.memptrsAfter s.2).lookup cfg.targetKey = (handle cfg s.1 ev).memptrs.lookup _
  rw [handle_memptrs]
  obtain ⟨env, program⟩ := ev
  cases program with
  | posixMemalignEnter memptr =>
      exact (BoundedMap.lookup_put hroom' memptr _).trans
        ((if_pos hkey).trans ((BoundedMap.lookup_put hroom memptr _).trans (if_pos hkey)).symm)
  | posixMemalignExit =>
      exact (BoundedMap.lookup_erase _ _ _).trans
        ((if_pos hkey).trans ((BoundedMap.lookup_erase _ _ _).trans (if_pos hkey)).symm)
  | _ => exact hmemptr

/-! ### The result -/

/-- One step of the two runs. -/
theorem same_step_iff {cfg : Config} (htarget : cfg.targetPid ≠ 0) {s : Maps cap × Maps cap}
    {ev : Event} (h : TargetOnly cfg s) (hfull : s.1.NotFull) (hsame : SameForTarget cfg s.1 s.2) :
    SameForTarget cfg (pairStep cfg s ev).1 (pairStep cfg s ev).2 ↔ FreesOwn cfg s.1 ev := by
  by_cases hpid : ev.env.pid = cfg.targetPid
  · refine iff_of_true ?_ fun hne => absurd hpid hne
    rw [pairStep, if_pos hpid]
    exact same_after_own h hfull hpid hsame
  · rw [pairStep, if_neg hpid]
    exact same_after_foreign_iff htarget h.sizes hpid hsame

/-- **Noninterference.** While no map is full, the run of all events and the run of the
target's events show the same blocks, and the same entries of the target, in every
state, exactly if no event of another process frees an address that is recorded. -/
theorem same_for_target_iff {cfg : Config} (htarget : cfg.targetPid ≠ 0) {evs : List Event}
    (hfull : Run.Along (handle cfg) (fun m _ => m.NotFull) (Maps.empty : Maps cap) evs) :
    (∀ pre, pre <+: evs → SameForTarget cfg (run cfg (Maps.empty : Maps cap) pre)
        (run cfg Maps.empty (targetEvents cfg pre))) ↔
      Run.Along (handle cfg) (FreesOwn cfg) (Maps.empty : Maps cap) evs := by
  let s₀ : Maps cap × Maps cap := (Maps.empty, Maps.empty)
  have hfst : ∀ (s : Maps cap × Maps cap) ev, (pairStep cfg s ev).1 = handle cfg s.1 ev :=
    fun _ _ => rfl
  have hfull' : Run.Along (pairStep cfg) (fun s _ => s.1.NotFull) s₀ evs :=
    (Run.along_map (P := fun m _ => m.NotFull) hfst).mpr hfull
  have honly : TargetOnly cfg s₀ := ⟨fun _ _ => rfl, fun _ _ => rfl, fun _ _ => rfl⟩
  have hexact := Run.forall_prefix_iff_along (G := fun s => SameForTarget cfg s.1 s.2)
    (fun s ev h _ => TargetOnly.step htarget h ev)
    (fun s ev h hroom hsame => same_step_iff htarget h hroom hsame) hfull' honly ⟨rfl, rfl, rfl⟩
  simp only [foldl_pairStep] at hexact
  exact hexact.trans (Run.along_map (P := FreesOwn cfg) hfst)

/-- Another process allocates, frees an address of its own and returns from a call the
target never made, in between two calls of the target. -/
theorem same_for_target_between :
    let cfg : Config := { targetPid := 7 }
    let evs := mallocCall 0x700000007 3 100 0x1000 ++ mallocCall 0x900000009 4 50 0x1000 ++
      [⟨.quiet 0x900000009 4, .freeEnter 0x2000⟩, ⟨.quiet 0x900000009 4, .mmapExit (-1)⟩] ++
      mallocCall 0x700000007 3 64 0x3000
    ∀ pre, pre <+: evs → SameForTarget cfg (run cfg (Maps.empty : Maps .source) pre)
      (run cfg Maps.empty (targetEvents cfg pre)) := by
  intro cfg evs
  exact (same_for_target_iff (by decide) (by decide +kernel)).mpr (by decide +kernel)

/-- A process that frees its own block takes the target's block at the same address out
of the records. -/
theorem foreign_free_forgets_block :
    let cfg : Config := { targetPid := 7 }
    let evs := mallocCall 0x700000007 3 100 0x1000 ++ [⟨.quiet 0x900000009 4, .freeEnter 0x1000⟩]
    Run.Along (handle cfg) (fun m _ => m.NotFull) (Maps.empty : Maps .source) evs ∧
      (run cfg (Maps.empty : Maps .source) (targetEvents cfg evs)).allocs.lookup 0x1000 =
        some ⟨100, 0, 3⟩ ∧
      (run cfg (Maps.empty : Maps .source) evs).allocs.lookup 0x1000 = none := by
  refine ⟨by decide +kernel, by decide +kernel, by decide +kernel⟩

end EbpfMemleak
