import EbpfMemleak.Accounting

/-!
# EbpfMemleak.Saturation

**Recording a block when a map is full.** `gen_alloc_exit2` stores the record in
`allocs` and then counts it in `combined_allocs`. It looks at neither result, so
each of the two can fail alone: a full `allocs` leaves a block that is counted
and can never be subtracted, a full `combined_allocs` leaves one that is stored
and not counted.

`allOrNothing_iff_roomAgrees` gives the exact condition for one exit: either no
size is pending, or the two maps agree on whether they have room. A run whose
exits all meet it keeps the statistics exact, also past saturation. The module
ends with the run that breaks it at the capacities of the source: after
`ALLOCS_MAX_ENTRIES` live blocks, the next one is counted for good.
-/

namespace EbpfMemleak

variable {cap : Capacities}

/-! ### One exit -/

/-- The exit of the event stores a record of `address` and counts it under its own
stack id, or it does neither. -/
def AllOrNothing (cfg : Config) (m : Maps cap) (ev : Event) (address : U64) : Prop :=
  (∃ info, (handle cfg m ev).allocs.lookup address = some info ∧
      info.stackId = ev.env.stackId ∧
      ∀ k, (handle cfg m ev).combinedAllocs.word k =
        (beforeExit cfg m ev).combinedAllocs.word k + info.weight k) ∨
    ((handle cfg m ev).allocs = (beforeExit cfg m ev).allocs ∧
      (handle cfg m ev).combinedAllocs = (beforeExit cfg m ev).combinedAllocs)

/-- No size is pending for the process, or `allocs` has room for a new address
exactly when `combined_allocs` has room for the stack id. -/
def RoomAgrees (cfg : Config) (m : Maps cap) (ev : Event) : Prop :=
  (beforeExit cfg m ev).sizes.lookup ev.env.pid = none ∨
    ((beforeExit cfg m ev).allocs.size < cap.allocs ↔
      (beforeExit cfg m ev).combinedAllocs.HasRoom (ev.env.stackId.signExtend 64))

instance (cfg : Config) (m : Maps cap) (ev : Event) : Decidable (RoomAgrees cfg m ev) :=
  inferInstanceAs (Decidable (_ ∨ _))

/-- Every exit of the event that returns an address finds maps that agree. -/
def ExitsAgree (cfg : Config) (m : Maps cap) (ev : Event) : Prop :=
  ∀ address ∈ (ev.calls cfg m).exit, address ≠ 0 → RoomAgrees cfg m ev

instance (cfg : Config) (m : Maps cap) (ev : Event) : Decidable (ExitsAgree cfg m ev) :=
  Option.decidableForallMem _

theorem hasRoom_of_not_mem {n : Nat} {κ ν : Type} [DecidableEq κ] {m : BoundedMap n κ ν}
    {k : κ} (h : k ∉ m) : m.HasRoom k ↔ m.size < n := or_iff_right h

/-- A fresh exit whose maps agree makes both insertions or none. -/
theorem ExitsAgree.bothOrNeither {cfg : Config} {m : Maps cap} {ev : Event}
    (h : ExitsAgree cfg m ev) (hfresh : ExitFresh cfg m ev) : BothOrNeither cfg m ev := by
  intro r hr
  obtain ⟨address, info⟩ := r
  obtain ⟨hexit, hrec⟩ := recorded_eq_some.mp hr
  obtain ⟨haddr, hsize, hinfo⟩ := exitRecord_eq_some.mp hrec
  have hkey : info.stackKey = ev.env.stackId.signExtend 64 := by rw [hinfo]; rfl
  rw [hasRoom_of_not_mem (hfresh address hexit), hkey]
  rcases h address hexit haddr with hnone | hagree
  · rw [hnone] at hsize
    cases hsize
  · exact hagree

/-- Tracking a fresh record is all or nothing exactly when both maps have room or
neither has. -/
theorem track_all_or_nothing {address : U64} {info : AllocInfo} {m : Maps cap}
    (hfresh : address ∉ m.allocs) :
    ((∃ info', (m.track address info).allocs.lookup address = some info' ∧
          info'.stackId = info.stackId ∧
          ∀ k, (m.track address info).combinedAllocs.word k =
            m.combinedAllocs.word k + info'.weight k) ∨
        ((m.track address info).allocs = m.allocs ∧
          (m.track address info).combinedAllocs = m.combinedAllocs)) ↔
      (m.allocs.HasRoom address ↔ m.combinedAllocs.HasRoom info.stackKey) := by
  by_cases hallocs : m.allocs.HasRoom address
  · have hstored : (m.track address info).allocs.lookup address = some info := by
      rw [track_allocs, BoundedMap.lookup_put hallocs, if_pos rfl]
    have hchanged : (m.track address info).allocs ≠ m.allocs := by
      intro heq
      rw [heq, BoundedMap.lookup_eq_none.mpr hfresh] at hstored
      cases hstored
    rw [iff_true_left hallocs]
    constructor
    · intro h
      rcases h with ⟨info', -, -, hword⟩ | ⟨heq, -⟩
      · -- stored, not counted: the word of the stack would have to stay
        by_contra hcomb
        have hstack := hword info'.stackKey
        rw [word_track, if_neg hcomb, weight_stackKey, add_right_inj] at hstack
        exact contribution_ne_zero info'.size hstack.symm
      · exact absurd heq hchanged
    · intro hcomb
      refine Or.inl ⟨info, hstored, rfl, ?_⟩
      intro k
      rw [word_track, if_pos hcomb]
  · have hput : (m.track address info).allocs = m.allocs := BoundedMap.put_of_not_room hallocs
    rw [iff_false_left hallocs]
    constructor
    · intro h hcomb
      rcases h with ⟨info', hstored, -⟩ | ⟨-, heq⟩
      · rw [hput, BoundedMap.lookup_eq_none.mpr hfresh] at hstored
        cases hstored
      · -- counted, not stored
        exact track_combinedAllocs_ne hcomb heq
    · intro hcomb
      exact Or.inr ⟨hput, updateStatisticsAdd_of_not_room hcomb⟩

theorem allOrNothing_iff_roomAgrees {cfg : Config} {m : Maps cap} {ev : Event} {address : U64}
    (hexit : (ev.calls cfg m).exit = some address) (haddr : address ≠ 0)
    (hfresh : address ∉ (beforeExit cfg m ev).allocs) :
    AllOrNothing cfg m ev address ↔ RoomAgrees cfg m ev := by
  cases hs : (beforeExit cfg m ev).sizes.lookup ev.env.pid with
  | none =>
      have hrec : recorded cfg m ev = none := by
        rw [recorded, hexit]
        exact Option.map_eq_none_iff.mpr (exitRecord_eq_none.mpr (Or.inr hs))
      obtain ⟨s, hhandle⟩ := handle_of_recorded_none hrec
      have hneither : AllOrNothing cfg m ev address := by
        rw [AllOrNothing, hhandle]
        exact Or.inr ⟨rfl, rfl⟩
      exact iff_of_true hneither (Or.inl hs)
  | some size =>
      have hrec : recorded cfg m ev =
          some (address, ⟨size, ev.env.ktimeExit, ev.env.stackId⟩) :=
        recorded_eq_some.mpr ⟨hexit, exitRecord_eq_some.mpr ⟨haddr, hs, rfl⟩⟩
      obtain ⟨s, hhandle⟩ := handle_of_recorded hrec
      have htrack := @track_all_or_nothing cap address
        ⟨size, ev.env.ktimeExit, ev.env.stackId⟩ { beforeExit cfg m ev with sizes := s } hfresh
      rw [← hhandle] at htrack
      refine htrack.trans ?_
      rw [hasRoom_of_not_mem hfresh, RoomAgrees, hs]
      exact (or_iff_right (fun h => by cases h)).symm

/-! ### Every exit, every run -/

/-- **When recording is all or nothing.** For every state and every exit that
returns a new address, the record is both stored and counted or neither, if and
only if no size is pending or the two maps agree on whether they have room. A run
with fresh addresses whose exits all meet this condition keeps the statistics
exact: every counted block is one a later free subtracts. -/
theorem recording_all_or_nothing (cfg : Config) :
    (∀ (m : Maps cap) (ev : Event) (address : U64), (ev.calls cfg m).exit = some address →
        address ≠ 0 → address ∉ (beforeExit cfg m ev).allocs →
        (AllOrNothing cfg m ev address ↔ RoomAgrees cfg m ev)) ∧
      ∀ evs pre : List Event,
        Run.Along (handle cfg) (ExitFresh cfg) (Maps.empty : Maps cap) evs →
        Run.Along (handle cfg) (ExitsAgree cfg) (Maps.empty : Maps cap) evs →
        pre <+: evs → Exact (run cfg (Maps.empty : Maps cap) pre) := by
  refine ⟨fun m ev address hexit haddr hfresh =>
    allOrNothing_iff_roomAgrees hexit haddr hfresh, fun evs pre hfresh hagree hpre => ?_⟩
  have hboth : Run.Along (handle cfg) (BothOrNeither cfg) (Maps.empty : Maps cap) evs :=
    (hfresh.and hagree).imp fun m ev h => h.2.bothOrNeither h.1
  exact exact_run (hfresh.restrict hpre) (hboth.restrict hpre)

/-- With one slot in either map, a second block on a second stack finds both full
and is neither stored nor counted. -/
theorem recording_all_or_nothing_neither :
    let evs := mallocCall 0x700000007 3 100 0x1000 ++ mallocCall 0x700000007 5 64 0x2000
    let m := run {} (Maps.empty : Maps ⟨8, 1, 1, 8⟩) (evs.take 3)
    Exact (run {} (Maps.empty : Maps ⟨8, 1, 1, 8⟩) evs) ∧
      AllOrNothing {} m ⟨.quiet 0x700000007 5, .mallocExit 0x2000⟩ 0x2000 := by
  intro evs m
  have hrec := @recording_all_or_nothing ⟨8, 1, 1, 8⟩ {}
  exact ⟨hrec.2 evs evs (by decide +kernel) (by decide +kernel) (List.prefix_refl _),
    (hrec.1 m _ 0x2000 rfl (by decide) (by decide +kernel)).mpr (by decide +kernel)⟩

/-! ### Filling `allocs` -/

/-- `n` blocks of 8 bytes from one stack, at the addresses `1 .. n`. -/
def fill : Nat → List Event
  | 0 => []
  | n + 1 => fill n ++ mallocCall 0x700000007 3 8 (BitVec.ofNat 64 (n + 1))

/-- The default filters accept every size. -/
theorem accepted_default {env : Env} (hclock : env.ktimeEnter = 0) (size : U64) :
    Accepted {} env size := by
  refine ⟨⟨?_, ?_⟩, Or.inr ?_, Or.inl rfl⟩
  · rw [BitVec.le_def]
    exact Nat.zero_le _
  · rw [BitVec.le_def]
    exact Nat.le_of_lt_succ size.isLt
  · rw [hclock]
    rfl

/-- Under the default filters `malloc_enter` leaves its size pending, whatever it is. -/
theorem handle_mallocEnter_default (m : Maps cap) (pidTgid stackid size : U64) :
    handle {} m ⟨.quiet pidTgid stackid, .mallocEnter size⟩ =
      { m with sizes := m.sizes.put (Env.quiet pidTgid stackid).pid size } := by
  show genAllocEnter {} _ size m = _
  rw [genAllocEnter_eq, if_pos (accepted_default rfl size)]

/-- With nothing pending, a `malloc` call under the default filters tracks its
block and leaves nothing pending. -/
theorem run_mallocCall {m : Maps cap} (hsizes : m.sizes = .empty) (hcap : 0 < cap.sizes)
    {pidTgid stackid size rc : U64} (hrc : rc ≠ 0) :
    run {} m (mallocCall pidTgid stackid size rc) =
      m.track rc ⟨size, 0, stackid.setWidth 32⟩ :=
  (genAllocExit2_genAllocEnter hsizes hcap rfl).trans
    (if_pos ⟨accepted_default rfl size, hrc⟩)

/-- The state `fill n` reaches, as long as `allocs` can hold it. -/
structure Filled (n : Nat) (m : Maps cap) : Prop where
  sizes : m.sizes = .empty
  size : m.allocs.size = n
  mem : ∀ address, address ∈ m.allocs ↔ ∃ i < n, address = BitVec.ofNat 64 (i + 1)
  combined : m.combinedAllocs.HasRoom 3

theorem ofNat_succ_ne_zero {n : Nat} (hn : n + 1 < 2 ^ 64) : BitVec.ofNat 64 (n + 1) ≠ 0 := by
  intro heq
  have hnat := congrArg BitVec.toNat heq
  rw [BitVec.toNat_ofNat, Nat.mod_eq_of_lt hn] at hnat
  cases hnat

theorem ofNat_succ_ne_of_lt {i n : Nat} (hi : i < n) (hn : n < 2 ^ 64 - 1) :
    BitVec.ofNat 64 (n + 1) ≠ BitVec.ofNat 64 (i + 1) := by
  intro heq
  have hnat := congrArg BitVec.toNat heq
  rw [BitVec.toNat_ofNat, BitVec.toNat_ofNat] at hnat
  omega

/-- The address of the next block is new. -/
theorem Filled.not_mem {n : Nat} {m : Maps cap} (h : Filled n m) (hn : n < 2 ^ 64 - 1) :
    BitVec.ofNat 64 (n + 1) ∉ m.allocs := by
  intro hmem
  obtain ⟨i, hi, heq⟩ := (h.mem _).mp hmem
  exact ofNat_succ_ne_of_lt hi hn heq

theorem filled_fill (hsizes : 0 < cap.sizes) (hcomb : 0 < cap.combinedAllocs) {n : Nat}
    (hn : n ≤ cap.allocs) (hword : n < 2 ^ 64) :
    Filled n (run {} (Maps.empty : Maps cap) (fill n)) := by
  induction n with
  | zero =>
      refine ⟨rfl, rfl, ?_, .of_size_lt hcomb 3⟩
      intro address
      simp [fill, Maps.empty]
  | succ n ih =>
      have hfilled := ih (by omega) (by omega)
      have hfresh := hfilled.not_mem (by omega)
      have hroom : (run {} (Maps.empty : Maps cap) (fill n)).allocs.HasRoom
          (BitVec.ofNat 64 (n + 1)) := .of_size_lt (by rw [hfilled.size]; omega) _
      rw [fill, run_append, run_mallocCall hfilled.sizes hsizes (ofNat_succ_ne_zero hword)]
      refine ⟨hfilled.sizes, ?_, ?_, ?_⟩
      · rw [track_allocs, BoundedMap.size_put_of_not_mem hfresh hroom, hfilled.size]
      · intro address
        rw [track_allocs, BoundedMap.mem_put hroom, hfilled.mem]
        constructor
        · intro h
          rcases h with heq | ⟨i, hi, heq⟩
          · exact ⟨n, Nat.lt_succ_self n, heq⟩
          · exact ⟨i, Nat.lt_succ_of_lt hi, heq⟩
        · intro h
          obtain ⟨i, hi, heq⟩ := h
          rcases Nat.lt_succ_iff_lt_or_eq.mp hi with hlt | hlast
          · exact Or.inr ⟨i, hlt, heq⟩
          · exact Or.inl (hlast ▸ heq)
      · rw [track_combinedAllocs]
        exact .of_mem ((mem_updateStatisticsAdd hfilled.combined).mpr (Or.inl rfl))

/-- Once `allocs` is full, the exit of one more call counts its block and does not
store it. -/
theorem Filled.overflow {n : Nat} {m : Maps cap} (h : Filled n m) (hfull : n = cap.allocs)
    (hsizes : 0 < cap.sizes) (hword : n < 2 ^ 64 - 1) :
    let next : U64 := BitVec.ofNat 64 (n + 1)
    let m' := handle {} m ⟨.quiet 0x700000007 3, .mallocEnter 8⟩
    let ev : Event := ⟨.quiet 0x700000007 3, .mallocExit next⟩
    next ∉ m'.allocs ∧ ¬ AllOrNothing {} m' ev next ∧ next ∉ (handle {} m' ev).allocs ∧
      (handle {} m' ev).combinedAllocs.word 3 = m'.combinedAllocs.word 3 + contribution 8 := by
  intro next m' ev
  have henter : m' = { m with sizes := m.sizes.put (Env.quiet 0x700000007 3).pid 8 } :=
    handle_mallocEnter_default m _ _ 8
  have hallocs : m'.allocs = m.allocs := by rw [henter]
  have hcomb : m'.combinedAllocs = m.combinedAllocs := by rw [henter]
  have hpending : m'.sizes.lookup (Env.quiet 0x700000007 3).pid = some 8 := by
    have hroom : m.sizes.HasRoom (Env.quiet 0x700000007 3).pid := by
      rw [h.sizes]
      exact .of_size_lt hsizes _
    rw [henter]
    exact (BoundedMap.lookup_put hroom _ _).trans (if_pos rfl)
  have hfresh : next ∉ m'.allocs := by
    rw [hallocs]
    exact h.not_mem hword
  have hnoroom : ¬ m'.allocs.HasRoom next := by
    rw [hasRoom_of_not_mem hfresh, hallocs, h.size, hfull]
    exact Nat.lt_irrefl _
  have hroom : m'.combinedAllocs.HasRoom 3 := by
    rw [hcomb]
    exact h.combined
  have hnext : next ≠ 0 := ofNat_succ_ne_zero (by omega)
  have hhandle : handle {} m' ev =
      ({ m' with sizes := m'.sizes.erase ev.env.pid } : Maps cap).track next ⟨8, 0, 3⟩ :=
    genAllocExit2_of_some (exitRecord_eq_some.mpr ⟨hnext, hpending, rfl⟩)
  refine ⟨hfresh, ?_, ?_, ?_⟩
  · -- the process has a size pending, and only `combined_allocs` has room
    intro hall
    have hiff := @allOrNothing_iff_roomAgrees cap {} m' ev next rfl hnext hfresh
    rcases hiff.mp hall with hnone | hagree
    · exact absurd (hpending.symm.trans hnone) (fun h => by cases h)
    · exact hnoroom (.of_size_lt (hagree.mpr hroom) next)
  · rw [hhandle, track_allocs, BoundedMap.put_of_not_room hnoroom]
    exact hfresh
  · rw [hhandle, word_track]
    exact congrArg (m'.combinedAllocs.word 3 + ·) (if_pos hroom)

/-- At the capacities of the source: with `ALLOCS_MAX_ENTRIES` blocks live, the
exit of one more call counts its block and does not store it, so no free can ever
subtract it. -/
theorem recording_counts_without_storing :
    let next : U64 := BitVec.ofNat 64 (allocsMaxEntries + 1)
    let m := run {} (Maps.empty : Maps .source)
      (fill allocsMaxEntries ++ [⟨.quiet 0x700000007 3, .mallocEnter 8⟩])
    let ev : Event := ⟨.quiet 0x700000007 3, .mallocExit next⟩
    Reachable {} m ∧ next ∉ m.allocs ∧ ¬ AllOrNothing {} m ev next ∧
      next ∉ (handle {} m ev).allocs ∧
      (handle {} m ev).combinedAllocs.word 3 = m.combinedAllocs.word 3 + contribution 8 := by
  have hfilled : Filled allocsMaxEntries
      (run {} (Maps.empty : Maps .source) (fill allocsMaxEntries)) :=
    filled_fill (by decide) (by decide) (Nat.le_refl _) (by decide)
  have hoverflow := hfilled.overflow rfl (by decide) (by decide)
  rw [run_append, run_cons, run_nil]
  refine ⟨⟨fill allocsMaxEntries ++ [⟨.quiet 0x700000007 3, .mallocEnter 8⟩], ?_⟩, ?_⟩
  · rw [run_append, run_cons, run_nil]
  · exact hoverflow

end EbpfMemleak
