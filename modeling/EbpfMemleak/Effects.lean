import EbpfMemleak.Accounting
import EbpfMemleak.Grouping
import EbpfMemleak.Noninterference

/-!
# EbpfMemleak.Effects

**What one event does, entry by entry.** While no map is full an event is known by four
things: the address it frees, the record it makes, and the entries of its own process in
`sizes` and `memptrs`. This module says what each map shows at each key after the event in
these terms (`lookup_handle_allocs_eq`, `mem_handle_combinedAllocs_iff`, `word_handle`), and
that the four depend on the maps only through the entries of the process
(`recorded_congr`, `lookup_sizes_handle_congr`, `lookup_memptrs_handle_congr`).

The words need one more fact: that a free finds the entry its record is counted in. No run
can break it while `combined_allocs` has a free slot (`Reachable.covered`).
-/

namespace EbpfMemleak

variable {cap : Capacities}

/-! ### Room -/

/-- Every map has at least `n` free slots. -/
def Maps.Slack (n : Nat) (m : Maps cap) : Prop :=
  m.sizes.size + n ≤ cap.sizes ∧ m.allocs.size + n ≤ cap.allocs ∧
    m.combinedAllocs.size + n ≤ cap.combinedAllocs ∧ m.memptrs.size + n ≤ cap.memptrs

instance (n : Nat) (m : Maps cap) : Decidable (m.Slack n) := inferInstanceAs (Decidable (_ ∧ _))

theorem Maps.Slack.notFull {n : Nat} {m : Maps cap} (h : m.Slack (n + 1)) : m.NotFull := by
  obtain ⟨hsizes, hallocs, hcomb, hmemptrs⟩ := h
  exact ⟨by omega, by omega, by omega, by omega⟩

theorem size_sizes_handle_le (cfg : Config) (m : Maps cap) (ev : Event) :
    (handle cfg m ev).sizes.size ≤ m.sizes.size + 1 := by
  have hbefore : (beforeExit cfg m ev).sizes.size ≤ m.sizes.size + 1 := by
    rw [beforeExit_sizes]
    cases (ev.calls cfg m).enter with
    | none => exact Nat.le_succ _
    | some size =>
        rw [Option.elim_some]
        split
        case isTrue => exact BoundedMap.size_put_le _ _ _
        case isFalse => exact Nat.le_succ _
  rw [handle_eq, exitPhase_sizes]
  cases (ev.calls cfg m).exit with
  | none => exact hbefore
  | some address => exact (BoundedMap.size_erase_le _ _).trans hbefore

theorem size_memptrs_handle_le (cfg : Config) (m : Maps cap) (ev : Event) :
    (handle cfg m ev).memptrs.size ≤ m.memptrs.size + 1 := by
  rw [handle_memptrs]
  obtain ⟨env, program⟩ := ev
  cases program with
  | posixMemalignEnter memptr => exact BoundedMap.size_put_le _ _ _
  | posixMemalignExit => exact (BoundedMap.size_erase_le _ _).trans (Nat.le_succ _)
  | _ => exact Nat.le_succ _

theorem size_allocs_handle_le (cfg : Config) (m : Maps cap) (ev : Event) :
    (handle cfg m ev).allocs.size ≤ m.allocs.size + 1 := by
  have hbefore := size_beforeExit_allocs_le cfg m ev
  cases hrec : recorded cfg m ev with
  | none =>
      obtain ⟨s, hhandle⟩ := handle_of_recorded_none hrec
      rw [hhandle]
      exact hbefore.trans (Nat.le_succ _)
  | some r =>
      obtain ⟨s, hhandle⟩ := handle_of_recorded hrec
      rw [hhandle, track_allocs]
      exact (BoundedMap.size_put_le _ _ _).trans (Nat.succ_le_succ hbefore)

theorem size_combinedAllocs_handle_le (cfg : Config) (m : Maps cap) (ev : Event) :
    (handle cfg m ev).combinedAllocs.size ≤ m.combinedAllocs.size + 1 := by
  have hbefore : (beforeExit cfg m ev).combinedAllocs.size = m.combinedAllocs.size :=
    BoundedMap.size_eq_of_mem_iff fun _ => mem_beforeExit_combinedAllocs
  cases hrec : recorded cfg m ev with
  | none =>
      obtain ⟨s, hhandle⟩ := handle_of_recorded_none hrec
      rw [hhandle]
      exact hbefore.le.trans (Nat.le_succ _)
  | some r =>
      obtain ⟨s, hhandle⟩ := handle_of_recorded hrec
      rw [hhandle, track_combinedAllocs]
      exact (size_updateStatisticsAdd_le _ _ _).trans (Nat.succ_le_succ hbefore.le)

/-- An event takes at most one slot of every map. -/
theorem Maps.Slack.handle {n : Nat} {m : Maps cap} (h : m.Slack (n + 1)) (cfg : Config)
    (ev : Event) : (handle cfg m ev).Slack n := by
  obtain ⟨hsizes, hallocs, hcomb, hmemptrs⟩ := h
  have hsizes' := size_sizes_handle_le cfg m ev
  have hallocs' := size_allocs_handle_le cfg m ev
  have hcomb' := size_combinedAllocs_handle_le cfg m ev
  have hmemptrs' := size_memptrs_handle_le cfg m ev
  exact ⟨by omega, by omega, by omega, by omega⟩

/-! ### Covered records -/

/-- Every record is counted in an entry of `combined_allocs`. -/
def Covered (m : Maps cap) : Prop :=
  ∀ a info, m.allocs.lookup a = some info → info.stackKey ∈ m.combinedAllocs

/-- A record without an entry means that `combined_allocs` is full: it was when the record
was made, and entries are never removed. -/
theorem covered_run (cfg : Config) (evs : List Event) (a : U64) (info : AllocInfo)
    (h : (run cfg (Maps.empty : Maps cap) evs).allocs.lookup a = some info) :
    info.stackKey ∈ (run cfg (Maps.empty : Maps cap) evs).combinedAllocs ∨
      (run cfg (Maps.empty : Maps cap) evs).combinedAllocs.size = cap.combinedAllocs := by
  refine Run.foldl_invariant (I := fun m : Maps cap => ∀ a info, m.allocs.lookup a = some info →
    info.stackKey ∈ m.combinedAllocs ∨ m.combinedAllocs.size = cap.combinedAllocs)
    (P := fun _ _ => True) (fun m ev hm _ a info hl => ?_) (fun _ _ hl => by cases hl)
    (Run.along_iff_forall_mem.mpr fun _ _ => trivial) a info h
  rcases lookup_handle_allocs hl with ⟨hrec, -⟩ | ⟨hold, -⟩
  · exact covered_recorded hrec
  · exact covered_handle (hm a info (lookup_of_beforeExit hold))

theorem Reachable.covered {cfg : Config} {m : Maps cap} (h : Reachable cfg m)
    (hroom : m.combinedAllocs.size < cap.combinedAllocs) : Covered m := by
  obtain ⟨evs, rfl⟩ := h
  intro a info hl
  exact (covered_run cfg evs a info hl).resolve_right (Nat.ne_of_lt hroom)

/-! ### The blocks -/

/-- What the record an event frees counts for in stack `k`. -/
def freedWeight (cfg : Config) (m : Maps cap) (ev : Event) (k : U64) : U64 :=
  (ev.calls cfg m).free.elim 0 fun address => m.weightAt address k

/-- What the record an event makes counts for in stack `k`. -/
def recordedWeight (cfg : Config) (m : Maps cap) (ev : Event) (k : U64) : U64 :=
  (recorded cfg m ev).elim 0 fun r => r.2.weight k

/-- **A block after an event**, where there is room: the one it records, none where it frees,
the old one elsewhere. -/
theorem lookup_handle_allocs_eq {cfg : Config} {m : Maps cap} (hm : m.NotFull) (ev : Event)
    (a : U64) : (handle cfg m ev).allocs.lookup a =
      match recorded cfg m ev with
      | some (address, info) =>
          if a = address then some info else (beforeExit cfg m ev).allocs.lookup a
      | none => (beforeExit cfg m ev).allocs.lookup a := by
  cases hrec : recorded cfg m ev with
  | none =>
      obtain ⟨s, hhandle⟩ := handle_of_recorded_none hrec
      rw [hhandle]
  | some r =>
      obtain ⟨s, hhandle⟩ := handle_of_recorded hrec
      rw [hhandle, track_allocs]
      exact BoundedMap.lookup_put (hm.allocsRoom ev r hrec) r.2 a

theorem lookup_beforeExit_allocs (cfg : Config) (m : Maps cap) (ev : Event) (a : U64) :
    (beforeExit cfg m ev).allocs.lookup a =
      if (ev.calls cfg m).free = some a then none else m.allocs.lookup a := by
  rw [beforeExit_allocs]
  cases (ev.calls cfg m).free with
  | none => simp
  | some address =>
      rw [Option.elim_some, BoundedMap.lookup_erase]
      exact if_congr (by rw [Option.some_inj, eq_comm]) rfl rfl

/-- The event frees the address or records a block there. -/
def Event.Touches (cfg : Config) (m : Maps cap) (ev : Event) (a : U64) : Prop :=
  (ev.calls cfg m).free = some a ∨ ∃ info, recorded cfg m ev = some (a, info)

theorem touches_iff {cfg : Config} {m : Maps cap} {ev : Event} {a : U64} :
    ev.Touches cfg m a ↔
      (ev.calls cfg m).free = some a ∨ (recorded cfg m ev).map Prod.fst = some a := by
  simp [Event.Touches]

instance (cfg : Config) (m : Maps cap) (ev : Event) (a : U64) : Decidable (ev.Touches cfg m a) :=
  decidable_of_iff' _ touches_iff

/-- An address the event does not touch keeps its block. -/
theorem lookup_handle_allocs_of_not_touches {cfg : Config} {m : Maps cap} (hm : m.NotFull)
    {ev : Event} {a : U64} (h : ¬ ev.Touches cfg m a) :
    (handle cfg m ev).allocs.lookup a = m.allocs.lookup a := by
  obtain ⟨hfree, hrecorded⟩ := not_or.mp h
  rw [lookup_handle_allocs_eq hm, lookup_beforeExit_allocs, if_neg hfree]
  cases hrec : recorded cfg m ev with
  | none => rfl
  | some r => exact if_neg fun heq : a = r.1 => hrecorded ⟨r.2, heq ▸ hrec⟩

/-- An entry after an event, where there is room: an earlier one, or that of the record the
event makes. -/
theorem mem_handle_combinedAllocs_iff {cfg : Config} {m : Maps cap} (hm : m.NotFull) (ev : Event)
    (k : U64) : k ∈ (handle cfg m ev).combinedAllocs ↔
      k ∈ m.combinedAllocs ∨ ∃ r ∈ recorded cfg m ev, r.2.stackKey = k := by
  cases hrec : recorded cfg m ev with
  | none =>
      obtain ⟨s, hhandle⟩ := handle_of_recorded_none hrec
      rw [hhandle]
      simp [mem_beforeExit_combinedAllocs]
  | some r =>
      obtain ⟨s, hhandle⟩ := handle_of_recorded hrec
      rw [hhandle, track_combinedAllocs, mem_updateStatisticsAdd (hm.combinedRoom ev _)]
      simp [mem_beforeExit_combinedAllocs, or_comm, eq_comm]

/-- **A word after an event**, where there is room: it loses what the freed record counts for
and gains what the new one does. -/
theorem word_handle {cfg : Config} {m : Maps cap} (hm : m.NotFull) (hcovered : Covered m)
    (ev : Event) (k : U64) : (handle cfg m ev).combinedAllocs.word k =
      m.combinedAllocs.word k - freedWeight cfg m ev k + recordedWeight cfg m ev k := by
  have hbefore : (beforeExit cfg m ev).combinedAllocs.word k =
      m.combinedAllocs.word k - freedWeight cfg m ev k := by
    rw [beforeExit, enterPhase_combinedAllocs, freePhase_with_memptrs, freePhase, freedWeight]
    cases (ev.calls cfg m).free with
    | none => exact (sub_zero _).symm
    | some address =>
        dsimp only [Option.elim_some]
        cases hl : m.allocs.lookup address with
        | none =>
            rw [genFreeEnter_of_none hl, weightAt_of_not_mem (BoundedMap.lookup_eq_none.mp hl),
              sub_zero]
        | some info =>
            rw [genFreeEnter_of_some hl, weightAt_of_lookup hl]
            exact word_untrack fun hk => hk ▸ hcovered address info hl
  rw [recordedWeight, ← hbefore]
  cases hrec : recorded cfg m ev with
  | none =>
      obtain ⟨s, hhandle⟩ := handle_of_recorded_none hrec
      rw [hhandle]
      exact (add_zero _).symm
  | some r =>
      obtain ⟨s, hhandle⟩ := handle_of_recorded hrec
      rw [hhandle, word_track]
      exact congrArg _ (if_pos (hm.combinedRoom ev _))

/-! ### The entries of the process -/

/-- The two states show the process the same pending size and the same pointer. -/
def SameEntries (env : Env) (m m' : Maps cap) : Prop :=
  m'.sizes.lookup env.pid = m.sizes.lookup env.pid ∧
    m'.memptrs.lookup env.pid64 = m.memptrs.lookup env.pid64

theorem calls_congr {cfg : Config} {m m' : Maps cap} {ev : Event}
    (h : m'.memptrs.lookup ev.env.pid64 = m.memptrs.lookup ev.env.pid64) :
    ev.calls cfg m' = ev.calls cfg m := by
  unfold Event.calls
  rw [h]

/-- The size an event hands to its exit is decided by the entries of its process. -/
theorem lookup_sizes_beforeExit_congr {cfg : Config} {m m' : Maps cap} (hm : m.NotFull)
    (hm' : m'.NotFull) {ev : Event} (h : SameEntries ev.env m m') :
    (beforeExit cfg m' ev).sizes.lookup ev.env.pid =
      (beforeExit cfg m ev).sizes.lookup ev.env.pid := by
  rw [beforeExit_sizes, beforeExit_sizes, calls_congr h.2]
  cases (ev.calls cfg m).enter with
  | none => exact h.1
  | some size =>
      dsimp only [Option.elim_some]
      split
      case isTrue =>
        rw [BoundedMap.lookup_put (.of_size_lt hm.1 _), BoundedMap.lookup_put (.of_size_lt hm'.1 _),
          if_pos rfl, if_pos rfl]
      case isFalse => exact h.1

/-- The record an event makes is decided by the entries of its process. -/
theorem recorded_congr {cfg : Config} {m m' : Maps cap} (hm : m.NotFull) (hm' : m'.NotFull)
    {ev : Event} (h : SameEntries ev.env m m') : recorded cfg m' ev = recorded cfg m ev := by
  unfold recorded exitRecord
  rw [calls_congr h.2, lookup_sizes_beforeExit_congr hm hm' h]

theorem lookup_memptrs_handle_of_ne (cfg : Config) (m : Maps cap) {ev : Event} {k : U64}
    (h : k ≠ ev.env.pid64) : (handle cfg m ev).memptrs.lookup k = m.memptrs.lookup k := by
  rw [handle_memptrs, lookup_memptrsAfter_of_ne m h]

/-- What an event leaves pending is decided by the entries of its process. -/
theorem lookup_sizes_handle_congr {cfg : Config} {m m' : Maps cap} (hm : m.NotFull)
    (hm' : m'.NotFull) {ev : Event} (h : SameEntries ev.env m m') :
    (handle cfg m' ev).sizes.lookup ev.env.pid = (handle cfg m ev).sizes.lookup ev.env.pid := by
  have hbefore : (beforeExit cfg m' ev).sizes.lookup ev.env.pid =
      (beforeExit cfg m ev).sizes.lookup ev.env.pid := lookup_sizes_beforeExit_congr hm hm' h
  rw [handle_eq, handle_eq, exitPhase_sizes, exitPhase_sizes, calls_congr h.2]
  cases (ev.calls cfg m).exit with
  | none => exact hbefore
  | some address =>
      rw [Option.elim_some, Option.elim_some, BoundedMap.lookup_erase, BoundedMap.lookup_erase,
        if_pos rfl, if_pos rfl]

/-- The pointer an event leaves is decided by the pointer it finds. -/
theorem lookup_memptrs_handle_congr {cfg : Config} {m m' : Maps cap} (hm : m.NotFull)
    (hm' : m'.NotFull) {ev : Event} (h : SameEntries ev.env m m') :
    (handle cfg m' ev).memptrs.lookup ev.env.pid64 =
      (handle cfg m ev).memptrs.lookup ev.env.pid64 := by
  have hroom : m.memptrs.HasRoom ev.env.pid64 := .of_size_lt hm.2.2.2 _
  have hroom' : m'.memptrs.HasRoom ev.env.pid64 := .of_size_lt hm'.2.2.2 _
  rw [handle_memptrs, handle_memptrs]
  obtain ⟨env, program⟩ := ev
  cases program with
  | posixMemalignEnter memptr =>
      exact ((BoundedMap.lookup_put hroom' memptr _).trans (if_pos rfl)).trans
        ((BoundedMap.lookup_put hroom memptr _).trans (if_pos rfl)).symm
  | posixMemalignExit =>
      exact ((BoundedMap.lookup_erase _ _ _).trans (if_pos rfl)).trans
        ((BoundedMap.lookup_erase _ _ _).trans (if_pos rfl)).symm
  | _ => exact h.2

/-! ### One event in two states -/

section Congr

variable {cfg : Config} {m m' : Maps cap} {ev : Event}

theorem touches_congr (hm : m.NotFull) (hm' : m'.NotFull) (h : SameEntries ev.env m m') {a : U64} :
    ev.Touches cfg m' a ↔ ev.Touches cfg m a := by
  rw [Event.Touches, Event.Touches, calls_congr h.2, recorded_congr hm hm' h]

/-- What the event leaves at an address is decided by the block it finds there. -/
theorem lookup_handle_allocs_congr (hm : m.NotFull) (hm' : m'.NotFull)
    (h : SameEntries ev.env m m') {a : U64} (ha : m'.allocs.lookup a = m.allocs.lookup a) :
    (handle cfg m' ev).allocs.lookup a = (handle cfg m ev).allocs.lookup a := by
  rw [lookup_handle_allocs_eq hm, lookup_handle_allocs_eq hm', lookup_beforeExit_allocs,
    lookup_beforeExit_allocs, calls_congr h.2, recorded_congr hm hm' h, ha]

/-- What the event takes out of a word is decided by the block it frees. -/
theorem freedWeight_congr (h : SameEntries ev.env m m')
    (hfree : ∀ a, (ev.calls cfg m).free = some a → m'.allocs.lookup a = m.allocs.lookup a)
    (k : U64) : freedWeight cfg m' ev k = freedWeight cfg m ev k := by
  rw [freedWeight, freedWeight, calls_congr h.2]
  cases ha : (ev.calls cfg m).free with
  | none => rfl
  | some a => rw [Option.elim_some, Option.elim_some, Maps.weightAt, Maps.weightAt, hfree a ha]

theorem recordedWeight_congr (hm : m.NotFull) (hm' : m'.NotFull) (h : SameEntries ev.env m m')
    (k : U64) : recordedWeight cfg m' ev k = recordedWeight cfg m ev k := by
  rw [recordedWeight, recordedWeight, recorded_congr hm hm' h]

end Congr

end EbpfMemleak
