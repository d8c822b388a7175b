import EbpfMemleak.Programs
import Mathlib.Tactic.Abel

/-!
# EbpfMemleak.Drift

**How far the statistics are from the records.** The drift of a stack is its
packed word less the packed sum of the records `allocs` holds for it, modulo
`2 ^ 64`. It is zero while the two maps are in step.

A drift, once there, stays: no program ever compares the two maps. This module
computes what each update does to it, whatever the state. A free never changes
it where the stack has an entry (`drift_untrack`). Recording a block changes it
by what is counted but not stored, or stored but not counted, and by what an
overwritten record leaves behind (`drift_track`). The results about full maps
and about reused addresses are cases of this one equation.
-/

namespace EbpfMemleak

variable {cap : Capacities}

/-! ### Weights -/

/-- What a record counts for in stack `k`. -/
def AllocInfo.weight (info : AllocInfo) (k : U64) : U64 :=
  if info.stackKey = k then contribution info.size else 0

@[simp] theorem weight_stackKey (info : AllocInfo) :
    info.weight info.stackKey = contribution info.size := if_pos rfl

theorem weight_of_ne {info : AllocInfo} {k : U64} (h : info.stackKey ≠ k) :
    info.weight k = 0 := if_neg h

/-- What the record stored at an address, if any, counts for in stack `k`. -/
def Maps.weightAt (m : Maps cap) (address k : U64) : U64 :=
  (m.allocs.lookup address).elim 0 fun info => info.weight k

theorem weightAt_of_lookup {m : Maps cap} {address : U64} {info : AllocInfo}
    (h : m.allocs.lookup address = some info) (k : U64) :
    m.weightAt address k = info.weight k := by
  rw [Maps.weightAt, h]
  rfl

theorem weightAt_of_not_mem {m : Maps cap} {address : U64} (h : address ∉ m.allocs) (k : U64) :
    m.weightAt address k = 0 := by
  rw [Maps.weightAt, BoundedMap.lookup_eq_none.mpr h]
  rfl

theorem packedSum_filter_cons (info : AllocInfo) (s : Multiset AllocInfo) (k : U64) :
    packedSum ((info ::ₘ s).filter fun i => i.stackKey = k) =
      info.weight k + packedSum (s.filter fun i => i.stackKey = k) := by
  rw [filter_stackKey_cons, AllocInfo.weight]
  split
  case isTrue => exact packedSum_cons _ _
  case isFalse => exact (zero_add _).symm

/-! ### Words and records under the two updates -/

/-- The word of a stack grows by the weight of the record, where there is room. -/
theorem word_track (address : U64) (info : AllocInfo) (m : Maps cap) (k : U64) :
    (m.track address info).combinedAllocs.word k =
      m.combinedAllocs.word k +
        if m.combinedAllocs.HasRoom info.stackKey then info.weight k else 0 := by
  rw [track_combinedAllocs]
  by_cases hroom : m.combinedAllocs.HasRoom info.stackKey
  · rw [word_updateStatisticsAdd hroom, if_pos hroom]
    by_cases heq : info.stackKey = k
    · subst heq
      rw [if_pos rfl, weight_stackKey]
    · rw [if_neg (Ne.symm heq), weight_of_ne heq, add_zero]
  · rw [updateStatisticsAdd_of_not_room hroom, if_neg hroom, add_zero]

/-- Counting a record changes the word of its stack, since a contribution is never
zero. -/
theorem track_combinedAllocs_ne {address : U64} {info : AllocInfo} {m : Maps cap}
    (hroom : m.combinedAllocs.HasRoom info.stackKey) :
    (m.track address info).combinedAllocs ≠ m.combinedAllocs := by
  intro heq
  have hword := @word_updateStatisticsAdd _ _ info.size _ hroom info.stackKey
  rw [if_pos rfl, ← track_combinedAllocs address info m, heq] at hword
  exact contribution_ne_zero info.size (left_eq_add.mp hword)

/-- The records of a stack gain the new one and lose the one it replaces, where
there is room. -/
theorem packedSum_records_track (address : U64) (info : AllocInfo) (m : Maps cap) (k : U64) :
    packedSum ((m.track address info).records k) =
      packedSum (m.records k) +
        if m.allocs.HasRoom address then info.weight k - m.weightAt address k else 0 := by
  by_cases hroom : m.allocs.HasRoom address
  · rw [if_pos hroom]
    cases hold : m.allocs.lookup address with
    | none =>
        have hfresh : address ∉ m.allocs := BoundedMap.lookup_eq_none.mp hold
        rw [weightAt_of_not_mem hfresh, Maps.records, track_allocs,
          BoundedMap.values_put_of_not_mem hfresh hroom, packedSum_filter_cons, Maps.records]
        abel
    | some old =>
        have hswap := congrArg
          (fun s => packedSum (s.filter fun i : AllocInfo => i.stackKey = k))
          (BoundedMap.values_put_of_lookup (v := info) hold)
        rw [packedSum_filter_cons, packedSum_filter_cons] at hswap
        rw [weightAt_of_lookup hold, Maps.records, track_allocs, Maps.records]
        rw [← add_right_inj (old.weight k), hswap]
        abel
  · have hallocs : (m.track address info).allocs = m.allocs := by
      rw [track_allocs, BoundedMap.put_of_not_room hroom]
    rw [if_neg hroom, add_zero, records_eq_of_allocs hallocs]

/-- The word of a stack drops by the weight of the record, unless it would have to
be the word of a stack without an entry. -/
theorem word_untrack {address : U64} {info : AllocInfo} {m : Maps cap} {k : U64}
    (hk : info.stackKey = k → k ∈ m.combinedAllocs) :
    (m.untrack address info).combinedAllocs.word k =
      m.combinedAllocs.word k - info.weight k := by
  rw [untrack_combinedAllocs]
  by_cases heq : info.stackKey = k
  · subst heq
    rw [word_updateStatisticsDel (hk rfl), if_pos rfl, weight_stackKey]
  · rw [word_updateStatisticsDel_of_ne (Ne.symm heq), weight_of_ne heq, sub_zero]

theorem packedSum_records_untrack {address : U64} {info : AllocInfo} {m : Maps cap}
    (h : m.allocs.lookup address = some info) (k : U64) :
    packedSum ((m.untrack address info).records k) = packedSum (m.records k) - info.weight k := by
  have hvalues : m.allocs.values = info ::ₘ (m.untrack address info).allocs.values :=
    BoundedMap.values_erase_of_lookup h
  rw [Maps.records, Maps.records, hvalues, packedSum_filter_cons, add_sub_cancel_left]

/-! ### Drift -/

/-- The packed word of a stack less the packed sum of its records. -/
def Maps.drift (m : Maps cap) (k : U64) : U64 :=
  m.combinedAllocs.word k - packedSum (m.records k)

theorem drift_eq_zero {m : Maps cap} {k : U64} :
    m.drift k = 0 ↔ m.combinedAllocs.word k = packedSum (m.records k) := sub_eq_zero

@[simp] theorem drift_empty (k : U64) : (Maps.empty : Maps cap).drift k = 0 :=
  drift_eq_zero.mpr (CombinedAllocs.word_of_not_mem (BoundedMap.not_mem_empty k))

/-- A free keeps the drift of a stack with an entry, and of every other stack than
its own. -/
theorem drift_untrack {address : U64} {info : AllocInfo} {m : Maps cap} {k : U64}
    (h : m.allocs.lookup address = some info)
    (hk : info.stackKey = k → k ∈ m.combinedAllocs) :
    (m.untrack address info).drift k = m.drift k := by
  rw [Maps.drift, word_untrack hk, packedSum_records_untrack h, Maps.drift]
  abel

/-- **What recording a block does to the drift.** It grows by the weight of the
record if it is counted, shrinks by it if it is stored, and grows by the weight
of the record it overwrites. -/
theorem drift_track (address : U64) (info : AllocInfo) (m : Maps cap) (k : U64) :
    (m.track address info).drift k =
      m.drift k + (if m.combinedAllocs.HasRoom info.stackKey then info.weight k else 0) -
        (if m.allocs.HasRoom address then info.weight k - m.weightAt address k else 0) := by
  rw [Maps.drift, word_track, packedSum_records_track, Maps.drift]
  abel

/-- Counted and stored: only the overwritten record is left behind. -/
theorem drift_track_of_room {address : U64} {info : AllocInfo} {m : Maps cap}
    (hallocs : m.allocs.HasRoom address) (hcomb : m.combinedAllocs.HasRoom info.stackKey)
    (k : U64) : (m.track address info).drift k = m.drift k + m.weightAt address k := by
  rw [drift_track, if_pos hcomb, if_pos hallocs]
  abel

/-! ### Exact statistics -/

/-- The statistics are exact: no stack has drifted, and every stack with a record
has an entry for a later free to subtract from. -/
structure Exact (m : Maps cap) : Prop where
  /-- Every word is the packed sum of the records. -/
  drift : ∀ k, m.drift k = 0
  /-- Every record is counted in an entry. -/
  covered : ∀ address info, m.allocs.lookup address = some info →
    info.stackKey ∈ m.combinedAllocs

theorem exact_empty : Exact (Maps.empty : Maps cap) :=
  ⟨drift_empty, fun _ _ h => by cases h⟩

theorem Exact.frame {m : Maps cap} (h : Exact m) (s : BoundedMap cap.sizes Pid U64)
    (p : BoundedMap cap.memptrs U64 U64) : Exact { m with sizes := s, memptrs := p } :=
  ⟨h.drift, h.covered⟩

/-- A free keeps the statistics exact. -/
theorem Exact.untrack {m : Maps cap} (h : Exact m) {address : U64} {info : AllocInfo}
    (hl : m.allocs.lookup address = some info) : Exact (m.untrack address info) := by
  constructor
  · intro k
    rw [drift_untrack hl fun hk => hk ▸ h.covered address info hl]
    exact h.drift k
  · intro a info' ha
    rw [untrack_allocs, BoundedMap.lookup_erase] at ha
    split at ha
    case isTrue => cases ha
    case isFalse => exact mem_updateStatisticsDel.mpr (h.covered a info' ha)

theorem Exact.genFreeEnter {m : Maps cap} (h : Exact m) (address : U64) :
    Exact (genFreeEnter address m) := by
  cases hl : m.allocs.lookup address with
  | none => rwa [genFreeEnter_of_none hl]
  | some info =>
      rw [genFreeEnter_of_some hl]
      exact h.untrack hl

/-- Recording a new block keeps the statistics exact if both insertions succeed or
both fail. -/
theorem Exact.track {m : Maps cap} (h : Exact m) {address : U64} {info : AllocInfo}
    (hfresh : address ∉ m.allocs)
    (hboth : m.allocs.HasRoom address ↔ m.combinedAllocs.HasRoom info.stackKey) :
    Exact (m.track address info) := by
  by_cases hroom : m.allocs.HasRoom address
  · have hcomb := hboth.mp hroom
    constructor
    · intro k
      rw [drift_track_of_room hroom hcomb, weightAt_of_not_mem hfresh, add_zero]
      exact h.drift k
    · intro a info' ha
      rw [track_allocs, BoundedMap.lookup_put hroom] at ha
      rw [track_combinedAllocs, mem_updateStatisticsAdd hcomb]
      split at ha
      case isTrue => exact Or.inl (Option.some.inj ha ▸ rfl)
      case isFalse => exact Or.inr (h.covered a info' ha)
  · have hcomb : ¬ m.combinedAllocs.HasRoom info.stackKey := fun hc => hroom (hboth.mpr hc)
    have hsame : m.track address info = m := by
      rw [Maps.track, BoundedMap.put_of_not_room hroom, updateStatisticsAdd_of_not_room hcomb]
    rw [hsame]
    exact h

end EbpfMemleak
