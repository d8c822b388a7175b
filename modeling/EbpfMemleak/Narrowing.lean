import EbpfMemleak.Effects
import Mathlib.Data.FinEnum

/-!
# EbpfMemleak.Narrowing

**The size range could as well be applied to the report.** `gen_alloc_enter` drops a call
whose size is out of range before anything is stored. This module compares a run with a
range to the run of the same events with a wider one: after every event the blocks of the
first are those of the second whose size is in the range, and its statistics are the sums
over these (`size_filter_early_or_late`).

The relation between the two runs is `Narrowed`. An enter that is dropped leaves what is
pending for its process, where the wide run replaces it; so the events have to find nothing
pending at an enter (`EnterIdle`), as they do while a process has one call open at a time.
-/

namespace EbpfMemleak

variable {cap : Capacities}

/-! ### The narrower range -/

/-- The same flags with another size range. -/
def Config.narrow (cfg : Config) (lo hi : U64) : Config := { cfg with minSize := lo, maxSize := hi }

/-- `size >= min_size && size <= max_size`. -/
def InRange (lo hi size : U64) : Prop := lo ≤ size ∧ size ≤ hi

instance (lo hi size : U64) : Decidable (InRange lo hi size) := inferInstanceAs (Decidable (_ ∧ _))

variable {cfg : Config} {lo hi : U64}

theorem accepted_narrow (hlo : cfg.minSize ≤ lo) (hhi : hi ≤ cfg.maxSize) {env : Env}
    {size : U64} :
    Accepted (cfg.narrow lo hi) env size ↔ Accepted cfg env size ∧ InRange lo hi size := by
  constructor
  · rintro ⟨⟨hmin, hmax⟩, hrest⟩
    exact ⟨⟨⟨BitVec.le_trans hlo hmin, BitVec.le_trans hmax hhi⟩, hrest⟩, hmin, hmax⟩
  · rintro ⟨⟨-, hrest⟩, hrange⟩
    exact ⟨hrange, hrest⟩

theorem calls_narrow (m : Maps cap) (ev : Event) :
    ev.calls (cfg.narrow lo hi) m = ev.calls cfg m := by
  obtain ⟨env, program⟩ := ev
  cases program <;> rfl

/-! ### The relation -/

/-- No enter finds a size pending for its process. -/
def EnterIdle (cfg : Config) (m : Maps cap) (ev : Event) : Prop :=
  ∀ size ∈ (ev.calls cfg m).enter, m.sizes.lookup ev.env.pid = none

instance (cfg : Config) (m : Maps cap) (ev : Event) : Decidable (EnterIdle cfg m ev) :=
  Option.decidableForallMem _

/-- `m'` has what `m` has in the range. -/
structure Narrowed (lo hi : U64) (m m' : Maps cap) : Prop where
  sizes : ∀ pid, m'.sizes.lookup pid = (m.sizes.lookup pid).filter (InRange lo hi ·)
  allocs : ∀ a, m'.allocs.lookup a = (m.allocs.lookup a).filter (InRange lo hi ·.size)
  combinedAllocs : ∀ k ∈ m'.combinedAllocs, k ∈ m.combinedAllocs
  memptrs : m'.memptrs = m.memptrs

namespace Narrowed

variable {m m' : Maps cap} {ev : Event}

theorem empty : Narrowed lo hi (Maps.empty : Maps cap) Maps.empty :=
  ⟨fun _ => rfl, fun _ => rfl, fun _ hk => hk, rfl⟩

/-- The narrower maps have room where the wider ones have. -/
theorem notFull (h : Narrowed lo hi m m') (hm : m.NotFull) : m'.NotFull := by
  have hkept {κ ν : Type} [DecidableEq κ] {n : Nat} {p : ν → Bool} {b b' : BoundedMap n κ ν}
      (hb : ∀ k, b'.lookup k = (b.lookup k).filter p) : b'.size ≤ b.size := by
    refine BoundedMap.size_le_of_mem_imp fun k hk => ?_
    obtain ⟨v, hv⟩ := BoundedMap.mem_iff.mp hk
    rw [hb k, Option.filter_eq_some_iff] at hv
    exact BoundedMap.mem_of_lookup hv.1
  obtain ⟨hsizes, hallocs, hcomb, hmemptrs⟩ := hm
  exact ⟨(hkept h.sizes).trans_lt hsizes, (hkept h.allocs).trans_lt hallocs,
    (BoundedMap.size_le_of_mem_imp h.combinedAllocs).trans_lt hcomb, h.memptrs ▸ hmemptrs⟩

theorem calls (h : Narrowed lo hi m m') :
    ev.calls (cfg.narrow lo hi) m' = ev.calls cfg m := by
  rw [calls_narrow]
  exact calls_congr (by rw [h.memptrs])

variable (hlo : cfg.minSize ≤ lo) (hhi : hi ≤ cfg.maxSize)
include hlo hhi

/-- What is pending when the event comes to its exit. -/
theorem beforeExit_sizes (h : Narrowed lo hi m m') (hm : m.NotFull) (hidle : EnterIdle cfg m ev)
    (pid : Pid) :
    (beforeExit (cfg.narrow lo hi) m' ev).sizes.lookup pid =
      ((beforeExit cfg m ev).sizes.lookup pid).filter (InRange lo hi ·) := by
  rw [EbpfMemleak.beforeExit_sizes, EbpfMemleak.beforeExit_sizes, h.calls]
  cases henter : (ev.calls cfg m).enter with
  | none => exact h.sizes pid
  | some size =>
      have hroom := BoundedMap.HasRoom.of_size_lt hm.1 ev.env.pid
      have hroom' := BoundedMap.HasRoom.of_size_lt (h.notFull hm).1 ev.env.pid
      have hnone : m.sizes.lookup ev.env.pid = none := hidle size henter
      simp only [Option.elim_some, accepted_narrow hlo hhi]
      by_cases hacc : Accepted cfg ev.env size
      · rw [if_pos hacc, BoundedMap.lookup_put hroom]
        by_cases hrange : InRange lo hi size
        · rw [if_pos ⟨hacc, hrange⟩, BoundedMap.lookup_put hroom']
          split
          · rw [Option.filter_some, if_pos (decide_eq_true hrange)]
          · exact h.sizes pid
        · -- the wide run has the size pending, the narrow one has nothing
          rw [if_neg fun hboth => hrange hboth.2, h.sizes]
          split
          case isTrue hpid =>
            rw [Option.filter_some, if_neg (by simpa using hrange), hpid, hnone]
            rfl
          case isFalse => rfl
      · rw [if_neg hacc, if_neg fun hboth => hacc hboth.1]
        exact h.sizes pid

/-- **What the event records**: what it records in the wide run, if that is in the range. -/
theorem recorded (h : Narrowed lo hi m m') (hm : m.NotFull) (hidle : EnterIdle cfg m ev) :
    EbpfMemleak.recorded (cfg.narrow lo hi) m' ev =
      (EbpfMemleak.recorded cfg m ev).filter fun r => InRange lo hi r.2.size := by
  unfold EbpfMemleak.recorded exitRecord
  rw [h.calls, h.beforeExit_sizes hlo hhi hm hidle]
  cases (ev.calls cfg m).exit with
  | none => rfl
  | some address =>
      cases hsize : (beforeExit cfg m ev).sizes.lookup ev.env.pid with
      | none => rfl
      | some size =>
          by_cases hrange : InRange lo hi size <;> by_cases haddr : address = 0#64 <;>
            simp [Option.filter, hrange, haddr]

/-- **One event keeps the relation.** -/
theorem step (h : Narrowed lo hi m m') (hm : m.NotFull) (hidle : EnterIdle cfg m ev)
    (hfresh : ExitFresh cfg m ev) :
    Narrowed lo hi (handle cfg m ev) (handle (cfg.narrow lo hi) m' ev) where
  sizes pid := by
    have hbefore := h.beforeExit_sizes hlo hhi hm hidle pid
    rw [handle_eq, handle_eq, exitPhase_sizes, exitPhase_sizes, h.calls]
    cases (ev.calls cfg m).exit with
    | none => exact hbefore
    | some address =>
        rw [Option.elim_some, Option.elim_some, BoundedMap.lookup_erase, BoundedMap.lookup_erase]
        split
        · rfl
        · exact hbefore
  allocs a := by
    have hbefore : (beforeExit (cfg.narrow lo hi) m' ev).allocs.lookup a =
        ((beforeExit cfg m ev).allocs.lookup a).filter (InRange lo hi ·.size) := by
      rw [lookup_beforeExit_allocs, lookup_beforeExit_allocs, h.calls, h.allocs]
      split <;> rfl
    rw [lookup_handle_allocs_eq hm, lookup_handle_allocs_eq (h.notFull hm),
      h.recorded hlo hhi hm hidle]
    cases hrec : EbpfMemleak.recorded cfg m ev with
    | none => exact hbefore
    | some r =>
        obtain ⟨address, info⟩ := r
        obtain ⟨hexit, -⟩ := recorded_eq_some.mp hrec
        have hnew := BoundedMap.lookup_eq_none.mpr (hfresh address hexit)
        by_cases hrange : InRange lo hi info.size
        · rw [Option.filter_some, if_pos (decide_eq_true hrange)]
          dsimp only
          split
          · rw [Option.filter_some, if_pos (decide_eq_true hrange)]
          · exact hbefore
        · -- stored in the wide run only, at an address that neither had
          rw [Option.filter_some, if_neg (by simpa using hrange), hbefore]
          dsimp only
          split
          case isTrue ha =>
            rw [Option.filter_some, if_neg (by simpa using hrange), ha, hnew]
            rfl
          case isFalse => rfl
  combinedAllocs k hk := by
    rw [mem_handle_combinedAllocs_iff (h.notFull hm), h.recorded hlo hhi hm hidle] at hk
    rw [mem_handle_combinedAllocs_iff hm]
    refine hk.imp (h.combinedAllocs k) ?_
    rintro ⟨r, hr, hkey⟩
    exact ⟨r, (Option.filter_eq_some_iff.mp hr).1, hkey⟩
  memptrs := by
    rw [handle_memptrs, handle_memptrs]
    unfold Event.memptrsAfter
    rw [h.memptrs]

omit hlo hhi in
/-- An address that is fresh in the wide run is fresh in the narrow one. -/
theorem exitFresh (h : Narrowed lo hi m m') (hfresh : ExitFresh cfg m ev) :
    ExitFresh (cfg.narrow lo hi) m' ev := by
  intro address hexit
  rw [h.calls] at hexit
  have hnew := BoundedMap.lookup_eq_none.mpr (hfresh address hexit)
  rw [lookup_beforeExit_allocs] at hnew
  rw [← BoundedMap.lookup_eq_none, lookup_beforeExit_allocs, h.calls, h.allocs]
  split at hnew
  case isTrue hfree => rw [if_pos hfree]
  case isFalse hfree =>
    rw [if_neg hfree, hnew]
    rfl

omit hlo hhi in
/-- The records of a stack that are in the range. -/
theorem records (h : Narrowed lo hi m m') (k : U64) :
    m'.records k = (m.records k).filter fun info => InRange lo hi info.size := by
  unfold Maps.records
  rw [BoundedMap.values_filter h.allocs, Multiset.filter_filter, Multiset.filter_filter]
  exact Multiset.filter_congr fun info _ => and_comm

/-- **So does a run**, and the narrow statistics stay exact. -/
theorem run {evs : List Event}
    (hidle : Run.Along (handle cfg) (EnterIdle cfg) (Maps.empty : Maps cap) evs)
    (hfresh : Run.Along (handle cfg) (ExitFresh cfg) (Maps.empty : Maps cap) evs)
    (hfull : Run.Along (handle cfg) (fun m _ => m.NotFull) (Maps.empty : Maps cap) evs) :
    Narrowed lo hi (EbpfMemleak.run cfg (Maps.empty : Maps cap) evs)
        (EbpfMemleak.run (cfg.narrow lo hi) Maps.empty evs) ∧
      Exact (EbpfMemleak.run (cfg.narrow lo hi) (Maps.empty : Maps cap) evs) := by
  refine Run.foldl_simulation (R := fun m m' : Maps cap => Narrowed lo hi m m' ∧ Exact m')
    (Q := fun _ _ => True) (fun m m' ev hrel hstep _ => ?_) ⟨empty, exact_empty⟩
    ((hidle.and hfresh).and hfull) (Run.along_iff_forall_mem.mpr fun _ _ => trivial)
  obtain ⟨h, hexact⟩ := hrel
  obtain ⟨⟨hidle, hfresh⟩, hm⟩ := hstep
  exact ⟨h.step hlo hhi hm hidle hfresh,
    hexact.handle (h.exitFresh hfresh) ((h.notFull hm).bothOrNeither ev)⟩

end Narrowed

/-- **A size range drops what a report would drop.** Take any events that find nothing
pending at an enter, return fresh addresses and fill no map, and any size range within that
of the flags. Run with the narrower range they leave exactly the blocks of the wider run with
a size in it, and the statistics of every stack are the packed sum of these. -/
theorem size_filter_early_or_late (cfg : Config) (lo hi : U64) (hlo : cfg.minSize ≤ lo)
    (hhi : hi ≤ cfg.maxSize) (evs : List Event)
    (hidle : Run.Along (handle cfg) (EnterIdle cfg) (Maps.empty : Maps cap) evs)
    (hfresh : Run.Along (handle cfg) (ExitFresh cfg) (Maps.empty : Maps cap) evs)
    (hfull : Run.Along (handle cfg) (fun m _ => m.NotFull) (Maps.empty : Maps cap) evs) :
    let wide : Maps cap := run cfg .empty evs
    let narrow : Maps cap := run (cfg.narrow lo hi) .empty evs
    (∀ a, narrow.allocs.lookup a =
        (wide.allocs.lookup a).filter fun info => InRange lo hi info.size) ∧
      ∀ k, narrow.combinedAllocs.word k =
        packedSum ((wide.records k).filter fun info => InRange lo hi info.size) := by
  intro wide narrow
  obtain ⟨h, hexact⟩ := Narrowed.run hlo hhi hidle hfresh hfull
  refine ⟨h.allocs, fun k => ?_⟩
  rw [← h.records k]
  exact drift_eq_zero.mp (hexact.drift k)

/-- Three calls, one of them below the range and one above. -/
theorem size_filter_early_or_late_three :
    let evs := mallocCall 0x700000007 3 10 0x1000 ++ mallocCall 0x700000007 3 100 0x2000 ++
      mallocCall 0x700000007 3 5000 0x3000
    (run (Config.narrow {} 64 4096) (Maps.empty : Maps .source) evs).combinedAllocs.word 3 =
      2 ^ 40 + 100 := by
  intro evs
  have hfilter := @size_filter_early_or_late .source {} 64 4096 (by decide) (by decide) evs
    (by decide +kernel) (by decide +kernel) (by decide +kernel)
  exact (hfilter.2 3).trans (by decide +kernel)

end EbpfMemleak
