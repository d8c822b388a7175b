import EbpfMemleak.Agreement

/-!
# EbpfMemleak.Window

**A report of a target that does not stand still.** `Run` reads `combined_allocs` entry by
entry, and then `allocs`; the programs go on in the meantime. So the numbers of a stack and
its list are of different moments.

They still differ by known amounts. What an event takes from the records of a stack and what
it adds balance (`records_handle`), hence so they do over the events between the two
moments (`records_run`). `report_balances` is this for the report: the list and what was
freed since the numbers were read are the numbers and what was recorded since.
-/

namespace EbpfMemleak

variable {cap : Capacities}

/-! ### The balance of a stack -/

/-- The record of stack `k` an event frees, if it frees one. -/
def freedOn (cfg : Config) (k : U64) (m : Maps cap) (ev : Event) : Multiset AllocInfo :=
  ((ev.calls cfg m).free.bind m.allocs.lookup).elim 0 fun info =>
    if info.stackKey = k then {info} else 0

/-- The record an event makes on stack `k`, if it makes one. -/
def recordedOn (cfg : Config) (k : U64) (m : Maps cap) (ev : Event) : Multiset AllocInfo :=
  (recorded cfg m ev).elim 0 fun r => if r.2.stackKey = k then {r.2} else 0

/-- The free of an event takes what it takes. -/
theorem records_beforeExit (cfg : Config) (k : U64) (m : Maps cap) (ev : Event) :
    m.records k = (beforeExit cfg m ev).records k + freedOn cfg k m ev := by
  have hallocs := beforeExit_allocs cfg m ev
  unfold freedOn
  cases hfree : (ev.calls cfg m).free with
  | none =>
      have hsame : (beforeExit cfg m ev).allocs = m.allocs := by rw [hallocs, hfree]; rfl
      simp [records_eq_of_allocs hsame]
  | some address =>
      rw [hfree, Option.elim_some] at hallocs
      rw [Option.bind_some]
      cases hl : m.allocs.lookup address with
      | none =>
          rw [BoundedMap.erase_of_not_mem (BoundedMap.lookup_eq_none.mp hl)] at hallocs
          simp [records_eq_of_allocs hallocs]
      | some info =>
          have hsame : (beforeExit cfg m ev).allocs = (m.untrack address info).allocs := hallocs
          rw [records_untrack hl, records_eq_of_allocs hsame, Option.elim_some]
          split
          · rw [← Multiset.singleton_add, add_comm]
          · rw [add_zero]

/-- **One event balances**: the records of a stack and what the event adds to them are the
records afterwards and what it frees of them. -/
theorem records_handle {cfg : Config} {m : Maps cap} {ev : Event} (k : U64)
    (hfresh : ExitFresh cfg m ev) (hroom : AllocsRoom cfg m ev) :
    m.records k + recordedOn cfg k m ev = (handle cfg m ev).records k + freedOn cfg k m ev := by
  have hbefore := records_beforeExit cfg k m ev
  unfold recordedOn
  cases hrec : recorded cfg m ev with
  | none =>
      obtain ⟨s, hhandle⟩ := handle_of_recorded_none hrec
      rw [hhandle, Option.elim_none, add_zero, hbefore]
      rfl
  | some r =>
      obtain ⟨address, info⟩ := r
      obtain ⟨s, hhandle⟩ := handle_of_recorded hrec
      obtain ⟨hexit, -⟩ := recorded_eq_some.mp hrec
      have hnew : address ∉ (beforeExit cfg m ev).allocs := hfresh address hexit
      have htrack : (handle cfg m ev).records k =
          if info.stackKey = k then info ::ₘ (beforeExit cfg m ev).records k
          else (beforeExit cfg m ev).records k := by
        rw [hhandle]
        exact records_track hnew (hroom _ hrec) k
      rw [htrack, Option.elim_some, hbefore]
      split
      · rw [← Multiset.singleton_add]
        abel
      · rw [add_zero]

/-- **So does a run.** -/
theorem records_run {cfg : Config} {m : Maps cap} {evs : List Event} (k : U64)
    (hfresh : Run.Along (handle cfg) (ExitFresh cfg) m evs)
    (hroom : Run.Along (handle cfg) (AllocsRoom cfg) m evs) :
    m.records k + Run.total (handle cfg) (recordedOn cfg k) m evs =
      (run cfg m evs).records k + Run.total (handle cfg) (freedOn cfg k) m evs :=
  Run.total_balance (recordedOn cfg k) (freedOn cfg k) (fun m => m.records k)
    (fun _ _ h => records_handle k h.1 h.2) (hfresh.and hroom)

/-! ### The first pass -/

/-- A pass over `combined_allocs` while events go on. Every entry is what the map held for
its key at some moment, and no key comes twice, since none is deleted. -/
structure MovingPass (cap : Capacities) (cfg : Config) (evs : List Event) where
  entries : List (U64 × CombinedAllocInfo)
  nodup : (entries.map Prod.fst).Nodup
  moment : ∀ entry ∈ entries, ∃ pre, pre <+: evs ∧
    (run cfg (Maps.empty : Maps cap) pre).combinedAllocs.lookup entry.1 = some entry.2

/-- What the pass hands to Go. -/
def MovingPass.raw {cfg : Config} {evs : List Event} (pass : MovingPass cap cfg evs) :
    List (U64 × CombinedAllocInfoRaw) :=
  pass.entries.map fun p => (p.1, .ofBits .little p.2.bits)

/-- The keys of the pass are sign extensions. -/
theorem MovingPass.extended {cfg : Config} {evs : List Event} (pass : MovingPass cap cfg evs)
    {k : U64} (hk : k ∈ pass.entries.map Prod.fst) : (k.setWidth 32).signExtend 64 = k := by
  obtain ⟨entry, hentry, rfl⟩ := List.mem_map.mp hk
  obtain ⟨pre, -, hl⟩ := pass.moment entry hentry
  exact keysExtended_run cfg pre _ (BoundedMap.mem_of_lookup hl)

/-! ### The report -/

/-- The list of a stack and its numbers, which were read `rest` earlier: the list has the
records of the end, and with what was freed since it weighs as much as the numbers with what
was recorded since. -/
structure ListBalances (cfg : Config) (m m' : Maps cap) (rest : List Event) (k : U64)
    (stack : StackInfo) (list : List ReportedAlloc) : Prop where
  nodup : (list.map ReportedAlloc.address).Nodup
  mem_iff : ∀ a, a ∈ list ↔ ∃ info, m'.allocs.lookup a.address = some info ∧
    info.stackKey = k ∧ a = getAllocInfo a.address info.raw
  length_add : list.length + (Run.total (handle cfg) (freedOn cfg k) m rest).card =
    stack.numberOfAllocs.toNat + (Run.total (handle cfg) (recordedOn cfg k) m rest).card
  sum_add : (list.map fun a => a.size.toNat).sum +
      (sizesOf (Run.total (handle cfg) (freedOn cfg k) m rest)).sum =
    stack.totalSize.toNat + (sizesOf (Run.total (handle cfg) (recordedOn cfg k) m rest)).sum

theorem sum_sizesOf_add (s t : Multiset AllocInfo) :
    (sizesOf (s + t)).sum = (sizesOf s).sum + (sizesOf t).sum := by
  rw [sizesOf, Multiset.map_add, Multiset.sum_add]
  rfl

/-- The allocations of key `k` at the end, against an entry that was read earlier. -/
theorem listBalances_reportedOf {cfg : Config} {m m' : Maps cap} {rest : List Event}
    (hrun : run cfg m rest = m') (hc : Counted m)
    (hfresh : Run.Along (handle cfg) (ExitFresh cfg) m rest)
    (hroom : Run.Along (handle cfg) (AllocsRoom cfg) m rest)
    (e : Enumeration m'.allocs.toFinmap) {k : U64} {cinfo : CombinedAllocInfo}
    (hk : m.combinedAllocs.lookup k = some cinfo)
    (hsum : (sizesOf (m.records k)).sum < 2 ^ 40) (hcard : (m.records k).card < 2 ^ 24) :
    ListBalances cfg m m' rest k (decodeEntry (k, .ofBits .little cinfo.bits))
      (reportedOf e k) := by
  obtain ⟨htotal, hnumber⟩ := hc.decoded_eq hk hsum hcard
  have hbalance := records_run k hfresh hroom
  rw [hrun] at hbalance
  constructor
  case nodup => exact nodup_reportedOf e k
  case mem_iff => exact fun _ => mem_reportedOf e k
  case length_add =>
    have hcards := congrArg Multiset.card hbalance
    rw [Multiset.card_add, Multiset.card_add, ← length_reportedOf e k, ← hnumber] at hcards
    exact hcards.symm
  case sum_add =>
    have hsums := congrArg (fun s => (sizesOf s).sum) hbalance
    simp only [sum_sizesOf_add] at hsums
    rw [← sum_reportedOf e k, ← htotal] at hsums
    exact hsums.symm

end EbpfMemleak
