import EbpfMemleak.Agreement
import EbpfMemleak.Ledger
import Mathlib.Data.FinEnum

/-!
# EbpfMemleak.Outstanding

**What the monitor prints, in terms of what the process did.** The ledger knows the blocks
that the library calls of a process have handed out and not taken back. A stack's
outstanding bytes and blocks are sums over it (`Ledger.bytes`, `Ledger.count`), with no
map, no packed word and no heap in sight.

Three results meet here: `allocs` shows the ledger's blocks (`Refines`), the words of
`combined_allocs` are the packed sums of the records (`Exact`), and a pass selects the
greatest totals and collects the blocks of the selected stacks. So a pass after a run of the
attached probes prints the ledger, stack by stack (`Printed`), and a stack it does not print
is beaten by all those it prints (`report_prints_ledger`).
-/

namespace EbpfMemleak

open TopN

variable {cap : Capacities}

/-! ### The ledger, stack by stack -/

/-- What a block counts for in stack `id`. -/
def blockIn (id : I32) (amount : Nat × I32 → Nat) (block : Nat × I32) : Nat :=
  if block.2 = id then amount block else 0

/-- The outstanding bytes of a stack. -/
def Ledger.bytes (L : Ledger) (id : I32) : Nat := ∑ a, (L.blocks a).elim 0 (blockIn id Prod.fst)

/-- The outstanding blocks of a stack. -/
def Ledger.count (L : Ledger) (id : I32) : Nat := ∑ a, (L.blocks a).elim 0 (blockIn id fun _ => 1)

theorem signExtend_inj {id id' : I32} : id.signExtend 64 = id'.signExtend 64 ↔ id = id' := by
  constructor
  · intro h
    rw [← setWidth_signExtend id, ← setWidth_signExtend id', h]
  · exact fun h => congrArg _ h

theorem sum_map_filter (s : Multiset AllocInfo) (p : AllocInfo → Prop) [DecidablePred p]
    (f : AllocInfo → Nat) :
    ((s.filter p).map f).sum = (s.map fun info => if p info then f info else 0).sum := by
  induction s using Multiset.induction_on with
  | empty => rfl
  | cons info s ih => by_cases h : p info <;> simp [h, ih]

/-- A sum over the records of a stack is a sum over the blocks. -/
theorem sum_records (m : Maps cap) (id : I32) (amount : Nat × I32 → Nat) :
    ((m.records (id.signExtend 64)).map fun info =>
        amount (info.size.toNat, info.stackId)).sum =
      ∑ a, (m.view a).elim 0 (blockIn id amount) := by
  rw [Maps.records, sum_map_filter, BoundedMap.sum_map_values]
  refine Finset.sum_congr rfl fun a _ => ?_
  rw [Maps.view]
  cases m.allocs.lookup a with
  | none => rfl
  | some info =>
      simp only [Option.elim_some, Option.map_some, blockIn]
      exact if_congr signExtend_inj rfl rfl

section Refines

variable {cfg : Config} {m : Maps cap} {L : Ledger}

theorem Refines.bytes_eq (h : Refines cfg m L) (id : I32) :
    (sizesOf (m.records (id.signExtend 64))).sum = L.bytes id := by
  simp only [Ledger.bytes, ← h.blocks]
  exact sum_records m id Prod.fst

theorem Refines.count_eq (h : Refines cfg m L) (id : I32) :
    (m.records (id.signExtend 64)).card = L.count id := by
  simp only [Ledger.count, ← h.blocks]
  rw [← sum_records m id fun _ => 1, Multiset.map_const', Multiset.sum_replicate]
  exact (Nat.mul_one _).symm

end Refines

/-! ### Runs -/

/-- A call does not return a block that is still handed out. -/
def FreshReturn (L : Ledger) (ev : Event) : Prop :=
  match ev.program.attachedRole with
  | some (.exit rc) => (L.blocks rc).isNone = true
  | _ => True

instance (L : Ledger) (ev : Event) : Decidable (FreshReturn L ev) := by
  unfold FreshReturn
  split <;> infer_instance

/-- What the process promises: it calls as it should, and blocks it gets are new. -/
def LibcOk (L : Ledger) (ev : Event) : Prop := CallOk L ev ∧ FreshReturn L ev

instance (L : Ledger) (ev : Event) : Decidable (LibcOk L ev) := inferInstanceAs (Decidable (_ ∧ _))

/-- The maps, the ledger and the statistics agree. -/
structure Monitored (cfg : Config) (m : Maps cap) (L : Ledger) : Prop where
  refines : Refines cfg m L
  exact : Exact m
  keys : KeysExtended m

theorem exitFresh_of_ledger {cfg : Config} {m : Maps cap} {L : Ledger} {ev : Event}
    (h : Refines cfg m L) (hok : LibcOk L ev) : ExitFresh cfg m ev := by
  have hfresh : ∀ rc, (L.blocks rc).isNone = true → rc ∉ m.allocs := by
    intro rc hrc
    have hview := h.blocks rc
    rw [Option.isNone_iff_eq_none.mp hrc, Maps.view, Option.map_eq_none_iff] at hview
    exact BoundedMap.lookup_eq_none.mp hview
  obtain ⟨env, program⟩ := ev
  intro address haddr
  rw [beforeExit_allocs]
  cases program with
  | mallocExit rc => exact Option.some.inj haddr ▸ hfresh rc hok.2
  | callocExit rc => exact Option.some.inj haddr ▸ hfresh rc hok.2
  | reallocExit rc => exact Option.some.inj haddr ▸ hfresh rc hok.2
  | mallocEnter | callocEnter | reallocEnter | freeEnter => cases haddr
  | _ => exact hok.1.elim

theorem Monitored.step {cfg : Config} {m : Maps cap} {L : Ledger} {ev : Event}
    (h : Monitored cfg m L) (hfull : m.NotFull) (hok : LibcOk L ev) :
    Monitored cfg (handle cfg m ev) (ledgerStep cfg L ev) where
  refines := h.refines.step hfull hok.1
  exact := h.exact.handle (exitFresh_of_ledger h.refines hok) (hfull.bothOrNeither ev)
  keys := h.keys.handle ev

theorem monitored_run {cfg : Config} {evs : List Event}
    (hfull : Run.Along (handle cfg) (fun m _ => m.NotFull) (Maps.empty : Maps cap) evs)
    (hcalls : Run.Along (ledgerStep cfg) LibcOk .empty evs) :
    Monitored cfg (run cfg (Maps.empty : Maps cap) evs) (ledgerOf cfg evs) :=
  Run.foldl_simulation (fun _ _ _ h => h.step)
    ⟨refines_empty cfg, exact_empty, fun k hk => absurd hk (BoundedMap.not_mem_empty k)⟩
    hfull hcalls

/-! ### The report -/

theorem Exact.counted {m : Maps cap} (h : Exact m) : Counted m :=
  fun k _ => drift_eq_zero.mp (h.drift k)

/-- A printed stack is what the ledger has outstanding for it, and its list has the blocks. -/
structure Printed (L : Ledger) (stack : StackInfo) (list : List ReportedAlloc) : Prop where
  bytes : stack.totalSize.toNat = L.bytes stack.stackId
  count : stack.numberOfAllocs.toNat = L.count stack.stackId
  nodup : (list.map ReportedAlloc.address).Nodup
  blocks : ∀ a size, (∃ x ∈ list, x.address = a ∧ x.size.toNat = size) ↔
    L.blocks a = some (size, stack.stackId)

/-- The outstanding blocks fit the fields of an entry. -/
def Ledger.Fits (L : Ledger) : Prop := ∀ id, L.bytes id < 2 ^ 40 ∧ L.count id < 2 ^ 24

section Report

variable {cfg : Config} {m : Maps cap} {L : Ledger}

/-- While all live sizes together fit the fields of an entry, those of each stack do. -/
theorem Monitored.fits (h : Monitored cfg m L) (hsum : (sizesOf m.allocs.values).sum < 2 ^ 40)
    (hcard : m.allocs.values.card < 2 ^ 24) : L.Fits := by
  intro id
  rw [← h.refines.bytes_eq, ← h.refines.count_eq]
  exact records_fit hsum hcard _

/-- What Go decodes from an entry. -/
theorem Monitored.decoded (h : Monitored cfg m L) (hfits : L.Fits) {k : U64}
    {cinfo : CombinedAllocInfo} (hk : m.combinedAllocs.lookup k = some cinfo) :
    (decodeEntry (k, .ofBits .little cinfo.bits)).totalSize.toNat = L.bytes (k.setWidth 32) ∧
      (decodeEntry (k, .ofBits .little cinfo.bits)).numberOfAllocs.toNat =
        L.count (k.setWidth 32) := by
  have hbytes := h.refines.bytes_eq (k.setWidth 32)
  have hcount := h.refines.count_eq (k.setWidth 32)
  rw [h.keys k (BoundedMap.mem_of_lookup hk)] at hbytes hcount
  rw [← hbytes, ← hcount]
  exact h.exact.counted.decoded_eq hk (hbytes ▸ (hfits _).1) (hcount ▸ (hfits _).2)

/-- The list of a stack has its blocks. -/
theorem Monitored.printed (h : Monitored cfg m L) (hfits : L.Fits) {k : U64}
    {cinfo : CombinedAllocInfo} (hk : m.combinedAllocs.lookup k = some cinfo)
    (e : Enumeration m.allocs.toFinmap) :
    Printed L (decodeEntry (k, .ofBits .little cinfo.bits)) (reportedOf e k) := by
  have hkey := h.keys k (BoundedMap.mem_of_lookup hk)
  obtain ⟨hbytes, hcount⟩ := h.decoded hfits hk
  have hagrees := listAgrees_reportedOf h.exact.counted e hk
    (by rw [← hkey, h.refines.bytes_eq]; exact (hfits _).1)
    (by rw [← hkey, h.refines.count_eq]; exact (hfits _).2)
  refine ⟨hbytes, hcount, hagrees.nodup, fun a size => ?_⟩
  rw [← h.refines.blocks a, Maps.view]
  constructor
  · rintro ⟨x, hx, rfl, rfl⟩
    obtain ⟨info, hl, rfl, hinfo⟩ := (hagrees.mem_iff x).mp hx
    have hsize : x.size = info.size := congrArg ReportedAlloc.size hinfo
    have hid : (decodeEntry (info.stackKey, .ofBits .little cinfo.bits)).stackId = info.stackId :=
      setWidth_signExtend info.stackId
    rw [hl, Option.map_some, hsize, hid]
  · intro hview
    obtain ⟨info, hl, hinfo⟩ := Option.map_eq_some_iff.mp hview
    obtain ⟨rfl, hid⟩ := Prod.mk.inj hinfo
    refine ⟨getAllocInfo a info.raw, (hagrees.mem_iff _).mpr ⟨info, hl, ?_, rfl⟩, rfl, rfl⟩
    rw [AllocInfo.stackKey, hid]
    exact hkey

/-- A stack with outstanding bytes has an entry. -/
theorem Monitored.exists_entry (h : Monitored cfg m L) {id : I32} (hpos : 0 < L.bytes id) :
    ∃ cinfo, m.combinedAllocs.lookup (id.signExtend 64) = some cinfo := by
  rw [← h.refines.bytes_eq id] at hpos
  obtain ⟨info, hinfo⟩ : ∃ info, info ∈ m.records (id.signExtend 64) := by
    refine Multiset.exists_mem_of_ne_zero fun hzero => ?_
    rw [hzero] at hpos
    exact absurd hpos (Nat.lt_irrefl 0)
  obtain ⟨hvalue, hkey⟩ := Multiset.mem_filter.mp hinfo
  obtain ⟨⟨a, info'⟩, hentry, rfl⟩ := Multiset.mem_map.mp hvalue
  have hl : m.allocs.lookup a = some info' := Finmap.lookup_eq_some_iff.mpr hentry
  exact hkey ▸ BoundedMap.mem_iff.mp (h.exact.covered a info' hl)

end Report

/-- **The report prints the ledger.** After a run of the attached probes in which the process
calls as it should, gets new blocks, no map is full and the blocks of every stack fit the
fields of an entry: a pass with `nTopStacks ≥ 1`, whatever the order of its two iterators,
prints for each of its stacks exactly the outstanding bytes, number and blocks, by descending
bytes; and a stack that has outstanding bytes is printed, or beaten by the `nTopStacks` stacks
that are. -/
theorem report_prints_ledger {cfg : Config} {evs : List Event}
    (hfull : Run.Along (handle cfg) (fun m _ => m.NotFull) (Maps.empty : Maps cap) evs)
    (hcalls : Run.Along (ledgerStep cfg) LibcOk .empty evs) (hfits : (ledgerOf cfg evs).Fits)
    (heap : ContainerHeap) {n : Int} (hn : 1 ≤ n)
    (combined : Enumeration (run cfg (Maps.empty : Maps cap) evs).combinedAllocs.toFinmap)
    (allocs : Enumeration (run cfg (Maps.empty : Maps cap) evs).allocs.toFinmap) :
    let L := ledgerOf cfg evs
    ∃ report, reportPass heap n (combinedEntries combined) (allocEntries allocs) = some report ∧
      (report.topStacks.map StackInfo.stackId).Nodup ∧
      (report.topStacks.map fun stack => L.bytes stack.stackId).Pairwise (· ≥ ·) ∧
      (∀ stack ∈ report.topStacks, 0 < L.bytes stack.stackId ∧
        ∃ list, report.allocs stack.stackId = some list ∧ Printed L stack list) ∧
      ∀ id, 0 < L.bytes id → (∃ stack ∈ report.topStacks, stack.stackId = id) ∨
        (report.topStacks.length = n.toNat ∧
          ∀ stack ∈ report.topStacks, L.bytes id ≤ L.bytes stack.stackId) := by
  intro L
  have h : Monitored cfg (run cfg (Maps.empty : Maps cap) evs) L := monitored_run hfull hcalls
  obtain ⟨top, hselect, htop, hsorted⟩ := selectTop_spec heap hn (combinedEntries combined)
  -- every selected stack is decoded from an entry, and its total is the ledger's
  have hentry : ∀ stack ∈ (combinedEntries combined).map decodeEntry, ∃ k cinfo,
      (run cfg (Maps.empty : Maps cap) evs).combinedAllocs.lookup k = some cinfo ∧
        stack = decodeEntry (k, .ofBits .little cinfo.bits) := by
    intro stack hstack
    obtain ⟨entry, hentry, rfl⟩ := List.mem_map.mp hstack
    obtain ⟨⟨k, cinfo⟩, hp, rfl⟩ := List.mem_map.mp hentry
    exact ⟨k, cinfo, combined.mem_iff.mp hp, rfl⟩
  have hsub : ∀ stack ∈ top, stack ∈ positive ((combinedEntries combined).map decodeEntry) :=
    fun stack hstack => Multiset.mem_coe.mp (Multiset.mem_of_le htop.le hstack)
  have htotal : ∀ stack ∈ (combinedEntries combined).map decodeEntry,
      stack.total = L.bytes stack.stackId := by
    intro stack hstack
    obtain ⟨k, cinfo, hk, rfl⟩ := hentry stack hstack
    exact (h.decoded hfits hk).1
  have hmem : ∀ stack ∈ top, stack ∈ (combinedEntries combined).map decodeEntry :=
    fun stack hstack => (List.mem_filter.mp (hsub stack hstack)).1
  refine ⟨_, by rw [reportPass, hselect]; rfl, nodup_of_isTop htop (nodup_stackId h.keys combined),
    ?_, ?_, ?_⟩
  · rwa [← List.map_congr_left fun stack hstack => htotal stack (hmem stack hstack)]
  · intro stack hstack
    have hpos := (List.mem_filter.mp (hsub stack hstack)).2
    refine ⟨htotal stack (hmem stack hstack) ▸ of_decide_eq_true hpos, ?_⟩
    obtain ⟨k, cinfo, hk, rfl⟩ := hentry stack (hmem stack hstack)
    exact ⟨_, collected_list allocs (h.keys k (BoundedMap.mem_of_lookup hk))
      (List.mem_map_of_mem (f := StackInfo.stackId) hstack), h.printed hfits hk allocs⟩
  · intro id hpos
    obtain ⟨cinfo, hk⟩ := h.exists_entry hpos
    have hid : (decodeEntry (id.signExtend 64, .ofBits .little cinfo.bits)).stackId = id :=
      setWidth_signExtend id
    have hmem' : decodeEntry (id.signExtend 64, .ofBits .little cinfo.bits) ∈
        (combinedEntries combined).map decodeEntry :=
      List.mem_map_of_mem (List.mem_map_of_mem (f := fun p : U64 × CombinedAllocInfo =>
        (p.1, CombinedAllocInfoRaw.ofBits .little p.2.bits)) (combined.mem_iff.mpr hk))
    have hpositive : decodeEntry (id.signExtend 64, .ofBits .little cinfo.bits) ∈
        positive ((combinedEntries combined).map decodeEntry) := by
      refine List.mem_filter.mpr ⟨hmem', decide_eq_true ?_⟩
      rw [htotal _ hmem', hid]
      exact hpos
    by_cases hin : decodeEntry (id.signExtend 64, .ofBits .little cinfo.bits) ∈ top
    · exact Or.inl ⟨_, hin, hid⟩
    · right
      obtain ⟨hcard, hbeaten⟩ := htop.beaten (Multiset.mem_coe.mpr hpositive) hin
      refine ⟨hcard, fun stack hstack => ?_⟩
      have hle := hbeaten stack hstack
      rwa [htotal _ hmem', htotal stack (hmem stack hstack), hid] at hle

/-- Three calls on two stacks, one of them an errno; a block is moved by a `realloc`. -/
theorem report_prints_ledger_moved :
    let p : Env := .quiet 0x700000007 (-17)
    let evs := mallocCall 0x700000007 (-17) 100 0x1000 ++ mallocCall 0x700000008 3 50 0x2000 ++
      [⟨p, .reallocEnter 0x1000 300⟩, ⟨p, .reallocExit 0x3000⟩]
    let m := run {} (Maps.empty : Maps .source) evs
    ∃ (combined : Enumeration m.combinedAllocs.toFinmap) (allocs : Enumeration m.allocs.toFinmap),
      ∃ report, reportPass containerHeap 1 (combinedEntries combined) (allocEntries allocs) =
          some report ∧
        ∀ stack ∈ report.topStacks, ∃ list, report.allocs stack.stackId = some list ∧
          Printed (ledgerOf {} evs) stack list := by
  intro p evs m
  have hfull : Run.Along (handle {}) (fun m _ => m.NotFull) (Maps.empty : Maps .source) evs := by
    decide +kernel
  have hcalls : Run.Along (ledgerStep {}) LibcOk .empty evs := by decide +kernel
  have hfits := (monitored_run hfull hcalls).fits (by decide +kernel) (by decide +kernel)
  let combined : Enumeration m.combinedAllocs.toFinmap :=
    ⟨[(3, ⟨2 ^ 40 + 50⟩), (-17, ⟨2 ^ 40 + 300⟩)], by decide +kernel⟩
  let allocs : Enumeration m.allocs.toFinmap :=
    ⟨[(0x3000, ⟨300, 0, -17⟩), (0x2000, ⟨50, 0, 3⟩)], by decide +kernel⟩
  have hprints := report_prints_ledger hfull hcalls hfits containerHeap (n := 1) (by decide)
    combined allocs
  obtain ⟨report, hpass, hrest⟩ := hprints
  have hprinted := hrest.2.2.1
  exact ⟨combined, allocs, report, hpass, fun stack hstack => (hprinted stack hstack).2⟩

end EbpfMemleak
