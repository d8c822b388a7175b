import EbpfMemleak.Accounting
import EbpfMemleak.Report
import EbpfMemleak.Lib.Enumeration

/-!
# EbpfMemleak.Agreement

**The report agrees with the maps.** A stack id is a signed 32-bit field in
`allocs`, a sign-extended 64-bit key in `combined_allocs`, and an unsigned 32-bit
value in Go. The loop of `Run` joins the two maps on the last of these. This is
sound because every key of `combined_allocs` is the sign extension of an `int`
(`KeysExtended`): on such keys cutting to 32 bits is injective, also for the
negative ids that are errno values.

Together with the accounting of `EbpfMemleak.Accounting` and the selection of
`EbpfMemleak.Report` it follows that the list a pass builds for a reported stack is
what the BPF side counts for it (`report_agrees_with_maps`).
-/

namespace EbpfMemleak

variable {cap : Capacities}

/-! ### What the iterators deliver -/

/-- What a pass over `combined_allocs` hands to Go. -/
def combinedEntries {m : Maps cap} (e : Enumeration m.combinedAllocs.toFinmap) :
    List (U64 × CombinedAllocInfoRaw) :=
  e.toList.map fun p => (p.1, .ofBits .little p.2.bits)

/-- What a pass over `allocs` hands to Go. -/
def allocEntries {m : Maps cap} (e : Enumeration m.allocs.toFinmap) : List (U64 × AllocInfoRaw) :=
  e.toList.map fun p => (p.1, p.2.raw)

/-- The records of a stack, read off a pass over `allocs`. -/
theorem records_eq_filter {m : Maps cap} (e : Enumeration m.allocs.toFinmap) (k : U64) :
    m.records k = ↑((e.toList.filter fun p => p.2.stackKey = k).map Prod.snd) := by
  have hvalues : m.allocs.values = ↑(e.toList.map Prod.snd) := e.values_eq.symm
  rw [Maps.records, hvalues, Multiset.filter_coe, List.filter_map]
  rfl

/-! ### The three forms of a stack id -/

/-- Every key of `combined_allocs` is the sign extension of an `int`. -/
def KeysExtended (m : Maps cap) : Prop :=
  ∀ k ∈ m.combinedAllocs, (k.setWidth 32).signExtend 64 = k

theorem KeysExtended.track {m : Maps cap} (h : KeysExtended m) (address : U64) (info : AllocInfo) :
    KeysExtended (m.track address info) := by
  intro k hk
  rw [track_combinedAllocs] at hk
  by_cases hroom : m.combinedAllocs.HasRoom info.stackKey
  · rcases (mem_updateStatisticsAdd hroom).mp hk with rfl | hold
    · rw [AllocInfo.stackKey, setWidth_signExtend]
    · exact h k hold
  · rw [updateStatisticsAdd_of_not_room hroom] at hk
    exact h k hk

/-- One event creates only sign-extended keys. -/
theorem KeysExtended.handle {cfg : Config} {m : Maps cap} (h : KeysExtended m) (ev : Event) :
    KeysExtended (handle cfg m ev) :=
  handle_invariant (fun _ _ _ hm => hm)
    (fun _ _ _ hm _ k hk => hm k (mem_updateStatisticsDel.mp hk))
    (fun address info _ hb => hb.track address info) h

theorem keysExtended_run (cfg : Config) (evs : List Event) :
    KeysExtended (run cfg (Maps.empty : Maps cap) evs) :=
  Run.foldl_invariant (P := fun _ _ => True) (fun _ ev h _ => h.handle ev)
    (fun k hk => absurd hk (BoundedMap.not_mem_empty k))
    (Run.along_iff_forall_mem.mpr fun _ _ => trivial)

/-- Go's stack ids match exactly where the BPF side's keys do. -/
theorem stackId_eq_iff {k : U64} (hk : (k.setWidth 32).signExtend 64 = k) (info : AllocInfo) :
    info.raw.stackId = k.setWidth 32 ↔ info.stackKey = k := by
  constructor
  · intro heq
    rw [AllocInfo.stackKey, ← hk, ← heq]
    rfl
  · rintro rfl
    exact (setWidth_signExtend info.stackId).symm

/-- Entries with different keys, all of them sign extensions, have different Go stack ids. -/
theorem nodup_decoded {entries : List (U64 × CombinedAllocInfo)}
    (hnodup : (entries.map Prod.fst).Nodup)
    (hkeys : ∀ k ∈ entries.map Prod.fst, (k.setWidth 32).signExtend 64 = k) :
    (((entries.map fun p => (p.1, CombinedAllocInfoRaw.ofBits .little p.2.bits)).map
      decodeEntry).map StackInfo.stackId).Nodup := by
  have hids : ((entries.map fun p => (p.1, CombinedAllocInfoRaw.ofBits .little p.2.bits)).map
      decodeEntry).map StackInfo.stackId =
        (entries.map Prod.fst).map fun k => k.setWidth 32 := by
    rw [List.map_map, List.map_map, List.map_map]
    rfl
  rw [hids]
  refine hnodup.map_on fun k hk k' hk' heq => ?_
  rw [← hkeys k hk, ← hkeys k' hk', heq]

/-- Different entries of `combined_allocs` have different Go stack ids. -/
theorem nodup_stackId {m : Maps cap} (h : KeysExtended m)
    (e : Enumeration m.combinedAllocs.toFinmap) :
    (((combinedEntries e).map decodeEntry).map StackInfo.stackId).Nodup := by
  refine nodup_decoded e.nodup_keys fun k hk => ?_
  obtain ⟨⟨k, cinfo⟩, hp, rfl⟩ := List.mem_map.mp hk
  exact h k (BoundedMap.mem_of_lookup (e.mem_iff.mp hp))

/-! ### The selected stacks -/

section Selected

variable {entries : List (U64 × CombinedAllocInfoRaw)} {n : Nat} {top : List StackInfo}

/-- The selected stacks are among those read. -/
theorem subperm_of_isTop
    (h : TopN.IsTop StackInfo.total n ↑(positive (entries.map decodeEntry)) ↑top) :
    top.Subperm (entries.map decodeEntry) :=
  (Multiset.coe_le.mp h.le).trans List.filter_sublist.subperm

/-- Entries with different Go stack ids are reported under different ones. -/
theorem nodup_of_isTop
    (h : TopN.IsTop StackInfo.total n ↑(positive (entries.map decodeEntry)) ↑top)
    (hids : ((entries.map decodeEntry).map StackInfo.stackId).Nodup) :
    (top.map StackInfo.stackId).Nodup := by
  have hle := Multiset.map_le_map (f := StackInfo.stackId)
    (Multiset.coe_le.mpr (subperm_of_isTop h))
  rw [Multiset.map_coe, Multiset.map_coe] at hle
  exact Multiset.coe_nodup.mp (Multiset.nodup_of_le hle (Multiset.coe_nodup.mpr hids))

end Selected

/-! ### The lists of a pass -/

/-- The loop over `allocs` appends to the list of every selected stack the allocations
with its id, in the order of the pass. -/
theorem foldl_collectAlloc (allocs : AllocLists) (entries : List (U64 × AllocInfoRaw)) (id : U32) :
    entries.foldl collectAlloc allocs id =
      (allocs id).map (· ++ (entries.filter fun p => p.2.stackId = id).map fun p =>
        getAllocInfo p.1 p.2) := by
  induction entries generalizing allocs with
  | nil => cases hlist : allocs id <;> simp [hlist]
  | cons entry entries ih =>
      rw [List.foldl_cons, ih]
      unfold collectAlloc
      by_cases hid : entry.2.stackId = id
      · subst hid
        cases hlist : allocs entry.2.stackId with
        | none => simp [hlist]
        | some list => simp [List.append_assoc]
      · cases hlist : allocs entry.2.stackId with
        | none => simp [hid]
        | some list => simp [hid, Function.update_of_ne (Ne.symm hid)]

/-- The allocations of key `k`, as a pass over `allocs` reports them. -/
def reportedOf {m : Maps cap} (e : Enumeration m.allocs.toFinmap) (k : U64) :
    List ReportedAlloc :=
  (e.toList.filter fun p => p.2.stackKey = k).map fun p => getAllocInfo p.1 p.2.raw

section Reported

variable {m : Maps cap} (e : Enumeration m.allocs.toFinmap) (k : U64)

/-- The loop over `allocs` gives a selected stack the records with its key: it joins on Go's
ids, and these match where the keys do. -/
theorem collected_list {k : U64} (hk : (k.setWidth 32).signExtend 64 = k) {ids : List U32}
    (hid : k.setWidth 32 ∈ ids) :
    (allocEntries e).foldl collectAlloc (fun id => if id ∈ ids then some [] else none)
        (k.setWidth 32) = some (reportedOf e k) := by
  rw [foldl_collectAlloc, if_pos hid, Option.map_some, List.nil_append, allocEntries,
    List.filter_map, List.map_map]
  refine congrArg some (congrArg _ (List.filter_congr fun p _ => ?_))
  exact decide_eq_decide.mpr (stackId_eq_iff hk p.2)

/-- The list has the records with the key. -/
theorem mem_reportedOf {a : ReportedAlloc} :
    a ∈ reportedOf e k ↔ ∃ info, m.allocs.lookup a.address = some info ∧
      info.stackKey = k ∧ a = getAllocInfo a.address info.raw := by
  rw [reportedOf, List.mem_map]
  constructor
  · rintro ⟨⟨address, info⟩, hp, rfl⟩
    obtain ⟨hmem, hkey⟩ := List.mem_filter.mp hp
    exact ⟨info, e.mem_iff.mp hmem, of_decide_eq_true hkey, rfl⟩
  · rintro ⟨info, hl, hkey, ha⟩
    exact ⟨(a.address, info), List.mem_filter.mpr ⟨e.mem_iff.mpr hl, decide_eq_true hkey⟩,
      ha.symm⟩

/-- It has each of them once. -/
theorem nodup_reportedOf : ((reportedOf e k).map ReportedAlloc.address).Nodup := by
  rw [reportedOf, List.map_map]
  exact e.nodup_keys.sublist (List.filter_sublist.map Prod.fst)

/-- Its length is their number. -/
theorem length_reportedOf : (reportedOf e k).length = (m.records k).card := by
  rw [reportedOf, List.length_map, records_eq_filter e k, Multiset.coe_card, List.length_map]

/-- Its sizes are theirs. -/
theorem sum_reportedOf :
    ((reportedOf e k).map fun a => a.size.toNat).sum = (sizesOf (m.records k)).sum := by
  rw [reportedOf, List.map_map, records_eq_filter e k, sizesOf, Multiset.map_coe,
    Multiset.sum_coe, List.map_map]
  rfl

end Reported

/-- The list of a reported stack is what the BPF side counts under key `k`: it has the
records with that key, each once, and their number and sizes are the reported ones. -/
structure ListAgrees (m : Maps cap) (k : U64) (stack : StackInfo) (list : List ReportedAlloc) :
    Prop where
  nodup : (list.map ReportedAlloc.address).Nodup
  mem_iff : ∀ a, a ∈ list ↔ ∃ info, m.allocs.lookup a.address = some info ∧
    info.stackKey = k ∧ a = getAllocInfo a.address info.raw
  length_eq : list.length = stack.numberOfAllocs.toNat
  sum_eq : (list.map fun a => a.size.toNat).sum = stack.totalSize.toNat

/-- The allocations of a counted key agree with its entry. -/
theorem listAgrees_reportedOf {m : Maps cap} (hc : Counted m)
    (e : Enumeration m.allocs.toFinmap) {k : U64} {cinfo : CombinedAllocInfo}
    (hk : m.combinedAllocs.lookup k = some cinfo) (hsum : (sizesOf (m.records k)).sum < 2 ^ 40)
    (hcard : (m.records k).card < 2 ^ 24) :
    ListAgrees m k (decodeEntry (k, .ofBits .little cinfo.bits)) (reportedOf e k) := by
  obtain ⟨htotal, hnumber⟩ := hc.decoded_eq hk hsum hcard
  constructor
  case nodup => exact nodup_reportedOf e k
  case mem_iff => exact fun _ => mem_reportedOf e k
  case length_eq => exact (length_reportedOf e k).trans hnumber.symm
  case sum_eq => exact (sum_reportedOf e k).trans htotal.symm

/-- **The report agrees with the maps.** After a run with fresh addresses and no full
map, while the live sizes of every stack sum to less than `2 ^ 40` and number fewer
than `2 ^ 24`: a pass with `nTopStacks ≥ 1`, whatever the order of its two iterators,
reports pairwise distinct stack ids, and each reported stack is decoded from an entry
of `combined_allocs` whose counted records are the ones in its list. -/
theorem report_agrees_with_maps {cfg : Config} {evs : List Event}
    (hfresh : Run.Along (handle cfg) (ExitFresh cfg) (Maps.empty : Maps cap) evs)
    (hfull : Run.Along (handle cfg) (fun m _ => m.NotFull) (Maps.empty : Maps cap) evs)
    (hfits : ∀ k, (sizesOf ((run cfg (Maps.empty : Maps cap) evs).records k)).sum < 2 ^ 40 ∧
      ((run cfg (Maps.empty : Maps cap) evs).records k).card < 2 ^ 24)
    (heap : ContainerHeap) {n : Int} (hn : 1 ≤ n)
    (combined : Enumeration (run cfg (Maps.empty : Maps cap) evs).combinedAllocs.toFinmap)
    (allocs : Enumeration (run cfg (Maps.empty : Maps cap) evs).allocs.toFinmap) :
    let m := run cfg (Maps.empty : Maps cap) evs
    ∃ report, reportPass heap n (combinedEntries combined) (allocEntries allocs) = some report ∧
      (report.topStacks.map StackInfo.stackId).Nodup ∧
      ∀ stack ∈ report.topStacks, ∃ k cinfo list, m.combinedAllocs.lookup k = some cinfo ∧
        stack = decodeEntry (k, .ofBits .little cinfo.bits) ∧
        report.allocs stack.stackId = some list ∧ ListAgrees m k stack list := by
  intro m
  have hacc : Accounted m := accounted_run hfresh (hfull.imp fun _ ev h => h.allocsRoom ev)
  have hkeys : KeysExtended m := keysExtended_run cfg evs
  obtain ⟨top, hselect, htop, -⟩ := selectTop_spec heap hn (combinedEntries combined)
  refine ⟨_, by rw [reportPass, hselect]; rfl, nodup_of_isTop htop (nodup_stackId hkeys combined),
    fun stack hstack => ?_⟩
  obtain ⟨entry, hentry, rfl⟩ := List.mem_map.mp ((subperm_of_isTop htop).subset hstack)
  obtain ⟨⟨k, cinfo⟩, hp, rfl⟩ := List.mem_map.mp hentry
  have hk : m.combinedAllocs.lookup k = some cinfo := combined.mem_iff.mp hp
  exact ⟨k, cinfo, _, hk, rfl,
    collected_list allocs (hkeys k (BoundedMap.mem_of_lookup hk)) (List.mem_map_of_mem hstack),
    listAgrees_reportedOf hacc.counted allocs hk (hfits k).1 (hfits k).2⟩

/-- While all live sizes together fit the fields of an entry, those of each stack do. -/
theorem records_fit {m : Maps cap} (hsum : (sizesOf m.allocs.values).sum < 2 ^ 40)
    (hcard : m.allocs.values.card < 2 ^ 24) (k : U64) :
    (sizesOf (m.records k)).sum < 2 ^ 40 ∧ (m.records k).card < 2 ^ 24 := by
  have hle : m.records k ≤ m.allocs.values := Multiset.filter_le _ _
  obtain ⟨rest, hrest⟩ := Multiset.le_iff_exists_add.mp hle
  refine ⟨lt_of_le_of_lt ?_ hsum, (Multiset.card_le_card hle).trans_lt hcard⟩
  rw [hrest, sizesOf, sizesOf, Multiset.map_add, Multiset.sum_add]
  exact Nat.le_add_right _ _

/-- Two blocks recorded under `-EEXIST` outweigh one with a proper stack id; the pass
reads both maps back to front. -/
theorem report_agrees_with_maps_errno :
    let evs := mallocCall 0x700000007 (-17) 100 0x1000 ++ mallocCall 0x700000008 3 50 0x2000 ++
      mallocCall 0x700000007 (-17) 64 0x3000
    let m := run {} (Maps.empty : Maps .source) evs
    ∃ (combined : Enumeration m.combinedAllocs.toFinmap) (allocs : Enumeration m.allocs.toFinmap),
      ∃ report, reportPass containerHeap 1 (combinedEntries combined) (allocEntries allocs) =
          some report ∧
        ∀ stack ∈ report.topStacks, ∃ list, report.allocs stack.stackId = some list ∧
          list.length = stack.numberOfAllocs.toNat := by
  intro evs m
  have hfits := @records_fit .source m (by decide +kernel) (by decide +kernel)
  let combined : Enumeration m.combinedAllocs.toFinmap :=
    ⟨[(3, ⟨2 ^ 40 + 50⟩), (-17, ⟨2 * 2 ^ 40 + 164⟩)], by decide +kernel⟩
  let allocs : Enumeration m.allocs.toFinmap :=
    ⟨[(0x3000, ⟨64, 0, -17⟩), (0x2000, ⟨50, 0, 3⟩), (0x1000, ⟨100, 0, -17⟩)], by decide +kernel⟩
  obtain ⟨report, hpass, -, hagrees⟩ := report_agrees_with_maps (by decide +kernel)
    (by decide +kernel) hfits containerHeap (n := 1) (by decide) combined allocs
  refine ⟨combined, allocs, report, hpass, fun stack hstack => ?_⟩
  obtain ⟨k, cinfo, list, -, -, hlist, hlen⟩ := hagrees stack hstack
  exact ⟨list, hlist, hlen.length_eq⟩

end EbpfMemleak
