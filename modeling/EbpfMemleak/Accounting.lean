import EbpfMemleak.Drift

/-!
# EbpfMemleak.Accounting

**The statistics are the live allocations.** `combined_allocs` is never rebuilt
from `allocs`; it is kept in step by one packed addition per recorded
allocation and one packed subtraction per free. This module proves that the two
maps stay in step over whole runs.

The invariant is `Accounted`: every stack with an entry counts exactly its
records, and a stack without an entry has no record unless `combined_allocs` is
full. The second half is what lets the first survive a full map: a stack that
was dropped once is never inserted later, because no program deletes from
`combined_allocs` and a full map stays full.

What a run must promise is stated per event: `ExitFresh` (an exit does not
return an address that is still tracked) and `AllocsRoom` (the insertion into
`allocs` succeeds). `Maps.NotFull` in every state gives the second
(`Maps.NotFull.allocsRoom`).
-/

namespace EbpfMemleak

variable {cap : Capacities}

/-! ### What a run promises -/

/-- No exit of the event returns an address that `allocs` still holds. -/
def ExitFresh (cfg : Config) (m : Maps cap) (ev : Event) : Prop :=
  ∀ address ∈ (ev.calls cfg m).exit, address ∉ (beforeExit cfg m ev).allocs

/-- The insertion into `allocs`, if the event makes one, does not fail. -/
def AllocsRoom (cfg : Config) (m : Maps cap) (ev : Event) : Prop :=
  ∀ r ∈ recorded cfg m ev, (beforeExit cfg m ev).allocs.HasRoom r.1

instance (cfg : Config) (m : Maps cap) (ev : Event) : Decidable (ExitFresh cfg m ev) :=
  Option.decidableForallMem _

instance (cfg : Config) (m : Maps cap) (ev : Event) : Decidable (AllocsRoom cfg m ev) :=
  Option.decidableForallMem _

theorem Maps.NotFull.allocsRoom {cfg : Config} {m : Maps cap} (h : m.NotFull) (ev : Event) :
    AllocsRoom cfg m ev := fun r _ =>
  .of_size_lt ((size_beforeExit_allocs_le cfg m ev).trans_lt h.2.1) r.1

theorem Maps.NotFull.combinedRoom {cfg : Config} {m : Maps cap} (h : m.NotFull) (ev : Event)
    (k : U64) : (beforeExit cfg m ev).combinedAllocs.HasRoom k :=
  .of_size_lt ((BoundedMap.size_eq_of_mem_iff fun _ => mem_beforeExit_combinedAllocs).trans_lt
    h.2.2.1) k

/-! ### Counting the records of a stack -/

/-- Every stack with an entry counts exactly its records. -/
def Counted (m : Maps cap) : Prop :=
  ∀ k ∈ m.combinedAllocs, m.combinedAllocs.word k = packedSum (m.records k)

/-- A free takes its record out of the word and out of the records. -/
theorem Counted.untrack {m : Maps cap} (hc : Counted m) {address : U64} {info : AllocInfo}
    (h : m.allocs.lookup address = some info) : Counted (m.untrack address info) := by
  intro k hk
  have hmem : k ∈ m.combinedAllocs := mem_updateStatisticsDel.mp hk
  rw [← drift_eq_zero, drift_untrack h fun _ => hmem]
  exact drift_eq_zero.mpr (hc k hmem)

/-- Recording a new address adds its record to the word and to the records,
provided a stack that gets its entry now had no record before. -/
theorem Counted.track {m : Maps cap} (hc : Counted m) {address : U64} {info : AllocInfo}
    (hfresh : address ∉ m.allocs) (hroom : m.allocs.HasRoom address)
    (hnew : info.stackKey ∉ m.combinedAllocs → m.combinedAllocs.HasRoom info.stackKey →
      m.records info.stackKey = 0) : Counted (m.track address info) := by
  intro k hk
  rw [track_combinedAllocs] at hk
  rw [← drift_eq_zero]
  by_cases hcomb : m.combinedAllocs.HasRoom info.stackKey
  · rw [drift_track_of_room hroom hcomb, weightAt_of_not_mem hfresh, add_zero, drift_eq_zero]
    by_cases hold : k ∈ m.combinedAllocs
    · exact hc k hold
    · -- the entry is new: its word was zero, and its stack had no record
      have heq : k = info.stackKey := ((mem_updateStatisticsAdd hcomb).mp hk).resolve_right hold
      rw [heq] at hold ⊢
      rw [hnew hold hcomb, CombinedAllocs.word_of_not_mem hold, packedSum_zero]
  · -- the stack is dropped: it has no entry, so `k` is another stack
    rw [updateStatisticsAdd_of_not_room hcomb] at hk
    have hne : ¬ info.stackKey = k := fun heq => hcomb (.of_mem (heq ▸ hk))
    rw [drift_track, if_neg hcomb, if_pos hroom, weight_of_ne hne, weightAt_of_not_mem hfresh,
      sub_self, sub_zero, add_zero]
    exact drift_eq_zero.mpr (hc k hk)

/-- The accounting invariant. -/
structure Accounted (m : Maps cap) : Prop where
  /-- Every stack with an entry counts exactly its records. -/
  counted : Counted m
  /-- A stack without an entry has no record, unless the map is full. -/
  dropped : ∀ k ∉ m.combinedAllocs,
    m.records k = 0 ∨ m.combinedAllocs.size = cap.combinedAllocs

theorem accounted_empty : Accounted (Maps.empty : Maps cap) :=
  ⟨fun k hk => absurd hk (BoundedMap.not_mem_empty k), fun _ _ => Or.inl rfl⟩

theorem Accounted.untrack {m : Maps cap} (h : Accounted m) {address : U64} {info : AllocInfo}
    (hl : m.allocs.lookup address = some info) : Accounted (m.untrack address info) := by
  refine ⟨h.counted.untrack hl, ?_⟩
  intro k hk
  have hk' : k ∉ m.combinedAllocs := fun hmem => hk (mem_updateStatisticsDel.mpr hmem)
  rcases h.dropped k hk' with hnone | hfull
  · left
    rw [records_untrack hl k] at hnone
    by_cases heq : info.stackKey = k
    · rw [if_pos heq] at hnone
      exact absurd hnone Multiset.cons_ne_zero
    · rwa [if_neg heq] at hnone
  · right
    exact (size_updateStatisticsDel _ _ _).trans hfull

theorem Accounted.track {m : Maps cap} (h : Accounted m) {address : U64} {info : AllocInfo}
    (hfresh : address ∉ m.allocs) (hroom : m.allocs.HasRoom address) :
    Accounted (m.track address info) := by
  have hnew : info.stackKey ∉ m.combinedAllocs → m.combinedAllocs.HasRoom info.stackKey →
      m.records info.stackKey = 0 := by
    intro hold hcomb
    rcases h.dropped _ hold with hnone | hfull
    · exact hnone
    · exact absurd hfull (Nat.ne_of_lt (hcomb.resolve_left hold))
  refine ⟨h.counted.track hfresh hroom hnew, ?_⟩
  intro k hk
  rw [track_combinedAllocs] at hk ⊢
  by_cases hcomb : m.combinedAllocs.HasRoom info.stackKey
  · have hk' := mt (mem_updateStatisticsAdd hcomb).mpr hk
    obtain ⟨hne, hmem⟩ := not_or.mp hk'
    rcases h.dropped k hmem with hnone | hfull
    · left
      rw [records_track hfresh hroom, if_neg (Ne.symm hne), hnone]
    · right
      exact size_updateStatisticsAdd_of_full hfull
  · right
    rw [updateStatisticsAdd_of_not_room hcomb]
    exact Nat.le_antisymm m.combinedAllocs.size_le (Nat.not_lt.mp (not_or.mp hcomb).2)

/-- **One event keeps the accounting**, whichever program it runs. -/
theorem Accounted.handle {cfg : Config} {m : Maps cap} {ev : Event} (h : Accounted m)
    (hfresh : ExitFresh cfg m ev) (hroom : AllocsRoom cfg m ev) :
    Accounted (handle cfg m ev) := by
  refine handle_invariant (P := Accounted) (fun m s p hm => ⟨hm.counted, hm.dropped⟩)
    (fun m address info hm hl => hm.untrack hl) (fun address info hrec hb => ?_) h
  obtain ⟨hexit, -⟩ := recorded_eq_some.mp hrec
  exact hb.track (hfresh address hexit) (hroom (address, info) hrec)

/-- The accounting holds after every run that keeps its promises. -/
theorem accounted_run {cfg : Config} {evs : List Event}
    (hfresh : Run.Along (handle cfg) (ExitFresh cfg) (Maps.empty : Maps cap) evs)
    (hroom : Run.Along (handle cfg) (AllocsRoom cfg) (Maps.empty : Maps cap) evs) :
    Accounted (run cfg (Maps.empty : Maps cap) evs) :=
  Run.foldl_invariant (fun _ _ h hp => h.handle hp.1 hp.2) accounted_empty (hfresh.and hroom)

/-! ### Drift over runs -/

/-- One event with a fresh address and no full map keeps the entry of a stack, and
its drift. -/
theorem drift_handle {cfg : Config} {m : Maps cap} {ev : Event} {k : U64}
    (hk : k ∈ m.combinedAllocs) (hfresh : ExitFresh cfg m ev) (hfull : m.NotFull) :
    k ∈ (handle cfg m ev).combinedAllocs ∧ (handle cfg m ev).drift k = m.drift k := by
  refine handle_invariant
    (P := fun m' : Maps cap => k ∈ m'.combinedAllocs ∧ m'.drift k = m.drift k)
    (fun m' s p hm => hm) (fun m' address info hm hl => ?_) (fun address info hrec hb => ?_)
    ⟨hk, rfl⟩
  · refine ⟨mem_updateStatisticsDel.mpr hm.1, ?_⟩
    rw [drift_untrack hl fun _ => hm.1]
    exact hm.2
  · obtain ⟨hexit, -⟩ := recorded_eq_some.mp hrec
    have hallocs := hfull.allocsRoom ev _ hrec
    have hcomb : (beforeExit cfg m ev).combinedAllocs.HasRoom info.stackKey :=
      hfull.combinedRoom ev info.stackKey
    refine ⟨(mem_updateStatisticsAdd hcomb).mpr (Or.inr hb.1), ?_⟩
    rw [drift_track_of_room hallocs hcomb, weightAt_of_not_mem (hfresh address hexit), add_zero]
    exact hb.2

/-- A run with fresh addresses and no full map keeps the drift of every stack that
has an entry. -/
theorem drift_run {cfg : Config} {m : Maps cap} {evs : List Event} {k : U64}
    (hk : k ∈ m.combinedAllocs) (hfresh : Run.Along (handle cfg) (ExitFresh cfg) m evs)
    (hfull : Run.Along (handle cfg) (fun m _ => m.NotFull) m evs) :
    (run cfg m evs).drift k = m.drift k := by
  have hrun : k ∈ (run cfg m evs).combinedAllocs ∧ (run cfg m evs).drift k = m.drift k := by
    refine Run.foldl_invariant
      (I := fun m' : Maps cap => k ∈ m'.combinedAllocs ∧ m'.drift k = m.drift k)
      (fun m' ev hm hp => ?_) ⟨hk, rfl⟩ (hfresh.and hfull)
    obtain ⟨hmem, hdrift⟩ := drift_handle hm.1 hp.1 hp.2
    exact ⟨hmem, hdrift.trans hm.2⟩
  exact hrun.2

/-! ### Exact runs -/

/-- The two insertions of the event, if it records a block, succeed or fail
together. -/
def BothOrNeither (cfg : Config) (m : Maps cap) (ev : Event) : Prop :=
  ∀ r ∈ recorded cfg m ev, (beforeExit cfg m ev).allocs.HasRoom r.1 ↔
    (beforeExit cfg m ev).combinedAllocs.HasRoom r.2.stackKey

instance (cfg : Config) (m : Maps cap) (ev : Event) : Decidable (BothOrNeither cfg m ev) :=
  Option.decidableForallMem _

theorem Maps.NotFull.bothOrNeither {cfg : Config} {m : Maps cap} (h : m.NotFull) (ev : Event) :
    BothOrNeither cfg m ev := by
  intro r hr
  exact iff_of_true (h.allocsRoom ev r hr) (h.combinedRoom ev r.2.stackKey)

/-- One event keeps the statistics exact. -/
theorem Exact.handle {cfg : Config} {m : Maps cap} {ev : Event} (h : Exact m)
    (hfresh : ExitFresh cfg m ev) (hboth : BothOrNeither cfg m ev) :
    Exact (handle cfg m ev) := by
  refine handle_invariant (fun m s p hm => hm.frame s p)
    (fun m address info hm hl => hm.untrack hl) (fun address info hrec hb => ?_) h
  obtain ⟨hexit, -⟩ := recorded_eq_some.mp hrec
  exact hb.track (hfresh address hexit) (hboth (address, info) hrec)

/-- The statistics are exact after every run whose exits return fresh addresses and
whose insertions succeed or fail together. -/
theorem exact_run {cfg : Config} {evs : List Event}
    (hfresh : Run.Along (handle cfg) (ExitFresh cfg) (Maps.empty : Maps cap) evs)
    (hboth : Run.Along (handle cfg) (BothOrNeither cfg) (Maps.empty : Maps cap) evs) :
    Exact (run cfg (Maps.empty : Maps cap) evs) :=
  Run.foldl_invariant (fun _ _ h hp => h.handle hp.1 hp.2) exact_empty (hfresh.and hboth)

/-! ### The statistics of a run -/

/-- What the packed additions and subtractions of a whole run leave in an entry is
the packed sum over the live records. -/
theorem Counted.bits_eq {m : Maps cap} (hc : Counted m) {k : U64} {cinfo : CombinedAllocInfo}
    (hk : m.combinedAllocs.lookup k = some cinfo) : cinfo.bits = packedSum (m.records k) := by
  rw [← hc k (BoundedMap.mem_of_lookup hk), CombinedAllocs.word_of_lookup hk]

theorem toNat_packedSum_eq (s : Multiset AllocInfo) :
    (packedSum s).toNat = (s.map fun info => info.size.toNat % 2 ^ 40 + 2 ^ 40).sum % 2 ^ 64 := by
  rw [toNat_packedSum, PackedCounter.total_eq (w := 64) rfl, sizesOf, Multiset.map_map]
  congr 2
  refine Multiset.map_congr rfl fun info _ => ?_
  exact Nat.add_comm _ _

/-- While the live sizes of a stack sum to less than `2 ^ 40` and number fewer than
`2 ^ 24`, Go decodes exactly them from its entry. -/
theorem Counted.decoded_eq {m : Maps cap} (hc : Counted m) {k : U64} {cinfo : CombinedAllocInfo}
    (hk : m.combinedAllocs.lookup k = some cinfo) (hsum : (sizesOf (m.records k)).sum < 2 ^ 40)
    (hcard : (m.records k).card < 2 ^ 24) :
    let decoded := getCombinedAllocInfo (k.setWidth 32) (.ofBits .little cinfo.bits)
    decoded.totalSize.toNat = (sizesOf (m.records k)).sum ∧
      decoded.numberOfAllocs.toNat = (m.records k).card := by
  have hbits := hc.bits_eq hk
  have hfields := PackedCounter.fields_total hsum (by rw [card_sizesOf]; exact hcard)
  obtain ⟨htotal, hnumber⟩ := getCombinedAllocInfo_packedSum (k.setWidth 32) (m.records k)
  rw [hfields.1, ← hbits] at htotal
  rw [hfields.2, ← hbits, card_sizesOf] at hnumber
  exact ⟨htotal, hnumber⟩

/-- **Exact per-stack accounting.** After every event of a run from empty maps in
which exits return fresh addresses and insertions into `allocs` succeed, every
entry of `combined_allocs` is the packed sum of the live records of its stack,
even when `combined_allocs` itself has been full. While the live sizes sum to
less than `2 ^ 40` and number fewer than `2 ^ 24`, Go decodes exactly them. -/
theorem combined_word_eq_live_sum {cfg : Config} {evs pre : List Event}
    (hfresh : Run.Along (handle cfg) (ExitFresh cfg) (Maps.empty : Maps cap) evs)
    (hroom : Run.Along (handle cfg) (AllocsRoom cfg) (Maps.empty : Maps cap) evs)
    (hpre : pre <+: evs) {k : U64} {cinfo : CombinedAllocInfo}
    (hk : (run cfg (Maps.empty : Maps cap) pre).combinedAllocs.lookup k = some cinfo) :
    let live := (run cfg (Maps.empty : Maps cap) pre).records k
    let decoded := getCombinedAllocInfo (k.setWidth 32) (.ofBits .little cinfo.bits)
    cinfo.bits.toNat =
        (live.map fun info => info.size.toNat % 2 ^ 40 + 2 ^ 40).sum % 2 ^ 64 ∧
      ((sizesOf live).sum < 2 ^ 40 → live.card < 2 ^ 24 →
        decoded.totalSize.toNat = (sizesOf live).sum ∧
          decoded.numberOfAllocs.toNat = live.card) := by
  have hacc := accounted_run (hfresh.restrict hpre) (hroom.restrict hpre)
  have hbits := hacc.counted.bits_eq hk
  intro live decoded
  refine ⟨by rw [hbits]; exact toNat_packedSum_eq live, ?_⟩
  intro hsum hcard
  exact hacc.counted.decoded_eq hk hsum hcard

/-- A run whose second stack is dropped by a full `combined_allocs`; the first one is
decoded exactly. -/
theorem combined_word_eq_live_sum_full :
    let m := run {} (Maps.empty : Maps ⟨8, 8, 1, 8⟩)
      (mallocCall 0x700000007 (-17) 100 0x1000 ++ mallocCall 0x700000008 5 64 0x2000)
    let decoded := getCombinedAllocInfo ((-17 : U64).setWidth 32) (.ofBits .little (2 ^ 40 + 100))
    (5 : U64) ∉ m.combinedAllocs ∧ m.allocs.size = 2 ∧
      (2 ^ 40 + 100 : U64).toNat =
        ((m.records (-17)).map fun info => info.size.toNat % 2 ^ 40 + 2 ^ 40).sum % 2 ^ 64 ∧
      decoded.totalSize.toNat = (sizesOf (m.records (-17))).sum ∧
      decoded.numberOfAllocs.toNat = (m.records (-17)).card := by
  intro m decoded
  have hk : m.combinedAllocs.lookup (-17) = some ⟨2 ^ 40 + 100⟩ := by decide
  have hexact := combined_word_eq_live_sum (by decide +kernel) (by decide +kernel)
    (List.prefix_refl _) hk
  exact ⟨by decide, by decide, hexact.1, hexact.2 (by decide +kernel) (by decide +kernel)⟩

/-! ### The two fields of an entry -/

/-- What the report needs of a decoded entry: the number of live records, and a
positive total as soon as one record has a positive size. -/
def FieldsFaithful (m : Maps cap) (k : U64) (cinfo : CombinedAllocInfo) : Prop :=
  let decoded := getCombinedAllocInfo (k.setWidth 32) (.ofBits .little cinfo.bits)
  decoded.numberOfAllocs.toNat = (m.records k).card ∧
    ((∃ info ∈ m.records k, 0 < info.size) → 0 < decoded.totalSize)

/-- **The packed fields, exactly.** In a run with fresh addresses and no full map,
where at most `2 ^ 24 - 1` allocations of a stack are live, the decoded total is
the sum of the live sizes modulo `2 ^ 40`, and the decoded number is the number
of live records exactly while the 40-bit parts of their sizes sum to less than
`2 ^ 40`. So both fields are faithful while the live sizes fit the 40 bits. -/
theorem fields_of_live_records {cfg : Config} {evs pre : List Event}
    (hfresh : Run.Along (handle cfg) (ExitFresh cfg) (Maps.empty : Maps cap) evs)
    (hfull : Run.Along (handle cfg) (fun m _ => m.NotFull) (Maps.empty : Maps cap) evs)
    (hpre : pre <+: evs) {k : U64} {cinfo : CombinedAllocInfo}
    (hk : (run cfg (Maps.empty : Maps cap) pre).combinedAllocs.lookup k = some cinfo)
    (hcard : ((run cfg (Maps.empty : Maps cap) pre).records k).card ≤ 2 ^ 24 - 1) :
    let m := run cfg (Maps.empty : Maps cap) pre
    let sizes := sizesOf (m.records k)
    let decoded := getCombinedAllocInfo (k.setWidth 32) (.ofBits .little cinfo.bits)
    (sizes.sum < 2 ^ 40 → FieldsFaithful m k cinfo) ∧
      decoded.totalSize.toNat = sizes.sum % 2 ^ 40 ∧
      (decoded.numberOfAllocs.toNat = (m.records k).card ↔
        (sizes.map (· % 2 ^ 40)).sum < 2 ^ 40) := by
  have hroom : Run.Along (handle cfg) (AllocsRoom cfg) (Maps.empty : Maps cap) evs :=
    hfull.imp fun m ev h => h.allocsRoom ev
  have hacc := accounted_run (hfresh.restrict hpre) (hroom.restrict hpre)
  have hbits := hacc.counted.bits_eq hk
  intro m sizes decoded
  obtain ⟨htotal, hnumber⟩ := getCombinedAllocInfo_packedSum (k.setWidth 32) (m.records k)
  rw [← hbits, PackedCounter.low_total] at htotal
  rw [← hbits] at hnumber
  have hiff : decoded.numberOfAllocs.toNat = (m.records k).card ↔
      (sizes.map (· % 2 ^ 40)).sum < 2 ^ 40 := by
    rw [hnumber, ← card_sizesOf]
    refine PackedCounter.high_total_eq_card_iff ?_
    rw [card_sizesOf]
    exact Nat.lt_of_le_pred (Nat.two_pow_pos 24) hcard
  refine ⟨fun hsum => ⟨?_, ?_⟩, htotal, hiff⟩
  · exact hiff.mpr ((PackedCounter.sum_mod_le 40 sizes).trans_lt hsum)
  · rintro ⟨info, hinfo, hpos⟩
    have hmem : info.size.toNat ∈ sizes := Multiset.mem_map_of_mem _ hinfo
    have hle : info.size.toNat ≤ sizes.sum :=
      Multiset.single_le_sum (fun _ _ => Nat.zero_le _) _ hmem
    rw [Nat.mod_eq_of_lt hsum] at htotal
    show 0 < decoded.totalSize
    rw [BitVec.lt_def] at hpos ⊢
    rw [htotal]
    exact hpos.trans_le hle

/-- Three live blocks of 1 KiB on one stack. -/
theorem fields_of_live_records_small :
    let m := run {} (Maps.empty : Maps .source) (mallocCall 0x700000007 3 1024 0x1000 ++
      mallocCall 0x700000007 3 1024 0x2000 ++ mallocCall 0x700000007 3 1024 0x3000)
    FieldsFaithful m 3 ⟨3 * 2 ^ 40 + 3072⟩ := by
  intro m
  have hk : m.combinedAllocs.lookup 3 = some ⟨3 * 2 ^ 40 + 3072⟩ := by decide +kernel
  exact (fields_of_live_records (by decide +kernel) (by decide +kernel) (List.prefix_refl _) hk
    (by decide +kernel)).1 (by decide +kernel)

/-- Without a bound on the sizes both fields fail: two blocks of `2 ^ 40 - 1` bytes
carry into the count, which reads three, and a block of `2 ^ 40` bytes leaves the
total at zero, so the report skips it. -/
theorem fields_disturbed_by_large_sizes :
    (let evs := mallocCall 0x700000007 3 (2 ^ 40 - 1) 0x1000 ++
        mallocCall 0x700000007 3 (2 ^ 40 - 1) 0x2000
      let m := run {} (Maps.empty : Maps .source) evs
      Run.Along (handle {}) (ExitFresh {}) (Maps.empty : Maps .source) evs ∧
        Run.Along (handle {}) (fun m _ => m.NotFull) (Maps.empty : Maps .source) evs ∧
        (m.records 3).card ≤ 2 ^ 24 - 1 ∧
        ∃ cinfo, m.combinedAllocs.lookup 3 = some cinfo ∧ ¬ FieldsFaithful m 3 cinfo) ∧
      (let evs := mallocCall 0x700000007 3 (2 ^ 40) 0x1000
        let m := run {} (Maps.empty : Maps .source) evs
        Run.Along (handle {}) (ExitFresh {}) (Maps.empty : Maps .source) evs ∧
          Run.Along (handle {}) (fun m _ => m.NotFull) (Maps.empty : Maps .source) evs ∧
          (m.records 3).card ≤ 2 ^ 24 - 1 ∧
          ∃ cinfo, m.combinedAllocs.lookup 3 = some cinfo ∧ ¬ FieldsFaithful m 3 cinfo) := by
  refine ⟨⟨by decide +kernel, by decide +kernel, by decide +kernel, ⟨4 * 2 ^ 40 - 2⟩,
    by decide +kernel, fun h => ?_⟩, ⟨by decide +kernel, by decide +kernel, by decide +kernel,
    ⟨2 ^ 40⟩, by decide +kernel, fun h => ?_⟩⟩
  · exact absurd h.1 (by decide +kernel)
  · have hlive : ⟨2 ^ 40, 0, 3⟩ ∈ (run {} (Maps.empty : Maps .source)
        (mallocCall 0x700000007 3 (2 ^ 40) 0x1000)).records 3 := by decide +kernel
    exact absurd (h.2 ⟨_, hlive, by decide⟩) (by decide +kernel)

end EbpfMemleak
