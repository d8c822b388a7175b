import EbpfMemleak.Effects
import EbpfMemleak.Memalign

/-!
# EbpfMemleak.Kinds

**Slab objects, pages and per-cpu blocks share one map.** A slab object is identified by its
address, a page by its frame number, a per-cpu block by its per-cpu pointer, and `allocs`
has one 64-bit key for all three. Nothing in a record says which kind it is of.

`Owned` follows beside the maps which kind each record comes from and what each kind has
contributed to every word; the maps do not depend on it. `SameAs` compares one kind's part
of that with a run of the events of this kind alone. `kinds_apart_iff` says when the two
agree: exactly while no event frees or replaces a record of another kind (`KeepsApart`).
-/

namespace EbpfMemleak

variable {cap : Capacities}

/-! ### Kinds -/

/-- The kinds of kernel objects. -/
inductive Kind
  | slab
  | page
  | percpu
  deriving DecidableEq, Repr

/-- The kind of object a tracepoint is about. -/
def Program.kind : Program → Option Kind
  | .kmalloc _ _ | .kmallocNode _ _ | .kfree _ | .kmemCacheAlloc _ _ | .kmemCacheAllocNode _ _
  | .kmemCacheFree _ => some .slab
  | .mmPageAlloc _ _ | .mmPageFree _ => some .page
  | .percpuAllocPercpu _ _ | .percpuFreePercpu _ => some .percpu
  | _ => none

/-- The events about one kind of object. -/
def eventsOf (K : Kind) (evs : List Event) : List Event :=
  evs.filter fun ev => ev.program.kind = some K

/-- The maps, the kind each record comes from, and what each kind has added to every word. -/
structure Owned (cap : Capacities) where
  maps : Maps cap
  owner : U64 → Option Kind
  contributed : Kind → U64 → U64

/-- Nothing recorded yet. -/
def Owned.empty : Owned cap := ⟨Maps.empty, fun _ => none, fun _ _ => 0⟩

/-- One event: a record belongs to the kind of the event that makes it, and so does the
change of every word. -/
def ownedStep (cfg : Config) (s : Owned cap) (ev : Event) : Owned cap where
  maps := handle cfg s.maps ev
  owner :=
    match recorded cfg s.maps ev with
    | none => s.owner
    | some (address, _) => Function.update s.owner address ev.program.kind
  contributed K k :=
    s.contributed K k +
      if ev.program.kind = some K then
        (handle cfg s.maps ev).combinedAllocs.word k - s.maps.combinedAllocs.word k
      else 0

/-- The records of one kind. -/
def Owned.blocksOf (s : Owned cap) (K : Kind) (a : U64) : Option AllocInfo :=
  if s.owner a = some K then s.maps.allocs.lookup a else none

/-- The records and the statistics of one kind are those of `part`. -/
def Owned.SameAs (s : Owned cap) (K : Kind) (part : Maps cap) : Prop :=
  (∀ a, s.blocksOf K a = part.allocs.lookup a) ∧
    ∀ k, s.contributed K k = part.combinedAllocs.word k

/-- The event touches no record of another kind. -/
def KeepsApart (cfg : Config) (s : Owned cap) (ev : Event) : Prop :=
  ∀ a, ev.Touches cfg s.maps a → a ∈ s.maps.allocs → s.owner a = ev.program.kind

theorem keepsApart_iff {cfg : Config} {s : Owned cap} {ev : Event} :
    KeepsApart cfg s ev ↔
      (∀ a ∈ (ev.calls cfg s.maps).free, a ∈ s.maps.allocs → s.owner a = ev.program.kind) ∧
        ∀ r ∈ recorded cfg s.maps ev, r.1 ∈ s.maps.allocs → s.owner r.1 = ev.program.kind := by
  constructor
  · intro h
    exact ⟨fun a ha => h a (Or.inl ha), fun r hr => h r.1 (Or.inr ⟨r.2, hr⟩)⟩
  · intro ⟨hfree, hrecorded⟩ a htouch
    rcases htouch with ha | ⟨info, hrec⟩
    · exact hfree a ha
    · exact hrecorded (a, info) hrec

instance (cfg : Config) (s : Owned cap) (ev : Event) : Decidable (KeepsApart cfg s ev) :=
  have : Decidable (∀ a ∈ (ev.calls cfg s.maps).free, a ∈ s.maps.allocs →
      s.owner a = ev.program.kind) := Option.decidableForallMem _
  have : Decidable (∀ r ∈ recorded cfg s.maps ev, r.1 ∈ s.maps.allocs →
      s.owner r.1 = ev.program.kind) := Option.decidableForallMem _
  decidable_of_iff' _ keepsApart_iff

/-! ### One tracepoint -/

/-- The handlers look at `sizes` and `memptrs` only to find what they record. -/
theorem recorded_of_same {cfg : Config} {m m' : Maps cap} {ev : Event} (hsizes : m'.sizes = m.sizes)
    (hmemptrs : m'.memptrs = m.memptrs) : recorded cfg m' ev = recorded cfg m ev := by
  have hcalls : ev.calls cfg m' = ev.calls cfg m := calls_congr (by rw [hmemptrs])
  unfold recorded exitRecord
  rw [beforeExit_sizes, beforeExit_sizes, hcalls, hsizes]

/-- A tracepoint leaves nothing pending. -/
theorem sizes_handle_of_kind {cfg : Config} {m : Maps cap} {ev : Event}
    (hkind : ev.program.kind.isSome = true) (hm : m.sizes = .empty) :
    (handle cfg m ev).sizes = .empty := by
  have hprobe : ev.program.opens = none ∧ ev.program.closes = false := by
    obtain ⟨env, program⟩ := ev
    cases program <;> first | exact ⟨rfl, rfl⟩ | cases hkind
  refine BoundedMap.ext_lookup fun pid => ?_
  rw [BoundedMap.lookup_empty]
  by_cases hpid : pid = ev.env.pid
  · subst hpid
    rcases @calls_of_rest cap cfg m ev hprobe.1 hprobe.2 with ⟨henter, hexit⟩ | ⟨-, hexit⟩
    · rw [handle_eq, exitPhase_sizes, beforeExit_sizes, henter, hexit]
      exact (congrArg _ hm).trans (BoundedMap.lookup_empty _)
    · exact lookup_sizes_of_exit hexit
  · rw [lookup_sizes_handle_of_ne cfg m hpid, hm, BoundedMap.lookup_empty]

theorem memptrs_handle_of_kind {cfg : Config} {m : Maps cap} {ev : Event}
    (hkind : ev.program.kind.isSome = true) : (handle cfg m ev).memptrs = m.memptrs := by
  rw [handle_memptrs]
  obtain ⟨env, program⟩ := ev
  cases program <;> first | rfl | cases hkind

/-! ### The run and its parts -/

/-- The run of all events and the runs of each kind, side by side. -/
abbrev SplitRun (cap : Capacities) := Owned cap × (Kind → Maps cap)

/-- One event, handled in the run of all and in that of its kind. -/
def splitStep (cfg : Config) (s : SplitRun cap) (ev : Event) : SplitRun cap :=
  (ownedStep cfg s.1 ev, fun K => if ev.program.kind = some K then handle cfg (s.2 K) ev else s.2 K)

theorem foldl_splitStep (cfg : Config) (s : SplitRun cap) (evs : List Event) :
    evs.foldl (splitStep cfg) s =
      (evs.foldl (ownedStep cfg) s.1, fun K => run cfg (s.2 K) (eventsOf K evs)) := by
  induction evs generalizing s with
  | nil => rfl
  | cons ev evs ih =>
      rw [List.foldl_cons, ih]
      refine Prod.ext rfl (funext fun K => ?_)
      show run cfg ((splitStep cfg s ev).2 K) (eventsOf K evs) =
        run cfg (s.2 K) (eventsOf K (ev :: evs))
      unfold eventsOf
      rw [List.filter_cons, splitStep]
      by_cases h : ev.program.kind = some K <;> simp [h]

/-- What every run of tracepoints keeps while no map is full. -/
structure SplitInv (cfg : Config) (s : SplitRun cap) : Prop where
  sizes : s.1.maps.sizes = .empty
  memptrs : s.1.maps.memptrs = .empty
  partSizes : ∀ K, (s.2 K).sizes = .empty
  partMemptrs : ∀ K, (s.2 K).memptrs = .empty
  reachable : Reachable cfg s.1.maps
  partReachable : ∀ K, Reachable cfg (s.2 K)
  /-- Every record has an owner. -/
  owned : ∀ a ∈ s.1.maps.allocs, (s.1.owner a).isSome = true
  /-- A stack counted in the run of one kind is counted in the run of all. -/
  counted : ∀ K k, k ∈ (s.2 K).combinedAllocs → k ∈ s.1.maps.combinedAllocs

theorem splitInv_empty (cfg : Config) :
    SplitInv cfg ((Owned.empty, fun _ => Maps.empty) : SplitRun cap) where
  sizes := rfl
  memptrs := rfl
  partSizes _ := rfl
  partMemptrs _ := rfl
  reachable := ⟨[], rfl⟩
  partReachable _ := ⟨[], rfl⟩
  owned a h := absurd h (BoundedMap.not_mem_empty a)
  counted _ k h := absurd h (BoundedMap.not_mem_empty k)

namespace SplitInv

variable {cfg : Config} {s : SplitRun cap} {ev : Event}

/-- The run of one kind records what the run of all records. -/
theorem recorded_part (h : SplitInv cfg s) (K : Kind) :
    recorded cfg (s.2 K) ev = recorded cfg s.1.maps ev :=
  recorded_of_same ((h.partSizes K).trans h.sizes.symm) ((h.partMemptrs K).trans h.memptrs.symm)

theorem sameEntries (h : SplitInv cfg s) (K : Kind) (env : Env) :
    SameEntries env s.1.maps (s.2 K) := by
  rw [SameEntries, h.sizes, h.memptrs, h.partSizes K, h.partMemptrs K]
  exact ⟨rfl, rfl⟩

/-- A run with fewer records finds no map full either. -/
theorem notFull_part (h : SplitInv cfg s) (hm : s.1.maps.NotFull) {K : Kind}
    (hsame : s.1.SameAs K (s.2 K)) : (s.2 K).NotFull := by
  obtain ⟨hsizes, hallocs, hcomb, hmemptrs⟩ := hm
  have hblocks : ∀ a, a ∈ (s.2 K).allocs → a ∈ s.1.maps.allocs := by
    intro a ha
    obtain ⟨info, hinfo⟩ := BoundedMap.mem_iff.mp ha
    rw [← hsame.1 a, Owned.blocksOf] at hinfo
    split at hinfo
    case isTrue => exact BoundedMap.mem_of_lookup hinfo
    case isFalse => cases hinfo
  refine ⟨?_, (BoundedMap.size_le_of_mem_imp hblocks).trans_lt hallocs,
    (BoundedMap.size_le_of_mem_imp (h.counted K)).trans_lt hcomb, ?_⟩
  · rwa [h.partSizes K, ← h.sizes]
  · rwa [h.partMemptrs K, ← h.memptrs]

theorem step (h : SplitInv cfg s) (hm : s.1.maps.NotFull)
    (hkind : ev.program.kind.isSome = true) : SplitInv cfg (splitStep cfg s ev) := by
  have hpart (K : Kind) : (splitStep cfg s ev).2 K = handle cfg (s.2 K) ev ∨
      (splitStep cfg s ev).2 K = s.2 K := by
    by_cases hK : ev.program.kind = some K
    · exact Or.inl (if_pos hK)
    · exact Or.inr (if_neg hK)
  constructor
  case sizes => exact sizes_handle_of_kind hkind h.sizes
  case memptrs => exact (memptrs_handle_of_kind hkind).trans h.memptrs
  case partSizes =>
    intro K
    rcases hpart K with hp | hp <;> rw [hp]
    · exact sizes_handle_of_kind hkind (h.partSizes K)
    · exact h.partSizes K
  case partMemptrs =>
    intro K
    rcases hpart K with hp | hp <;> rw [hp]
    · exact (memptrs_handle_of_kind hkind).trans (h.partMemptrs K)
    · exact h.partMemptrs K
  case reachable => exact h.reachable.run [ev]
  case partReachable =>
    intro K
    rcases hpart K with hp | hp <;> rw [hp]
    · exact (h.partReachable K).run [ev]
    · exact h.partReachable K
  case owned =>
    intro a ha
    obtain ⟨info, hinfo⟩ := BoundedMap.mem_iff.mp ha
    show ((ownedStep cfg s.1 ev).owner a).isSome = true
    rcases lookup_handle_allocs hinfo with ⟨hrec, -⟩ | ⟨hold, hne⟩
    · simp [ownedStep, hrec, hkind]
    · have howned := h.owned a (BoundedMap.mem_of_lookup (lookup_of_beforeExit hold))
      cases hrec : recorded cfg s.1.maps ev with
      | none => simpa [ownedStep, hrec] using howned
      | some r => simpa [ownedStep, hrec, hne r hrec] using howned
  case counted =>
    intro K k hk
    show k ∈ (handle cfg s.1.maps ev).combinedAllocs
    rw [mem_handle_combinedAllocs_iff hm]
    rcases hpart K with hp | hp <;> rw [hp] at hk
    · rcases mem_handle_combinedAllocs hk with hold | ⟨a, info, hrec, -, rfl⟩
      · exact Or.inl (h.counted K k hold)
      · exact Or.inr ⟨(a, info), (h.recorded_part K).symm.trans hrec, rfl⟩
    · exact Or.inl (h.counted K k hk)

/-! ### One event of the run -/

/-- At an address the event touches, its record is its own, or there is none. -/
theorem owner_of_touches (hm : s.1.maps.NotFull) {a : U64} (h : ev.Touches cfg s.1.maps a) :
    (ownedStep cfg s.1 ev).owner a = ev.program.kind ∨
      (handle cfg s.1.maps ev).allocs.lookup a = none := by
  by_cases hrecords : ∃ info, recorded cfg s.1.maps ev = some (a, info)
  · obtain ⟨info, hrec⟩ := hrecords
    exact Or.inl (by simp [ownedStep, hrec])
  · right
    rw [lookup_handle_allocs_eq hm, lookup_beforeExit_allocs, if_pos (h.resolve_right hrecords)]
    cases hrec : recorded cfg s.1.maps ev with
    | none => rfl
    | some r => exact if_neg fun heq : a = r.1 => hrecords ⟨r.2, heq ▸ hrec⟩

/-- At the other addresses nothing changes. -/
theorem blocksOf_of_not_touches (hm : s.1.maps.NotFull) {a : U64}
    (h : ¬ ev.Touches cfg s.1.maps a) (L : Kind) :
    (ownedStep cfg s.1 ev).blocksOf L a = s.1.blocksOf L a := by
  have howner : (ownedStep cfg s.1 ev).owner a = s.1.owner a := by
    cases hrec : recorded cfg s.1.maps ev with
    | none => simp [ownedStep, hrec]
    | some r =>
        have hne : a ≠ r.1 := fun heq => h (Or.inr ⟨r.2, heq ▸ hrec⟩)
        simp [ownedStep, hrec, hne]
  rw [Owned.blocksOf, howner]
  exact if_congr Iff.rfl (lookup_handle_allocs_of_not_touches hm h) rfl

/-- Where the event keeps apart, it finds at the addresses it touches what the run of its
kind shows there. -/
theorem lookup_part (hsame : ∀ K, s.1.SameAs K (s.2 K)) (hapart : KeepsApart cfg s.1 ev) {K : Kind}
    (hK : ev.program.kind = some K) {a : U64} (ha : ev.Touches cfg s.1.maps a) :
    (s.2 K).allocs.lookup a = s.1.maps.allocs.lookup a := by
  rw [← (hsame K).1 a, Owned.blocksOf]
  by_cases hmem : a ∈ s.1.maps.allocs
  · exact if_pos ((hapart a ha hmem).trans hK)
  · rw [BoundedMap.lookup_eq_none.mpr hmem, ite_self]

/-- **The kind of the event.** Both runs make the same change. -/
theorem sameAs_own (h : SplitInv cfg s) (hm : s.1.maps.NotFull)
    (hsame : ∀ K, s.1.SameAs K (s.2 K)) (hapart : KeepsApart cfg s.1 ev) {K : Kind}
    (hK : ev.program.kind = some K) :
    (ownedStep cfg s.1 ev).SameAs K (handle cfg (s.2 K) ev) := by
  have hm' := h.notFull_part hm (hsame K)
  have hentries := h.sameEntries K ev.env
  constructor
  · intro a
    by_cases htouch : ev.Touches cfg s.1.maps a
    · rw [lookup_handle_allocs_congr hm hm' hentries (lookup_part hsame hapart hK htouch),
        Owned.blocksOf]
      rcases owner_of_touches hm htouch with howner | hnone
      · exact if_pos (howner.trans hK)
      · exact (congrArg (ite _ · none) hnone).trans ((ite_self _).trans hnone.symm)
    · rw [blocksOf_of_not_touches hm htouch, (hsame K).1 a,
        lookup_handle_allocs_of_not_touches hm' ((touches_congr hm hm' hentries).not.mpr htouch)]
  · intro k
    have hcovered := h.reachable.covered hm.2.2.1
    have hcovered' := (h.partReachable K).covered hm'.2.2.1
    have hword := @word_handle cap cfg s.1.maps hm hcovered ev k
    have hfreed : freedWeight cfg (s.2 K) ev k = freedWeight cfg s.1.maps ev k :=
      freedWeight_congr hentries (fun a ha => lookup_part hsame hapart hK (Or.inl ha)) k
    rw [word_handle hm' hcovered', hfreed, recordedWeight_congr hm hm' hentries, ← (hsame K).2 k]
    show s.1.contributed K k + (if ev.program.kind = some K then _ else _) = _
    rw [if_pos hK, hword]
    abel

/-- **The other kinds.** Their records and statistics stay. -/
theorem sameAs_other (hm : s.1.maps.NotFull) (hsame : ∀ K, s.1.SameAs K (s.2 K))
    (hapart : KeepsApart cfg s.1 ev) {L : Kind} (hL : ev.program.kind ≠ some L) :
    (ownedStep cfg s.1 ev).SameAs L (s.2 L) := by
  constructor
  · intro a
    rw [← (hsame L).1 a]
    by_cases htouch : ev.Touches cfg s.1.maps a
    · have hafter : (ownedStep cfg s.1 ev).blocksOf L a = none := by
        rcases owner_of_touches hm htouch with howner | hnone
        · exact if_neg (howner ▸ hL)
        · exact (congrArg (ite _ · none) hnone).trans (ite_self _)
      have hbefore : s.1.blocksOf L a = none := by
        by_cases hmem : a ∈ s.1.maps.allocs
        · exact if_neg (hapart a htouch hmem ▸ hL)
        · rw [Owned.blocksOf, BoundedMap.lookup_eq_none.mpr hmem, ite_self]
      rw [hafter, hbefore]
    · exact blocksOf_of_not_touches hm htouch L
  · intro k
    rw [← (hsame L).2 k]
    show s.1.contributed L k + (if ev.program.kind = some L then _ else _) = _
    rw [if_neg hL, add_zero]

/-- An event that touches a record of another kind takes it away there, and not in the run
of that kind. -/
theorem keepsApart_of_sameAs (h : SplitInv cfg s) (hm : s.1.maps.NotFull)
    (hsame : ∀ K, s.1.SameAs K (s.2 K))
    (hafter : ∀ K, (splitStep cfg s ev).1.SameAs K ((splitStep cfg s ev).2 K)) :
    KeepsApart cfg s.1 ev := by
  intro a htouch hmem
  obtain ⟨L, hL⟩ := Option.isSome_iff_exists.mp (h.owned a hmem)
  rw [hL]
  by_contra hne
  have hpart : (splitStep cfg s ev).2 L = s.2 L := if_neg (Ne.symm hne)
  have hbefore : (s.2 L).allocs.lookup a = s.1.maps.allocs.lookup a := by
    rw [← (hsame L).1 a]
    exact if_pos hL
  have hgone : (ownedStep cfg s.1 ev).blocksOf L a = none := by
    rcases owner_of_touches hm htouch with howner | hnone
    · exact if_neg (howner ▸ Ne.symm hne)
    · exact (congrArg (ite _ · none) hnone).trans (ite_self _)
  have hlost := (hafter L).1 a
  rw [hpart, hbefore] at hlost
  exact BoundedMap.lookup_eq_none.mp (hlost.symm.trans hgone) hmem

theorem same_step_iff (h : SplitInv cfg s) (hm : s.1.maps.NotFull)
    (hsame : ∀ K, s.1.SameAs K (s.2 K)) :
    (∀ K, (splitStep cfg s ev).1.SameAs K ((splitStep cfg s ev).2 K)) ↔ KeepsApart cfg s.1 ev := by
  refine ⟨h.keepsApart_of_sameAs hm hsame, fun hapart K => ?_⟩
  by_cases hK : ev.program.kind = some K
  · have hpart : (splitStep cfg s ev).2 K = handle cfg (s.2 K) ev := if_pos hK
    rw [hpart]
    exact h.sameAs_own hm hsame hapart hK
  · have hpart : (splitStep cfg s ev).2 K = s.2 K := if_neg hK
    rw [hpart]
    exact sameAs_other hm hsame hapart hK

end SplitInv

/-! ### The result -/

/-- The run of a list of events, with the owners. -/
def ownedRun (cfg : Config) (evs : List Event) : Owned cap := evs.foldl (ownedStep cfg) Owned.empty

/-- **Kinds stay apart.** In a run of tracepoints with no map full, the records and the
statistics of every kind are at every point those of the run of its own events, exactly if
no event frees or replaces a record of another kind. -/
theorem kinds_apart_iff {cfg : Config} {evs : List Event}
    (hkinds : ∀ ev ∈ evs, ev.program.kind.isSome = true)
    (hfull : Run.Along (handle cfg) (fun m _ => m.NotFull) (Maps.empty : Maps cap) evs) :
    (∀ pre, pre <+: evs → ∀ K,
        (ownedRun cfg pre : Owned cap).SameAs K (run cfg Maps.empty (eventsOf K pre))) ↔
      Run.Along (ownedStep cfg) (KeepsApart cfg) (Owned.empty : Owned cap) evs := by
  let s₀ : SplitRun cap := (Owned.empty, fun _ => Maps.empty)
  have hfull' : Run.Along (splitStep cfg) (fun s _ => s.1.maps.NotFull) s₀ evs :=
    (Run.along_map (P := fun m _ => m.NotFull) (f := fun s : SplitRun cap => s.1.maps)
      fun _ _ => rfl).mpr hfull
  have hkinds' : Run.Along (splitStep cfg) (fun _ ev => ev.program.kind.isSome = true) s₀ evs :=
    Run.along_iff_forall_mem.mpr hkinds
  have hexact := Run.forall_prefix_iff_along
    (G := fun s : SplitRun cap => ∀ K, s.1.SameAs K (s.2 K))
    (fun s ev h hP => SplitInv.step h hP.1 hP.2)
    (fun s ev h hP hsame => SplitInv.same_step_iff h hP.1 hsame) (hfull'.and hkinds')
    (splitInv_empty cfg) (fun K => ⟨fun a => rfl, fun k => rfl⟩)
  simp only [foldl_splitStep] at hexact
  exact hexact.trans (Run.along_map (P := KeepsApart cfg) (f := Prod.fst) fun _ _ => rfl)

/-- A slab object, a page and a per-cpu block with different identifiers, and a free of each
kind. -/
theorem kinds_apart_mixed :
    let evs : List Event := [⟨.quiet 0x700000007 3, .kmalloc 0xffff888000001000 64⟩,
      ⟨.quiet 0x700000007 3, .mmPageAlloc 0x1a340 0⟩, ⟨.quiet 0x900000009 4, .mmPageFree 0x1a340⟩,
      ⟨.quiet 0x700000007 4, .percpuAllocPercpu 0x2f0c0 32⟩,
      ⟨.quiet 0x900000009 5, .percpuFreePercpu 0x2f100⟩, ⟨.quiet 0x700000007 4, .kfree 0⟩]
    (ownedRun {} evs : Owned .source).SameAs .slab
      (run {} (Maps.empty : Maps .source) (eventsOf .slab evs)) := by
  intro evs
  exact (@kinds_apart_iff .source {} evs (by decide) (by decide +kernel)).mpr (by decide +kernel)
    evs (List.prefix_refl evs) .slab

/-- The free of a per-cpu block takes the record of the page whose frame number is the same:
the run of the page events alone still has it, and still counts it. -/
theorem percpu_free_takes_page :
    let evs : List Event := [⟨.quiet 0x700000007 3, .mmPageAlloc 0x1a340 0⟩,
      ⟨.quiet 0x900000009 4, .percpuFreePercpu 0x1a340⟩]
    let m := run {} (Maps.empty : Maps .source) evs
    let pages := run {} (Maps.empty : Maps .source) (eventsOf .page evs)
    Run.Along (handle {}) (fun m _ => m.NotFull) (Maps.empty : Maps .source) evs ∧
      (m.allocs.lookup 0x1a340 = none ∧ m.combinedAllocs.word 3 = 0) ∧
      pages.allocs.lookup 0x1a340 = some ⟨4096, 0, 3⟩ ∧
      pages.combinedAllocs.word 3 = contribution 4096 := by
  decide +kernel

end EbpfMemleak
