import EbpfMemleak.Programs

/-!
# EbpfMemleak.Grouping

**Grouping by origin.** `combined_allocs` adds up the blocks of one stack id, and a
report shows each entry with one stack trace. Do the blocks of an entry come from one
trace?

The trace an event was taken at is not in the maps. Events carry it here
(`TracedEvent`), and `Traced` adds to the maps what they forget: the trace each block
was recorded at. What is known of `bpf_get_stackid` is `StackidOk`: either the answer
is the id of the trace, and an id stands for one trace for the whole run, or it is a
negative errno. `gen_alloc_exit2` does not tell the two apart, so all blocks recorded
under one errno share an entry.

`grouped_iff_errno_apart` is the result: the entries stay pure exactly as long as
every block recorded under an errno meets only blocks of its own trace there.
-/

namespace EbpfMemleak

variable {cap : Capacities} {T : Type}

/-! ### Traces -/

/-- An event and the stack trace it was taken at. -/
structure TracedEvent (T : Type) extends Event where
  trace : T

/-- The maps, and the trace the block of each address was recorded at. -/
structure Traced (cap : Capacities) (T : Type) where
  maps : Maps cap
  origin : U64 → Option T

/-- Nothing recorded. -/
def Traced.empty : Traced cap T := ⟨Maps.empty, fun _ => none⟩

/-- One atomic handler execution. -/
def tracedStep (cfg : Config) (s : Traced cap T) (ev : TracedEvent T) : Traced cap T where
  maps := handle cfg s.maps ev.toEvent
  origin :=
    match recorded cfg s.maps ev.toEvent with
    | none => s.origin
    | some (address, _) => Function.update s.origin address (some ev.trace)

/-- The traces do not influence the maps. -/
theorem maps_foldl_tracedStep (cfg : Config) (s : Traced cap T) (evs : List (TracedEvent T)) :
    (evs.foldl (tracedStep cfg) s).maps = run cfg s.maps (evs.map TracedEvent.toEvent) := by
  induction evs generalizing s with
  | nil => rfl
  | cons ev evs ih => exact ih (tracedStep cfg s ev)

/-- `bpf_get_stackid` failed: its answer is one of `-4095 .. -1`. -/
def Env.StackidFailed (env : Env) : Prop := 2 ^ 64 - 4095 ≤ env.stackid.toNat

instance (env : Env) : Decidable env.StackidFailed := inferInstanceAs (Decidable (_ ≤ _))

/-- What `bpf_get_stackid` promises, where `traces id` is the trace kept under `id`: the
id of the event's trace, or a negative errno. -/
def StackidOk (traces : U64 → T) (ev : TracedEvent T) : Prop :=
  (ev.env.stackid.toNat < 2 ^ 31 ∧ ev.trace = traces ev.env.stackid) ∨ ev.env.StackidFailed

/-- A proper stack id survives being cut to an `int`. -/
theorem stackId_of_lt {env : Env} (h : env.stackid.toNat < 2 ^ 31) :
    env.stackId.toNat < 2 ^ 31 ∧ env.stackId.setWidth 64 = env.stackid := by
  have hcut : env.stackId.toNat = env.stackid.toNat := by
    rw [Env.stackId, BitVec.toNat_setWidth]
    omega
  refine ⟨hcut ▸ h, BitVec.eq_of_toNat_eq ?_⟩
  rw [BitVec.toNat_setWidth, hcut]
  omega

/-- An errno cut to an `int` is not a proper stack id. -/
theorem Env.StackidFailed.not_lt {env : Env} (h : env.StackidFailed) :
    ¬ env.stackId.toNat < 2 ^ 31 := by
  have hlt := env.stackid.isLt
  unfold Env.StackidFailed at h
  rw [Env.stackId, BitVec.toNat_setWidth]
  omega

/-! ### One step -/

theorem recorded_stackId {cfg : Config} {m : Maps cap} {ev : Event} {address : U64}
    {info : AllocInfo} (h : recorded cfg m ev = some (address, info)) :
    info.stackId = ev.env.stackId := by
  obtain ⟨-, hrec⟩ := recorded_eq_some.mp h
  obtain ⟨-, -, hinfo⟩ := exitRecord_eq_some.mp hrec
  rw [hinfo]

/-- **A block after a step** is the one the event has stored, with the event's trace, or
an earlier one, with the trace it had. -/
theorem tracedStep_lookup {cfg : Config} {s : Traced cap T} {ev : TracedEvent T} {a : U64}
    {info : AllocInfo} (h : (tracedStep cfg s ev).maps.allocs.lookup a = some info) :
    (recorded cfg s.maps ev.toEvent = some (a, info) ∧
        (beforeExit cfg s.maps ev.toEvent).allocs.HasRoom a ∧
        (tracedStep cfg s ev).origin a = some ev.trace) ∨
      ((beforeExit cfg s.maps ev.toEvent).allocs.lookup a = some info ∧
        (tracedStep cfg s ev).origin a = s.origin a) := by
  rcases lookup_handle_allocs h with ⟨hrec, hroom⟩ | ⟨hold, hne⟩
  · refine Or.inl ⟨hrec, hroom, ?_⟩
    simp [tracedStep, hrec]
  · refine Or.inr ⟨hold, ?_⟩
    cases hrec : recorded cfg s.maps ev.toEvent with
    | none => simp [tracedStep, hrec]
    | some r => simp [tracedStep, hrec, hne r hrec]

/-- An entry after a step is the one the event has created or found, or an earlier one. -/
theorem mem_handle_combinedAllocs {cfg : Config} {m : Maps cap} {ev : Event} {k : U64}
    (h : k ∈ (handle cfg m ev).combinedAllocs) :
    k ∈ m.combinedAllocs ∨ ∃ address info, recorded cfg m ev = some (address, info) ∧
      (beforeExit cfg m ev).combinedAllocs.HasRoom info.stackKey ∧ k = info.stackKey := by
  cases hrec : recorded cfg m ev with
  | none =>
      obtain ⟨sz, hhandle⟩ := handle_of_recorded_none hrec
      rw [hhandle] at h
      exact Or.inl (mem_beforeExit_combinedAllocs.mp h)
  | some r =>
      obtain ⟨address, info⟩ := r
      obtain ⟨sz, hhandle⟩ := handle_of_recorded hrec
      rw [hhandle, track_combinedAllocs] at h
      by_cases hroom : (beforeExit cfg m ev).combinedAllocs.HasRoom info.stackKey
      · rcases (mem_updateStatisticsAdd hroom).mp h with heq | hold
        · exact Or.inr ⟨address, info, rfl, hroom, heq⟩
        · exact Or.inl (mem_beforeExit_combinedAllocs.mp hold)
      · rw [updateStatisticsAdd_of_not_room hroom] at h
        exact Or.inl (mem_beforeExit_combinedAllocs.mp h)

/-! ### The invariant -/

/-- The blocks counted in one entry come from one trace. -/
def Grouped (s : Traced cap T) : Prop :=
  ∀ a b info info', s.maps.allocs.lookup a = some info → s.maps.allocs.lookup b = some info' →
    info.stackKey = info'.stackKey → info.stackKey ∈ s.maps.combinedAllocs →
    ∃ t, s.origin a = some t ∧ s.origin b = some t

/-- What every run keeps, whatever `bpf_get_stackid` answers within its promise. -/
structure Traceable (traces : U64 → T) (s : Traced cap T) : Prop where
  /-- Every block has a trace. -/
  known : ∀ a info, s.maps.allocs.lookup a = some info → ∃ t, s.origin a = some t
  /-- A proper stack id names the trace of the block. -/
  named : ∀ a info, s.maps.allocs.lookup a = some info → info.stackId.toNat < 2 ^ 31 →
    s.origin a = some (traces (info.stackId.setWidth 64))
  /-- A block without an entry finds `combined_allocs` full. -/
  covered : ∀ a info, s.maps.allocs.lookup a = some info →
    info.stackKey ∈ s.maps.combinedAllocs ∨ s.maps.combinedAllocs.size = cap.combinedAllocs

theorem traceable_empty (traces : U64 → T) : Traceable traces (Traced.empty : Traced cap T) where
  known _ _ h := nomatch h
  named _ _ h := nomatch h
  covered _ _ h := nomatch h

theorem grouped_empty : Grouped (Traced.empty : Traced cap T) :=
  fun _ _ _ _ h => nomatch h

/-- An entry stays an entry, and a full map stays full. -/
theorem covered_handle {cfg : Config} {m : Maps cap} {ev : Event} {k : U64}
    (h : k ∈ m.combinedAllocs ∨ m.combinedAllocs.size = cap.combinedAllocs) :
    k ∈ (handle cfg m ev).combinedAllocs ∨
      (handle cfg m ev).combinedAllocs.size = cap.combinedAllocs := by
  refine handle_invariant (P := fun m : Maps cap => k ∈ m.combinedAllocs ∨
    m.combinedAllocs.size = cap.combinedAllocs) (fun _ _ _ hm => hm)
    (fun m a info hm _ => ?_) (fun a info _ hb => ?_) h
  · exact hm.imp mem_updateStatisticsDel.mpr fun hfull =>
      (size_updateStatisticsDel _ _ _).trans hfull
  · exact hb.imp mem_updateStatisticsAdd_of_mem size_updateStatisticsAdd_of_full

/-- A recorded block is counted, or `combined_allocs` is full. -/
theorem covered_recorded {cfg : Config} {m : Maps cap} {ev : Event} {address : U64}
    {info : AllocInfo} (h : recorded cfg m ev = some (address, info)) :
    info.stackKey ∈ (handle cfg m ev).combinedAllocs ∨
      (handle cfg m ev).combinedAllocs.size = cap.combinedAllocs := by
  obtain ⟨sz, hhandle⟩ := handle_of_recorded h
  rw [hhandle, track_combinedAllocs]
  by_cases hroom : (beforeExit cfg m ev).combinedAllocs.HasRoom info.stackKey
  · exact Or.inl ((mem_updateStatisticsAdd hroom).mpr (Or.inl rfl))
  · have hfull : ¬ (beforeExit cfg m ev).combinedAllocs.size < cap.combinedAllocs :=
      fun hlt => hroom (.of_size_lt hlt _)
    rw [updateStatisticsAdd_of_not_room hroom]
    exact Or.inr (Nat.le_antisymm (BoundedMap.size_le _) (Nat.not_lt.mp hfull))

theorem Traceable.step {traces : U64 → T} {cfg : Config} {s : Traced cap T} {ev : TracedEvent T}
    (h : Traceable traces s) (hok : StackidOk traces ev) :
    Traceable traces (tracedStep cfg s ev) := by
  constructor
  · intro a info hl
    rcases tracedStep_lookup hl with ⟨-, -, horigin⟩ | ⟨hold, horigin⟩
    · exact ⟨ev.trace, horigin⟩
    · rw [horigin]
      exact h.known a info (lookup_of_beforeExit hold)
  · intro a info hl hid
    rcases tracedStep_lookup hl with ⟨hrec, -, horigin⟩ | ⟨hold, horigin⟩
    · rw [recorded_stackId hrec] at hid ⊢
      rcases hok with ⟨hlt, htrace⟩ | hfailed
      · rw [horigin, (stackId_of_lt hlt).2, htrace]
      · exact absurd hid hfailed.not_lt
    · rw [horigin]
      exact h.named a info (lookup_of_beforeExit hold) hid
  · intro a info hl
    rcases tracedStep_lookup hl with ⟨hrec, -, -⟩ | ⟨hold, -⟩
    · exact covered_recorded hrec
    · exact covered_handle (h.covered a info (lookup_of_beforeExit hold))

/-! ### The condition -/

/-- A block that is stored and counted under an errno finds under that errno only
blocks of its own trace. -/
def ErrnoApart (cfg : Config) (s : Traced cap T) (ev : TracedEvent T) : Prop :=
  let m := beforeExit cfg s.maps ev.toEvent
  ∀ address info, recorded cfg s.maps ev.toEvent = some (address, info) →
    ev.env.StackidFailed → m.allocs.HasRoom address → m.combinedAllocs.HasRoom info.stackKey →
    ∀ b info', b ≠ address → m.allocs.lookup b = some info' → info'.stackId = info.stackId →
      s.origin b = some ev.trace

/-- A block counted together with the one just recorded has its trace. -/
theorem origin_of_recorded {traces : U64 → T} {cfg : Config} {s : Traced cap T}
    {ev : TracedEvent T} (h : Traceable traces s) (hok : StackidOk traces ev)
    (hapart : ErrnoApart cfg s ev) {a b : U64} {info info' : AllocInfo}
    (hrec : recorded cfg s.maps ev.toEvent = some (a, info))
    (hroom : (beforeExit cfg s.maps ev.toEvent).allocs.HasRoom a) (hne : b ≠ a)
    (hold : (beforeExit cfg s.maps ev.toEvent).allocs.lookup b = some info')
    (hkey : info'.stackKey = info.stackKey)
    (hcounted : info.stackKey ∈ (tracedStep cfg s ev).maps.combinedAllocs) :
    s.origin b = some ev.trace := by
  have hid : info'.stackId = info.stackId := stackKey_eq_iff.mp hkey
  rcases hok with ⟨hlt, htrace⟩ | hfailed
  · obtain ⟨hlt', hcut⟩ := stackId_of_lt hlt
    have hevent : info'.stackId = ev.env.stackId := hid.trans (recorded_stackId hrec)
    rw [h.named b info' (lookup_of_beforeExit hold) (hevent ▸ hlt'), hevent, hcut, htrace]
  · have hcomb : (beforeExit cfg s.maps ev.toEvent).combinedAllocs.HasRoom info.stackKey := by
      rcases mem_handle_combinedAllocs hcounted with hmem | ⟨a', new, hrec', hroom', hkey'⟩
      · exact .of_mem (mem_beforeExit_combinedAllocs.mpr hmem)
      · exact hkey' ▸ hroom'
    exact hapart a info hrec hfailed hroom hcomb b info' hne hold hid

/-- Blocks that are both from before the step were counted together then. -/
theorem mem_of_counted {traces : U64 → T} {cfg : Config} {s : Traced cap T} {ev : TracedEvent T}
    (h : Traceable traces s) {a : U64} {info : AllocInfo}
    (hl : s.maps.allocs.lookup a = some info)
    (hcounted : info.stackKey ∈ (tracedStep cfg s ev).maps.combinedAllocs) :
    info.stackKey ∈ s.maps.combinedAllocs := by
  rcases mem_handle_combinedAllocs hcounted with hmem | ⟨a', new, -, hroom, hkey⟩
  · exact hmem
  · rcases h.covered a info hl with hmem | hfull
    · exact hmem
    · -- a full map has room only for a key it holds
      have hsize : (beforeExit cfg s.maps ev.toEvent).combinedAllocs.size = cap.combinedAllocs :=
        (BoundedMap.size_eq_of_mem_iff fun _ => mem_beforeExit_combinedAllocs).trans hfull
      rw [← hkey] at hroom
      exact mem_beforeExit_combinedAllocs.mp
        (hroom.resolve_right fun hlt => absurd hsize (Nat.ne_of_lt hlt))

/-- **One step** keeps the entries pure exactly if it meets the condition. -/
theorem grouped_step_iff {traces : U64 → T} {cfg : Config} {s : Traced cap T} {ev : TracedEvent T}
    (h : Traceable traces s) (hok : StackidOk traces ev) (hs : Grouped s) :
    Grouped (tracedStep cfg s ev) ↔ ErrnoApart cfg s ev := by
  constructor
  · intro hgrouped a info hrec _ hroom hcomb b info' hne hold hid
    obtain ⟨sz, hhandle⟩ := handle_of_recorded hrec
    have hnew : (tracedStep cfg s ev).maps.allocs.lookup a = some info := by
      rw [tracedStep, hhandle, track_allocs, BoundedMap.lookup_put hroom, if_pos rfl]
    have hkept : (tracedStep cfg s ev).maps.allocs.lookup b = some info' := by
      rw [tracedStep, hhandle, track_allocs, BoundedMap.lookup_put_of_ne hne, hold]
    have hcounted : info.stackKey ∈ (tracedStep cfg s ev).maps.combinedAllocs := by
      rw [tracedStep, hhandle, track_combinedAllocs]
      exact (mem_updateStatisticsAdd hcomb).mpr (Or.inl rfl)
    obtain ⟨t, ha, hb⟩ := hgrouped a b info info' hnew hkept (stackKey_eq_iff.mpr hid.symm) hcounted
    have hstep : (tracedStep cfg s ev).origin = Function.update s.origin a (some ev.trace) := by
      rw [tracedStep, hrec]
    rw [hstep, Function.update_self] at ha
    rw [hstep, Function.update_of_ne hne] at hb
    rw [hb, ha]
  · intro hapart a b info info' hla hlb hkey hcounted
    have hcounted' : info'.stackKey ∈ (tracedStep cfg s ev).maps.combinedAllocs := hkey ▸ hcounted
    rcases tracedStep_lookup hla with ⟨hrec, hroom, hta⟩ | ⟨holda, hta⟩ <;>
      rcases tracedStep_lookup hlb with ⟨hrec', hroom', htb⟩ | ⟨holdb, htb⟩
    · exact ⟨ev.trace, hta, htb⟩
    · by_cases hne : b = a
      · exact ⟨ev.trace, hta, hne ▸ hta⟩
      · refine ⟨ev.trace, hta, htb.trans ?_⟩
        exact origin_of_recorded h hok hapart hrec hroom hne holdb hkey.symm hcounted
    · by_cases hne : a = b
      · exact ⟨ev.trace, hne ▸ htb, htb⟩
      · refine ⟨ev.trace, hta.trans ?_, htb⟩
        exact origin_of_recorded h hok hapart hrec' hroom' hne holda hkey hcounted'
    · have ha := lookup_of_beforeExit holda
      rw [hta, htb]
      exact hs a b info info' ha (lookup_of_beforeExit holdb) hkey (mem_of_counted h ha hcounted)

/-- **Grouping by origin.** In a run in which `bpf_get_stackid` keeps its promise, the
blocks counted in one entry come from one stack trace in every state, exactly if every
block recorded under an errno finds under that errno only blocks of its own trace. -/
theorem grouped_iff_errno_apart {cfg : Config} {traces : U64 → T} {evs : List (TracedEvent T)}
    (hok : ∀ ev ∈ evs, StackidOk traces ev) :
    (∀ pre, pre <+: evs → Grouped (pre.foldl (tracedStep cfg) (Traced.empty : Traced cap T))) ↔
      Run.Along (tracedStep cfg) (ErrnoApart cfg) (Traced.empty : Traced cap T) evs :=
  Run.forall_prefix_iff_along (fun _ _ h hok => h.step hok)
    (fun _ _ h hok hs => grouped_step_iff h hok hs) (Run.along_iff_forall_mem.mpr hok)
    (traceable_empty traces) grouped_empty

theorem errnoApart_of_not_failed {cfg : Config} {s : Traced cap T} {ev : TracedEvent T}
    (h : ¬ ev.env.StackidFailed) : ErrnoApart cfg s ev :=
  fun _ _ _ hfailed => absurd hfailed h

/-- A `malloc` call at a stack trace. -/
def tracedMalloc (trace : T) (stackid size rc : U64) : List (TracedEvent T) :=
  (mallocCall 0x700000007 stackid size rc).map fun ev => ⟨ev, trace⟩

/-- Two blocks of one trace and one of another, all under proper ids. -/
theorem grouped_proper_ids :
    Grouped ((tracedMalloc 'a' 3 100 0x1000 ++ tracedMalloc 'b' 5 50 0x2000 ++
      tracedMalloc 'a' 3 100 0x3000).foldl (tracedStep {})
      (Traced.empty : Traced .source Char)) := by
  have hok : ∀ ev ∈ tracedMalloc 'a' 3 100 0x1000 ++ tracedMalloc 'b' 5 50 0x2000 ++
      tracedMalloc 'a' 3 100 0x3000,
      ¬ ev.env.StackidFailed ∧ StackidOk (fun id => if id = 3 then 'a' else 'b') ev := by
    simp [tracedMalloc, mallocCall, Env.quiet, Env.StackidFailed, StackidOk]
  refine (grouped_iff_errno_apart fun ev hev => (hok ev hev).2).mpr ?_ _ List.prefix_rfl
  exact (Run.along_iff_forall_mem.mpr fun ev hev => (hok ev hev).1).imp fun _ _ =>
    errnoApart_of_not_failed

/-- Two blocks of different traces, both recorded while `bpf_get_stackid` answered
`-EEXIST`, are counted in one entry. -/
theorem errno_merges_traces :
    let evs := tracedMalloc 'a' (-17) 100 0x1000 ++ tracedMalloc 'b' (-17) 50 0x2000
    let s := evs.foldl (tracedStep {}) (Traced.empty : Traced .source Char)
    (∀ ev ∈ evs, StackidOk (fun _ => 'a') ev) ∧
      s.maps.allocs.lookup 0x1000 = some ⟨100, 0, -17⟩ ∧
      s.maps.allocs.lookup 0x2000 = some ⟨50, 0, -17⟩ ∧
      s.maps.combinedAllocs.word (-17) = contribution 100 + contribution 50 ∧
      s.origin 0x1000 = some 'a' ∧ s.origin 0x2000 = some 'b' := by
  refine ⟨?_, by decide +kernel, by decide +kernel, by decide +kernel, by decide +kernel,
    by decide +kernel⟩
  simp [tracedMalloc, mallocCall, Env.quiet, Env.StackidFailed, StackidOk]

end EbpfMemleak
