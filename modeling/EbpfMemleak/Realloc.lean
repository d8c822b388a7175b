import EbpfMemleak.Accounting

/-!
# EbpfMemleak.Realloc

**A `realloc` that fails.** `realloc_enter` runs `gen_free_enter` on the old block,
before anyone knows whether the call succeeds. When it fails the old block is
still allocated, but `realloc_exit` sees a null pointer and puts nothing back: in
the maps a failed `realloc` is a `free` of the old block.

`BlockKept` says what ought to survive: the record of the block and its share of
the word of its stack. Neither does, from any state and whatever other events
come between the enter and the exit.
-/

namespace EbpfMemleak

variable {cap : Capacities}

/-! ### The share of an address -/

/-- What an address contributes to the word of stack `k`: what is left of the word
once the records of all other addresses are taken out. -/
def Maps.share (m : Maps cap) (address k : U64) : U64 :=
  m.combinedAllocs.word k -
    packedSum ((m.allocs.erase address).values.filter fun info => info.stackKey = k)

theorem share_eq (m : Maps cap) (address k : U64) :
    m.share address k = m.drift k + m.weightAt address k := by
  cases hl : m.allocs.lookup address with
  | none =>
      have habsent : address ∉ m.allocs := BoundedMap.lookup_eq_none.mp hl
      rw [weightAt_of_not_mem habsent, add_zero, Maps.share, BoundedMap.erase_of_not_mem habsent]
      rfl
  | some info =>
      rw [weightAt_of_lookup hl, Maps.drift, Maps.records, BoundedMap.values_erase_of_lookup hl,
        packedSum_filter_cons, Maps.share]
      abel

/-- The block at an address survived from `m` to `m'`: its record is the same, and so
is its share of every word. -/
def BlockKept (m m' : Maps cap) (address : U64) : Prop :=
  m'.allocs.lookup address = m.allocs.lookup address ∧
    ∀ k, m'.share address k = m.share address k

/-! ### Events that leave an address alone -/

/-- No exit of the event returns `address`. -/
def Elsewhere (cfg : Config) (address : U64) (m : Maps cap) (ev : Event) : Prop :=
  ∀ a ∈ (ev.calls cfg m).exit, a ≠ address

instance (cfg : Config) (address : U64) (m : Maps cap) (ev : Event) :
    Decidable (Elsewhere cfg address m ev) := Option.decidableForallMem _

/-- An event that does not return an absent address leaves it absent. -/
theorem Elsewhere.not_mem_handle {cfg : Config} {address : U64} {m : Maps cap} {ev : Event}
    (h : Elsewhere cfg address m ev) (habsent : address ∉ m.allocs) :
    address ∉ (handle cfg m ev).allocs := by
  refine not_mem_handle_allocs (fun info hrec => ?_) habsent
  obtain ⟨hexit, -⟩ := recorded_eq_some.mp hrec
  exact h address hexit rfl

/-! ### The failed call -/

/-- What `realloc_enter` leaves of the old block: nothing, and its weight is out of
the word of its stack. -/
theorem share_reallocEnter {cfg : Config} {m : Maps cap} {env : Env} {p size : U64}
    {info : AllocInfo} (hp : m.allocs.lookup p = some info) :
    let m₁ := handle cfg m ⟨env, .reallocEnter p size⟩
    p ∉ m₁.allocs ∧ (info.stackKey ∈ m.combinedAllocs →
      info.stackKey ∈ m₁.combinedAllocs ∧ m₁.drift info.stackKey = m.drift info.stackKey) := by
  intro m₁
  have hm₁ : m₁ = genAllocEnter cfg env size (m.untrack p info) := by
    rw [← genFreeEnter_of_some hp]
    rfl
  have hallocs : m₁.allocs = m.allocs.erase p := by
    rw [hm₁, genAllocEnter_allocs, untrack_allocs]
  have hcomb : m₁.combinedAllocs = (m.untrack p info).combinedAllocs := by
    rw [hm₁, genAllocEnter_combinedAllocs]
  refine ⟨?_, fun hk => ⟨?_, ?_⟩⟩
  · rw [hallocs]
    exact fun hmem => (BoundedMap.mem_erase.mp hmem).1 rfl
  · rw [hcomb]
    exact mem_updateStatisticsDel.mpr hk
  · have hdrift := drift_untrack hp fun _ => hk
    rw [← hdrift, Maps.drift, Maps.drift, hcomb]
    exact congrArg (_ - packedSum ·) (records_eq_of_allocs hallocs _)

/-- `realloc_exit` with a null pointer changes neither `allocs` nor
`combined_allocs`. -/
theorem handle_reallocExit_null (cfg : Config) (m : Maps cap) (env : Env) :
    handle cfg m ⟨env, .reallocExit 0⟩ = { m with sizes := m.sizes.erase env.pid } :=
  genAllocExit2_of_none (exitRecord_eq_none.mpr (Or.inl rfl))

/-- **A failed `realloc` never keeps the old block.** Whatever the state, the tracked
block, the requested size and the events between the enter and the exit, as long
as none of them returns the address: after the null exit the block has no record.
If its stack had an entry, and the events between return fresh addresses and meet
no full map, its share of the word has dropped by exactly its contribution. -/
theorem failed_realloc_loses_block {cfg : Config} {m : Maps cap} {env env' : Env}
    {p size : U64} {info : AllocInfo} {mid : List Event} (hp : m.allocs.lookup p = some info)
    (hmid : Run.Along (handle cfg) (Elsewhere cfg p)
      (handle cfg m ⟨env, .reallocEnter p size⟩) mid) :
    let m₁ := handle cfg m ⟨env, .reallocEnter p size⟩
    let m' := run cfg m (⟨env, .reallocEnter p size⟩ :: (mid ++ [⟨env', .reallocExit 0⟩]))
    ¬ BlockKept m m' p ∧ p ∉ m'.allocs ∧
      (info.stackKey ∈ m.combinedAllocs →
        Run.Along (handle cfg) (ExitFresh cfg) m₁ mid →
        Run.Along (handle cfg) (fun m _ => m.NotFull) m₁ mid →
        m'.share p info.stackKey = m.share p info.stackKey - contribution info.size) := by
  intro m₁ m'
  obtain ⟨hgone, hentry⟩ := @share_reallocEnter cap cfg m env p size info hp
  have hm' : m' = { run cfg m₁ mid with
      sizes := (run cfg m₁ mid).sizes.erase env'.pid } := by
    show run cfg m₁ (mid ++ [_]) = _
    rw [run_append]
    exact handle_reallocExit_null cfg _ env'
  have habsent : p ∉ m'.allocs := by
    rw [hm']
    exact Run.foldl_invariant (I := fun m : Maps cap => p ∉ m.allocs)
      (fun _ _ hm hev => hev.not_mem_handle hm) hgone hmid
  refine ⟨?_, habsent, ?_⟩
  · intro hkept
    have hrecord := hkept.1
    rw [hp] at hrecord
    exact habsent (BoundedMap.mem_of_lookup hrecord)
  · intro hk hfresh hfull
    -- the events between keep the drift, and the share of an absent address is the drift
    obtain ⟨hk₁, hdrift⟩ := hentry hk
    have hrun := drift_run hk₁ hfresh hfull
    rw [share_eq, share_eq, weightAt_of_not_mem habsent, weightAt_of_lookup hp,
      weight_stackKey, add_zero, add_sub_cancel_right, hm']
    exact hrun.trans hdrift

/-- A `realloc` to an absurd size fails while another process allocates. -/
theorem failed_realloc_loses_block_between :
    let m := run {} (Maps.empty : Maps .source) (mallocCall 0x700000007 3 100 0x1000)
    let p : Env := .quiet 0x700000007 4
    let m' := run {} m (⟨p, .reallocEnter 0x1000 0x4000000000000000⟩ ::
      (mallocCall 0x900000009 3 64 0x2000 ++ [⟨p, .reallocExit 0⟩]))
    0x1000 ∉ m'.allocs ∧ m'.share 0x1000 3 = m.share 0x1000 3 - contribution 100 := by
  intro m p m'
  have hp : m.allocs.lookup 0x1000 = some ⟨100, 0, 3⟩ := by decide +kernel
  have hlost := @failed_realloc_loses_block .source {} m p p 0x1000 0x4000000000000000 _
    (mallocCall 0x900000009 3 64 0x2000) hp (by decide +kernel)
  have hkey : (AllocInfo.mk 100 0 3).stackKey = 3 := by decide
  have hshare := hlost.2.2 (by decide +kernel) (by decide +kernel) (by decide +kernel)
  rw [hkey] at hshare
  exact ⟨hlost.2.1, hshare⟩

/-- The leaked block vanishes from the maps: no record, and nothing left in the word
of its stack. -/
theorem failed_realloc_forgets_leak :
    let m := run {} (Maps.empty : Maps .source) (mallocCall 0x700000007 3 100 0x1000)
    let p : Env := .quiet 0x700000007 4
    let m' := run {} m [⟨p, .reallocEnter 0x1000 0x4000000000000000⟩, ⟨p, .reallocExit 0⟩]
    Reachable {} m ∧ m.allocs.lookup 0x1000 = some ⟨100, 0, 3⟩ ∧
      m.combinedAllocs.word 3 = contribution 100 ∧ ¬ BlockKept m m' 0x1000 ∧
      m'.allocs.lookup 0x1000 = none ∧ m'.combinedAllocs.word 3 = 0 := by
  intro m p m'
  have hp : m.allocs.lookup 0x1000 = some ⟨100, 0, 3⟩ := by decide +kernel
  have hgone : m'.allocs.lookup 0x1000 = none := by decide +kernel
  refine ⟨⟨_, rfl⟩, hp, by decide +kernel, ?_, hgone, by decide +kernel⟩
  intro hkept
  have hrecord := hkept.1
  rw [hp, hgone] at hrecord
  cases hrecord

end EbpfMemleak
