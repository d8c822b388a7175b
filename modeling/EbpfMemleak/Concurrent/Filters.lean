import EbpfMemleak.Concurrent.Programs

/-!
# EbpfMemleak.Concurrent.Filters

**Do the filters hold for what is recorded?** Size and process are checked in
`gen_alloc_enter` only; the record is made later, in `gen_alloc_exit2`, of a size that is
read from `sizes` through a pointer, when other threads may have consumed or replaced the
entry.

The invariant says of every map entry, and of every size a handler holds on to, that it
was let through. A pointer into `sizes` is no exception: an element that has held an
accepted size only ever gets another one (`PcMove.sized_value`). An exit that has found
an entry under its process id knows that this process is traced (`Pc.Filtered`).

Where a record comes from is told by the run: `StoredBy` names the step that stored it.
-/

namespace EbpfMemleak

variable {n : Nat} {ε ι : Type}

/-! ### The invariant -/

/-- The size filter. -/
def Config.Sized (cfg : Config) (size : U64) : Prop := cfg.minSize ≤ size ∧ size ≤ cfg.maxSize

/-- The process filter. -/
def Config.Targets (cfg : Config) (pid : Pid) : Prop := cfg.targetPid ≠ 0 → pid = cfg.targetPid

theorem Accepted.sized {cfg : Config} {env : Env} {size : U64} (h : Accepted cfg env size) :
    cfg.Sized size := h.1

theorem Accepted.targets {cfg : Config} {env : Env} {size : U64} (h : Accepted cfg env size) :
    cfg.Targets env.pid := fun hne => h.2.2.resolve_left hne

/-- The entries of the maps have passed the filters. -/
structure Shared.Filtered (cfg : Config) (s : Shared n ε) : Prop where
  sizes : s.sizes.All fun pid size => cfg.Sized size ∧ cfg.Targets pid
  allocs : s.allocs.All fun address info => cfg.Sized info.size ∧ address ≠ 0

/-- What a routine of process `pid` holds on to has passed the filters. -/
def Pc.Filtered (cfg : Config) (pid : Pid) (s : Shared n ε) : Pc ε → Prop
  | .enterUpdate pid' size => cfg.Sized size ∧ cfg.Targets pid'
  | .exitLookup env _ => env.pid = pid
  | .exitReadSize _ _ size => cfg.Targets pid ∧ cfg.Sized (s.sizes.value size)
  | .exitDelete _ _ size => cfg.Targets pid ∧ cfg.Sized size
  | .exitUpdate address info => cfg.Targets pid ∧ cfg.Sized info.size ∧ address ≠ 0
  | _ => True

/-- An exit is one of the process. -/
def Routine.Of (pid : Pid) : Routine → Prop
  | .exit env _ => env.pid = pid
  | _ => True

/-- A handler in flight. -/
structure Frame.Filtered (cfg : Config) (s : Shared n ε) (f : Frame ε) : Prop where
  position : ∀ pc, f.position = .routine pc → pc.Filtered cfg f.env.pid s
  calls : ∀ routine ∈ f.calls, routine.Of f.env.pid

/-- What a thread holds on to. -/
def Thread.Filtered (cfg : Config) (s : SharedMaps n ε) (t : Thread ε) : Prop :=
  ∀ f ∈ t.frame, f.Filtered cfg s.toShared

theorem Pc.Filtered.mono {cfg : Config} {pid : Pid} {s s' : Shared n ε} {pc : Pc ε}
    (h : pc.Filtered cfg pid s)
    (hvalue : ∀ e, cfg.Sized (s.sizes.value e) → cfg.Sized (s'.sizes.value e)) :
    pc.Filtered cfg pid s' := by
  cases pc with
  | exitReadSize env address size => exact ⟨h.1, hvalue size h.2⟩
  | _ => exact h

theorem Thread.Filtered.mono {cfg : Config} {s s' : SharedMaps n ε} {t : Thread ε}
    (h : t.Filtered cfg s)
    (hvalue : ∀ e, cfg.Sized (s.sizes.value e) → cfg.Sized (s'.sizes.value e)) :
    t.Filtered cfg s' :=
  fun f hf => ⟨fun pc hpc => ((h f hf).position pc hpc).mono hvalue, (h f hf).calls⟩

theorem filtered_ofStat {cfg : Config} {pid : Pid} {s : Shared n ε} (pc : StatPc) :
    (Pc.ofStat pc : Pc ε).Filtered cfg pid s := by
  unfold Pc.ofStat
  split <;> trivial

/-! ### Steps -/

/-- A routine starts with what the filters let through. -/
theorem Routine.Of.filtered_start {cfg : Config} {pid : Pid} {s : Shared n ε}
    {routine : Routine} (h : routine.Of pid) :
    (routine.start cfg : Pc ε).Filtered cfg pid s := by
  cases routine with
  | enter env size =>
      by_cases hacc : Accepted cfg env size
      · rw [Routine.start, if_pos hacc]
        exact ⟨hacc.sized, hacc.targets⟩
      · rw [Routine.start, if_neg hacc]
        trivial
  | exit env address => exact h
  | free address => trivial

/-- The exits of a handler are those of its process. -/
theorem routines_of (env : Env) (c : Calls) : ∀ routine ∈ c.routines env, routine.Of env.pid := by
  intro routine hmem
  simp only [Calls.routines, List.mem_append, Option.mem_toList, Option.map_eq_some_iff] at hmem
  rcases hmem with (⟨_, _, rfl⟩ | ⟨_, _, rfl⟩) | ⟨_, _, rfl⟩
  · trivial
  · trivial
  · exact rfl

/-- A handler starts filtered. -/
theorem filtered_frame (cfg : Config) (s : Shared n ε) (ev : Event) :
    (ev.frame cfg : Frame ε).Filtered cfg s where
  position pc hpc := by
    have hidle : pc = .idle := by
      obtain ⟨env, program⟩ := ev
      cases program <;> simp_all [Event.frame, Event.position]
    rw [hidle]
    trivial
  calls := routines_of ev.env _

variable [DecidableEq ε]

section Steps

variable {cfg : Config} {pid : Pid} {e : ε} {s s' : Shared n ε} {pc pc' : Pc ε}

/-- **An element keeps holding accepted sizes.** -/
theorem PcMove.sized_value (h : PcMove e s pc s' pc') (hpc : pc.Filtered cfg pid s) {e' : ε}
    (he : cfg.Sized (s.sizes.value e')) : cfg.Sized (s'.sizes.value e') := by
  cases h with
  | enterUpdate =>
      rcases s.sizes.value_update_cases e e' _ _ with hold | hnew
      · exact hold.symm ▸ he
      · exact hnew.symm ▸ hpc.1
  | _ => exact he

/-- A step of a routine keeps the entries filtered. -/
theorem PcMove.filtered_shared (h : PcMove e s pc s' pc') (hs : s.Filtered cfg)
    (hpc : pc.Filtered cfg pid s) : s'.Filtered cfg := by
  cases h with
  | enterUpdate => exact ⟨hs.sizes.update hpc, hs.allocs⟩
  | exitNull => exact ⟨hs.sizes.delete _, hs.allocs⟩
  | exitDelete => exact ⟨hs.sizes.delete _, hs.allocs⟩
  | exitUpdate => exact ⟨hs.sizes, hs.allocs.update hpc.2⟩
  | freeDelete => exact ⟨hs.sizes, hs.allocs.delete _⟩
  | _ => exact ⟨hs.sizes, hs.allocs⟩

/-- A step of a routine keeps what it holds on to filtered. -/
theorem PcMove.filtered (h : PcMove e s pc s' pc') (hs : s.Filtered cfg)
    (hpc : pc.Filtered cfg pid s) : pc'.Filtered cfg pid s' := by
  cases h with
  | exitFound hfound =>
      -- the entry was let through for this process id
      obtain ⟨hsize, htarget⟩ := hs.sizes _ _ (ElementMap.get_of_element hfound)
      have hpid : _ = pid := hpc
      exact ⟨hpid ▸ htarget, hsize⟩
  | exitReadSize => exact hpc
  | exitDelete haddr => exact ⟨hpc.1, hpc.2, haddr⟩
  | statistics hstat => exact filtered_ofStat _
  | _ => trivial

/-- A record after a step was there before, or the step stored it. -/
theorem PcMove.get_allocs (h : PcMove e s pc s' pc') {address : U64} {info : AllocInfo}
    (hget : s'.allocs.get address = some info) :
    pc = .exitUpdate address info ∨ s.allocs.get address = some info := by
  cases h with
  | exitUpdate =>
      rcases ElementMap.get_of_get_update hget with ⟨rfl, rfl⟩ | hold
      · exact Or.inl rfl
      · exact Or.inr hold
  | freeDelete => exact Or.inr (ElementMap.get_of_get_delete hget)
  | _ => exact Or.inr hget

end Steps

section Handlers

variable {cfg : Config} {e : ε} {s s' : SharedMaps n ε}

/-- A step of a handler keeps the entries filtered, its own position, and the elements that
hold accepted sizes. -/
theorem FrameMove.filtered {f : Frame ε} {f' : Option (Frame ε)}
    (h : FrameMove cfg e s f s' f') (hs : s.toShared.Filtered cfg)
    (hf : f.Filtered cfg s.toShared) :
    s'.toShared.Filtered cfg ∧ (∀ g ∈ f', g.Filtered cfg s'.toShared) ∧
      ∀ e', cfg.Sized (s.sizes.value e') → cfg.Sized (s'.sizes.value e') := by
  -- between the routines nothing but the position and the calls change
  have hsame : ∀ {env : Env} {position : Position ε} {calls : List Routine},
      (∀ pc, position = .routine pc → pc.Filtered cfg env.pid s.toShared) →
      (∀ routine ∈ calls, routine.Of env.pid) →
      ∀ g ∈ some (Frame.mk env position calls), g.Filtered cfg s.toShared := by
    rintro env position calls hpos hcalls g hg
    obtain rfl := Option.some.inj hg
    exact ⟨hpos, hcalls⟩
  cases h with
  | returned => exact ⟨hs, by simp, fun _ => id⟩
  | called =>
      obtain ⟨hroutine, hcalls⟩ := List.forall_mem_cons.mp hf.calls
      refine ⟨hs, hsame (fun pc hpc => ?_) hcalls, fun _ => id⟩
      cases hpc
      exact hroutine.filtered_start
  | routine hmove =>
      have hpc := hf.position _ rfl
      refine ⟨hmove.filtered_shared hs hpc, ?_, fun _ => hmove.sized_value hpc⟩
      rintro g hg
      obtain rfl := Option.some.inj hg
      refine ⟨fun pc hpc' => ?_, hf.calls⟩
      cases hpc'
      exact hmove.filtered hs hpc
  | memptrsUpdate =>
      exact ⟨hs, hsame (fun pc hpc => by cases hpc; trivial) hf.calls, fun _ => id⟩
  | memptrMissed => exact ⟨hs, by simp, fun _ => id⟩
  | memptrFound => exact ⟨hs, hsame (fun pc hpc => nomatch hpc) hf.calls, fun _ => id⟩
  | memptrsDelete => exact ⟨hs, hsame (fun pc hpc => nomatch hpc) hf.calls, fun _ => id⟩
  | readFaulted => exact ⟨hs, by simp, fun _ => id⟩
  | read => exact ⟨hs, hsame (fun pc hpc => by cases hpc; rfl) hf.calls, fun _ => id⟩

/-- A step of a thread does, too. -/
theorem ThreadMove.filtered {t t' : Thread ε} (h : ThreadMove cfg e s t s' t')
    (hs : s.toShared.Filtered cfg) (ht : t.Filtered cfg s) :
    s'.toShared.Filtered cfg ∧ t'.Filtered cfg s' ∧
      ∀ e', cfg.Sized (s.sizes.value e') → cfg.Sized (s'.sizes.value e') := by
  cases h with
  | halted => exact ⟨hs, ht, fun _ => id⟩
  | started =>
      refine ⟨hs, fun f hf => ?_, fun _ => id⟩
      obtain rfl := Option.some.inj hf
      exact filtered_frame cfg s.toShared _
  | moved hmove => exact hmove.filtered hs (ht _ rfl)

/-- A record after a step was there before, or the thread stored it. -/
theorem ThreadMove.get_allocs {t t' : Thread ε} (h : ThreadMove cfg e s t s' t')
    {address : U64} {info : AllocInfo} (hget : s'.allocs.get address = some info) :
    (∃ env calls, t.frame = some ⟨env, .routine (.exitUpdate address info), calls⟩) ∨
      s.allocs.get address = some info := by
  cases h with
  | halted => exact Or.inr hget
  | started => exact Or.inr hget
  | moved hmove =>
      cases hmove with
      | routine hpc =>
          rcases hpc.get_allocs hget with rfl | hold
          · exact Or.inl ⟨_, _, rfl⟩
          · exact Or.inr hold
      | _ => exact Or.inr hget

end Handlers

/-! ### Any interleaving -/

variable [DecidableEq ι]

/-- The maps and all threads are filtered. -/
structure System.Filtered (cfg : Config) (c : System n ε ι) : Prop where
  shared : c.shared.toShared.Filtered cfg
  threads : ∀ i, (c.threads i).Filtered cfg c.shared

theorem System.Filtered.next {cfg : Config} {c : System n ε ι} (h : System.Filtered cfg c)
    (x : ι × ε) : System.Filtered cfg (systemNext cfg c x) := by
  obtain ⟨hshared, hown, hvalue⟩ := (systemNext_move cfg c x).filtered h.shared (h.threads x.1)
  refine ⟨hshared, fun i => ?_⟩
  by_cases hi : i = x.1
  · rw [hi]
    exact hown
  · have hother : (systemNext cfg c x).threads i = c.threads i :=
      Interleave.next_threads_of_ne Prod.fst (fun x : ι × ε => Thread.step cfg x.2) hi
    rw [hother]
    exact (h.threads i).mono hvalue

/-- **Every reachable state is filtered.** -/
theorem filtered_systemRun (cfg : Config) (events : ι → List Event) (sched : List (ι × ε)) :
    System.Filtered cfg (systemRun cfg events sched : System n ε ι) := by
  induction sched using List.reverseRecOn with
  | nil => exact ⟨⟨ElementMap.all_empty 0, ElementMap.all_empty _⟩, fun i f hf => nomatch hf⟩
  | append_singleton sched x ih =>
      rw [systemRun_concat]
      exact ih.next x

/-- The record of `address` was stored by a step of a handler of process `pid`, inside
`gen_alloc_exit2`, and has been there ever since. -/
def StoredBy (n : Nat) (cfg : Config) (events : ι → List Event) (sched : List (ι × ε))
    (address : U64) (info : AllocInfo) (pid : Pid) : Prop :=
  ∃ pre x post, sched = pre ++ x :: post ∧
    (∃ env calls, ((systemRun cfg events pre : System n ε ι).threads x.1).frame =
      some ⟨env, .routine (.exitUpdate address info), calls⟩ ∧ env.pid = pid) ∧
    ∀ mid, mid <+: post → (systemRun cfg events (pre ++ x :: mid) :
      System n ε ι).shared.allocs.get address = some info

theorem StoredBy.concat {cfg : Config} {events : ι → List Event} {sched : List (ι × ε)}
    {address : U64} {info : AllocInfo} {pid : Pid} (x : ι × ε)
    (h : StoredBy n cfg events sched address info pid)
    (hget : (systemRun cfg events (sched ++ [x]) : System n ε ι).shared.allocs.get address =
      some info) : StoredBy n cfg events (sched ++ [x]) address info pid := by
  obtain ⟨pre, y, post, rfl, hstored, hstays⟩ := h
  refine ⟨pre, y, post ++ [x], by simp, hstored, fun mid hmid => ?_⟩
  rcases List.prefix_concat_iff.mp hmid with rfl | hmid
  · simpa using hget
  · exact hstays mid hmid

/-- **Where a record comes from**: a step of the run stored it, for a process that is
traced. -/
theorem exists_storedBy {cfg : Config} {events : ι → List Event} {sched : List (ι × ε)}
    {address : U64} {info : AllocInfo}
    (hget : (systemRun cfg events sched : System n ε ι).shared.allocs.get address = some info) :
    ∃ pid, StoredBy n cfg events sched address info pid ∧ cfg.Targets pid := by
  induction sched using List.reverseRecOn with
  | nil => cases hget
  | append_singleton sched x ih =>
      have hafter := hget
      rw [systemRun_concat] at hafter
      rcases (systemNext_move cfg _ x).get_allocs hafter with ⟨env, calls, hframe⟩ | hbefore
      · -- this step stored it
        have hfiltered := (filtered_systemRun cfg events sched).threads x.1 _ hframe
        refine ⟨env.pid, ⟨sched, x, [], rfl, ⟨env, calls, hframe, rfl⟩, ?_⟩,
          (hfiltered.position _ rfl).1⟩
        intro mid hmid
        rw [List.prefix_nil.mp hmid]
        exact hget
      · obtain ⟨pid, hstored, htarget⟩ := ih hbefore
        exact ⟨pid, hstored.concat x hget, htarget⟩

/-- **The filters hold for everything recorded**, whatever the interleaving: every entry of
`sizes` and of `allocs` is within the bounds, every key of `sizes` is the target if there
is one, every record was stored by an exit of the target, and no record has address 0, so
`gen_free_enter` of a null pointer returns from its lookup. -/
theorem filters_hold_for_records (cfg : Config) (events : ι → List Event)
    (sched : List (ι × ε)) :
    let c : System n ε ι := systemRun cfg events sched
    (∀ pid size, c.shared.sizes.get pid = some size →
      (cfg.minSize ≤ size ∧ size ≤ cfg.maxSize) ∧ (cfg.targetPid ≠ 0 → pid = cfg.targetPid)) ∧
    (∀ address info, c.shared.allocs.get address = some info →
      (cfg.minSize ≤ info.size ∧ info.size ≤ cfg.maxSize) ∧ address ≠ 0 ∧
        ∃ pid, StoredBy n cfg events sched address info pid ∧
          (cfg.targetPid ≠ 0 → pid = cfg.targetPid)) ∧
    ∀ i e env calls rest,
      c.threads i = ⟨some ⟨env, .routine (.freeLookup 0), calls⟩, rest⟩ →
        systemNext cfg c (i, e) =
          ⟨c.shared, Function.update c.threads i ⟨some ⟨env, .routine .idle, calls⟩, rest⟩⟩ := by
  intro c
  have hfiltered := filtered_systemRun (n := n) cfg events sched
  refine ⟨hfiltered.shared.sizes, fun address info hget => ?_, fun i e env calls rest hi => ?_⟩
  · obtain ⟨hsized, hne⟩ := hfiltered.shared.allocs address info hget
    exact ⟨hsized, hne, exists_storedBy hget⟩
  · have hnone : c.shared.allocs.element 0 = none := by
      refine Option.eq_none_iff_forall_ne_some.mpr fun p hp => ?_
      exact (hfiltered.shared.allocs _ _ (ElementMap.get_of_element hp)).2 rfl
    unfold systemNext Interleave.next
    simp only [hi, Thread.step, Frame.step, Pc.step, hnone]

end EbpfMemleak
