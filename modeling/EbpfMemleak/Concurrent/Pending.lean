import EbpfMemleak.Concurrent.Remaining
import EbpfMemleak.Loader

/-!
# EbpfMemleak.Concurrent.Pending

**Who is a pending size waiting for?** A tracepoint handler stores a size in `sizes` and takes
it back itself, in one execution. Handlers of one process may overlap on several CPUs, though,
and then they work on one entry: one overwrites the size of the other, deletes it, or finds it
gone.

What survives every interleaving is `PendingOwned`: an entry of `sizes` is there only while a
handler of its process is in flight that has its exit still ahead of it (`Frame.Clears`). The handler
that stores the size is one, since an enter is always followed by an exit (`Closed`); and a
handler that gets past its exit leaves no entry: it has deleted it, or found none.

So when the kernel is traced no pending size outlives the handlers of its process
(`kernel_leaves_nothing_pending`), and `gen_alloc_exit2` of a later handler cannot record a
size that is not from one that overlaps it.
-/

namespace EbpfMemleak

variable {n : Nat} {ε ι : Type}

/-! ### Handlers that end what they begin -/

/-- A call of `gen_alloc_exit2`. -/
def Routine.IsExit : Routine → Prop
  | .exit _ _ => True
  | _ => False

/-- Every enter is followed by an exit. -/
def Closed : List Routine → Prop
  | [] => True
  | .enter _ _ :: calls => (∃ routine ∈ calls, routine.IsExit) ∧ Closed calls
  | _ :: calls => Closed calls

theorem Closed.tail {routine : Routine} {calls : List Routine} (h : Closed (routine :: calls)) :
    Closed calls := by
  cases routine with
  | enter => exact h.2
  | exit => exact h
  | free => exact h

/-- The size is about to be stored. -/
def Position.Stores : Position ε → Prop
  | .routine (.enterUpdate _ _) => True
  | _ => False

/-- An exit is under way and has not deleted the size yet. -/
def Position.Clears : Position ε → Prop
  | .routine (.exitLookup _ _) | .routine (.exitReadSize _ _ _)
  | .routine (.exitDelete _ _ _) => True
  | _ => False

/-- The handler has its exit still ahead of it. -/
def Frame.Clears (f : Frame ε) : Prop := f.position.Clears ∨ ∃ routine ∈ f.calls, routine.IsExit

/-- The handler ends what it begins. -/
structure Frame.Closed (f : Frame ε) : Prop where
  calls : EbpfMemleak.Closed f.calls
  stores : f.position.Stores → f.Clears

/-- An event whose handler ends what it begins. -/
def Event.Closed (cfg : Config) (ev : Event) : Prop :=
  EbpfMemleak.Closed ((ev.calls cfg (Maps.empty : Maps .source)).routines ev.env)

theorem closed_frame {cfg : Config} {ev : Event} (h : ev.Closed cfg) :
    (ev.frame cfg : Frame ε).Closed where
  calls := h
  stores hstores := by
    obtain ⟨env, program⟩ := ev
    cases program <;> exact hstores.elim

theorem not_stores_ofStat (pc : StatPc) :
    ¬ (Position.routine (Pc.ofStat pc) : Position ε).Stores := by
  unfold Pc.ofStat
  split <;> exact id

section Steps

variable [DecidableEq ε] {cfg : Config} {e : ε} {s s' : SharedMaps n ε} {f : Frame ε}

/-- A step keeps a handler closed. -/
theorem FrameMove.closed {f' : Frame ε} (h : FrameMove cfg e s f s' (some f')) (hf : f.Closed) :
    f'.Closed := by
  cases h with
  | @called env routine calls =>
      refine ⟨hf.calls.tail, fun hstores => ?_⟩
      cases routine with
      | enter env' size => exact Or.inr hf.calls.1
      | exit => exact hstores.elim
      | free => exact hstores.elim
  | routine hmove =>
      refine ⟨hf.calls, fun hstores => ?_⟩
      cases hmove with
      | statistics => exact absurd hstores (not_stores_ofStat _)
      | _ => exact hstores.elim
  | memptrsUpdate => exact ⟨hf.calls, fun hstores => hstores.elim⟩
  | memptrFound => exact ⟨hf.calls, fun hstores => hstores.elim⟩
  | memptrsDelete => exact ⟨hf.calls, fun hstores => hstores.elim⟩
  | read => exact ⟨hf.calls, fun hstores => hstores.elim⟩

/-- A handler that gets past its exit leaves no entry of its process. -/
theorem FrameMove.clears {f' : Option (Frame ε)} (h : FrameMove cfg e s f s' f')
    (hf : f.WellFormed) (hclears : f.Clears) :
    (∃ g ∈ f', g.Clears) ∨ s'.sizes.get f.env.pid = none := by
  cases h with
  | returned =>
      rcases hclears with hposition | ⟨routine, hmem, -⟩
      · exact hposition.elim
      · cases hmem
  | @called env routine calls =>
      rcases hclears with hposition | ⟨routine', hmem, hexit⟩
      · exact hposition.elim
      · rcases List.mem_cons.mp hmem with rfl | hmem
        · cases routine' with
          | exit env' address => exact Or.inl ⟨_, rfl, Or.inl trivial⟩
          | enter => exact hexit.elim
          | free => exact hexit.elim
        · exact Or.inl ⟨_, rfl, Or.inr ⟨routine', hmem, hexit⟩⟩
  | @routine env pc pc' calls t hmove =>
      rcases hclears with hposition | hcalls
      · have hpid : pc.IsOf env.pid := hf.position _ rfl
        cases hmove with
        | @exitMissed env' address hmiss =>
            -- the entry has been taken by another handler of the process
            refine Or.inr ?_
            show s.sizes.get env.pid = none
            rw [← (hpid : env'.pid = env.pid), ElementMap.get, hmiss, Option.map_none]
        | exitFound => exact Or.inl ⟨_, rfl, Or.inl trivial⟩
        | exitReadSize => exact Or.inl ⟨_, rfl, Or.inl trivial⟩
        | @exitNull env' size =>
            exact Or.inr ((ElementMap.get_delete _ _ _).trans (if_pos (hpid : env'.pid = _).symm))
        | @exitDelete env' address size haddr =>
            exact Or.inr ((ElementMap.get_delete _ _ _).trans (if_pos (hpid : env'.pid = _).symm))
        | _ => exact hposition.elim
      · exact Or.inl ⟨_, rfl, Or.inr hcalls⟩
  | memptrsUpdate => exact Or.inl ⟨_, rfl, Or.inr (hclears.resolve_left id)⟩
  | memptrMissed =>
      have hnone : _ = [] := hf.last (by simp) (by simp)
      obtain ⟨routine, hmem, -⟩ := hclears.resolve_left id
      rw [hnone] at hmem
      cases hmem
  | memptrFound => exact Or.inl ⟨_, rfl, Or.inr (hclears.resolve_left id)⟩
  | memptrsDelete => exact Or.inl ⟨_, rfl, Or.inr (hclears.resolve_left id)⟩
  | readFaulted =>
      have hnone : _ = [] := hf.last (by simp) (by simp)
      obtain ⟨routine, hmem, -⟩ := hclears.resolve_left id
      rw [hnone] at hmem
      cases hmem
  | read => exact Or.inl ⟨_, rfl, Or.inl trivial⟩

/-- An entry after a step was there before, or it is one of the process of the handler, which
has its exit still ahead of it. -/
theorem FrameMove.get_sizes {f' : Option (Frame ε)} (h : FrameMove cfg e s f s' f')
    (hf : f.WellFormed) (hclosed : f.Closed) {pid : Pid} {size : U64}
    (hget : s'.sizes.get pid = some size) :
    (∃ size, s.sizes.get pid = some size) ∨ (pid = f.env.pid ∧ ∃ g ∈ f', g.Clears) := by
  cases h with
  | @routine env pc pc' calls t hmove =>
      cases hmove with
      | @enterUpdate pid' size' =>
          rcases ElementMap.get_of_get_update hget with ⟨rfl, -⟩ | hold
          · have hpid : pid = env.pid := hf.position _ rfl
            exact Or.inr ⟨hpid, _, rfl, Or.inr ((hclosed.stores trivial).resolve_left id)⟩
          · exact Or.inl ⟨_, hold⟩
      | exitNull => exact Or.inl ⟨_, ElementMap.get_of_get_delete hget⟩
      | exitDelete => exact Or.inl ⟨_, ElementMap.get_of_get_delete hget⟩
      | _ => exact Or.inl ⟨_, hget⟩
  | _ => exact Or.inl ⟨_, hget⟩

/-- A step of a thread keeps its handler closed. -/
theorem ThreadMove.closed {t t' : Thread ε} (h : ThreadMove cfg e s t s' t')
    (ht : ∀ f ∈ t.frame, f.WellFormed ∧ f.Closed) (hevents : ∀ ev ∈ t.events, ev.Closed cfg) :
    (∀ f ∈ t'.frame, f.WellFormed ∧ f.Closed) ∧ ∀ ev ∈ t'.events, ev.Closed cfg := by
  cases h with
  | halted => exact ⟨ht, hevents⟩
  | started =>
      obtain ⟨hev, hrest⟩ := List.forall_mem_cons.mp hevents
      refine ⟨fun f hf => ?_, hrest⟩
      obtain rfl := Option.some.inj hf
      exact ⟨wellFormed_frame cfg _, closed_frame hev⟩
  | moved hmove =>
      obtain ⟨hwell, hclosed⟩ := ht _ rfl
      refine ⟨fun f hf => ?_, hevents⟩
      obtain rfl : _ = some f := hf
      exact ⟨(hmove.wellFormed hwell).1, hmove.closed hclosed⟩

/-- An entry after a step of a thread was there before, or waits for its handler. -/
theorem ThreadMove.get_sizes {t t' : Thread ε} (h : ThreadMove cfg e s t s' t')
    (ht : ∀ f ∈ t.frame, f.WellFormed ∧ f.Closed) {pid : Pid} {size : U64}
    (hget : s'.sizes.get pid = some size) :
    (∃ size, s.sizes.get pid = some size) ∨ ∃ g ∈ t'.frame, g.env.pid = pid ∧ g.Clears := by
  cases h with
  | halted => exact Or.inl ⟨_, hget⟩
  | started => exact Or.inl ⟨_, hget⟩
  | moved hmove =>
      obtain ⟨hwell, hclosed⟩ := ht _ rfl
      rcases hmove.get_sizes hwell hclosed hget with hold | ⟨rfl, g, hg, hclears⟩
      · exact Or.inl hold
      · obtain rfl : _ = some g := hg
        exact Or.inr ⟨g, rfl, by rw [(hmove.wellFormed hwell).2], hclears⟩

/-- A handler that an entry waits for is there still, or the entry is gone. -/
theorem ThreadMove.clears {t t' : Thread ε} (h : ThreadMove cfg e s t s' t')
    (ht : ∀ f ∈ t.frame, f.WellFormed ∧ f.Closed) {f : Frame ε} (hf : f ∈ t.frame)
    (hclears : f.Clears) :
    (∃ g ∈ t'.frame, g.env.pid = f.env.pid ∧ g.Clears) ∨ s'.sizes.get f.env.pid = none := by
  cases h with
  | halted => cases hf
  | started => cases hf
  | moved hmove =>
      obtain rfl := Option.some.inj hf
      obtain ⟨hwell, -⟩ := ht _ rfl
      rcases hmove.clears hwell hclears with ⟨g, hg, hclears⟩ | hgone
      · obtain rfl : _ = some g := hg
        exact Or.inl ⟨g, rfl, by rw [(hmove.wellFormed hwell).2], hclears⟩
      · exact Or.inr hgone

end Steps

/-! ### Any interleaving -/

/-- Every handler ends what it begins, and every pending size waits for one of its process. -/
structure PendingOwned (cfg : Config) (c : System n ε ι) : Prop where
  frames : ∀ i, ∀ f ∈ (c.threads i).frame, f.WellFormed ∧ f.Closed
  events : ∀ i, ∀ ev ∈ (c.threads i).events, ev.Closed cfg
  sizes : ∀ pid size, c.shared.sizes.get pid = some size →
    ∃ i, ∃ f ∈ (c.threads i).frame, f.env.pid = pid ∧ f.Clears

variable [DecidableEq ε] [DecidableEq ι]

/-- **A pending size keeps an owner**, whichever thread moves. -/
theorem PendingOwned.next {cfg : Config} {c : System n ε ι} (h : PendingOwned cfg c) (x : ι × ε) :
    PendingOwned cfg (systemNext cfg c x) := by
  have hmove := systemNext_move cfg c x
  obtain ⟨hframes, hevents⟩ := hmove.closed (h.frames x.1) (h.events x.1)
  have hother : ∀ i, i ≠ x.1 → (systemNext cfg c x).threads i = c.threads i := fun i hi =>
    Interleave.next_threads_of_ne Prod.fst (fun x : ι × ε => Thread.step cfg x.2) hi
  refine ⟨fun i => ?_, fun i => ?_, fun pid size hget => ?_⟩
  · by_cases hi : i = x.1
    · exact hi ▸ hframes
    · rw [hother i hi]
      exact h.frames i
  · by_cases hi : i = x.1
    · exact hi ▸ hevents
    · rw [hother i hi]
      exact h.events i
  · rcases hmove.get_sizes (h.frames x.1) hget with ⟨size', hold⟩ | ⟨g, hg, hpid, hclears⟩
    · obtain ⟨i, f, hf, rfl, hclears⟩ := h.sizes pid size' hold
      by_cases hi : i = x.1
      · subst hi
        rcases hmove.clears (h.frames _) hf hclears with ⟨g, hg, hpid, hclears'⟩ | hgone
        · exact ⟨x.1, g, hg, hpid, hclears'⟩
        · rw [hgone] at hget
          cases hget
      · exact ⟨i, f, by rwa [hother i hi], rfl, hclears⟩
    · exact ⟨x.1, g, hg, hpid, hclears⟩

theorem pendingOwned_systemRun {cfg : Config} {events : ι → List Event}
    (hevents : ∀ i, ∀ ev ∈ events i, ev.Closed cfg) (sched : List (ι × ε)) :
    PendingOwned cfg (systemRun cfg events sched : System n ε ι) := by
  induction sched using List.reverseRecOn with
  | nil => exact ⟨fun _ _ hf => (nomatch hf), hevents, fun _ _ hget => (nomatch hget)⟩
  | append_singleton sched x ih =>
      rw [systemRun_concat]
      exact ih.next x

/-! ### The attached tracepoints -/

/-- The tracepoint handlers end what they begin. -/
theorem closed_of_attached {pid : GoInt} (hpid : ¬ 0 < pid.toInt) (cfg : Config) {ev : Event}
    (h : Attached pid ev) : ev.Closed cfg := by
  unfold Event.Closed Calls.routines
  rcases kernel_of_attached hpid h with ⟨ptr, bytesAlloc, hprogram⟩ | ⟨ptr, hprogram⟩
  · simp only [Event.calls, hprogram, slabCalls]
    cases cfg.waMissingFree <;> exact ⟨⟨_, List.mem_singleton_self _, trivial⟩, trivial⟩
  · simp only [Event.calls, hprogram]
    trivial

/-- **Tracing the kernel leaves nothing pending**, whatever the interleaving: `sizes` has an
entry for a process only while one of its handlers is in flight, with its exit still ahead. -/
theorem kernel_leaves_nothing_pending {pid : GoInt} (hpid : ¬ 0 < pid.toInt) (cfg : Config)
    (events : ι → List Event) (hevents : ∀ i, ∀ ev ∈ events i, Attached pid ev)
    (sched : List (ι × ε)) (p : Pid) :
    let c : System n ε ι := systemRun cfg events sched
    (∀ i, ∀ f ∈ (c.threads i).frame, f.env.pid = p → ¬ f.Clears) →
      c.shared.sizes.get p = none := by
  intro c hnobody
  refine Option.eq_none_iff_forall_ne_some.mpr fun size hget => ?_
  have howned : PendingOwned cfg c :=
    pendingOwned_systemRun (fun i ev hev => closed_of_attached hpid cfg (hevents i ev hev)) sched
  obtain ⟨i, f, hf, hp, hclears⟩ := howned.sizes p size hget
  exact hnobody i f hf hp hclears

/-- Two `kmalloc`s of one process, on two CPUs. -/
def twoKmallocs : Fin 2 → List Event
  | 0 => [⟨.quiet 0x700000007 3, .kmalloc 0x1000 64⟩]
  | 1 => [⟨.quiet 0x700000007 3, .kmalloc 0x2000 128⟩]

/-- Their steps alternate: the second overwrites the size of the first before both read it. -/
theorem kernel_leaves_nothing_pending_overlap :
    let sched : List (Fin 2 × Fin 2) := (List.replicate 16 [(0, 0), (1, 1)]).flatten
    let c : System 4 (Fin 2) (Fin 2) := systemRun {} twoKmallocs sched
    c.shared.allocs.get 0x1000 = some ⟨128, 0, 3⟩ ∧
      c.shared.allocs.get 0x2000 = some ⟨128, 0, 3⟩ ∧ c.shared.sizes.get 7 = none := by
  intro sched c
  have hquiet : ∀ i, (c.threads i).frame = none := by decide +kernel
  refine ⟨by decide +kernel, by decide +kernel, ?_⟩
  have hattached : ∀ i, ∀ ev ∈ twoKmallocs i, Attached 0 ev := by decide
  refine kernel_leaves_nothing_pending (by decide) {} twoKmallocs hattached sched 7
    fun i f hf => ?_
  rw [hquiet i] at hf
  cases hf

end EbpfMemleak
