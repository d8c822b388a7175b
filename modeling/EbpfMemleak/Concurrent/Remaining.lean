import EbpfMemleak.Concurrent.Views

/-!
# EbpfMemleak.Concurrent.Remaining

**A step takes off what is left.** A step of a handler does to the maps exactly what it takes
off the effect the handler still has (`FrameMove.carries`): what its process will see in the
end stays the same, the word of every stack together with the updates still to come stays the
same, and nothing else moves.

Three things are needed of the step: an insertion gets a free element, a decrement finds its
entry, and the creation of an entry finds room (`Position.StatisticsOk`).
-/

namespace EbpfMemleak

variable {n : Nat} {ε : Type}

/-! ### Handlers of one process -/

/-- A routine works for the process. -/
def Routine.IsOf (pid : Pid) : Routine → Prop
  | .enter env _ | .exit env _ => env.pid = pid
  | .free _ => True

/-- So does a position in it. -/
def Pc.IsOf (pid : Pid) : Pc ε → Prop
  | .enterUpdate pid' _ => pid' = pid
  | .exitLookup env _ | .exitReadSize env _ _ | .exitDelete env _ _ => env.pid = pid
  | _ => True

/-- A handler works for its own process, and `posix_memalign_exit` has no calls to come. -/
structure Frame.WellFormed (f : Frame ε) : Prop where
  position : ∀ pc, f.position = .routine pc → pc.IsOf f.env.pid
  calls : ∀ routine ∈ f.calls, routine.IsOf f.env.pid
  last : (∀ pc, f.position ≠ .routine pc) → (∀ p, f.position ≠ .memptrsUpdate p) → f.calls = []

theorem isOf_ofStat (pid : Pid) (pc : StatPc) : (Pc.ofStat pc : Pc ε).IsOf pid := by
  unfold Pc.ofStat
  split <;> trivial

theorem Routine.IsOf.start {pid : Pid} {routine : Routine} (h : routine.IsOf pid)
    (cfg : Config) : (routine.start cfg : Pc ε).IsOf pid := by
  cases routine with
  | enter env size =>
      rw [Routine.start]
      split
      case isTrue => exact h
      case isFalse => trivial
  | exit env address => exact h
  | free address => trivial

theorem PcMove.isOf [DecidableEq ε] {e : ε} {s s' : Shared n ε} {pc pc' : Pc ε}
    (h : PcMove e s pc s' pc') {pid : Pid} (hpc : pc.IsOf pid) : pc'.IsOf pid := by
  cases h with
  | exitFound => exact hpc
  | exitReadSize => exact hpc
  | statistics => exact isOf_ofStat pid _
  | _ => trivial

theorem wellFormed_frame (cfg : Config) (ev : Event) : (ev.frame cfg : Frame ε).WellFormed where
  position pc hpc := by
    have hidle : pc = .idle := by
      obtain ⟨env, program⟩ := ev
      cases program <;> simp_all [Event.frame, Event.position]
    rw [hidle]
    trivial
  calls routine hmem := by
    simp only [Event.frame, Calls.routines, List.mem_append, Option.mem_toList,
      Option.map_eq_some_iff] at hmem
    rcases hmem with (⟨_, _, rfl⟩ | ⟨_, _, rfl⟩) | ⟨_, _, rfl⟩
    · trivial
    · exact rfl
    · exact rfl
  last hroutine hupdate := by
    obtain ⟨env, program⟩ := ev
    cases program with
    | posixMemalignEnter memptr alignment size => exact absurd rfl (hupdate memptr)
    | posixMemalignExit => rfl
    | _ => exact absurd rfl (hroutine .idle)

theorem FrameMove.wellFormed [DecidableEq ε] {cfg : Config} {e : ε} {s s' : SharedMaps n ε}
    {f f' : Frame ε} (h : FrameMove cfg e s f s' (some f')) (hf : f.WellFormed) :
    f'.WellFormed ∧ f'.env = f.env := by
  cases h with
  | called =>
      obtain ⟨hroutine, hcalls⟩ := List.forall_mem_cons.mp hf.calls
      exact ⟨⟨fun pc hpc => by cases hpc; exact hroutine.start cfg, hcalls,
        fun h => absurd rfl (h _)⟩, rfl⟩
  | routine hmove =>
      exact ⟨⟨fun pc hpc => by cases hpc; exact hmove.isOf (hf.position _ rfl), hf.calls,
        fun h => absurd rfl (h _)⟩, rfl⟩
  | memptrsUpdate =>
      exact ⟨⟨fun pc hpc => by cases hpc; trivial, hf.calls, fun h => absurd rfl (h _)⟩, rfl⟩
  | memptrFound =>
      exact ⟨⟨fun pc hpc => (by cases hpc), hf.calls, fun _ _ => hf.last (by simp) (by simp)⟩, rfl⟩
  | memptrsDelete =>
      exact ⟨⟨fun pc hpc => (by cases hpc), hf.calls, fun _ _ => hf.last (by simp) (by simp)⟩, rfl⟩
  | read =>
      exact ⟨⟨fun pc hpc => by cases hpc; exact rfl, hf.calls, fun h => absurd rfl (h _)⟩, rfl⟩

/-! ### What a step of the statistics keeps -/

/-- The update a position of the statistics still makes. -/
def StatPc.remaining (pc : StatPc) : List StatOp := if pc.Finished then [] else [pc.op]

theorem StatPc.rest_effect (s : Shared n ε) (env : Env) (pc : StatPc) (v : View) :
    ((Pc.statistics pc : Pc ε).rest s).effect env v = (v, pc.remaining) ∧
      ((Pc.ofStat pc : Pc ε).rest s).effect env v = (v, pc.remaining) := by
  unfold Pc.ofStat StatPc.remaining
  by_cases hpc : pc.Finished <;> simp [Pc.rest, hpc, Rest.effect]

/-- A step of the statistics does of the remaining update what it takes off it. -/
theorem StatMove.balanced {c c' : CombinedAllocs n} {pc pc' : StatPc} (h : StatMove c pc c' pc')
    (hvalid : pc.Valid c) (hdel : DelPresent c pc)
    (hroom : ∀ k sz, pc = .addInsert k sz → c.HasRoom k) :
    Balanced c pc.remaining c' pc'.remaining := by
  cases h with
  | @inserted k sz hk hroom' =>
      refine ⟨fun k' => ?_, fun k' => ?_, fun k' hk' => (BoundedMap.mem_insert _).mpr (.inr hk')⟩
      · rw [word_insert hk hroom']
        rfl
      · rw [BoundedMap.mem_insert]
        show k' ∈ c ∨ AddsTo k' [.add k sz] ↔ (k' = k ∨ k' ∈ c) ∨ AddsTo k' [.add k sz]
        rw [addsTo_add_iff]
        tauto
  | full hfull => exact absurd (hroom _ _ rfl) hfull
  | missedAgain hk => exact absurd hvalid hk
  | @add k sz =>
      have hk : k ∈ c := hvalid
      have hmap : updateStatisticsAdd k sz c =
          c.modify k fun cinfo => ⟨cinfo.bits + contribution sz⟩ := by
        obtain ⟨cinfo, hl⟩ := BoundedMap.mem_iff.mp hk
        simp only [updateStatisticsAdd, bpfMapLookupOrTryInit, hl]
      exact hmap ▸ Balanced.add (.of_mem hk)
  | delMissed hk => exact absurd hdel hk
  | @sub k sz =>
      have hk : k ∈ c := hvalid
      have hmap : updateStatisticsDel k sz c =
          c.modify k fun cinfo => ⟨cinfo.bits - contribution sz⟩ := by
        obtain ⟨cinfo, hl⟩ := BoundedMap.mem_iff.mp hk
        simp only [updateStatisticsDel, hl]
      exact hmap ▸ Balanced.del hk
  | _ => exact .refl _ _

/-! ### What a step of a handler keeps -/

/-- A map that is read through pointers. -/
inductive PointerMap
  | sizes
  | allocs
  | memptrs
  deriving DecidableEq

/-- The element is free in the map. -/
def SharedMaps.IsFree (s : SharedMaps n ε) (e : ε) : PointerMap → Prop
  | .sizes => s.sizes.owner e = none
  | .allocs => s.allocs.owner e = none
  | .memptrs => s.memptrs.owner e = none

/-- The map the next step inserts into. -/
def Position.takes : Position ε → Option PointerMap
  | .routine (.enterUpdate _ _) => some .sizes
  | .routine (.exitUpdate _ _) => some .allocs
  | .memptrsUpdate _ => some .memptrs
  | _ => none

/-- The pointer the handler holds. -/
def Position.holds : Position ε → Option (PointerMap × ε)
  | .routine (.exitReadSize _ _ size) => some (.sizes, size)
  | .routine (.freeDelete _ info) | .routine (.freeReadStackId info)
  | .routine (.freeReadSize info _) => some (.allocs, info)
  | .memptrsDelete memptr64 | .memptrsRead memptr64 => some (.memptrs, memptr64)
  | _ => none

/-- The statistics find what they look for: a decrement its entry, an insertion room. -/
def Position.StatisticsOk (c : CombinedAllocs n) : Position ε → Prop
  | .routine (.statistics pc) =>
      pc.Valid c ∧ DelPresent c pc ∧ ∀ k sz, pc = .addInsert k sz → c.HasRoom k
  | _ => True

/-- The step from one rest to the other does to the maps what it takes off the rest. -/
structure Carries (env : Env) (s : SharedMaps n ε) (rest : Rest) (s' : SharedMaps n ε)
    (rest' : Rest) : Prop where
  view : (rest'.effect env (s'.viewOf env)).1 = (rest.effect env (s.viewOf env)).1
  balanced : Balanced s.combinedAllocs (rest.effect env (s.viewOf env)).2 s'.combinedAllocs
    (rest'.effect env (s'.viewOf env)).2
  touched : ∀ a ∈ rest'.touched env (s'.viewOf env), a ∈ rest.touched env (s.viewOf env)
  sizes : ∀ pid, pid ≠ env.pid → s'.sizes.get pid = s.sizes.get pid
  memptrs : ∀ k, k ≠ env.pid64 → s'.memptrs.get k = s.memptrs.get k
  allocs : ∀ a, a ∉ rest.touched env (s.viewOf env) → s'.allocs.get a = s.allocs.get a

/-- A step that the process sees as the rest sees it. -/
theorem Carries.of_view {env : Env} {s s' : SharedMaps n ε} {rest rest' : Rest} {v : View}
    (hview : s'.viewOf env = v) (heffect : rest'.effect env v = rest.effect env (s.viewOf env))
    (hcomb : s'.combinedAllocs = s.combinedAllocs)
    (htouched : ∀ a ∈ rest'.touched env v, a ∈ rest.touched env (s.viewOf env))
    (hsizes : ∀ pid, pid ≠ env.pid → s'.sizes.get pid = s.sizes.get pid)
    (hmemptrs : ∀ k, k ≠ env.pid64 → s'.memptrs.get k = s.memptrs.get k)
    (hallocs : ∀ a, a ∉ rest.touched env (s.viewOf env) → s'.allocs.get a = s.allocs.get a) :
    Carries env s rest s' rest' := by
  subst hview
  refine ⟨by rw [heffect], ?_, htouched, hsizes, hmemptrs, hallocs⟩
  rw [heffect, hcomb]
  exact .refl _ _

/-- A step that leaves the maps alone. -/
theorem Carries.of_same {env : Env} {s : SharedMaps n ε} {rest rest' : Rest}
    (heffect : rest'.effect env (s.viewOf env) = rest.effect env (s.viewOf env))
    (htouched : ∀ a ∈ rest'.touched env (s.viewOf env), a ∈ rest.touched env (s.viewOf env)) :
    Carries env s rest s rest' :=
  .of_view rfl heffect rfl htouched (fun _ _ => rfl) (fun _ _ => rfl) fun _ _ => rfl

section Views

variable [DecidableEq ε] {env : Env} {s : SharedMaps n ε}

theorem viewOf_update_sizes {e : ε} (hfree : s.sizes.owner e = none) (size : U64) :
    ({ s with sizes := s.sizes.update e env.pid size } : SharedMaps n ε).viewOf env =
      { s.viewOf env with size := some size } := by
  ext1
  · exact (ElementMap.get_update hfree _ _ _).trans (if_pos rfl)
  · rfl
  · rfl

theorem viewOf_delete_sizes :
    ({ s with sizes := s.sizes.delete env.pid } : SharedMaps n ε).viewOf env =
      { s.viewOf env with size := none } := by
  ext1
  · exact (ElementMap.get_delete _ _ _).trans (if_pos rfl)
  · rfl
  · rfl

theorem viewOf_update_memptrs {e : ε} (hfree : s.memptrs.owner e = none) (memptr64 : U64) :
    ({ s with memptrs := s.memptrs.update e env.pid64 memptr64 } : SharedMaps n ε).viewOf env =
      { s.viewOf env with memptr := some memptr64 } := by
  ext1
  · rfl
  · exact (ElementMap.get_update hfree _ _ _).trans (if_pos rfl)
  · rfl

theorem viewOf_delete_memptrs :
    ({ s with memptrs := s.memptrs.delete env.pid64 } : SharedMaps n ε).viewOf env =
      { s.viewOf env with memptr := none } := by
  ext1
  · rfl
  · exact (ElementMap.get_delete _ _ _).trans (if_pos rfl)
  · rfl

theorem viewOf_update_allocs {e : ε} (hfree : s.allocs.owner e = none) (address : U64)
    (info : AllocInfo) :
    ({ s with allocs := s.allocs.update e address info } : SharedMaps n ε).viewOf env =
      { s.viewOf env with
        allocs := Function.update (s.viewOf env).allocs address (some info) } := by
  ext1
  · rfl
  · rfl
  · funext a
    exact (ElementMap.get_update hfree _ _ _).trans (Function.update_apply ..).symm

theorem viewOf_delete_allocs (address : U64) :
    ({ s with allocs := s.allocs.delete address } : SharedMaps n ε).viewOf env =
      { s.viewOf env with allocs := Function.update (s.viewOf env).allocs address none } := by
  ext1
  · rfl
  · rfl
  · funext a
    exact (ElementMap.get_delete _ _ _).trans (Function.update_apply ..).symm

end Views

/-- What a handler will have done when it returns. -/
def Frame.final (cfg : Config) (s : SharedMaps n ε) (f : Frame ε) : Outcome :=
  f.effect cfg s (s.viewOf f.env)

/-- What its process will see: for a handler that has returned, what it sees. -/
def finalView (cfg : Config) (env : Env) (s : SharedMaps n ε) (f : Option (Frame ε)) : View :=
  f.elim (s.viewOf env) fun f => (f.final cfg s).1

/-- The updates of the statistics it still makes. -/
def finalOps (cfg : Config) (s : SharedMaps n ε) (f : Option (Frame ε)) : List StatOp :=
  f.elim [] fun f => (f.final cfg s).2

/-- The records it may still touch. -/
def finalTouched (s : SharedMaps n ε) (f : Option (Frame ε)) : List U64 :=
  f.elim [] fun f => f.touched s

/-- The step does to the maps what it takes off what is left of the handler. -/
structure FrameCarries (cfg : Config) (s : SharedMaps n ε) (f : Frame ε) (s' : SharedMaps n ε)
    (f' : Option (Frame ε)) : Prop where
  view : finalView cfg f.env s' f' = (f.final cfg s).1
  balanced : Balanced s.combinedAllocs (f.final cfg s).2 s'.combinedAllocs (finalOps cfg s' f')
  touched : ∀ a ∈ finalTouched s' f', a ∈ f.touched s
  sizes : ∀ pid, pid ≠ f.env.pid → s'.sizes.get pid = s.sizes.get pid
  memptrs : ∀ k, k ≠ f.env.pid64 → s'.memptrs.get k = s.memptrs.get k
  allocs : ∀ a, a ∉ f.touched s → s'.allocs.get a = s.allocs.get a

/-- A step within a handler, up to its calls. -/
theorem Carries.frame {cfg : Config} {env : Env} {s s' : SharedMaps n ε}
    {position position' : Position ε} {calls : List Routine}
    (h : Carries env s (position.rest s) s' (position'.rest s')) :
    FrameCarries cfg s ⟨env, position, calls⟩ s' (some ⟨env, position', calls⟩) where
  view := by
    show (routinesEffect cfg calls _).1 = (routinesEffect cfg calls _).1
    rw [h.view]
  balanced := by
    show Balanced _ (_ ++ (routinesEffect cfg calls _).2) _ (_ ++ (routinesEffect cfg calls _).2)
    rw [h.view]
    exact h.balanced.append _
  touched a ha := by
    rcases List.mem_append.mp ha with ha | ha
    · exact List.mem_append_left _ (h.touched a ha)
    · exact List.mem_append_right _ ha
  sizes := h.sizes
  memptrs := h.memptrs
  allocs a ha := h.allocs a fun hrest => ha (List.mem_append_left _ hrest)

/-- The return of a handler that has nothing left to do. -/
theorem FrameCarries.returned {cfg : Config} {s : SharedMaps n ε} {f : Frame ε}
    (h : f.final cfg s = (s.viewOf f.env, [])) : FrameCarries cfg s f s none where
  view := by
    rw [h]
    rfl
  balanced := by
    rw [h]
    exact .refl _ _
  touched a ha := nomatch ha
  sizes _ _ := rfl
  memptrs _ _ := rfl
  allocs _ _ := rfl

theorem start_effect (cfg : Config) (s : Shared n ε) (env : Env) (routine : Routine) (v : View) :
    ((routine.start cfg : Pc ε).rest s).effect env v = routine.effect cfg v := by
  cases routine with
  | enter env' size =>
      rw [Routine.start]
      split
      case isTrue hacc => simp [Pc.rest, Rest.effect, Routine.effect, View.enter, hacc]
      case isFalse hacc => simp [Pc.rest, Rest.effect, Routine.effect, View.enter, hacc]
  | exit env' address => rfl
  | free address => rfl

theorem start_touched (cfg : Config) (s : Shared n ε) (env : Env) (routine : Routine) (v : View) :
    ∀ a ∈ ((routine.start cfg : Pc ε).rest s).touched env v, a ∈ routine.touched := by
  cases routine with
  | enter env' size =>
      rw [Routine.start]
      split <;> simp [Pc.rest, Rest.touched]
  | exit env' address => exact fun _ => id
  | free address => exact fun _ => id

variable [DecidableEq ε]

/-- **A step of a routine** does to the maps what it takes off the rest of the routine. -/
theorem PcMove.carries {e : ε} {s : SharedMaps n ε} {t : Shared n ε} {pc pc' : Pc ε}
    (h : PcMove e s.toShared pc t pc') {env : Env} (hpid : pc.IsOf env.pid)
    (hstat : (Position.routine pc).StatisticsOk s.combinedAllocs)
    (hfree : ∀ map, (Position.routine pc).takes = some map → s.IsFree e map)
    (hnull : s.allocs.get 0 = none) :
    Carries env s (pc.rest s.toShared) { s with toShared := t } (pc'.rest t) := by
  cases h with
  | idle => exact .of_same rfl fun _ => id
  | @enterUpdate pid size =>
      obtain rfl : pid = env.pid := hpid
      have howner : s.sizes.owner e = none := hfree .sizes rfl
      exact .of_view (viewOf_update_sizes howner size) rfl rfl (fun _ => id)
        (fun pid hne => (ElementMap.get_update howner _ _ _).trans (if_neg hne))
        (fun _ _ => rfl) fun _ _ => rfl
  | @exitMissed env' address h =>
      have hsize : (s.viewOf env).size = none := by
        rw [SharedMaps.viewOf, ← (hpid : env'.pid = env.pid), ElementMap.get, h, Option.map_none]
      refine .of_same ?_ (by simp [Pc.rest, Rest.touched])
      simp [Pc.rest, Rest.effect, View.exit, hsize]
  | @exitFound env' address p h =>
      have hsize : (s.viewOf env).size = some (s.sizes.value p) := by
        rw [SharedMaps.viewOf, ← (hpid : env'.pid = env.pid)]
        exact ElementMap.get_of_element h
      refine .of_same ?_ fun _ => id
      simp [Pc.rest, Rest.effect, View.exit, hsize]
  | exitReadSize => exact .of_same rfl fun _ => id
  | @exitNull env' size =>
      have hpid' : env'.pid = env.pid := hpid
      rw [hpid']
      exact .of_view viewOf_delete_sizes rfl rfl (by simp [Pc.rest, Rest.touched])
        (fun pid hne => (ElementMap.get_delete _ _ _).trans (if_neg hne)) (fun _ _ => rfl)
        fun _ _ => rfl
  | @exitDelete env' address size haddr =>
      have hpid' : env'.pid = env.pid := hpid
      rw [hpid']
      refine .of_view viewOf_delete_sizes ?_ rfl (fun a ha => ?_)
        (fun pid hne => (ElementMap.get_delete _ _ _).trans (if_neg hne)) (fun _ _ => rfl)
        fun _ _ => rfl
      · simp only [Pc.rest, Rest.effect, View.store, if_neg haddr]
      · rw [List.mem_singleton.mp ha]
        exact mem_nonNull.mpr ⟨rfl, haddr⟩
  | @exitUpdate address info =>
      have howner : s.allocs.owner e = none := hfree .allocs rfl
      refine .of_view (viewOf_update_allocs howner address info) ?_ rfl ?_ (fun _ _ => rfl)
        (fun _ _ => rfl) fun a ha => (ElementMap.get_update howner _ _ _).trans (if_neg ?_)
      · simp [Pc.rest, Rest.effect, View.record, StatPc.Finished, StatPc.op]
      · simp [Pc.rest, Rest.touched, StatPc.Finished]
      · simpa [Pc.rest, Rest.touched] using ha
  | @freeMissed address h =>
      have hmiss : (s.viewOf env).allocs address = none := by
        rw [SharedMaps.viewOf]
        exact (congrArg (Option.map s.allocs.value) h).trans rfl
      refine .of_same ?_ (by simp [Pc.rest, Rest.touched])
      simp [Pc.rest, Rest.effect, View.free, hmiss]
  | @freeFound address p h =>
      have hfound : (s.viewOf env).allocs address = some (s.allocs.value p) :=
        ElementMap.get_of_element h
      have haddr : address ≠ 0 := by
        rintro rfl
        rw [ElementMap.get_of_element h] at hnull
        cases hnull
      refine .of_same ?_ fun a ha => ?_
      · simp only [Pc.rest, Rest.effect, View.free, if_neg haddr, hfound]
      · rw [List.mem_singleton.mp ha]
        exact mem_nonNull.mpr ⟨rfl, haddr⟩
  | @freeDelete address p =>
      refine .of_view (viewOf_delete_allocs address) rfl rfl (by simp [Pc.rest, Rest.touched])
        (fun _ _ => rfl) (fun _ _ => rfl) fun a ha => ?_
      refine (ElementMap.get_delete _ _ _).trans (if_neg ?_)
      simpa [Pc.rest, Rest.touched] using ha
  | freeReadStackId => exact .of_same rfl fun _ => id
  | freeReadSize => exact .of_same rfl fun _ => id
  | @statistics pc pc' c' hmove =>
      obtain ⟨hvalid, hdel, hroom⟩ := hstat
      have hrest := fun s' : Shared n ε => pc'.rest_effect s' env
      refine ⟨?_, ?_, ?_, fun _ _ => rfl, fun _ _ => rfl, fun _ _ => rfl⟩
      · rw [(hrest _ _).2, (pc.rest_effect _ _ _).1]
        rfl
      · rw [(hrest _ _).2, (pc.rest_effect _ _ _).1]
        exact hmove.balanced hvalid hdel hroom
      · unfold Pc.ofStat
        split <;> simp_all [Pc.rest, Rest.touched]

/-- **A step of a handler** does to the maps what it takes off what is left of the handler. -/
theorem FrameMove.carries {cfg : Config} {e : ε} {s s' : SharedMaps n ε} {f : Frame ε}
    {f' : Option (Frame ε)} (h : FrameMove cfg e s f s' f') (hf : f.WellFormed)
    (hstat : f.position.StatisticsOk s.combinedAllocs)
    (hfree : ∀ map, f.position.takes = some map → s.IsFree e map)
    (hnull : s.allocs.get 0 = none) : FrameCarries cfg s f s' f' := by
  cases h with
  | returned => exact .returned rfl
  | @called env routine calls =>
      have hcalls : (Frame.final cfg s ⟨env, .routine (routine.start cfg), calls⟩) =
          Frame.final cfg s ⟨env, .routine .idle, routine :: calls⟩ := by
        show (((routine.start cfg : Pc ε).rest s.toShared).effect env _).andThen _ = _
        rw [start_effect]
        rfl
      refine ⟨congrArg Prod.fst hcalls, ?_, fun a ha => ?_, fun _ _ => rfl, fun _ _ => rfl,
        fun _ _ => rfl⟩
      · show Balanced _ _ _ (Frame.final cfg s ⟨env, .routine (routine.start cfg), calls⟩).2
        rw [hcalls]
        exact .refl _ _
      · rcases List.mem_append.mp ha with ha | ha
        · exact List.mem_append_right _ (List.mem_append_left _ (start_touched cfg _ env _ _ a ha))
        · exact List.mem_append_right _ (List.mem_append_right _ ha)
  | routine hmove => exact (hmove.carries (hf.position _ rfl) hstat hfree hnull).frame
  | @memptrsUpdate env memptr64 calls =>
      have howner : s.memptrs.owner e = none := hfree .memptrs rfl
      refine Carries.frame (.of_view (viewOf_update_memptrs howner memptr64) rfl rfl
        (fun _ => id) (fun _ _ => rfl) (fun k hne => ?_) fun _ _ => rfl)
      exact (ElementMap.get_update howner _ _ _).trans (if_neg hne)
  | @memptrMissed env calls hmiss =>
      obtain rfl : calls = [] := hf.last (by simp) (by simp)
      have hmemptr : (s.viewOf env).memptr = none := by
        show s.memptrs.get env.pid64 = none
        rw [ElementMap.get, hmiss, Option.map_none]
      refine .returned ?_
      simp [Frame.final, Frame.effect, Position.rest, Rest.effect, hmemptr, Outcome.andThen,
        routinesEffect]
  | @memptrFound env calls memptr64 hfound =>
      have hmemptr : (s.viewOf env).memptr = some (s.memptrs.value memptr64) :=
        ElementMap.get_of_element hfound
      refine Carries.frame (.of_same ?_ fun a ha => ?_)
      · simp [Position.rest, Rest.effect, hmemptr]
      · simpa only [Position.rest, Rest.touched, hmemptr] using ha
  | @memptrsDelete env memptr64 calls =>
      refine Carries.frame (.of_view viewOf_delete_memptrs rfl rfl (fun _ => id)
        (fun _ _ => rfl) (fun k hne => ?_) fun _ _ => rfl)
      exact (ElementMap.get_delete _ _ _).trans (if_neg hne)
  | @readFaulted env memptr64 calls hread =>
      obtain rfl : calls = [] := hf.last (by simp) (by simp)
      refine .returned ?_
      simp [Frame.final, Frame.effect, Position.rest, Rest.effect, View.readUser, hread,
        Outcome.andThen, routinesEffect]
  | @read env memptr64 calls address hread =>
      refine Carries.frame (.of_same ?_ fun a ha => ?_)
      · simp [Position.rest, Pc.rest, Rest.effect, View.readUser, hread]
      · simpa [Position.rest, Pc.rest, Rest.touched, userTouched, hread] using ha

end EbpfMemleak
