import EbpfMemleak.Concurrent.Handlers
import EbpfMemleak.Programs

/-!
# EbpfMemleak.Concurrent.Programs

**The programs, one helper call at a time.** A handler in flight is a `Frame`: where it
stands, and the routines it still has to call. `posix_memalign_enter` stores into
`memptrs` first; `posix_memalign_exit` looks up, deletes and reads through the pointer it
got, and returns early if there is no entry or the read faults. All other handlers are a
list of routine calls (`Event.calls`).

A `Thread` runs a list of events one after the other. Threads interleave freely: there
can be any number of them for one process or one CPU, an enter need not be followed by
its exit, and calls nest in any way. As in `Concurrent.Handlers` a schedule entry also
says which element an insertion takes, so an insertion may fail whenever some element is
taken.

Run without interruption, the steps of a handler are its atomic form (`handler_alone`).
-/

namespace EbpfMemleak

variable {n : Nat} {ε ι : Type}

/-! ### A handler in flight -/

/-- The maps the programs share. -/
structure SharedMaps (n : Nat) (ε : Type) extends Shared n ε where
  memptrs : ElementMap U64 U64 ε

/-- Where a handler stands. -/
inductive Position (ε : Type)
  /-- In a routine, or between two of them (`idle`). -/
  | routine (pc : Pc ε)
  /-- `bpf_map_update_elem(&memptrs, &pid, &memptr64, BPF_ANY)`. -/
  | memptrsUpdate (memptr64 : U64)
  /-- `memptr64 = bpf_map_lookup_elem(&memptrs, &pid)`. -/
  | memptrsLookup
  /-- `bpf_map_delete_elem(&memptrs, &pid)`. -/
  | memptrsDelete (memptr64 : ε)
  /-- `bpf_probe_read_user(&addr, sizeof(void *), *memptr64)`. -/
  | memptrsRead (memptr64 : ε)

/-- A handler in flight. -/
structure Frame (ε : Type) where
  env : Env
  position : Position ε
  /-- The routine calls still to come. -/
  calls : List Routine

/-- The calls of a handler, in the order it makes them. -/
def Calls.routines (env : Env) (c : Calls) : List Routine :=
  (c.free.map Routine.free).toList ++ (c.enter.map (Routine.enter env)).toList ++
    (c.exit.map (Routine.exit env)).toList

/-- Where the handler of an event starts. -/
def Event.position (ev : Event) : Position ε :=
  match ev.program with
  | .posixMemalignEnter memptr _ _ => .memptrsUpdate memptr
  | .posixMemalignExit => .memptrsLookup
  | _ => .routine .idle

/-- The handler of an event at its start. Its calls do not depend on the maps;
`posix_memalign_exit` decides on its own later. -/
def Event.frame (cfg : Config) (ev : Event) : Frame ε where
  env := ev.env
  position := ev.position
  calls := (ev.calls cfg (Maps.empty : Maps .source)).routines ev.env

variable [DecidableEq ε]

/-- The next step of a handler, `none` when it returns; `e` is the element an insertion
takes. -/
def Frame.step (cfg : Config) (e : ε) (s : SharedMaps n ε) (f : Frame ε) :
    SharedMaps n ε × Option (Frame ε) :=
  match f.position with
  | .routine .idle =>
      match f.calls with
      | [] => (s, none)
      | routine :: calls =>
          (s, some { f with position := .routine (routine.start cfg), calls := calls })
  | .routine pc =>
      ({ s with toShared := (pc.step e s.toShared).1 },
        some { f with position := .routine (pc.step e s.toShared).2 })
  | .memptrsUpdate memptr64 =>
      ({ s with memptrs := s.memptrs.update e f.env.pid64 memptr64 },
        some { f with position := .routine .idle })
  | .memptrsLookup =>
      match s.memptrs.element f.env.pid64 with
      | none => (s, none)
      | some memptr64 => (s, some { f with position := .memptrsDelete memptr64 })
  | .memptrsDelete memptr64 =>
      ({ s with memptrs := s.memptrs.delete f.env.pid64 },
        some { f with position := .memptrsRead memptr64 })
  -- the pointer is read after the delete, so the element may be another entry's by now
  | .memptrsRead memptr64 =>
      match f.env.probeReadUser (s.memptrs.value memptr64) with
      | none => (s, none)
      | some addr64 =>
          (s, some { f with position := .routine ((Routine.exit f.env addr64).start cfg) })

/-- What a step of a handler can do, one constructor per outcome. -/
inductive FrameMove (cfg : Config) (e : ε) (s : SharedMaps n ε) :
    Frame ε → SharedMaps n ε → Option (Frame ε) → Prop
  | returned {env : Env} : FrameMove cfg e s ⟨env, .routine .idle, []⟩ s none
  | called {env : Env} {routine : Routine} {calls : List Routine} :
      FrameMove cfg e s ⟨env, .routine .idle, routine :: calls⟩ s
        (some ⟨env, .routine (routine.start cfg), calls⟩)
  | routine {env : Env} {pc pc' : Pc ε} {calls : List Routine} {s' : Shared n ε}
      (h : PcMove e s.toShared pc s' pc') :
      FrameMove cfg e s ⟨env, .routine pc, calls⟩ { s with toShared := s' }
        (some ⟨env, .routine pc', calls⟩)
  | memptrsUpdate {env : Env} {memptr64 : U64} {calls : List Routine} :
      FrameMove cfg e s ⟨env, .memptrsUpdate memptr64, calls⟩
        { s with memptrs := s.memptrs.update e env.pid64 memptr64 }
        (some ⟨env, .routine .idle, calls⟩)
  | memptrMissed {env : Env} {calls : List Routine} (h : s.memptrs.element env.pid64 = none) :
      FrameMove cfg e s ⟨env, .memptrsLookup, calls⟩ s none
  | memptrFound {env : Env} {calls : List Routine} {memptr64 : ε}
      (h : s.memptrs.element env.pid64 = some memptr64) :
      FrameMove cfg e s ⟨env, .memptrsLookup, calls⟩ s
        (some ⟨env, .memptrsDelete memptr64, calls⟩)
  | memptrsDelete {env : Env} {memptr64 : ε} {calls : List Routine} :
      FrameMove cfg e s ⟨env, .memptrsDelete memptr64, calls⟩
        { s with memptrs := s.memptrs.delete env.pid64 }
        (some ⟨env, .memptrsRead memptr64, calls⟩)
  | readFaulted {env : Env} {memptr64 : ε} {calls : List Routine}
      (h : env.probeReadUser (s.memptrs.value memptr64) = none) :
      FrameMove cfg e s ⟨env, .memptrsRead memptr64, calls⟩ s none
  | read {env : Env} {memptr64 : ε} {calls : List Routine} {addr64 : U64}
      (h : env.probeReadUser (s.memptrs.value memptr64) = some addr64) :
      FrameMove cfg e s ⟨env, .memptrsRead memptr64, calls⟩ s
        (some ⟨env, .routine (.exitLookup env addr64), calls⟩)

/-- Every step is one of the moves. -/
theorem frame_step_move (cfg : Config) (e : ε) (s : SharedMaps n ε) (f : Frame ε) :
    FrameMove cfg e s f (f.step cfg e s).1 (f.step cfg e s).2 := by
  obtain ⟨env, position, calls⟩ := f
  cases position with
  | routine pc =>
      cases pc with
      | idle =>
          cases calls with
          | nil => exact .returned
          | cons routine calls => exact .called
      | _ => exact .routine (pc_step_move e s.toShared _)
  | memptrsUpdate memptr64 => exact .memptrsUpdate
  | memptrsLookup =>
      cases h : s.memptrs.element env.pid64 with
      | none =>
          simp only [Frame.step, h]
          exact .memptrMissed h
      | some memptr64 =>
          simp only [Frame.step, h]
          exact .memptrFound h
  | memptrsDelete memptr64 => exact .memptrsDelete
  | memptrsRead memptr64 =>
      cases h : env.probeReadUser (s.memptrs.value memptr64) with
      | none =>
          simp only [Frame.step, h]
          exact .readFaulted h
      | some addr64 =>
          simp only [Frame.step, h]
          exact .read h

/-! ### Threads -/

/-- A thread: the handler it is in, if any, and the events still to come. -/
structure Thread (ε : Type) where
  frame : Option (Frame ε)
  events : List Event

/-- The next step of a thread. -/
def Thread.step (cfg : Config) (e : ε) (s : SharedMaps n ε) :
    Thread ε → SharedMaps n ε × Thread ε
  | ⟨none, []⟩ => (s, ⟨none, []⟩)
  | ⟨none, ev :: events⟩ => (s, ⟨some (ev.frame cfg), events⟩)
  | ⟨some f, events⟩ => ((f.step cfg e s).1, ⟨(f.step cfg e s).2, events⟩)

/-- What a step of a thread can do: nothing any more, start its next handler, or take the
step of its handler. -/
inductive ThreadMove (cfg : Config) (e : ε) (s : SharedMaps n ε) :
    Thread ε → SharedMaps n ε → Thread ε → Prop
  | halted : ThreadMove cfg e s ⟨none, []⟩ s ⟨none, []⟩
  | started {ev : Event} {events : List Event} :
      ThreadMove cfg e s ⟨none, ev :: events⟩ s ⟨some (ev.frame cfg), events⟩
  | moved {f : Frame ε} {f' : Option (Frame ε)} {s' : SharedMaps n ε} {events : List Event}
      (h : FrameMove cfg e s f s' f') : ThreadMove cfg e s ⟨some f, events⟩ s' ⟨f', events⟩

theorem thread_step_move (cfg : Config) (e : ε) (s : SharedMaps n ε) (t : Thread ε) :
    ThreadMove cfg e s t (t.step cfg e s).1 (t.step cfg e s).2 := by
  obtain ⟨frame, events⟩ := t
  cases frame with
  | none =>
      cases events with
      | nil => exact .halted
      | cons ev events => exact .started
  | some f => exact .moved (frame_step_move cfg e s f)

/-- The maps and the threads. -/
abbrev System (n : Nat) (ε ι : Type) := Interleave.Config (SharedMaps n ε) (Thread ε) ι

variable [DecidableEq ι]

/-- One thread takes one step, with an element for an insertion. -/
def systemNext (cfg : Config) : System n ε ι → ι × ε → System n ε ι :=
  Interleave.next Prod.fst fun x => Thread.step cfg x.2

/-- The maps empty, every thread before its first event. -/
def systemStart (events : ι → List Event) : System n ε ι where
  shared := ⟨⟨.empty 0, .empty ⟨0, 0, 0⟩, .empty⟩, .empty 0⟩
  threads i := ⟨none, events i⟩

/-- The system after a schedule. -/
def systemRun (cfg : Config) (events : ι → List Event) (sched : List (ι × ε)) : System n ε ι :=
  sched.foldl (systemNext cfg) (systemStart events)

theorem systemRun_concat (cfg : Config) (events : ι → List Event) (sched : List (ι × ε))
    (x : ι × ε) : (systemRun cfg events (sched ++ [x]) : System n ε ι) =
      systemNext cfg (systemRun cfg events sched) x := List.foldl_concat ..

/-- The step of the moving thread. -/
theorem systemNext_move (cfg : Config) (c : System n ε ι) (x : ι × ε) :
    ThreadMove cfg x.2 c.shared (c.threads x.1) (systemNext cfg c x).shared
      ((systemNext cfg c x).threads x.1) := by
  have hown : (systemNext cfg c x).threads x.1 =
      (Thread.step cfg x.2 c.shared (c.threads x.1)).2 :=
    Interleave.next_threads_self Prod.fst (fun x : ι × ε => Thread.step cfg x.2) c x
  rw [hown]
  exact thread_step_move cfg x.2 c.shared (c.threads x.1)

/-! ### Alone, a handler is its atomic form -/

omit [DecidableEq ι]

/-- The maps and the handler after steps of the handler, each with the element it may
take. -/
def frameSolo (cfg : Config) (es : List ε) (p : SharedMaps n ε × Option (Frame ε)) :
    SharedMaps n ε × Option (Frame ε) :=
  es.foldl (fun p e => p.2.elim p fun f => f.step cfg e p.1) p

/-- Steps of the handler alone lead from the one to the other. -/
def Leads (cfg : Config) (p q : SharedMaps n ε × Option (Frame ε)) : Prop :=
  ∃ es, frameSolo cfg es p = q

variable {cfg : Config} {p q r : SharedMaps n ε × Option (Frame ε)}

theorem Leads.refl : Leads cfg p p := ⟨[], rfl⟩

theorem Leads.trans (h : Leads cfg p q) (h' : Leads cfg q r) : Leads cfg p r := by
  obtain ⟨es, rfl⟩ := h
  obtain ⟨es', rfl⟩ := h'
  exact ⟨es ++ es', List.foldl_append⟩

theorem Leads.step (e : ε) (s : SharedMaps n ε) (f : Frame ε) :
    Leads cfg (s, some f) (f.step cfg e s) := ⟨[e], rfl⟩

/-- What a routine does alone, its handler does in it. -/
theorem Leads.of_solo {es : List ε} {s : SharedMaps n ε} {s' : Shared n ε} {pc : Pc ε}
    (h : solo es (s.toShared, pc) = (s', .idle)) (env : Env) (calls : List Routine) :
    Leads cfg (s, some ⟨env, .routine pc, calls⟩)
      ({ s with toShared := s' }, some ⟨env, .routine .idle, calls⟩) := by
  induction es generalizing s pc with
  | nil =>
      obtain ⟨rfl, rfl⟩ := Prod.mk.inj h
      exact .refl
  | cons e es ih =>
      cases pc with
      | idle =>
          -- the routine has ended: the steps that are left do nothing
          rw [solo_idle] at h
          obtain ⟨rfl, -⟩ := Prod.mk.inj h
          exact .refl
      | _ => exact (Leads.step e s _).trans (ih (s := { s with toShared := _ }) h)

/-- A routine that only looks up, deletes and counts. -/
def Pc.Frees : Pc ε → Prop
  | .idle | .freeLookup _ | .freeDelete _ _ | .freeReadStackId _ | .freeReadSize _ _
  | .statistics _ => True
  | _ => False

omit [DecidableEq ε] in
theorem frees_ofStat (pc : StatPc) : (Pc.ofStat pc : Pc ε).Frees := by
  unfold Pc.ofStat
  split <;> trivial

/-- Such a routine takes no element. -/
theorem PcMove.frees {e e' : ε} {s s' : Shared n ε} {pc pc' : Pc ε} (h : PcMove e s pc s' pc')
    (hpc : pc.Frees) (hfree : s.allocs.owner e' = none) :
    pc'.Frees ∧ s'.sizes = s.sizes ∧ s'.allocs.owner e' = none := by
  cases h with
  | freeDelete => exact ⟨trivial, rfl, ElementMap.owner_delete hfree _⟩
  | statistics => exact ⟨frees_ofStat _, rfl, hfree⟩
  | idle => exact ⟨trivial, rfl, hfree⟩
  | freeMissed => exact ⟨trivial, rfl, hfree⟩
  | freeFound => exact ⟨trivial, rfl, hfree⟩
  | freeReadStackId => exact ⟨trivial, rfl, hfree⟩
  | freeReadSize => exact ⟨trivial, rfl, hfree⟩
  | _ => exact hpc.elim

theorem solo_frees {e' : ε} {s : Shared n ε} {pc : Pc ε} (hpc : pc.Frees)
    (hfree : s.allocs.owner e' = none) (es : List ε) :
    (solo es (s, pc)).1.sizes = s.sizes ∧ (solo es (s, pc)).1.allocs.owner e' = none := by
  induction es generalizing s pc with
  | nil => exact ⟨rfl, hfree⟩
  | cons e es ih =>
      obtain ⟨hpc', hsizes, hfree'⟩ := (pc_step_move e s pc).frees hpc hfree
      exact ⟨(ih hpc' hfree').1.trans hsizes, (ih hpc' hfree').2⟩

variable {cap : Capacities}

/-- The maps with elements hold what the maps without hold. -/
structure RepresentsAll (s : SharedMaps cap.combinedAllocs ε) (m : Maps cap) : Prop
    extends Represents s.toShared m where
  memptrs : ∀ pid, s.memptrs.get pid = m.memptrs.lookup pid

/-- An element that insertions into `sizes` and `allocs` can take. -/
structure FreeElement (e : ε) (s : Shared n ε) : Prop where
  sizes : s.sizes.owner e = none
  allocs : s.allocs.owner e = none

section Phases

variable (cfg : Config) {e : ε} {s : SharedMaps cap.combinedAllocs ε} {m : Maps cap}
  (h : RepresentsAll s m) (env : Env) (c : Calls) (calls : List Routine)

include h

/-- The free of a handler, alone. -/
theorem freePhase_leads (hfree : FreeElement e s.toShared) : ∃ s',
    Leads cfg (s, some ⟨env, .routine .idle, (c.free.map Routine.free).toList ++ calls⟩)
        (s', some ⟨env, .routine .idle, calls⟩) ∧
      RepresentsAll s' (freePhase c m) ∧ FreeElement e s'.toShared := by
  unfold freePhase
  cases c.free with
  | none => exact ⟨s, .refl, h, hfree⟩
  | some address =>
      obtain ⟨hrep, hdone⟩ := solo_free h.toRepresents address e
      have hlookup : (Pc.freeLookup address : Pc ε).Frees := trivial
      have hkeeps := solo_frees hlookup hfree.allocs (List.replicate 6 e)
      refine ⟨{ s with toShared := (solo (List.replicate 6 e) (s.toShared,
        .freeLookup address)).1 }, ?_, ⟨hrep, ?_⟩, ⟨hkeeps.1 ▸ hfree.sizes, hkeeps.2⟩⟩
      · exact (Leads.step e s _).trans (Leads.of_solo (Prod.ext rfl hdone) env calls)
      · rw [genFreeEnter_memptrs]
        exact h.memptrs

/-- The enter of a handler, alone. -/
theorem enterPhase_leads (hfree : FreeElement e s.toShared) (hroom : m.sizes.HasRoom env.pid) :
    ∃ s', Leads cfg (s, some ⟨env, .routine .idle,
          (c.enter.map (Routine.enter env)).toList ++ calls⟩)
        (s', some ⟨env, .routine .idle, calls⟩) ∧
      RepresentsAll s' (enterPhase cfg env c m) ∧ s'.allocs.owner e = none := by
  unfold enterPhase
  cases c.enter with
  | none => exact ⟨s, .refl, h, hfree.allocs⟩
  | some size =>
      obtain ⟨hrep, hdone⟩ := solo_enter h.toRepresents cfg env size hfree.sizes hroom
      have hallocs : (solo [e] (s.toShared, (Routine.enter env size).start cfg)).1.allocs =
          s.allocs := by
        rw [Routine.start]
        split <;> rfl
      refine ⟨{ s with toShared := (solo [e] (s.toShared,
        (Routine.enter env size).start cfg)).1 }, ?_, ⟨hrep, ?_⟩, hallocs ▸ hfree.allocs⟩
      · exact (Leads.step e s _).trans (Leads.of_solo (Prod.ext rfl hdone) env calls)
      · rw [genAllocEnter_memptrs]
        exact h.memptrs

/-- An exit, alone. -/
theorem exit_leads (address : U64) (hfree : s.allocs.owner e = none)
    (hroom : m.allocs.HasRoom address) : ∃ s',
    Leads cfg (s, some ⟨env, .routine (.exitLookup env address), calls⟩)
        (s', some ⟨env, .routine .idle, calls⟩) ∧
      RepresentsAll s' (genAllocExit2 env address m) := by
  obtain ⟨hrep, hdone⟩ := solo_exit h.toRepresents env address hfree hroom
  refine ⟨{ s with toShared := (solo (List.replicate 8 e) (s.toShared,
    .exitLookup env address)).1 }, Leads.of_solo (Prod.ext rfl hdone) env calls, hrep, ?_⟩
  rw [genAllocExit2_memptrs]
  exact h.memptrs

/-- The exit of a handler, alone, and the return. -/
theorem exitPhase_leads (hfree : s.allocs.owner e = none)
    (hroom : ∀ address, m.allocs.HasRoom address) : ∃ s',
    Leads cfg (s, some ⟨env, .routine .idle, (c.exit.map (Routine.exit env)).toList⟩)
        (s', none) ∧ RepresentsAll s' (exitPhase env c m) := by
  unfold exitPhase
  cases c.exit with
  | none => exact ⟨s, .step e s _, h⟩
  | some address =>
      obtain ⟨s', hleads, hrep⟩ := exit_leads cfg h env [] address hfree (hroom address)
      exact ⟨s', ((Leads.step e s _).trans hleads).trans (.step e s' _), hrep⟩

/-- The routine calls of a handler, alone. -/
theorem routines_lead (hfree : FreeElement e s.toShared) (hsizes : m.sizes.size < cap.sizes)
    (hallocs : m.allocs.size < cap.allocs) : ∃ s',
    Leads cfg (s, some ⟨env, .routine .idle, c.routines env⟩) (s', none) ∧
      RepresentsAll s' (exitPhase env c (enterPhase cfg env c (freePhase c m))) := by
  obtain ⟨s₁, hleads₁, hrep₁, hfree₁⟩ := freePhase_leads cfg h env c
    ((c.enter.map (Routine.enter env)).toList ++ (c.exit.map (Routine.exit env)).toList) hfree
  have hroom₁ : (freePhase c m).sizes.HasRoom env.pid := by
    rw [freePhase_sizes]
    exact .of_size_lt hsizes env.pid
  obtain ⟨s₂, hleads₂, hrep₂, hfree₂⟩ := enterPhase_leads cfg hrep₁ env c
    (c.exit.map (Routine.exit env)).toList hfree₁ hroom₁
  have hroom₂ : ∀ address, (enterPhase cfg env c (freePhase c m)).allocs.HasRoom address := by
    refine BoundedMap.HasRoom.of_size_lt ?_
    rw [enterPhase_allocs, freePhase_allocs]
    cases c.free with
    | none => exact hallocs
    | some address => exact (BoundedMap.size_erase_le address m.allocs).trans_lt hallocs
  obtain ⟨s₃, hleads₃, hrep₃⟩ := exitPhase_leads cfg hrep₂ env c hfree₂ hroom₂
  refine ⟨s₃, ?_, hrep₃⟩
  unfold Calls.routines
  rw [List.append_assoc]
  exact (hleads₁.trans hleads₂).trans hleads₃

/-- `posix_memalign_exit`, alone. -/
theorem posixMemalignExit_leads (hfree : s.allocs.owner e = none)
    (hallocs : m.allocs.size < cap.allocs) : ∃ s',
    Leads cfg (s, some ⟨env, .memptrsLookup, []⟩) (s', none) ∧
      RepresentsAll s' (posixMemalignExit env m) := by
  have hlookup : (s.memptrs.element env.pid64).map s.memptrs.value =
      m.memptrs.lookup env.pid64 := h.memptrs env.pid64
  have hfirst : Leads cfg (s, some ⟨env, .memptrsLookup, []⟩) _ := .step e s _
  unfold posixMemalignExit
  rw [← hlookup]
  cases hp : s.memptrs.element env.pid64 with
  | none =>
      simp only [Frame.step, hp] at hfirst
      exact ⟨s, hfirst, h⟩
  | some p =>
      simp only [Frame.step, hp] at hfirst
      have hdeleted : RepresentsAll { s with memptrs := s.memptrs.delete env.pid64 }
          { m with memptrs := m.memptrs.erase env.pid64 } := by
        refine ⟨⟨h.sizes, h.allocs, h.combined⟩, fun pid => ?_⟩
        rw [ElementMap.get_delete, BoundedMap.lookup_erase, h.memptrs]
      have hdelete : Leads cfg (s, some ⟨env, .memptrsDelete p, []⟩) _ := .step e s _
      -- the deleted element still holds the pointer
      have hread : Leads cfg ({ s with memptrs := s.memptrs.delete env.pid64 },
        some ⟨env, .memptrsRead p, []⟩) _ := .step e _ _
      have hthree := (hfirst.trans hdelete).trans hread
      dsimp only [Option.map_some]
      cases haddr : env.probeReadUser (s.memptrs.value p) with
      | none =>
          simp only [Frame.step, ElementMap.value_delete, haddr] at hthree
          exact ⟨_, hthree, hdeleted⟩
      | some addr64 =>
          simp only [Frame.step, ElementMap.value_delete, haddr] at hthree
          obtain ⟨s', hleads, hrep⟩ := exit_leads cfg hdeleted env [] addr64 hfree
            (.of_size_lt hallocs addr64)
          exact ⟨s', (hthree.trans hleads).trans (.step e s' _), hrep⟩

end Phases

/-- **Alone, a handler is its atomic form.** Where the maps have room, its steps lead to its
return, with what `handle` leaves in the maps. -/
theorem handler_alone {s : SharedMaps cap.combinedAllocs ε} {m : Maps cap}
    (h : RepresentsAll s m) (cfg : Config) (ev : Event) {e : ε}
    (hfree : FreeElement e s.toShared) (hmemptrs : s.memptrs.owner e = none)
    (hroom : m.NotFull) : ∃ s', Leads cfg (s, some (ev.frame cfg)) (s', none) ∧
      RepresentsAll s' (handle cfg m ev) := by
  obtain ⟨hsizes, hallocs, -, hmem⟩ := hroom
  obtain ⟨env, program⟩ := ev
  cases program with
  | posixMemalignEnter memptr alignment size =>
      have hrep : RepresentsAll { s with memptrs := s.memptrs.update e env.pid64 memptr }
          { m with memptrs := m.memptrs.put env.pid64 memptr } := by
        refine ⟨⟨h.sizes, h.allocs, h.combined⟩, fun pid => ?_⟩
        rw [ElementMap.get_update hmemptrs, BoundedMap.lookup_put (.of_size_lt hmem _), h.memptrs]
      obtain ⟨s', hleads, hrep'⟩ := routines_lead cfg hrep env
        { enter := some size } hfree hsizes hallocs
      exact ⟨s', (Leads.step e s _).trans hleads, hrep'⟩
  | posixMemalignExit =>
      exact posixMemalignExit_leads cfg h env hfree.allocs hallocs
  | _ =>
      rw [handle_eq]
      exact routines_lead cfg h env _ hfree hsizes hallocs

end EbpfMemleak
