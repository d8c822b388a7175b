import EbpfMemleak.Concurrent.Atomicity

/-!
# EbpfMemleak.Concurrent.Progress

**Handlers are wait-free.** No handler loops, and none waits for another: every step it
takes brings it nearer to its end, however the others interleave. The number of steps a
handler has left at most is read off its position and its calls (`Frame.left`), and each of
its steps lowers it (`left_frame_step`). The longest handler is that of a slab allocation
under `wa_missing_free`, a free, an enter and an exit.

`handlers_are_wait_free` says it of a whole thread: after twenty steps for each of its events
a thread has run all its handlers, whatever the other threads have done or not done.
-/

namespace EbpfMemleak

variable {n : Nat} {ε ι : Type}

/-! ### The steps that are left -/

/-- The steps an execution of the statistics takes at most from here on. -/
def StatPc.left : StatPc → Nat
  | .addLookup _ _ => 4
  | .addInsert _ _ => 3
  | .addLookupAgain _ _ | .delLookup _ _ => 2
  | .addFetch _ _ | .delFetch _ _ => 1
  | _ => 0

/-- The steps of a routine. -/
def Pc.left : Pc ε → Nat
  | .idle => 0
  | .enterUpdate _ _ => 1
  | .exitLookup _ _ => 8
  | .exitReadSize _ _ _ => 7
  | .exitDelete _ _ _ => 6
  | .exitUpdate _ _ => 5
  | .freeLookup _ => 6
  | .freeDelete _ _ => 5
  | .freeReadStackId _ => 4
  | .freeReadSize _ _ => 3
  -- finished statistics, which no run leaves standing, would take one step to end
  | .statistics pc => max pc.left 1

/-- The steps of a call, the first of which enters the routine. -/
def Routine.left : Routine → Nat
  | .enter _ _ => 2
  | .exit _ _ => 9
  | .free _ => 7

def Position.left : Position ε → Nat
  | .routine pc => pc.left
  | .memptrsUpdate _ => 1
  | .memptrsLookup => 11
  | .memptrsDelete _ => 10
  | .memptrsRead _ => 9

/-- The steps of a handler, the last of which returns. -/
def Frame.left (f : Frame ε) : Nat := f.position.left + (f.calls.map Routine.left).sum + 1

/-- The steps of a handler at most, with the one that starts it. -/
def handlerSteps : Nat := 20

/-- The steps of a thread. -/
def Thread.left (t : Thread ε) : Nat :=
  t.frame.elim 0 Frame.left + t.events.length * handlerSteps

/-- Nothing left: the last handler has returned. -/
theorem thread_of_left_eq_zero {t : Thread ε} (h : t.left = 0) : t = ⟨none, []⟩ := by
  obtain ⟨frame, events⟩ := t
  cases frame with
  | none =>
      cases events with
      | nil => rfl
      | cons ev events => simp [Thread.left, handlerSteps] at h
  | some f => simp [Thread.left, Frame.left] at h

/-! ### Every step counts -/

theorem left_of_finished {pc : StatPc} (h : pc.Finished) : pc.left = 0 := by
  cases pc <;> first | rfl | exact h.elim

theorem left_of_not_finished {pc : StatPc} (h : ¬ pc.Finished) : 1 ≤ pc.left := by
  cases pc <;> simp_all [StatPc.left, StatPc.Finished]

theorem left_ofStat (pc : StatPc) : (Pc.ofStat pc : Pc ε).left = pc.left := by
  unfold Pc.ofStat
  split
  case isTrue h => exact (left_of_finished h).symm
  case isFalse h => exact Nat.max_eq_left (left_of_not_finished h)

theorem StatMove.left {c c' : CombinedAllocs n} {pc pc' : StatPc} (h : StatMove c pc c' pc') :
    pc'.left + 1 ≤ max pc.left 1 := by
  cases h with
  | returned hdone => simp [left_of_finished hdone]
  | _ => simp [StatPc.left]

/-- Entering a routine is one of its steps. -/
theorem left_start (cfg : Config) (routine : Routine) :
    (routine.start cfg : Pc ε).left + 1 ≤ routine.left := by
  cases routine with
  | enter env size =>
      by_cases hacc : Accepted cfg env size <;>
        simp [Routine.start, hacc, Pc.left, Routine.left]
  | exit env address => exact Nat.le_refl _
  | free address => exact Nat.le_refl _

section Moves

variable [DecidableEq ε] {cfg : Config} {e : ε}

/-- A routine that has not returned comes nearer to its end. -/
theorem PcMove.left {s s' : Shared n ε} {pc pc' : Pc ε} (h : PcMove e s pc s' pc')
    (hpc : pc ≠ .idle) : pc'.left + 1 ≤ pc.left := by
  cases h with
  | idle => exact absurd rfl hpc
  | statistics h =>
      rw [left_ofStat]
      exact h.left
  | _ => simp [Pc.left, StatPc.left]

/-- In a routine the step of a handler is that of the routine. -/
theorem frame_step_routine (cfg : Config) (e : ε) (s : SharedMaps n ε) (env : Env) {pc : Pc ε}
    (calls : List Routine) (hpc : pc ≠ .idle) :
    (Frame.step cfg e s ⟨env, .routine pc, calls⟩).2 =
      some ⟨env, .routine (pc.step e s.toShared).2, calls⟩ := by
  cases pc with
  | idle => exact absurd rfl hpc
  | _ => rfl

/-- **So does a handler**, in each of its steps: what returns `none` has one step left at
least, the return. -/
theorem left_frame_step (cfg : Config) (e : ε) (s : SharedMaps n ε) (f : Frame ε) :
    (f.step cfg e s).2.elim 0 Frame.left + 1 ≤ f.left := by
  -- between two moves the calls still to come stay the same
  have hposition : ∀ {p p' : Position ε} {env : Env} {calls : List Routine},
      p'.left + 1 ≤ p.left → (Frame.mk env p' calls).left + 1 ≤ (Frame.mk env p calls).left := by
    intro p p' env calls h
    simp only [Frame.left]
    omega
  obtain ⟨env, position, calls⟩ := f
  cases position with
  | routine pc =>
      by_cases hpc : pc = .idle
      · subst hpc
        cases calls with
        | nil => exact Nat.le_refl _
        | cons routine calls =>
            have hstart := @left_start ε cfg routine
            have hleft : (Frame.mk env (.routine (.idle : Pc ε)) (routine :: calls)).left =
                routine.left + (calls.map Routine.left).sum + 1 := by
              simp [Frame.left, Position.left, Pc.left]
            rw [hleft]
            show (routine.start cfg : Pc ε).left + (calls.map Routine.left).sum + 1 + 1 ≤ _
            omega
      · rw [frame_step_routine cfg e s env calls hpc]
        exact hposition ((pc_step_move e s.toShared pc).left hpc)
  | memptrsUpdate memptr64 => exact hposition (Nat.le_refl _)
  | memptrsLookup =>
      cases h : s.memptrs.element env.pid64 with
      | none =>
          simp only [Frame.step, h]
          exact Nat.le_add_left ..
      | some memptr64 =>
          simp only [Frame.step, h]
          exact hposition (Nat.le_refl _)
  | memptrsDelete memptr64 => exact hposition (Nat.le_refl _)
  | memptrsRead memptr64 =>
      cases h : env.probeReadUser (s.memptrs.value memptr64) with
      | none =>
          simp only [Frame.step, h]
          exact Nat.le_add_left ..
      | some addr64 =>
          simp only [Frame.step, h]
          exact hposition (Nat.le_refl _)

omit [DecidableEq ε] in
/-- The longest list of calls is a free, an enter and an exit. -/
theorem left_routines (env : Env) (c : Calls) :
    ((c.routines env).map Routine.left).sum ≤ 18 := by
  obtain ⟨free, enter, exit⟩ := c
  cases free <;> cases enter <;> cases exit <;> simp [Calls.routines, Routine.left]

omit [DecidableEq ε] in
/-- **A handler starts with less than `handlerSteps` to go.** -/
theorem left_frame (cfg : Config) (ev : Event) :
    (ev.frame cfg : Frame ε).left + 1 ≤ handlerSteps := by
  obtain ⟨env, program⟩ := ev
  have hroutines (c : Calls) :
      (Frame.mk env (.routine (.idle : Pc ε)) (c.routines env)).left + 1 ≤ handlerSteps := by
    have hcalls := left_routines env c
    simp only [Frame.left, Position.left, Pc.left, handlerSteps]
    omega
  cases program with
  | posixMemalignEnter memptr alignment size =>
      simp [Event.frame, Event.position, Event.calls, Calls.routines, Frame.left, Position.left,
        Routine.left, handlerSteps]
  | posixMemalignExit =>
      simp [Event.frame, Event.position, Event.calls, Calls.routines, Frame.left, Position.left,
        Maps.empty, handlerSteps]
  | _ => exact hroutines _

/-- **A step of a thread lowers what it has left**, unless nothing is left. -/
theorem left_thread_step (cfg : Config) (e : ε) (s : SharedMaps n ε) (t : Thread ε) :
    (t.step cfg e s).2.left ≤ t.left - 1 := by
  obtain ⟨frame, events⟩ := t
  cases frame with
  | none =>
      cases events with
      | nil => exact Nat.zero_le _
      | cons ev events =>
          have hframe := @left_frame ε cfg ev
          show (ev.frame cfg).left + events.length * handlerSteps ≤
            0 + (ev :: events).length * handlerSteps - 1
          rw [List.length_cons, Nat.succ_mul]
          omega
  | some f =>
      have hframe := left_frame_step cfg e s f
      show (f.step cfg e s).2.elim 0 Frame.left + events.length * handlerSteps ≤
        f.left + events.length * handlerSteps - 1
      omega

end Moves

/-! ### Any interleaving -/

variable [DecidableEq ε] [DecidableEq ι]

/-- **Handlers are wait-free.** After twenty steps for each of its events a thread has run all
of its handlers and returned from the last, whatever the other threads did in between: no
handler loops, waits for another, or has to try again. -/
theorem handlers_are_wait_free (cfg : Config) (events : ι → List Event) (sched : List (ι × ε))
    (i : ι)
    (hsteps : (events i).length * handlerSteps ≤ sched.countP fun x => x.1 = i) :
    (systemRun cfg events sched : System n ε ι).threads i = ⟨none, []⟩ := by
  have hleft := Interleave.measure_foldl_le Prod.fst (fun x : ι × ε => Thread.step cfg x.2)
    (fun x s t => left_thread_step cfg x.2 s t) (systemStart events : System n ε ι) sched i
  have hstart : ((systemStart events : System n ε ι).threads i).left =
      (events i).length * handlerSteps := Nat.zero_add _
  exact thread_of_left_eq_zero (Nat.le_zero.mp (hleft.trans (by omega)))

/-- The other thread has stopped in the middle of a handler. -/
theorem handlers_are_wait_free_stopped :
    (systemRun {} twoProcesses ((1, 1) :: (1, 1) :: List.replicate 40 (0, 0)) :
        System Capacities.source.combinedAllocs (Fin 2) (Fin 2)).threads 0 = ⟨none, []⟩ :=
  handlers_are_wait_free {} twoProcesses ((1, 1) :: (1, 1) :: List.replicate 40 (0, 0)) 0
    (by decide)

end EbpfMemleak
