import EbpfMemleak.Concurrent.Filters
import EbpfMemleak.Concurrent.Remaining
import EbpfMemleak.FailedCalls
import EbpfMemleak.Lib.Footprint

/-!
# EbpfMemleak.Concurrent.Atomicity

**When interleaved handlers are atomic.** The programs run one helper call at a time, on any
number of threads. This module says under which conditions on a schedule its outcome is that
of the handlers run whole, one after the other, in the order in which they started.

The conditions are on single steps (`Separate`): a handler starts only while those under way
are of other processes and touch other addresses, an insertion gets a free element to which
no handler under way still holds a pointer, and a decrement finds its entry.

The invariant is `Linearized c M`, where `M` is what the handlers started so far do when run
whole: every entry of `M` is what the maps show, or what the handler that works on it will
leave there, and every word of `M` is the word in the maps moved by the updates still to come.
A step of a handler keeps it, whatever the others do in between; the start of a handler runs
it whole on the side of `M`.
-/

namespace EbpfMemleak

open Interleave

variable {n : Nat} {ε ι : Type} {cap : Capacities}

/-! ### What other handlers leave alone -/

section Spared

variable {cfg : Config} {s s' : SharedMaps n ε}

/-- What a handler still does is decided by the records it touches. -/
theorem Frame.effect_congr {f : Frame ε} {v v' : View} {T : List U64}
    (hT : ∀ a ∈ (f.position.rest s).touched f.env v ++ f.calls.flatMap Routine.touched, a ∈ T)
    (h : View.Agree T v v') : Outcome.Agree T (f.effect cfg s v) (f.effect cfg s v') :=
  (Rest.effect_congr f.env (fun a ha => hT a (List.mem_append_left _ ha)) h).andThen
    fun _ _ hv => routinesEffect_congr cfg (fun a ha => hT a (List.mem_append_right _ ha)) hv

/-- What is left of a handler, read off its pointer. -/
theorem Position.rest_congr {position : Position ε}
    (hsizes : ∀ p, position.holds = some (.sizes, p) → s'.sizes.value p = s.sizes.value p)
    (hallocs : ∀ p, position.holds = some (.allocs, p) → s'.allocs.value p = s.allocs.value p)
    (hmemptrs : ∀ p, position.holds = some (.memptrs, p) →
      s'.memptrs.value p = s.memptrs.value p) : position.rest s' = position.rest s := by
  cases position with
  | routine pc =>
      cases pc with
      | exitReadSize env address p => simp [Position.rest, Pc.rest, hsizes p rfl]
      | freeDelete address p => simp [Position.rest, Pc.rest, hallocs p rfl]
      | freeReadStackId p => simp [Position.rest, Pc.rest, hallocs p rfl]
      | freeReadSize p stackId => simp [Position.rest, Pc.rest, hallocs p rfl]
      | _ => rfl
  | memptrsDelete p => simp [Position.rest, hmemptrs p rfl]
  | memptrsRead p => simp [Position.rest, hmemptrs p rfl]
  | _ => rfl

/-- Nothing changes for a handler under way. -/
structure Spared (cfg : Config) (s s' : SharedMaps n ε) (g : Frame ε) : Prop where
  touched : g.touched s' = g.touched s
  final : Outcome.Agree (g.touched s) (g.final cfg s) (g.final cfg s')

/-- A change of the maps elsewhere spares a handler. -/
theorem Spared.of_elsewhere {g : Frame ε}
    (hsize : s'.sizes.get g.env.pid = s.sizes.get g.env.pid)
    (hmemptr : s'.memptrs.get g.env.pid64 = s.memptrs.get g.env.pid64)
    (hallocs : ∀ a ∈ g.touched s, s'.allocs.get a = s.allocs.get a)
    (hrest : g.position.rest s' = g.position.rest s) : Spared cfg s s' g where
  touched := by
    have hview : (s'.viewOf g.env).memptr = (s.viewOf g.env).memptr := hmemptr
    unfold Frame.touched
    rw [hrest, Rest.touched_congr g.env _ hview]
  final := by
    have heffect : g.effect cfg s' = g.effect cfg s := by
      funext v
      unfold Frame.effect
      rw [hrest]
    unfold Frame.final
    rw [heffect]
    exact Frame.effect_congr (fun _ => id) ⟨hsize, hmemptr, hallocs⟩

variable [DecidableEq ε]

/-- A step writes only to the element its insertion takes. -/
theorem FrameMove.value {e : ε} {f : Frame ε} {f' : Option (Frame ε)}
    (h : FrameMove cfg e s f s' f') {position : Position ε}
    (hholds : ∀ map ∈ f.position.takes, position.holds ≠ some (map, e)) :
    position.rest s' = position.rest s := by
  have hsame : ∀ {p : ε} {map : PointerMap}, f.position.takes = some map →
      position.holds = some (map, p) → p ≠ e := fun htakes hp heq =>
    hholds _ htakes (heq ▸ hp)
  cases h with
  | routine hmove =>
      cases hmove with
      | enterUpdate =>
          exact Position.rest_congr (fun p hp => ElementMap.value_update_of_ne (hsame rfl hp))
            (fun _ _ => rfl) fun _ _ => rfl
      | exitUpdate =>
          exact Position.rest_congr (fun _ _ => rfl)
            (fun p hp => ElementMap.value_update_of_ne (hsame rfl hp)) fun _ _ => rfl
      | _ => exact Position.rest_congr (fun _ _ => rfl) (fun _ _ => rfl) fun _ _ => rfl
  | memptrsUpdate =>
      exact Position.rest_congr (fun _ _ => rfl) (fun _ _ => rfl)
        fun p hp => ElementMap.value_update_of_ne (hsame rfl hp)
  | memptrsDelete => exact Position.rest_congr (fun _ _ => rfl) (fun _ _ => rfl) fun _ _ => rfl
  | _ => rfl

/-- **A step spares the handlers of other processes** that touch other records and hold no
pointer to the element it takes. -/
theorem FrameCarries.spared {e : ε} {f g : Frame ε} {f' : Option (Frame ε)}
    (h : FrameCarries cfg s f s' f') (hmove : FrameMove cfg e s f s' f')
    (hpid : g.env.pid ≠ f.env.pid) (hapart : ∀ a ∈ g.touched s, a ∉ f.touched s)
    (hholds : ∀ map ∈ f.position.takes, g.position.holds ≠ some (map, e)) :
    Spared cfg s s' g := by
  have hpid64 : g.env.pid64 ≠ f.env.pid64 := by
    intro heq
    exact hpid (congrArg (·.setWidth 32) heq)
  exact .of_elsewhere (h.sizes _ hpid) (h.memptrs _ hpid64)
    (fun a ha => h.allocs a (hapart a ha)) (hmove.value hholds)

end Spared

/-! ### The statistics of a handler under way -/

/-- What a position relies on: an entry it has found or made is there. -/
def Position.Valid (c : CombinedAllocs n) : Position ε → Prop
  | .routine (.statistics pc) => pc.Valid c
  | _ => True

theorem valid_frame {c : CombinedAllocs n} (cfg : Config) (ev : Event) :
    (ev.frame cfg : Frame ε).position.Valid c := by
  obtain ⟨env, program⟩ := ev
  cases program <;> trivial

/-- A decrement finds its entry. -/
def Position.DelPresent (c : CombinedAllocs n) : Position ε → Prop
  | .routine (.statistics pc) => EbpfMemleak.DelPresent c pc
  | _ => True

instance (c : CombinedAllocs n) : DecidablePred (Position.DelPresent c : Position ε → Prop) :=
  fun position =>
    match position with
    | .routine (.statistics pc) => inferInstanceAs (Decidable (EbpfMemleak.DelPresent c pc))
    | .routine .idle | .routine (.enterUpdate _ _) | .routine (.exitLookup _ _)
    | .routine (.exitReadSize _ _ _) | .routine (.exitDelete _ _ _) | .routine (.exitUpdate _ _)
    | .routine (.freeLookup _) | .routine (.freeDelete _ _) | .routine (.freeReadStackId _)
    | .routine (.freeReadSize _ _) | .memptrsUpdate _ | .memptrsLookup | .memptrsDelete _
    | .memptrsRead _ => isTrue trivial

theorem Position.Valid.mono {c c' : CombinedAllocs n} {position : Position ε}
    (h : position.Valid c) (hgrow : ∀ k, k ∈ c → k ∈ c') : position.Valid c' := by
  unfold Position.Valid at h ⊢
  split
  case h_1 pc => exact StatPc.Valid.mono h hgrow
  case h_2 => trivial

theorem valid_routine_ofStat {c : CombinedAllocs n} {pc : StatPc} (h : pc.Valid c) :
    (Position.routine (Pc.ofStat pc) : Position ε).Valid c := by
  unfold Pc.ofStat
  split
  case isTrue => trivial
  case isFalse => exact h

theorem FrameMove.valid [DecidableEq ε] {cfg : Config} {e : ε} {s s' : SharedMaps n ε}
    {f : Frame ε} {f' : Option (Frame ε)} (h : FrameMove cfg e s f s' f')
    (hvalid : f.position.Valid s.combinedAllocs)
    (hdel : f.position.DelPresent s.combinedAllocs) :
    ∀ g ∈ f', g.position.Valid s'.combinedAllocs := by
  intro g hg
  cases h with
  | @called env routine calls =>
      obtain rfl := Option.some.inj hg
      cases routine with
      | enter env' size =>
          dsimp only [Routine.start]
          split <;> trivial
      | _ => trivial
  | routine hmove =>
      obtain rfl := Option.some.inj hg
      cases hmove with
      | statistics hstat => exact valid_routine_ofStat (StatPc.Valid.move hvalid hstat hdel)
      | _ => trivial
  | memptrsUpdate => obtain rfl := Option.some.inj hg; trivial
  | memptrFound => obtain rfl := Option.some.inj hg; trivial
  | memptrsDelete => obtain rfl := Option.some.inj hg; trivial
  | read => obtain rfl := Option.some.inj hg; trivial
  | _ => cases hg

/-! ### The cells of the maps -/

section Cells

variable {κ ν : Type} (cfg : Config)

/-- The cells of a map, owned by handlers in flight. -/
def handlerCells (owns : SharedMaps n ε → Frame ε → κ → Prop) (read : View → κ → ν)
    (cell : SharedMaps n ε → κ → ν) : Cells (SharedMaps n ε) (Thread ε) κ ν where
  foot s t k := ∃ f ∈ t.frame, owns s f k
  final s t k := t.frame.elim (cell s k) fun f => read (f.final cfg s).1 k
  cell := cell

/-- A handler owns the pending size of its process. -/
def sizesCells : Cells (SharedMaps n ε) (Thread ε) Pid (Option U64) :=
  handlerCells cfg (fun _ f pid => pid = f.env.pid) (fun v _ => v.size) fun s => s.sizes.get

/-- It owns the pointer its process has left. -/
def memptrsCells : Cells (SharedMaps n ε) (Thread ε) U64 (Option U64) :=
  handlerCells cfg (fun _ f k => k = f.env.pid64) (fun v _ => v.memptr) fun s => s.memptrs.get

/-- It owns the records it may still touch. -/
def allocsCells : Cells (SharedMaps n ε) (Thread ε) U64 (Option AllocInfo) :=
  handlerCells cfg (fun s f a => a ∈ f.touched s) View.allocs fun s => s.allocs.get

variable {cfg} {owns : SharedMaps n ε → Frame ε → κ → Prop} {read : View → κ → ν}
  {cell : SharedMaps n ε → κ → ν} {s s' : SharedMaps n ε}

@[simp] theorem foot_some {f : Frame ε} {events : List Event} {k : κ} :
    (handlerCells cfg owns read cell).foot s ⟨some f, events⟩ k ↔ owns s f k := by
  simp [handlerCells]

@[simp] theorem not_foot_none {events : List Event} {k : κ} :
    ¬ (handlerCells cfg owns read cell).foot s ⟨none, events⟩ k := by
  simp [handlerCells]

/-- The step of a handler, seen in the cells of one map. -/
theorem advances_of_carries {f : Frame ε} {f' : Option (Frame ε)} {events : List Event}
    (h : FrameCarries cfg s f s' f') (hshrinks : ∀ g ∈ f', ∀ k, owns s' g k → owns s f k)
    (hsettles : ∀ k, owns s f k → (∀ g ∈ f', ¬ owns s' g k) →
      cell s' k = read (finalView cfg f.env s' f') k)
    (hframe : ∀ k, ¬ owns s f k → cell s' k = cell s k) :
    Advances (handlerCells cfg owns read cell) s ⟨some f, events⟩ s' ⟨f', events⟩ where
  shrinks k hk := by
    obtain ⟨g, hg, hown⟩ := hk
    exact foot_some.mpr (hshrinks g hg k hown)
  keeps k hk := by
    obtain ⟨g, hg, -⟩ := hk
    obtain rfl : f' = some g := hg
    exact congrArg (read · k) h.view
  settles k hk hk' := by
    refine (hsettles k (foot_some.mp hk) fun g hg hown => hk' ⟨g, hg, hown⟩).trans ?_
    exact congrArg (read · k) h.view
  frame k hk := hframe k fun hown => hk (foot_some.mpr hown)

/-- A spared handler, seen in the cells of one map. -/
theorem spares_of_spared {t : Thread ε} (h : ∀ g ∈ t.frame, Spared cfg s s' g)
    (howns : ∀ g ∈ t.frame, ∀ k, owns s' g k ↔ owns s g k)
    (hread : ∀ g ∈ t.frame, ∀ k, owns s g k →
      read (g.final cfg s').1 k = read (g.final cfg s).1 k) :
    Spares (handlerCells cfg owns read cell) s s' t where
  foot_iff k := by
    constructor
    · rintro ⟨g, hg, hown⟩
      exact ⟨g, hg, (howns g hg k).mp hown⟩
    · rintro ⟨g, hg, hown⟩
      exact ⟨g, hg, (howns g hg k).mpr hown⟩
  final_eq k hk := by
    obtain ⟨g, hg, hown⟩ := hk
    obtain ⟨frame, events⟩ := t
    obtain rfl : frame = some g := hg
    exact hread g rfl k hown

end Cells

section Maps

variable {cfg : Config} {s s' : SharedMaps n ε} {f : Frame ε} {f' : Option (Frame ε)}
  {events : List Event}

theorem FrameCarries.advances_sizes (h : FrameCarries cfg s f s' f')
    (henv : ∀ g ∈ f', g.env = f.env) :
    Advances (sizesCells cfg) s ⟨some f, events⟩ s' ⟨f', events⟩ := by
  refine advances_of_carries h (fun g hg k hk => henv g hg ▸ hk) (fun k hk hgone => ?_) h.sizes
  subst hk
  cases f' with
  | none => rfl
  | some g => exact absurd (congrArg Env.pid (henv g rfl)).symm (hgone g rfl)

theorem FrameCarries.advances_memptrs (h : FrameCarries cfg s f s' f')
    (henv : ∀ g ∈ f', g.env = f.env) :
    Advances (memptrsCells cfg) s ⟨some f, events⟩ s' ⟨f', events⟩ := by
  refine advances_of_carries h (fun g hg k hk => henv g hg ▸ hk) (fun k hk hgone => ?_) h.memptrs
  subst hk
  cases f' with
  | none => rfl
  | some g => exact absurd (congrArg Env.pid64 (henv g rfl)).symm (hgone g rfl)

theorem FrameCarries.advances_allocs (h : FrameCarries cfg s f s' f') :
    Advances (allocsCells cfg) s ⟨some f, events⟩ s' ⟨f', events⟩ := by
  refine advances_of_carries h (fun g hg a ha => ?_) (fun a _ hgone => ?_) h.allocs
  · obtain rfl : f' = some g := hg
    exact h.touched a ha
  · cases f' with
    | none => rfl
    | some g => exact (Frame.effect_allocs cfg rfl (hgone g rfl)).symm

variable {t : Thread ε}

theorem spares_sizes (h : ∀ g ∈ t.frame, Spared cfg s s' g) : Spares (sizesCells cfg) s s' t :=
  spares_of_spared h (fun _ _ _ => Iff.rfl) fun g hg _ _ => (h g hg).final.view.size

theorem spares_memptrs (h : ∀ g ∈ t.frame, Spared cfg s s' g) :
    Spares (memptrsCells cfg) s s' t :=
  spares_of_spared h (fun _ _ _ => Iff.rfl) fun g hg _ _ => (h g hg).final.view.memptr

theorem spares_allocs (h : ∀ g ∈ t.frame, Spared cfg s s' g) : Spares (allocsCells cfg) s s' t :=
  spares_of_spared h (fun g hg a => by rw [(h g hg).touched])
    fun g hg a ha => (h g hg).final.view.allocs a ha

end Maps

/-! ### Schedules that keep handlers apart -/

theorem systemNext_threads_of_ne [DecidableEq ε] [DecidableEq ι] {cfg : Config}
    {c : System n ε ι} {x : ι × ε} {i : ι} (h : i ≠ x.1) :
    (systemNext cfg c x).threads i = c.threads i :=
  Interleave.next_threads_of_ne Prod.fst (fun x : ι × ε => Thread.step cfg x.2) h

/-- The step that starts a handler. -/
theorem systemNext_start [DecidableEq ε] [DecidableEq ι] (cfg : Config) {c : System n ε ι}
    {x : ι × ε} {ev : Event} {events : List Event} (ht : c.threads x.1 = ⟨none, ev :: events⟩) :
    systemNext cfg c x =
      ⟨c.shared, Function.update c.threads x.1 ⟨some (ev.frame cfg), events⟩⟩ := by
  unfold systemNext Interleave.next
  rw [ht]
  rfl

/-- A step of a handler under way. -/
theorem systemNext_moved [DecidableEq ε] [DecidableEq ι] (cfg : Config) {c : System n ε ι}
    {x : ι × ε} {f : Frame ε} {events : List Event} (ht : c.threads x.1 = ⟨some f, events⟩) :
    (systemNext cfg c x).shared = (f.step cfg x.2 c.shared).1 ∧
      (systemNext cfg c x).threads x.1 = ⟨(f.step cfg x.2 c.shared).2, events⟩ := by
  constructor
  · show (Thread.step cfg x.2 c.shared (c.threads x.1)).1 = _
    rw [ht]
    rfl
  · refine (Interleave.next_threads_self ..).trans ?_
    rw [ht]
    rfl

instance (s : SharedMaps n ε) (e : ε) : DecidablePred (s.IsFree e) := fun map =>
  match map with
  | .sizes => inferInstanceAs (Decidable (s.sizes.owner e = none))
  | .allocs => inferInstanceAs (Decidable (s.allocs.owner e = none))
  | .memptrs => inferInstanceAs (Decidable (s.memptrs.owner e = none))

/-- The handlers under way are of other processes and touch other records. -/
def StartsApart (cfg : Config) (c : System n ε ι) (ev : Event) : Prop :=
  ∀ i, ∀ g ∈ (c.threads i).frame, g.env.pid ≠ ev.env.pid ∧
    ∀ a ∈ (ev.frame cfg : Frame ε).touched c.shared, a ∉ g.touched c.shared

namespace StartsApart

variable {cfg : Config} {c : System n ε ι} {ev : Event}

/-- A new handler has its cells for itself, in each of the maps. -/
theorem sizes (h : StartsApart cfg c ev) (events : List Event) (i : ι) (k : Pid)
    (hk : (sizesCells cfg).foot c.shared ⟨some (ev.frame cfg), events⟩ k) :
    ¬ (sizesCells cfg).foot c.shared (c.threads i) k := by
  rintro ⟨g, hg, hgk⟩
  obtain rfl : k = ev.env.pid := foot_some.mp hk
  exact (h i g hg).1 hgk.symm

theorem memptrs (h : StartsApart cfg c ev) (events : List Event) (i : ι) (k : U64)
    (hk : (memptrsCells cfg).foot c.shared ⟨some (ev.frame cfg), events⟩ k) :
    ¬ (memptrsCells cfg).foot c.shared (c.threads i) k := by
  rintro ⟨g, hg, hgk⟩
  obtain rfl : k = ev.env.pid64 := foot_some.mp hk
  exact (h i g hg).1 (congrArg (·.setWidth 32) hgk.symm)

theorem allocs (h : StartsApart cfg c ev) (events : List Event) (i : ι) (a : U64)
    (ha : (allocsCells cfg).foot c.shared ⟨some (ev.frame cfg), events⟩ a) :
    ¬ (allocsCells cfg).foot c.shared (c.threads i) a := by
  rintro ⟨g, hg, hga⟩
  exact (h i g hg).2 a (foot_some.mp ha) hga

end StartsApart

/-- A decrement finds its entry, and an insertion gets a free element that no handler holds
on to. -/
def MovesApart (c : System n ε ι) (f : Frame ε) (e : ε) : Prop :=
  f.position.DelPresent c.shared.combinedAllocs ∧
    ∀ map ∈ f.position.takes, c.shared.IsFree e map ∧
      ∀ i, ∀ g ∈ (c.threads i).frame, g.position.holds ≠ some (map, e)

/-- What the next step of a thread needs. -/
def Thread.Separate (cfg : Config) (c : System n ε ι) (e : ε) : Thread ε → Prop
  | ⟨none, []⟩ => True
  | ⟨none, ev :: _⟩ => StartsApart cfg c ev
  | ⟨some f, _⟩ => MovesApart c f e

/-- What a step of the system needs. -/
def Separate (cfg : Config) (c : System n ε ι) (x : ι × ε) : Prop :=
  (c.threads x.1).Separate cfg c x.2

section Decidable

variable [DecidableEq ε] [Fintype ι] (cfg : Config) (c : System n ε ι)

instance (ev : Event) : Decidable (StartsApart cfg c ev) :=
  -- the addresses are those of a list, not all there are
  have (l l' : List U64) : Decidable (∀ a ∈ l, a ∉ l') := List.decidableBAll _ l
  inferInstanceAs (Decidable (∀ _, _))

instance (f : Frame ε) (e : ε) : Decidable (MovesApart c f e) :=
  inferInstanceAs (Decidable (_ ∧ _))

instance (e : ε) : DecidablePred (Thread.Separate cfg c e) := fun t =>
  match t with
  | ⟨none, []⟩ => isTrue trivial
  | ⟨none, ev :: _⟩ => inferInstanceAs (Decidable (StartsApart cfg c ev))
  | ⟨some f, _⟩ => inferInstanceAs (Decidable (MovesApart c f e))

instance (x : ι × ε) : Decidable (Separate cfg c x) :=
  inferInstanceAs (Decidable (Thread.Separate _ _ _ _))

end Decidable

/-! ### The invariant -/

/-- `M` is the maps with all handlers under way completed. -/
structure Linearized [Fintype ι] (cfg : Config) (c : System cap.combinedAllocs ε ι)
    (M : Maps cap) : Prop where
  frames : ∀ i, ∀ f ∈ (c.threads i).frame,
    f.WellFormed ∧ f.position.Valid c.shared.combinedAllocs
  pidsApart : Exclusive (sizesCells cfg) c
  recordsApart : Exclusive (allocsCells cfg) c
  sizes : Shows (sizesCells cfg) c fun pid => M.sizes.lookup pid
  memptrs : Shows (memptrsCells cfg) c fun pid => M.memptrs.lookup pid
  allocs : Shows (allocsCells cfg) c fun a => M.allocs.lookup a
  word : ∀ k, M.combinedAllocs.word k = c.shared.combinedAllocs.word k +
    ∑ i, opsDelta k (finalOps cfg c.shared (c.threads i).frame)
  mem : ∀ k, k ∈ M.combinedAllocs ↔ k ∈ c.shared.combinedAllocs ∨
    ∃ i, AddsTo k (finalOps cfg c.shared (c.threads i).frame)

namespace Linearized

variable [Fintype ι] {cfg : Config} {c : System cap.combinedAllocs ε ι} {M : Maps cap}

/-- An addition that is still to come finds room: `M` has made it already. -/
theorem hasRoom (h : Linearized cfg c M) {i : ι} {f : Frame ε} (hf : f ∈ (c.threads i).frame)
    {k sz : U64} (hpos : f.position = .routine (.statistics (.addInsert k sz))) :
    c.shared.combinedAllocs.HasRoom k := by
  by_cases hk : k ∈ c.shared.combinedAllocs
  · exact .of_mem hk
  · have hadds : AddsTo k (finalOps cfg c.shared (c.threads i).frame) := by
      rw [Option.mem_def.mp hf]
      refine ⟨sz, List.mem_append_left _ ?_⟩
      simp [hpos, Position.rest, Pc.rest, StatPc.Finished, StatPc.op, Rest.effect]
    have hlt : c.shared.combinedAllocs.size < M.combinedAllocs.size :=
      BoundedMap.size_lt_of_mem_imp (fun k hk => (h.mem k).mpr (.inl hk))
        ((h.mem k).mpr (.inr ⟨i, hadds⟩)) hk
    exact .of_size_lt (hlt.trans_le M.combinedAllocs.size_le) k

variable [DecidableEq ε] [DecidableEq ι]

section Operations

variable {x : ι × ε} (hops : ∀ i, i ≠ x.1 →
  finalOps cfg (systemNext cfg c x).shared (c.threads i).frame =
    finalOps cfg c.shared (c.threads i).frame)

include hops

/-- The operations that are left change in one thread. -/
theorem sum_opsDelta_next {k a b : U64}
    (hown : opsDelta k (finalOps cfg c.shared (c.threads x.1).frame) + a =
      opsDelta k (finalOps cfg (systemNext cfg c x).shared
        ((systemNext cfg c x).threads x.1).frame) + b) :
    ∑ i, opsDelta k (finalOps cfg c.shared (c.threads i).frame) + a =
      ∑ i, opsDelta k (finalOps cfg (systemNext cfg c x).shared
        ((systemNext cfg c x).threads i).frame) + b :=
  Interleave.balance_next Prod.fst (fun x => Thread.step cfg x.2)
    (fun s t => opsDelta k (finalOps cfg s t.frame)) hown fun i hi => congrArg _ (hops i hi)

omit [Fintype ι] in
theorem exists_addsTo_next {k : U64} {P P' : Prop}
    (hown : P ∨ AddsTo k (finalOps cfg c.shared (c.threads x.1).frame) ↔
      P' ∨ AddsTo k (finalOps cfg (systemNext cfg c x).shared
        ((systemNext cfg c x).threads x.1).frame)) :
    (P ∨ ∃ i, AddsTo k (finalOps cfg c.shared (c.threads i).frame)) ↔
      P' ∨ ∃ i, AddsTo k (finalOps cfg (systemNext cfg c x).shared
        ((systemNext cfg c x).threads i).frame) :=
  Interleave.exists_threads_next Prod.fst (fun x => Thread.step cfg x.2)
    (Q := fun s t => AddsTo k (finalOps cfg s t.frame)) hown
    fun i hi => Iff.of_eq (congrArg (AddsTo k) (hops i hi))

end Operations

/-- **A step of a handler under way** changes nothing about `M`. -/
theorem moved (h : Linearized cfg c M) (hnull : c.shared.allocs.get 0 = none) {x : ι × ε}
    {f : Frame ε} {events : List Event} (ht : c.threads x.1 = ⟨some f, events⟩)
    (hsep : MovesApart c f x.2) : Linearized cfg (systemNext cfg c x) M := by
  obtain ⟨hdel, htakes⟩ := hsep
  obtain ⟨hf, hvalid⟩ := h.frames x.1 f (by rw [ht]; rfl)
  obtain ⟨hshared, hself⟩ := systemNext_moved cfg ht
  have hmove : FrameMove cfg x.2 c.shared f (systemNext cfg c x).shared
      (f.step cfg x.2 c.shared).2 := hshared ▸ frame_step_move cfg x.2 c.shared f
  generalize (f.step cfg x.2 c.shared).2 = f' at hself hmove
  have hstat : f.position.StatisticsOk c.shared.combinedAllocs := by
    unfold Position.StatisticsOk
    split
    case h_1 pc hpos =>
      simp only [hpos, Position.Valid, Position.DelPresent] at hvalid hdel
      exact ⟨hvalid, hdel, fun k sz hpc => h.hasRoom (i := x.1) (by rw [ht]; rfl) (hpc ▸ hpos)⟩
    case h_2 => trivial
  have hcarries := hmove.carries hf hstat (fun map hmap => (htakes map hmap).1) hnull
  have hnext : ∀ g ∈ f', g.WellFormed ∧ g.env = f.env := by
    intro g hg
    obtain rfl : f' = some g := hg
    exact hmove.wellFormed hf
  -- the other handlers do not notice
  have hspared : ∀ i, i ≠ x.1 → ∀ g ∈ (c.threads i).frame,
      Spared cfg c.shared (systemNext cfg c x).shared g := by
    intro i hi g hg
    have hframe : (c.threads x.1).frame = some f := by rw [ht]
    refine hcarries.spared hmove (fun hpid => hi ?_) (fun a ha haf => hi ?_) fun map hmap =>
      (htakes map hmap).2 i g hg
    · exact h.pidsApart i x.1 f.env.pid ⟨g, hg, hpid.symm⟩ ⟨f, hframe, rfl⟩
    · exact h.recordsApart i x.1 a ⟨g, hg, ha⟩ ⟨f, hframe, haf⟩
  have hframe' : ((systemNext cfg c x).threads x.1).frame = f' := by rw [hself]
  have hframe : (c.threads x.1).frame = some f := by rw [ht]
  have hsizes : Advances (sizesCells cfg) c.shared (c.threads x.1) (systemNext cfg c x).shared
      ((systemNext cfg c x).threads x.1) := by
    rw [ht, hself]
    exact hcarries.advances_sizes fun g hg => (hnext g hg).2
  have hmemptrs : Advances (memptrsCells cfg) c.shared (c.threads x.1)
      (systemNext cfg c x).shared ((systemNext cfg c x).threads x.1) := by
    rw [ht, hself]
    exact hcarries.advances_memptrs fun g hg => (hnext g hg).2
  have hallocs : Advances (allocsCells cfg) c.shared (c.threads x.1) (systemNext cfg c x).shared
      ((systemNext cfg c x).threads x.1) := by
    rw [ht, hself]
    exact hcarries.advances_allocs
  have hops : ∀ i, i ≠ x.1 → finalOps cfg (systemNext cfg c x).shared (c.threads i).frame =
      finalOps cfg c.shared (c.threads i).frame := by
    intro i hi
    cases hg : (c.threads i).frame with
    | none => rfl
    | some g => exact (hspared i hi g hg).final.ops
  constructor
  · intro i g hg
    by_cases hi : i = x.1
    · subst hi
      rw [hframe'] at hg
      exact ⟨(hnext g hg).1, hmove.valid hvalid hdel g hg⟩
    · rw [systemNext_threads_of_ne hi] at hg
      exact ⟨(h.frames i g hg).1, (h.frames i g hg).2.mono hcarries.balanced.grows⟩
  · exact Interleave.exclusive_next h.pidsApart hsizes fun i hi => spares_sizes (hspared i hi)
  · exact Interleave.exclusive_next h.recordsApart hallocs fun i hi => spares_allocs (hspared i hi)
  · exact Interleave.shows_next h.sizes hsizes fun i hi => spares_sizes (hspared i hi)
  · exact Interleave.shows_next h.memptrs hmemptrs fun i hi => spares_memptrs (hspared i hi)
  · exact Interleave.shows_next h.allocs hallocs fun i hi => spares_allocs (hspared i hi)
  · intro k
    have hown : opsDelta k (finalOps cfg c.shared (c.threads x.1).frame) +
          c.shared.combinedAllocs.word k =
        opsDelta k (finalOps cfg (systemNext cfg c x).shared
          ((systemNext cfg c x).threads x.1).frame) +
          (systemNext cfg c x).shared.combinedAllocs.word k := by
      rw [add_comm, hframe, add_comm _ (CombinedAllocs.word _ k)]
      exact (hcarries.balanced.word k).trans (by rw [← hframe'])
    rw [h.word k, add_comm, sum_opsDelta_next hops hown, add_comm]
  · intro k
    refine (h.mem k).trans (exists_addsTo_next hops ?_)
    rw [hframe]
    refine (hcarries.balanced.mem k).trans ?_
    rw [← hframe']

/-- **The start of a handler** runs it whole on the side of `M`. -/
theorem started (h : Linearized cfg c M) (hfull : M.NotFull) (hcovered : Covered M)
    (hnull : (0 : U64) ∉ M.allocs) {x : ι × ε} {ev : Event} {events : List Event}
    (ht : c.threads x.1 = ⟨none, ev :: events⟩) (hsep : StartsApart cfg c ev) :
    Linearized cfg (systemNext cfg c x) (handle cfg M ev) := by
  have hnext := systemNext_start cfg ht
  have hself : (systemNext cfg c x).threads x.1 = ⟨some (ev.frame cfg), events⟩ := by
    rw [hnext]
    exact Function.update_self ..
  have hops : ∀ i, i ≠ x.1 → finalOps cfg (systemNext cfg c x).shared (c.threads i).frame =
      finalOps cfg c.shared (c.threads i).frame := fun i _ => by rw [hnext]
  have hown : finalOps cfg (systemNext cfg c x).shared ((systemNext cfg c x).threads x.1).frame =
      ((ev.frame cfg : Frame ε).final cfg c.shared).2 := by
    rw [hself, hnext]
    rfl
  -- what the handler looks at is what `M` has there
  have hview : View.Agree ((ev.frame cfg : Frame ε).touched c.shared) (c.shared.viewOf ev.env)
      (M.viewOf ev.env) :=
    ⟨h.sizes.unowned _ fun i => hsep.sizes events i _ (foot_some.mpr rfl),
      h.memptrs.unowned _ fun i => hsep.memptrs events i _ (foot_some.mpr rfl),
      fun a ha => h.allocs.unowned a fun i =>
        hsep.allocs events i a (foot_some.mpr ha)⟩
  have houtcome : Outcome.Agree ((ev.frame cfg : Frame ε).touched c.shared)
      ((ev.frame cfg : Frame ε).final cfg c.shared)
      ((ev.frame cfg : Frame ε).effect cfg c.shared (M.viewOf ev.env)) :=
    Frame.effect_congr (fun _ => id) hview
  have hperforms := handle_performs cfg hfull hcovered hnull c.shared ev
  have helse : ∀ a, a ∉ (ev.frame cfg : Frame ε).touched c.shared →
      (handle cfg M ev).allocs.lookup a = M.allocs.lookup a := by
    intro a ha
    exact (congrFun (congrArg View.allocs hperforms.view) a).trans
      (Frame.effect_allocs cfg hview.memptr ha)
  constructor
  · intro i g hg
    by_cases hi : i = x.1
    · rw [hi, hself] at hg
      obtain rfl : ev.frame cfg = g := Option.some.inj hg
      exact ⟨wellFormed_frame cfg ev, valid_frame cfg ev⟩
    · rw [systemNext_threads_of_ne hi] at hg
      rw [hnext]
      exact h.frames i g hg
  · rw [hnext]
    exact exclusive_start h.pidsApart fun j _ => hsep.sizes events j
  · rw [hnext]
    exact exclusive_start h.recordsApart fun j _ => hsep.allocs events j
  · rw [hnext]
    refine shows_start h.sizes (by rw [ht]; exact fun _ => not_foot_none)
      (fun j _ => hsep.sizes events j) (fun k hk => ?_) fun k hk => ?_
    · obtain rfl : k = ev.env.pid := foot_some.mp hk
      exact (congrArg View.size hperforms.view).trans houtcome.view.size
    · exact lookup_sizes_handle_of_ne cfg M fun heq => hk (foot_some.mpr heq)
  · rw [hnext]
    refine shows_start h.memptrs (by rw [ht]; exact fun _ => not_foot_none)
      (fun j _ => hsep.memptrs events j) (fun k hk => ?_) fun k hk => ?_
    · obtain rfl : k = ev.env.pid64 := foot_some.mp hk
      exact (congrArg View.memptr hperforms.view).trans houtcome.view.memptr
    · exact lookup_memptrs_handle_of_ne cfg M fun heq => hk (foot_some.mpr heq)
  · rw [hnext]
    refine shows_start h.allocs (by rw [ht]; exact fun _ => not_foot_none)
      (fun j _ => hsep.allocs events j) (fun a ha => ?_)
      fun a ha => helse a fun hmem => ha (foot_some.mpr hmem)
    exact (congrFun (congrArg View.allocs hperforms.view) a).trans
      (houtcome.view.allocs a (foot_some.mp ha))
  · intro k
    have hword := hperforms.balanced.word k
    rw [houtcome.ops, opsDelta_nil, add_zero] at hword
    have hsum : opsDelta k (finalOps cfg c.shared (c.threads x.1).frame) +
          opsDelta k ((ev.frame cfg : Frame ε).final cfg c.shared).2 =
        opsDelta k (finalOps cfg (systemNext cfg c x).shared
          ((systemNext cfg c x).threads x.1).frame) + 0 := by
      rw [ht, add_zero]
      exact (zero_add _).trans (congrArg _ hown.symm)
    rw [← hword, h.word k, add_assoc, sum_opsDelta_next hops hsum, add_zero, hnext]
  · intro k
    have hmem := hperforms.balanced.mem k
    rw [houtcome.ops] at hmem
    have hboth : ((k ∈ c.shared.combinedAllocs ∨
          AddsTo k ((ev.frame cfg : Frame ε).final cfg c.shared).2) ∨
          ∃ i, AddsTo k (finalOps cfg c.shared (c.threads i).frame)) ↔
        (k ∈ c.shared.combinedAllocs ∨ ∃ i, AddsTo k (finalOps cfg (systemNext cfg c x).shared
          ((systemNext cfg c x).threads i).frame)) := by
      refine exists_addsTo_next hops ?_
      rw [ht]
      exact (or_iff_left (not_addsTo_nil k)).trans (or_congr_right (by rw [← hown]))
    have hafter : k ∈ (handle cfg M ev).combinedAllocs ↔ k ∈ M.combinedAllocs ∨
        AddsTo k ((ev.frame cfg : Frame ε).final cfg c.shared).2 := by
      rw [hmem]
      exact (or_iff_left (not_addsTo_nil k)).symm
    rw [hafter, h.mem k, or_right_comm, hboth, hnext]

end Linearized

/-! ### Runs -/

section Runs

variable [DecidableEq ε] [DecidableEq ι]

/-- The handler a step starts. -/
def startedBy (c : System n ε ι) (x : ι × ε) : Option (ι × Event) :=
  match c.threads x.1 with
  | ⟨none, ev :: _⟩ => some (x.1, ev)
  | _ => none

/-- The handlers a run starts, in order. -/
def startedFrom (cfg : Config) : System n ε ι → List (ι × ε) → List (ι × Event)
  | _, [] => []
  | c, x :: sched => (startedBy c x).toList ++ startedFrom cfg (systemNext cfg c x) sched

/-- The handlers that have started after a schedule, in the order in which they did. -/
def started (n : Nat) (cfg : Config) (events : ι → List Event) (sched : List (ι × ε)) :
    List (ι × Event) := startedFrom cfg (systemStart events : System n ε ι) sched

theorem startedFrom_append (cfg : Config) (c : System n ε ι) (sched sched' : List (ι × ε)) :
    startedFrom cfg c (sched ++ sched') =
      startedFrom cfg c sched ++ startedFrom cfg (sched.foldl (systemNext cfg) c) sched' := by
  induction sched generalizing c with
  | nil => rfl
  | cons x sched ih => simp [startedFrom, ih]

theorem started_concat (cfg : Config) (events : ι → List Event) (sched : List (ι × ε))
    (x : ι × ε) : started n cfg events (sched ++ [x]) = started n cfg events sched ++
      (startedBy (systemRun cfg events sched : System n ε ι) x).toList := by
  simp [started, startedFrom_append, startedFrom, systemRun]

omit [DecidableEq ε] [DecidableEq ι] in
theorem startedBy_fst {c : System n ε ι} {x : ι × ε} {p : ι × Event}
    (h : startedBy c x = some p) : p.1 = x.1 := by
  unfold startedBy at h
  split at h
  case h_1 => exact (congrArg Prod.fst (Option.some.inj h)).symm
  case h_2 => cases h

/-- The handler a step starts comes off the events of the thread. -/
theorem startedBy_thread (cfg : Config) (c : System n ε ι) (x : ι × ε) (i : ι) :
    ((startedBy c x).toList.filter fun p => p.1 = i).map Prod.snd ++
      ((systemNext cfg c x).threads i).events = (c.threads i).events := by
  by_cases hi : i = x.1
  · subst hi
    have hself : (systemNext cfg c x).threads x.1 =
        (Thread.step cfg x.2 c.shared (c.threads x.1)).2 := Interleave.next_threads_self ..
    rw [hself, startedBy]
    rcases c.threads x.1 with ⟨_ | f, _ | ⟨ev, events⟩⟩ <;> simp [Thread.step]
  · have hnone : ((startedBy c x).toList.filter fun p => p.1 = i) = [] := by
      refine List.filter_eq_nil_iff.mpr fun p hp => ?_
      rw [startedBy_fst (Option.mem_toList.mp hp)]
      simpa using Ne.symm hi
    rw [hnone, systemNext_threads_of_ne hi]
    rfl

/-- A thread starts its events in their order. -/
theorem started_thread (cfg : Config) (events : ι → List Event) (sched : List (ι × ε)) (i : ι) :
    ((started n cfg events sched).filter fun p => p.1 = i).map Prod.snd ++
      ((systemRun cfg events sched : System n ε ι).threads i).events = events i := by
  induction sched using List.reverseRecOn with
  | nil => rfl
  | append_singleton sched x ih =>
      rw [started_concat, systemRun_concat, List.filter_append, List.map_append,
        List.append_assoc, startedBy_thread, ih]

variable [Fintype ι] {cfg : Config} {events : ι → List Event} {sched : List (ι × ε)}

omit [DecidableEq ε] [DecidableEq ι] in
theorem linearized_start : Linearized cfg (systemStart events : System cap.combinedAllocs ε ι)
    Maps.empty where
  frames _ _ hf := nomatch hf
  pidsApart _ _ _ hi := absurd hi not_foot_none
  recordsApart _ _ _ hi := absurd hi not_foot_none
  sizes := ⟨fun _ _ hi => absurd hi not_foot_none, fun _ _ => rfl⟩
  memptrs := ⟨fun _ _ hi => absurd hi not_foot_none, fun _ _ => rfl⟩
  allocs := ⟨fun _ _ hi => absurd hi not_foot_none, fun _ _ => rfl⟩
  word k := by simp [systemStart, finalOps, Maps.empty]
  mem k := by simp [systemStart, finalOps, Maps.empty]

/-- **A step keeps the invariant**, with the handler it may start run on the side of `M`. -/
theorem Linearized.next {c : System cap.combinedAllocs ε ι} {M : Maps cap}
    (h : Linearized cfg c M) (hnull : c.shared.allocs.get 0 = none) (hM : Reachable cfg M)
    {x : ι × ε} (hsep : Separate cfg c x)
    (hfull : ∀ p ∈ startedBy c x, M.NotFull) :
    Linearized cfg (systemNext cfg c x)
      (run cfg M ((startedBy c x).toList.map Prod.snd)) := by
  rcases ht : c.threads x.1 with ⟨_ | f, _ | ⟨ev, rest⟩⟩
  case none.nil =>
    have hsame : systemNext cfg c x = c := by
      unfold systemNext Interleave.next
      simp only [ht, Thread.step]
      rw [← ht, Function.update_eq_self]
    rw [hsame]
    simpa [startedBy, ht, run] using h
  case none.cons =>
    rw [Separate, ht] at hsep
    simp only [startedBy, ht] at hfull ⊢
    have hM' : M.NotFull := hfull _ rfl
    exact h.started hM' (hM.covered hM'.2.2.1) hM.zero_not_mem ht hsep
  case some.nil =>
    rw [Separate, ht] at hsep
    simpa [startedBy, ht, run] using h.moved hnull ht hsep
  case some.cons =>
    rw [Separate, ht] at hsep
    simpa [startedBy, ht, run] using h.moved hnull ht hsep

/-- **Every reachable state is linearized** by the handlers started so far. -/
theorem linearized_systemRun
    (hsep : Run.Along (systemNext cfg) (Separate cfg)
      (systemStart events : System cap.combinedAllocs ε ι) sched)
    (hroom : Run.Along (handle cfg) (fun m _ => m.NotFull) (Maps.empty : Maps cap)
      ((started cap.combinedAllocs cfg events sched).map Prod.snd)) :
    Linearized cfg (systemRun cfg events sched)
      (run cfg (Maps.empty : Maps cap)
        ((started cap.combinedAllocs cfg events sched).map Prod.snd)) := by
  induction sched using List.reverseRecOn with
  | nil => exact linearized_start
  | append_singleton sched x ih =>
      rw [started_concat, List.map_append] at hroom ⊢
      obtain ⟨hbefore, hlast⟩ := (Run.along_append _ _ _).mp hroom
      obtain ⟨hsched, hx, -⟩ := (Run.along_append _ _ _).mp hsep
      have hnull : (systemRun cfg events sched :
          System cap.combinedAllocs ε ι).shared.allocs.get 0 = none := by
        refine Option.eq_none_iff_forall_ne_some.mpr fun info hinfo => ?_
        exact ((filtered_systemRun cfg events sched).shared.allocs 0 info hinfo).2 rfl
      have hstep := (ih hsched hbefore).next hnull ⟨_, rfl⟩ hx fun p hp => by
        rw [Option.mem_def.mp hp] at hlast
        exact hlast.1
      rw [systemRun_concat]
      unfold run at hstep ⊢
      rwa [List.foldl_append]

/-- **Interleaved handlers are atomic.** Along a schedule that keeps the handlers apart and
on maps with room, every thread starts its events in order; a record that no handler under
way touches is the one the started handlers leave when run whole, one after the other, in
the order in which they started; and when no handler is under way, all maps are. -/
theorem interleaved_handlers_are_atomic
    (hsep : Run.Along (systemNext cfg) (Separate cfg)
      (systemStart events : System cap.combinedAllocs ε ι) sched)
    (hroom : Run.Along (handle cfg) (fun m _ => m.NotFull) (Maps.empty : Maps cap)
      ((started cap.combinedAllocs cfg events sched).map Prod.snd)) :
    let c : System cap.combinedAllocs ε ι := systemRun cfg events sched
    let done := started cap.combinedAllocs cfg events sched
    let M : Maps cap := run cfg .empty (done.map Prod.snd)
    (∀ i, (done.filter fun p => p.1 = i).map Prod.snd ++ (c.threads i).events = events i) ∧
      (∀ a, (∀ i, ∀ f ∈ (c.threads i).frame, a ∉ f.touched c.shared) →
        c.shared.allocs.get a = M.allocs.lookup a) ∧
      ((∀ i, (c.threads i).frame = none) → RepresentsAll c.shared M) := by
  intro c done M
  have h : Linearized cfg c M := linearized_systemRun hsep hroom
  refine ⟨started_thread cfg events sched, fun a ha => ?_, fun hquiet => ?_⟩
  · refine (h.allocs.unowned a ?_).symm
    rintro i ⟨f, hf, hfa⟩
    exact ha i f hf hfa
  · have hnobody : ∀ {i : ι} {f : Frame ε}, f ∉ (c.threads i).frame := fun {i} f hf => by
      rw [hquiet i] at hf
      cases hf
    have hops : ∀ i, finalOps cfg c.shared (c.threads i).frame = [] := fun i => by
      rw [hquiet i]
      rfl
    refine ⟨⟨fun pid => ?_, fun a => ?_, ?_⟩, fun k => ?_⟩
    · exact (h.sizes.unowned pid fun i ⟨f, hf, _⟩ => hnobody hf).symm
    · exact (h.allocs.unowned a fun i ⟨f, hf, _⟩ => hnobody hf).symm
    · refine CombinedAllocs.ext_word (fun k => ?_) fun k => ?_
      · simpa [hops] using (h.mem k).symm
      · simpa [hops] using (h.word k).symm
    · exact (h.memptrs.unowned k fun i ⟨f, hf, _⟩ => hnobody hf).symm

end Runs

/-- Two processes that allocate at once, on one stack; the second then frees the block of the
first. -/
def twoProcesses : Fin 2 → List Event
  | 0 => [⟨.quiet 0x100000001 3, .mallocEnter 100⟩, ⟨.quiet 0x100000001 3, .mallocExit 0x1000⟩]
  | 1 => [⟨.quiet 0x200000002 3, .mallocEnter 50⟩, ⟨.quiet 0x200000002 3, .mallocExit 0x2000⟩,
      ⟨.quiet 0x200000002 3, .freeEnter 0x1000⟩]

/-- Their steps alternate; both find no entry for the stack, and both insert one. -/
def alternating : List (Fin 2 × Fin 2) :=
  (List.replicate 16 [(0, 0), (1, 1)]).flatten ++ List.replicate 12 (1, 1)

theorem interleaved_handlers_are_atomic_alternating :
    RepresentsAll (systemRun {} twoProcesses alternating :
        System Capacities.source.combinedAllocs (Fin 2) (Fin 2)).shared
      (run {} (Maps.empty : Maps .source) [⟨.quiet 0x100000001 3, .mallocEnter 100⟩,
        ⟨.quiet 0x200000002 3, .mallocEnter 50⟩, ⟨.quiet 0x100000001 3, .mallocExit 0x1000⟩,
        ⟨.quiet 0x200000002 3, .mallocExit 0x2000⟩,
        ⟨.quiet 0x200000002 3, .freeEnter 0x1000⟩]) := by
  have hatomic := @interleaved_handlers_are_atomic (Fin 2) (Fin 2) .source _ _ _ {} twoProcesses
    alternating (by decide +kernel) (by decide +kernel)
  exact hatomic.2.2 (by decide +kernel)

end EbpfMemleak
