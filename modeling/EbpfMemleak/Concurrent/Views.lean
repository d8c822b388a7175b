import EbpfMemleak.Concurrent.Frees
import EbpfMemleak.Concurrent.Programs
import EbpfMemleak.Effects

/-!
# EbpfMemleak.Concurrent.Views

**What a handler in flight still has to do.** A handler works on its own entry of `sizes`,
its own entry of `memptrs` and some records of `allocs`: its `View` of the maps. What it does
to them from some position on is told without its steps: `Frame.effect` gives the view the
handler leaves, and the updates of the statistics it still makes.

A position may hold a pointer into a map. Its `Rest` is the position with the pointer read
now, so an effect is a function of the view alone (`Rest.effect`), it looks at no record but
those it touches (`Rest.effect_congr`), and it leaves the other records alone
(`Rest.effect_allocs`).

Starting from the maps without elements, the effect of a whole handler is what `handle` does
(`view_handle`, `balanced_handle`).
-/

namespace EbpfMemleak

variable {n : Nat} {ε : Type} {cap : Capacities}

/-! ### Views -/

/-- The part of the maps a handler works on. -/
@[ext] structure View where
  /-- The pending size of the process. -/
  size : Option U64
  /-- The pointer its `posix_memalign` call has left. -/
  memptr : Option U64
  /-- The records. -/
  allocs : U64 → Option AllocInfo

/-- What a process sees of the maps. -/
def Maps.viewOf (env : Env) (m : Maps cap) : View where
  size := m.sizes.lookup env.pid
  memptr := m.memptrs.lookup env.pid64
  allocs address := m.allocs.lookup address

/-- What a process sees of the maps with elements. -/
def SharedMaps.viewOf (env : Env) (s : SharedMaps n ε) : View where
  size := s.sizes.get env.pid
  memptr := s.memptrs.get env.pid64
  allocs := s.allocs.get

/-- A view afterwards, and the updates of the statistics to make. -/
abbrev Outcome := View × List StatOp

/-- One thing after the other. -/
def Outcome.andThen (o : Outcome) (next : View → Outcome) : Outcome :=
  ((next o.1).1, o.2 ++ (next o.1).2)

namespace View

/-- `gen_alloc_enter`. -/
def enter (cfg : Config) (env : Env) (size : U64) (v : View) : Outcome :=
  (if Accepted cfg env size then { v with size := some size } else v, [])

/-- A record is stored and counted. -/
def record (address : U64) (info : AllocInfo) (v : View) : Outcome :=
  ({ v with allocs := Function.update v.allocs address (some info) },
    [.add info.stackKey info.size])

/-- `gen_alloc_exit2`, with the pending size known. -/
def store (env : Env) (address size : U64) (v : View) : Outcome :=
  if address = 0 then ({ v with size := none }, [])
  else record address ⟨size, env.ktimeExit, env.stackId⟩ { v with size := none }

/-- `gen_alloc_exit2`. -/
def exit (env : Env) (address : U64) (v : View) : Outcome :=
  match v.size with
  | none => (v, [])
  | some size => store env address size v

/-- A record is deleted and discounted. -/
def forget (address : U64) (info : AllocInfo) (v : View) : Outcome :=
  ({ v with allocs := Function.update v.allocs address none }, [.del info.stackKey info.size])

/-- `gen_free_enter`. No block has address zero. -/
def free (address : U64) (v : View) : Outcome :=
  if address = 0 then (v, [])
  else
    match v.allocs address with
    | none => (v, [])
    | some info => forget address info v

/-- The end of `posix_memalign_exit`, with the pointer known. -/
def readUser (env : Env) (memptr64 : U64) (v : View) : Outcome :=
  match env.probeReadUser memptr64 with
  | none => (v, [])
  | some address => exit env address v

end View

/-- What a routine does. -/
def Routine.effect (cfg : Config) : Routine → View → Outcome
  | .enter env size, v => v.enter cfg env size
  | .exit env address, v => v.exit env address
  | .free address, v => v.free address

/-- What routines do one after the other. -/
def routinesEffect (cfg : Config) : List Routine → View → Outcome
  | [], v => (v, [])
  | routine :: calls, v => (routine.effect cfg v).andThen (routinesEffect cfg calls)

theorem routinesEffect_append (cfg : Config) (calls calls' : List Routine) (v : View) :
    routinesEffect cfg (calls ++ calls') v =
      (routinesEffect cfg calls v).andThen (routinesEffect cfg calls') := by
  induction calls generalizing v with
  | nil => rfl
  | cons routine calls ih =>
      simp only [List.cons_append, routinesEffect, Outcome.andThen, ih, List.append_assoc]

/-- A position with its pointer read. -/
inductive Rest
  | done
  | enter (size : U64)
  | exit (env : Env) (address : U64)
  | store (env : Env) (address size : U64)
  | record (address : U64) (info : AllocInfo)
  | free (address : U64)
  | forget (address : U64) (info : AllocInfo)
  | count (op : StatOp)
  | setMemptr (memptr64 : U64)
  | takeMemptr
  | dropMemptr (memptr64 : U64)
  | readMemptr (memptr64 : U64)

/-- What is left of a routine. -/
def Pc.rest (s : Shared n ε) : Pc ε → Rest
  | .idle => .done
  | .enterUpdate _ size => .enter size
  | .exitLookup env address => .exit env address
  | .exitReadSize env address size => .store env address (s.sizes.value size)
  | .exitDelete env address size => .store env address size
  | .exitUpdate address info => .record address info
  | .freeLookup address => .free address
  | .freeDelete address info => .forget address (s.allocs.value info)
  | .freeReadStackId info =>
      .count (.del (s.allocs.value info).stackKey (s.allocs.value info).size)
  | .freeReadSize info stackId =>
      .count (.del (stackId.signExtend 64) (s.allocs.value info).size)
  | .statistics pc => if pc.Finished then .done else .count pc.op

/-- What is left of the current part of a handler. -/
def Position.rest (s : SharedMaps n ε) : Position ε → Rest
  | .routine pc => pc.rest s.toShared
  | .memptrsUpdate memptr64 => .setMemptr memptr64
  | .memptrsLookup => .takeMemptr
  | .memptrsDelete memptr64 => .dropMemptr (s.memptrs.value memptr64)
  | .memptrsRead memptr64 => .readMemptr (s.memptrs.value memptr64)

/-- What the rest does. -/
def Rest.effect (env : Env) : Rest → View → Outcome
  | .done, v => (v, [])
  | .enter size, v => ({ v with size := some size }, [])
  | .exit env' address, v => v.exit env' address
  | .store env' address size, v => v.store env' address size
  | .record address info, v => v.record address info
  | .free address, v => v.free address
  | .forget address info, v => v.forget address info
  | .count op, v => (v, [op])
  | .setMemptr memptr64, v => ({ v with memptr := some memptr64 }, [])
  | .takeMemptr, v =>
      match v.memptr with
      | none => (v, [])
      | some memptr64 => View.readUser env memptr64 { v with memptr := none }
  | .dropMemptr memptr64, v => View.readUser env memptr64 { v with memptr := none }
  | .readMemptr memptr64, v => v.readUser env memptr64

/-- **What a handler still does** to a view and to the statistics. -/
def Frame.effect (cfg : Config) (s : SharedMaps n ε) (f : Frame ε) (v : View) : Outcome :=
  ((f.position.rest s).effect f.env v).andThen (routinesEffect cfg f.calls)

/-! ### Addresses -/

/-- An address, if it is one of a block. -/
def nonNull (address : U64) : List U64 := if address = 0 then [] else [address]

theorem mem_nonNull {address a : U64} : a ∈ nonNull address ↔ a = address ∧ address ≠ 0 := by
  unfold nonNull
  split <;> simp_all

/-- The records a routine may touch. -/
def Routine.touched : Routine → List U64
  | .enter _ _ => []
  | .exit _ address => nonNull address
  | .free address => nonNull address

/-- The record a read of user memory leads to. -/
def userTouched (env : Env) (memptr64 : Option U64) : List U64 :=
  ((memptr64.bind env.probeReadUser).map nonNull).getD []

/-- The records the rest may touch. -/
def Rest.touched (env : Env) (v : View) : Rest → List U64
  | .exit _ address | .store _ address _ | .free address => nonNull address
  | .record address _ | .forget address _ => [address]
  | .takeMemptr => userTouched env v.memptr
  | .dropMemptr memptr64 | .readMemptr memptr64 => userTouched env (some memptr64)
  | .done | .enter _ | .count _ | .setMemptr _ => []

/-- The records a handler may still touch. -/
def Frame.touched (s : SharedMaps n ε) (f : Frame ε) : List U64 :=
  (f.position.rest s).touched f.env (s.viewOf f.env) ++ f.calls.flatMap Routine.touched

/-! ### Effects look at and change only what they touch -/

/-- Two views agree up to the records outside `T`. -/
structure View.Agree (T : List U64) (v v' : View) : Prop where
  size : v'.size = v.size
  memptr : v'.memptr = v.memptr
  allocs : ∀ a ∈ T, v'.allocs a = v.allocs a

/-- Two outcomes agree up to the records outside `T`. -/
structure Outcome.Agree (T : List U64) (o o' : Outcome) : Prop where
  view : View.Agree T o.1 o'.1
  ops : o'.2 = o.2

section Effects

variable {T : List U64} {v v' : View}

theorem View.Agree.clearSize (h : View.Agree T v v') :
    View.Agree T { v with size := none } { v' with size := none } :=
  ⟨rfl, h.memptr, h.allocs⟩

theorem View.Agree.clearMemptr (h : View.Agree T v v') :
    View.Agree T { v with memptr := none } { v' with memptr := none } :=
  ⟨h.size, rfl, h.allocs⟩

theorem View.Agree.update (h : View.Agree T v v') (address : U64) (r : Option AllocInfo) :
    View.Agree T { v with allocs := Function.update v.allocs address r }
      { v' with allocs := Function.update v'.allocs address r } := by
  refine ⟨h.size, h.memptr, fun a ha => ?_⟩
  by_cases heq : a = address
  · simp [heq]
  · simp [Function.update_of_ne heq, h.allocs a ha]

theorem View.Agree.enter (h : View.Agree T v v') (cfg : Config) (env : Env) (size : U64) :
    Outcome.Agree T (v.enter cfg env size) (v'.enter cfg env size) := by
  unfold View.enter
  split
  case isTrue => exact ⟨⟨rfl, h.memptr, h.allocs⟩, rfl⟩
  case isFalse => exact ⟨h, rfl⟩

theorem View.Agree.store (h : View.Agree T v v') (env : Env) (address size : U64) :
    Outcome.Agree T (v.store env address size) (v'.store env address size) := by
  unfold View.store
  split
  case isTrue => exact ⟨h.clearSize, rfl⟩
  case isFalse => exact ⟨h.clearSize.update _ _, rfl⟩

theorem View.Agree.exit (h : View.Agree T v v') (env : Env) (address : U64) :
    Outcome.Agree T (v.exit env address) (v'.exit env address) := by
  unfold View.exit
  rw [h.size]
  cases v.size with
  | none => exact ⟨h, rfl⟩
  | some size => exact h.store env address size

theorem View.Agree.free (h : View.Agree T v v') {address : U64}
    (hT : ∀ a ∈ nonNull address, a ∈ T) :
    Outcome.Agree T (v.free address) (v'.free address) := by
  unfold View.free
  split
  case isTrue => exact ⟨h, rfl⟩
  case isFalse hne =>
    rw [h.allocs address (hT _ (mem_nonNull.mpr ⟨rfl, hne⟩))]
    cases v.allocs address with
    | none => exact ⟨h, rfl⟩
    | some info => exact ⟨h.update _ _, rfl⟩

theorem View.Agree.readUser (h : View.Agree T v v') (env : Env) (memptr64 : U64) :
    Outcome.Agree T (v.readUser env memptr64) (v'.readUser env memptr64) := by
  unfold View.readUser
  cases env.probeReadUser memptr64 with
  | none => exact ⟨h, rfl⟩
  | some address => exact h.exit env address

theorem Outcome.Agree.andThen {o o' : Outcome} (h : Outcome.Agree T o o')
    {next : View → Outcome}
    (hnext : ∀ v v', View.Agree T v v' → Outcome.Agree T (next v) (next v')) :
    Outcome.Agree T (o.andThen next) (o'.andThen next) := by
  have htail := hnext _ _ h.view
  exact ⟨htail.view, by rw [Outcome.andThen, Outcome.andThen, h.ops, htail.ops]⟩

theorem Routine.effect_congr (cfg : Config) {routine : Routine}
    (hT : ∀ a ∈ routine.touched, a ∈ T) (h : View.Agree T v v') :
    Outcome.Agree T (routine.effect cfg v) (routine.effect cfg v') := by
  cases routine with
  | enter env size => exact h.enter cfg env size
  | exit env address => exact h.exit env address
  | free address => exact h.free hT

theorem routinesEffect_congr (cfg : Config) {calls : List Routine}
    (hT : ∀ a ∈ calls.flatMap Routine.touched, a ∈ T) (h : View.Agree T v v') :
    Outcome.Agree T (routinesEffect cfg calls v) (routinesEffect cfg calls v') := by
  induction calls generalizing v v' with
  | nil => exact ⟨h, rfl⟩
  | cons routine calls ih =>
      simp only [List.flatMap_cons, List.mem_append] at hT
      exact (routine.effect_congr cfg (fun a ha => hT a (.inl ha)) h).andThen
        fun _ _ hv => ih (fun a ha => hT a (.inr ha)) hv

/-- What the rest does is decided by the records it touches. -/
theorem Rest.effect_congr (env : Env) {rest : Rest} (hT : ∀ a ∈ rest.touched env v, a ∈ T)
    (h : View.Agree T v v') : Outcome.Agree T (rest.effect env v) (rest.effect env v') := by
  cases rest with
  | done => exact ⟨h, rfl⟩
  | enter size => exact ⟨⟨rfl, h.memptr, h.allocs⟩, rfl⟩
  | exit env' address => exact h.exit env' address
  | store env' address size => exact h.store env' address size
  | record address info => exact ⟨h.update _ _, rfl⟩
  | free address => exact h.free hT
  | forget address info => exact ⟨h.update _ _, rfl⟩
  | count op => exact ⟨h, rfl⟩
  | setMemptr memptr64 => exact ⟨⟨h.size, rfl, h.allocs⟩, rfl⟩
  | takeMemptr =>
      simp only [effect, h.memptr]
      cases v.memptr with
      | none => exact ⟨h, rfl⟩
      | some memptr64 => exact h.clearMemptr.readUser env memptr64
  | dropMemptr memptr64 => exact h.clearMemptr.readUser env memptr64
  | readMemptr memptr64 => exact h.readUser env memptr64

end Effects

section Frames

variable {v : View} {a : U64}

theorem View.store_allocs {env : Env} {address size : U64} (h : a ∉ nonNull address) :
    (v.store env address size).1.allocs a = v.allocs a := by
  unfold View.store
  split
  case isTrue => rfl
  case isFalse hne =>
    exact Function.update_of_ne (fun heq => h (mem_nonNull.mpr ⟨heq, hne⟩)) ..

theorem View.exit_allocs {env : Env} {address : U64} (h : a ∉ nonNull address) :
    (v.exit env address).1.allocs a = v.allocs a := by
  unfold View.exit
  cases v.size with
  | none => rfl
  | some size => exact View.store_allocs h

theorem View.free_allocs {address : U64} (h : a ∉ nonNull address) :
    (v.free address).1.allocs a = v.allocs a := by
  unfold View.free
  split
  case isTrue => rfl
  case isFalse hne =>
    cases v.allocs address with
    | none => rfl
    | some info => exact Function.update_of_ne (fun heq => h (mem_nonNull.mpr ⟨heq, hne⟩)) ..

theorem View.readUser_allocs {env : Env} {memptr64 : U64}
    (h : a ∉ userTouched env (some memptr64)) :
    (v.readUser env memptr64).1.allocs a = v.allocs a := by
  unfold userTouched at h
  unfold View.readUser
  cases haddr : env.probeReadUser memptr64 with
  | none => rfl
  | some address => exact View.exit_allocs (by simpa [haddr] using h)

theorem Routine.effect_allocs (cfg : Config) {routine : Routine} (h : a ∉ routine.touched) :
    (routine.effect cfg v).1.allocs a = v.allocs a := by
  cases routine with
  | enter env size =>
      show (v.enter cfg env size).1.allocs a = _
      unfold View.enter
      split <;> rfl
  | exit env address => exact View.exit_allocs h
  | free address => exact View.free_allocs h

theorem routinesEffect_allocs (cfg : Config) {calls : List Routine}
    (h : a ∉ calls.flatMap Routine.touched) :
    (routinesEffect cfg calls v).1.allocs a = v.allocs a := by
  induction calls generalizing v with
  | nil => rfl
  | cons routine calls ih =>
      simp only [List.flatMap_cons, List.mem_append, not_or] at h
      exact (ih h.2).trans (routine.effect_allocs cfg h.1)

/-- The rest leaves the records it does not touch as they are. -/
theorem Rest.effect_allocs (env : Env) {rest : Rest} (h : a ∉ rest.touched env v) :
    (rest.effect env v).1.allocs a = v.allocs a := by
  cases rest with
  | exit env' address => exact View.exit_allocs h
  | store env' address size => exact View.store_allocs h
  | record address info => exact Function.update_of_ne (fun heq => h (by simp [heq, touched])) ..
  | free address => exact View.free_allocs h
  | forget address info => exact Function.update_of_ne (fun heq => h (by simp [heq, touched])) ..
  | takeMemptr =>
      simp only [effect, touched] at h ⊢
      cases hm : v.memptr with
      | none => rfl
      | some memptr64 => exact View.readUser_allocs (hm ▸ h)
  | dropMemptr memptr64 => exact View.readUser_allocs h
  | readMemptr memptr64 => exact View.readUser_allocs h
  | _ => rfl

theorem Rest.touched_congr (env : Env) (rest : Rest) {v' : View} (h : v'.memptr = v.memptr) :
    rest.touched env v' = rest.touched env v := by
  cases rest <;> simp [Rest.touched, h]

/-- So does a handler. -/
theorem Frame.effect_allocs (cfg : Config) {s : SharedMaps n ε} {f : Frame ε}
    (hv : v.memptr = (s.viewOf f.env).memptr) (h : a ∉ f.touched s) :
    (f.effect cfg s v).1.allocs a = v.allocs a := by
  simp only [Frame.touched, List.mem_append, not_or] at h
  exact (routinesEffect_allocs cfg h.2).trans
    (Rest.effect_allocs f.env (Rest.touched_congr f.env _ hv ▸ h.1))

end Frames

/-! ### The statistics -/

/-- What an update moves the word of stack `k` by. -/
def StatOp.delta (k : U64) : StatOp → U64
  | .add k' sz => if k' = k then contribution sz else 0
  | .del k' sz => if k' = k then -contribution sz else 0

/-- What updates move the word of stack `k` by. -/
def opsDelta (k : U64) (ops : List StatOp) : U64 := (ops.map (StatOp.delta k)).sum

@[simp] theorem opsDelta_nil (k : U64) : opsDelta k [] = 0 := rfl

@[simp] theorem opsDelta_append (k : U64) (ops ops' : List StatOp) :
    opsDelta k (ops ++ ops') = opsDelta k ops + opsDelta k ops' := by
  simp [opsDelta]

@[simp] theorem opsDelta_singleton (k : U64) (op : StatOp) : opsDelta k [op] = op.delta k := by
  simp [opsDelta]

/-- An addition to stack `k` is among the updates. -/
def AddsTo (k : U64) (ops : List StatOp) : Prop := ∃ sz, StatOp.add k sz ∈ ops

@[simp] theorem not_addsTo_nil (k : U64) : ¬ AddsTo k [] := fun ⟨_, h⟩ => nomatch h

@[simp] theorem addsTo_add_iff {k k' sz : U64} : AddsTo k [.add k' sz] ↔ k = k' := by
  simp [AddsTo]

@[simp] theorem not_addsTo_del (k k' sz : U64) : ¬ AddsTo k [.del k' sz] := by
  simp [AddsTo]

@[simp] theorem addsTo_append {k : U64} {ops ops' : List StatOp} :
    AddsTo k (ops ++ ops') ↔ AddsTo k ops ∨ AddsTo k ops' := by
  simp only [AddsTo, List.mem_append, exists_or]

/-- With the updates `ops` still to make the one map is as good as the other with `ops'`. -/
structure Balanced (c : CombinedAllocs n) (ops : List StatOp) (c' : CombinedAllocs n)
    (ops' : List StatOp) : Prop where
  word : ∀ k, c.word k + opsDelta k ops = c'.word k + opsDelta k ops'
  mem : ∀ k, (k ∈ c ∨ AddsTo k ops) ↔ (k ∈ c' ∨ AddsTo k ops')
  grows : ∀ k, k ∈ c → k ∈ c'

namespace Balanced

variable {c c' c'' : CombinedAllocs n} {ops ops' ops'' : List StatOp}

theorem refl (c : CombinedAllocs n) (ops : List StatOp) : Balanced c ops c ops :=
  ⟨fun _ => rfl, fun _ => Iff.rfl, fun _ => id⟩

theorem trans (h : Balanced c ops c' ops') (h' : Balanced c' ops' c'' ops'') :
    Balanced c ops c'' ops'' :=
  ⟨fun k => (h.word k).trans (h'.word k), fun k => (h.mem k).trans (h'.mem k),
    fun k hk => h'.grows k (h.grows k hk)⟩

theorem append (h : Balanced c ops c' ops') (rest : List StatOp) :
    Balanced c (ops ++ rest) c' (ops' ++ rest) := by
  refine ⟨fun k => ?_, fun k => ?_, h.grows⟩
  · rw [opsDelta_append, opsDelta_append, ← add_assoc, ← add_assoc, h.word k]
  · rw [addsTo_append, addsTo_append, ← or_assoc, ← or_assoc, h.mem k]

/-- `update_statistics_add`, where it finds room. -/
theorem add {k sz : U64} (hroom : c.HasRoom k) :
    Balanced c [.add k sz] (updateStatisticsAdd k sz c) [] := by
  refine ⟨fun k' => ?_, fun k' => ?_, fun k' => mem_updateStatisticsAdd_of_mem⟩
  · rw [word_updateStatisticsAdd hroom, opsDelta_singleton, opsDelta_nil, add_zero,
      StatOp.delta]
    by_cases hk : k' = k
    · simp [hk]
    · simp [hk, Ne.symm hk]
  · rw [mem_updateStatisticsAdd hroom]
    simp [or_comm]

/-- `update_statistics_del`, where it finds its entry. -/
theorem del {k sz : U64} (hk : k ∈ c) :
    Balanced c [.del k sz] (updateStatisticsDel k sz c) [] := by
  refine ⟨fun k' => ?_, fun k' => ?_, fun k' => mem_updateStatisticsDel.mpr⟩
  · rw [word_updateStatisticsDel hk, opsDelta_singleton, opsDelta_nil, add_zero, StatOp.delta]
    by_cases hk' : k' = k
    · rw [if_pos hk', if_pos hk'.symm, hk', sub_eq_add_neg]
    · rw [if_neg hk', if_neg (Ne.symm hk'), add_zero]
  · simp

end Balanced

/-! ### The atomic handlers -/

/-- The one state comes from the other with this outcome for the process. -/
structure Performs (env : Env) (m : Maps cap) (o : Outcome) (m' : Maps cap) : Prop where
  view : m'.viewOf env = o.1
  balanced : Balanced m.combinedAllocs o.2 m'.combinedAllocs []

theorem Performs.andThen {env : Env} {m m₁ m₂ : Maps cap} {o : Outcome} {next : View → Outcome}
    (h : Performs env m o m₁) (hnext : Performs env m₁ (next (m₁.viewOf env)) m₂) :
    Performs env m (o.andThen next) m₂ := by
  rw [h.view] at hnext
  exact ⟨hnext.view, (h.balanced.append (next o.1).2).trans hnext.balanced⟩

theorem Performs.refl (env : Env) (m : Maps cap) : Performs env m (m.viewOf env, []) m :=
  ⟨rfl, .refl _ _⟩

theorem genFreeEnter_performs (env : Env) (address : U64) {m : Maps cap} (hcovered : Covered m)
    (hnull : (0 : U64) ∉ m.allocs) :
    Performs env m ((m.viewOf env).free address) (genFreeEnter address m) := by
  unfold View.free
  split
  case isTrue hzero =>
    rw [genFreeEnter_of_none (hzero ▸ BoundedMap.lookup_eq_none.mpr hnull)]
    exact .refl env m
  case isFalse =>
    simp only [Maps.viewOf]
    cases hl : m.allocs.lookup address with
    | none =>
        rw [genFreeEnter_of_none hl]
        exact .refl env m
    | some info =>
        rw [genFreeEnter_of_some hl]
        refine ⟨?_, .del (hcovered address info hl)⟩
        ext1
        · rfl
        · rfl
        · funext a
          show (m.allocs.erase address).lookup a =
            Function.update (fun a => m.allocs.lookup a) address none a
          rw [BoundedMap.lookup_erase, Function.update_apply]

theorem genAllocEnter_performs (cfg : Config) (env : Env) (size : U64) {m : Maps cap}
    (hroom : m.sizes.HasRoom env.pid) :
    Performs env m ((m.viewOf env).enter cfg env size) (genAllocEnter cfg env size m) := by
  rw [genAllocEnter_eq]
  unfold View.enter
  split
  case isTrue =>
    refine ⟨?_, .refl _ _⟩
    ext1
    · exact (BoundedMap.lookup_put hroom size env.pid).trans (if_pos rfl)
    · rfl
    · rfl
  case isFalse => exact .refl env m

theorem genAllocExit2_performs (env : Env) (address : U64) {m : Maps cap}
    (hroom : m.allocs.HasRoom address) (hcomb : ∀ k, m.combinedAllocs.HasRoom k) :
    Performs env m ((m.viewOf env).exit env address) (genAllocExit2 env address m) := by
  have hsize : (m.viewOf env).size = m.sizes.lookup env.pid := rfl
  have herase : (m.sizes.erase env.pid).lookup env.pid = none := by
    rw [BoundedMap.lookup_erase, if_pos rfl]
  unfold View.exit
  rw [hsize]
  cases hs : m.sizes.lookup env.pid with
  | none =>
      rw [genAllocExit2_of_none (exitRecord_eq_none.mpr (.inr hs)),
        BoundedMap.erase_of_not_mem (BoundedMap.lookup_eq_none.mp hs)]
      exact .refl env m
  | some size =>
      dsimp only
      unfold View.store
      split
      case isTrue haddr =>
        rw [genAllocExit2_of_none (exitRecord_eq_none.mpr (.inl haddr))]
        exact ⟨by ext1 <;> first | exact herase | rfl, .refl _ _⟩
      case isFalse haddr =>
        have hrec : exitRecord env address m = some ⟨size, env.ktimeExit, env.stackId⟩ :=
          exitRecord_eq_some.mpr ⟨haddr, hs, rfl⟩
        rw [genAllocExit2_of_some hrec]
        refine ⟨?_, .add (hcomb _)⟩
        ext1
        · exact herase
        · rfl
        · funext a
          show (m.allocs.put address _).lookup a =
            Function.update (fun a => m.allocs.lookup a) address (some _) a
          rw [BoundedMap.lookup_put hroom, Function.update_apply]

/-! ### The phases of a handler -/

section Phases

variable (cfg : Config) (env : Env) (c : Calls) {m : Maps cap}

theorem freePhase_performs (hcovered : Covered m) (hnull : (0 : U64) ∉ m.allocs) :
    Performs env m (routinesEffect cfg (c.free.map Routine.free).toList (m.viewOf env))
      (freePhase c m) := by
  unfold freePhase
  cases c.free with
  | none => exact .refl env m
  | some address => exact (genFreeEnter_performs env address hcovered hnull).andThen (.refl env _)

theorem enterPhase_performs (hroom : m.sizes.HasRoom env.pid) :
    Performs env m (routinesEffect cfg (c.enter.map (Routine.enter env)).toList (m.viewOf env))
      (enterPhase cfg env c m) := by
  unfold enterPhase
  cases c.enter with
  | none => exact .refl env m
  | some size => exact (genAllocEnter_performs cfg env size hroom).andThen (.refl env _)

theorem exitPhase_performs (hallocs : m.allocs.size < cap.allocs)
    (hcomb : m.combinedAllocs.size < cap.combinedAllocs) :
    Performs env m (routinesEffect cfg (c.exit.map (Routine.exit env)).toList (m.viewOf env))
      (exitPhase env c m) := by
  unfold exitPhase
  cases c.exit with
  | none => exact .refl env m
  | some address =>
      exact (genAllocExit2_performs env address (.of_size_lt hallocs _)
        fun k => .of_size_lt hcomb k).andThen (.refl env _)

/-- The routine calls of a handler, atomically. -/
theorem routines_perform (hcovered : Covered m) (hnull : (0 : U64) ∉ m.allocs)
    (hsizes : m.sizes.HasRoom env.pid) (hallocs : m.allocs.size < cap.allocs)
    (hcomb : m.combinedAllocs.size < cap.combinedAllocs) :
    Performs env m (routinesEffect cfg (c.routines env) (m.viewOf env))
      (exitPhase env c (enterPhase cfg env c (freePhase c m))) := by
  have hsizes' : (freePhase c m).sizes.HasRoom env.pid := by rwa [freePhase_sizes]
  have hallocs' : (enterPhase cfg env c (freePhase c m)).allocs.size < cap.allocs := by
    rw [enterPhase_allocs, freePhase_allocs]
    cases c.free with
    | none => exact hallocs
    | some address => exact (BoundedMap.size_erase_le address m.allocs).trans_lt hallocs
  have hcomb' : (enterPhase cfg env c (freePhase c m)).combinedAllocs.size <
      cap.combinedAllocs := by
    rw [enterPhase_combinedAllocs]
    refine (BoundedMap.size_eq_of_mem_iff fun k => ?_).trans_lt hcomb
    unfold freePhase
    cases c.free with
    | none => rfl
    | some address => exact mem_genFreeEnter_combinedAllocs
  unfold Calls.routines
  rw [routinesEffect_append, routinesEffect_append]
  exact ((freePhase_performs cfg env c hcovered hnull).andThen
    (enterPhase_performs cfg env c hsizes')).andThen (exitPhase_performs cfg env c hallocs' hcomb')

end Phases

/-- **A handler, atomically, has the effect its steps have** on what its process sees and on
the statistics. -/
theorem handle_performs (cfg : Config) {m : Maps cap} (hfull : m.NotFull) (hcovered : Covered m)
    (hnull : (0 : U64) ∉ m.allocs) (s : SharedMaps n ε) (ev : Event) :
    Performs ev.env m ((ev.frame cfg).effect cfg s (m.viewOf ev.env)) (handle cfg m ev) := by
  obtain ⟨hsizes, hallocs, hcomb, hmem⟩ := hfull
  obtain ⟨env, program⟩ := ev
  cases program with
  | posixMemalignEnter memptr alignment size =>
      have hput : Performs env m ((Rest.setMemptr memptr).effect env (m.viewOf env))
          { m with memptrs := m.memptrs.put env.pid64 memptr } := by
        refine ⟨?_, .refl _ _⟩
        ext1
        · rfl
        · exact (BoundedMap.lookup_put (.of_size_lt hmem _) memptr _).trans (if_pos rfl)
        · rfl
      exact hput.andThen (routines_perform cfg env { enter := some size } hcovered hnull
        (.of_size_lt hsizes _) hallocs hcomb)
  | posixMemalignExit =>
      have hlookup : (m.viewOf env).memptr = m.memptrs.lookup env.pid64 := rfl
      show Performs env m ((Rest.takeMemptr.effect env (m.viewOf env)).andThen _)
        (posixMemalignExit env m)
      refine Performs.andThen ?_ (.refl env _)
      simp only [Rest.effect, hlookup, posixMemalignExit]
      cases hm : m.memptrs.lookup env.pid64 with
      | none => exact .refl env m
      | some memptr64 =>
          have hcleared : ({ m with memptrs := m.memptrs.erase env.pid64 } : Maps cap).viewOf env =
              { m.viewOf env with memptr := none } := by
            ext1
            · rfl
            · exact (BoundedMap.lookup_erase _ _ _).trans (if_pos rfl)
            · rfl
          simp only [View.readUser]
          cases env.probeReadUser memptr64 with
          | none => exact ⟨hcleared, .refl _ _⟩
          | some address =>
              have hexit := genAllocExit2_performs env address
                (m := { m with memptrs := m.memptrs.erase env.pid64 })
                (.of_size_lt hallocs _) fun k => .of_size_lt hcomb k
              rw [hcleared] at hexit
              exact ⟨hexit.view, hexit.balanced⟩
  | _ =>
      rw [handle_eq]
      exact (Performs.refl env m).andThen (routines_perform cfg env _ hcovered hnull
        (.of_size_lt hsizes _) hallocs hcomb)

end EbpfMemleak
