import EbpfMemleak.Effects
import Mathlib.Logic.Relation

/-!
# EbpfMemleak.Commutation

**Independent events commute.** Two events of different processes that touch different
addresses may still meet in one place: the word of a stack they share. There one adds and
the other subtracts, and the order does not matter as long as the subtraction finds its
entry in both. It does, since the record it discounts is counted (`Covered`).

Each event sees the same before and after the other (`Independent.same`), so at every key
the two orders show the same, and two runs that differ by swaps of such neighbours end in
the same maps.
-/

namespace EbpfMemleak

variable {cap : Capacities}

/-- Two events of different processes, touching different addresses. -/
structure Independent (cfg : Config) (m : Maps cap) (e₁ e₂ : Event) : Prop where
  pid : e₁.env.pid ≠ e₂.env.pid
  apart : ∀ a, e₁.Touches cfg m a → ¬ e₂.Touches cfg m a

theorem Independent.symm {cfg : Config} {m : Maps cap} {e₁ e₂ : Event}
    (h : Independent cfg m e₁ e₂) : Independent cfg m e₂ e₁ :=
  ⟨h.pid.symm, fun a h₂ h₁ => h.apart a h₁ h₂⟩

theorem Independent.pid64 {cfg : Config} {m : Maps cap} {e₁ e₂ : Event}
    (h : Independent cfg m e₁ e₂) : e₁.env.pid64 ≠ e₂.env.pid64 :=
  fun heq => h.pid (congrArg (·.setWidth 32) heq)

/-- An event leaves the entries of the other process as they are. -/
theorem Independent.same {cfg : Config} {m : Maps cap} {e₁ e₂ : Event}
    (h : Independent cfg m e₁ e₂) : SameEntries e₂.env m (handle cfg m e₁) :=
  ⟨lookup_sizes_handle_of_ne cfg m h.pid.symm, lookup_memptrs_handle_of_ne cfg m h.pid64.symm⟩

/-! ### Two events in both orders -/

theorem Maps.ext_entries {m m' : Maps cap}
    (hsizes : ∀ pid, m.sizes.lookup pid = m'.sizes.lookup pid)
    (hallocs : ∀ a, m.allocs.lookup a = m'.allocs.lookup a)
    (hcomb : m.combinedAllocs = m'.combinedAllocs)
    (hmemptrs : ∀ k, m.memptrs.lookup k = m'.memptrs.lookup k) : m = m' := by
  cases m
  cases m'
  rw [Maps.mk.injEq]
  exact ⟨BoundedMap.ext_lookup hsizes, BoundedMap.ext_lookup hallocs, hcomb,
    BoundedMap.ext_lookup hmemptrs⟩

section Commute

variable {cfg : Config} {m : Maps cap} {e₁ e₂ : Event}

/-- An entry that only the events of one process touch, and that they decide by the entries
of that process, is the same in both orders. -/
theorem entry_comm {κ ν : Type} [DecidableEq κ] (entry : Maps cap → κ → ν) (key : Env → κ)
    (hne : ∀ (m : Maps cap) (ev : Event) k, k ≠ key ev.env → entry (handle cfg m ev) k = entry m k)
    (hcongr : ∀ (m m' : Maps cap) (ev : Event), m.NotFull → m'.NotFull → SameEntries ev.env m m' →
      entry (handle cfg m' ev) (key ev.env) = entry (handle cfg m ev) (key ev.env))
    (hm : m.Slack 2) (h : Independent cfg m e₁ e₂) (hkey : key e₁.env ≠ key e₂.env) (k : κ) :
    entry (handle cfg (handle cfg m e₁) e₂) k = entry (handle cfg (handle cfg m e₂) e₁) k := by
  have hfull := hm.notFull
  have hfull₁ := (hm.handle cfg e₁).notFull
  have hfull₂ := (hm.handle cfg e₂).notFull
  by_cases h₂ : k = key e₂.env
  · rw [h₂, hcongr m _ e₂ hfull hfull₁ h.same, hne _ e₁ _ hkey.symm]
  · rw [hne _ e₂ k h₂]
    by_cases h₁ : k = key e₁.env
    · rw [h₁, hcongr m _ e₁ hfull hfull₂ h.symm.same]
    · rw [hne m e₁ k h₁, hne _ e₁ k h₁, hne m e₂ k h₂]

/-- The second event does at its own addresses what it would have done first. -/
theorem lookup_allocs_comm (hm : m.Slack 2) (h : Independent cfg m e₁ e₂) (a : U64) :
    (handle cfg (handle cfg m e₁) e₂).allocs.lookup a =
      (handle cfg (handle cfg m e₂) e₁).allocs.lookup a := by
  have hfull := hm.notFull
  have hfull₁ := (hm.handle cfg e₁).notFull
  have hfull₂ := (hm.handle cfg e₂).notFull
  by_cases htouch : e₂.Touches cfg m a
  · have hnot : ¬ e₁.Touches cfg m a := h.symm.apart a htouch
    rw [lookup_handle_allocs_congr hfull hfull₁ h.same
        (lookup_handle_allocs_of_not_touches hfull hnot),
      lookup_handle_allocs_of_not_touches hfull₂
        ((touches_congr hfull hfull₂ h.symm.same).not.mpr hnot)]
  · rw [lookup_handle_allocs_congr hfull hfull₂ h.symm.same
        (lookup_handle_allocs_of_not_touches hfull htouch),
      lookup_handle_allocs_of_not_touches hfull₁
        ((touches_congr hfull hfull₁ h.same).not.mpr htouch)]

/-- The second event takes out of every word what it would have taken out first. -/
theorem word_handle_handle (hreach : Reachable cfg m) (hm : m.Slack 2)
    (h : Independent cfg m e₁ e₂) (k : U64) :
    (handle cfg (handle cfg m e₁) e₂).combinedAllocs.word k =
      m.combinedAllocs.word k - freedWeight cfg m e₁ k + recordedWeight cfg m e₁ k -
        freedWeight cfg m e₂ k + recordedWeight cfg m e₂ k := by
  have hfull := hm.notFull
  have hfull₁ := (hm.handle cfg e₁).notFull
  have hreach₁ : Reachable cfg (handle cfg m e₁) := hreach.run [e₁]
  rw [word_handle hfull₁ (hreach₁.covered hfull₁.2.2.1),
    word_handle hfull (hreach.covered hfull.2.2.1), recordedWeight_congr hfull hfull₁ h.same,
    freedWeight_congr h.same fun a ha => ?_]
  exact lookup_handle_allocs_of_not_touches hfull (h.symm.apart a (Or.inl ha))

theorem mem_combinedAllocs_handle_handle (hm : m.Slack 2) (h : Independent cfg m e₁ e₂) (k : U64) :
    k ∈ (handle cfg (handle cfg m e₁) e₂).combinedAllocs ↔
      (k ∈ m.combinedAllocs ∨ ∃ r ∈ recorded cfg m e₁, r.2.stackKey = k) ∨
        ∃ r ∈ recorded cfg m e₂, r.2.stackKey = k := by
  have hfull := hm.notFull
  have hfull₁ := (hm.handle cfg e₁).notFull
  rw [mem_handle_combinedAllocs_iff hfull₁, mem_handle_combinedAllocs_iff hfull,
    recorded_congr hfull hfull₁ h.same]

/-- **Independent events commute** in every reachable state with two free slots in every
map. -/
theorem handle_comm (hreach : Reachable cfg m) (hm : m.Slack 2) (h : Independent cfg m e₁ e₂) :
    handle cfg (handle cfg m e₁) e₂ = handle cfg (handle cfg m e₂) e₁ := by
  have hsizes := entry_comm (fun m pid => m.sizes.lookup pid) Env.pid
    (fun m ev pid hpid => lookup_sizes_handle_of_ne cfg m hpid)
    (fun m m' ev hfull hfull' hsame => lookup_sizes_handle_congr hfull hfull' hsame) hm h h.pid
  have hmemptrs := entry_comm (fun m k => m.memptrs.lookup k) Env.pid64
    (fun m ev k hk => lookup_memptrs_handle_of_ne cfg m hk)
    (fun m m' ev hfull hfull' hsame => lookup_memptrs_handle_congr hfull hfull' hsame) hm h h.pid64
  have hcomb : (handle cfg (handle cfg m e₁) e₂).combinedAllocs =
      (handle cfg (handle cfg m e₂) e₁).combinedAllocs := by
    refine CombinedAllocs.ext_word (fun k => ?_) fun k => ?_
    · rw [mem_combinedAllocs_handle_handle hm h, mem_combinedAllocs_handle_handle hm h.symm,
        or_right_comm]
    · rw [word_handle_handle hreach hm h, word_handle_handle hreach hm h.symm]
      abel
  exact Maps.ext_entries hsizes (lookup_allocs_comm hm h) hcomb hmemptrs

end Commute

/-! ### Runs -/

/-- The second run is the first with two neighbours swapped that are independent where they
are handled, with two free slots in every map. -/
inductive Swap (cap : Capacities) (cfg : Config) : List Event → List Event → Prop
  | swap (pre : List Event) (e₁ e₂ : Event) (post : List Event)
      (room : (run cfg (Maps.empty : Maps cap) pre).Slack 2)
      (independent : Independent cfg (run cfg (Maps.empty : Maps cap) pre) e₁ e₂) :
      Swap cap cfg (pre ++ e₁ :: e₂ :: post) (pre ++ e₂ :: e₁ :: post)

theorem Swap.run_eq {cfg : Config} {evs evs' : List Event} (h : Swap cap cfg evs evs') :
    run cfg (Maps.empty : Maps cap) evs = run cfg Maps.empty evs' := by
  obtain ⟨pre, e₁, e₂, post, room, independent⟩ := h
  rw [run_append, run_append, run_cons, run_cons, run_cons, run_cons,
    handle_comm ⟨pre, rfl⟩ room independent]

/-- **Independent events commute**: in every reachable state with two free slots in every
map, and anywhere in a run. -/
theorem independent_events_commute (cfg : Config) :
    (∀ m : Maps cap, Reachable cfg m → m.Slack 2 → ∀ e₁ e₂, Independent cfg m e₁ e₂ →
      handle cfg (handle cfg m e₁) e₂ = handle cfg (handle cfg m e₂) e₁) ∧
    ∀ evs evs', Relation.ReflTransGen (Swap cap cfg) evs evs' →
      run cfg (Maps.empty : Maps cap) evs = run cfg Maps.empty evs' := by
  refine ⟨fun m hreach hm e₁ e₂ h => handle_comm hreach hm h, fun evs evs' h => ?_⟩
  induction h with
  | refl => rfl
  | tail _ hswap ih => exact ih.trans hswap.run_eq

/-- Process 7 frees a block while a `malloc` of process 9 returns another one, counted under
the same stack. -/
theorem free_and_malloc_commute :
    let m := run {} (Maps.empty : Maps .source)
      (mallocCall 0x700000007 3 100 0x1000 ++ [⟨.quiet 0x900000009 3, .mallocEnter 50⟩])
    let free : Event := ⟨.quiet 0x700000007 3, .freeEnter 0x1000⟩
    let exit : Event := ⟨.quiet 0x900000009 3, .mallocExit 0x2000⟩
    handle {} (handle {} m free) exit = handle {} (handle {} m exit) free := by
  intro m free exit
  have hfree : recorded {} m free = none := rfl
  have hexit : recorded {} m exit = some (0x2000, ⟨50, 0, 3⟩) := by decide +kernel
  refine (@independent_events_commute .source {}).1 m ⟨_, rfl⟩ (by decide +kernel) free exit
    ⟨by decide, fun a h₁ h₂ => ?_⟩
  -- the one touches 0x1000, the other 0x2000
  obtain hfreed | ⟨info, hrec⟩ := h₁
  · obtain hfreed' | ⟨info', hrec'⟩ := h₂
    · cases hfreed'
    · rw [hexit] at hrec'
      have ha : (0x1000 : U64) = a := Option.some.inj hfreed
      have ha' : (0x2000 : U64) = a := congrArg Prod.fst (Option.some.inj hrec')
      exact absurd (ha.trans ha'.symm) (by decide)
  · rw [hfree] at hrec
    cases hrec

end EbpfMemleak
