import EbpfMemleak.Effects
import EbpfMemleak.Loader
import EbpfMemleak.Outstanding

/-!
# EbpfMemleak.Room

**When the maps have room, in terms of the process.** Results about runs assume that no map
is full. For a traced process this is a matter of what it does: `sizes` and `memptrs` never
get near their bounds, `allocs` has an entry for each outstanding block, and `combined_allocs`
one for each stack that ever had one. So the maps have room exactly while the process has
less than a million blocks outstanding, from less than 10240 stacks in all.

Blocks and stacks are counted in the ledger, which needs the maps to have had room so far.
The two are followed together, event by event (`Shown`).
-/

namespace EbpfMemleak

variable {cap : Capacities}

/-! ### The process -/

/-- The number of outstanding blocks. -/
noncomputable def Ledger.outstanding (L : Ledger) : Nat :=
  {a : U64 | (L.blocks a).isSome = true}.ncard

/-- The stacks that have had a block so far. -/
def everStacks (cfg : Config) (evs : List Event) : Set I32 :=
  {id | ∃ pre, pre <+: evs ∧ ∃ a size, (ledgerOf cfg pre).blocks a = some (size, id)}

theorem ledgerOf_concat (cfg : Config) (evs : List Event) (ev : Event) :
    ledgerOf cfg (evs ++ [ev]) = ledgerStep cfg (ledgerOf cfg evs) ev := List.foldl_concat ..

theorem run_concat (cfg : Config) (evs : List Event) (ev : Event) :
    run cfg (Maps.empty : Maps cap) (evs ++ [ev]) =
      handle cfg (run cfg (Maps.empty : Maps cap) evs) ev := List.foldl_concat ..

theorem mem_everStacks_concat {cfg : Config} {evs : List Event} {ev : Event} {id : I32} :
    id ∈ everStacks cfg (evs ++ [ev]) ↔ id ∈ everStacks cfg evs ∨
      ∃ a size, (ledgerOf cfg (evs ++ [ev])).blocks a = some (size, id) := by
  constructor
  · rintro ⟨pre, hpre, hblock⟩
    rcases List.prefix_concat_iff.mp hpre with rfl | hpre
    · exact Or.inr hblock
    · exact Or.inl ⟨pre, hpre, hblock⟩
  · rintro (⟨pre, hpre, hblock⟩ | hblock)
    · exact ⟨pre, hpre.trans (List.prefix_append _ _), hblock⟩
    · exact ⟨_, List.prefix_refl _, hblock⟩

/-! ### The maps show it -/

/-- The maps after a run and what the process has done. -/
structure Shown (cfg : Config) (evs : List Event) (m : Maps cap) : Prop where
  refines : Refines cfg m (ledgerOf cfg evs)
  entries : ∀ k, k ∈ m.combinedAllocs ↔ ∃ id ∈ everStacks cfg evs, id.signExtend 64 = k

theorem shown_empty (cfg : Config) : Shown cfg [] (Maps.empty : Maps cap) where
  refines := refines_empty cfg
  entries k := by
    refine iff_of_false (BoundedMap.not_mem_empty k) ?_
    rintro ⟨id, ⟨pre, hpre, a, size, hblock⟩, -⟩
    rw [List.prefix_nil.mp hpre] at hblock
    cases hblock

/-- **A step.** A new entry is that of the block the event has recorded, and a new stack is that
of the block it has handed out. -/
theorem Shown.step {cfg : Config} {evs : List Event} {m : Maps cap} {ev : Event}
    (h : Shown cfg evs m) (hm : m.NotFull) (hok : CallOk (ledgerOf cfg evs) ev) :
    Shown cfg (evs ++ [ev]) (handle cfg m ev) := by
  have hrefines : Refines cfg (handle cfg m ev) (ledgerOf cfg (evs ++ [ev])) := by
    rw [ledgerOf_concat]
    exact h.refines.step hm hok
  refine ⟨hrefines, fun k => ?_⟩
  rw [mem_handle_combinedAllocs_iff hm, h.entries]
  constructor
  · rintro (⟨id, hid, rfl⟩ | ⟨⟨a, info⟩, hrec, rfl⟩)
    · exact ⟨id, mem_everStacks_concat.mpr (Or.inl hid), rfl⟩
    · refine ⟨info.stackId, mem_everStacks_concat.mpr (Or.inr ⟨a, info.size.toNat, ?_⟩), rfl⟩
      have hlookup := @lookup_handle_allocs_eq _ cfg _ hm ev a
      rw [Option.mem_def.mp hrec] at hlookup
      rw [← hrefines.blocks a, Maps.view, hlookup]
      simp
  · rintro ⟨id, hid, rfl⟩
    rcases mem_everStacks_concat.mp hid with hold | ⟨a, size, hblock⟩
    · exact Or.inl ⟨id, hold, rfl⟩
    · rw [← hrefines.blocks a, Maps.view, Option.map_eq_some_iff] at hblock
      obtain ⟨info, hlookup, hinfo⟩ := hblock
      obtain rfl : info.stackId = id := congrArg Prod.snd hinfo
      rcases lookup_handle_allocs hlookup with ⟨hrec, -⟩ | ⟨hbefore, -⟩
      · exact Or.inr ⟨_, hrec, rfl⟩
      · refine Or.inl ⟨info.stackId, ⟨evs, List.prefix_refl _, a, info.size.toNat, ?_⟩, rfl⟩
        rw [← h.refines.blocks a, Maps.view, lookup_of_beforeExit hbefore]
        rfl

/-- `allocs` has an entry for each outstanding block. -/
theorem Shown.size_allocs {cfg : Config} {evs : List Event} {m : Maps cap}
    (h : Shown cfg evs m) : m.allocs.size = (ledgerOf cfg evs).outstanding := by
  refine BoundedMap.size_eq_ncard fun a => ?_
  rw [Set.mem_ofPred_eq, ← h.refines.blocks a, Maps.view, Option.isSome_map,
    Option.isSome_iff_exists]
  exact BoundedMap.mem_iff

/-- `combined_allocs` has one for each stack that ever had a block. -/
theorem Shown.size_combinedAllocs {cfg : Config} {evs : List Event} {m : Maps cap}
    (h : Shown cfg evs m) : m.combinedAllocs.size = (everStacks cfg evs).ncard := by
  have hinj : Function.Injective fun id : I32 => id.signExtend 64 := fun _ _ => signExtend_inj.mp
  rw [← Set.ncard_image_of_injective _ hinj]
  exact BoundedMap.size_eq_ncard h.entries

/-! ### The conditions of the process -/

/-- What a ledger allows is one of the probes attached for a pid. -/
theorem attached_of_callOk {pid : GoInt} (hpid : 0 < pid.toInt) {L : Ledger} {ev : Event}
    (h : CallOk L ev) : Attached pid ev := by
  unfold Attached hooksFor
  rw [if_pos hpid]
  obtain ⟨env, program⟩ := ev
  cases program with
  | mallocEnter | mallocExit | freeEnter | callocEnter | callocExit | reallocEnter | reallocExit =>
      simp [Program.name, userHooks]
  | _ => exact h.elim

section Room

variable {F : Flags} {answers : Loading} {g : Globals}

/-- **One moment of a run.** If the maps have had room so far, they have it now exactly if the
numbers of the process are below the bounds. -/
theorem notFull_iff (hload : F.load answers = .ok g) (hasKmemAllocNode : Bool)
    (hpid : 0 < F.pid.toInt) (hfits : F.pid.toInt < 2 ^ 31) {evs : List Event}
    (hevs : ∀ ev ∈ evs, Attached F.pid ev) {cfg : Config} (hcfg : cfg = g.config hasKmemAllocNode)
    (h : Shown cfg evs (run cfg (Maps.empty : Maps .source) evs)) :
    (run cfg (Maps.empty : Maps .source) evs).NotFull ↔
      (ledgerOf cfg evs).outstanding < allocsMaxEntries ∧
        (everStacks cfg evs).ncard < combinedAllocsMaxEntries := by
  have hpending : PendingOk F.pid cfg (run cfg (Maps.empty : Maps .source) evs) :=
    pendingOk_run cfg hevs
  have htarget : cfg.targetPid = F.pid.setWidth 32 := by
    rw [hcfg]
    exact (congrArg Globals.targetPid (load_eq_ok hload)).trans (if_pos hpid)
  have hzero : cfg.targetPid ≠ 0 := htarget ▸ (setWidth_pid hpid hfits).2
  have honly : ∀ pid, pid ∈ (run cfg (Maps.empty : Maps .source) evs).sizes →
      pid = cfg.targetPid := by
    intro pid hmem
    by_contra hne
    exact BoundedMap.lookup_eq_none.mp (hpending.user hzero pid hne) hmem
  have hone : (run cfg (Maps.empty : Maps .source) evs).sizes.size ≤ 1 :=
    BoundedMap.size_le_one honly
  have hnone : (run cfg (Maps.empty : Maps .source) evs).memptrs.size = 0 :=
    congrArg BoundedMap.size hpending.memptrs
  have hroom : (run cfg (Maps.empty : Maps .source) evs).sizes.size < Capacities.source.sizes ∧
      (run cfg (Maps.empty : Maps .source) evs).memptrs.size < Capacities.source.memptrs :=
    ⟨hone.trans_lt (by decide), hnone ▸ by decide⟩
  rw [← h.size_allocs, ← h.size_combinedAllocs]
  unfold Maps.NotFull
  exact ⟨fun hfull => ⟨hfull.2.1, hfull.2.2.1⟩, fun hlow => ⟨hroom.1, hlow.1, hlow.2, hroom.2⟩⟩

/-- The maps have had room throughout a run exactly if, throughout the run, the process had
less than a million blocks outstanding, and these came from less than 10240 stacks. -/
theorem maps_have_room_iff (hload : F.load answers = .ok g) (hasKmemAllocNode : Bool)
    (hpid : 0 < F.pid.toInt) (hfits : F.pid.toInt < 2 ^ 31) {evs : List Event}
    (hcalls : Run.Along (ledgerStep (g.config hasKmemAllocNode)) CallOk .empty evs) :
    (∀ pre, pre <+: evs →
        (run (g.config hasKmemAllocNode) (Maps.empty : Maps .source) pre).NotFull) ↔
      ∀ pre, pre <+: evs →
        (ledgerOf (g.config hasKmemAllocNode) pre).outstanding < allocsMaxEntries ∧
          (everStacks (g.config hasKmemAllocNode) pre).ncard < combinedAllocsMaxEntries := by
  have hattached : ∀ ev ∈ evs, Attached F.pid ev :=
    Run.along_iff_forall_mem.mp (hcalls.imp fun _ _ => attached_of_callOk hpid)
  refine @Run.forall_prefix_iff _ _ _
    (fun pre => Shown (g.config hasKmemAllocNode) pre
      (run (g.config hasKmemAllocNode) (Maps.empty : Maps .source) pre)) _
    (shown_empty _) (fun pre ev hpre h hfull => ?_) (fun pre hpre h => ?_)
  · obtain ⟨-, hok, -⟩ := (Run.along_append _ pre [ev]).mp (hcalls.restrict hpre)
    rw [run_concat]
    exact h.step hfull hok
  · exact notFull_iff hload hasKmemAllocNode hpid hfits
      (fun ev hev => hattached ev (hpre.subset hev)) rfl h

/-- `-pid 7`, and a block that is handed out: the maps had room for it. -/
theorem maps_have_room_iff_malloc :
    let g : Globals := { targetPid := 7, minSize := 0, sampleRate := 1, stackFlags := 0x100 }
    let evs := mallocCall 0x700000007 3 100 0x1000
    ∀ pre, pre <+: evs → (ledgerOf (g.config false) pre).outstanding < 1000000 ∧
      (everStacks (g.config false) pre).ncard < 10240 := by
  intro g evs
  let F : Flags := { pid := 7 }
  have hload : F.load ⟨none, fun _ => none, none⟩ = .ok g := by rfl
  refine (maps_have_room_iff hload false (by decide) (by decide) (by decide +kernel)).mp ?_
  intro pre hpre
  have hroom : ∀ pre ∈ evs.inits,
      (run (g.config false) (Maps.empty : Maps .source) pre).NotFull := by decide +kernel
  exact hroom pre ((List.mem_inits pre evs).mpr hpre)

end Room

end EbpfMemleak
