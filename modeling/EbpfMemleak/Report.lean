import EbpfMemleak.Info
import EbpfMemleak.Lib.BinaryHeap
import EbpfMemleak.Lib.TopN
import Mathlib.Logic.Function.Basic

/-!
# EbpfMemleak.Report

One pass of the monitoring loop in `Run` (`probe.go`), from the entries the two map
iterators deliver to the stacks it prints: select the stacks with the largest
totals in a bounded min-heap, drain the heap, collect the allocations of the
selected stacks.

`container/heap` is taken by its documented contract (`ContainerHeap`);
`containerHeap` is an implementation. An index out of range and `heap.Pop` of an
empty heap panic: the loops return `none` there.

For `nTopStacks ≥ 1` the selection is exact, whatever order the iterator delivers
(`top_stacks_exact`). The flag is an unrestricted `int`, though, and with
`nTopStacks ≤ 0` the first stack with a positive total makes the loop look at the
root of an empty heap (`report_never_panics_iff`).
-/

namespace EbpfMemleak

open BinaryHeap TopN

/-! ### `MinHeap` -/

/-- `MinHeap`. The pointers are to distinct objects, so the entries stand for them. -/
abbrev MinHeap := Array StackInfo

/-- `MinHeap.Less`, on the entries at the two indices. -/
def MinHeap.less (a b : StackInfo) : Bool := a.totalSize < b.totalSize

/-- `container/heap` for a `MinHeap`. -/
abbrev ContainerHeap := HeapPackage MinHeap.less

theorem MinHeap.less_eq_false {a b : StackInfo} :
    MinHeap.less a b = false ↔ b.totalSize.toNat ≤ a.totalSize.toNat := by
  rw [MinHeap.less, decide_eq_false_iff_not, BitVec.lt_def, Nat.not_lt]

theorem MinHeap.less_strictWeak : StrictWeak MinHeap.less where
  asymm a b h := by
    rw [MinHeap.less, decide_eq_true_eq, BitVec.lt_def] at h
    exact MinHeap.less_eq_false.mpr h.le
  trans a b c hab hbc :=
    MinHeap.less_eq_false.mpr
      ((MinHeap.less_eq_false.mp hab).trans (MinHeap.less_eq_false.mp hbc))

/-- The heap as `container/heap` implements it. -/
def containerHeap : ContainerHeap := binaryHeap MinHeap.less_strictWeak

/-! ### The loops -/

/-- `info.GetCombinedAllocInfo(uint32(combinedAllocKey), combinedAllocVal)`. -/
def decodeEntry (entry : U64 × CombinedAllocInfoRaw) : StackInfo :=
  getCombinedAllocInfo (entry.1.setWidth 32) entry.2

/-- The body of the selection loop. -/
def selectStack (heap : ContainerHeap) (nTopStacks : Int) (h : MinHeap)
    (combinedInfo : StackInfo) : Option MinHeap :=
  if 0 < combinedInfo.totalSize then
    if (h.size : Int) < nTopStacks then some (heap.push h combinedInfo)
    else do
      let root ← h[0]?
      if root.totalSize < combinedInfo.totalSize then
        let (_, h) ← heap.pop h
        some (heap.push h combinedInfo)
      else some h
  else some h

/-- The selection loop, from `heap.Init(h)` on. -/
def selectStacks (heap : ContainerHeap) (nTopStacks : Int)
    (entries : List (U64 × CombinedAllocInfoRaw)) : Option MinHeap :=
  (entries.map decodeEntry).foldlM (selectStack heap nTopStacks) (heap.init #[])

/-- `map[uint32][]info.AllocInfo`; `none` is the `nil` of an absent key. -/
abbrev AllocLists := U32 → Option (List ReportedAlloc)

/-- The draining loop, for `i` from `len(topStacks) - 1` down: it fills `topStacks` from
the back and gives every stack an empty list. -/
def drain (heap : ContainerHeap) : Nat → MinHeap → List StackInfo → AllocLists →
    Option (List StackInfo × AllocLists)
  | 0, _, topStacks, allocs => some (topStacks, allocs)
  | i + 1, h, topStacks, allocs => do
      let (stack, h) ← heap.pop h
      drain heap i h (stack :: topStacks) (Function.update allocs stack.stackId (some []))

/-- Selection and draining. -/
def selectTop (heap : ContainerHeap) (nTopStacks : Int)
    (entries : List (U64 × CombinedAllocInfoRaw)) : Option (List StackInfo × AllocLists) := do
  let h ← selectStacks heap nTopStacks entries
  drain heap h.size h [] fun _ => none

/-- The body of the loop over `allocs`: only the selected stacks have a list. -/
def collectAlloc (allocs : AllocLists) (entry : U64 × AllocInfoRaw) : AllocLists :=
  match allocs entry.2.stackId with
  | none => allocs
  | some list =>
      Function.update allocs entry.2.stackId (some (list ++ [getAllocInfo entry.1 entry.2]))

/-- What a pass reports. -/
structure Report where
  topStacks : List StackInfo
  allocs : AllocLists

/-- One pass over what the two iterators deliver. -/
def reportPass (heap : ContainerHeap) (nTopStacks : Int)
    (combinedEntries : List (U64 × CombinedAllocInfoRaw))
    (allocEntries : List (U64 × AllocInfoRaw)) : Option Report := do
  let (topStacks, allocs) ← selectTop heap nTopStacks combinedEntries
  some ⟨topStacks, allocEntries.foldl collectAlloc allocs⟩

/-! ### Selection -/

/-- The total a stack is ranked by. -/
def StackInfo.total (info : StackInfo) : Nat := info.totalSize.toNat

/-- The stacks the selection considers. -/
def positive (infos : List StackInfo) : List StackInfo := infos.filter fun info => 0 < info.total

theorem positive_cons (info : StackInfo) (infos : List StackInfo) :
    positive (info :: infos) =
      if 0 < info.totalSize then info :: positive infos else positive infos := by
  rw [positive, List.filter_cons]
  exact if_congr (by rw [decide_eq_true_eq, BitVec.lt_def]; rfl) rfl rfl

/-- The heap of a selection: a heap of the `n` stacks with largest totals among those
considered so far. -/
structure Selected (heap : ContainerHeap) (n : Nat) (seen : Multiset StackInfo) (h : MinHeap) :
    Prop where
  isHeap : heap.IsHeap h
  isTop : IsTop StackInfo.total n seen ↑h.toList

theorem selected_init (heap : ContainerHeap) (n : Nat) : Selected heap n 0 (heap.init #[]) := by
  refine ⟨heap.isHeap_init _, ?_⟩
  rw [Multiset.coe_eq_coe.mpr (heap.init_perm #[])]
  exact isTop_zero _ _

/-- Pushing a stack onto a heap with room. -/
theorem Selected.push {heap : ContainerHeap} {n : Nat} {seen : Multiset StackInfo} {h : MinHeap}
    (hs : Selected heap n seen h) (hlt : h.size < n) (info : StackInfo) :
    Selected heap n (info ::ₘ seen) (heap.push h info) := by
  refine ⟨heap.isHeap_push info hs.isHeap, ?_⟩
  rw [Multiset.coe_eq_coe.mpr (heap.push_perm h info)]
  exact hs.isTop.take hlt info

/-- A stack that does not beat the root of a full heap. -/
theorem Selected.pass {heap : ContainerHeap} {n : Nat} {seen : Multiset StackInfo} {h : MinHeap}
    (hs : Selected heap n seen h) (hge : n ≤ h.size) {root info : StackInfo}
    (hroot : h[0]? = some root) (hle : info.total ≤ root.total) :
    Selected heap n (info ::ₘ seen) h :=
  ⟨hs.isHeap, hs.isTop.pass hge fun y hy =>
    hle.trans (MinHeap.less_eq_false.mp (heap.root_least hs.isHeap hroot y hy))⟩

/-- A stack that beats the root of a full heap takes its place. -/
theorem Selected.exchange {heap : ContainerHeap} {n : Nat} {seen : Multiset StackInfo}
    {h : MinHeap} (hs : Selected heap n seen h) (hge : n ≤ h.size) {root info : StackInfo}
    (hroot : h[0]? = some root) (hlt : root.total < info.total) :
    ∃ x h', heap.pop h = some (x, h') ∧ Selected heap n (info ::ₘ seen) (heap.push h' info) := by
  have hne : h ≠ #[] := by
    rintro rfl
    cases hroot
  obtain ⟨x, h', hpop, hheap, hperm, hleast⟩ := heap.pop_spec hs.isHeap hne
  have hmem : root ∈ h.toList := Array.mem_toList_iff.mpr (Array.mem_of_getElem? hroot)
  have hx : x.total < info.total :=
    (MinHeap.less_eq_false.mp (hleast root hmem)).trans_lt hlt
  have htop : IsTop StackInfo.total n seen (x ::ₘ ↑h'.toList) := by
    rw [Multiset.cons_coe, Multiset.coe_eq_coe.mpr hperm]
    exact hs.isTop
  have hcard : n ≤ Multiset.card (↑h'.toList : Multiset StackInfo) + 1 := by
    have hlen := hperm.length_eq
    rw [List.length_cons, Array.length_toList] at hlen
    exact hge.trans_eq hlen.symm
  refine ⟨x, h', hpop, heap.isHeap_push info hheap, ?_⟩
  rw [Multiset.coe_eq_coe.mpr (heap.push_perm h' info)]
  exact htop.exchange hcard (fun y hy => MinHeap.less_eq_false.mp
    (hleast y (hperm.subset (List.mem_cons_of_mem x hy)))) hx

/-- **One iteration of the selection** with `nTopStacks ≥ 1` does not panic and keeps
the largest totals. -/
theorem Selected.step {heap : ContainerHeap} {n : Int} (hn : 1 ≤ n)
    {seen : Multiset StackInfo} {h : MinHeap} (hs : Selected heap n.toNat seen h)
    (info : StackInfo) :
    ∃ h', selectStack heap n h info = some h' ∧
      Selected heap n.toNat (if 0 < info.totalSize then info ::ₘ seen else seen) h' := by
  unfold selectStack
  by_cases hpos : 0 < info.totalSize
  · rw [if_pos hpos, if_pos hpos]
    by_cases hroom : (h.size : Int) < n
    · rw [if_pos hroom]
      exact ⟨_, rfl, hs.push (by omega) info⟩
    · -- the heap is full, and since `n ≥ 1` it has a root
      rw [if_neg hroom]
      have hge : n.toNat ≤ h.size := by omega
      have hroot : h[0]? = some h[0] := Array.getElem?_eq_getElem (by omega)
      rw [hroot, Option.bind_eq_bind, Option.bind_some]
      by_cases hlt : h[0].totalSize < info.totalSize
      · obtain ⟨x, h', hpop, hsel⟩ := hs.exchange hge hroot (BitVec.lt_def.mp hlt)
        rw [if_pos hlt, hpop]
        exact ⟨_, rfl, hsel⟩
      · rw [if_neg hlt]
        exact ⟨h, rfl, hs.pass hge hroot (Nat.not_lt.mp (mt BitVec.lt_def.mpr hlt))⟩
  · rw [if_neg hpos, if_neg hpos]
    exact ⟨h, rfl, hs⟩

/-- The selection loop with `nTopStacks ≥ 1`. -/
theorem Selected.foldlM {heap : ContainerHeap} {n : Int} (hn : 1 ≤ n)
    {seen : Multiset StackInfo} {h : MinHeap} (hs : Selected heap n.toNat seen h)
    (infos : List StackInfo) :
    ∃ h', infos.foldlM (selectStack heap n) h = some h' ∧
      Selected heap n.toNat (seen + ↑(positive infos)) h' := by
  induction infos generalizing seen h with
  | nil => exact ⟨h, rfl, by rwa [positive, List.filter_nil, Multiset.coe_nil, add_zero]⟩
  | cons info infos ih =>
      obtain ⟨h₁, hstep, hs₁⟩ := hs.step hn info
      obtain ⟨h₂, hrest, hs₂⟩ := ih hs₁
      refine ⟨h₂, by rw [List.foldlM_cons, hstep]; exact hrest, ?_⟩
      rw [positive_cons]
      split at hs₂
      case isTrue hpos =>
        rw [if_pos hpos, ← Multiset.cons_coe, Multiset.add_cons]
        rwa [Multiset.cons_add] at hs₂
      case isFalse hpos => rwa [if_neg hpos]

/-! ### Draining -/

/-- Draining a heap puts its stacks in front, sorted by descending total, and gives each
of them an empty list. -/
theorem drain_spec (heap : ContainerHeap) {h : MinHeap} (hheap : heap.IsHeap h)
    (topStacks : List StackInfo) (allocs : AllocLists) :
    ∃ top, drain heap h.size h topStacks allocs = some (top ++ topStacks,
        fun id => if id ∈ top.map StackInfo.stackId then some [] else allocs id) ∧
      top.Perm h.toList ∧ (top.map StackInfo.total).Pairwise (· ≥ ·) := by
  generalize hk : h.size = k
  induction k generalizing h topStacks allocs with
  | zero =>
      obtain rfl := Array.size_eq_zero_iff.mp hk
      exact ⟨[], by simp [drain], List.Perm.refl _, List.Pairwise.nil⟩
  | succ k ih =>
      have hne : h ≠ #[] := by
        rintro rfl
        cases hk
      obtain ⟨x, h', hpop, hheap', hperm, hleast⟩ := heap.pop_spec hheap hne
      have hsize : h'.size = k := by
        have hlen := hperm.length_eq
        rw [List.length_cons, Array.length_toList, Array.length_toList, hk] at hlen
        exact Nat.succ.inj hlen
      obtain ⟨top, hdrain, htop, hsorted⟩ :=
        ih hheap' (x :: topStacks) (Function.update allocs x.stackId (some [])) hsize
      refine ⟨top ++ [x], ?_, ?_, ?_⟩
      · rw [drain, hpop, Option.bind_eq_bind, Option.bind_some]
        dsimp only
        rw [hdrain, List.append_assoc, List.singleton_append]
        congr 2
        funext id
        by_cases hid : id = x.stackId
        · simp [hid]
        · simp [hid, Function.update_of_ne]
      · exact (List.perm_append_singleton x top).trans ((htop.cons x).trans hperm)
      · rw [List.map_append, List.map_singleton]
        refine List.pairwise_append.mpr ⟨hsorted, List.pairwise_singleton _ _, ?_⟩
        intro a ha b hb
        obtain rfl := List.mem_singleton.mp hb
        obtain ⟨y, hy, rfl⟩ := List.mem_map.mp ha
        exact MinHeap.less_eq_false.mp
          (hleast y (hperm.subset (List.mem_cons_of_mem x (htop.subset hy))))

/-- **What a pass selects.** With `nTopStacks ≥ 1` the two loops do not panic; the
selected stacks are the top of the positive ones in descending order, and they are
the ones with a list. -/
theorem selectTop_spec (heap : ContainerHeap) {n : Int} (hn : 1 ≤ n)
    (entries : List (U64 × CombinedAllocInfoRaw)) :
    ∃ top, selectTop heap n entries = some (top,
        fun id => if id ∈ top.map StackInfo.stackId then some [] else none) ∧
      IsTop StackInfo.total n.toNat ↑(positive (entries.map decodeEntry)) ↑top ∧
      (top.map StackInfo.total).Pairwise (· ≥ ·) := by
  obtain ⟨h, hsel, hs⟩ := (selected_init heap n.toNat).foldlM hn (entries.map decodeEntry)
  obtain ⟨top, hdrain, hperm, hsorted⟩ := drain_spec heap hs.isHeap [] fun _ => none
  refine ⟨top, ?_, ?_, hsorted⟩
  · rw [selectTop, selectStacks, hsel, Option.bind_eq_bind, Option.bind_some, hdrain,
      List.append_nil]
  · rw [Multiset.coe_eq_coe.mpr hperm, ← zero_add (↑(positive _) : Multiset StackInfo)]
    exact hs.isTop

theorem map_total_positive (infos : List StackInfo) :
    (positive infos).map StackInfo.total = (infos.map StackInfo.total).filter (0 < ·) := by
  rw [positive, List.filter_map]
  rfl

theorem length_positive (infos : List StackInfo) :
    (positive infos).length = infos.countP fun info => 0 < info.totalSize := by
  rw [positive, ← List.countP_eq_length_filter]
  rfl

/-- **Top-N selection is exact and independent of the iteration order.** With
`nTopStacks ≥ 1` and any entries in any order, the pass selects as many positive
stacks as it may, at distinct positions of the sequence and by descending total, and
their totals are the first ones of all positive totals in descending order. -/
theorem top_stacks_exact (heap : ContainerHeap) {n : Int} (hn : 1 ≤ n)
    (entries : List (U64 × CombinedAllocInfoRaw)) :
    ∃ top allocs, selectTop heap n entries = some (top, allocs) ∧
      let infos := entries.map decodeEntry
      top.length = min n.toNat (infos.countP fun info => 0 < info.totalSize) ∧
      (∃ positions : List (Fin infos.length), positions.Nodup ∧
        top = positions.map infos.get) ∧
      (top.Pairwise fun a b => b.totalSize ≤ a.totalSize) ∧
      top.map StackInfo.total =
        (((infos.map StackInfo.total).filter (0 < ·)).insertionSort (· ≥ ·)).take n.toNat ∧
      ∀ entries', entries'.Perm entries → ∃ top' allocs',
        selectTop heap n entries' = some (top', allocs') ∧
          top'.map StackInfo.total = top.map StackInfo.total := by
  have htotals {es : List (U64 × CombinedAllocInfoRaw)} {top : List StackInfo}
      (htop : IsTop StackInfo.total n.toNat ↑(positive (es.map decodeEntry)) ↑top)
      (hsorted : (top.map StackInfo.total).Pairwise (· ≥ ·)) : top.map StackInfo.total =
        ((((es.map decodeEntry).map StackInfo.total).filter (0 < ·)).insertionSort (· ≥ ·)).take
          n.toNat := by
    rw [htop.map_key_eq hsorted, map_total_positive]
  obtain ⟨top, hrun, htop, hsorted⟩ := selectTop_spec heap hn entries
  refine ⟨top, _, hrun, ?_, ?_, List.pairwise_map.mp hsorted, htotals htop hsorted, ?_⟩
  · rw [← length_positive]
    exact htop.card
  · exact exists_positions ((Multiset.coe_le.mp htop.le).trans List.filter_sublist.subperm)
  · intro entries' hperm
    obtain ⟨top', hrun', htop', hsorted'⟩ := selectTop_spec heap hn entries'
    refine ⟨top', _, hrun', ?_⟩
    -- the two sequences have the same totals, hence the same sorted totals
    have hsame := ((hperm.map decodeEntry).map StackInfo.total).filter fun total => 0 < total
    rw [htotals htop' hsorted', htotals htop hsorted,
      List.Perm.eq_of_pairwise' (List.pairwise_insertionSort _ _)
        (List.pairwise_insertionSort _ _) ((List.perm_insertionSort _ _).trans
          (hsame.trans (List.perm_insertionSort _ _).symm))]

/-- Four stacks, two of them level, one with nothing outstanding. -/
theorem top_stacks_exact_tie :
    ∃ top allocs, selectTop containerHeap 3
        [(3, .ofBits .little 100), (4, .ofBits .little 300), (5, .ofBits .little 0),
          (6, .ofBits .little 100)] = some (top, allocs) ∧
      top.map StackInfo.total = [300, 100, 100] := by
  obtain ⟨top, allocs, hrun, -, -, -, htotals, -⟩ := top_stacks_exact containerHeap
    (n := 3) (by decide) [(3, .ofBits .little 100), (4, .ofBits .little 300),
      (5, .ofBits .little 0), (6, .ofBits .little 100)]
  exact ⟨top, allocs, hrun, htotals.trans (by decide +kernel)⟩

/-! ### Panics -/

/-- Without a positive `nTopStacks` the heap stays empty, and the first positive total
finds it without a root. -/
theorem selectStack_of_nonpos (heap : ContainerHeap) {n : Int} (hn : n ≤ 0) (info : StackInfo) :
    selectStack heap n #[] info = if 0 < info.totalSize then none else some #[] := by
  have hsize : ¬ ((#[] : MinHeap).size : Int) < n := not_lt.mpr hn
  unfold selectStack
  rw [if_neg hsize]
  rfl

theorem foldlM_selectStack_of_nonpos (heap : ContainerHeap) {n : Int} (hn : n ≤ 0)
    (infos : List StackInfo) :
    infos.foldlM (selectStack heap n) #[] =
      if ∀ info ∈ infos, info.totalSize = 0 then some #[] else none := by
  induction infos with
  | nil => simp
  | cons info infos ih =>
      rw [List.foldlM_cons, selectStack_of_nonpos heap hn]
      by_cases hpos : 0 < info.totalSize
      · have hne : info.totalSize ≠ 0 := fun h => absurd hpos (by simp [h])
        rw [if_pos hpos, if_neg fun h => hne (h info List.mem_cons_self)]
        rfl
      · have hzero : info.totalSize = 0 := by
          rw [BitVec.lt_def, Nat.not_lt] at hpos
          exact BitVec.eq_of_toNat_eq (Nat.le_zero.mp hpos)
        rw [if_neg hpos, Option.bind_eq_bind, Option.bind_some, ih]
        simp [hzero]

theorem heap_init_empty (heap : ContainerHeap) : heap.init #[] = #[] :=
  Array.toList_eq_nil_iff.mp (heap.init_perm #[]).eq_nil

/-- **When the reporting pass does not panic.** For every `nTopStacks` and every sequence
of entries, the two loops finish, with an empty result for `nTopStacks ≤ 0`, if and
only if `nTopStacks ≥ 1` or no entry has a positive total. -/
theorem report_never_panics_iff (heap : ContainerHeap) (n : Int)
    (entries : List (U64 × CombinedAllocInfoRaw)) :
    (∃ top allocs, selectTop heap n entries = some (top, allocs) ∧ (n ≤ 0 → top = [])) ↔
      1 ≤ n ∨ ∀ entry ∈ entries, (decodeEntry entry).totalSize = 0 := by
  rcases Int.lt_or_le 0 n with hn | hn
  · obtain ⟨top, hrun, -, -⟩ := selectTop_spec heap hn entries
    exact iff_of_true ⟨top, _, hrun, fun hle => absurd hle (not_le.mpr hn)⟩ (Or.inl hn)
  · have hneg : ¬ 1 ≤ n := by omega
    have hmap : (∀ info ∈ entries.map decodeEntry, info.totalSize = 0) ↔
        ∀ entry ∈ entries, (decodeEntry entry).totalSize = 0 := List.forall_mem_map
    rw [or_iff_right hneg, selectTop, selectStacks, heap_init_empty,
      foldlM_selectStack_of_nonpos heap hn]
    split
    case isTrue hzero => exact iff_of_true ⟨[], _, rfl, fun _ => rfl⟩ (hmap.mp hzero)
    case isFalse hpos =>
      refine iff_of_false ?_ (mt hmap.mpr hpos)
      rintro ⟨top, allocs, hrun, -⟩
      cases hrun

/-- `-n-top-stacks 0` and one outstanding allocation of 100 bytes: the monitor panics. -/
theorem report_panics_without_top_stacks :
    let entries : List (U64 × CombinedAllocInfoRaw) := [(3, .ofBits .little (2 ^ 40 + 100))]
    selectTop containerHeap 0 entries = none ∧
      ¬ ∃ top allocs, selectTop containerHeap 0 entries = some (top, allocs) ∧
        ((0 : Int) ≤ 0 → top = []) := by
  intro entries
  have hpanic : selectTop containerHeap 0 entries = none := by
    rw [selectTop, selectStacks, heap_init_empty, foldlM_selectStack_of_nonpos _ le_rfl,
      if_neg (by decide)]
    rfl
  refine ⟨hpanic, ?_⟩
  rintro ⟨top, allocs, hrun, -⟩
  rw [hpanic] at hrun
  cases hrun

end EbpfMemleak
