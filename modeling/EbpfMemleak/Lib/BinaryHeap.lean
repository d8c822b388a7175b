import Mathlib.Data.Multiset.Basic
import Mathlib.Logic.Equiv.Basic

/-!
# EbpfMemleak.Lib.BinaryHeap

**Heaps in a slice.** A heap package keeps a slice so that its first entry is a
least one. `HeapPackage less` is the contract such a package documents: what
`init`, `push` and `pop` do to the entries (as a multiset) and that they keep the
heap property, which is left abstract. Results about a program that uses a heap
take any package.

`binaryHeap` is the usual one: the slice is a complete binary tree in level
order, `up` and `down` swap an entry along one path. Each of them starts from a
slice that is ordered but for the edges at one node (`UpReady`, `DownReady`), one
swap moves that node, and the loop ends in an ordered slice.
-/

namespace BinaryHeap

variable {α : Type*}

/-- `less` is a strict weak order: not coming before is reflexive and transitive, and
of two entries one does not come before the other. -/
structure StrictWeak (less : α → α → Bool) : Prop where
  asymm : ∀ x y, less x y = true → less y x = false
  trans : ∀ x y z, less y x = false → less z y = false → less z x = false

theorem StrictWeak.irrefl {less : α → α → Bool} (h : StrictWeak less) (x : α) :
    less x x = false := by
  cases hx : less x x with
  | false => rfl
  | true => exact hx.symm.trans (h.asymm x x hx)

/-- The contract of a heap package for slices compared by `less`. -/
structure HeapPackage (less : α → α → Bool) where
  /-- The heap property of a slice. -/
  IsHeap : Array α → Prop
  init : Array α → Array α
  push : Array α → α → Array α
  /-- `none` is the panic on an empty slice. -/
  pop : Array α → Option (α × Array α)
  isHeap_init : ∀ a, IsHeap (init a)
  init_perm : ∀ a, (init a).toList.Perm a.toList
  isHeap_push : ∀ {a} x, IsHeap a → IsHeap (push a x)
  push_perm : ∀ a x, (push a x).toList.Perm (x :: a.toList)
  /-- The entry at index 0 is a least one. -/
  root_least : ∀ {a x}, IsHeap a → a[0]? = some x → ∀ y ∈ a.toList, less y x = false
  pop_empty : pop #[] = none
  /-- `pop` removes a least entry. -/
  pop_spec : ∀ {a}, IsHeap a → a ≠ #[] → ∃ x a', pop a = some (x, a') ∧ IsHeap a' ∧
    (x :: a'.toList).Perm a.toList ∧ ∀ y ∈ a.toList, less y x = false

/-! ### The tree in a slice -/

/-- The parent of node `j`. -/
def parent (j : Nat) : Nat := (j - 1) / 2

theorem parent_lt {j : Nat} (h : 0 < j) : parent j < j := by
  unfold parent
  omega

/-- The entries at `i` and `j` are in order, if both are in the slice. -/
def InOrder (less : α → α → Bool) (a : Array α) (i j : Nat) : Prop :=
  ∀ x ∈ a[i]?, ∀ y ∈ a[j]?, less y x = false

/-- Among the first `n` entries, no child of a node from `k` on comes before its
parent. -/
def HeapFrom (less : α → α → Bool) (a : Array α) (k n : Nat) : Prop :=
  ∀ j < n, 0 < j → k ≤ parent j → InOrder less a (parent j) j

theorem getElem?_swap_eq {a : Array α} {i j : Nat} (hi : i < a.size) (hj : j < a.size)
    (k : Nat) : (a.swap i j hi hj)[k]? = a[Equiv.swap i j k]? := by
  rw [Array.getElem?_swap, Equiv.swap_apply_def]
  split
  case isTrue h =>
    rw [← h]
    split
    case isTrue hji => rw [hji, Array.getElem?_eq_getElem]
    case isFalse => rw [if_pos rfl, Array.getElem?_eq_getElem]
  case isFalse h =>
    rw [if_neg (Ne.symm h)]
    split
    case isTrue hik => rw [if_pos hik.symm, Array.getElem?_eq_getElem]
    case isFalse hik => rw [if_neg (Ne.symm hik)]

theorem inOrder_swap {less : α → α → Bool} {a : Array α} {i j : Nat} (hi : i < a.size)
    (hj : j < a.size) (k l : Nat) :
    InOrder less (a.swap i j hi hj) k l ↔
      InOrder less a (Equiv.swap i j k) (Equiv.swap i j l) := by
  rw [InOrder, InOrder, getElem?_swap_eq, getElem?_swap_eq]

theorem size_eq_of_perm {a b : Array α} (h : a.toList.Perm b.toList) : a.size = b.size := by
  simpa using h.length_eq

section Algorithm

variable {less : α → α → Bool}

theorem InOrder.trans (hless : StrictWeak less) {a : Array α} {i j k : Nat} (hj : j < a.size)
    (hij : InOrder less a i j) (hjk : InOrder less a j k) : InOrder less a i k := by
  have hmid : a[j] ∈ a[j]? := Array.getElem?_eq_getElem hj
  exact fun x hx z hz => hless.trans x a[j] z (hij x hx _ hmid) (hjk _ hmid z hz)

theorem inOrder_of_not_less {a : Array α} {i j : Nat} (hi : i < a.size) (hj : j < a.size)
    (h : less a[j] a[i] = false) : InOrder less a i j := by
  intro x hx y hy
  obtain rfl : a[i] = x := Option.some.inj ((Array.getElem?_eq_getElem hi).symm.trans hx)
  obtain rfl : a[j] = y := Option.some.inj ((Array.getElem?_eq_getElem hj).symm.trans hy)
  exact h

/-- The root of a heap is a least entry. -/
theorem HeapFrom.root (hless : StrictWeak less) {a : Array α} {n : Nat}
    (h : HeapFrom less a 0 n) (hn : n ≤ a.size) {j : Nat} (hj : j < n) : InOrder less a 0 j := by
  induction j using Nat.strongRecOn with
  | ind j ih =>
    by_cases h0 : j = 0
    · subst h0
      exact inOrder_of_not_less (by omega) (by omega) (hless.irrefl _)
    · have hpos : 0 < j := Nat.pos_of_ne_zero h0
      have hlt := parent_lt hpos
      exact (ih (parent j) hlt (by omega)).trans hless (by omega)
        (h j hj hpos (Nat.zero_le _))

/-! ### `up` -/

/-- Swap the entry at `j` with its parent until it does not come before it. -/
def up (less : α → α → Bool) (a : Array α) (j : Nat) : Array α :=
  if h : 0 < j ∧ j < a.size then
    have hp : parent j < a.size := (parent_lt h.1).trans h.2
    if less a[j] a[parent j] then up less (a.swap j (parent j) h.2 hp) (parent j) else a
  else a
termination_by j
decreasing_by exact parent_lt h.1

/-- Ordered but for the edge into node `i`; the children of `i` may move up past it. -/
structure UpReady (less : α → α → Bool) (a : Array α) (i : Nat) : Prop where
  except : ∀ j, 0 < j → j ≠ i → InOrder less a (parent j) j
  grand : ∀ j, 0 < j → parent j = i → 0 < i → InOrder less a (parent i) j

theorem UpReady.swap (hless : StrictWeak less) {a : Array α} {i : Nat} (h : UpReady less a i)
    (hi : i < a.size) (hpos : 0 < i) (hp : parent i < a.size)
    (hlt : less a[i] a[parent i] = true) :
    UpReady less (a.swap i (parent i) hi hp) (parent i) := by
  have hpi := parent_lt hpos
  have hedge : InOrder less a i (parent i) := inOrder_of_not_less hi hp (hless.asymm _ _ hlt)
  constructor
  · intro j hj hjp
    rw [inOrder_swap, Equiv.swap_apply_def, Equiv.swap_apply_def, if_neg hjp]
    by_cases hji : j = i
    · -- the edge just swapped
      rw [if_pos hji, hji, if_neg hpi.ne, if_pos rfl]
      exact hedge
    rw [if_neg hji]
    by_cases hpji : parent j = i
    · rw [if_pos hpji]
      exact h.grand j hj hpji hpos
    rw [if_neg hpji]
    by_cases hpjp : parent j = parent i
    · -- a sibling: it did not come before the old parent
      rw [if_pos hpjp]
      exact hedge.trans hless hp (hpjp ▸ h.except j hj hji)
    · rw [if_neg hpjp]
      exact h.except j hj hji
  · intro j hj hpj hppos
    have hgrand := parent_lt hppos
    have htop : InOrder less a (parent (parent i)) (parent i) :=
      h.except (parent i) hppos hpi.ne
    rw [inOrder_swap, Equiv.swap_apply_of_ne_of_ne (by omega) (by omega),
      Equiv.swap_apply_def]
    have hjp : j ≠ parent i := by
      rintro rfl
      exact absurd hpj hgrand.ne
    by_cases hji : j = i
    · rw [if_pos hji]
      exact htop
    · rw [if_neg hji, if_neg hjp]
      exact htop.trans hless hp (hpj ▸ h.except j hj hji)

theorem up_perm (less : α → α → Bool) (a : Array α) (j : Nat) :
    (up less a j).toList.Perm a.toList := by
  induction a, j using up.induct less with
  | case1 a j h hp hlt ih =>
      rw [up, dif_pos h, if_pos hlt]
      exact ih.trans (Array.perm_iff_toList_perm.mp (Array.swap_perm _ _))
  | case2 a j h hp hlt => rw [up, dif_pos h, if_neg hlt]
  | case3 a j h => rw [up, dif_neg h]

theorem up_ordered (hless : StrictWeak less) {a : Array α} {j : Nat} (h : UpReady less a j) :
    HeapFrom less (up less a j) 0 a.size := by
  induction a, j using up.induct less with
  | case1 a j hj hp hlt ih =>
      rw [up, dif_pos hj, if_pos hlt]
      have hrest := ih (h.swap hless hj.2 hj.1 hp hlt)
      rwa [Array.size_swap] at hrest
  | case2 a j hj hp hlt =>
      rw [up, dif_pos hj, if_neg hlt]
      intro k hk hpos _
      by_cases hkj : k = j
      · subst hkj
        exact inOrder_of_not_less hp hj.2 (Bool.eq_false_iff.mpr hlt)
      · exact h.except k hpos hkj
  | case3 a j hj =>
      rw [up, dif_neg hj]
      intro k hk hpos _
      exact h.except k hpos fun heq => hj (heq ▸ ⟨hpos, hk⟩)

/-! ### `down` -/

/-- The child of `i` to go down to: the right one only if it comes before the left. -/
def child (less : α → α → Bool) (a : Array α) (i n : Nat) (hn : n ≤ a.size)
    (_ : 2 * i + 1 < n) : Nat :=
  if h' : 2 * i + 2 < n then
    if less a[2 * i + 2] a[2 * i + 1] then 2 * i + 2 else 2 * i + 1
  else 2 * i + 1

theorem child_spec (less : α → α → Bool) {a : Array α} {i n : Nat} (hn : n ≤ a.size)
    (h : 2 * i + 1 < n) :
    child less a i n hn h < n ∧ i < child less a i n hn h ∧
      parent (child less a i n hn h) = i := by
  unfold child parent
  split
  case isTrue => split <;> omega
  case isFalse => omega

/-- The chosen child comes after none of its siblings. -/
theorem child_least (hless : StrictWeak less) {a : Array α} {i n : Nat} (hn : n ≤ a.size)
    (h : 2 * i + 1 < n) {j : Nat} (hj : j < n) (hpos : 0 < j) (hpj : parent j = i) :
    InOrder less a (child less a i n hn h) j := by
  have hrefl : InOrder less a j j := inOrder_of_not_less (by omega) (by omega) (hless.irrefl _)
  have hcases : j = 2 * i + 1 ∨ j = 2 * i + 2 := by
    unfold parent at hpj
    omega
  unfold child
  by_cases hright : 2 * i + 2 < n
  · rw [dif_pos hright]
    by_cases hlt : less a[2 * i + 2] a[2 * i + 1] = true
    · rw [if_pos hlt]
      rcases hcases with rfl | rfl
      · exact inOrder_of_not_less (by omega) (by omega) (hless.asymm _ _ hlt)
      · exact hrefl
    · rw [if_neg hlt]
      rcases hcases with rfl | rfl
      · exact hrefl
      · exact inOrder_of_not_less (by omega) (by omega) (Bool.eq_false_iff.mpr hlt)
  · rw [dif_neg hright]
    obtain rfl : j = 2 * i + 1 := hcases.resolve_right (by omega)
    exact hrefl

/-- Swap the entry at `i` with its least child until it does not come after it, within
the first `n` entries. -/
def down (less : α → α → Bool) (a : Array α) (i n : Nat) (hn : n ≤ a.size) : Array α :=
  if h : 2 * i + 1 < n then
    have hc := child_spec less hn h
    have hj : child less a i n hn h < a.size := hc.1.trans_le hn
    have hi : i < a.size := hc.2.1.trans hj
    if less a[child less a i n hn h] a[i] then
      down less (a.swap i (child less a i n hn h) hi hj) (child less a i n hn h) n
        (hn.trans_eq (Array.size_swap ..).symm)
    else a
  else a
termination_by n - i
decreasing_by omega

/-- From node `k` on ordered but for the edges out of node `i`; the children of `i` may
move up past it. -/
structure DownReady (less : α → α → Bool) (a : Array α) (k n i : Nat) : Prop where
  except : ∀ j < n, 0 < j → k ≤ parent j → parent j ≠ i → InOrder less a (parent j) j
  grand : ∀ j < n, 0 < j → parent j = i → 0 < i → k ≤ parent i → InOrder less a (parent i) j

theorem DownReady.swap (hless : StrictWeak less) {a : Array α} {k n i : Nat}
    (h : DownReady less a k n i) (hn : n ≤ a.size) (hi : i < a.size) (hik : k ≤ i)
    (hleft : 2 * i + 1 < n) (hj : child less a i n hn hleft < a.size)
    (hlt : less a[child less a i n hn hleft] a[i] = true) :
    DownReady less (a.swap i (child less a i n hn hleft) hi hj) k n
      (child less a i n hn hleft) := by
  obtain ⟨hcn, hic, hpc⟩ := child_spec less hn hleft
  have hleast := fun j => child_least hless hn hleft (j := j)
  generalize child less a i n hn hleft = c at hj hlt hcn hic hpc hleast
  have hedge : InOrder less a c i := inOrder_of_not_less hj hi (hless.asymm _ _ hlt)
  constructor
  · intro j hjn hpos hkj hpjc
    rw [inOrder_swap, Equiv.swap_apply_def, Equiv.swap_apply_def]
    by_cases hpji : parent j = i
    · rw [if_pos hpji]
      by_cases hjc : j = c
      · -- the edge just swapped
        rw [if_neg (by omega), if_pos hjc]
        exact hedge
      · rw [if_neg (by have := parent_lt hpos; omega), if_neg hjc]
        exact hleast j hjn hpos hpji
    rw [if_neg hpji, if_neg hpjc]
    by_cases hji : j = i
    · rw [if_pos hji, hji]
      rw [hji] at hpos hkj
      exact h.grand c hcn (by omega) hpc hpos hkj
    · have hjc : j ≠ c := fun hjc => hpji (hjc.symm ▸ hpc)
      rw [if_neg hji, if_neg hjc]
      exact h.except j hjn hpos hkj hpji
  · intro j hjn hpos hpj _ _
    have hcj := parent_lt hpos
    rw [hpc, inOrder_swap, Equiv.swap_apply_left,
      Equiv.swap_apply_of_ne_of_ne (by omega) (by omega)]
    exact hpj ▸ h.except j hjn hpos (by omega) (by omega)

theorem down_perm (less : α → α → Bool) (a : Array α) (i n : Nat) (hn : n ≤ a.size) :
    (down less a i n hn).toList.Perm a.toList := by
  induction a, i, hn using down.induct less n with
  | case1 a i hn h hc hj hi hlt ih =>
      rw [down, dif_pos h, if_pos hlt]
      exact ih.trans (Array.perm_iff_toList_perm.mp (Array.swap_perm _ _))
  | case2 a i hn h hc hj hi hlt => rw [down, dif_pos h, if_neg hlt]
  | case3 a i hn h => rw [down, dif_neg h]

theorem down_ordered (hless : StrictWeak less) {a : Array α} {k i n : Nat} (hn : n ≤ a.size)
    (hik : k ≤ i) (h : DownReady less a k n i) : HeapFrom less (down less a i n hn) k n := by
  induction a, i, hn using down.induct less n with
  | case1 a i hn hleft hc hj hi hlt ih =>
      rw [down, dif_pos hleft, if_pos hlt]
      exact ih (hik.trans hc.2.1.le) (h.swap hless hn hi hik hleft hj hlt)
  | case2 a i hn hleft hc hj hi hlt =>
      rw [down, dif_pos hleft, if_neg hlt]
      intro j hjn hpos hkj
      by_cases hpj : parent j = i
      · have hstop : InOrder less a i (child less a i n hn hleft) :=
          inOrder_of_not_less hi hj (Bool.eq_false_iff.mpr hlt)
        rw [hpj]
        exact hstop.trans hless hj (child_least hless hn hleft hjn hpos hpj)
      · exact h.except j hjn hpos hkj hpj
  | case3 a i hn hleft =>
      rw [down, dif_neg hleft]
      intro j hjn hpos hkj
      refine h.except j hjn hpos hkj fun hpj => hleft ?_
      unfold parent at hpj
      omega

theorem size_down (less : α → α → Bool) (a : Array α) (i n : Nat) (hn : n ≤ a.size) :
    (down less a i n hn).size = a.size := size_eq_of_perm (down_perm less a i n hn)

/-- Entries from `n` on stay where they are. -/
theorem getElem?_down (less : α → α → Bool) (a : Array α) (i n : Nat) (hn : n ≤ a.size)
    {l : Nat} (hl : n ≤ l) : (down less a i n hn)[l]? = a[l]? := by
  induction a, i, hn using down.induct less n with
  | case1 a i hn h hc hj hi hlt ih =>
      rw [down, dif_pos h, if_pos hlt, ih, getElem?_swap_eq,
        Equiv.swap_apply_of_ne_of_ne (by omega) (by omega)]
  | case2 a i hn h hc hj hi hlt => rw [down, dif_pos h, if_neg hlt]
  | case3 a i hn h => rw [down, dif_neg h]

/-! ### The package -/

/-- Heapify the subtrees of the nodes below `k`, the last one first. -/
def initFrom (less : α → α → Bool) (a : Array α) : Nat → Array α
  | 0 => a
  | k + 1 => initFrom less (down less a k a.size le_rfl) k

/-- Make a slice a heap. -/
def init (less : α → α → Bool) (a : Array α) : Array α := initFrom less a (a.size / 2)

/-- Append an entry and move it up. -/
def push (less : α → α → Bool) (a : Array α) (x : α) : Array α := up less (a.push x) a.size

/-- Exchange the root and the last entry, move the new root down, and take off the last
entry. -/
def pop (less : α → α → Bool) (a : Array α) : Option (α × Array α) :=
  if h : 0 < a.size then
    let b := down less (a.swap 0 (a.size - 1)) 0 (a.size - 1) (by simp)
    b.back?.map fun x => (x, b.pop)
  else none

theorem initFrom_perm (less : α → α → Bool) (a : Array α) (k : Nat) :
    (initFrom less a k).toList.Perm a.toList := by
  induction k generalizing a with
  | zero => rfl
  | succ k ih => exact (ih _).trans (down_perm less a k a.size le_rfl)

theorem initFrom_ordered (hless : StrictWeak less) {a : Array α} {k : Nat}
    (h : HeapFrom less a k a.size) : HeapFrom less (initFrom less a k) 0 a.size := by
  induction k generalizing a with
  | zero => exact h
  | succ k ih =>
      have hready : DownReady less a k a.size k := by
        constructor
        · exact fun j hj hpos hkj hne => h j hj hpos (by omega)
        · intro j hj hpos hpj hk hkk
          exact absurd hkk (parent_lt hk).not_ge
      have hrest := ih (a := down less a k a.size le_rfl)
        ((size_down less a k a.size le_rfl).symm ▸ down_ordered hless le_rfl le_rfl hready)
      rwa [size_down] at hrest

theorem isHeap_init (hless : StrictWeak less) (a : Array α) :
    HeapFrom less (init less a) 0 (init less a).size := by
  have hsize : (init less a).size = a.size := size_eq_of_perm (initFrom_perm less a _)
  rw [hsize]
  -- the nodes of the second half have no children
  refine initFrom_ordered hless fun j hj hpos hkj => absurd hkj ?_
  unfold parent
  omega

theorem push_perm (less : α → α → Bool) (a : Array α) (x : α) :
    (push less a x).toList.Perm (x :: a.toList) := by
  refine (up_perm less _ _).trans ?_
  rw [Array.toList_push]
  exact List.perm_append_singleton x a.toList

theorem isHeap_push (hless : StrictWeak less) {a : Array α} (x : α)
    (h : HeapFrom less a 0 a.size) : HeapFrom less (push less a x) 0 (push less a x).size := by
  have hsize : (push less a x).size = (a.push x).size := size_eq_of_perm (up_perm less _ _)
  rw [hsize]
  refine up_ordered hless ⟨fun j hpos hne => ?_, fun j hpos hpj _ => ?_⟩
  · have hp := parent_lt hpos
    rcases Nat.lt_or_gt_of_ne hne with hlt | hgt
    · intro y hy z hz
      rw [Array.getElem?_push, if_neg (by omega)] at hy hz
      exact h j hlt hpos (Nat.zero_le _) y hy z hz
    · intro y hy z hz
      rw [Array.getElem?_eq_none (by simp; omega)] at hz
      cases hz
  · -- the new last node has no children
    have hp := parent_lt hpos
    intro y hy z hz
    rw [Array.getElem?_eq_none (by simp; omega)] at hz
    cases hz

theorem pop_spec (hless : StrictWeak less) {a : Array α} (h : HeapFrom less a 0 a.size)
    (hne : a ≠ #[]) : ∃ x b, pop less a = some (x, b) ∧ HeapFrom less b 0 b.size ∧
      (x :: b.toList).Perm a.toList ∧ a[0]? = some x := by
  have hpos : 0 < a.size := Array.size_pos_iff.mpr hne
  have hlast : a.size - 1 < a.size := Nat.sub_lt hpos Nat.one_pos
  have hn : a.size - 1 ≤ (a.swap 0 (a.size - 1) hpos hlast).size := by simp
  have hready : DownReady less (a.swap 0 (a.size - 1) hpos hlast) 0 (a.size - 1) 0 := by
    refine ⟨fun j hj hj0 _ hpj => ?_, fun j _ _ _ h0 _ => absurd h0 (lt_irrefl 0)⟩
    have hp := parent_lt hj0
    rw [inOrder_swap, Equiv.swap_apply_of_ne_of_ne hpj (by omega),
      Equiv.swap_apply_of_ne_of_ne (by omega) (by omega)]
    exact h j (by omega) hj0 (Nat.zero_le _)
  have hordered := down_ordered hless hn le_rfl hready
  have hperm := (down_perm less _ 0 (a.size - 1) hn).trans
    (Array.perm_iff_toList_perm.mp (Array.swap_perm hpos hlast))
  have hroot := getElem?_down less _ 0 (a.size - 1) hn (le_refl _)
  have hsize := size_down less _ 0 (a.size - 1) hn
  rw [pop, dif_pos hpos]
  dsimp only
  generalize down less (a.swap 0 (a.size - 1) hpos hlast) 0 (a.size - 1) hn = b at *
  rw [Array.size_swap] at hsize
  rw [getElem?_swap_eq, Equiv.swap_apply_right, Array.getElem?_eq_getElem hpos] at hroot
  have hback : b.back? = some a[0] := by rw [Array.back?_eq_getElem?, hsize, hroot]
  refine ⟨a[0], b.pop, by rw [hback, Option.map_some], ?_, ?_, Array.getElem?_eq_getElem hpos⟩
  · intro j hj hj0 _ y hy z hz
    rw [Array.size_pop, hsize] at hj
    have hp := parent_lt hj0
    rw [Array.getElem?_pop, if_pos (by omega)] at hy hz
    exact hordered j hj hj0 (Nat.zero_le _) y hy z hz
  · obtain ⟨c, rfl⟩ := Array.back?_eq_some_iff.mp hback
    rw [Array.toList_push] at hperm
    rw [Array.pop_push]
    exact (List.perm_append_singleton _ _).symm.trans hperm

end Algorithm

/-- The binary heap meets the contract. -/
def binaryHeap {less : α → α → Bool} (hless : StrictWeak less) : HeapPackage less where
  IsHeap a := HeapFrom less a 0 a.size
  init := init less
  push := push less
  pop := pop less
  isHeap_init := isHeap_init hless
  init_perm a := initFrom_perm less a _
  isHeap_push := isHeap_push hless
  push_perm := push_perm less
  root_least {a x} h hx y hy := by
    obtain ⟨j, hj, rfl⟩ := List.getElem_of_mem hy
    exact h.root hless le_rfl hj x hx _ (Array.getElem?_eq_getElem hj)
  pop_empty := rfl
  pop_spec {a} h hne := by
    obtain ⟨x, b, hpop, hheap, hperm, hx⟩ := pop_spec hless h hne
    refine ⟨x, b, hpop, hheap, hperm, fun y hy => ?_⟩
    obtain ⟨j, hj, rfl⟩ := List.getElem_of_mem hy
    exact h.root hless le_rfl hj x hx _ (Array.getElem?_eq_getElem hj)

end BinaryHeap
