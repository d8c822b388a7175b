import Mathlib.Data.List.Sort
import Mathlib.Data.List.FinRange
import Mathlib.Data.Multiset.AddSub

/-!
# EbpfMemleak.Lib.TopN

**The `n` greatest entries of a stream.** `IsTop key n s t` says that `t` are `n`
entries of the multiset `s` with greatest keys, or all of `s` while it is smaller.
A selection that reads `s` entry by entry keeps `IsTop` with one of three moves:
take the entry while there is room (`IsTop.take`), exchange it for a least one
(`IsTop.exchange`), pass it by (`IsTop.pass`).

Which entries are taken depends on the order of the stream where keys are equal;
the keys do not. `IsTop.map_key_eq` says that the keys, put in descending order,
are the first `n` of the sorted keys of the stream.
-/

namespace TopN

open scoped List

variable {α κ : Type*} [LinearOrder κ] {key : α → κ} {n : ℕ} {s t : Multiset α}

/-- `t` are `n` entries of `s` with greatest keys, or all of them. -/
structure IsTop (key : α → κ) (n : ℕ) (s t : Multiset α) : Prop where
  card : t.card = min n s.card
  split : ∃ rest, s = t + rest ∧ ∀ x ∈ t, ∀ y ∈ rest, key y ≤ key x

theorem isTop_zero (key : α → κ) (n : ℕ) : IsTop key n 0 0 :=
  ⟨by simp, 0, by simp, by simp⟩

theorem IsTop.le (h : IsTop key n s t) : t ≤ s := by
  obtain ⟨rest, rfl, -⟩ := h.split
  exact Multiset.le_add_right t rest

/-- While fewer than `n` entries are taken, none has been left out. -/
theorem IsTop.eq_of_card_lt (h : IsTop key n s t) (hlt : t.card < n) : t = s :=
  Multiset.eq_of_le_of_card_le h.le (by have := h.card; omega)

/-- An entry that is left out is beaten by all that are taken, and these are `n`. -/
theorem IsTop.beaten (h : IsTop key n s t) {x : α} (hx : x ∈ s) (hnot : x ∉ t) :
    t.card = n ∧ ∀ y ∈ t, key x ≤ key y := by
  have hcard := h.card
  obtain ⟨rest, rfl, hrest⟩ := h.split
  have hmem : x ∈ rest := (Multiset.mem_add.mp hx).resolve_left hnot
  refine ⟨?_, fun y hy => hrest y hy x hmem⟩
  have hpos : 0 < rest.card := Multiset.card_pos_iff_exists_mem.mpr ⟨x, hmem⟩
  rw [Multiset.card_add] at hcard
  omega

theorem IsTop.take (h : IsTop key n s t) (hlt : t.card < n) (x : α) :
    IsTop key n (x ::ₘ s) (x ::ₘ t) := by
  obtain rfl := h.eq_of_card_lt hlt
  refine ⟨?_, 0, by simp, by simp⟩
  rw [Multiset.card_cons]
  omega

/-- An entry that does not beat a least one is passed by. -/
theorem IsTop.pass (h : IsTop key n s t) (hge : n ≤ t.card) {x : α}
    (hx : ∀ y ∈ t, key x ≤ key y) : IsTop key n (x ::ₘ s) t := by
  have hcard := h.card
  obtain ⟨rest, rfl, hrest⟩ := h.split
  refine ⟨?_, x ::ₘ rest, by simp, ?_⟩
  · simp only [Multiset.card_cons, Multiset.card_add] at hcard ⊢
    omega
  · intro y hy z hz
    rcases Multiset.mem_cons.mp hz with rfl | hz
    · exact hx y hy
    · exact hrest y hy z hz

/-- An entry that beats a least one takes its place. -/
theorem IsTop.exchange {r : α} (h : IsTop key n s (r ::ₘ t)) (hge : n ≤ t.card + 1)
    (hr : ∀ y ∈ t, key r ≤ key y) {x : α} (hx : key r < key x) :
    IsTop key n (x ::ₘ s) (x ::ₘ t) := by
  have hcard := h.card
  obtain ⟨rest, rfl, hrest⟩ := h.split
  refine ⟨?_, r ::ₘ rest, ?_, ?_⟩
  · simp only [Multiset.card_cons, Multiset.card_add] at hcard ⊢
    omega
  · simp [Multiset.cons_swap x r]
  · -- what was left out was below `r`, and `r` is below all that is taken now
    intro y hy z hz
    have hzr : key z ≤ key r := by
      rcases Multiset.mem_cons.mp hz with rfl | hz
      · exact le_rfl
      · exact hrest r (Multiset.mem_cons_self r t) z hz
    rcases Multiset.mem_cons.mp hy with rfl | hy
    · exact hzr.trans hx.le
    · exact hzr.trans (hr y hy)

/-- In descending order, the keys of the top are the first `n` sorted keys. -/
theorem IsTop.map_key_eq {xs top : List α} (h : IsTop key n ↑xs ↑top)
    (hsorted : (top.map key).Pairwise (· ≥ ·)) :
    top.map key = ((xs.map key).insertionSort (· ≥ ·)).take n := by
  have hcard := h.card
  obtain ⟨rest, hrest, hle⟩ := h.split
  induction rest using Quotient.inductionOn with
  | h rest =>
  have hperm : xs.Perm (top ++ rest) := Multiset.coe_eq_coe.mp hrest
  have hsort : (xs.map key).insertionSort (· ≥ ·) =
      top.map key ++ (rest.map key).insertionSort (· ≥ ·) := by
    refine List.Perm.eq_of_pairwise' (List.pairwise_insertionSort _ _) ?_ ?_
    · refine List.pairwise_append.mpr ⟨hsorted, List.pairwise_insertionSort _ _, ?_⟩
      intro a ha b hb
      obtain ⟨x, hx, rfl⟩ := List.mem_map.mp ha
      obtain ⟨y, hy, rfl⟩ := List.mem_map.mp ((List.mem_insertionSort _).mp hb)
      exact hle x hx y hy
    · calc (xs.map key).insertionSort (· ≥ ·)
          ~ xs.map key := List.perm_insertionSort _ _
        _ ~ (top ++ rest).map key := hperm.map key
        _ = top.map key ++ rest.map key := List.map_append
        _ ~ _ := (List.perm_insertionSort _ _).symm.append_left _
  have hlen : top.length = min n (top.length + rest.length) := by
    simpa [hperm.length_eq] using hcard
  rw [hsort]
  rcases Nat.le_total n (top.length + rest.length) with hn | hn
  · rw [List.take_left' (by rw [List.length_map]; omega)]
  · have hnil : rest = [] := List.length_eq_zero_iff.mp (by omega)
    rw [hnil, List.map_nil, List.insertionSort_nil, List.append_nil,
      List.take_of_length_le (by rw [List.length_map]; omega)]

/-- A list whose entries are taken from `xs`, each as often as it is there at most, sits
at distinct positions of `xs`. -/
theorem exists_positions {xs top : List α} (h : top.Subperm xs) :
    ∃ positions : List (Fin xs.length), positions.Nodup ∧ top = positions.map xs.get := by
  obtain ⟨ys, hys, hsub⟩ := h
  have hxs : ys.Sublist ((List.finRange xs.length).map xs.get) := by
    rwa [← List.ofFn_eq_map, List.ofFn_get]
  obtain ⟨ps, hps, rfl⟩ := List.sublist_map_iff.mp hxs
  obtain ⟨qs, rfl, hqs⟩ := (congrFun (congrFun (List.eq_map_comp_perm xs.get) top) ps).mpr hys.symm
  exact ⟨qs, hqs.nodup_iff.mpr (hps.nodup (List.nodup_finRange _)), rfl⟩

end TopN
