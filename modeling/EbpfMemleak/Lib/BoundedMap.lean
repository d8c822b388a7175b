import Mathlib.Algebra.BigOperators.Group.Finset.Piecewise
import Mathlib.Data.Finmap
import Mathlib.Data.Multiset.MapFold
import Mathlib.Data.Set.Card

/-!
# EbpfMemleak.Lib.BoundedMap

**Finite maps with a capacity.** A `BoundedMap n κ ν` holds at most `n` keys;
the bound is a field, so a map over its capacity cannot be built. The contents
are a `Finmap`, which makes equality extensional (`ext_lookup`).

`update` is the one insertion that can fail: with `UpdateMode.any` it replaces
the value of a present key, with `UpdateMode.noExist` it refuses a present key,
and in both modes a new key is refused once the map is full. `put` is the
insertion of a caller that ignores the error.

`values` is the multiset of stored values. Sums and counts over a map are sums
and counts over `values`, and the `values_*` lemmas say what each operation
adds and removes.
-/

/-- What an insertion does with a key that is already present. -/
inductive UpdateMode
  /-- Create the key or replace its value. -/
  | any
  /-- Create the key, refuse a present one. -/
  | noExist
  deriving Repr, DecidableEq

/-- Why an insertion was refused. -/
inductive UpdateError
  /-- The key is present and the mode is `UpdateMode.noExist`. -/
  | exists
  /-- The key is new and the map is at its capacity. -/
  | full
  deriving Repr, DecidableEq

/-- A finite map with at most `n` keys. -/
structure BoundedMap (n : Nat) (κ ν : Type*) where
  /-- The contents. -/
  toFinmap : Finmap fun _ : κ => ν
  /-- The capacity is respected. -/
  card_le : toFinmap.keys.card ≤ n

namespace BoundedMap

variable {n : Nat} {κ ν : Type*}

instance : Membership κ (BoundedMap n κ ν) := ⟨fun m k => k ∈ m.toFinmap⟩

/-- The empty map. -/
def empty : BoundedMap n κ ν := ⟨∅, by simp⟩

/-- The number of keys. -/
def size (m : BoundedMap n κ ν) : Nat := m.toFinmap.keys.card

/-- The stored values, each as often as it is stored. -/
def values (m : BoundedMap n κ ν) : Multiset ν := m.toFinmap.entries.map Sigma.snd

theorem size_le (m : BoundedMap n κ ν) : m.size ≤ n := m.card_le

@[simp] theorem not_mem_empty (k : κ) : k ∉ (empty : BoundedMap n κ ν) :=
  Finmap.notMem_empty

theorem size_eq_of_mem_iff {m m' : BoundedMap n κ ν} (h : ∀ k, k ∈ m ↔ k ∈ m') :
    m.size = m'.size := by
  unfold size
  congr 1
  ext k
  rw [Finmap.mem_keys, Finmap.mem_keys]
  exact h k

theorem size_le_of_mem_imp {m m' : BoundedMap n κ ν} (h : ∀ k, k ∈ m → k ∈ m') :
    m.size ≤ m'.size := by
  refine Finset.card_le_card fun k hk => ?_
  rw [Finmap.mem_keys] at hk ⊢
  exact h k hk

theorem size_lt_of_mem_imp {m m' : BoundedMap n κ ν} (h : ∀ k, k ∈ m → k ∈ m') {k : κ}
    (hk : k ∈ m') (hk' : k ∉ m) : m.size < m'.size := by
  refine Finset.card_lt_card (Finset.ssubset_iff_of_subset (fun k hk => ?_) |>.mpr ⟨k, ?_, ?_⟩)
  · rw [Finmap.mem_keys] at hk ⊢
    exact h k hk
  · exact Finmap.mem_keys.mpr hk
  · rw [Finmap.mem_keys]
    exact hk'

theorem size_le_one {m : BoundedMap n κ ν} {k : κ} (h : ∀ k' ∈ m, k' = k) : m.size ≤ 1 := by
  refine Finset.card_le_one.mpr fun a ha b hb => ?_
  rw [h a (Finmap.mem_keys.mp ha), h b (Finmap.mem_keys.mp hb)]

/-- A set that has the keys of a map has as many elements. -/
theorem size_eq_ncard {m : BoundedMap n κ ν} {s : Set κ} (h : ∀ k, k ∈ m ↔ k ∈ s) :
    m.size = s.ncard := by
  have hkeys : s = ↑m.toFinmap.keys := by
    ext k
    rw [Finset.mem_coe, Finmap.mem_keys]
    exact (h k).symm
  rw [hkeys, Set.ncard_coe_finset]
  rfl

/-- An insertion under `k` finds a place: `k` is present or a slot is free. -/
def HasRoom (k : κ) (m : BoundedMap n κ ν) : Prop := k ∈ m ∨ m.size < n

theorem HasRoom.of_mem {k : κ} {m : BoundedMap n κ ν} (h : k ∈ m) : m.HasRoom k := Or.inl h

theorem HasRoom.of_size_lt {m : BoundedMap n κ ν} (h : m.size < n) (k : κ) : m.HasRoom k :=
  Or.inr h

variable [DecidableEq κ]

instance (k : κ) (m : BoundedMap n κ ν) : Decidable (k ∈ m) :=
  inferInstanceAs (Decidable (k ∈ m.toFinmap))

/-- The value stored under `k`, if any. -/
def lookup (k : κ) (m : BoundedMap n κ ν) : Option ν := m.toFinmap.lookup k

/-- Remove `k`; a no-op when it is absent. -/
def erase (k : κ) (m : BoundedMap n κ ν) : BoundedMap n κ ν :=
  ⟨m.toFinmap.erase k, by
    rw [Finmap.keys_erase]
    exact (Finset.card_erase_le).trans m.card_le⟩

instance (k : κ) (m : BoundedMap n κ ν) : Decidable (m.HasRoom k) :=
  inferInstanceAs (Decidable (_ ∨ _))

theorem keys_insert (k : κ) (v : ν) (f : Finmap fun _ : κ => ν) :
    (f.insert k v).keys = insert k f.keys := by
  ext k'
  simp [Finmap.mem_keys]

/-- Store `v` under `k` where there is room. -/
def insert (k : κ) (v : ν) (m : BoundedMap n κ ν) (h : m.HasRoom k) : BoundedMap n κ ν :=
  ⟨m.toFinmap.insert k v, by
    rw [keys_insert]
    rcases h with h | h
    · rw [Finset.insert_eq_of_mem (Finmap.mem_keys.mpr h)]
      exact m.card_le
    · exact (Finset.card_insert_le _ _).trans h⟩

/-- Insert `v` under `k`, or say why not. The check for a present key comes
before the check for a free slot. -/
def update (mode : UpdateMode) (k : κ) (v : ν) (m : BoundedMap n κ ν) :
    Except UpdateError (BoundedMap n κ ν) :=
  if h : k ∈ m then
    match mode with
    | .any => .ok (m.insert k v (.of_mem h))
    | .noExist => .error .exists
  else if h' : m.size < n then .ok (m.insert k v (.of_size_lt h' k)) else .error .full

/-- `update .any` by a caller that ignores the error. -/
def put (k : κ) (v : ν) (m : BoundedMap n κ ν) : BoundedMap n κ ν :=
  match m.update .any k v with
  | .ok m' => m'
  | .error _ => m

/-- Apply `f` to the value under `k` in place; a no-op when it is absent. -/
def modify (k : κ) (f : ν → ν) (m : BoundedMap n κ ν) : BoundedMap n κ ν :=
  match h : m.lookup k with
  | some v => m.insert k (f v) (.of_mem (Finmap.mem_of_lookup_eq_some h))
  | none => m

/-! ### Lookups -/

theorem mem_iff {m : BoundedMap n κ ν} {k : κ} : k ∈ m ↔ ∃ v, m.lookup k = some v :=
  Finmap.mem_iff

theorem lookup_eq_none {m : BoundedMap n κ ν} {k : κ} : m.lookup k = none ↔ k ∉ m :=
  Finmap.lookup_eq_none

theorem mem_of_lookup {m : BoundedMap n κ ν} {k : κ} {v : ν} (h : m.lookup k = some v) :
    k ∈ m := mem_iff.mpr ⟨v, h⟩

/-- Two maps with the same lookups are equal. -/
theorem ext_lookup {m m' : BoundedMap n κ ν} (h : ∀ k, m.lookup k = m'.lookup k) : m = m' := by
  cases m
  cases m'
  congr 1
  exact Finmap.ext_lookup h

@[simp] theorem lookup_empty (k : κ) : (empty : BoundedMap n κ ν).lookup k = none :=
  Finmap.lookup_empty k

theorem lookup_erase (k k' : κ) (m : BoundedMap n κ ν) :
    (m.erase k).lookup k' = if k' = k then none else m.lookup k' := by
  split
  case isTrue h => subst h; exact Finmap.lookup_erase _ _
  case isFalse h => exact Finmap.lookup_erase_ne h

@[simp] theorem mem_erase {k k' : κ} {m : BoundedMap n κ ν} :
    k' ∈ m.erase k ↔ k' ≠ k ∧ k' ∈ m := Finmap.mem_erase

/-- Erasing an absent key changes nothing. -/
theorem erase_of_not_mem {k : κ} {m : BoundedMap n κ ν} (h : k ∉ m) : m.erase k = m := by
  refine ext_lookup fun k' => ?_
  rw [lookup_erase]
  split
  case isTrue hk => rw [hk, lookup_eq_none.mpr h]
  case isFalse => rfl

theorem lookup_insert (k k' : κ) (v : ν) (m : BoundedMap n κ ν) (h : m.HasRoom k) :
    (m.insert k v h).lookup k' = if k' = k then some v else m.lookup k' := by
  split
  case isTrue hk => subst hk; exact Finmap.lookup_insert _
  case isFalse hk => exact Finmap.lookup_insert_of_ne _ hk

/-! ### Insertions -/

theorem mem_insert {k k' : κ} {v : ν} {m : BoundedMap n κ ν} (h : m.HasRoom k) :
    k' ∈ m.insert k v h ↔ k' = k ∨ k' ∈ m := by
  rw [mem_iff, lookup_insert, mem_iff]
  split
  case isTrue heq => simp [heq]
  case isFalse hne => simp [hne]

theorem update_any_of_room {k : κ} {v : ν} {m : BoundedMap n κ ν} (h : m.HasRoom k) :
    m.update .any k v = .ok (m.insert k v h) := by
  unfold update
  by_cases hk : k ∈ m
  · rw [dif_pos hk]
  · rw [dif_neg hk, dif_pos (h.resolve_left hk)]

theorem update_of_not_room {mode : UpdateMode} {k : κ} {v : ν} {m : BoundedMap n κ ν}
    (h : ¬ m.HasRoom k) : m.update mode k v = .error .full := by
  obtain ⟨hk, hsize⟩ := not_or.mp h
  rw [update, dif_neg hk, dif_neg hsize]

theorem update_noExist_of_mem {k : κ} {v : ν} {m : BoundedMap n κ ν} (h : k ∈ m) :
    m.update .noExist k v = .error .exists := by
  rw [update, dif_pos h]

theorem update_noExist_of_not_mem {k : κ} {v : ν} {m : BoundedMap n κ ν}
    (h : k ∉ m) (hroom : m.HasRoom k) : m.update .noExist k v = .ok (m.insert k v hroom) := by
  rw [update, dif_neg h, dif_pos (hroom.resolve_left h)]

theorem put_of_room {k : κ} {v : ν} {m : BoundedMap n κ ν} (h : m.HasRoom k) :
    m.put k v = m.insert k v h := by
  rw [put, update_any_of_room h]

/-- A full map refuses a new key and stays as it is. -/
theorem put_of_not_room {k : κ} {v : ν} {m : BoundedMap n κ ν} (h : ¬ m.HasRoom k) :
    m.put k v = m := by
  rw [put, update_of_not_room h]

theorem lookup_put {k : κ} {m : BoundedMap n κ ν} (h : m.HasRoom k) (v : ν) (k' : κ) :
    (m.put k v).lookup k' = if k' = k then some v else m.lookup k' := by
  rw [put_of_room h, lookup_insert]

theorem lookup_put_of_ne {k k' : κ} (h : k' ≠ k) (v : ν) (m : BoundedMap n κ ν) :
    (m.put k v).lookup k' = m.lookup k' := by
  by_cases hroom : m.HasRoom k
  · rw [lookup_put hroom, if_neg h]
  · rw [put_of_not_room hroom]

/-- An insertion that changes nothing: there is no room, or the value is there. -/
theorem put_eq_self_iff {k : κ} {v : ν} {m : BoundedMap n κ ν} :
    m.put k v = m ↔ (m.HasRoom k → m.lookup k = some v) := by
  by_cases hroom : m.HasRoom k
  · constructor
    · intro h _
      rw [← h, lookup_put hroom, if_pos rfl]
    · intro h
      refine ext_lookup fun k' => ?_
      rw [lookup_put hroom]
      split
      case isTrue hk => rw [hk, h hroom]
      case isFalse => rfl
  · exact iff_of_true (put_of_not_room hroom) fun h => absurd h hroom

/-- Deleting a new key takes its insertion back. -/
theorem erase_put {k : κ} {m : BoundedMap n κ ν} (h : k ∉ m) (v : ν) :
    (m.put k v).erase k = m := by
  refine ext_lookup fun k' => ?_
  rw [lookup_erase]
  split
  case isTrue hk => rw [hk, lookup_eq_none.mpr h]
  case isFalse hk => rw [lookup_put_of_ne hk]

theorem mem_put {k k' : κ} {v : ν} {m : BoundedMap n κ ν} (h : m.HasRoom k) :
    k' ∈ m.put k v ↔ k' = k ∨ k' ∈ m := by
  rw [put_of_room h]
  exact Finmap.mem_insert

theorem lookup_modify (k k' : κ) (f : ν → ν) (m : BoundedMap n κ ν) :
    (m.modify k f).lookup k' = if k' = k then (m.lookup k).map f else m.lookup k' := by
  unfold modify
  split
  case h_1 v hv =>
    rw [lookup_insert]
    split
    case isTrue hk => rw [hv, Option.map_some]
    case isFalse => rfl
  case h_2 hv =>
    split
    case isTrue hk => rw [hk, hv, Option.map_none]
    case isFalse => rfl

theorem modify_of_not_mem {k : κ} {f : ν → ν} {m : BoundedMap n κ ν} (h : k ∉ m) :
    m.modify k f = m := by
  refine ext_lookup fun k' => ?_
  rw [lookup_modify]
  split
  case isTrue hk => rw [hk, lookup_eq_none.mpr h, Option.map_none]
  case isFalse => rfl

@[simp] theorem mem_modify {k k' : κ} {f : ν → ν} {m : BoundedMap n κ ν} :
    k' ∈ m.modify k f ↔ k' ∈ m := by
  rw [mem_iff, mem_iff, lookup_modify]
  split
  case isTrue hk => simp [hk]
  case isFalse => rfl

/-! ### Sizes -/

theorem size_erase_le (k : κ) (m : BoundedMap n κ ν) : (m.erase k).size ≤ m.size := by
  show (m.toFinmap.erase k).keys.card ≤ _
  rw [Finmap.keys_erase]
  exact Finset.card_erase_le

/-- A new key with room takes one more slot. -/
theorem size_put_of_not_mem {k : κ} {v : ν} {m : BoundedMap n κ ν} (h : k ∉ m)
    (hroom : m.HasRoom k) : (m.put k v).size = m.size + 1 := by
  rw [put_of_room hroom, size, insert, keys_insert,
    Finset.card_insert_of_notMem (by rwa [Finmap.mem_keys])]
  rfl

/-- An insertion takes at most one more slot. -/
theorem size_put_le (k : κ) (v : ν) (m : BoundedMap n κ ν) : (m.put k v).size ≤ m.size + 1 := by
  by_cases hroom : m.HasRoom k
  · by_cases hmem : k ∈ m
    · refine (size_le_of_mem_imp fun k' hk' => ?_).trans (Nat.le_succ _)
      exact ((mem_put hroom).mp hk').elim (fun heq => heq ▸ hmem) id
    · exact (size_put_of_not_mem hmem hroom).le
  · rw [put_of_not_room hroom]
    exact Nat.le_succ _

/-! ### Stored values -/

/-- Storing under a new key adds exactly the new value. -/
theorem values_put_of_not_mem {k : κ} {v : ν} {m : BoundedMap n κ ν} (h : k ∉ m)
    (hroom : m.HasRoom k) : (m.put k v).values = v ::ₘ m.values := by
  rw [put_of_room hroom]
  show ((m.toFinmap.insert k v).entries.map Sigma.snd) = _
  rw [Finmap.entries_insert_of_notMem h, Multiset.map_cons, values]

/-- Erasing a key removes exactly the value stored under it. -/
theorem values_erase_of_lookup {k : κ} {v : ν} {m : BoundedMap n κ ν}
    (h : m.lookup k = some v) : m.values = v ::ₘ (m.erase k).values := by
  have hfresh : k ∉ m.erase k := fun hk => (mem_erase.mp hk).1 rfl
  have hsplit : m.toFinmap = (m.toFinmap.erase k).insert k v := by
    refine Finmap.ext_lookup fun k' => ?_
    by_cases hk : k' = k
    · rw [hk, Finmap.lookup_insert]
      exact h
    · rw [Finmap.lookup_insert_of_ne _ hk, Finmap.lookup_erase_ne hk]
  rw [values, hsplit, Finmap.entries_insert_of_notMem (s := m.toFinmap.erase k) hfresh,
    Multiset.map_cons]
  rfl

/-- Overwriting a key exchanges the old value for the new one. -/
theorem values_put_of_lookup {k : κ} {v w : ν} {m : BoundedMap n κ ν}
    (h : m.lookup k = some w) : w ::ₘ (m.put k v).values = v ::ₘ m.values := by
  have hroom : m.HasRoom k := Or.inl (mem_of_lookup h)
  have hput : (m.put k v).lookup k = some v := by rw [lookup_put hroom, if_pos rfl]
  have herase : (m.put k v).erase k = m.erase k := by
    refine ext_lookup fun k' => ?_
    rw [lookup_erase, lookup_erase]
    split
    case isTrue => rfl
    case isFalse hk => rw [lookup_put_of_ne hk]
  rw [values_erase_of_lookup hput, values_erase_of_lookup h, herase, Multiset.cons_swap]

/-- **What the values add up to, key by key.** -/
theorem sum_map_values [Fintype κ] {M : Type*} [AddCommMonoid M] (f : ν → M)
    (m : BoundedMap n κ ν) : (m.values.map f).sum = ∑ k, (m.lookup k).elim 0 f := by
  generalize hsize : m.size = size
  induction size using Nat.strong_induction_on generalizing m with
  | _ size ih =>
      by_cases hempty : ∀ k, k ∉ m
      · obtain rfl : m = empty := ext_lookup fun k => by
          rw [lookup_eq_none.mpr (hempty k), lookup_empty]
        simp only [lookup_empty, Option.elim_none, Finset.sum_const_zero]
        rfl
      · -- one entry apart, both sums lose its value
        obtain ⟨k, hk⟩ := not_forall_not.mp hempty
        obtain ⟨v, hv⟩ := mem_iff.mp hk
        have hlt : (m.erase k).size < size := hsize ▸
          size_lt_of_mem_imp (fun k' hk' => (mem_erase.mp hk').2) hk fun hk' =>
            (mem_erase.mp hk').1 rfl
        have hsplit : ∀ k', (m.lookup k').elim 0 f =
            (if k' = k then f v else 0) + ((m.erase k).lookup k').elim 0 f := by
          intro k'
          rw [lookup_erase]
          by_cases hk' : k' = k
          · simp [hk', hv]
          · simp [hk']
        rw [values_erase_of_lookup hv, Multiset.map_cons, Multiset.sum_cons, ih _ hlt _ rfl,
          Finset.sum_congr rfl fun k' _ => hsplit k', Finset.sum_add_distrib,
          Finset.sum_ite_eq' Finset.univ k fun _ => f v, if_pos (Finset.mem_univ k)]

/-- A map with the entries of another whose values pass a test has the values that do. -/
theorem values_filter [Fintype κ] {p : ν → Prop} [DecidablePred p] {m m' : BoundedMap n κ ν}
    (h : ∀ k, m'.lookup k = (m.lookup k).filter p) : m'.values = m.values.filter p := by
  calc m'.values = (m'.values.map fun v => {v}).sum := by rw [Multiset.sum_map_singleton]
    _ = ∑ k, (m.lookup k).elim 0 fun v => if p v then {v} else 0 := by
      rw [sum_map_values]
      refine Finset.sum_congr rfl fun k _ => ?_
      rw [h k]
      cases m.lookup k with
      | none => rfl
      | some v => by_cases hv : p v <;> simp [Option.filter, hv]
    _ = m.values.filter p := by
      rw [← sum_map_values, Multiset.filter_eq_bind]
      rfl

end BoundedMap
