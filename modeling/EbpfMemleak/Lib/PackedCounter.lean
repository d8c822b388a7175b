import Mathlib.Data.BitVec
import Mathlib.Algebra.BigOperators.Group.Multiset.Basic
import Mathlib.Algebra.Order.BigOperators.Group.Multiset
import Mathlib.Tactic.Ring

/-!
# EbpfMemleak.Lib.PackedCounter

**Two counters in one word.** A word of `l + h` bits keeps a running total in
its low `l` bits and a count in its high `h` bits, and both are updated by one
addition: an item of size `n` contributes `one l n`, a one in the count
field plus its size cut to `l` bits.

The word after any number of additions is the sum of the contributions modulo
`2 ^ (l + h)`. `low_total` and `high_total` say what its two fields then hold;
`high_total_eq_card_iff` says exactly when the total has not carried into the
count.
-/

namespace PackedCounter

/-- What one item of size `n` adds to the word. -/
def one (l n : Nat) : Nat := 2 ^ l + n % 2 ^ l

/-- The low field: the running total. -/
def low (l w : Nat) : Nat := w % 2 ^ l

/-- The high field: the count. -/
def high (l h w : Nat) : Nat := w / 2 ^ l % 2 ^ h

/-- The word after the items of sizes `s` were added to an empty one. -/
def total (l h : Nat) (s : Multiset Nat) : Nat := (s.map (one l)).sum % 2 ^ (l + h)

variable {l h : Nat}

theorem sum_one (l : Nat) (s : Multiset Nat) :
    (s.map (one l)).sum = (s.map (· % 2 ^ l)).sum + s.card * 2 ^ l := by
  induction s using Multiset.induction_on with
  | empty => simp
  | cons n s ih =>
      simp only [Multiset.map_cons, Multiset.sum_cons, Multiset.card_cons, ih, one]
      ring

theorem sum_mod_mod (l : Nat) (s : Multiset Nat) :
    (s.map (· % 2 ^ l)).sum % 2 ^ l = s.sum % 2 ^ l := by
  induction s using Multiset.induction_on with
  | empty => rfl
  | cons n s ih =>
      simp only [Multiset.map_cons, Multiset.sum_cons]
      rw [Nat.add_mod, ih, Nat.mod_mod, ← Nat.add_mod]

/-- Cutting each size to `l` bits can only make the sum smaller. -/
theorem sum_mod_le (l : Nat) (s : Multiset Nat) : (s.map (· % 2 ^ l)).sum ≤ s.sum := by
  induction s using Multiset.induction_on with
  | empty => rfl
  | cons n s ih =>
      simp only [Multiset.map_cons, Multiset.sum_cons]
      exact Nat.add_le_add (Nat.mod_le _ _) ih

/-- Every cut size is below `2 ^ l`, so the carry out of the low field is below
the number of items. -/
theorem sum_mod_lt (l : Nat) {s : Multiset Nat} (hs : s ≠ 0) :
    (s.map (· % 2 ^ l)).sum < s.card * 2 ^ l := by
  have hpos : 0 < 2 ^ l := Nat.two_pow_pos l
  have hle : ∀ t : Multiset Nat, (t.map (· % 2 ^ l)).sum ≤ t.card * 2 ^ l := by
    intro t
    induction t using Multiset.induction_on with
    | empty => simp
    | cons n t ih =>
        simp only [Multiset.map_cons, Multiset.sum_cons, Multiset.card_cons, Nat.succ_mul]
        have := Nat.mod_lt n hpos
        omega
  obtain ⟨n, hn⟩ := Multiset.exists_mem_of_ne_zero hs
  obtain ⟨t, rfl⟩ := Multiset.exists_cons_of_mem hn
  simp only [Multiset.map_cons, Multiset.sum_cons, Multiset.card_cons, Nat.succ_mul]
  have := Nat.mod_lt n hpos
  have := hle t
  omega

/-! ### The two fields of a total -/

/-- The low field holds the sum of the sizes modulo `2 ^ l`. -/
theorem low_total (s : Multiset Nat) : low l (total l h s) = s.sum % 2 ^ l := by
  rw [low, total, Nat.mod_mod_of_dvd _ (pow_dvd_pow 2 (Nat.le_add_right l h)), sum_one,
    Nat.add_mul_mod_self_right, sum_mod_mod]

/-- The high field holds the number of items plus the carries out of the low
field, modulo `2 ^ h`. -/
theorem high_total (s : Multiset Nat) :
    high l h (total l h s) = (s.card + (s.map (· % 2 ^ l)).sum / 2 ^ l) % 2 ^ h := by
  rw [high, total, pow_add, Nat.mod_mul_right_div_self, Nat.mod_mod, sum_one,
    Nat.add_mul_div_right _ _ (Nat.two_pow_pos l), Nat.add_comm]

/-- With fewer than `2 ^ h` items the high field counts them exactly when the
cut sizes have not overflowed the low field. -/
theorem high_total_eq_card_iff {s : Multiset Nat} (hcard : s.card < 2 ^ h) :
    high l h (total l h s) = s.card ↔ (s.map (· % 2 ^ l)).sum < 2 ^ l := by
  rw [high_total]
  have hpos : 0 < 2 ^ l := Nat.two_pow_pos l
  by_cases hs : s = 0
  · simp [hs]
  have hcarry : (s.map (· % 2 ^ l)).sum / 2 ^ l < s.card :=
    Nat.div_lt_of_lt_mul (by rw [Nat.mul_comm]; exact sum_mod_lt l hs)
  rw [← Nat.div_eq_zero_iff_lt hpos]
  generalize (s.map (· % 2 ^ l)).sum / 2 ^ l = carry at hcarry ⊢
  constructor
  · intro heq
    by_contra hne
    rcases Nat.lt_or_ge (s.card + carry) (2 ^ h) with hlt | hge
    · rw [Nat.mod_eq_of_lt hlt] at heq
      omega
    · rw [Nat.mod_eq_sub_mod hge, Nat.mod_eq_of_lt (by omega)] at heq
      omega
  · rintro rfl
    exact Nat.mod_eq_of_lt hcard

/-- While the sizes sum to less than `2 ^ l` and there are fewer than `2 ^ h`
items, the fields are the plain sum and the plain count. -/
theorem fields_total {s : Multiset Nat} (hsum : s.sum < 2 ^ l) (hcard : s.card < 2 ^ h) :
    low l (total l h s) = s.sum ∧ high l h (total l h s) = s.card := by
  constructor
  · rw [low_total, Nat.mod_eq_of_lt hsum]
  · exact (high_total_eq_card_iff hcard).mpr ((sum_mod_le l s).trans_lt hsum)

/-! ### Words as bit vectors -/

/-- The total, with the width of the word given as one number. -/
theorem total_eq {w : Nat} (hw : l + h = w) (s : Multiset Nat) :
    total l h s = (s.map (one l)).sum % 2 ^ w := by
  rw [total, hw]

/-- A sum of machine words is the sum of their values, wrapped. -/
theorem toNat_sum {α : Type*} {w : Nat} (f : α → BitVec w) (s : Multiset α) :
    (s.map f).sum.toNat = (s.map fun a => (f a).toNat).sum % 2 ^ w := by
  induction s using Multiset.induction_on with
  | empty => simp
  | cons a s ih =>
      simp only [Multiset.map_cons, Multiset.sum_cons, BitVec.toNat_add, ih]
      rw [Nat.add_mod_mod]

end PackedCounter
