import EbpfMemleak.Info
import Mathlib.Tactic.IntervalCases

/-!
# EbpfMemleak.Decoding

**The Go decoder and the byte order of the target.** C packs a total and a count into the
union by bit-fields, the kernel hands its eight bytes to Go in memory order, and
`GetCombinedAllocInfo` puts them together again by shifts. The shifts take byte `i` of the
value for byte `i` of the total while `i < 5`, and for byte `i - 5` of the count above
(`byte_totalSize`, `byte_numberOfAllocs`). So the decoder loses nothing
(`getCombinedAllocInfo_injective`), but it undoes the packing of a little-endian target
only: on a big-endian one both fields come out with their bytes reversed.
-/

namespace EbpfMemleak

/-- Byte `i` of a number, counted from its least significant end. -/
def byteAt {w : Nat} (x : BitVec w) (i : Nat) : U8 := x.extractLsb' (8 * i) 8

/-- The lowest `n` bytes of the number read the same from both ends. -/
def BytePalindrome {w : Nat} (n : Nat) (x : BitVec w) : Prop :=
  ∀ i < n, byteAt x i = byteAt x (n - 1 - i)

instance {w : Nat} (n : Nat) (x : BitVec w) : Decidable (BytePalindrome n x) :=
  inferInstanceAs (Decidable (∀ i < n, byteAt x i = byteAt x (n - 1 - i)))

/-- A number of `n` bytes, kept in a wider word, is known by these bytes. -/
theorem eq_setWidth_iff_byteAt {v w n : Nat} (hw : w = 8 * n) {y : BitVec v} {x : BitVec w}
    (hy : ∀ i, w ≤ i → y.getLsbD i = false) (hv : w ≤ v) :
    y = x.setWidth v ↔ ∀ i < n, byteAt y i = byteAt x i := by
  constructor
  · rintro rfl i hi
    apply BitVec.eq_of_getLsbD_eq
    intro j hj
    simp only [byteAt, BitVec.getLsbD_extractLsb', BitVec.getLsbD_setWidth]
    simp [show 8 * i + j < v by omega]
  · intro h
    apply BitVec.eq_of_getLsbD_eq
    intro j hj
    rw [BitVec.getLsbD_setWidth, decide_eq_true hj, Bool.true_and]
    by_cases hjw : j < w
    · -- bit `j` is bit `j % 8` of byte `j / 8`
      have hbyte := congrArg (·.getLsbD (j % 8)) (h (j / 8) (by omega))
      simpa [byteAt, BitVec.getLsbD_extractLsb', Nat.mod_lt, Nat.div_add_mod] using hbyte
    · rw [hy j (by omega), BitVec.getLsbD_of_ge x j (by omega)]

/-! ### The decoder -/

/-- The total is made of the first five bytes, lowest first. -/
theorem byte_totalSize (stackId : U32) (raw : CombinedAllocInfoRaw) {i : Nat} (hi : i < 5) :
    byteAt (getCombinedAllocInfo stackId raw).totalSize i = raw.bits[i] := by
  apply BitVec.eq_of_getLsbD_eq
  intro j hj
  simp only [getCombinedAllocInfo, byteAt, BitVec.getLsbD_extractLsb', BitVec.getLsbD_or,
    BitVec.getLsbD_setWidth, BitVec.getLsbD_shiftLeft]
  interval_cases i <;> interval_cases j <;> simp

/-- The count is made of the last three. -/
theorem byte_numberOfAllocs (stackId : U32) (raw : CombinedAllocInfoRaw) {i : Nat} (hi : i < 3) :
    byteAt (getCombinedAllocInfo stackId raw).numberOfAllocs i = raw.bits[5 + i] := by
  apply BitVec.eq_of_getLsbD_eq
  intro j hj
  simp only [getCombinedAllocInfo, byteAt, BitVec.getLsbD_extractLsb', BitVec.getLsbD_or,
    BitVec.getLsbD_setWidth, BitVec.getLsbD_shiftLeft]
  interval_cases i <;> interval_cases j <;> simp

theorem getLsbD_totalSize (stackId : U32) (raw : CombinedAllocInfoRaw) {i : Nat} (hi : 40 ≤ i) :
    (getCombinedAllocInfo stackId raw).totalSize.getLsbD i = false := by
  simp only [getCombinedAllocInfo, BitVec.getLsbD_or, BitVec.getLsbD_setWidth,
    BitVec.getLsbD_shiftLeft]
  simp (disch := omega) [BitVec.getLsbD_of_ge]

theorem getLsbD_numberOfAllocs (stackId : U32) (raw : CombinedAllocInfoRaw) {i : Nat}
    (hi : 24 ≤ i) : (getCombinedAllocInfo stackId raw).numberOfAllocs.getLsbD i = false := by
  simp only [getCombinedAllocInfo, BitVec.getLsbD_or, BitVec.getLsbD_setWidth,
    BitVec.getLsbD_shiftLeft]
  simp (disch := omega) [BitVec.getLsbD_of_ge]

/-- Different values decode differently. -/
theorem getCombinedAllocInfo_injective (stackId : U32) :
    Function.Injective (getCombinedAllocInfo stackId) := by
  intro raw raw' h
  have hbits : raw.bits = raw'.bits := by
    apply Vector.ext
    intro i hi
    by_cases h5 : i < 5
    · rw [← byte_totalSize stackId raw h5, h, byte_totalSize stackId raw' h5]
    · have hcount : i - 5 < 3 := by omega
      have hbyte := byte_numberOfAllocs stackId raw hcount
      rw [h, byte_numberOfAllocs stackId raw' hcount] at hbyte
      simpa [show 5 + (i - 5) = i by omega] using hbyte.symm
  cases raw
  cases raw'
  exact congrArg _ hbits

/-! ### The bytes in memory -/

/-- The value of a `combined_allocs` entry with this total and count, as it reaches Go on a
target of this byte order. -/
def CombinedAllocInfoRaw.packed (order : ByteOrder) (total : BitVec 40) (count : BitVec 24) :
    CombinedAllocInfoRaw :=
  .ofBits order (CombinedAllocInfo.ofInfo order total count).bits

/-- Byte `i` of an `n`-byte number as it lies in memory. -/
def ByteOrder.byteAt (order : ByteOrder) (n : Nat) {w : Nat} (x : BitVec w) (i : Nat) : U8 :=
  match order with
  | .little => EbpfMemleak.byteAt x i
  | .big => EbpfMemleak.byteAt x (n - 1 - i)

/-- The first field lies in the first five bytes, in both layouts. -/
theorem memory_totalSize (order : ByteOrder) (total : BitVec 40) (count : BitVec 24) {i : Nat}
    (hi : i < 5) :
    (CombinedAllocInfoRaw.packed order total count).bits[i] = order.byteAt 5 total i := by
  apply BitVec.eq_of_getLsbD_eq
  intro j hj
  cases order with
  | little =>
      simp only [CombinedAllocInfoRaw.packed, CombinedAllocInfoRaw.ofBits,
        CombinedAllocInfo.ofInfo, ByteOrder.byteAt, byteAt, Vector.getElem_ofFn,
        BitVec.getLsbD_extractLsb', BitVec.getLsbD_append]
      simp [hj, show 8 * i + j < 40 by omega]
  | big =>
      simp only [CombinedAllocInfoRaw.packed, CombinedAllocInfoRaw.ofBits,
        CombinedAllocInfo.ofInfo, ByteOrder.byteAt, byteAt, Vector.getElem_ofFn,
        BitVec.getLsbD_extractLsb', BitVec.getLsbD_append]
      simp [show ¬ 8 * (7 - i) + j < 24 by omega,
        show 8 * (7 - i) + j - 24 = 8 * (4 - i) + j by omega]

/-- The second field lies in the last three. -/
theorem memory_numberOfAllocs (order : ByteOrder) (total : BitVec 40) (count : BitVec 24)
    {i : Nat} (hi : i < 3) :
    (CombinedAllocInfoRaw.packed order total count).bits[5 + i] = order.byteAt 3 count i := by
  apply BitVec.eq_of_getLsbD_eq
  intro j hj
  cases order with
  | little =>
      simp only [CombinedAllocInfoRaw.packed, CombinedAllocInfoRaw.ofBits,
        CombinedAllocInfo.ofInfo, ByteOrder.byteAt, byteAt, Vector.getElem_ofFn,
        BitVec.getLsbD_extractLsb', BitVec.getLsbD_append]
      simp [show ¬ 8 * (5 + i) + j < 40 by omega,
        show 8 * (5 + i) + j - 40 = 8 * i + j by omega]
  | big =>
      simp only [CombinedAllocInfoRaw.packed, CombinedAllocInfoRaw.ofBits,
        CombinedAllocInfo.ofInfo, ByteOrder.byteAt, byteAt, Vector.getElem_ofFn,
        BitVec.getLsbD_extractLsb', BitVec.getLsbD_append]
      simp [show 8 * (7 - (5 + i)) + j = 8 * (2 - i) + j by omega,
        show 8 * (2 - i) + j < 24 by omega]

/-- What lies in memory is the number, lowest byte first, on a little-endian target, and on
a big-endian one exactly if it reads the same from both ends. -/
theorem byteAt_memory_iff (order : ByteOrder) {w n : Nat} (x : BitVec w) :
    (∀ i < n, order.byteAt n x i = byteAt x i) ↔ order = .little ∨ BytePalindrome n x := by
  cases order with
  | little => simp [ByteOrder.byteAt]
  | big => simp [ByteOrder.byteAt, BytePalindrome, eq_comm]

/-- **When the decoder undoes the packing**: on little-endian targets always, on big-endian
ones exactly for a total and a count whose bytes read the same from both ends. Different
values decode differently on both. -/
theorem decode_packed_iff (stackId : U32) :
    (∀ (order : ByteOrder) (total : BitVec 40) (count : BitVec 24),
      getCombinedAllocInfo stackId (.packed order total count) =
          ⟨stackId, total.setWidth 64, count.setWidth 32⟩ ↔
        order = .little ∨ (BytePalindrome 5 total ∧ BytePalindrome 3 count)) ∧
    Function.Injective fun raw =>
      ((getCombinedAllocInfo stackId raw).totalSize,
        (getCombinedAllocInfo stackId raw).numberOfAllocs) := by
  constructor
  · intro order total count
    let raw := CombinedAllocInfoRaw.packed order total count
    have htotal : (getCombinedAllocInfo stackId raw).totalSize = total.setWidth 64 ↔
        order = .little ∨ BytePalindrome 5 total := by
      rw [eq_setWidth_iff_byteAt (n := 5) rfl (fun i => getLsbD_totalSize stackId raw) (by decide),
        ← byteAt_memory_iff]
      refine forall₂_congr fun i hi => ?_
      rw [byte_totalSize stackId raw hi, memory_totalSize order total count hi]
    have hcount : (getCombinedAllocInfo stackId raw).numberOfAllocs = count.setWidth 32 ↔
        order = .little ∨ BytePalindrome 3 count := by
      rw [eq_setWidth_iff_byteAt (n := 3) rfl (fun i => getLsbD_numberOfAllocs stackId raw)
        (by decide), ← byteAt_memory_iff]
      refine forall₂_congr fun i hi => ?_
      rw [byte_numberOfAllocs stackId raw hi, memory_numberOfAllocs order total count hi]
    rw [or_and_left, ← htotal, ← hcount]
    constructor
    · intro h
      exact ⟨congrArg StackInfo.totalSize h, congrArg StackInfo.numberOfAllocs h⟩
    · rintro ⟨ht, hc⟩
      exact StackInfo.mk.injEq .. ▸ ⟨rfl, ht, hc⟩
  · intro raw raw' h
    obtain ⟨ht, hc⟩ := Prod.mk.inj h
    refine getCombinedAllocInfo_injective stackId ?_
    exact StackInfo.mk.injEq .. ▸ ⟨rfl, ht, hc⟩

/-- One allocation of 100 bytes, packed and read on a big-endian target. -/
theorem big_endian_report :
    getCombinedAllocInfo 3 (.packed .big 100 1) = ⟨3, 429496729600, 65536⟩ ∧
      getCombinedAllocInfo 3 (.packed .big 100 1) ≠ ⟨3, 100, 1⟩ := by
  decide

end EbpfMemleak
