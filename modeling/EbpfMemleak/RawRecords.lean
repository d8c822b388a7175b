import EbpfMemleak.Decoding

/-!
# EbpfMemleak.RawRecords

**`struct alloc_info` in memory and `UnmarshalBinaryAllocInfo`.** The C record is two words,
an `int` and four bytes of padding, in the byte order of the target; `AllocInfoRaw` repeats the
padding as a blank field. The decoder reads little-endian fields one after the other and drops
what follows the record.

A field is put together byte by byte, lowest first (`byteAt_littleEndian`), so decoding undoes
the layout of a little-endian target, and that of a big-endian one exactly for fields whose
bytes read the same from both ends.
-/

namespace EbpfMemleak

/-! ### The layout -/

/-- The bytes of an `n`-byte number in memory. -/
def ByteOrder.bytes (order : ByteOrder) (n : Nat) {w : Nat} (x : BitVec w) : List U8 :=
  (List.range n).map (order.byteAt n x)

/-- The bytes of a `struct alloc_info` in memory. -/
def AllocInfo.memory (order : ByteOrder) (padding : Vector U8 4) (info : AllocInfo) : List U8 :=
  order.bytes 8 info.size ++ order.bytes 8 info.timestampNs ++ order.bytes 4 info.stackId ++
    padding.toList

/-! ### The decoder -/

/-- `binary.LittleEndian.Uint64` and `Uint32`. -/
def littleEndian (w : Nat) (bytes : List U8) : BitVec w :=
  bytes.foldr (fun b x => b.setWidth w ||| x <<< 8) 0

/-- `UnmarshalBinaryAllocInfo`. `binary.Read` reads as many bytes as `AllocInfoRaw` has, and
skips the blank field. -/
def unmarshalBinaryAllocInfo (data : List U8) : Except String AllocInfoRaw :=
  if data.length = 0 then .error "EOF"
  else if data.length < 24 then .error "unexpected EOF"
  else .ok ⟨littleEndian 64 (data.take 8), littleEndian 64 ((data.drop 8).take 8),
    littleEndian 32 ((data.drop 16).take 4)⟩

/-! ### Byte by byte -/

theorem byteAt_zero_or {w : Nat} (b : U8) (x : BitVec w) (hw : 8 ≤ w) :
    byteAt (b.setWidth w ||| x <<< 8) 0 = b := by
  apply BitVec.eq_of_getLsbD_eq
  intro j hj
  simp [byteAt, hj, show j < w by omega]

theorem byteAt_succ_or {w i : Nat} (b : U8) (x : BitVec w) (hi : 8 * (i + 2) ≤ w) :
    byteAt (b.setWidth w ||| x <<< 8) (i + 1) = byteAt x i := by
  apply BitVec.eq_of_getLsbD_eq
  intro j hj
  simp only [byteAt, BitVec.getLsbD_extractLsb', BitVec.getLsbD_or, BitVec.getLsbD_setWidth,
    BitVec.getLsbD_shiftLeft]
  rw [BitVec.getLsbD_of_ge b _ (by omega), show 8 * (i + 1) + j - 8 = 8 * i + j by omega]
  simp [show 8 * (i + 1) + j < w by omega, show ¬ 8 * (i + 1) + j < 8 by omega]

/-- **Byte `i` of the number is byte `i` of the list.** -/
theorem byteAt_littleEndian {w : Nat} {bytes : List U8} (hw : 8 * bytes.length ≤ w) {i : Nat}
    (hi : i < bytes.length) : byteAt (littleEndian w bytes) i = bytes[i] := by
  induction bytes generalizing i with
  | nil => cases hi
  | cons b bytes ih =>
      rw [List.length_cons] at hw hi
      cases i with
      | zero => exact byteAt_zero_or b _ (by omega)
      | succ i => exact (byteAt_succ_or b _ (by omega)).trans (ih (by omega) (by omega))

/-- A number decodes to itself exactly if its bytes lie in memory lowest first. -/
theorem littleEndian_bytes_iff (order : ByteOrder) {w n : Nat} (hw : w = 8 * n) (x : BitVec w) :
    littleEndian w (order.bytes n x) = x ↔ order = .little ∨ BytePalindrome n x := by
  have hlength : (order.bytes n x).length = n := by simp [ByteOrder.bytes]
  have hself := eq_setWidth_iff_byteAt hw (y := littleEndian w (order.bytes n x)) (x := x)
    (fun i hi => BitVec.getLsbD_of_ge _ i hi) (Nat.le_refl w)
  rw [BitVec.setWidth_eq] at hself
  rw [hself, ← byteAt_memory_iff]
  refine forall₂_congr fun i hi => ?_
  rw [byteAt_littleEndian (by omega) (by omega)]
  simp [ByteOrder.bytes]

/-- The bytes of what they decode to are the bytes. -/
theorem bytes_littleEndian {w n : Nat} (hw : w = 8 * n) {bytes : List U8}
    (hlength : bytes.length = n) : ByteOrder.little.bytes n (littleEndian w bytes) = bytes := by
  refine List.ext_getElem (by simp [ByteOrder.bytes, hlength]) fun i hi hi' => ?_
  simpa [ByteOrder.bytes, ByteOrder.byteAt] using byteAt_littleEndian (by omega) hi'

/-! ### The record -/

/-- A record in memory, field by field. -/
theorem unmarshal_memory (order : ByteOrder) (padding : Vector U8 4) (info : AllocInfo)
    (rest : List U8) : unmarshalBinaryAllocInfo (info.memory order padding ++ rest) =
      .ok ⟨littleEndian 64 (order.bytes 8 info.size),
        littleEndian 64 (order.bytes 8 info.timestampNs),
        littleEndian 32 (order.bytes 4 info.stackId)⟩ := by
  have hbytes {w : Nat} (n : Nat) (x : BitVec w) : (order.bytes n x).length = n := by
    simp [ByteOrder.bytes]
  have hlength : (info.memory order padding ++ rest).length = 24 + rest.length := by
    simp only [AllocInfo.memory, List.length_append, hbytes, Vector.length_toList]
  unfold unmarshalBinaryAllocInfo
  rw [if_neg (by omega), if_neg (by omega)]
  simp [AllocInfo.memory, List.drop_append, hbytes, List.drop_of_length_le]

/-- **`UnmarshalBinaryAllocInfo` is the inverse of the little-endian layout.** It accepts what
starts with a record, whatever the padding and what follows, and nothing else: less than 24
bytes are an error. On a big-endian target it gets a record right exactly if the bytes of its
fields read the same from both ends. -/
theorem unmarshal_alloc_info_iff :
    (∀ (order : ByteOrder) (padding : Vector U8 4) (info : AllocInfo) (rest : List U8),
      unmarshalBinaryAllocInfo (info.memory order padding ++ rest) = .ok info.raw ↔
        order = .little ∨ (BytePalindrome 8 info.size ∧ BytePalindrome 8 info.timestampNs ∧
          BytePalindrome 4 info.stackId)) ∧
    (∀ (data : List U8) (raw : AllocInfoRaw), unmarshalBinaryAllocInfo data = .ok raw ↔
      ∃ (info : AllocInfo) (padding : Vector U8 4) (rest : List U8),
        data = info.memory .little padding ++ rest ∧ raw = info.raw) ∧
    ∀ data : List U8, data.length < 24 → unmarshalBinaryAllocInfo data =
      .error (if data = [] then "EOF" else "unexpected EOF") := by
  refine ⟨fun order padding info rest => ?_, fun data raw => ⟨fun h => ?_, ?_⟩, fun data h => ?_⟩
  · rw [unmarshal_memory, or_and_left, or_and_left,
      ← @littleEndian_bytes_iff order 64 8 rfl info.size,
      ← @littleEndian_bytes_iff order 64 8 rfl info.timestampNs,
      ← @littleEndian_bytes_iff order 32 4 rfl info.stackId]
    simp [AllocInfo.raw]
  · unfold unmarshalBinaryAllocInfo at h
    split at h
    case isTrue => cases h
    case isFalse =>
      split at h
      case isTrue => cases h
      case isFalse hlong =>
        obtain rfl := Except.ok.inj h
        let padding : Vector U8 4 := ⟨((data.drop 20).take 4).toArray, by simp; omega⟩
        refine ⟨⟨littleEndian 64 (data.take 8), littleEndian 64 ((data.drop 8).take 8),
          littleEndian 32 ((data.drop 16).take 4)⟩, padding, data.drop 24, ?_, rfl⟩
        have hpadding : padding.toList = (data.drop 20).take 4 := by simp [padding]
        rw [AllocInfo.memory, @bytes_littleEndian 64 8 rfl _ (by simp; omega),
          @bytes_littleEndian 64 8 rfl _ (by simp; omega),
          @bytes_littleEndian 32 4 rfl _ (by simp; omega), hpadding]
        -- the fields are one after the other
        rw [← List.take_add, ← List.take_add, ← List.take_add]
        exact (List.take_append_drop 24 data).symm
  · rintro ⟨info, padding, rest, rfl, rfl⟩
    rw [unmarshal_memory]
    rw [(@littleEndian_bytes_iff .little 64 8 rfl info.size).mpr (Or.inl rfl),
      (@littleEndian_bytes_iff .little 64 8 rfl info.timestampNs).mpr (Or.inl rfl),
      (@littleEndian_bytes_iff .little 32 4 rfl info.stackId).mpr (Or.inl rfl)]
    rfl
  · unfold unmarshalBinaryAllocInfo
    by_cases hempty : data = []
    · simp [hempty]
    · simp [hempty, h]

end EbpfMemleak
