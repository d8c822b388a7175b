import EbpfMemleak.Lib.PackedCounter

/-!
# EbpfMemleak.Info

The records the BPF side and the Go side share: `memleak.h` and `info.go`.

`union combined_alloc_info` is one 64-bit word with two bit-fields,
`total_size : 40` and `number_of_allocs : 24`. The C ABI lays bit-fields out
from the least significant bit on little-endian targets and from the most
significant bit on big-endian ones, so the packing takes a `ByteOrder`. The Go
side never sees the union: it gets the eight bytes of the map value in memory
order and takes them apart with shifts (`getCombinedAllocInfo`).

`contribution sz` is the word one allocation of `sz` bytes adds to its stack.
It is the `PackedCounter.one 40` of the size, and decoding a little-endian word
reads the two fields of the packed counter.
-/

namespace EbpfMemleak

/-- `u8`. -/
abbrev U8 := BitVec 8
/-- `u32`. -/
abbrev U32 := BitVec 32
/-- `u64` and `size_t`. -/
abbrev U64 := BitVec 64
/-- `int`, in two's complement. -/
abbrev I32 := BitVec 32
/-- `pid_t`. -/
abbrev Pid := BitVec 32

/-- The byte order of a target. -/
inductive ByteOrder
  | little
  | big
  deriving Repr, DecidableEq

/-! ### `memleak.h` -/

/-- `ALLOCS_MAX_ENTRIES`. -/
def allocsMaxEntries : Nat := 1000000

/-- `COMBINED_ALLOCS_MAX_ENTRIES`. -/
def combinedAllocsMaxEntries : Nat := 10240

/-- `struct alloc_info`: one outstanding allocation. -/
structure AllocInfo where
  size : U64
  timestampNs : U64
  stackId : I32
  deriving Repr, DecidableEq

/-- The key a record is counted under: `stack_id` is an `int` and the key of
`combined_allocs` a `u64`, so passing it to `update_statistics_*` sign-extends
it. -/
def AllocInfo.stackKey (info : AllocInfo) : U64 := info.stackId.signExtend 64

theorem setWidth_signExtend (id : I32) : (id.signExtend 64).setWidth 32 = id := by
  apply BitVec.eq_of_getLsbD_eq
  intro i hi
  rw [BitVec.getLsbD_setWidth, BitVec.getLsbD_signExtend]
  simp [hi, show i < 64 by omega]

/-- Records are counted under one key exactly when they have one stack id. -/
theorem stackKey_eq_iff {info info' : AllocInfo} :
    info.stackKey = info'.stackKey ↔ info.stackId = info'.stackId := by
  constructor
  · intro h
    have hcut := congrArg (·.setWidth 32) h
    simpa only [AllocInfo.stackKey, setWidth_signExtend] using hcut
  · exact fun h => congrArg (·.signExtend 64) h

/-- `union combined_alloc_info`, as its 64-bit view `bits`. -/
structure CombinedAllocInfo where
  bits : U64
  deriving Repr, DecidableEq

/-- The union written through its `info` view. -/
def CombinedAllocInfo.ofInfo (order : ByteOrder) (totalSize : BitVec 40)
    (numberOfAllocs : BitVec 24) : CombinedAllocInfo :=
  match order with
  | .little => ⟨numberOfAllocs ++ totalSize⟩
  | .big => ⟨totalSize ++ numberOfAllocs⟩

/-- The zero-initialised `initial_cinfo`. -/
def initialCinfo : CombinedAllocInfo := ⟨0⟩

/-- `incremental_cinfo.bits` and `decremental_cinfo.bits`: a `total_size` of `sz`
cut to its 40 bits and a `number_of_allocs` of one. -/
def contribution (sz : U64) : U64 :=
  (CombinedAllocInfo.ofInfo .little (sz.setWidth 40) 1).bits

theorem toNat_contribution (sz : U64) :
    (contribution sz).toNat = PackedCounter.one 40 sz.toNat := by
  have hlt : sz.toNat % 2 ^ 40 < 2 ^ 40 := Nat.mod_lt _ (by decide)
  simp only [contribution, CombinedAllocInfo.ofInfo, BitVec.toNat_append, BitVec.toNat_setWidth]
  rw [← Nat.shiftLeft_add_eq_or_of_lt hlt, PackedCounter.one]
  rfl

/-- An allocation always changes the word of its stack. -/
theorem contribution_ne_zero (sz : U64) : contribution sz ≠ 0 := by
  intro h
  have hpos : 0 < (contribution sz).toNat := by
    rw [toNat_contribution, PackedCounter.one]
    exact Nat.add_pos_left (Nat.two_pow_pos 40) _
  rw [h] at hpos
  exact absurd hpos (by decide)

/-! ### `info.go` -/

/-- The value of a `combined_allocs` entry as it reaches Go. -/
structure CombinedAllocInfoRaw where
  bits : Vector U8 8
  deriving Repr, DecidableEq

/-- `info.CombinedAllocInfo`: one stack of the report. -/
structure StackInfo where
  stackId : U32
  totalSize : U64
  numberOfAllocs : U32
  deriving Repr, DecidableEq

/-- `GetCombinedAllocInfo`. Its error result is always `nil`. -/
def getCombinedAllocInfo (stackId : U32) (raw : CombinedAllocInfoRaw) : StackInfo :=
  let total : U64 :=
    raw.bits[0].setWidth 64 ||| (raw.bits[1].setWidth 64 <<< 8)
      ||| (raw.bits[2].setWidth 64 <<< 16) ||| (raw.bits[3].setWidth 64 <<< 24)
      ||| (raw.bits[4].setWidth 64 <<< 32)
  let number : U32 :=
    raw.bits[5].setWidth 32 ||| (raw.bits[6].setWidth 32 <<< 8)
      ||| (raw.bits[7].setWidth 32 <<< 16)
  { stackId := stackId, totalSize := total, numberOfAllocs := number }

/-- `info.AllocInfoRaw`: the value of an `allocs` entry as it reaches Go. -/
structure AllocInfoRaw where
  size : U64
  timestampNs : U64
  stackId : U32
  deriving Repr, DecidableEq

/-- The fields of a `struct alloc_info` in Go: the bits of the `int` are read as a
`uint32`. -/
def AllocInfo.raw (info : AllocInfo) : AllocInfoRaw where
  size := info.size
  timestampNs := info.timestampNs
  stackId := info.stackId

/-- `info.AllocInfo`: one outstanding allocation of the report. -/
structure ReportedAlloc where
  size : U64
  timestampNs : U64
  stackId : U32
  address : U64
  deriving Repr, DecidableEq

/-- `GetAllocInfo`. -/
def getAllocInfo (address : U64) (raw : AllocInfoRaw) : ReportedAlloc where
  size := raw.size
  timestampNs := raw.timestampNs
  stackId := raw.stackId
  address := address

/-- The eight bytes of a word in memory, by byte order. -/
def CombinedAllocInfoRaw.ofBits (order : ByteOrder) (w : U64) : CombinedAllocInfoRaw :=
  match order with
  | .little => ⟨.ofFn fun i => w.extractLsb' (8 * i) 8⟩
  | .big => ⟨.ofFn fun i => w.extractLsb' (8 * (7 - i)) 8⟩

/-- Shifting a byte in above the `s` bits read so far reads `s + 8` bits. -/
theorem or_shiftLeft_byte (w : U64) (base s v : Nat) :
    (w.extractLsb' base s).setWidth v ||| ((w.extractLsb' (base + s) 8).setWidth v <<< s) =
      (w.extractLsb' base (s + 8)).setWidth v := by
  apply BitVec.eq_of_getLsbD_eq
  intro i hi
  simp only [BitVec.getLsbD_or, BitVec.getLsbD_setWidth, BitVec.getLsbD_extractLsb',
    BitVec.getLsbD_shiftLeft]
  by_cases hs : i < s
  · simp [hs, hi, show i < s + 8 by omega]
  · have hidx : base + s + (i - s) = base + i := by omega
    by_cases h8 : i < s + 8
    · simp [hs, hi, h8, hidx, show i - s < 8 by omega, show i - s < v by omega]
    · simp [hs, hi, h8, show ¬ i - s < 8 by omega]

/-- Go's `TotalSize` of a little-endian word is the low field. -/
theorem totalSize_getCombinedAllocInfo (stackId : U32) (w : U64) :
    (getCombinedAllocInfo stackId (.ofBits .little w)).totalSize.toNat =
      PackedCounter.low 40 w.toNat := by
  have h : (getCombinedAllocInfo stackId (.ofBits .little w)).totalSize =
      (w.extractLsb' 0 40).setWidth 64 := by
    simp only [getCombinedAllocInfo, CombinedAllocInfoRaw.ofBits, Vector.getElem_ofFn]
    rw [or_shiftLeft_byte w 0 8, or_shiftLeft_byte w 0 16, or_shiftLeft_byte w 0 24,
      or_shiftLeft_byte w 0 32]
  rw [h, BitVec.toNat_setWidth, BitVec.extractLsb'_toNat, PackedCounter.low, Nat.shiftRight_zero]
  exact Nat.mod_eq_of_lt ((Nat.mod_lt _ (by decide)).trans (by decide))

/-- Go's `NumberOfAllocs` of a little-endian word is the high field. -/
theorem numberOfAllocs_getCombinedAllocInfo (stackId : U32) (w : U64) :
    (getCombinedAllocInfo stackId (.ofBits .little w)).numberOfAllocs.toNat =
      PackedCounter.high 40 24 w.toNat := by
  have h : (getCombinedAllocInfo stackId (.ofBits .little w)).numberOfAllocs =
      (w.extractLsb' 40 24).setWidth 32 := by
    simp only [getCombinedAllocInfo, CombinedAllocInfoRaw.ofBits, Vector.getElem_ofFn]
    rw [or_shiftLeft_byte w 40 8, or_shiftLeft_byte w 40 16]
  rw [h, BitVec.toNat_setWidth, BitVec.extractLsb'_toNat, PackedCounter.high,
    Nat.shiftRight_eq_div_pow]
  exact Nat.mod_eq_of_lt ((Nat.mod_lt _ (by decide)).trans (by decide))

end EbpfMemleak
