import Stratumind.Lib.LittleEndian

/-!
# Ordered bit packing

The parameters and the reader of `common/src/bitpacking_ordered.rs`. A panic is `none`, and so
is a read outside the slice. The arithmetic that the source checks is checked against 64 bits.
-/

namespace Stratumind.BitpackingOrdered

open Lib

/-- `checked_mul` of `usize`. -/
def checkedMul (a b : ℕ) : Option ℕ := if a * b < 2 ^ 64 then some (a * b) else none

/-- `checked_add` of `usize`. -/
def checkedAdd (a b : ℕ) : Option ℕ := if a + b < 2 ^ 64 then some (a + b) else none

/-- The lowest bits of a number of 64 bits. -/
def makeBitmask (bits : ℕ) : ℕ := if 64 ≤ bits then 2 ^ 64 - 1 else 2 ^ bits - 1

/-- The size of the tail padding, which allows unaligned reads of 8 bytes. -/
def tailSize : ℕ := 7

/-- Compression parameters. Required for decompression. -/
structure Parameters where
  length : ℕ
  baseBits : ℕ
  deltaBits : ℕ
  chunkLenLog2 : ℕ

namespace Parameters

variable (p : Parameters)

/-- The allowed range for the `delta_bits` parameter. -/
def DeltaInRange : Prop := 1 ≤ p.deltaBits ∧ p.deltaBits ≤ 56

/-- Whether the parameters are valid. -/
def Valid : Prop := p.baseBits ≤ 64 ∧ p.DeltaInRange ∧ p.chunkLenLog2 ≤ 7

instance : Decidable p.Valid := inferInstanceAs (Decidable (_ ∧ (_ ∧ _) ∧ _))

/-- Size of a single chunk in bytes. -/
def chunkSizeBytes : Option ℕ := do
  let deltas ← checkedMul p.deltaBits (makeBitmask p.chunkLenLog2)
  let bits ← checkedAdd p.baseBits deltas
  some ((bits + 7) / 8)

/-- The number of chunks. -/
def chunksCount : ℕ := (p.length + (2 ^ p.chunkLenLog2 - 1)) / 2 ^ p.chunkLenLog2

/-- Size of the compressed data, without the tail. -/
def totalChunksSizeBytes : Option ℕ := do checkedMul p.chunksCount (← p.chunkSizeBytes)

end Parameters

/-- A decompression error and its text. -/
structure DecompressionError where
  message : String

/-- Random access to compressed values. -/
structure Reader where
  baseBits : ℕ
  baseMask : ℕ
  deltaBits : ℕ
  deltaMask : ℕ
  chunkLenLog2 : ℕ
  chunkLenMask : ℕ
  chunkSizeBytes : ℕ
  compressed : List UInt8
  len : ℕ

/-- Reads 8 bytes at an offset. -/
def readU64Le (bytes : List UInt8) (offset : ℕ) : Option ℕ :=
  (readLe 8 (bytes.drop offset)).map Prod.fst

namespace Reader

variable (reader : Reader)

/-- Where the chunk of an index begins. -/
def chunkOffset (index : ℕ) : ℕ := (index >>> reader.chunkLenLog2) * reader.chunkSizeBytes

/-- Where the delta of a value of a chunk begins, in bits. -/
def deltaOffsetBits (valueIndex : ℕ) : ℕ := reader.baseBits + (valueIndex - 1) * reader.deltaBits

/-- The assertions of `new`: the bytes for the last index are there. -/
def Asserted : Prop :=
  reader.len = 0 ∨ reader.chunkOffset (reader.len - 1) + 8 ≤ reader.compressed.length ∧
    (reader.chunkLenMask = 0 ∨ reader.chunkOffset (reader.len - 1) +
      reader.deltaOffsetBits reader.chunkLenMask / 8 + 8 ≤ reader.compressed.length)

instance : Decidable reader.Asserted := inferInstanceAs (Decidable (_ ∨ _ ∧ (_ ∨ _)))

/-- The reader of compressed data. -/
def ofParameters (p : Parameters) (chunkSizeBytes : ℕ) (compressed : List UInt8) : Reader where
  baseBits := p.baseBits
  baseMask := makeBitmask p.baseBits
  deltaBits := p.deltaBits
  deltaMask := makeBitmask p.deltaBits
  chunkLenLog2 := p.chunkLenLog2
  chunkLenMask := makeBitmask p.chunkLenLog2
  chunkSizeBytes
  compressed
  len := p.length

/-- Splits the compressed data from the bytes and checks that it is long enough. -/
def new (p : Parameters) (bytes : List UInt8) :
    Option (Except DecompressionError (Reader × List UInt8)) :=
  if ¬p.Valid then some (.error ⟨"invalid parameters"⟩)
  else
    match p.totalChunksSizeBytes.bind fun size => checkedAdd size tailSize with
    | none => some (.error ⟨"invalid parameters"⟩)
    | some size =>
      let got := bytes.length
      if got < size then
        some (.error ⟨s!"insufficient length (compressed data, expected {size} bytes, got {got})"⟩)
      else do
        let result := ofParameters p (← p.chunkSizeBytes) (bytes.take size)
        if result.Asserted then some (.ok (result, bytes.drop size)) else none

/-- The value at the given index. -/
def get (index : ℕ) : Option (Option ℕ) :=
  if reader.len ≤ index then some none
  else do
    let chunkOffset := reader.chunkOffset index
    let valueIndex := index &&& reader.chunkLenMask
    let base := (← readU64Le reader.compressed chunkOffset) &&& reader.baseMask
    if valueIndex = 0 then some (some base)
    else
      let offset := reader.deltaOffsetBits valueIndex
      let word ← readU64Le reader.compressed (chunkOffset + offset / 8)
      some (some ((base + ((word >>> (offset % 8)) &&& reader.deltaMask)) % 2 ^ 64))

/-- What the assertions of `new` check for the last index holds for every index. -/
theorem Asserted.get_isSome {reader : Reader} (h : reader.Asserted) (index : ℕ) :
    (reader.get index).isSome := by
  have hread : ∀ offset, offset + 8 ≤ reader.compressed.length →
      ∃ word, readU64Le reader.compressed offset = some word := by
    intro offset hle
    rw [readU64Le, readLe, if_pos (by rw [List.length_drop]; omega)]
    exact ⟨_, rfl⟩
  unfold get
  split
  · rfl
  rename_i hindex
  obtain ⟨hbase, hdelta⟩ := h.resolve_left (by omega)
  have hchunk : reader.chunkOffset index ≤ reader.chunkOffset (reader.len - 1) := by
    simp only [chunkOffset, Nat.shiftRight_eq_div_pow]
    exact Nat.mul_le_mul_right _ (Nat.div_le_div_right (by omega))
  obtain ⟨base, hword⟩ := hread _ (Nat.le_trans (Nat.add_le_add_right hchunk 8) hbase)
  simp only [hword, Option.bind_eq_bind, Option.bind_some]
  split
  · rfl
  have hle : index &&& reader.chunkLenMask ≤ reader.chunkLenMask := Nat.and_le_right
  have hbits : reader.deltaOffsetBits (index &&& reader.chunkLenMask) ≤
      reader.deltaOffsetBits reader.chunkLenMask :=
    Nat.add_le_add_left (Nat.mul_le_mul_right _ (Nat.sub_le_sub_right hle 1)) _
  obtain ⟨word, hword⟩ := hread (reader.chunkOffset index +
    reader.deltaOffsetBits (index &&& reader.chunkLenMask) / 8) (by omega)
  rw [hword]
  rfl

end Reader

namespace Parameters

variable {p : Parameters}

/-- The size of a chunk, in exact arithmetic. -/
def chunkSize (p : Parameters) : ℕ :=
  (p.baseBits + p.deltaBits * (2 ^ p.chunkLenLog2 - 1) + 7) / 8

/-- The size of the chunks and the tail, in exact arithmetic. -/
def totalSize (p : Parameters) : ℕ := p.chunksCount * p.chunkSize + tailSize

section

variable (h : p.Valid)

include h

theorem Valid.makeBitmask_eq : makeBitmask p.chunkLenLog2 = 2 ^ p.chunkLenLog2 - 1 := by
  have hlen := h.2.2
  rw [makeBitmask, if_neg (by omega)]

/-- The size of a chunk of valid parameters does not overflow. -/
theorem Valid.chunkSizeBytes_eq : p.chunkSizeBytes = some p.chunkSize := by
  have hmask := h.makeBitmask_eq
  obtain ⟨hbase, ⟨-, hdelta⟩, hlen⟩ := h
  have hpow : 2 ^ p.chunkLenLog2 ≤ 2 ^ 7 := Nat.pow_le_pow_right (by omega) hlen
  have hsmall : p.deltaBits * (2 ^ p.chunkLenLog2 - 1) ≤ 56 * 127 :=
    Nat.mul_le_mul hdelta (by omega)
  rw [chunkSizeBytes, hmask, checkedMul, if_pos (by omega), Option.bind_eq_bind, Option.bind_some,
    checkedAdd, if_pos (by omega)]
  rfl

/-- A chunk of valid parameters is empty only without a base and without deltas. -/
theorem Valid.chunkSize_eq_zero_iff : p.chunkSize = 0 ↔ p.baseBits = 0 ∧ p.chunkLenLog2 = 0 := by
  obtain ⟨-, ⟨hdelta, -⟩, -⟩ := h
  unfold chunkSize
  cases p.chunkLenLog2 with
  | zero => omega
  | succ n =>
    have hpow : 2 ≤ 2 ^ (n + 1) := Nat.le_self_pow (by omega) 2
    have hpos := Nat.mul_le_mul hdelta (show 1 ≤ 2 ^ (n + 1) - 1 by omega)
    omega

/-- The assertions of `new` fail exactly on values in empty chunks. -/
theorem Valid.asserted_iff {compressed : List UInt8} (hlength : compressed.length = p.totalSize) :
    (Reader.ofParameters p p.chunkSize compressed).Asserted ↔ p.length = 0 ∨ p.chunkSize ≠ 0 := by
  have hdelta := h.2.1.1
  simp only [Reader.Asserted, Reader.chunkOffset, Reader.deltaOffsetBits, Reader.ofParameters,
    hlength, h.makeBitmask_eq, Nat.shiftRight_eq_div_pow]
  refine or_congr_right' fun hpos => ?_
  -- the last value is in the last chunk
  have hpow := Nat.two_pow_pos p.chunkLenLog2
  have hcount : p.chunksCount = (p.length - 1) / 2 ^ p.chunkLenLog2 + 1 := by
    rw [← Nat.add_div_right _ hpow, chunksCount]
    congr 1
    omega
  rw [totalSize, hcount, Nat.add_mul, Nat.one_mul, tailSize]
  generalize (p.length - 1) / 2 ^ p.chunkLenLog2 * p.chunkSize = offset
  refine ⟨fun hle => by omega, fun hne => ⟨by omega, or_iff_not_imp_left.mpr fun hmask => ?_⟩⟩
  obtain ⟨most, hmost⟩ := Nat.exists_eq_succ_of_ne_zero hmask
  rw [chunkSize, hmost, Nat.mul_succ, Nat.mul_comm]
  dsimp only [Nat.succ_sub_one]
  omega

end

end Parameters

/-- What `new` does with valid parameters. -/
theorem Reader.new_eq {p : Parameters} (h : p.Valid) (bytes : List UInt8) :
    ∃ error, new p bytes =
      if 2 ^ 64 ≤ p.totalSize ∨ bytes.length < p.totalSize then some (.error error)
      else if p.length = 0 ∨ p.chunkSize ≠ 0 then
        some (.ok (ofParameters p p.chunkSize (bytes.take p.totalSize), bytes.drop p.totalSize))
      else none := by
  have htotal : (p.totalChunksSizeBytes.bind fun size => checkedAdd size tailSize) =
      if 2 ^ 64 ≤ p.totalSize then none else some p.totalSize := by
    rw [Parameters.totalChunksSizeBytes, h.chunkSizeBytes_eq]
    dsimp only [bind, Option.bind, checkedMul, checkedAdd, Parameters.totalSize]
    grind
  unfold new
  rw [if_neg (not_not.mpr h), htotal]
  by_cases hlarge : 2 ^ 64 ≤ p.totalSize
  · exact ⟨_, by rw [if_pos hlarge, if_pos (Or.inl hlarge)]⟩
  rw [if_neg hlarge]
  dsimp only
  by_cases hshort : bytes.length < p.totalSize
  · exact ⟨_, by rw [if_pos hshort, if_pos (Or.inr hshort)]⟩
  refine ⟨⟨""⟩, ?_⟩
  rw [if_neg hshort, if_neg (not_or.mpr ⟨hlarge, hshort⟩), h.chunkSizeBytes_eq]
  have hlength : (bytes.take p.totalSize).length = p.totalSize := by
    rw [List.length_take]
    omega
  simp only [Option.bind_eq_bind, Option.bind_some, h.asserted_iff hlength]

/-- Reading the header returns, and then every value can be read. -/
def Safe (p : Parameters) (bytes : List UInt8) : Prop :=
  ∃ result, Reader.new p bytes = some result ∧
    ∀ reader rest, result = .ok (reader, rest) → ∀ index, (reader.get index).isSome

/-- Valid parameters of chunks without any bits, for at least one value. -/
def EmptyChunks (p : Parameters) (bytes : List UInt8) : Prop :=
  p.baseBits = 0 ∧ p.chunkLenLog2 = 0 ∧ p.DeltaInRange ∧ p.length ≠ 0 ∧ tailSize ≤ bytes.length

/-- **A corrupt header is rejected** except for chunks without any bits. Reading the header
returns, and every value can then be read inside the slice, if and only if the parameters do
not ask for values in chunks of no bytes. -/
theorem reader_safe_iff (p : Parameters) (bytes : List UInt8) :
    Safe p bytes ↔ ¬EmptyChunks p bytes := by
  by_cases hvalid : p.Valid
  swap
  · refine iff_of_true ⟨_, if_pos hvalid, nofun⟩ fun hempty => hvalid ?_
    exact ⟨by simp [hempty.1], hempty.2.2.1, by simp [hempty.2.1]⟩
  have hempty : EmptyChunks p bytes ↔
      p.chunkSize = 0 ∧ p.length ≠ 0 ∧ tailSize ≤ bytes.length := by
    simp [hvalid.chunkSize_eq_zero_iff, EmptyChunks, and_assoc, hvalid.2.1]
  have htail : p.chunkSize = 0 → p.totalSize = tailSize := fun hzero => by
    rw [Parameters.totalSize, hzero, Nat.mul_zero, Nat.zero_add]
  obtain ⟨error, hnew⟩ := Reader.new_eq hvalid bytes
  rw [Safe, hnew, hempty]
  unfold tailSize at *
  split_ifs with herror hread
  · refine iff_of_true ⟨_, rfl, nofun⟩ fun ⟨hzero, _, hlength⟩ => ?_
    have := htail hzero
    omega
  · refine iff_of_true ⟨_, rfl, ?_⟩ (by omega)
    rintro reader rest hok index
    cases hok
    refine Reader.Asserted.get_isSome ((hvalid.asserted_iff ?_).mpr hread) index
    rw [List.length_take]
    omega
  · have hzero : p.chunkSize = 0 := by omega
    rw [htail hzero] at herror
    exact iff_of_false (by simp) fun hnot => hnot ⟨hzero, by omega, by omega⟩

/-- A header that asks for one value of no bits stops the reader with a failed assertion. -/
theorem new_panics_on_empty_chunks : Reader.new ⟨1, 0, 1, 0⟩ (List.replicate 7 255) = none := by
  decide

end Stratumind.BitpackingOrdered
