import Stratumind.Lib.LittleEndian

/-!
# Segments of the write-ahead log

A segment is a memory-mapped file of fixed capacity: a header of eight bytes, then entries,
each with its length before and its CRC after it. The CRC of an entry continues that of the
entry before. What the disk is known to hold is kept beside the mapped bytes.
-/

namespace Stratumind.WriteAhead

open List

/-- The kinds of IO errors that are raised by the log itself. -/
inductive ErrorKind where
  | invalidInput
  | invalidData
  | other
  deriving DecidableEq

/-- An IO error. -/
structure IoError where
  kind : ErrorKind
  message : String
  deriving DecidableEq

/-- The result of an IO operation. -/
abbrev IoResult (α : Type) := Except IoError α

/-! ### Layout -/

/-- `SEGMENT_MAGIC`. -/
def segmentMagic : List UInt8 := [119, 97, 108]

/-- `SEGMENT_VERSION`. -/
def segmentVersion : UInt8 := 0

/-- `HEADER_LEN`: the length of the segment header and of an entry header. -/
def headerLen : ℕ := 8

/-- `CRC_LEN`. -/
def crcLen : ℕ := 4

/-- `padding`: `4usize.wrapping_sub(len) & 7`. -/
def padding (len : ℕ) : ℕ := (2 ^ 64 + 4 - len % 2 ^ 64) % 2 ^ 64 % 8

/-- `entry_overhead`. -/
def entryOverhead (len : ℕ) : ℕ := padding len + headerLen + crcLen

/-- `entry_size_disk`. -/
def entrySizeDisk (len : ℕ) : ℕ := len + entryOverhead len

/-- The size of an entry is a multiple of eight. -/
theorem entrySizeDisk_mod (len : ℕ) : entrySizeDisk len % 8 = 0 := by
  unfold entrySizeDisk entryOverhead padding headerLen crcLen
  omega

/-- An entry has at least its length and its CRC. -/
theorem entrySizeDisk_ge (len : ℕ) : 16 ≤ entrySizeDisk len := by
  have hmod := entrySizeDisk_mod len
  unfold entrySizeDisk entryOverhead headerLen crcLen at hmod ⊢
  omega

/-- The bytes from an offset on. -/
def slice (bytes : List UInt8) (offset len : ℕ) : List UInt8 := (bytes.drop offset).take len

/-- Overwrites the bytes from an offset on. -/
def writeAt (bytes : List UInt8) (offset : ℕ) (data : List UInt8) : List UInt8 :=
  bytes.take offset ++ data ++ bytes.drop (offset + data.length)

/-! ### Memory maps -/

/-- `MmapViewSync`: the mapped bytes, and the bytes as of the last flush that covered them. -/
structure Mmap where
  bytes : List UInt8
  disk : List UInt8
  length_disk : disk.length = bytes.length

namespace Mmap

/-- `MmapViewSync::from_file`, for a file that was read. -/
def ofFile (bytes : List UInt8) : Mmap := ⟨bytes, bytes, rfl⟩

/-- Writes to the mapped bytes. Bytes that do not fit are left out. -/
def write (mmap : Mmap) (offset : ℕ) (data : List UInt8) : Mmap where
  bytes := (writeAt mmap.bytes offset data).take mmap.bytes.length ++
    mmap.bytes.drop (writeAt mmap.bytes offset data).length
  disk := mmap.disk
  length_disk := by
    rw [mmap.length_disk, length_append, length_take, length_drop]
    omega

/-- Flushes a range of bytes. -/
def flushRange (mmap : Mmap) (start len : ℕ) : Mmap where
  bytes := mmap.bytes
  disk := mmap.disk.take start ++ slice mmap.bytes start len ++ mmap.disk.drop (start + len)
  length_disk := by
    have h := mmap.length_disk
    unfold slice
    simp only [length_append, length_take, length_drop]
    omega

/-- `MmapViewSync::flush`. -/
def flush (mmap : Mmap) : Mmap := ofFile mmap.bytes

/-- Maps a file that was extended. -/
def extend (mmap : Mmap) (capacity : ℕ) : Mmap where
  bytes := mmap.bytes ++ replicate (capacity - mmap.bytes.length) 0
  disk := mmap.disk ++ replicate (capacity - mmap.bytes.length) 0
  length_disk := by rw [length_append, length_append, mmap.length_disk]

/-- A write that fits. -/
theorem bytes_write {mmap : Mmap} {offset : ℕ} {data : List UInt8}
    (h : offset + data.length ≤ mmap.bytes.length) :
    (mmap.write offset data).bytes = writeAt mmap.bytes offset data := by
  have hlength : (writeAt mmap.bytes offset data).length = mmap.bytes.length := by
    unfold writeAt
    simp only [length_append, length_take, length_drop]
    omega
  unfold write
  dsimp only
  rw [hlength, drop_length, append_nil, ← hlength, take_length]

end Mmap

/-! ### Segments -/

/-- The CRC of data that continues an earlier CRC:
`crc32c_append(!crc.reverse_bits(), data)`. -/
def appendCrc (crc32cAppend : UInt32 → List UInt8 → UInt32) (crc : UInt32)
    (data : List UInt8) : UInt32 :=
  crc32cAppend (UInt32.ofBitVec (~~~crc.toBitVec.reverse)) data

/-- `Segment`. -/
structure Segment where
  mmap : Mmap
  index : List (ℕ × ℕ)
  crc : UInt32
  flushOffset : ℕ

/-- The bytes that an entry's CRC covers: its length, its data and padding. -/
def entryBody (data : List UInt8) : List UInt8 :=
  Lib.leBytes headerLen data.length ++ data ++ replicate (padding data.length) 0

/-- The header of a segment file. -/
def segmentHeader (seed : UInt32) : List UInt8 :=
  segmentMagic ++ [segmentVersion] ++ Lib.leBytes 4 seed.toNat

/-- A range of bytes that is flushed in the background. -/
inductive PendingFlush where
  | nothing
  | range (start len : ℕ)
  | everything
  deriving DecidableEq

section

variable (crc32cAppend : UInt32 → List UInt8 → UInt32)

/-- One turn of the loop of `Segment::open`: the length and the CRC of the entry at an offset,
if there is a valid one. -/
def parseEntry (file : List UInt8) (offset : ℕ) (crc : UInt32) : Option (ℕ × UInt32) :=
  if offset + headerLen + crcLen < file.length then
    let len := Lib.ofLeBytes (slice file offset 8)
    let paddedLen := len + padding len
    if offset + headerLen + paddedLen + crcLen > file.length then none
    else
      let entryCrc := appendCrc crc32cAppend crc (slice file offset (headerLen + paddedLen))
      let storedCrc :=
        UInt32.ofNat (Lib.ofLeBytes (slice file (offset + headerLen + paddedLen) 4))
      if entryCrc ≠ storedCrc then none else some (len, entryCrc)
  else none

/-- The loop of `Segment::open`. An entry takes at least one byte, so the length of the file
is fuel enough. -/
def parseEntries (file : List UInt8) : ℕ → ℕ → UInt32 → List (ℕ × ℕ) × UInt32
  | 0, _, crc => ([], crc)
  | fuel + 1, offset, crc =>
    match parseEntry crc32cAppend file offset crc with
    | none => ([], crc)
    | some (len, entryCrc) =>
      let (index, last) := parseEntries file fuel (offset + entrySizeDisk len) entryCrc
      ((offset + headerLen, len) :: index, last)

namespace Segment

variable (segment : Segment)

/-- `Segment::size`. -/
def size : ℕ :=
  match segment.index.getLast? with
  | none => headerLen
  | some (offset, len) => offset + len + padding len + crcLen

/-- `Segment::capacity`. -/
def capacity : ℕ := segment.mmap.bytes.length

/-- `Segment::len`. -/
def len : ℕ := segment.index.length

/-- `Segment::is_empty`. -/
def isEmpty : Bool := segment.index.isEmpty

/-- `Segment::create`. -/
def create (capacity : ℕ) (seed : UInt32) : IoResult Segment :=
  let capacity := capacity / 8 * 8
  if capacity < headerLen then
    .error ⟨.invalidInput, "invalid segment capacity: " ++ toString capacity⟩
  else
    .ok
      { mmap := .ofFile (segmentHeader seed ++ replicate (capacity - headerLen) 0)
        index := []
        crc := seed
        flushOffset := 0 }

/-- `Segment::open`. -/
def openFile (file : List UInt8) : IoResult Segment :=
  if file.length < headerLen then
    .error ⟨.invalidInput, "invalid segment capacity: " ++ toString file.length⟩
  else
    let capacity := file.length / 8 * 8
    let file := file.take capacity
    if slice file 0 3 ≠ segmentMagic then .error ⟨.invalidData, "Illegal segment header"⟩
    else if slice file 3 1 ≠ [0] then
      .error ⟨.invalidData, "Segment version unsupported: " ++
        toString (Lib.ofLeBytes (slice file 3 1))⟩
    else
      let crc := UInt32.ofNat (Lib.ofLeBytes (slice file 4 4))
      let (index, crc) := parseEntries crc32cAppend file file.length headerLen crc
      let segment : Segment := { mmap := .ofFile file, index, crc, flushOffset := 0 }
      -- existing data need not be flushed
      .ok { segment with flushOffset := segment.size }

/-- `Segment::entry`. -/
def entry (index : ℕ) : Option (List UInt8) :=
  (segment.index[index]?).map fun (offset, len) => slice segment.mmap.bytes offset len

/-- `Segment::sufficient_capacity`. -/
def sufficientCapacity (entryLen : ℕ) : Bool :=
  let remaining := segment.capacity - segment.size
  if remaining < headerLen + crcLen then false
  else decide (remaining - (headerLen + crcLen) ≥ entryLen + padding entryLen)

/-- `Segment::append`. -/
def append (data : List UInt8) : Option (Segment × ℕ) :=
  if !segment.sufficientCapacity data.length then none
  else
    let offset := segment.size
    let paddedLen := data.length + padding data.length
    let mmap := segment.mmap.write offset (Lib.leBytes headerLen data.length)
    let mmap := mmap.write (offset + headerLen) data
    let mmap := mmap.write (offset + headerLen + data.length)
      (replicate (padding data.length) 0)
    let crc := appendCrc crc32cAppend segment.crc (slice mmap.bytes offset (headerLen + paddedLen))
    let mmap := mmap.write (offset + headerLen + paddedLen) (Lib.leBytes crcLen crc.toNat)
    let index := segment.index ++ [(offset + headerLen, data.length)]
    some ({ segment with mmap, crc, index }, index.length - 1)

/-- `Segment::_read_seed_crc`. -/
def readSeedCrc : UInt32 :=
  UInt32.ofNat (Lib.ofLeBytes (slice segment.mmap.bytes 4 4))

/-- `Segment::_read_entry_crc`. -/
def readEntryCrc (offset len : ℕ) : UInt32 :=
  UInt32.ofNat (Lib.ofLeBytes (slice segment.mmap.bytes (offset + (len + padding len)) 4))

/-- `Segment::truncate`. -/
def truncate (fromEntry : ℕ) : Segment :=
  if fromEntry ≥ segment.index.length then segment
  else
    let zeroEnd := segment.size
    let segment := { segment with index := segment.index.take fromEntry }
    let crc :=
      match segment.index.getLast? with
      | none => segment.readSeedCrc
      | some (offset, len) => segment.readEntryCrc offset len
    -- deleted entries are zeroed so that they are not read back after a crash
    let zeroStart := segment.size
    { segment with
      crc
      mmap := segment.mmap.write zeroStart (replicate (zeroEnd - zeroStart) 0)
      flushOffset := min segment.flushOffset zeroStart }

/-- The bytes that a flush covers. -/
def pendingFlush : PendingFlush :=
  if segment.flushOffset = segment.size then .nothing
  else if segment.flushOffset < segment.size then
    .range segment.flushOffset (segment.size - segment.flushOffset)
  else .everything

/-- A flush of the bytes that it covers. -/
def complete : PendingFlush → Segment
  | .nothing => segment
  | .range start len => { segment with mmap := segment.mmap.flushRange start len }
  | .everything => { segment with mmap := segment.mmap.flush }

/-- `Segment::flush`. -/
def flush : Segment :=
  { segment.complete segment.pendingFlush with flushOffset := segment.size }

/-- `Segment::flush_async`: the flush is completed in the background. -/
def flushAsync : Segment × PendingFlush :=
  ({ segment with flushOffset := segment.size }, segment.pendingFlush)

/-- `Segment::ensure_capacity`; the assertion fails if the size is not aligned. -/
def ensureCapacity (entrySize : ℕ) : Option Segment :=
  let requiredCapacity :=
    entrySize + padding entrySize + headerLen + crcLen + segment.size
  if requiredCapacity / 8 * 8 ≠ requiredCapacity then none
  else if requiredCapacity > segment.capacity then
    let segment := segment.flush
    some { segment with mmap := segment.mmap.extend requiredCapacity }
  else some segment

end Segment

/-! ### Encoded entries -/

/-- The CRC after an entry. -/
def nextCrc (crc : UInt32) (data : List UInt8) : UInt32 :=
  appendCrc crc32cAppend crc (entryBody data)

/-- The bytes of an entry. -/
def encodeEntry (crc : UInt32) (data : List UInt8) : List UInt8 :=
  entryBody data ++ Lib.leBytes crcLen (nextCrc crc32cAppend crc data).toNat

/-- The bytes of consecutive entries. -/
def encodeEntries : UInt32 → List (List UInt8) → List UInt8
  | _, [] => []
  | crc, data :: entries =>
    encodeEntry crc32cAppend crc data ++ encodeEntries (nextCrc crc32cAppend crc data) entries

/-- The CRC after consecutive entries. -/
def crcAfter (crc : UInt32) (entries : List (List UInt8)) : UInt32 :=
  entries.foldl (nextCrc crc32cAppend) crc

/-- The index of consecutive entries. -/
def indexFrom : ℕ → List (List UInt8) → List (ℕ × ℕ)
  | _, [] => []
  | offset, data :: entries =>
    (offset + headerLen, data.length) :: indexFrom (offset + entrySizeDisk data.length) entries

/-- The size of consecutive entries. -/
def encodedSize (entries : List (List UInt8)) : ℕ :=
  (entries.map fun data => entrySizeDisk data.length).sum

/-- The body is the length, the data and the padding. -/
@[simp] theorem length_entryBody (data : List UInt8) :
    (entryBody data).length = headerLen + (data.length + padding data.length) := by
  unfold entryBody
  simp only [length_append, Lib.length_leBytes, length_replicate]
  omega

/-- An entry takes its size on disk. -/
@[simp] theorem length_encodeEntry (crc : UInt32) (data : List UInt8) :
    (encodeEntry crc32cAppend crc data).length = entrySizeDisk data.length := by
  unfold encodeEntry entrySizeDisk entryOverhead
  rw [length_append, length_entryBody, Lib.length_leBytes]
  omega

/-- Entries take the sum of their sizes. -/
@[simp] theorem length_encodeEntries (crc : UInt32) (entries : List (List UInt8)) :
    (encodeEntries crc32cAppend crc entries).length = encodedSize entries := by
  induction entries generalizing crc with
  | nil => rfl
  | cons data entries ih =>
    rw [encodeEntries, length_append, length_encodeEntry, ih, encodedSize, encodedSize,
      map_cons, sum_cons]

/-- Further entries continue with the CRC of those before. -/
theorem encodeEntries_append (crc : UInt32) (entries more : List (List UInt8)) :
    encodeEntries crc32cAppend crc (entries ++ more) =
      encodeEntries crc32cAppend crc entries ++
        encodeEntries crc32cAppend (crcAfter crc32cAppend crc entries) more := by
  induction entries generalizing crc with
  | nil => rfl
  | cons data entries ih =>
    rw [cons_append, encodeEntries, encodeEntries, ih, append_assoc]
    rfl

end

/-- Sizes add up. -/
theorem encodedSize_append (entries more : List (List UInt8)) :
    encodedSize (entries ++ more) = encodedSize entries + encodedSize more := by
  unfold encodedSize
  rw [map_append, sum_append]

/-- The size of all entries is a multiple of eight. -/
theorem encodedSize_mod (entries : List (List UInt8)) : encodedSize entries % 8 = 0 := by
  induction entries with
  | nil => rfl
  | cons data entries ih =>
    have hmod := entrySizeDisk_mod data.length
    unfold encodedSize at ih ⊢
    rw [map_cons, sum_cons]
    omega

/-- There is one position for each entry. -/
theorem length_indexFrom (offset : ℕ) (entries : List (List UInt8)) :
    (indexFrom offset entries).length = entries.length := by
  induction entries generalizing offset with
  | nil => rfl
  | cons data entries ih => rw [indexFrom, length_cons, ih, length_cons]

/-- Further entries start where those before end. -/
theorem indexFrom_append (offset : ℕ) (entries more : List (List UInt8)) :
    indexFrom offset (entries ++ more) =
      indexFrom offset entries ++ indexFrom (offset + encodedSize entries) more := by
  induction entries generalizing offset with
  | nil => rfl
  | cons data entries ih =>
    have hsize : encodedSize (data :: entries) =
        entrySizeDisk data.length + encodedSize entries := rfl
    rw [cons_append, indexFrom, indexFrom, ih, hsize, cons_append, Nat.add_assoc]

/-!
### The entries of a segment

A segment holds a list of entries when its bytes are the header, the encoded entries and
something else, and its index and CRC are those of the entries. Every operation of a segment
is described by what it does to this list.
-/

variable {crc32cAppend : UInt32 → List UInt8 → UInt32}

/-! ### Bytes -/

variable {rest : List UInt8} {data : List UInt8}

/-- Data written at the end of known bytes follows them. -/
theorem Mmap.bytes_write_append {mmap : Mmap} {before : List UInt8} {offset : ℕ}
    (h : mmap.bytes = before ++ rest) (hoffset : offset = before.length) (data : List UInt8)
    (hfits : data.length ≤ rest.length) :
    (mmap.write offset data).bytes = before ++ data ++ rest.drop data.length := by
  subst hoffset
  have hle : before.length + data.length ≤ mmap.bytes.length := by
    rw [h, length_append]
    omega
  rw [Mmap.bytes_write hle, writeAt, h, take_left' rfl, drop_append, drop_of_length_le (by omega),
    nil_append, Nat.add_sub_cancel_left]

variable {offset : ℕ}

/-- The slice between two parts of the bytes. -/
theorem slice_append_left {before : List UInt8} {len : ℕ} (hoffset : offset = before.length)
    (hlen : len = data.length) : slice (before ++ data ++ rest) offset len = data := by
  subst hoffset hlen
  rw [slice, append_assoc, drop_left', take_left'] <;> rfl

/-- A CRC is read back from its bytes. -/
private theorem ofNat_ofLeBytes_leBytes (crc : UInt32) :
    UInt32.ofNat (Lib.ofLeBytes (Lib.leBytes crcLen crc.toNat)) = crc := by
  rw [Lib.ofLeBytes_leBytes crc.toNat_lt, UInt32.ofNat_toNat]

/-- The header has a fixed length. -/
@[simp] theorem length_segmentHeader (seed : UInt32) : (segmentHeader seed).length = headerLen := by
  rfl

/-- The seed is read back from the header. -/
private theorem seed_of_header (seed : UInt32) (rest : List UInt8) :
    UInt32.ofNat (Lib.ofLeBytes (slice (segmentHeader seed ++ rest) 4 4)) = seed := by
  exact ofNat_ofLeBytes_leBytes seed

/-! ### The invariant -/

/-- The segment holds exactly these entries. -/
structure Segment.Holds (crc32cAppend : UInt32 → List UInt8 → UInt32) (segment : Segment)
    (seed : UInt32) (rest : List UInt8) (entries : List (List UInt8)) : Prop where
  bytes : segment.mmap.bytes =
    segmentHeader seed ++ encodeEntries crc32cAppend seed entries ++ rest
  crc : segment.crc = crcAfter crc32cAppend seed entries
  index : segment.index = indexFrom headerLen entries
  aligned : segment.capacity % 8 = 0
  lengths : ∀ data ∈ entries, data.length < 2 ^ 63

namespace Segment

/-- The size of a segment is that of its header and of its entries. -/
theorem size_eq_of_index {segment : Segment} {entries : List (List UInt8)}
    (h : segment.index = indexFrom headerLen entries) :
    segment.size = headerLen + encodedSize entries := by
  unfold size
  rw [h]
  rcases eq_nil_or_concat entries with rfl | ⟨entries, data, rfl⟩
  · rfl
  rw [concat_eq_append, indexFrom_append, encodedSize_append]
  simp only [indexFrom, getLast?_append, getLast?_singleton, Option.some_or]
  have hsize : encodedSize [data] = entrySizeDisk data.length := by
    simp [encodedSize]
  rw [hsize, entrySizeDisk, entryOverhead]
  omega

namespace Holds

variable {segment : Segment} {seed : UInt32} {rest : List UInt8} {entries : List (List UInt8)}

section

variable (h : segment.Holds crc32cAppend seed rest entries)

include h

theorem size : segment.size = headerLen + encodedSize entries :=
  size_eq_of_index h.index

theorem len : segment.len = entries.length := by
  rw [Segment.len, h.index, length_indexFrom]

theorem isEmpty : segment.isEmpty = entries.isEmpty := by
  rw [Segment.isEmpty, h.index]
  cases entries <;> rfl

theorem capacity : segment.capacity = segment.size + rest.length := by
  rw [h.size, Segment.capacity, h.bytes, length_append, length_append,
    length_segmentHeader, length_encodeEntries]

end

/-- The data of an entry is found at its position. -/
private theorem slice_indexFrom (before after : List UInt8) (crc : UInt32)
    (entries : List (List UInt8)) (i : ℕ) :
    ((indexFrom before.length entries)[i]?).map (fun (offset, len) =>
        slice (before ++ encodeEntries crc32cAppend crc entries ++ after) offset len) =
      entries[i]? := by
  induction entries generalizing before crc i with
  | nil => rfl
  | cons data entries ih =>
    cases i with
    | zero =>
      rw [indexFrom, getElem?_cons_zero, getElem?_cons_zero, Option.map_some]
      have hsplit : before ++ encodeEntries crc32cAppend crc (data :: entries) ++ after =
          (before ++ Lib.leBytes headerLen data.length) ++ data ++
            (replicate (padding data.length) 0 ++
              Lib.leBytes crcLen (nextCrc crc32cAppend crc data).toNat ++
              encodeEntries crc32cAppend (nextCrc crc32cAppend crc data) entries ++ after) := by
        rw [encodeEntries, encodeEntry, entryBody]
        simp
      dsimp only
      rw [hsplit, slice_append_left _ rfl]
      rw [length_append, Lib.length_leBytes]
    | succ i =>
      rw [indexFrom, getElem?_cons_succ, getElem?_cons_succ]
      have hlength : before.length + entrySizeDisk data.length =
          (before ++ encodeEntry crc32cAppend crc data).length := by
        rw [length_append, length_encodeEntry]
      rw [hlength, encodeEntries, ← append_assoc]
      exact ih _ _ i

section

variable (h : segment.Holds crc32cAppend seed rest entries)

include h

/-- An entry is read as it was written. -/
theorem entry (i : ℕ) : segment.entry i = entries[i]? := by
  unfold Segment.entry
  rw [h.index, h.bytes, ← length_segmentHeader seed]
  exact slice_indexFrom _ _ _ _ _

/-! ### Appending -/

theorem sufficientCapacity (entryLen : ℕ) :
    segment.sufficientCapacity entryLen = decide (entrySizeDisk entryLen ≤ rest.length) := by
  have hcapacity := h.capacity
  unfold Segment.sufficientCapacity entrySizeDisk entryOverhead
  grind

/-- What an append to a segment with enough room does. -/
theorem append {data : List UInt8} (hlength : data.length < 2 ^ 63)
    (hfits : entrySizeDisk data.length ≤ rest.length) :
    ∃ next, segment.append crc32cAppend data = some (next, entries.length) ∧
      next.Holds crc32cAppend seed (rest.drop (entrySizeDisk data.length)) (entries ++ [data]) ∧
      next.mmap.disk = segment.mmap.disk ∧ next.flushOffset = segment.flushOffset := by
  have hsufficient : segment.sufficientCapacity data.length = true := by
    rw [h.sufficientCapacity]
    exact decide_eq_true hfits
  have hsize : entrySizeDisk data.length =
      headerLen + (data.length + (padding data.length + crcLen)) := by
    unfold entrySizeDisk entryOverhead
    omega
  obtain ⟨before, hbefore⟩ : ∃ before,
      before = segmentHeader seed ++ encodeEntries crc32cAppend seed entries := ⟨_, rfl⟩
  have hoffset : segment.size = before.length := by
    rw [h.size, hbefore, length_append, length_segmentHeader, length_encodeEntries]
  -- the four writes, one after the other
  have hbytes := h.bytes
  rw [← hbefore] at hbytes
  have hheader := Mmap.bytes_write_append hbytes hoffset (Lib.leBytes headerLen data.length)
    (by rw [Lib.length_leBytes]; omega)
  have hdata := Mmap.bytes_write_append hheader
    (show segment.size + headerLen = _ by simp [hoffset]) data (by simp; omega)
  have hpadding := Mmap.bytes_write_append hdata
    (show segment.size + headerLen + data.length = _ by simp [hoffset, Nat.add_assoc])
    (replicate (padding data.length) 0) (by simp; omega)
  have hbody := congrArg
    (slice · segment.size (headerLen + (data.length + padding data.length))) hpadding
  rw [append_assoc before, append_assoc before] at hbody
  have hbody := hbody.trans (slice_append_left hoffset (length_entryBody data).symm)
  have hcrc := Mmap.bytes_write_append hpadding
    (show segment.size + headerLen + (data.length + padding data.length) = _ by
      simp [hoffset]; omega)
    (Lib.leBytes crcLen (nextCrc crc32cAppend segment.crc data).toNat) (by simp; omega)
  rw [drop_drop, drop_drop, drop_drop, length_replicate, Lib.length_leBytes, Lib.length_leBytes,
    ← hsize] at hcrc
  have hindex : (segment.index ++ [(segment.size + headerLen, data.length)]).length - 1 =
      entries.length := by
    rw [length_append, h.index, length_indexFrom]
    rfl
  unfold Segment.append
  rw [if_neg (by rw [hsufficient]; decide)]
  dsimp only
  rw [hbody, hindex]
  refine ⟨_, rfl, ⟨?_, ?_, ?_, ?_, ?_⟩, rfl, rfl⟩
  · refine hcrc.trans ?_
    rw [hbefore, encodeEntries_append, h.crc]
    simp [encodeEntries, encodeEntry, entryBody]
  · rw [crcAfter, foldl_append, h.crc]
    rfl
  · rw [indexFrom_append, h.index, ← h.size]
    rfl
  · have haligned := h.aligned
    unfold Segment.capacity at haligned ⊢
    rw [← Mmap.length_disk] at haligned ⊢
    exact haligned
  · exact forall_mem_append.mpr ⟨h.lengths, forall_mem_singleton.mpr hlength⟩

/-- What a flush changes is not what the segment holds. -/
theorem of_same_bytes {next : Segment} (hbytes : next.mmap.bytes = segment.mmap.bytes)
    (hindex : next.index = segment.index)
    (hcrc : next.crc = segment.crc) : next.Holds crc32cAppend seed rest entries where
  bytes := hbytes.trans h.bytes
  crc := hcrc.trans h.crc
  index := hindex.trans h.index
  aligned := by
    have haligned := h.aligned
    unfold Segment.capacity at haligned ⊢
    rwa [hbytes]
  lengths := h.lengths

theorem complete (pending : PendingFlush) :
    (segment.complete pending).Holds crc32cAppend seed rest entries := by
  cases pending with
  | nothing => exact h
  | range start len => exact h.of_same_bytes rfl rfl rfl
  | everything => exact h.of_same_bytes rfl rfl rfl

theorem flush : segment.flush.Holds crc32cAppend seed rest entries :=
  (h.complete segment.pendingFlush).of_same_bytes rfl rfl rfl

/-- A segment is made large enough for an entry. -/
theorem ensureCapacity (entrySize : ℕ) :
    ∃ next rest, segment.ensureCapacity entrySize = some next ∧
      next.Holds crc32cAppend seed rest entries ∧ entrySizeDisk entrySize ≤ rest.length := by
  have hsize := h.size
  have hmod := encodedSize_mod entries
  have hentry := entrySizeDisk_mod entrySize
  have hrequired : entrySize + padding entrySize + headerLen + crcLen + segment.size =
      entrySizeDisk entrySize + segment.size := by
    unfold entrySizeDisk entryOverhead
    omega
  have hcapacity := h.capacity
  unfold Segment.ensureCapacity
  rw [hrequired, if_neg (by unfold headerLen at hsize; omega)]
  split
  · have hflush := h.flush
    have hflushCapacity : segment.flush.capacity = segment.size + rest.length := by
      rw [hflush.capacity, hflush.size, h.size]
    unfold Segment.capacity at hflushCapacity
    refine ⟨_, rest ++ replicate (entrySizeDisk entrySize + segment.size -
      segment.flush.mmap.bytes.length) 0, rfl, ⟨?_, hflush.crc, hflush.index, ?_, h.lengths⟩, ?_⟩
    · rw [← append_assoc, ← hflush.bytes]
      rfl
    · simp only [Segment.capacity, Mmap.extend, length_append, length_replicate]
      unfold headerLen at hsize
      omega
    · rw [length_append, length_replicate]
      omega
  · exact ⟨segment, rest, rfl, h, by omega⟩

/-! ### Truncating -/

private theorem index_take (count : ℕ) :
    segment.index.take count = indexFrom headerLen (entries.take count) := by
  have hsplit := indexFrom_append headerLen (entries.take count) (entries.drop count)
  rw [take_append_drop] at hsplit
  rw [h.index, hsplit]
  by_cases hle : count ≤ entries.length
  · rw [take_left']
    rw [length_indexFrom, length_take, min_eq_left hle]
  · rw [drop_of_length_le (by omega), indexFrom, append_nil, take_of_length_le]
    rw [length_indexFrom, length_take]
    omega

/-- The bytes split behind every front of the entries. -/
private theorem bytes_take (count : ℕ) :
    segment.mmap.bytes =
      (segmentHeader seed ++ encodeEntries crc32cAppend seed (entries.take count)) ++
        (encodeEntries crc32cAppend (crcAfter crc32cAppend seed (entries.take count))
          (entries.drop count) ++ rest) := by
  have hsplit := encodeEntries_append crc32cAppend seed (entries.take count) (entries.drop count)
  rw [take_append_drop] at hsplit
  rw [h.bytes, hsplit]
  simp

/-- The CRC of the last entry is that of the chain. -/
private theorem readLast (count : ℕ) :
    (match (indexFrom headerLen (entries.take count)).getLast? with
      | none => segment.readSeedCrc
      | some (offset, len) => segment.readEntryCrc offset len) =
      crcAfter crc32cAppend seed (entries.take count) := by
  have hbytes := h.bytes_take count
  generalize entries.take count = kept at hbytes
  rcases eq_nil_or_concat kept with rfl | ⟨kept, data, rfl⟩
  · change segment.readSeedCrc = seed
    unfold readSeedCrc
    rw [hbytes, append_assoc, seed_of_header]
  rw [concat_eq_append] at hbytes ⊢
  rw [indexFrom_append]
  simp only [indexFrom, getLast?_append, getLast?_singleton, Option.some_or]
  have hsplit : segment.mmap.bytes = (segmentHeader seed ++
      encodeEntries crc32cAppend seed kept ++ entryBody data) ++
      Lib.leBytes crcLen (nextCrc crc32cAppend (crcAfter crc32cAppend seed kept) data).toNat ++
      (encodeEntries crc32cAppend (crcAfter crc32cAppend seed (kept ++ [data]))
        (entries.drop count) ++ rest) := by
    rw [hbytes, encodeEntries_append crc32cAppend seed kept]
    simp [encodeEntries, encodeEntry]
  unfold readEntryCrc
  rw [hsplit, slice_append_left]
  · rw [ofNat_ofLeBytes_leBytes, crcAfter, crcAfter, foldl_append]
    rfl
  · simp only [length_append, length_segmentHeader, length_encodeEntries, length_entryBody]
    omega
  · rfl

/-- Truncating keeps the entries before, and zeroes the others. -/
theorem truncate (count : ℕ) :
    ∃ rest, (segment.truncate count).Holds crc32cAppend seed rest (entries.take count) := by
  unfold Segment.truncate
  by_cases hge : count ≥ segment.index.length
  · rw [if_pos hge]
    rw [h.index, length_indexFrom] at hge
    rw [take_of_length_le hge]
    exact ⟨rest, h⟩
  rw [if_neg hge]
  have hindex := h.index_take count
  have hsizeKept := @size_eq_of_index { segment with index := segment.index.take count } _ hindex
  have hsize := h.size
  have hsplitSize : encodedSize entries =
      encodedSize (entries.take count) + encodedSize (entries.drop count) := by
    rw [← encodedSize_append, take_append_drop]
  have hbytes := h.bytes_take count
  have hstart : (segmentHeader seed ++
      encodeEntries crc32cAppend seed (entries.take count)).length =
      headerLen + encodedSize (entries.take count) := by
    rw [length_append, length_segmentHeader, length_encodeEntries]
  have hzeros : segment.size - (headerLen + encodedSize (entries.take count)) =
      encodedSize (entries.drop count) := by omega
  have hzeroed := Mmap.bytes_write_append hbytes hstart.symm
    (replicate (encodedSize (entries.drop count)) 0) (by simp)
  rw [length_replicate, drop_left' (length_encodeEntries _ _ _), append_assoc] at hzeroed
  rw [← hzeros, ← hsizeKept] at hzeroed
  refine ⟨_, hzeroed, ?_, hindex, ?_, fun data hdata => h.lengths data (mem_of_mem_take hdata)⟩
  · dsimp only
    rw [hindex]
    exact h.readLast count
  · have haligned := h.aligned
    unfold Segment.capacity at haligned ⊢
    rw [← Mmap.length_disk] at haligned ⊢
    exact haligned

end

end Holds

/-- A new segment is empty. -/
theorem create_holds {capacity : ℕ} (hcapacity : headerLen ≤ capacity) (seed : UInt32) :
    ∃ segment, create capacity seed = .ok segment ∧
      segment.Holds crc32cAppend seed (replicate (capacity / 8 * 8 - headerLen) 0) [] := by
  unfold headerLen at hcapacity
  unfold create
  rw [if_neg (by unfold headerLen; omega)]
  refine ⟨_, rfl, ?_, rfl, rfl, ?_, nofun⟩
  · rfl
  change (segmentHeader seed ++ replicate (capacity / 8 * 8 - headerLen) 0).length % 8 = 0
  rw [length_append, length_replicate, length_segmentHeader]
  unfold headerLen
  omega

end Segment

/-! ### Opening -/

variable {file : List UInt8}

/-- An entry that is there is found. -/
theorem parseEntry_of_drop {crc : UInt32} (hlength : data.length < 2 ^ 63)
    (h : file.drop offset = encodeEntry crc32cAppend crc data ++ rest) :
    parseEntry crc32cAppend file offset crc =
      some (data.length, nextCrc crc32cAppend crc data) := by
  have hge := entrySizeDisk_ge data.length
  have hsize : entrySizeDisk data.length =
      headerLen + (data.length + padding data.length) + crcLen := by
    unfold entrySizeDisk entryOverhead
    omega
  have htotal : file.length = offset + entrySizeDisk data.length + rest.length := by
    have hdrop := congrArg length h
    rw [length_drop, length_append, length_encodeEntry] at hdrop
    omega
  have hbody : ∀ len, slice file offset len =
      (encodeEntry crc32cAppend crc data ++ rest).take len := by
    intro len
    rw [slice, h]
  have hlen : Lib.ofLeBytes (slice file offset 8) = data.length := by
    rw [hbody, encodeEntry, entryBody]
    simp only [append_assoc]
    rw [take_left' (by rw [Lib.length_leBytes]; rfl), Lib.ofLeBytes_leBytes]
    unfold headerLen
    omega
  have hcovered : slice file offset (headerLen + (data.length + padding data.length)) =
      entryBody data := by
    rw [hbody, encodeEntry, append_assoc, take_left' (length_entryBody data)]
  have hstored : slice file (offset + headerLen + (data.length + padding data.length)) 4 =
      Lib.leBytes crcLen (nextCrc crc32cAppend crc data).toNat := by
    have hdrop : file.drop (offset + headerLen + (data.length + padding data.length)) =
        Lib.leBytes crcLen (nextCrc crc32cAppend crc data).toNat ++ rest := by
      rw [Nat.add_assoc, ← drop_drop, h, encodeEntry, append_assoc,
        drop_left' (length_entryBody data)]
    rw [slice, hdrop, take_left']
    rfl
  unfold parseEntry
  unfold headerLen crcLen at hsize
  rw [if_pos (by unfold headerLen crcLen; omega)]
  rw [hlen, if_neg (by unfold headerLen crcLen; omega), hcovered, hstored,
    ofNat_ofLeBytes_leBytes, if_neg (fun hne => hne rfl)]
  rfl

/-- The entries that are there are found, up to where no entry is found. -/
theorem parseEntries_of_drop {fuel : ℕ} {crc : UInt32} {entries : List (List UInt8)}
    (hlengths : ∀ data ∈ entries, data.length < 2 ^ 63)
    (h : file.drop offset = encodeEntries crc32cAppend crc entries ++ rest)
    (hend : parseEntry crc32cAppend file (offset + encodedSize entries)
      (crcAfter crc32cAppend crc entries) = none) (hfuel : entries.length ≤ fuel) :
    parseEntries crc32cAppend file fuel offset crc =
      (indexFrom offset entries, crcAfter crc32cAppend crc entries) := by
  induction entries generalizing fuel offset crc with
  | nil =>
    cases fuel with
    | zero => rfl
    | succ fuel =>
      have hnone : parseEntry crc32cAppend file offset crc = none := hend
      rw [parseEntries, hnone]
      rfl
  | cons data entries ih =>
    obtain ⟨fuel, rfl⟩ : ∃ less, fuel = less + 1 := Nat.exists_eq_add_one.mpr (by
      rw [length_cons] at hfuel
      omega)
    obtain ⟨hdata, hlengths⟩ := forall_mem_cons.mp hlengths
    rw [encodeEntries, append_assoc] at h
    have hfirst := parseEntry_of_drop hdata h
    have hdrop : file.drop (offset + entrySizeDisk data.length) =
        encodeEntries crc32cAppend (nextCrc crc32cAppend crc data) entries ++ rest := by
      rw [← drop_drop, h, drop_left' (length_encodeEntry _ _ _)]
    have hsize : encodedSize (data :: entries) =
        entrySizeDisk data.length + encodedSize entries := rfl
    rw [hsize, ← Nat.add_assoc] at hend
    have hrest := ih hlengths hdrop hend (Nat.le_of_succ_le_succ hfuel)
    rw [parseEntries, hfirst]
    dsimp only
    rw [hrest]
    rfl

/-- The file of a segment, opened again, holds the same entries unless the bytes after them
look like another entry. -/
theorem Segment.openFile_holds {seed : UInt32} {entries : List (List UInt8)}
    (hfile : file = segmentHeader seed ++ encodeEntries crc32cAppend seed entries ++ rest)
    (haligned : file.length % 8 = 0) (hlengths : ∀ data ∈ entries, data.length < 2 ^ 63)
    (hend : parseEntry crc32cAppend file (headerLen + encodedSize entries)
      (crcAfter crc32cAppend seed entries) = none) :
    ∃ segment, openFile crc32cAppend file = .ok segment ∧
      segment.mmap = .ofFile file ∧ segment.flushOffset = segment.size ∧
      segment.Holds crc32cAppend seed rest entries := by
  have hlength : file.length = headerLen + encodedSize entries + rest.length := by
    rw [hfile, length_append, length_append, length_segmentHeader, length_encodeEntries]
  have htake : file.take (file.length / 8 * 8) = file := take_of_length_le (by omega)
  have hmagic : slice file 0 3 = segmentMagic := by
    rw [hfile, segmentHeader]
    rfl
  have hversion : slice file 3 1 = [0] := by
    rw [hfile, segmentHeader]
    rfl
  have hseed : UInt32.ofNat (Lib.ofLeBytes (slice file 4 4)) = seed := by
    rw [hfile, append_assoc, seed_of_header]
  have hfuel : entries.length ≤ file.length := by
    have hcount : entries.length ≤ encodedSize entries := by
      clear hfile hlengths hend hlength
      induction entries with
      | nil => exact Nat.zero_le _
      | cons data entries ih =>
        have hge := entrySizeDisk_ge data.length
        have hsize : encodedSize (data :: entries) =
            entrySizeDisk data.length + encodedSize entries := rfl
        rw [hsize, length_cons]
        omega
    omega
  have hdrop : file.drop headerLen = encodeEntries crc32cAppend seed entries ++ rest := by
    rw [hfile, append_assoc, drop_left' (length_segmentHeader seed)]
  have hparse := parseEntries_of_drop hlengths hdrop hend hfuel
  refine ⟨{ mmap := .ofFile file
            index := indexFrom headerLen entries
            crc := crcAfter crc32cAppend seed entries
            flushOffset := headerLen + encodedSize entries }, ?_, rfl, ?_, ?_⟩
  · unfold openFile
    rw [if_neg (by omega)]
    dsimp only
    rw [htake, hmagic, if_neg (fun hne => hne rfl), hversion, if_neg (fun hne => hne rfl), hseed,
      hparse]
    rw [size_eq_of_index rfl]
  · exact (size_eq_of_index rfl).symm
  · exact ⟨hfile, rfl, rfl, haligned, hlengths⟩

end Stratumind.WriteAhead
