import Stratumind.Wal.Segment

/-!
# Opening a damaged segment

`Segment::open` reads the length of an entry before it checks the CRC, and adds it up in the
wrapping arithmetic of `usize`. A length near the end of that range makes the bounds of a
slice cross, which panics. A loop that panics has no outcome here.
-/

namespace Stratumind.WriteAhead

open List

/-- A sum of `usize`. -/
def wrap (n : ℕ) : ℕ := n % 2 ^ 64

variable (crc32cAppend : UInt32 → List UInt8 → UInt32) (file : List UInt8)

/-- The CRC of the bytes between two offsets is the one stored after them. -/
def CrcMatches (crc : UInt32) (offset crcOffset : ℕ) : Prop :=
  appendCrc crc32cAppend crc (slice file offset (crcOffset - offset)) =
    UInt32.ofNat (Lib.ofLeBytes (slice file crcOffset 4))

instance (crc : UInt32) (offset crcOffset : ℕ) :
    Decidable (CrcMatches crc32cAppend file crc offset crcOffset) := by
  unfold CrcMatches
  infer_instance

/-- The end of a turn: the bounds of the two slices, and the comparison of the CRCs. -/
def compareCrc (offset : ℕ) (crc : UInt32) (len crcOffset next : ℕ) :
    Option (Option (ℕ × UInt32 × ℕ)) :=
  if next > file.length then some none
  else if crcOffset < offset ∨ file.length < crcOffset + crcLen then none
  else if ¬CrcMatches crc32cAppend file crc offset crcOffset then some none
  else some (some (len, UInt32.ofNat (Lib.ofLeBytes (slice file crcOffset 4)), next))

/-- One turn of the loop of `Segment::open`: the length of the entry at an offset, its CRC and
the next offset, if the loop goes on. -/
def readEntry (offset : ℕ) (crc : UInt32) : Option (Option (ℕ × UInt32 × ℕ)) :=
  if offset + headerLen + crcLen < file.length then
    let len := Lib.ofLeBytes (slice file offset 8)
    let paddedLen := wrap (len + padding len)
    compareCrc crc32cAppend file offset crc len (wrap (offset + headerLen + paddedLen))
      (wrap (offset + headerLen + paddedLen + crcLen))
  else some none

/-- The loop of `Segment::open`: the index and the last CRC. A turn that goes on moves the
offset by eight bytes at least, so the length of the file is fuel enough. -/
def readEntries : ℕ → ℕ → UInt32 → Option (List (ℕ × ℕ) × UInt32)
  | 0, _, crc => some ([], crc)
  | fuel + 1, offset, crc =>
    match readEntry crc32cAppend file offset crc with
    | none => none
    | some none => some ([], crc)
    | some (some (len, entryCrc, next)) =>
      (readEntries fuel next entryCrc).map fun (index, last) =>
        ((offset + headerLen, len) :: index, last)

/-- The part of a file that is mapped. -/
def mapped : List UInt8 := file.take (file.length / 8 * 8)

/-- `Segment::open` of a file with a valid header: the index and the last CRC. -/
def readSegment : Option (List (ℕ × ℕ) × UInt32) :=
  readEntries crc32cAppend (mapped file) (mapped file).length headerLen
    (UInt32.ofNat (Lib.ofLeBytes (slice (mapped file) 4 4)))

/-! ### Chains of entries -/

/-- Entries one after the other from an offset on, each of which fits in the file and has a
matching CRC, with the offset and the CRC after them. -/
inductive Chain : ℕ → UInt32 → List (ℕ × ℕ) → ℕ → UInt32 → Prop where
  | nil (offset : ℕ) (crc : UInt32) : Chain offset crc [] offset crc
  | cons {offset len last : ℕ} {crc entryCrc lastCrc : UInt32} {index : List (ℕ × ℕ)}
      (hentry : parseEntry crc32cAppend file offset crc = some (len, entryCrc))
      (hrest : Chain (offset + entrySizeDisk len) entryCrc index last lastCrc) :
      Chain offset crc ((offset + headerLen, len) :: index) last lastCrc

/-- The longest chain of entries after the header: no entry continues it. -/
structure LongestChain (index : List (ℕ × ℕ)) (last : ℕ) (lastCrc : UInt32) : Prop where
  chain : Chain crc32cAppend file headerLen (UInt32.ofNat (Lib.ofLeBytes (slice file 4 4))) index
    last lastCrc
  ends : parseEntry crc32cAppend file last lastCrc = none

/-- The length at an offset does not overflow the sums of a turn, or it does so by less than
an entry header and the CRC that is compared then does not match. -/
def ReadsSafely (offset : ℕ) (crc : UInt32) : Prop :=
  let len := Lib.ofLeBytes (slice file offset 8)
  offset + headerLen + crcLen < file.length →
    offset + headerLen + (len + padding len) + crcLen < 2 ^ 64 ∨
      (2 ^ 64 - 12 < len ∧ ¬CrcMatches crc32cAppend file crc offset
        (offset + if len ≤ 2 ^ 64 - 4 then 4 else 12))

variable {crc32cAppend file} {offset : ℕ} {crc : UInt32}

private theorem padding_cases (len : ℕ) : padding len < 8 ∧ (len + padding len) % 8 = 4 := by
  unfold padding
  omega

private theorem ofLeBytes_slice_lt : Lib.ofLeBytes (slice file offset 8) < 2 ^ 64 := by
  have hbound : ∀ bytes : List UInt8, Lib.ofLeBytes bytes < 256 ^ bytes.length := by
    intro bytes
    induction bytes with
    | nil => decide
    | cons byte bytes ih =>
      have hbyte := byte.toNat_lt
      rw [Lib.ofLeBytes, length_cons, pow_succ]
      omega
  have hlength : (slice file offset 8).length ≤ 8 := length_take_le ..
  calc
    _ < 256 ^ (slice file offset 8).length := hbound _
    _ ≤ 256 ^ 8 := Nat.pow_le_pow_right (by decide) hlength
    _ = 2 ^ 64 := by decide

private theorem compareCrc_eq_none_iff {len crcOffset next : ℕ} :
    compareCrc crc32cAppend file offset crc len crcOffset next = some none ↔
      file.length < next ∨ (offset ≤ crcOffset ∧ crcOffset + crcLen ≤ file.length) ∧
        ¬CrcMatches crc32cAppend file crc offset crcOffset := by
  unfold compareCrc
  split_ifs <;> simp <;> grind

/-- The turn over the natural numbers, which never leaves the file. -/
private theorem parseEntry_eq (hguard : offset + headerLen + crcLen < file.length) {len : ℕ}
    (hlen : len = Lib.ofLeBytes (slice file offset 8)) {crcOffset : ℕ}
    (hoffset : crcOffset = offset + headerLen + (len + padding len)) :
    parseEntry crc32cAppend file offset crc =
      if crcOffset + crcLen ≤ file.length ∧ CrcMatches crc32cAppend file crc offset crcOffset then
        some (len, UInt32.ofNat (Lib.ofLeBytes (slice file crcOffset 4)))
      else none := by
  have hmatches : CrcMatches crc32cAppend file crc offset crcOffset ↔
      appendCrc crc32cAppend crc (slice file offset (headerLen + (len + padding len))) =
        UInt32.ofNat (Lib.ofLeBytes (slice file crcOffset 4)) := by
    rw [CrcMatches, hoffset, Nat.add_assoc, Nat.add_sub_cancel_left]
  unfold parseEntry
  rw [if_pos hguard]
  dsimp only
  rw [← hlen, ← hoffset]
  split_ifs <;> grind

private theorem lt_of_parseEntry (h : parseEntry crc32cAppend file offset crc ≠ none) :
    offset + headerLen + crcLen < file.length := by
  by_contra hguard
  exact h (if_neg hguard)

/-- A valid entry is read as such. -/
private theorem readEntry_of_parseEntry {len : ℕ} {entryCrc : UInt32}
    (hlength : file.length < 2 ^ 63)
    (h : parseEntry crc32cAppend file offset crc = some (len, entryCrc)) :
    readEntry crc32cAppend file offset crc =
      some (some (len, entryCrc, offset + entrySizeDisk len)) := by
  have hguard := lt_of_parseEntry (h ▸ Option.some_ne_none _)
  rw [parseEntry_eq hguard rfl rfl] at h
  split at h
  swap
  · cases h
  rename_i hentry
  cases h
  have hwrap : ∀ n ≤ file.length, wrap n = n := fun n hn => Nat.mod_eq_of_lt (by omega)
  have hsize : ∀ len, offset + entrySizeDisk len =
      offset + headerLen + (len + padding len) + crcLen := by
    intro len
    unfold entrySizeDisk entryOverhead
    omega
  unfold readEntry compareCrc
  rw [if_pos hguard, hsize]
  dsimp only
  rw [hwrap (_ + padding _) (by omega), hwrap _ hentry.1, hwrap _ (by omega), if_neg (by omega),
    if_neg (by omega), if_neg (not_not.mpr hentry.2)]

/-- Where no valid entry is, the loop ends exactly if the turn is safe. -/
private theorem readEntry_eq_none_iff (hlength : file.length < 2 ^ 63)
    (haligned : file.length % 8 = 0) (hoffset : offset % 8 = 0)
    (h : parseEntry crc32cAppend file offset crc = none) :
    readEntry crc32cAppend file offset crc = some none ↔
      ReadsSafely crc32cAppend file offset crc := by
  unfold readEntry ReadsSafely
  by_cases hguard : offset + headerLen + crcLen < file.length
  swap
  · simp only [hguard, if_false, false_imp_iff]
  have hlen := @ofLeBytes_slice_lt file offset
  rw [parseEntry_eq hguard rfl rfl] at h
  rw [if_pos hguard]
  generalize Lib.ofLeBytes (slice file offset 8) = len at h hlen ⊢
  obtain ⟨hpadding, hmod⟩ := padding_cases len
  dsimp only
  rw [compareCrc_eq_none_iff]
  simp only [hguard, forall_const]
  generalize hpadded : len + padding len = paddedLen at h hmod ⊢
  unfold wrap headerLen crcLen at *
  by_cases hsafe : offset + 8 + paddedLen + 4 < 2 ^ 64
  · -- no sum wraps, so the turn is the one over the natural numbers
    rw [Nat.mod_eq_of_lt (show paddedLen < _ by omega), Nat.mod_eq_of_lt hsafe,
      Nat.mod_eq_of_lt (show offset + 8 + paddedLen < _ by omega)]
    grind
  simp only [hsafe, false_or]
  rcases Nat.lt_or_ge (2 ^ 64) paddedLen with hlong | hlong
  · -- the padded length itself wraps to four
    have hfour : paddedLen % 2 ^ 64 = 4 := by omega
    rw [hfour, Nat.mod_eq_of_lt (by omega), Nat.mod_eq_of_lt (by omega), if_neg (by omega)]
    grind
  rw [Nat.mod_eq_of_lt (show paddedLen < _ by omega)]
  rcases Nat.lt_or_ge (2 ^ 64 - 12) paddedLen with hlast | hlast
  · have hcrcOffset : (offset + 8 + paddedLen) % 2 ^ 64 = offset + 4 := by omega
    have hnext : (offset + 8 + paddedLen + 4) % 2 ^ 64 = offset + 8 := by omega
    rw [hcrcOffset, hnext, if_pos (by omega)]
    grind
  · -- the bounds of a slice cross
    have hcross : (offset + 8 + paddedLen) % 2 ^ 64 < offset ∨
        file.length < (offset + 8 + paddedLen) % 2 ^ 64 + 4 := by omega
    have hnext : (offset + 8 + paddedLen + 4) % 2 ^ 64 ≤ file.length := by omega
    grind

/-- Along a chain the loop reads its entries; after the longest one it ends exactly if the
last turn is safe. -/
private theorem Chain.readEntries_iff {index : List (ℕ × ℕ)} {last fuel : ℕ} {lastCrc : UInt32}
    (h : Chain crc32cAppend file offset crc index last lastCrc) (hlength : file.length < 2 ^ 63)
    (haligned : file.length % 8 = 0) (hoffset : offset % 8 = 0)
    (hends : parseEntry crc32cAppend file last lastCrc = none)
    (hfuel : file.length < offset + 8 * fuel) :
    (readEntries crc32cAppend file fuel offset crc).map Prod.fst = some index ↔
      ReadsSafely crc32cAppend file last lastCrc := by
  induction h generalizing fuel with
  | nil offset crc =>
    rw [← readEntry_eq_none_iff hlength haligned hoffset hends]
    cases fuel with
    | zero =>
      rw [readEntry, if_neg (by omega)]
      simp [readEntries]
    | succ fuel =>
      rw [readEntries]
      rcases readEntry crc32cAppend file offset crc with _ | _ | ⟨len, entryCrc, next⟩
      · simp
      · simp
      · simp [Option.map_map]
  | @cons offset len last crc entryCrc lastCrc index hentry _ ih =>
    have hguard := lt_of_parseEntry (hentry ▸ Option.some_ne_none _)
    have hmod := entrySizeDisk_mod len
    have hge := entrySizeDisk_ge len
    obtain ⟨fuel, rfl⟩ : ∃ less, fuel = less + 1 := Nat.exists_eq_add_one.mpr (by omega)
    rw [← @ih fuel (by omega) hends (by omega), readEntries, readEntry_of_parseEntry hlength hentry]
    simp [Option.map_map, Function.comp_def]

/-- The longest chain is read exactly if the bytes after it are read safely. -/
private theorem LongestChain.readSegment_iff {index : List (ℕ × ℕ)} {last : ℕ} {lastCrc : UInt32}
    (h : LongestChain crc32cAppend (mapped file) index last lastCrc)
    (hlength : file.length < 2 ^ 63) :
    (readSegment crc32cAppend file).map Prod.fst = some index ↔
      ReadsSafely crc32cAppend (mapped file) last lastCrc := by
  have hmapped : (mapped file).length = file.length / 8 * 8 := by
    rw [mapped, length_take]
    omega
  exact h.chain.readEntries_iff (by omega) (by omega) rfl h.ends (by unfold headerLen; omega)

/-- The loop without wrapping reads a chain that no entry continues. -/
private theorem exists_chain_parseEntries {fuel : ℕ} (hfuel : file.length < fuel + offset) :
    let read := parseEntries crc32cAppend file fuel offset crc
    ∃ last, Chain crc32cAppend file offset crc read.1 last read.2 ∧
      parseEntry crc32cAppend file last read.2 = none := by
  induction fuel generalizing offset crc with
  | zero => exact ⟨offset, .nil .., by rw [parseEntry, if_neg (by omega)]⟩
  | succ fuel ih =>
    rw [parseEntries]
    cases hentry : parseEntry crc32cAppend file offset crc with
    | none => exact ⟨offset, .nil .., hentry⟩
    | some entry =>
      have hge := entrySizeDisk_ge entry.1
      obtain ⟨last, hchain, hends⟩ := @ih (offset + entrySizeDisk entry.1) entry.2 (by omega)
      exact ⟨last, .cons hentry hchain, hends⟩

/-- `Segment::open` without wrapping and with it find the same entries exactly if the bytes after
the longest chain are read safely. -/
theorem openFile_agrees_iff {segment : Segment}
    (h : Segment.openFile crc32cAppend file = .ok segment) (hlength : file.length < 2 ^ 63) :
    ∃ last, LongestChain crc32cAppend (mapped file) segment.index last segment.crc ∧
      ((readSegment crc32cAppend file).map Prod.fst = some segment.index ↔
        ReadsSafely crc32cAppend (mapped file) last segment.crc) := by
  rw [Segment.openFile] at h
  split at h
  · cases h
  dsimp only at h
  split at h
  · cases h
  split at h
  · cases h
  cases h
  obtain ⟨last, hchain, hends⟩ := @exists_chain_parseEntries crc32cAppend (mapped file) headerLen
    (UInt32.ofNat (Lib.ofLeBytes (slice (mapped file) 4 4))) (mapped file).length
    (by unfold headerLen; omega)
  exact ⟨last, ⟨hchain, hends⟩, LongestChain.readSegment_iff ⟨hchain, hends⟩ hlength⟩

/-- A damaged segment is opened without a panic and gives the longest chain of entries exactly
if the bytes after that chain are read safely. -/
theorem readSegment_longest_chain_iff (crc32cAppend : UInt32 → List UInt8 → UInt32)
    {file : List UInt8} (hlength : file.length < 2 ^ 63) :
    (∃ index last lastCrc, (readSegment crc32cAppend file).map Prod.fst = some index ∧
        LongestChain crc32cAppend (mapped file) index last lastCrc) ↔
      ∃ index last lastCrc, LongestChain crc32cAppend (mapped file) index last lastCrc ∧
        ReadsSafely crc32cAppend (mapped file) last lastCrc := by
  constructor
  · rintro ⟨index, last, lastCrc, hread, hlongest⟩
    exact ⟨index, last, lastCrc, hlongest, (hlongest.readSegment_iff hlength).mp hread⟩
  · rintro ⟨index, last, lastCrc, hlongest, hsafe⟩
    exact ⟨index, last, lastCrc, (hlongest.readSegment_iff hlength).mpr hsafe, hlongest⟩

/-- A CRC that sums up the bytes. -/
private def sumCrc (_ : UInt32) (data : List UInt8) : UInt32 :=
  data.foldl (fun sum byte => sum + byte.toUInt32) 1

/-- A segment with some entries, and a length after them. -/
private def damaged (entries : List (List UInt8)) (len : ℕ) : List UInt8 :=
  segmentHeader 0 ++ encodeEntries sumCrc 0 entries ++ Lib.leBytes headerLen len ++ replicate 8 0

/-- The length after a valid entry is small, but no CRC follows it: the entry is read. -/
theorem readSegment_longest_chain_one_entry :
    (damaged [[5]] 4).length < 2 ^ 63 ∧
      ∃ index last lastCrc,
        (readSegment sumCrc (damaged [[5]] 4)).map Prod.fst = some index ∧
        LongestChain sumCrc (mapped (damaged [[5]] 4)) index last lastCrc ∧ index ≠ [] := by
  obtain ⟨index, last, lastCrc, hread, hlongest⟩ :=
    (@readSegment_longest_chain_iff sumCrc (damaged [[5]] 4) (by decide)).mpr
      ⟨[(16, 1)], 24, _, ⟨.cons rfl (.nil ..), by decide +kernel⟩,
        fun _ => Or.inl (by decide +kernel)⟩
  refine ⟨by decide, index, last, lastCrc, hread, hlongest, ?_⟩
  rintro rfl
  revert hread
  decide +kernel

/-- A length near the end of the range of `usize` makes the bounds of a slice cross. -/
theorem readSegment_panics_on_huge_length :
    (damaged [] (2 ^ 64 - 16)).length < 2 ^ 63 ∧
      ∀ crc32cAppend, readSegment crc32cAppend (damaged [] (2 ^ 64 - 16)) = none :=
  ⟨by decide, fun _ => rfl⟩

end Stratumind.WriteAhead
