import Stratumind.Wal.LogOperations

/-!
# Crashes

After a crash every byte of a segment file is either the mapped one or the one that was last
flushed. What a segment has flushed is read back, and what else is read back are entries that
follow, provided that no CRC matches by accident.
-/

namespace Stratumind.WriteAhead

open List

variable {env : Environment}

/-- A flush of a range changes the disk within the range only. -/
theorem Mmap.getElem_flushRange (mmap : Mmap) (start len i : ℕ) :
    (mmap.flushRange start len).disk[i]? =
      if start ≤ i ∧ i < start + len then mmap.bytes[i]? else mmap.disk[i]? := by
  have hlength := mmap.length_disk
  have hslice : (mmap.disk.take start ++ slice mmap.bytes start len).length =
      min (start + len) mmap.bytes.length := by
    unfold slice
    rw [length_append, length_take, length_take, length_drop]
    omega
  unfold Mmap.flushRange
  rw [getElem?_append, hslice, getElem?_append, getElem?_drop, getElem?_take, slice,
    getElem?_take, getElem?_drop, length_take]
  grind

/-- The bytes that a flush in the background covers. -/
def PendingFlush.Covers : PendingFlush → ℕ → Prop
  | .nothing, _ => False
  | .range start len, i => start ≤ i ∧ i < start + len
  | .everything, _ => True

namespace Segment

/-! ### What is on disk -/

/-- A byte of the file is on disk. -/
def OnDisk (segment : Segment) (i : ℕ) : Prop := segment.mmap.disk[i]? = segment.mmap.bytes[i]?

/-- The first bytes of the file are on disk. -/
def Synced (segment : Segment) (count : ℕ) : Prop :=
  ∀ i < count, segment.mmap.disk[i]? = segment.mmap.bytes[i]?

variable {segment : Segment} {count i : ℕ}

/-- A flush puts what it covers on disk, and takes nothing from it. -/
theorem onDisk_complete {pending : PendingFlush} (h : segment.OnDisk i ∨ pending.Covers i) :
    (segment.complete pending).OnDisk i := by
  cases pending with
  | nothing => exact h.resolve_right id
  | everything => rfl
  | range start len =>
    unfold OnDisk complete
    rw [Mmap.getElem_flushRange]
    split
    · rfl
    · exact h.resolve_right ‹_›

theorem covers_pendingFlush (hle : segment.flushOffset ≤ segment.size) :
    segment.pendingFlush.Covers i ↔ segment.flushOffset ≤ i ∧ i < segment.size := by
  unfold pendingFlush PendingFlush.Covers
  grind

/-- A flush takes nothing from the disk. -/
theorem Synced.complete (h : segment.Synced count)
    (pending : PendingFlush) : (segment.complete pending).Synced count :=
  fun i hi => onDisk_complete (Or.inl (h i hi))

/-- A flush of everything since the last flush. -/
theorem Synced.complete_pendingFlush (h : segment.Synced segment.flushOffset)
    (hle : segment.flushOffset ≤ segment.size) :
    (segment.complete segment.pendingFlush).Synced segment.size := by
  refine fun i hi => onDisk_complete ?_
  rw [covers_pendingFlush hle]
  exact (Nat.lt_or_ge i segment.flushOffset).imp (h i) fun hge => ⟨hge, hi⟩

/-- The first entries of the segment are on disk, and so is what is not flushed again. -/
structure Durable (segment : Segment) (entries : List (List UInt8)) (count : ℕ) : Prop where
  count_le : count ≤ entries.length
  entries_synced : segment.Synced (headerLen + encodedSize (entries.take count))
  offset_synced : segment.Synced segment.flushOffset
  offset_le : segment.flushOffset ≤ segment.size

theorem size_complete (segment : Segment) (pending : PendingFlush) :
    (segment.complete pending).size = segment.size := by
  cases pending <;> rfl

variable {entries : List (List UInt8)} {rest : List UInt8} {seed : UInt32}

/-- A flushed segment has all its entries on disk. -/
theorem Durable.flush (h : segment.Durable entries count)
    (hholds : segment.Holds env.crc32cAppend seed rest entries) :
    segment.flush.Durable entries entries.length := by
  have hsynced := h.offset_synced.complete_pendingFlush h.offset_le
  have hsize := size_complete segment segment.pendingFlush
  refine ⟨le_rfl, ?_, hsynced, Nat.le_of_eq hsize.symm⟩
  rw [take_length, ← hholds.size]
  exact hsynced

/-- An append keeps the bytes of the earlier entries. -/
theorem Holds.getElem_append {next : Segment} {nextRest data : List UInt8}
    (h : segment.Holds env.crc32cAppend seed rest entries)
    (hnext : next.Holds env.crc32cAppend seed nextRest (entries ++ [data]))
    (hi : i < segment.size) : next.mmap.bytes[i]? = segment.mmap.bytes[i]? := by
  have hbefore : i < (segmentHeader seed ++
      encodeEntries env.crc32cAppend seed entries).length := by
    rw [length_append, length_segmentHeader, length_encodeEntries, ← h.size]
    exact hi
  rw [h.bytes, hnext.bytes, getElem?_append_left hbefore, encodeEntries_append, ← append_assoc,
    append_assoc _ _ nextRest, getElem?_append_left hbefore]

/-- An entry that is appended is not on disk yet. -/
theorem Durable.append {next : Segment} {nextRest data : List UInt8}
    (h : segment.Durable entries count) (hholds : segment.Holds env.crc32cAppend seed rest entries)
    (hnext : next.Holds env.crc32cAppend seed nextRest (entries ++ [data]))
    (hdisk : next.mmap.disk = segment.mmap.disk)
    (hoffset : next.flushOffset = segment.flushOffset) :
    next.Durable (entries ++ [data]) count := by
  have hsize := hholds.size
  have hnextSize := hnext.size
  rw [encodedSize_append] at hnextSize
  -- the bytes of the earlier entries are kept
  have hkept : ∀ length ≤ segment.size, segment.Synced length → next.Synced length := by
    intro length hlength hsynced i hi
    rw [hdisk, hsynced i hi, hholds.getElem_append hnext (by omega)]
  have htake : (entries ++ [data]).take count = entries.take count :=
    take_append_of_le_length h.count_le
  have hle : encodedSize (entries.take count) ≤ encodedSize entries := by
    conv_rhs => rw [← take_append_drop count entries]
    rw [encodedSize_append]
    exact Nat.le_add_right _ _
  refine ⟨?_, ?_, ?_, ?_⟩
  · rw [length_append]
    exact Nat.le_add_right_of_le h.count_le
  · rw [htake]
    exact hkept _ (by omega) h.entries_synced
  · rw [hoffset]
    exact hkept _ h.offset_le h.offset_synced
  · have hoffsetLe := h.offset_le
    omega

/-- A segment whose file is on disk, before its first flush. -/
theorem durable_of_disk (hdisk : segment.mmap.disk = segment.mmap.bytes)
    (hoffset : segment.flushOffset ≤ segment.size) : segment.Durable [] 0 := by
  have hsynced : ∀ count, segment.Synced count := fun count i _ => by rw [hdisk]
  exact ⟨le_rfl, hsynced _, hsynced _, hoffset⟩

theorem create_durable {capacity : ℕ} (h : create capacity seed = .ok segment) :
    segment.Durable [] 0 := by
  unfold create at h
  dsimp only at h
  split at h <;> cases h
  exact durable_of_disk rfl (Nat.zero_le _)

/-- A segment is enlarged after a flush, by zeros. -/
theorem ensureCapacity_cases {next : Segment} {entrySize : ℕ}
    (hnext : segment.ensureCapacity entrySize = some next) :
    next = segment ∨ next.flushOffset = segment.size ∧ next.size = segment.size ∧
      ∀ i, segment.flush.OnDisk i → next.OnDisk i := by
  unfold ensureCapacity at hnext
  dsimp only at hnext
  split at hnext
  · cases hnext
  split at hnext
  · cases hnext
    refine Or.inr ⟨rfl, size_complete segment segment.pendingFlush, fun i hi => ?_⟩
    have hlength := segment.flush.mmap.length_disk
    change (segment.flush.mmap.disk ++ _)[i]? = (segment.flush.mmap.bytes ++ _)[i]?
    rw [getElem?_append, getElem?_append, hlength, hi]
  · cases hnext
    exact Or.inl rfl

/-- An empty segment that is enlarged. -/
theorem Durable.ensureCapacity {next : Segment} {entrySize : ℕ} (h : segment.Durable [] 0)
    (hnext : segment.ensureCapacity entrySize = some next) : next.Durable [] 0 := by
  rcases ensureCapacity_cases hnext with rfl | ⟨hoffset, hsize, hdisk⟩
  · exact h
  have hflushed := h.offset_synced.complete_pendingFlush h.offset_le
  refine ⟨le_rfl, fun i hi => hdisk i (h.entries_synced.complete _ i hi), fun i hi => ?_, ?_⟩
  · rw [hoffset] at hi
    exact hdisk i (hflushed i hi)
  · rw [hoffset, hsize]

/-! ### What a crash leaves behind -/

/-- A file that a crash may leave behind. -/
structure CrashFile (segment : Segment) (file : List UInt8) : Prop where
  length_eq : file.length = segment.mmap.bytes.length
  getElem_eq : ∀ i : ℕ, file[i]? = segment.mmap.disk[i]? ∨ file[i]? = segment.mmap.bytes[i]?

/-- An entry whose CRC matches is the one that was written there. -/
def TornSafe (env : Environment) (segment : Segment) (file : List UInt8) : Prop :=
  ∀ seed rest entries, segment.Holds env.crc32cAppend seed rest entries →
    ∀ count ≤ entries.length,
      parseEntry env.crc32cAppend file (headerLen + encodedSize (entries.take count))
        (crcAfter env.crc32cAppend seed (entries.take count)) ≠ none →
      ∃ data after, entries[count]? = some data ∧
        file.drop (headerLen + encodedSize (entries.take count)) =
          encodeEntry env.crc32cAppend (crcAfter env.crc32cAppend seed (entries.take count)) data ++
            after

variable {file : List UInt8}

/-- A crash does not change what is on disk. -/
theorem CrashFile.take_eq (h : segment.CrashFile file) (hsynced : segment.Synced count) :
    file.take count = segment.mmap.bytes.take count := by
  apply ext_getElem?
  intro i
  rw [getElem?_take, getElem?_take]
  by_cases hi : i < count
  · rw [if_pos hi, if_pos hi]
    rcases h.getElem_eq i with hdisk | hbytes
    · rw [hdisk, hsynced i hi]
    · exact hbytes
  · rw [if_neg hi, if_neg hi]


/-- The file starts with some entries, and no further one is found. -/
private theorem exists_parsed (h : segment.Holds env.crc32cAppend seed rest entries)
    (hsafe : segment.TornSafe env file) (count : ℕ) (hcount : count ≤ entries.length)
    (hfront : file.take (headerLen + encodedSize (entries.take count)) =
      segmentHeader seed ++ encodeEntries env.crc32cAppend seed (entries.take count)) :
    ∃ more after, count ≤ more ∧ more ≤ entries.length ∧
      file = segmentHeader seed ++ encodeEntries env.crc32cAppend seed (entries.take more) ++
        after ∧
      parseEntry env.crc32cAppend file (headerLen + encodedSize (entries.take more))
        (crcAfter env.crc32cAppend seed (entries.take more)) = none := by
  have hwhole := (take_append_drop (headerLen + encodedSize (entries.take count)) file).symm
  rw [hfront] at hwhole
  by_cases hnone : parseEntry env.crc32cAppend file (headerLen + encodedSize (entries.take count))
      (crcAfter env.crc32cAppend seed (entries.take count)) = none
  · exact ⟨count, _, le_rfl, hcount, hwhole, hnone⟩
  -- each turn finds one more entry
  obtain ⟨data, after, hdata, hdrop⟩ := hsafe seed rest entries h count hcount hnone
  obtain ⟨hlt, -⟩ := List.getElem?_eq_some_iff.mp hdata
  have htake : entries.take (count + 1) = entries.take count ++ [data] := by
    rw [take_add_one, hdata]
    rfl
  have hsize : encodedSize (entries.take (count + 1)) =
      encodedSize (entries.take count) + entrySizeDisk data.length := by
    rw [htake, encodedSize_append]
    simp [encodedSize]
  have hnext : file.take (headerLen + encodedSize (entries.take (count + 1))) =
      segmentHeader seed ++ encodeEntries env.crc32cAppend seed (entries.take (count + 1)) := by
    rw [hsize, ← Nat.add_assoc, take_add, hfront, hdrop, take_left' (length_encodeEntry _ _ _),
      htake, encodeEntries_append, append_assoc]
    simp only [encodeEntries, append_nil]
  obtain ⟨more, after, hle, hmore, hfile, hend⟩ := exists_parsed h hsafe (count + 1) hlt hnext
  exact ⟨more, after, by omega, hmore, hfile, hend⟩
termination_by entries.length - count

/-- What is opened from a file that starts as the segment does are the first entries. -/
theorem Holds.recover_front (h : segment.Holds env.crc32cAppend seed rest entries)
    (haligned : file.length % 8 = 0) (hsafe : segment.TornSafe env file)
    (hcount : count ≤ entries.length)
    (hfront : file.take (headerLen + encodedSize (entries.take count)) =
      segment.mmap.bytes.take (headerLen + encodedSize (entries.take count))) :
    ∃ recovered more, count ≤ more ∧ more ≤ entries.length ∧
      openFile env.crc32cAppend file = .ok recovered ∧
      recovered.HoldsEntries env (entries.take more) := by
  have hsplit := encodeEntries_append env.crc32cAppend seed (entries.take count)
    (entries.drop count)
  rw [take_append_drop] at hsplit
  have hencoded : file.take (headerLen + encodedSize (entries.take count)) =
      segmentHeader seed ++ encodeEntries env.crc32cAppend seed (entries.take count) := by
    rw [hfront, h.bytes, hsplit, ← append_assoc, append_assoc, take_left']
    rw [length_append, length_segmentHeader, length_encodeEntries]
  obtain ⟨more, after, hle, hmore, hfile, hend⟩ := exists_parsed h hsafe count hcount hencoded
  obtain ⟨recovered, hopen, -, -, hholds⟩ := openFile_holds hfile haligned
    (fun data hdata => h.lengths data (mem_of_mem_take hdata)) hend
  exact ⟨recovered, more, hle, hmore, hopen, seed, after, hholds⟩

/-- What is opened after a crash are the first entries, among them all that are on disk. -/
theorem Holds.recover (h : segment.Holds env.crc32cAppend seed rest entries)
    (hcrash : segment.CrashFile file) (hsafe : segment.TornSafe env file)
    (hcount : count ≤ entries.length)
    (hsynced : segment.Synced (headerLen + encodedSize (entries.take count))) :
    ∃ recovered more, count ≤ more ∧ more ≤ entries.length ∧
      openFile env.crc32cAppend file = .ok recovered ∧
      recovered.HoldsEntries env (entries.take more) := by
  refine h.recover_front ?_ hsafe hcount (hcrash.take_eq hsynced)
  rw [hcrash.length_eq]
  exact h.aligned

/-- A segment holds one list of entries only. -/
theorem Holds.entries_unique {crc32cAppend : UInt32 → List UInt8 → UInt32} {otherSeed : UInt32}
    {otherRest : List UInt8} {others : List (List UInt8)}
    (h : segment.Holds crc32cAppend seed rest entries)
    (hother : segment.Holds crc32cAppend otherSeed otherRest others) : entries = others := by
  apply ext_getElem?
  intro i
  rw [← h.entry, ← hother.entry]

/-- One byte may be left as it was on disk. -/
theorem crashFile_set {i : ℕ} {old : UInt8} (hold : segment.mmap.disk[i]? = some old) :
    segment.CrashFile (segment.mmap.bytes.set i old) := by
  refine ⟨length_set, fun j => ?_⟩
  by_cases hj : i = j
  · subst hj
    by_cases hi : i < segment.mmap.bytes.length
    · rw [getElem?_set_self hi, hold]
      exact .inl rfl
    · rw [set_eq_of_length_le (by omega)]
      exact .inr rfl
  · rw [getElem?_set_ne hj]
    exact .inr rfl

end Segment

/-!
### Runs of a segment

Appends, flushes and resizes of one segment, in any order and with any outcome. `flush_async`
moves the flush offset before its thread has flushed anything, so what is below the offset is
on disk or is covered by a call that has not succeeded.
-/

/-- A call of `flush_async`: the bytes that it covers, and the entries appended before it. -/
structure FlushCall where
  range : PendingFlush
  entries : List (List UInt8)

/-- A segment with the entries that were appended to it, and those that were there at the last
successful `flush`. -/
structure SegmentRun where
  segment : Segment
  entries : List (List UInt8)
  flushed : List (List UInt8)
  /-- The zeros by which the file is longer than the mapping. -/
  grown : ℕ
  /-- The calls of `flush_async` that have not succeeded, the earliest first. -/
  pending : List FlushCall

/-- A call on a segment, and how it ends. -/
inductive SegmentCall where
  | append (data : List UInt8)
  | ensureCapacity (entrySize : ℕ)
  /-- `ensure_capacity` fails after its flush, before or after the file is enlarged. -/
  | resizeFails (entrySize : ℕ) (enlarged : Bool)
  | flush (ok : Bool)
  | flushAsync
  /-- The thread of a pending call of `flush_async` ends. -/
  | finish (i : ℕ) (ok : Bool)

namespace SegmentCall

/-- The length of a slice is at most `isize::MAX`. -/
def Fits : SegmentCall → Prop
  | .append data => data.length < 2 ^ 63
  | _ => True

/-- The call does not flush in the background. -/
def Synchronous : SegmentCall → Prop
  | .flushAsync | .finish .. => False
  | _ => True

end SegmentCall

namespace SegmentRun

/-- One call. A flush that fails changes nothing, and its call stays pending. -/
def step (env : Environment) (run : SegmentRun) : SegmentCall → Option SegmentRun
  | .append data =>
    match run.segment.append env.crc32cAppend data with
    | none => some run
    | some (segment, _) => some { run with segment, entries := run.entries ++ [data] }
  | .ensureCapacity entrySize =>
    (run.segment.ensureCapacity entrySize).map fun segment =>
      { run with
        segment, grown := if segment.capacity = run.segment.capacity then run.grown else 0 }
  | .resizeFails entrySize enlarged =>
    (run.segment.ensureCapacity entrySize).map fun segment =>
      if segment.capacity = run.segment.capacity then run
      else
        { run with
          segment := run.segment.flush
          grown := if enlarged then segment.capacity - run.segment.capacity else run.grown }
  | .flush ok =>
    some (if ok then { run with segment := run.segment.flush, flushed := run.entries } else run)
  | .flushAsync =>
    let (segment, range) := run.segment.flushAsync
    some { run with segment, pending := run.pending ++ [⟨range, run.entries⟩] }
  | .finish i ok =>
    match run.pending[i]?, ok with
    | some call, true =>
      some { run with
        segment := run.segment.complete call.range
        pending := run.pending.eraseIdx i }
    | _, _ => some run

/-- The calls on a new segment. -/
def calls (env : Environment) (segment : Segment) (calls : List SegmentCall) : Option SegmentRun :=
  calls.foldlM (step env) { segment, entries := [], flushed := [], grown := 0, pending := [] }

/-- A file that a crash may leave behind. -/
def CrashFile (run : SegmentRun) (file : List UInt8) : Prop :=
  ∃ mapped, run.segment.CrashFile mapped ∧ file = mapped ++ replicate run.grown 0

/-- The entries that a call vouches for when it reports `Ok`. -/
def reports (run : SegmentRun) : SegmentCall → Option (List (List UInt8))
  | .flush true => some run.entries
  | .finish i true => (run.pending[i]?).map FlushCall.entries
  | _ => none

/-- Every `flush_async` before the call has succeeded. -/
def EarlierSucceeded (run : SegmentRun) : SegmentCall → Prop
  | .flush _ => run.pending = []
  | .finish i _ => i = 0
  | _ => True

/-! ### The invariant -/

/-- What every run keeps. -/
structure Kept (env : Environment) (seed : UInt32) (run : SegmentRun) : Prop where
  holds : ∃ rest, run.segment.Holds env.crc32cAppend seed rest run.entries
  offset_le : run.segment.flushOffset ≤ run.segment.size
  covered : ∀ i < max headerLen run.segment.flushOffset,
    run.segment.OnDisk i ∨ ∃ call ∈ run.pending, call.range.Covers i
  flushed_entries : run.flushed <+: run.entries
  flushed_le : headerLen + encodedSize run.flushed ≤ max headerLen run.segment.flushOffset
  pending_le : ∀ call ∈ run.pending,
    headerLen + encodedSize call.entries ≤ run.segment.flushOffset
  ends : ∀ call ∈ run.pending, ∀ i, call.range.Covers i →
    i < headerLen + encodedSize call.entries
  ordered : run.pending.Pairwise fun earlier later =>
    ∀ i, later.range.Covers i → headerLen + encodedSize earlier.entries ≤ i
  grown : run.grown % 8 = 0

variable {env : Environment} {seed : UInt32} {run : SegmentRun}

namespace Kept

section

variable (h : run.Kept env seed)

include h

/-- The segment changes, and its flush offset moves up only to what is on disk. -/
private theorem advance {next : Segment} {entries : List (List UInt8)}
    (hentries : run.entries <+: entries)
    (hnext : ∃ rest, next.Holds env.crc32cAppend seed rest entries)
    (hoffset : run.segment.flushOffset ≤ next.flushOffset) (hle : next.flushOffset ≤ next.size)
    (hdisk : ∀ i < next.flushOffset,
      run.segment.OnDisk i ∨ run.segment.flushOffset ≤ i → next.OnDisk i)
    (hheader : ∀ i < headerLen, run.segment.OnDisk i → next.OnDisk i) {grown : ℕ}
    (hgrown : grown % 8 = 0) :
    ({ run with segment := next, entries, grown } : SegmentRun).Kept env seed where
  holds := hnext
  offset_le := hle
  covered i hi := by
    have hcovered := h.covered i
    grind
  flushed_entries := h.flushed_entries.trans hentries
  flushed_le := h.flushed_le.trans (by dsimp only; omega)
  pending_le call hcall := (h.pending_le call hcall).trans hoffset
  ends := h.ends
  ordered := h.ordered
  grown := hgrown

private theorem append {data : List UInt8} (hlength : data.length < 2 ^ 63) :
    ∃ next, run.step env (.append data) = some next ∧ next.Kept env seed := by
  obtain ⟨rest, hholds⟩ := h.holds
  rw [step]
  by_cases hfits : entrySizeDisk data.length ≤ rest.length
  swap
  · have hnone : run.segment.append env.crc32cAppend data = none := by
      simp [Segment.append, hholds.sufficientCapacity, hfits]
    rw [hnone]
    exact ⟨run, rfl, h⟩
  obtain ⟨next, happend, hnext, hdisk, hoffset⟩ := hholds.append hlength hfits
  rw [happend]
  have hsize := hholds.size
  have hnextSize := hnext.size
  rw [encodedSize_append] at hnextSize
  have hle := h.offset_le
  have hkept : ∀ i < run.segment.size, run.segment.OnDisk i → next.OnDisk i := by
    intro i hi hi'
    rw [Segment.OnDisk, hdisk, hi', hholds.getElem_append hnext hi]
  refine ⟨_, rfl, h.advance (prefix_append ..) ⟨_, hnext⟩ hoffset.ge (by omega) ?_ ?_ h.grown⟩
  · intro i hi hi'
    exact hkept i (by omega) (hi'.resolve_right (by omega))
  · exact fun i hi => hkept i (by omega)

private theorem onDisk_flush {i : ℕ} (hi : i < run.segment.size)
    (hdisk : run.segment.OnDisk i ∨ run.segment.flushOffset ≤ i) : run.segment.flush.OnDisk i :=
  Segment.onDisk_complete (hdisk.imp_right fun hge =>
    (Segment.covers_pendingFlush h.offset_le).mpr ⟨hge, hi⟩)

private theorem flush {grown : ℕ} (hgrown : grown % 8 = 0) :
    ({ run with segment := run.segment.flush, grown } : SegmentRun).Kept env seed := by
  obtain ⟨rest, hholds⟩ := h.holds
  have hsize : run.segment.flush.size = run.segment.size :=
    Segment.size_complete run.segment run.segment.pendingFlush
  exact h.advance (prefix_refl _) ⟨rest, hholds.flush⟩ h.offset_le hsize.ge
    (fun _ hi => h.onDisk_flush hi) (fun _ _ hi => Segment.onDisk_complete (Or.inl hi)) hgrown

private theorem ensureCapacity (entrySize : ℕ) :
    ∃ next, run.segment.ensureCapacity entrySize = some next ∧
      next.capacity % 8 = 0 ∧ ∀ {grown}, grown % 8 = 0 →
        ({ run with segment := next, grown } : SegmentRun).Kept env seed := by
  obtain ⟨rest, hholds⟩ := h.holds
  obtain ⟨next, nextRest, hnext, hnextHolds, -⟩ := hholds.ensureCapacity entrySize
  refine ⟨next, hnext, hnextHolds.aligned, fun hgrown => ?_⟩
  rcases Segment.ensureCapacity_cases hnext with rfl | ⟨hoffset, hsize, hdisk⟩
  · exact { h with grown := hgrown }
  have hle := h.offset_le
  refine h.advance (prefix_refl _) ⟨_, hnextHolds⟩ (by omega) (by omega) ?_ ?_ hgrown
  · intro i hi hi'
    exact hdisk i (h.onDisk_flush (by omega) hi')
  · exact fun i _ hi => hdisk i (Segment.onDisk_complete (Or.inl hi))

private theorem flushAsync : ∃ next, run.step env .flushAsync = some next ∧ next.Kept env seed := by
  obtain ⟨rest, hholds⟩ := h.holds
  have hsize := hholds.size
  have hle := h.offset_le
  have hcovers := @Segment.covers_pendingFlush run.segment
  refine ⟨_, rfl, ⟨rest, hholds.of_same_bytes rfl rfl rfl⟩, le_rfl, fun i hi => ?_,
    h.flushed_entries, h.flushed_le.trans ?_, ?_, ?_, ?_, h.grown⟩
  · have hcovered := h.covered i
    simp only [mem_append, mem_singleton] at hi ⊢
    rcases Nat.lt_or_ge i (max headerLen run.segment.flushOffset) with hlt | hge
    · exact (hcovered hlt).imp_right fun ⟨call, hcall, hi⟩ => ⟨call, Or.inl hcall, hi⟩
    · exact Or.inr ⟨_, Or.inr rfl, (hcovers hle).mpr (by omega)⟩
  · dsimp only
    omega
  · simp only [forall_mem_append, forall_mem_singleton]
    exact ⟨fun call hcall => (h.pending_le call hcall).trans hle, hsize.ge⟩
  · simp only [forall_mem_append, forall_mem_singleton]
    exact ⟨h.ends, fun i hi => hsize ▸ ((hcovers hle).mp hi).2⟩
  · refine pairwise_append.mpr ⟨h.ordered, pairwise_singleton .., fun call hcall => ?_⟩
    rw [forall_mem_singleton]
    exact fun i hi => (h.pending_le call hcall).trans ((hcovers hle).mp hi).1

private theorem finish {i : ℕ} {call : FlushCall} (hcall : run.pending[i]? = some call) :
    ({ run with
        segment := run.segment.complete call.range
        pending := run.pending.eraseIdx i } : SegmentRun).Kept env seed := by
  obtain ⟨rest, hholds⟩ := h.holds
  have hsize := Segment.size_complete run.segment call.range
  have hoffset : (run.segment.complete call.range).flushOffset = run.segment.flushOffset := by
    cases call.range <;> rfl
  have hsub := eraseIdx_sublist run.pending i
  constructor <;> dsimp only <;> try rw [hoffset]
  · exact ⟨rest, hholds.complete call.range⟩
  · exact hsize.ge.trans' h.offset_le
  · intro j hj
    rcases h.covered j hj with hdisk | ⟨other, hother, hcovers⟩
    · exact Or.inl (Segment.onDisk_complete (Or.inl hdisk))
    obtain ⟨k, hk⟩ := mem_iff_getElem?.mp hother
    by_cases heq : k = i
    · subst heq
      cases hcall.symm.trans hk
      exact Or.inl (Segment.onDisk_complete (Or.inr hcovers))
    · exact Or.inr ⟨other, mem_eraseIdx_iff_getElem?.mpr ⟨k, heq, hk⟩, hcovers⟩
  · exact h.flushed_entries
  · exact h.flushed_le
  · exact fun call hcall => h.pending_le call (hsub.subset hcall)
  · exact fun call hcall => h.ends call (hsub.subset hcall)
  · exact h.ordered.sublist hsub
  · exact h.grown

/-- Every call is answered, and keeps the invariant. -/
theorem step {call : SegmentCall} (hcall : call.Fits) :
    ∃ next, run.step env call = some next ∧ next.Kept env seed := by
  cases call with
  | append data => exact h.append hcall
  | ensureCapacity entrySize =>
    obtain ⟨next, hnext, -, hkept⟩ := h.ensureCapacity entrySize
    refine ⟨_, by rw [SegmentRun.step, hnext]; rfl, hkept ?_⟩
    split
    · exact h.grown
    · rfl
  | resizeFails entrySize enlarged =>
    obtain ⟨rest, hholds⟩ := h.holds
    obtain ⟨next, hnext, haligned, -⟩ := h.ensureCapacity entrySize
    refine ⟨_, by rw [SegmentRun.step, hnext]; rfl, ?_⟩
    dsimp only
    split
    · exact h
    have haligned' := hholds.aligned
    refine h.flush ?_
    split
    · omega
    · exact h.grown
  | flush ok =>
    refine ⟨_, rfl, ?_⟩
    cases ok with
    | false => exact h
    | true =>
      obtain ⟨rest, hholds⟩ := h.holds
      have hflush := h.flush h.grown
      refine { hflush with flushed_entries := prefix_refl _, flushed_le := ?_ }
      exact hholds.size.ge.trans (Nat.le_max_right ..)
  | flushAsync => exact h.flushAsync
  | finish i ok =>
    cases hpending : run.pending[i]? with
    | none => exact ⟨run, by simp [SegmentRun.step, hpending], h⟩
    | some call =>
      cases ok with
      | false => exact ⟨run, by simp [SegmentRun.step], h⟩
      | true => exact ⟨_, by simp only [SegmentRun.step, hpending], h.finish hpending⟩

/-- Every run is answered, and keeps the invariant. -/
theorem foldlM {calls : List SegmentCall} (hcalls : ∀ call ∈ calls, call.Fits) :
    ∃ next, calls.foldlM (SegmentRun.step env) run = some next ∧ next.Kept env seed := by
  induction calls generalizing run with
  | nil => exact ⟨run, rfl, h⟩
  | cons call calls ih =>
    obtain ⟨hcall, hcalls⟩ := forall_mem_cons.mp hcalls
    obtain ⟨next, hstep, hkept⟩ := h.step hcall
    grind

/-- A call that reports `Ok` has put on disk what was appended before it, if every `flush_async`
before it has succeeded. -/
private theorem reports {call : SegmentCall} {next : SegmentRun} {entries : List (List UInt8)}
    (hnext : run.step env call = some next) (hreports : run.reports call = some entries)
    (hearlier : run.EarlierSucceeded call) :
    next.segment.Synced (headerLen + encodedSize entries) := by
  obtain ⟨rest, hholds⟩ := h.holds
  cases call with
  | append | ensureCapacity | resizeFails | flushAsync => cases hreports
  | flush ok =>
    cases ok with
    | false => cases hreports
    | true =>
      cases hreports
      cases hnext
      rw [← hholds.size]
      have hcovered := h.covered
      rw [show run.pending = [] from hearlier] at hcovered
      exact fun i hi => h.onDisk_flush hi (by grind)
  | finish i ok =>
    cases ok with
    | false => cases hreports
    | true =>
      obtain ⟨call, hcall, rfl⟩ := Option.map_eq_some_iff.mp hreports
      simp only [SegmentRun.step, hcall] at hnext
      cases hnext
      intro j hj
      have hle := h.pending_le call (mem_of_getElem? hcall)
      refine Segment.onDisk_complete ((h.covered j (by omega)).imp_right ?_)
      -- a call after the earliest one covers later bytes only
      rintro ⟨other, hother, hcovers⟩
      rw [show i = 0 from hearlier] at hcall
      cases hpending : run.pending with
      | nil => simp [hpending] at hcall
      | cons first later =>
        have hordered := h.ordered
        rw [hpending] at hcall hother hordered
        cases hcall
        rcases mem_cons.mp hother with rfl | hlater
        · exact hcovers
        · exact absurd ((pairwise_cons.mp hordered).1 other hlater j hcovers) (by omega)

end

end Kept

private theorem kept_create {capacity : ℕ} {segment : Segment}
    (h : Segment.create capacity seed = .ok segment) :
    ({ segment, entries := [], flushed := [], grown := 0, pending := [] } :
      SegmentRun).Kept env seed := by
  by_cases hcapacity : headerLen ≤ capacity
  swap
  · unfold Segment.create headerLen at *
    rw [if_pos (by omega)] at h
    cases h
  obtain ⟨created, hcreate, hholds⟩ := @Segment.create_holds env.crc32cAppend _ hcapacity seed
  cases h.symm.trans hcreate
  have hdurable := Segment.create_durable h
  exact ⟨⟨_, hholds⟩, hdurable.offset_le, fun i hi => Or.inl ((lt_max_iff.mp hi).elim
      (hdurable.entries_synced i) (hdurable.offset_synced i)), prefix_refl _, Nat.le_max_left ..,
    by simp, by simp, .nil, rfl⟩

/-! ### Crashes -/

private theorem pending_foldlM {calls : List SegmentCall} {next : SegmentRun}
    (hcalls : ∀ call ∈ calls, call.Synchronous) (h : calls.foldlM (step env) run = some next) :
    next.pending = run.pending := by
  induction calls generalizing run with
  | nil => cases h; rfl
  | cons call calls ih =>
    obtain ⟨hcall, hcalls⟩ := forall_mem_cons.mp hcalls
    obtain ⟨second, hsecond, hrest⟩ := Option.bind_eq_some_iff.mp h
    cases call with
    | flushAsync | finish => cases hcall
    | append | flush =>
      rw [step] at hsecond
      grind
    | ensureCapacity | resizeFails =>
      obtain ⟨segment, -, rfl⟩ := Option.map_eq_some_iff.mp hsecond
      grind

/-- Appends entries, and makes room for each of them. -/
def appendAll (env : Environment) (segment : Segment) : List (List UInt8) → Option Segment
  | [] => some segment
  | data :: entries => do
    let segment ← segment.ensureCapacity data.length
    let (segment, _) ← segment.append env.crc32cAppend data
    appendAll env segment entries

private theorem appendAll_holds {segment : Segment} {rest : List UInt8}
    {entries later : List (List UInt8)} (h : segment.Holds env.crc32cAppend seed rest entries)
    (hlater : ∀ data ∈ later, data.length < 2 ^ 63) :
    ∃ last rest, appendAll env segment later = some last ∧
      last.Holds env.crc32cAppend seed rest (entries ++ later) := by
  induction later generalizing segment rest entries with
  | nil => exact ⟨segment, rest, rfl, by rwa [append_nil]⟩
  | cons data later ih =>
    obtain ⟨hdata, hlater⟩ := forall_mem_cons.mp hlater
    obtain ⟨roomy, room, hroomy, hholds, hfits⟩ := h.ensureCapacity data.length
    obtain ⟨next, hnext, hnextHolds, -⟩ := hholds.append hdata hfits
    obtain ⟨last, lastRest, hlast, hlastHolds⟩ := ih hnextHolds hlater
    refine ⟨last, lastRest, ?_, by rwa [append_assoc] at hlastHolds⟩
    rw [appendAll, hroomy, Option.bind_eq_bind, Option.bind_some, hnext]
    exact hlast

/-- After any run of appends, resizes and flushes and a crash, the segment that is opened has the
first of the appended entries, among them those of the last successful flush, and it takes further
entries, which are read after the recovered ones. -/
theorem crash_recovers_front {env : Environment} {capacity : ℕ} {seed : UInt32} {segment : Segment}
    (hcreate : Segment.create capacity seed = .ok segment) {calls : List SegmentCall}
    (hcalls : ∀ call ∈ calls, call.Synchronous ∧ call.Fits) :
    ∃ run, SegmentRun.calls env segment calls = some run ∧
      ∀ file, run.CrashFile file → run.segment.TornSafe env file →
        ∃ recovered kept, Segment.openFile env.crc32cAppend file = .ok recovered ∧
          run.flushed <+: kept ∧ kept <+: run.entries ∧ (∀ i, recovered.entry i = kept[i]?) ∧
          ∀ later : List (List UInt8), (∀ data ∈ later, data.length < 2 ^ 63) →
            ∃ last, appendAll env recovered later = some last ∧
              ∀ i, last.entry i = (kept ++ later)[i]? := by
  obtain ⟨run, hrun, hkept⟩ := (kept_create hcreate).foldlM fun call hcall => (hcalls call hcall).2
  refine ⟨run, hrun, ?_⟩
  rintro file ⟨mapped, hcrash, rfl⟩ hsafe
  obtain ⟨rest, hholds⟩ := hkept.holds
  have hpending : run.pending = [] := pending_foldlM (fun call hcall => (hcalls call hcall).1) hrun
  have hflushed := prefix_iff_eq_take.mp hkept.flushed_entries
  have hsynced : run.segment.Synced (headerLen + encodedSize run.flushed) := by
    intro i hi
    have hcovered := hkept.covered i (hi.trans_le hkept.flushed_le)
    rw [hpending] at hcovered
    exact hcovered.resolve_right (by simp)
  have hlength : headerLen + encodedSize run.flushed ≤ mapped.length := by
    have hcapacity := hholds.capacity
    have hsize := hholds.size
    have hle := hkept.flushed_le
    have hoffset := hkept.offset_le
    rw [hcrash.length_eq]
    unfold Segment.capacity at hcapacity
    omega
  have haligned : (mapped ++ replicate run.grown 0).length % 8 = 0 := by
    have hmapped := hholds.aligned
    have hgrown := hkept.grown
    rw [length_append, length_replicate, hcrash.length_eq]
    unfold Segment.capacity at hmapped
    omega
  have hfront : (mapped ++ replicate run.grown 0).take (headerLen + encodedSize run.flushed) =
      run.segment.mmap.bytes.take (headerLen + encodedSize run.flushed) := by
    rw [take_append_of_le_length hlength, hcrash.take_eq hsynced]
  rw [hflushed] at hfront
  obtain ⟨recovered, more, hmore, -, hopen, openedSeed, openedRest, hopened⟩ :=
    hholds.recover_front haligned hsafe hkept.flushed_entries.length_le hfront
  refine ⟨recovered, run.entries.take more, hopen, ?_, take_prefix .., hopened.entry, ?_⟩
  · rw [hflushed]
    exact take_prefix_take_left hmore
  · intro later hlater
    obtain ⟨last, lastRest, hlast, hlastHolds⟩ := appendAll_holds hopened hlater
    exact ⟨last, hlast, hlastHolds.entry⟩

/-- A crash tears the second of two entries: the byte of its data is still the old one. The
first, which was flushed, is recovered, and a further entry is appended after it. -/
theorem crash_recovers_torn_entry :
    ∃ segment run recovered, Segment.create 64 0 = .ok segment ∧
      SegmentRun.calls summingEnvironment segment [.append [5], .flush true, .append [6]] =
        some run ∧ run.CrashFile (run.segment.mmap.bytes.set 32 0) ∧
      Segment.openFile summingEnvironment.crc32cAppend (run.segment.mmap.bytes.set 32 0) =
        .ok recovered ∧
      recovered.entry 0 = some [5] ∧
      ∃ last, appendAll summingEnvironment recovered [[7]] = some last := by
  obtain ⟨run, hrun, hcrash⟩ := @crash_recovers_front summingEnvironment 64 0 _ rfl
    [.append [5], .flush true, .append [6]] (by simp [SegmentCall.Synchronous, SegmentCall.Fits])
  cases hrun
  have hrecover := fun file hfile hsafe => And.intro hfile (hcrash file hfile hsafe)
  obtain ⟨hfile, recovered, kept, hopen, hflushed, -, hentry, hlater⟩ := hrecover _
    ⟨_, @Segment.crashFile_set _ 32 0 rfl, (append_nil _).symm⟩ (by
    intro seed rest entries hholds count hcount hparse
    obtain rfl : [[5], [6]] = entries := by
      refine @Segment.Holds.entries_unique _ [[5], [6]] (replicate 24 0) 0 _ _ _ _ ?_ hholds
      exact ⟨by decide +kernel, by decide +kernel, by decide +kernel, by decide +kernel, by simp⟩
    -- the first entry is the one that was written, and the CRC of the second does not match
    have hcases : count = 0 ∨ count = 1 ∨ count = 2 := by
      simp only [length_cons, length_nil] at hcount
      omega
    rcases hcases with rfl | rfl | rfl
    · exact ⟨_, _, rfl, rfl⟩
    · exact absurd rfl hparse
    · exact absurd rfl hparse)
  obtain ⟨last, hlast, -⟩ := hlater [[7]] (by simp)
  obtain ⟨more, rfl⟩ := hflushed
  exact ⟨_, _, recovered, rfl, rfl, hfile, hopen, hentry 0, last, hlast⟩

/-! ### Background flushes -/

/-- In every run of a segment, an `Ok` of `flush` or of `flush_async` means that every entry
appended before the call is on disk, if every `flush_async` before the call has succeeded. -/
theorem flush_ok_durable {env : Environment} {capacity : ℕ} {seed : UInt32} {segment : Segment}
    (hcreate : Segment.create capacity seed = .ok segment) {calls : List SegmentCall}
    (hcalls : ∀ call ∈ calls, call.Fits) :
    ∃ run, SegmentRun.calls env segment calls = some run ∧
      ∀ call next entries, run.step env call = some next → run.reports call = some entries →
        run.EarlierSucceeded call → next.segment.Synced (headerLen + encodedSize entries) := by
  obtain ⟨run, hrun, hkept⟩ := (kept_create hcreate).foldlM hcalls
  exact ⟨run, hrun, fun _ _ _ => hkept.reports⟩

theorem flush_ok_durable_after_success :
    ∃ segment run next, Segment.create 64 0 = .ok segment ∧
      SegmentRun.calls constantEnvironment segment [.append [5], .flushAsync, .finish 0 true] =
        some run ∧ run.step constantEnvironment (.flush true) = some next ∧
      next.segment.Synced (headerLen + encodedSize [[5]]) := by
  obtain ⟨run, hrun, hdurable⟩ := @flush_ok_durable constantEnvironment 64 0 _ rfl
    [.append [5], .flushAsync, .finish 0 true] (by simp [SegmentCall.Fits])
  cases hrun
  exact ⟨_, _, _, rfl, rfl, rfl, hdurable (.flush true) _ _ rfl rfl rfl⟩

/-- A `flush_async` fails, and the next `flush` reports `Ok` without flushing anything. -/
theorem failed_flush_async_is_forgotten :
    ∃ segment run next, Segment.create 64 0 = .ok segment ∧
      calls constantEnvironment segment [.append [5], .flushAsync, .finish 0 false] =
        some run ∧ run.step constantEnvironment (.flush true) = some next ∧
      run.reports (.flush true) = some [[5]] ∧
      ¬next.segment.Synced (headerLen + encodedSize [[5]]) := by
  refine ⟨_, _, _, rfl, rfl, rfl, rfl, fun h => ?_⟩
  have hfirst := h 8 (by decide)
  revert hfirst
  decide

end SegmentRun

end Stratumind.WriteAhead
